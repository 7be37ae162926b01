import Wasm.Proofs.Module.Contents

/-! # Scripts of reads

Reads at any of the cursors that there are (`readers_disciplined`). -/

namespace Wasm

open List Decode

namespace Cursor

def Reaches (c c' : Cursor) : Prop := ∃ bs, c.Over bs c'

instance : Std.Refl Reaches := ⟨fun c => ⟨[], .refl c⟩⟩

instance : Trans Reaches Reaches Reaches where
  trans := by
    rintro c c1 c2 ⟨bs, h⟩ ⟨bs', h'⟩
    exact ⟨bs ++ bs', h.trans h'⟩

end Cursor

open Cursor (Reaches)

/-! ## Reads -/

/-- The reads of a cursor. -/
inductive Read : Type → Type 1
  | byte : Read UInt8
  | bytes (n : Nat) : Read ByteArray
  | skip (n : Nat) : Read Unit
  | sub (n : Nat) : Read Cursor
  | u32 : Read Nat
  | u64 : Read Nat
  | s32 : Read Int
  | s33 : Read Int
  | s64 : Read Int
  | f32 : Read (BitVec 32)
  | f64 : Read (BitVec 64)
  | utf8 (n : Nat) : Read String
  | name : Read String
  | valueType : Read ValueType
  | refType : Read ValueType
  | limits : Read Limits
  | blockType : Read BlockType

namespace Read

variable {α : Type} {c c' : Cursor}

def run : {α : Type} → Read α → Decode α
  | _, byte => Decode.byte
  | _, bytes n => Decode.bytes n
  | _, skip n => Decode.skip n
  | _, sub n => Decode.sub n
  | _, u32 => Decode.u32
  | _, u64 => Decode.u64
  | _, s32 => Decode.s32
  | _, s33 => Decode.s33
  | _, s64 => Decode.s64
  | _, f32 => Decode.f32
  | _, f64 => Decode.f64
  | _, utf8 n => Decode.utf8 n
  | _, name => Decode.name
  | _, valueType => Decode.valueType
  | _, refType => Decode.refType
  | _, limits => Decode.limits
  | _, blockType => Decode.blockType

/-- A read takes bytes whose number it knows beforehand. -/
def atOnce : {α : Type} → Read α → Bool
  | _, byte | _, bytes _ | _, skip _ | _, sub _ | _, f32 | _, f64 => true
  | _, _ => false

/-- The bytes that a read decodes, and its value. -/
def Form (c : Cursor) : {α : Type} → Read α → List UInt8 → α → Prop
  | _, byte, bs, b => bs = [b]
  | _, bytes n, bs, a => a.data.toList = bs ∧ bs.length = n
  | _, skip n, bs, _ => bs.length = n
  | _, sub n, bs, range => range.left = bs ∧ range.position = c.position ∧ bs.length = n
  | _, u32, bs, n => Leb128.Unsigned 32 bs n
  | _, u64, bs, n => Leb128.Unsigned 64 bs n
  | _, s32, bs, n => Leb128.Signed 32 bs n
  | _, s33, bs, n => Leb128.Signed 33 bs n
  | _, s64, bs, n => Leb128.Signed 64 bs n
  | _, f32, bs, w => bs.length = 4 ∧ w = BitVec.ofNat 32 (LittleEndian.toNat bs)
  | _, f64, bs, w => bs.length = 8 ∧ w = BitVec.ofNat 64 (LittleEndian.toNat bs)
  | _, utf8 n, bs, text => bs = text.toUTF8.data.toList ∧ bs.length = n
  | _, name, bs, text => Name.Form bs text
  | _, valueType, bs, type => bs = [type.code]
  | _, refType, bs, type => type.isRef = true ∧ bs = [type.code]
  | _, limits, bs, range => Limits.Form bs range
  | _, blockType, bs, type => BlockType.Form bs type

theorem form_of_run {r : Read α} {a : α} (h : r.run c = .ok a c') :
    ∃ bs, r.Form c bs a ∧ c.Over bs c' := by
  cases r with
  | byte => exact (Decode.Reads.byte _ _ _).mp h
  | bytes n => exact (Decode.Reads.bytes n _ _ _).mp h
  | skip n =>
    change Decode.skip n c = _ at h
    unfold Decode.skip at h
    split at h
    · next hn =>
      cases h
      exact ⟨_, length_take_of_le (c.length_left ▸ hn), c.over_advance hn⟩
    · cases h
  | sub n =>
    change Decode.sub n c = _ at h
    obtain ⟨ho, hlen⟩ := over_of_sub h
    unfold Decode.sub at h
    split at h
    · cases h
      exact ⟨_, ⟨rfl, rfl, hlen⟩, ho⟩
    · cases h
  | u32 => exact (Decode.Reads.u32 _ _ _).mp h
  | u64 => exact (Decode.Reads.u64 _ _ _).mp h
  | s32 => exact (Decode.Reads.s32 _ _ _).mp h
  | s33 => exact (Decode.Reads.s33 _ _ _).mp h
  | s64 => exact (Decode.Reads.s64 _ _ _).mp h
  | f32 => exact (Decode.Reads.f32 _ _ _).mp h
  | f64 => exact (Decode.Reads.f64 _ _ _).mp h
  | utf8 n => exact (Decode.Reads.utf8 n _ _ _).mp h
  | name => exact (Decode.Reads.name _ _ _).mp h
  | valueType => exact (Decode.Reads.valueType _ _ _).mp h
  | refType => exact (Decode.Reads.refType _ _ _).mp h
  | limits => exact (Decode.Reads.limits _ _ _).mp h
  | blockType => exact (Decode.Reads.blockType _ _ _).mp h

theorem eq_of_error {r : Read α} {e : CompileError} (hr : r.atOnce = true)
    (h : r.run c = .error e c') : c' = c := by
  have hbytes : ∀ {n e c'}, Decode.bytes n c = .error e c' → c' = c := by
    intro n e c' h
    unfold Decode.bytes at h
    split at h <;> cases h
    rfl
  cases r with
  | byte | skip n | sub n =>
    simp only [run, Decode.byte, Decode.skip, Decode.sub] at h
    split at h <;> cases h
    rfl
  | bytes n => exact hbytes h
  | f32 | f64 =>
    obtain h | ⟨_, _, -, h⟩ := bind_eq_error.mp h
    · exact hbytes h
    · cases h
  | _ => cases hr

theorem keeps_of_atOnce {r : Read α} (hr : r.atOnce = true) : Keeps Reaches r.run := by
  intro c
  cases h : r.run c with
  | ok a c' =>
    obtain ⟨bs, -, ho⟩ := form_of_run h
    exact ⟨bs, ho⟩
  | error e c' =>
    cases eq_of_error hr h
    exact ⟨[], .refl c⟩

theorem keeps_position : Keeps Reaches Decode.position := Keeps.get.bind fun _ => .pure _

theorem keeps_byte : Keeps Reaches Decode.byte := keeps_of_atOnce (r := byte) rfl

theorem keeps_bytes (n : Nat) : Keeps Reaches (Decode.bytes n) := keeps_of_atOnce (r := bytes n) rfl

theorem keeps_unsignedGroups (following bits : Nat) :
    Keeps Reaches (Decode.unsignedGroups following bits) := by
  induction following generalizing bits with
  | zero => exact keeps_position.bind fun _ => keeps_byte.bind fun _ => .ite (.pure _) (.throw _)
  | succ following ih =>
    exact keeps_byte.bind fun _ => .ite (.pure _) ((ih _).bind fun _ => .pure _)

theorem keeps_signedGroups (following bits : Nat) :
    Keeps Reaches (Decode.signedGroups following bits) := by
  induction following generalizing bits with
  | zero => exact keeps_position.bind fun _ => keeps_byte.bind fun _ => .ite (.pure _) (.throw _)
  | succ following ih =>
    exact keeps_byte.bind fun _ => .ite (.pure _) ((ih _).bind fun _ => .pure _)

theorem keeps_u32 : Keeps Reaches Decode.u32 := u32_eq ▸ keeps_unsignedGroups _ _

theorem keeps_u64 : Keeps Reaches Decode.u64 := u64_eq ▸ keeps_unsignedGroups _ _

theorem keeps_s32 : Keeps Reaches Decode.s32 := s32_eq ▸ keeps_signedGroups _ _

theorem keeps_s33 : Keeps Reaches Decode.s33 := s33_eq ▸ keeps_signedGroups _ _

theorem keeps_s64 : Keeps Reaches Decode.s64 := s64_eq ▸ keeps_signedGroups _ _

theorem keeps_utf8 (n : Nat) : Keeps Reaches (Decode.utf8 n) := by
  refine keeps_position.bind fun _ => (keeps_bytes n).bind fun bytes => ?_
  cases String.fromUTF8? bytes with
  | some text => exact .pure _
  | none => exact .throw _

theorem keeps_run (r : Read α) : Keeps Reaches r.run := by
  cases r with
  | byte | bytes n | skip n | sub n | f32 | f64 => exact keeps_of_atOnce rfl
  | u32 => exact keeps_u32
  | u64 => exact keeps_u64
  | s32 => exact keeps_s32
  | s33 => exact keeps_s33
  | s64 => exact keeps_s64
  | utf8 n => exact keeps_utf8 n
  | name => exact keeps_u32.bind keeps_utf8
  | valueType =>
    refine keeps_position.bind fun _ => keeps_byte.bind fun code => ?_
    cases ValueType.ofCode? code with
    | some type => exact .pure _
    | none => exact .throw _
  | refType =>
    refine keeps_position.bind fun _ => keeps_byte.bind fun code => ?_
    cases ValueType.ofCode? code with
    | some type => exact .ite (.pure _) (.throw _)
    | none => exact .throw _
  | limits =>
    refine keeps_position.bind fun _ => keeps_byte.bind fun _ => ?_
    refine keeps_u32.bind fun _ => .ite (.pure _) (.ite ?_ (.throw _))
    exact keeps_u32.bind fun _ => .ite (.pure _) (.throw _)
  | blockType =>
    refine keeps_position.bind fun _ => keeps_s33.bind fun raw => ?_
    refine keeps_position.bind fun _ => .ite (.pure _) (.ite (.throw _) (.ite (.pure _) ?_))
    cases ValueType.ofCode? _ with
    | some type => exact .pure _
    | none => exact .throw _

/-- The range that a read has opened. -/
def opened : {α : Type} → Read α → α → List Cursor
  | _, sub _, range => [range]
  | _, _, _ => []

end Read

/-! ## Scripts -/

/-- A read at one of the readers. -/
structure ReadCall where
  reader : Nat
  {α : Type}
  read : Read α

/-- The readers after a call, one more for a range that it opens. -/
def ReadCall.after (call : ReadCall) (readers : List Cursor) : List Cursor :=
  match readers[call.reader]? with
  | none => readers
  | some c =>
    match call.read.run c with
    | .ok a c' => readers.set call.reader c' ++ call.read.opened a
    | .error _ c' => readers.set call.reader c'

def afterScript (script : List ReadCall) (readers : List Cursor) : List Cursor :=
  script.foldl (fun readers call => call.after readers) readers

/-- What is left stands where the position says. -/
def Cursor.Within (bytes : ByteArray) (base : Nat) (c : Cursor) : Prop :=
  ∃ before behind, bytes.data.toList = before ++ c.left ++ behind ∧
    c.position = base + before.length

variable {readers : List Cursor} {bytes : ByteArray} {base : Nat} {c c' range : Cursor}

theorem Cursor.Within.of_reaches (h : c.Within bytes base) (hc : c.Reaches c') :
    c'.Within bytes base := by
  obtain ⟨before, behind, hbytes, hpos⟩ := h
  obtain ⟨bs, ho⟩ := hc
  refine ⟨before ++ bs, behind, ?_, ?_⟩
  · rw [hbytes, ho.left, ← append_assoc before]
  · rw [ho.position_eq, hpos, length_append, Nat.add_assoc]

theorem Cursor.Within.of_sub (h : c.Within bytes base) (ho : c.Over range.left c')
    (hpos : range.position = c.position) : range.Within bytes base := by
  obtain ⟨before, behind, hbytes, hbase⟩ := h
  refine ⟨before, c'.left ++ behind, ?_, hpos.trans hbase⟩
  rw [hbytes, ho.left]
  simp only [append_assoc]

theorem Cursor.Within.le (h : c.Within bytes base) :
    c.position + c.remaining ≤ base + bytes.size := by
  obtain ⟨before, behind, hbytes, hpos⟩ := h
  have hlen := congrArg List.length hbytes
  rw [length_append, length_append, c.length_left] at hlen
  have hsize : bytes.data.toList.length = bytes.size := rfl
  omega

theorem ReadCall.exists_after (call : ReadCall) (h : readers[call.reader]? = some c) :
    ∃ c' ranges, call.after readers = readers.set call.reader c' ++ ranges ∧ c.Reaches c' ∧
      ∀ range ∈ ranges, c.Over range.left c' ∧ range.position = c.position := by
  obtain ⟨i, read⟩ := call
  have hkeeps := read.keeps_run
  simp only [after, h]
  cases hrun : read.run c with
  | error e c' =>
    exact ⟨c', [], (append_nil _).symm, hkeeps.error hrun, by simp⟩
  | ok a c' =>
    refine ⟨c', read.opened a, rfl, hkeeps.ok hrun, fun range hmem => ?_⟩
    cases read with
    | sub n =>
      obtain rfl := mem_singleton.mp hmem
      obtain ⟨bs, ⟨rfl, hpos, -⟩, ho⟩ := Read.form_of_run hrun
      exact ⟨ho, hpos⟩
    | _ => cases hmem

theorem ReadCall.reaches_after (call : ReadCall) {i : Nat} (h : readers[i]? = some c) :
    ∃ c', (call.after readers)[i]? = some c' ∧ c.Reaches c' := by
  cases hc : readers[call.reader]? with
  | none =>
    simp only [after, hc]
    exact ⟨c, h, [], .refl c⟩
  | some c0 =>
    obtain ⟨c', ranges, hafter, hreach, -⟩ := call.exists_after hc
    have hlt : i < readers.length := (List.getElem?_eq_some_iff.mp h).1
    rw [hafter, getElem?_append_left (by rwa [length_set]), getElem?_set]
    by_cases hi : call.reader = i
    · subst hi
      rw [if_pos rfl, if_pos hlt]
      cases hc.symm.trans h
      exact ⟨c', rfl, hreach⟩
    · rw [if_neg hi]
      exact ⟨c, h, [], .refl c⟩

theorem ReadCall.within_after (call : ReadCall) (h : ∀ c ∈ readers, c.Within bytes base) :
    ∀ c ∈ call.after readers, c.Within bytes base := by
  intro d hd
  cases hc : readers[call.reader]? with
  | none =>
    simp only [after, hc] at hd
    exact h d hd
  | some c =>
    obtain ⟨c', ranges, hafter, hreach, hranges⟩ := call.exists_after hc
    have hwithin := h c (mem_of_getElem? hc)
    rw [hafter] at hd
    rcases mem_append.mp hd with hset | hopened
    · rcases mem_or_eq_of_mem_set hset with hmem | rfl
      · exact h d hmem
      · exact hwithin.of_reaches hreach
    · exact hwithin.of_sub (hranges d hopened).1 (hranges d hopened).2

theorem reaches_afterScript (script : List ReadCall) {i : Nat} (h : readers[i]? = some c) :
    ∃ c', (afterScript script readers)[i]? = some c' ∧ c.Reaches c' := by
  induction script generalizing readers c with
  | nil => exact ⟨c, h, [], .refl c⟩
  | cons call script ih =>
    obtain ⟨c1, h1, hreach⟩ := call.reaches_after h
    obtain ⟨c2, h2, hreach'⟩ := ih h1
    exact ⟨c2, h2, Trans.trans hreach hreach'⟩

theorem within_afterScript (script : List ReadCall) (h : ∀ c ∈ readers, c.Within bytes base) :
    ∀ c ∈ afterScript script readers, c.Within bytes base := by
  induction script generalizing readers with
  | nil => exact h
  | cons call script ih => exact ih (call.within_after h)

/-- **Readers keep to their ranges** in every script of reads: none moves back or beyond its end, a
    read moves over the bytes that it decodes, and what is read in a range is a beginning of its
    bytes. -/
theorem readers_disciplined (bytes : ByteArray) (base : Nat) (script later : List ReadCall) :
    let readers := afterScript script [.ofBytes bytes base]
    (∀ c ∈ readers, c.Within bytes base ∧ c.position + c.remaining ≤ base + bytes.size) ∧
    (∀ (i : Nat) c, readers[i]? = some c →
      ∃ c' bs, (afterScript later readers)[i]? = some c' ∧ c.Over bs c') ∧
    (∀ {α : Type} (r : Read α), ∀ c ∈ readers,
      (∀ a c', r.run c = .ok a c' → ∃ bs, r.Form c bs a ∧ c.Over bs c') ∧
      ∀ e c', r.run c = .error e c' → (∃ bs, c.Over bs c') ∧ (r.atOnce = true → c' = c)) ∧
    ∀ (i : Nat) c n range c', readers[i]? = some c → (Read.sub n).run c = .ok range c' →
      ∃ d bs, (afterScript later (ReadCall.after ⟨i, .sub n⟩ readers))[readers.length]? = some d ∧
        c.left.take n = bs ++ d.left ∧ d.position = c.position + bs.length := by
  intro readers
  have hstart : ∀ c ∈ [Cursor.ofBytes bytes base], c.Within bytes base := by
    intro c hc
    obtain rfl := mem_singleton.mp hc
    refine ⟨[], [], ?_, rfl⟩
    rw [Cursor.left_ofBytes, nil_append, append_nil]
  have hwithin := within_afterScript script hstart
  refine ⟨fun c hc => ⟨hwithin c hc, (hwithin c hc).le⟩, fun i c h => ?_, fun r c _ => ⟨fun a c' =>
    Read.form_of_run, fun e c' h => ⟨r.keeps_run.error h, fun hr => Read.eq_of_error hr h⟩⟩, ?_⟩
  · obtain ⟨c', h', bs, ho⟩ := reaches_afterScript later h
    exact ⟨c', bs, h', ho⟩
  · intro i c n range c' h hrun
    have hopen : (ReadCall.after ⟨i, .sub n⟩ readers)[readers.length]? = some range := by
      simp only [ReadCall.after, h, hrun, Read.opened]
      rw [getElem?_append_right (by rw [length_set]), length_set, Nat.sub_self]
      rfl
    obtain ⟨d, hd, bs, ho⟩ := reaches_afterScript later hopen
    obtain ⟨_, ⟨rfl, hpos, hlen⟩, hover⟩ := Read.form_of_run hrun
    refine ⟨d, bs, hd, ?_, ?_⟩
    · rw [← ho.left, hover.left, take_left' hlen]
    · rw [ho.position_eq, hpos]

end Wasm
