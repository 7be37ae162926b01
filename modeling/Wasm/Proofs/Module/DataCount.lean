import Wasm.Proofs.Deciding
import Wasm.Proofs.Module.CustomSections

/-! # Declared and undeclared data

A body is lowered in the same way under both (`Body.Lowered.declaring`). -/

namespace Wasm

open List Section Leb128
open Decode (Reads Each)

variable {count? : Option Nat} {options : CompileOptions} {kind : Section}
  {frames front back : List (Section × List UInt8)} {body content : List UInt8}

/-! ## Bodies -/

def BodyContext.declaring (ctx : BodyContext) (count? : Option Nat) : BodyContext :=
  { ctx with dataCount := count? }

section

variable {ctx : BodyContext}

variable {i : Instr} {index : Nat} {accessors accessors' : Accessors}

theorem Instr.Fixed.declaring {ps rs : List ValueType} (h : Instr.Fixed ctx i ps rs)
    (hd : ∀ index, i.dataIndex? = some index → ∀ count, count? = some count → index < count) :
    Instr.Fixed (ctx.declaring count?) i ps rs := by
  cases h with
  | memoryInit hm _ => exact .memoryInit hm (hd _ rfl)
  | dataDrop _ => exact .dataDrop (hd _ rfl)
  | _ => constructor <;> assumption

theorem Instr.Moves.declaring {labels : List (List ValueType)} {unr unr' : Bool}
    {ops ops' : List Operand} (h : Instr.Moves ctx labels i unr ops unr' ops')
    (hd : ∀ index, i.dataIndex? = some index → ∀ count, count? = some count → index < count) :
    Instr.Moves (ctx.declaring count?) labels i unr ops unr' ops' := by
  cases h with
  | fixed h ht => exact .fixed (h.declaring hd) ht
  | unreachable => exact .unreachable
  | br h ht => exact .br h ht
  | ret h ht => exact .ret h ht
  | brIf h ht => exact .brIf h ht
  | brTable hi h hc ht => exact .brTable hi h hc ht
  | drop h => exact .drop h
  | select hi h2 h1 hs hn => exact .select hi h2 h1 hs hn
  | refIsNull h ho => exact .refIsNull h ho

theorem Code.Lowers.declaring {os : List Scope} {sc sc' : Scope} {c : Code} {e e' : Emission}
    (h : c.Lowers ctx os sc e sc' e')
    (hd : ∀ i ∈ c.instrs, ∀ index, i.dataIndex? = some index →
      ∀ count, count? = some count → index < count) :
    c.Lowers (ctx.declaring count?) os sc e sc' e' := by
  induction h with
  | done => exact .done
  | plain hm _ ih =>
    simp only [Code.instrs, forall_mem_cons] at hd
    exact .plain (hm.declaring hd.1) (ih hd.2)
  | block ht hp _ hc _ ihb ihn =>
    simp only [Code.instrs, forall_mem_cons, forall_mem_append] at hd
    obtain ⟨-, hb, -, hn⟩ := hd
    exact .block ht hp (ihb hb) hc (ihn hn)
  | loop ht hp _ hc _ ihb ihn =>
    simp only [Code.instrs, forall_mem_cons, forall_mem_append] at hd
    obtain ⟨-, hb, -, hn⟩ := hd
    exact .loop ht hp (ihb hb) hc (ihn hn)
  | ifThen ht hsame hp _ hc _ ihy ihn =>
    simp only [Code.instrs, forall_mem_cons, forall_mem_append] at hd
    obtain ⟨-, hy, -, hn⟩ := hd
    exact .ifThen ht hsame hp (ihy hy) hc (ihn hn)
  | ifElse ht hp _ hc1 _ hc2 _ ihy ihno ihn =>
    simp only [Code.instrs, forall_mem_cons, forall_mem_append] at hd
    obtain ⟨-, hy, -, hno, -, hn⟩ := hd
    exact .ifElse ht hp (ihy hy) hc1 (ihno hno) hc2 (ihn hn)

theorem Body.Compiles.declaring {body : Body} {func : CompiledFunction}
    (h : body.Compiles ctx index accessors func accessors')
    (hd : ∀ data ∈ body.dataIndices, ∀ count, count? = some count → data < count) :
    body.Compiles (ctx.declaring count?) index accessors func accessors' := by
  obtain ⟨ht, hmax, hl, hc, hf⟩ := h
  exact ⟨ht, hmax, hl.declaring fun i hi index hindex =>
    hd index (mem_filterMap.mpr ⟨i, hi, hindex⟩), hc, hf⟩

theorem Body.Lowered.declaring {bodies : List Body} {functions : List CompiledFunction}
    (h : Body.Lowered ctx index accessors bodies functions accessors')
    (hd : ∀ body ∈ bodies, ∀ data ∈ body.dataIndices, ∀ count, count? = some count → data < count) :
    Body.Lowered (ctx.declaring count?) index accessors bodies functions accessors' := by
  induction h with
  | nil => exact .nil
  | cons h _ ih =>
    exact .cons (h.declaring (hd _ mem_cons_self))
      (ih fun body hb => hd body (mem_cons_of_mem _ hb))

end

/-! ## Contents -/

namespace Contents

def declaring (m : Contents) (count? : Option Nat) : Contents := { m with dataCount := count? }

variable {m : Contents}

theorem same_declaring (h : kind ≠ .dataCount) : m.Same (m.declaring count?) kind :=
  (same_set_of_ne m (m.declaring count?) h).symm

theorem Valid.declaring (h : m.Valid options)
    (hcount : ∀ count, count? = some count → count = m.data.length) :
    (m.declaring count?).Valid options := by
  refine ⟨fun kind => ?_, h.dataIndices⟩
  have hkind := h.judged kind
  cases kind with
  | code =>
    refine ⟨hkind.1, hkind.2.declaring fun body hb data hdata count hc => ?_⟩
    rw [hcount count hc]
    exact h.dataIndices body hb data hdata
  | data => exact ⟨hkind.1, hcount⟩
  | _ => exact hkind

def HeldIn (m : Contents) (frames : List (Section × List UInt8)) (kind : Section) : Prop :=
  (∀ content, (kind, content) ∈ frames → m.SectionForm content kind) ∧
    ((∀ content, (kind, content) ∉ frames) → m.Absent kind)

def WrittenIn (m : Contents) (frames : List (Section × List UInt8)) : Prop :=
  (ranks frames).Pairwise (· < ·) ∧ ∀ kind : Section, kind ≠ .custom → m.HeldIn frames kind

variable {frames' : List (Section × List UInt8)}

theorem HeldIn.congr {m' : Contents} (h : m.HeldIn frames kind) (hsame : m.Same m' kind)
    (hmem : ∀ content, (kind, content) ∈ frames ↔ (kind, content) ∈ frames') :
    m'.HeldIn frames' kind := by
  refine ⟨fun content hf => (h.1 content ((hmem content).mpr hf)).congr hsame, fun hnot => ?_⟩
  exact hsame.symm.trans (h.2 fun content hf => hnot content ((hmem content).mp hf))

theorem ranks_append (front back : List (Section × List UInt8)) :
    ranks (front ++ back) = ranks front ++ ranks back := by
  rw [ranks, ranks, ranks, filter_append, map_append]

theorem exists_of_mem_ranks {rank : Nat} (h : rank ∈ ranks frames) :
    ∃ kind content, kind ≠ .custom ∧ (kind, content) ∈ frames ∧ kind.rank = rank := by
  obtain ⟨⟨kind, content⟩, hf, rfl⟩ := mem_map.mp h
  obtain ⟨hf, hkind⟩ := mem_filter.mp hf
  exact ⟨kind, content, by simpa using hkind, hf, rfl⟩

theorem mem_declaring : (kind, content) ∈ front ++ (.dataCount, body) :: back ↔
      (kind = .dataCount ∧ content = body) ∨ (kind, content) ∈ front ++ back := by
  rw [mem_append, mem_cons, mem_append, Prod.mk.injEq, or_left_comm]

section

variable (hfront : ∀ frame ∈ front, frame.1.rank ≤ element.rank)
  (hback : ∀ frame ∈ back, frame.1 ≠ .custom → Section.code.rank ≤ frame.1.rank)

include hfront hback

theorem ordered_declaring_iff : (ranks (front ++ (.dataCount, body) :: back)).Pairwise (· < ·) ↔
      (ranks (front ++ back)).Pairwise (· < ·) := by
  have hlow : ∀ rank ∈ ranks front, rank < Section.dataCount.rank := by
    intro rank hrank
    obtain ⟨kind, content, -, hf, rfl⟩ := exists_of_mem_ranks hrank
    exact Nat.lt_of_le_of_lt (hfront _ hf) (by decide)
  have hhigh : ∀ rank ∈ ranks back, Section.dataCount.rank < rank := by
    intro rank hrank
    obtain ⟨kind, content, hkind, hf, rfl⟩ := exists_of_mem_ranks hrank
    exact Nat.lt_of_lt_of_le (by decide) (hback _ hf hkind)
  rw [ranks_append, ranks_append, ranks_cons (by decide), pairwise_append,
    pairwise_append, pairwise_cons]
  constructor
  · rintro ⟨h1, ⟨-, h2⟩, h⟩
    exact ⟨h1, h2, fun a ha b hb => h a ha b (mem_cons_of_mem _ hb)⟩
  · rintro ⟨h1, h2, h⟩
    refine ⟨h1, ⟨hhigh, h2⟩, fun a ha b hb => ?_⟩
    obtain rfl | hb := mem_cons.mp hb
    · exact hlow a ha
    · exact h a ha b hb

theorem dataCount_not_mem (content : List UInt8) : (.dataCount, content) ∉ front ++ back := by
  intro hf
  obtain hf | hf := mem_append.mp hf
  · exact Nat.not_lt.mpr (hfront _ hf) (show element.rank < Section.dataCount.rank by decide)
  · exact Nat.not_lt.mpr (hback _ hf Section.noConfusion)
      (show Section.dataCount.rank < Section.code.rank by decide)

theorem WrittenIn.declare {count : Nat} (hbody : Leb128.Unsigned 32 body count)
    (h : m.WrittenIn (front ++ back)) :
    (m.declaring (some count)).WrittenIn (front ++ (.dataCount, body) :: back) := by
  refine ⟨(ordered_declaring_iff hfront hback).mpr h.1, fun kind hkind => ?_⟩
  by_cases hcount : kind = .dataCount
  · subst hcount
    refine ⟨fun content hf => ?_,
      fun hnot => absurd (mem_declaring.mpr (.inl ⟨rfl, rfl⟩)) (hnot body)⟩
    obtain ⟨-, rfl⟩ | hf := mem_declaring.mp hf
    · exact ⟨count, hbody, rfl⟩
    · exact absurd hf (dataCount_not_mem hfront hback content)
  · refine (h.2 kind hkind).congr (same_declaring hcount) fun content => ?_
    rw [mem_declaring, or_iff_right fun heq => hcount heq.1]

theorem WrittenIn.undeclare (h : m.WrittenIn (front ++ (.dataCount, body) :: back)) :
    (m.declaring none).WrittenIn (front ++ back) := by
  refine ⟨(ordered_declaring_iff hfront hback).mp h.1, fun kind hkind => ?_⟩
  by_cases hcount : kind = .dataCount
  · subst hcount
    exact ⟨fun content hf => absurd hf (dataCount_not_mem hfront hback content), fun _ => rfl⟩
  · refine (h.2 kind hkind).congr (same_declaring hcount) fun content => ?_
    rw [mem_declaring, or_iff_right fun heq => hcount heq.1]

end

end Contents

/-! ## Modules -/

namespace Module

variable {binary : ByteArray} {m : Module} {raw : List (UInt8 × List UInt8)}

def WrittenAs (options : CompileOptions) (m : Module) (raw : List (UInt8 × List UInt8)) : Prop :=
  ∃ frames contents, raw.map known? = frames.map some ∧ Contents.WrittenIn contents frames ∧
    contents.Valid options ∧ m = contents.module options

theorem compile_framed_iff (h : Framed binary.data.toList raw) :
    Module.compile options binary = .ok m ↔
      binary.data.toList.take 8 = headerBytes ∧ m.WrittenAs options raw := by
  obtain ⟨header, rest, hbytes, hlen, hraw⟩ := h
  have htake : binary.data.toList.take 8 = header := by rw [hbytes, take_left' hlen]
  constructor
  · intro hm
    obtain ⟨contents, ⟨frames, rest', hbytes', hframes, hwritten⟩, hvalid, hmodule⟩ :=
      Contents.exists_of_compile hm
    obtain ⟨rfl, rfl⟩ := List.append_inj (hbytes.symm.trans hbytes') hlen
    obtain ⟨raw', hraw', hknown⟩ := each_frame_iff.mp hframes
    obtain rfl := raw_inj hraw hraw'
    exact ⟨htake, frames, contents, hknown, hwritten, hvalid, hmodule⟩
  · rintro ⟨hheader, frames, contents, hknown, hwritten, hvalid, rfl⟩
    obtain rfl := htake.symm.trans hheader
    exact Contents.compile_eq
      ⟨frames, rest, hbytes, each_frame_iff.mpr ⟨raw, hraw, hknown⟩, hwritten⟩ hvalid

/-- The number that the body of a section begins with. -/
def entryCount (body : List UInt8) : Nat :=
  match Decode.u32 (.ofBytes ⟨body.toArray⟩ 0) with
  | .ok n _ => n
  | .error _ _ => 0

/-- The number of entries of the data section. -/
def dataEntries (frames : List (UInt8 × List UInt8)) : Nat :=
  match frames.find? fun frame => ofId? frame.1 = some .data with
  | some frame => entryCount frame.2
  | none => 0

theorem entryCount_append {bs rest : List UInt8} {n : Nat} (h : Leb128.Unsigned 32 bs n) :
    entryCount (bs ++ rest) = n := by
  have hleft : (Cursor.ofBytes ⟨(bs ++ rest).toArray⟩ 0).left = bs ++ rest :=
    Cursor.left_ofBytes _ _
  obtain ⟨c, ho, -⟩ := Cursor.exists_over hleft
  rw [entryCount, (Reads.u32 _ _ _).mpr ⟨bs, h, ho⟩]

theorem entryCount_lt (body : List UInt8) : entryCount body < 2 ^ 32 := by
  unfold entryCount
  split
  · next n c h =>
      obtain ⟨bs, hn, -⟩ := (Reads.u32 _ _ _).mp h
      exact hn.lt
  · decide

theorem dataEntries_lt (frames : List (UInt8 × List UInt8)) : dataEntries frames < 2 ^ 32 := by
  unfold dataEntries
  split
  · exact entryCount_lt _
  · decide

theorem mem_of_known (h : raw.map known? = frames.map some) :
    (kind, content) ∈ frames ↔ ∃ frame ∈ raw, ofId? frame.1 = some kind ∧ frame.2 = content := by
  have hmem : (kind, content) ∈ frames ↔ some (kind, content) ∈ raw.map known? := by
    rw [h]
    refine ⟨mem_map_of_mem, fun hm => ?_⟩
    obtain ⟨frame, hf, heq⟩ := mem_map.mp hm
    cases heq
    exact hf
  rw [hmem, mem_map]
  exact exists_congr fun frame => and_congr_right fun _ => known?_eq_some

theorem dataEntries_eq {contents : Contents} (hknown : raw.map known? = frames.map some)
    (hwritten : contents.WrittenIn frames) : dataEntries raw = contents.data.length := by
  obtain ⟨hform, habsent⟩ := hwritten.2 .data Section.noConfusion
  unfold dataEntries
  split
  · next frame hfind =>
      have hid : ofId? frame.1 = some .data := by simpa using find?_some hfind
      obtain ⟨bs, rest, hbytes, hcount, -⟩ := hform frame.2
        ((mem_of_known hknown).mpr ⟨frame, mem_of_find?_eq_some hfind, hid, rfl⟩)
      rw [hbytes]
      exact entryCount_append hcount
  · next hfind =>
      have hnone : contents.data = [] := habsent fun content hf => by
        obtain ⟨frame, hframe, hid, -⟩ := (mem_of_known hknown).mp hf
        exact find?_eq_none.mp hfind frame hframe (decide_eq_true hid)
      rw [hnone]
      rfl

section

variable {raw' : List (UInt8 × List UInt8)}
  (hbefore : ∀ frame ∈ raw, ∀ kind ∈ ofId? frame.1, kind.rank ≤ element.rank)
  (hbehind : ∀ frame ∈ raw', ∀ kind ∈ ofId? frame.1, kind ≠ .custom → Section.code.rank ≤ kind.rank)

include hbefore in
theorem rank_le_of_known (h : raw.map known? = front.map some) :
    ∀ frame ∈ front, frame.1.rank ≤ element.rank := by
  rintro ⟨kind, content⟩ hf
  obtain ⟨frame, hframe, hid, -⟩ := (mem_of_known h).mp hf
  exact hbefore frame hframe kind hid

include hbehind in
theorem le_rank_of_known (h : raw'.map known? = back.map some) :
    ∀ frame ∈ back, frame.1 ≠ .custom → Section.code.rank ≤ frame.1.rank := by
  rintro ⟨kind, content⟩ hf hkind
  obtain ⟨frame, hframe, hid, -⟩ := (mem_of_known h).mp hf
  exact hbehind frame hframe kind hid hkind

include hbefore hbehind

theorem WrittenAs.declare (hbody : Leb128.Unsigned 32 body (dataEntries (raw ++ raw')))
    (h : m.WrittenAs options (raw ++ raw')) :
    m.WrittenAs options (raw ++ (0x0C, body) :: raw') := by
  obtain ⟨frames, contents, hknown, hwritten, hvalid, rfl⟩ := h
  have hcount := dataEntries_eq hknown hwritten
  rw [map_append] at hknown
  obtain ⟨front, back, rfl, hfront, hback⟩ := map_eq_append_iff.mp hknown.symm
  refine ⟨front ++ (.dataCount, body) :: back,
    contents.declaring (some (dataEntries (raw ++ raw'))),
    ?_, ?_, hvalid.declaring ?_, rfl⟩
  · rw [map_append, map_cons, map_append, map_cons, hfront, hback]
    rfl
  · exact hwritten.declare (rank_le_of_known hbefore hfront.symm)
      (le_rank_of_known hbehind hback.symm) hbody
  · intro count hc
    cases hc
    exact hcount

theorem WrittenAs.undeclare (h : m.WrittenAs options (raw ++ (0x0C, body) :: raw')) :
    m.WrittenAs options (raw ++ raw') := by
  obtain ⟨frames, contents, hknown, hwritten, hvalid, rfl⟩ := h
  rw [map_append] at hknown
  obtain ⟨front, rest, rfl, hfront, hrest⟩ := map_eq_append_iff.mp hknown.symm
  obtain ⟨declaration, back, rfl, hdeclaration, hback⟩ := map_eq_cons_iff.mp hrest
  obtain rfl : declaration = (.dataCount, body) := Option.some.inj hdeclaration
  refine ⟨front ++ back, contents.declaring none, ?_, ?_, hvalid.declaring ?_, rfl⟩
  · rw [map_append, map_append, hfront, hback]
  · exact hwritten.undeclare (rank_le_of_known hbefore hfront.symm)
      (le_rank_of_known hbehind hback.symm)
  · intro count hc
    cases hc

end

/-- **Declaring the number of data segments ahead of the code changes nothing**: with the frame that
    declares it, the binary has the same module or none. -/
theorem compile_declaring_iff (options : CompileOptions) {front back : ByteArray}
    {raw raw' : List (UInt8 × List UInt8)} (hfront : Framed front.data.toList raw)
    (hback : Each Section.RawFrame raw' back.data.toList)
    (hbefore : ∀ frame ∈ raw, ∀ kind ∈ Section.ofId? frame.1, kind.rank ≤ Section.element.rank)
    (hbehind : ∀ frame ∈ raw', ∀ kind ∈ Section.ofId? frame.1, kind ≠ .custom →
      Section.code.rank ≤ kind.rank) :
    (∃ (declaration : ByteArray) (body : List UInt8),
      Section.RawFrame declaration.data.toList (0x0C, body) ∧
        Leb128.Unsigned 32 body (dataEntries (raw ++ raw'))) ∧
    ∀ (declaration : ByteArray) (body : List UInt8),
      Section.RawFrame declaration.data.toList (0x0C, body) →
      Leb128.Unsigned 32 body (dataEntries (raw ++ raw')) →
      ∀ m, Module.compile options (front ++ back) = .ok m ↔
        Module.compile options (front ++ declaration ++ back) = .ok m := by
  constructor
  · obtain ⟨body, hbody⟩ := exists_unsigned (by decide) (dataEntries_lt (raw ++ raw'))
    obtain ⟨size, hsize⟩ : ∃ size, Leb128.Unsigned 32 size body.length :=
      exists_unsigned (by decide) (Nat.lt_of_le_of_lt hbody.length_le (by decide))
    exact ⟨⟨(0x0C :: (size ++ body)).toArray⟩, body, ⟨size, rfl, hsize⟩, hbody⟩
  · intro declaration body hframe hbody m
    have hplain : Framed (front ++ back).data.toList (raw ++ raw') := by
      rw [ByteArray.data_append, Array.toList_append]
      exact hfront.append hback
    have hdeclared : Framed (front ++ declaration ++ back).data.toList
      (raw ++ (0x0C, body) :: raw') := by
      rw [ByteArray.data_append, ByteArray.data_append, Array.toList_append, Array.toList_append,
        append_assoc]
      exact hfront.append (.cons hframe hback)
    have hheader : (front ++ declaration ++ back).data.toList.take 8 =
        (front ++ back).data.toList.take 8 := by
      obtain ⟨header, rest, hbytes, hlen, -⟩ := hfront
      rw [ByteArray.data_append, ByteArray.data_append, ByteArray.data_append, Array.toList_append,
        Array.toList_append, Array.toList_append, hbytes, append_assoc, append_assoc,
        append_assoc, take_left' hlen, take_left' hlen]
    rw [compile_framed_iff hplain, compile_framed_iff hdeclared, hheader]
    exact and_congr_right fun _ =>
      ⟨fun h => h.declare hbefore hbehind hbody, fun h => h.undeclare hbefore hbehind⟩

def oneFunction : ByteArray :=
  ⟨#[0x00, 0x61, 0x73, 0x6D, 0x01, 0x00, 0x00, 0x00, 0x01, 0x04, 0x01, 0x60, 0x00, 0x00,
    0x03, 0x02, 0x01, 0x00]⟩

def droppingTwice : ByteArray :=
  ⟨#[0x0A, 0x0B, 0x01, 0x09, 0x00, 0xFC, 0x09, 0x01, 0x00, 0xFC, 0x09, 0x00, 0x0B,
    0x0B, 0x07, 0x02, 0x01, 0x01, 0xAA, 0x01, 0x01, 0xBB]⟩

theorem framed_oneFunction : Framed oneFunction.data.toList
    [(0x01, [0x01, 0x60, 0x00, 0x00]), (0x03, [0x01, 0x00])] := by
  refine ⟨[0x00, 0x61, 0x73, 0x6D, 0x01, 0x00, 0x00, 0x00],
    [0x01, 0x04, 0x01, 0x60, 0x00, 0x00] ++ ([0x03, 0x02, 0x01, 0x00] ++ []), rfl, rfl,
    .cons ?_ (.cons ?_ .nil)⟩
  · exact ⟨[0x04], rfl, unsigned_byte (by decide) (by decide) (by decide)⟩
  · exact ⟨[0x02], rfl, unsigned_byte (by decide) (by decide) (by decide)⟩

theorem each_droppingTwice : Each Section.RawFrame
    [(0x0A, [0x01, 0x09, 0x00, 0xFC, 0x09, 0x01, 0x00, 0xFC, 0x09, 0x00, 0x0B]),
      (0x0B, [0x02, 0x01, 0x01, 0xAA, 0x01, 0x01, 0xBB])] droppingTwice.data.toList := by
  have hcode : Section.RawFrame
      [0x0A, 0x0B, 0x01, 0x09, 0x00, 0xFC, 0x09, 0x01, 0x00, 0xFC, 0x09, 0x00, 0x0B]
      (0x0A, [0x01, 0x09, 0x00, 0xFC, 0x09, 0x01, 0x00, 0xFC, 0x09, 0x00, 0x0B]) :=
    ⟨[0x0B], rfl, unsigned_byte (by decide) (by decide) (by decide)⟩
  have hdata : Section.RawFrame [0x0B, 0x07, 0x02, 0x01, 0x01, 0xAA, 0x01, 0x01, 0xBB]
      (0x0B, [0x02, 0x01, 0x01, 0xAA, 0x01, 0x01, 0xBB]) :=
    ⟨[0x07], rfl, unsigned_byte (by decide) (by decide) (by decide)⟩
  exact .cons hcode (.cons hdata .nil)

/-- A body that drops two segments, declared or not. -/
theorem compile_declaring_droppingTwice : ∃ m,
    Module.compile .standard (oneFunction ++ droppingTwice) = .ok m ∧ m.data.size = 2 ∧
    Module.compile .standard (oneFunction ++ ⟨#[0x0C, 0x01, 0x02]⟩ ++ droppingTwice) = .ok m := by
  have hrun : ∃ m, Module.compile .standard (oneFunction ++ droppingTwice) = .ok m ∧
      m.data.size = 2 := by
    decide +kernel
  obtain ⟨m, hm, hsize⟩ := hrun
  have hform : Leb128.Unsigned 32 [0x02] 2 :=
    unsigned_byte (by decide) (by decide) (by decide)
  have hcount : Leb128.Unsigned 32 [0x02]
      (entryCount ([0x02] ++ [0x01, 0x01, 0xAA, 0x01, 0x01, 0xBB])) := by
    rwa [entryCount_append hform]
  have hdeclared := ((compile_declaring_iff .standard framed_oneFunction each_droppingTwice
    (by decide) (by decide)).2 ⟨#[0x0C, 0x01, 0x02]⟩ [0x02]
    ⟨[0x01], rfl, unsigned_byte (by decide) (by decide) (by decide)⟩
    hcount m).mp hm
  exact ⟨m, hm, hsize, hdeclared⟩

end Module

end Wasm
