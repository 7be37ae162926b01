import Wasm.Proofs.Module.Relocation

/-! # Headers and frames

Binaries with the same frames are read in the same way (`Decode.replay`). -/

namespace Wasm

open List
open Decode (Reads Each)

variable {bs : List UInt8} {frames : List (UInt8 × List UInt8)} {options : CompileOptions}
  {binary : ByteArray}

/-! ## Frames with any id -/

namespace Section

variable {content : List UInt8} {kind : Section}

theorem frame_iff :
    Frame bs (kind, content) ↔ ∃ id, RawFrame bs (id, content) ∧ ofId? id = some kind := by
  constructor
  · rintro ⟨id, size, rfl, hid, hsize⟩
    exact ⟨id, ⟨size, rfl, hsize⟩, hid⟩
  · rintro ⟨id, ⟨size, rfl, hsize⟩, hid⟩
    exact ⟨id, size, rfl, hid, hsize⟩

def known? (frame : UInt8 × List UInt8) : Option (Section × List UInt8) :=
  (ofId? frame.1).map (·, frame.2)

theorem known?_eq_some {frame : UInt8 × List UInt8} :
    known? frame = some (kind, content) ↔ ofId? frame.1 = some kind ∧ frame.2 = content := by
  simp [known?]

theorem each_frame_iff {frames : List (Section × List UInt8)} :
    Each Frame frames bs ↔ ∃ raw, Each RawFrame raw bs ∧ raw.map known? = frames.map some := by
  constructor
  · intro h
    induction h with
    | nil => exact ⟨[], .nil, rfl⟩
    | @cons frame frames bs bs' hframe _ ih =>
      obtain ⟨raw, hraw, hknown⟩ := ih
      obtain ⟨id, hid, hkind⟩ := frame_iff.mp (show Frame bs (frame.1, frame.2) from hframe)
      refine ⟨_, .cons hid hraw, ?_⟩
      rw [map_cons, map_cons, hknown, known?_eq_some.mpr ⟨hkind, rfl⟩]
  · rintro ⟨raw, hraw, hknown⟩
    induction hraw generalizing frames with
    | nil =>
      obtain rfl := map_eq_nil_iff.mp hknown.symm
      exact .nil
    | @cons frame raw bs bs' hframe _ ih =>
      obtain ⟨found, frames, rfl, hfound, hrest⟩ := map_eq_cons_iff.mp hknown.symm
      obtain ⟨hkind, hbody⟩ := known?_eq_some.mp hfound.symm
      refine .cons (frame_iff.mpr ⟨frame.1, ?_, hkind⟩) (ih hrest.symm)
      rw [← hbody]
      exact hframe

end Section

def Decode.rawFrame : Decode (UInt8 × List UInt8) := do
  let id ← byte
  let body ← bytes (← u32)
  return (id, body.data.toList)

theorem Decode.Reads.rawFrame : Reads rawFrame Section.RawFrame := by
  refine (Reads.byte.bind fun id => Reads.u32.bind fun size => (Reads.bytes size).bind fun body =>
    Reads.pure (id, body.data.toList)).congr fun bs frame => ?_
  constructor
  · rintro ⟨_, _, id, rfl, rfl, size, _, n, rfl, hsize, _, _, body, rfl, ⟨rfl, hlen⟩, rfl, rfl⟩
    refine ⟨size, ?_, hlen.symm ▸ hsize⟩
    rw [append_nil]
    rfl
  · rintro ⟨size, rfl, hsize⟩
    obtain ⟨id, body⟩ := frame
    exact ⟨[id], _, id, rfl, rfl, size, body, _, rfl, hsize, body, [], ⟨body.toArray⟩,
      (append_nil _).symm, ⟨rfl, rfl⟩, rfl, rfl⟩

theorem Section.raw_inj {raw raw' : List (UInt8 × List UInt8)}
    (h : Each RawFrame raw bs) (h' : Each RawFrame raw' bs) : raw = raw' :=
  Each.inj Reads.rawFrame (fun _ _ hframe => hframe.ne_nil) h h'

/-- Any header of eight bytes, and frames. -/
def Module.Framed (bs : List UInt8) (frames : List (UInt8 × List UInt8)) : Prop :=
  ∃ header rest, bs = header ++ rest ∧ header.length = 8 ∧ Each Section.RawFrame frames rest

variable {bs' : List UInt8}

theorem Decode.Each.append {α : Type} {G : List UInt8 → α → Prop} {as as' : List α}
    (h : Each G as bs) (h' : Each G as' bs') : Each G (as ++ as') (bs ++ bs') := by
  induction h with
  | nil => exact h'
  | cons ha _ ih =>
    rw [append_assoc]
    exact .cons ha ih

theorem Module.Framed.append {frames' : List (UInt8 × List UInt8)} (h : Module.Framed bs frames)
    (h' : Each Section.RawFrame frames' bs') : Module.Framed (bs ++ bs') (frames ++ frames') := by
  obtain ⟨header, rest, rfl, hlen, hframes⟩ := h
  exact ⟨header, rest ++ bs', append_assoc .., hlen, hframes.append h'⟩

/-! ## Reading the same bytes before others -/

namespace Decode

def At (c1 c1' c c' : Cursor) : Prop := c = c1 ∧ c' = c1'

theorem header_of_over {first second : List UInt8} (hfirst : first.length = 4)
    (hsecond : second.length = 4) {c c1 c2 : Cursor} (ho1 : c.Over first c1)
    (ho2 : c1.Over second c2) :
    header c =
      if first ≠ magic then .error ⟨.badMagic, c.position⟩ c1
      else if LittleEndian.toNat second ≠ 1 then
        .error ⟨.unsupportedVersion (LittleEndian.toNat second), c1.position⟩ c2
      else .ok () c2 := by
  have hpos : ∀ c : Cursor, position c = .ok c.position c := fun _ => rfl
  have hread := (Reads.bytes 4 c ⟨first.toArray⟩ c1).mpr ⟨first, ⟨rfl, hfirst⟩, ho1⟩
  have hread' := (Reads.bytes 4 c1 ⟨second.toArray⟩ c2).mpr ⟨second, ⟨rfl, hsecond⟩, ho2⟩
  rw [header, bind_of_ok (hpos c), bind_of_ok hread, toList_eq_data]
  by_cases hmagic : first ≠ magic
  · rw [if_pos hmagic, if_pos hmagic]
    rfl
  rw [if_neg hmagic, if_neg hmagic]
  dsimp only
  rw [bind_of_ok (hpos c1), bind_of_ok hread', toList_eq_data]
  by_cases hversion : LittleEndian.toNat second ≠ 1
  · rw [if_pos hversion, if_pos hversion]
    rfl
  · rw [if_neg hversion, if_neg hversion]
    rfl

variable {R : Nat → Nat → Prop} {c c1 c' c1' : Cursor}

theorem replay_header (hlen : bs.length = 8) (ho : c.Over bs c1)
    (ho' : c'.Over bs c1') (hpos : c'.position = c.position)
    (hR : ∀ offset, c.position ≤ offset → offset ≤ c1.position → R offset offset) :
    Outcome R (At c1 c1') Eq (header c) (header c') := by
  have hend := ho.position_eq
  have hfirst : (bs.take 4).length = 4 := by rw [length_take]; omega
  have hsecond : (bs.drop 4).length = 4 := by rw [length_drop]; omega
  rw [← bs.take_append_drop 4] at ho ho'
  obtain ⟨c2, ho1, ho2⟩ := ho.split
  obtain ⟨c2', ho1', ho2'⟩ := ho'.split
  have hpos2 := ho1.position_eq
  have hpos2' := ho1'.position_eq
  rw [header_of_over hfirst hsecond ho1 ho2, header_of_over hfirst hsecond ho1' ho2']
  split
  · refine .error ⟨rfl, ?_, rfl⟩
    show R c.position c'.position
    rw [hpos]
    exact hR _ (Nat.le_refl _) (by omega)
  · split
    · refine .error ⟨rfl, ?_, rfl⟩
      show R c2.position c2'.position
      rw [hpos2', hpos, ← hpos2]
      exact hR _ (by omega) (by omega)
    · exact .ok rfl ⟨rfl, rfl⟩

variable {state state' : Nat × Draft}

theorem replay_frame (options : CompileOptions) (h : SectionsRelocated .same R state state')
    {frame : UInt8 × List UInt8} (hframe : Section.RawFrame bs frame) (ho : c.Over bs c1)
    (ho' : c'.Over bs c1') (hpos : c'.position = c.position)
    (hR : ∀ offset, c.position ≤ offset → offset ≤ c1.position → R offset offset) :
    Outcome R (At c1 c1') (SectionsRelocated .same R) (oneSection options state c)
      (oneSection options state' c') := by
  obtain ⟨id, content⟩ := frame
  obtain ⟨c2, range, hleft, hstart, hstop, hone⟩ := oneSection_of_over options state hframe ho
  obtain ⟨c2', range', hleft', hstart', hstop', hone'⟩ :=
    oneSection_of_over options state' hframe ho'
  have hend := ho.position_eq
  have hend' := ho'.position_eq
  have hhere : R c.position c'.position := by
    rw [hpos]
    exact hR _ (Nat.le_refl _) (by omega)
  have hrange : range.Relocated R 0 range' := by
    refine ⟨hleft'.trans hleft.symm, by omega, fun offset hle hlt => hR offset (by omega) ?_⟩
    rw [← range.length_left, hleft, hstop] at hlt
    exact hlt
  rw [hone, hone']
  cases Section.ofId? id with
  | none => exact .error ⟨rfl, hhere, rfl⟩
  | some kind =>
    dsimp only
    split
    · exact .ok h ⟨rfl, rfl⟩
    · exact takeSection_outcome
        (CodeRelation.respected_same options) h hhere id kind hrange ⟨rfl, rfl⟩

def Continues (R : Nat → Nat → Prop) (options : CompileOptions) (c c' : Cursor)
    (r r' : EStateM.Result CompileError Cursor Module) : Prop :=
  (∃ state state', SectionsRelocated .same R state state' ∧ r = moduleBehind options state c ∧
      r' = moduleBehind options state' c') ∨
    ∃ e e' c1 c1', r = .error e c1 ∧ r' = .error e' c1' ∧ e.Relocated R e'

theorem replay_frames (h : SectionsRelocated .same R state state')
    (hframes : Each Section.RawFrame frames bs) (ho : c.Over bs c1) (ho' : c'.Over bs c1')
    (hpos : c'.position = c.position)
    (hR : ∀ offset, c.position ≤ offset → offset ≤ c1.position → R offset offset) :
    Continues R options c1 c1' (moduleBehind options state c) (moduleBehind options state' c') := by
  induction hframes generalizing c c' state state' with
  | nil =>
    obtain rfl := ho.unique (.refl c)
    obtain rfl := ho'.unique (.refl c')
    exact .inl ⟨state, state', h, rfl, rfl⟩
  | @cons frame frames bs bs' hframe _ ih =>
    obtain ⟨c2, ho1, ho2⟩ := ho.split
    obtain ⟨c2', ho1', ho2'⟩ := ho'.split
    have h1 := ho1.position_eq
    have h1' := ho1'.position_eq
    have h2 := ho2.position_eq
    have hbytes : ∀ {c c2 : Cursor}, c.Over bs c2 → c.left ≠ [] := fun ho hnil =>
      hframe.ne_nil (append_eq_nil_iff.mp (ho.left.symm.trans hnil)).1
    rw [moduleBehind_of_bytes (hbytes ho1), moduleBehind_of_bytes (hbytes ho1')]
    have hone := replay_frame options h hframe ho1 ho1' hpos fun offset hle hlt =>
      hR offset hle (by omega)
    obtain ⟨s, s', _, _, hx, hy, hs, rfl, rfl⟩ | ⟨e, e', c3, c3', hx, hy, he⟩ := hone.elim
    · rw [bind_of_ok hx, bind_of_ok hy]
      exact ih hs ho2 ho2' (by omega) fun offset hle hlt => hR offset (by omega) hlt
    · rw [bind_of_error hx, bind_of_error hy]
      exact .inr ⟨e, e', c3, c3', rfl, rfl, he⟩

theorem replay (options : CompileOptions) {front rest rest' : List UInt8}
    (hframed : Module.Framed front frames)
    {binary' : ByteArray} (hb : binary.data.toList = front ++ rest)
    (hb' : binary'.data.toList = front ++ rest') (hR : ∀ offset, offset ≤ front.length →
      R offset offset) :
    ∃ c c', c.left = rest ∧ c'.left = rest' ∧ c.position = front.length ∧
      c'.position = front.length ∧
      Continues R options c c' (Decode.module options (.ofBytes binary 0))
        (Decode.module options (.ofBytes binary' 0)) := by
  obtain ⟨c, ho, hleft⟩ := Cursor.exists_over ((Cursor.left_ofBytes binary 0).trans hb)
  obtain ⟨c', ho', hleft'⟩ := Cursor.exists_over ((Cursor.left_ofBytes binary' 0).trans hb')
  have hstart : (Cursor.ofBytes binary 0).position = 0 := rfl
  have hstart' : (Cursor.ofBytes binary' 0).position = 0 := rfl
  have hpos : c.position = front.length := by rw [ho.position_eq, hstart, Nat.zero_add]
  have hpos' : c'.position = front.length := by rw [ho'.position_eq, hstart', Nat.zero_add]
  refine ⟨c, c', hleft, hleft', hpos, hpos', ?_⟩
  obtain ⟨header, bs, rfl, hlen, hframes⟩ := hframed
  obtain ⟨c1, ho1, ho2⟩ := ho.split
  obtain ⟨c1', ho1', ho2'⟩ := ho'.split
  have h1 := ho1.position_eq
  have h1' := ho1'.position_eq
  have h2 := ho2.position_eq
  have hheader := replay_header hlen ho1 ho1' rfl fun offset _ hle => hR offset (by omega)
  rw [module_eq]
  obtain ⟨_, _, _, _, hx, hy, -, rfl, rfl⟩ | ⟨e, e', c2, c2', hx, hy, he⟩ := hheader.elim
  · rw [bind_of_ok hx, bind_of_ok hy]
    exact replay_frames ⟨rfl, Draft.relocated_empty options⟩ hframes ho2 ho2' (by omega)
      fun offset _ hle => hR offset (by omega)
  · rw [bind_of_error hx, bind_of_error hy]
    exact .inr ⟨e, e', c2, c2', rfl, rfl, he⟩

end Decode

namespace Module

theorem compile_of_ok {m : Module} {c : Cursor}
    (h : Decode.module options (.ofBytes binary 0) = .ok m c) :
    Module.compile options binary = .ok m := by
  rw [compile, h]

theorem compile_of_error {e : CompileError}
    {c : Cursor} (h : Decode.module options (.ofBytes binary 0) = .error e c) :
    Module.compile options binary = .error e := by
  rw [compile, h]

end Module

end Wasm
