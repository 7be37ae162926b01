import Wasm.Proofs.Module.Framing

/-! # Custom sections

Before it both binaries are read alike, behind it the same bytes stand further on. -/

namespace Wasm

open Decode

theorem Leb128.exists_unsigned {bits n : Nat} (hbits : 0 < bits) (h : n < Nat.pow 2 bits) :
    ∃ bs, Unsigned bits bs n :=
  ⟨encode n, unsigned_encode hbits h⟩

def Inserted (place size offset offset' : Nat) : Prop :=
  (offset' = offset ∧ offset ≤ place) ∨ (offset' = offset + size ∧ place ≤ offset)

namespace Module

theorem compile_inserted (options : CompileOptions) {front custom : ByteArray} (back : ByteArray)
    {frames : List (UInt8 × List UInt8)} {payload : List UInt8}
    (hfront : Framed front.data.toList frames)
    (hcustom : Section.RawFrame custom.data.toList (0x00, payload)) :
    (∃ m, Module.compile options (front ++ back) = .ok m ∧
        Module.compile options (front ++ custom ++ back) = .ok m) ∨
      ∃ e e', Module.compile options (front ++ back) = .error e ∧
        Module.compile options (front ++ custom ++ back) = .error e' ∧
        e.Relocated (Inserted front.size custom.size) e' := by
  have hb : (front ++ back).data.toList = front.data.toList ++ back.data.toList := by
    rw [ByteArray.data_append, Array.toList_append]
  have hb' : (front ++ custom ++ back).data.toList =
      front.data.toList ++ (custom.data.toList ++ back.data.toList) := by
    rw [ByteArray.data_append, ByteArray.data_append, Array.toList_append, Array.toList_append,
      List.append_assoc]
  have hsize : front.data.toList.length = front.size := Array.length_toList
  have hsize' : custom.data.toList.length = custom.size := Array.length_toList
  obtain ⟨c, c', hleft, hleft', hpos, hpos', hcontinues⟩ :=
    replay (R := Inserted front.size custom.size) options hfront hb hb'
      fun offset hle => .inl ⟨rfl, hsize ▸ hle⟩
  obtain ⟨state, state', hstate, hrun, hrun'⟩ | ⟨e, e', c1, c1', hrun, hrun', he⟩ := hcontinues
  · -- the custom section is skipped, and the same bytes are left behind it
    obtain ⟨c1', ho', hleft1'⟩ := Cursor.exists_over hleft'
    have hskip : moduleBehind options state' c' = moduleBehind options state' c1' := by
      have hne : c'.left ≠ [] := fun hnil =>
        hcustom.ne_nil (List.append_eq_nil_iff.mp (hleft'.symm.trans hnil)).1
      rw [moduleBehind_of_bytes hne,
        bind_of_ok (oneSection_custom (Section.frame_iff.mpr ⟨0x00, hcustom, rfl⟩) ho')]
    have hplace := ho'.position_eq
    have hmoved : c.Relocated (Inserted front.size custom.size) custom.size c1' := by
      refine ⟨hleft1'.trans hleft.symm, by omega, fun offset hle _ => .inr ⟨rfl, ?_⟩⟩
      omega
    obtain ⟨m, m', c2, c2', hm, hm', hrel, -⟩ | ⟨e, e', c2, c2', he, he', hrel⟩ :=
      (relocates_moduleBehind (CodeRelation.respected_same options) hstate c c1' hmoved).elim
    · obtain rfl := hrel.eq
      exact .inl ⟨m', compile_of_ok (hrun.trans hm), compile_of_ok (hrun'.trans (hskip.trans hm'))⟩
    · exact .inr ⟨e, e', compile_of_error (hrun.trans he),
        compile_of_error (hrun'.trans (hskip.trans he')), hrel⟩
  · exact .inr ⟨e, e', compile_of_error hrun, compile_of_error hrun', he⟩

/-- **Custom sections are invisible**: with one put in, a binary holds the same module or has the
    same fault, whose offset moves if it lies behind. -/
theorem compile_insert_custom {payload : List UInt8} (hpayload : payload.length < 2 ^ 32) :
    (∃ size, Leb128.Unsigned 32 size payload.length) ∧
    ∀ (options : CompileOptions) (front custom back : ByteArray)
      (frames : List (UInt8 × List UInt8)) (size : List UInt8),
      Framed front.data.toList frames → Leb128.Unsigned 32 size payload.length →
      custom.data.toList = 0x00 :: (size ++ payload) →
      (∀ m, Module.compile options (front ++ custom ++ back) = .ok m ↔
        Module.compile options (front ++ back) = .ok m) ∧
      ∀ e, Module.compile options (front ++ back) = .error e →
        ∃ e', Module.compile options (front ++ custom ++ back) = .error e' ∧ e'.fault = e.fault ∧
          (e.offset < front.size → e'.offset = e.offset) ∧
          (front.size < e.offset → e'.offset = e.offset + custom.size) := by
  refine ⟨Leb128.exists_unsigned (by decide) hpayload, ?_⟩
  intro options front custom back frames size hfront hsize hbytes
  have hcustom : Section.RawFrame custom.data.toList (0x00, payload) := ⟨size, hbytes, hsize⟩
  obtain ⟨m, h, h'⟩ | ⟨e, e', h, h', hfault, hoffset, -⟩ :=
    compile_inserted options back hfront hcustom
  · refine ⟨fun m' => by rw [h, h'], fun e he => ?_⟩
    cases h.symm.trans he
  · refine ⟨fun m' => ⟨fun hm => ?_, fun hm => ?_⟩, fun e1 he => ?_⟩
    · cases h'.symm.trans hm
    · cases h.symm.trans hm
    · obtain rfl := Except.error.inj (h.symm.trans he)
      refine ⟨e', h', hfault, fun hlt => ?_, fun hlt => ?_⟩
      · rcases hoffset with ⟨heq, -⟩ | ⟨-, hle⟩ <;> omega
      · rcases hoffset with ⟨-, hle⟩ | ⟨heq, -⟩ <;> omega

def typesOnly : ByteArray :=
  ⟨#[0x00, 0x61, 0x73, 0x6D, 0x01, 0x00, 0x00, 0x00, 0x01, 0x04, 0x01, 0x60, 0x00, 0x00]⟩

def droppingData : ByteArray :=
  ⟨#[0x03, 0x02, 0x01, 0x00, 0x0A, 0x07, 0x01, 0x05, 0x00, 0xFC, 0x09, 0x05, 0x0B]⟩

theorem framed_typesOnly : Framed typesOnly.data.toList [(0x01, [0x01, 0x60, 0x00, 0x00])] := by
  refine ⟨[0x00, 0x61, 0x73, 0x6D, 0x01, 0x00, 0x00, 0x00],
    [0x01, 0x04, 0x01, 0x60, 0x00, 0x00] ++ [], rfl, rfl, .cons ?_ .nil⟩
  exact ⟨[0x04], rfl, Leb128.unsigned_byte (by decide) (by decide) (by decide)⟩

/-- A noted offset moves with the section in front of it. -/
theorem compile_insert_custom_droppingData : [(0xAA : UInt8), 0xBB, 0xCC].length < 2 ^ 32 ∧
    Module.compile .standard (typesOnly ++ droppingData) = .error ⟨.invalidDataIndex 5, 23⟩ ∧
    Module.compile .standard (typesOnly ++ ⟨#[0x00, 0x03, 0xAA, 0xBB, 0xCC]⟩ ++ droppingData) =
      .error ⟨.invalidDataIndex 5, 28⟩ := by
  have hlength : [(0xAA : UInt8), 0xBB, 0xCC].length < 2 ^ 32 := by decide
  have herror : (match Module.compile .standard (typesOnly ++ droppingData) with
      | .error e => some (e.fault, e.offset)
      | .ok _ => none) = some (.invalidDataIndex 5, 23) := by
    decide +kernel
  split at herror
  · next e he =>
      obtain ⟨fault, offset⟩ := e
      cases herror
      obtain ⟨⟨fault, offset⟩, he', hfault, -, hoffset⟩ := ((compile_insert_custom hlength).2
        .standard typesOnly ⟨#[0x00, 0x03, 0xAA, 0xBB, 0xCC]⟩ droppingData _ [0x03] framed_typesOnly
        (Leb128.unsigned_byte (by decide) (by decide) (by decide)) rfl).2 _ he
      obtain rfl : fault = .invalidDataIndex 5 := hfault
      obtain rfl : offset = 28 := hoffset (by decide)
      exact ⟨hlength, he, he'⟩
  · cases herror

end Module

end Wasm
