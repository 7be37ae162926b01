import Wasm.Proofs.Deciding
import Wasm.Proofs.Module.Framing

/-! # Binaries that are cut off

Cut anywhere but between two frames, a binary ends too early. -/

namespace Wasm

open List
open Decode (Reads Each)

variable {options : CompileOptions} {content front back : List UInt8} {kind : Section}
  {frames : List (UInt8 × List UInt8)}

variable {n : Nat} {tail : List UInt8}

/-! ## Bytes that are missing -/

namespace Decode

variable {c : Cursor}

theorem bytes_of_short (h : c.left.length < n) : bytes n c = .error c.endError c := by
  rw [c.length_left] at h
  rw [bytes, dif_neg (Nat.not_le.mpr h)]

theorem sub_of_short (h : c.left.length < n) : sub n c = .error c.endError c := by
  rw [c.length_left] at h
  rw [sub, dif_neg (Nat.not_le.mpr h)]

theorem u32_cut (h : Leb128.Unsigned 32 (c.left ++ tail) n) (htail : tail ≠ []) :
    ∃ c', u32 c = .error c.endError c' := by
  rw [u32_eq]
  refine ((readsGroups_unsigned 32 (by decide)).ends_iff Leb128.Unsigned.groups).mpr ⟨?_, ?_⟩
  · have hlen := h.length_le
    have hpos := length_pos_iff.mpr htail
    rw [length_append] at hlen
    omega
  · exact h.groups.continues htail

theorem header_cut (h : c.left ++ tail = Module.headerBytes) (htail : tail ≠ []) :
    ∃ c', header c = .error c.endError c' := by
  have hpos : ∀ c : Cursor, position c = .ok c.position c := fun _ => rfl
  have hlen := congrArg List.length h
  have htail := length_pos_iff.mpr htail
  rw [length_append, show Module.headerBytes.length = 8 from rfl] at hlen
  rw [header, bind_of_ok (hpos c)]
  by_cases hfour : c.left.length < 4
  · exact ⟨c, bind_of_error (bytes_of_short hfour)⟩
  · -- the magic bytes are there, and the version is cut off
    have hmagic : c.left = magic ++ c.left.drop 4 := by
      have htake := congrArg (List.take 4) h
      rw [take_append_of_le_length (by omega)] at htake
      exact (take_append_drop 4 c.left).symm.trans (congrArg (· ++ c.left.drop 4) htake)
    obtain ⟨c1, ho, hleft⟩ := Cursor.exists_over hmagic
    have hread := (Reads.bytes 4 c ⟨magic.toArray⟩ c1).mpr ⟨magic, ⟨rfl, rfl⟩, ho⟩
    have hshort : c1.left.length < 4 := by
      rw [hleft, length_drop]
      omega
    refine ⟨c1, ?_⟩
    rw [bind_of_ok hread, toList_eq_data, if_neg (not_not_intro rfl), ← ho.endError_eq]
    dsimp only
    rw [bind_of_ok (hpos c1)]
    exact bind_of_error (bytes_of_short hshort)

theorem oneSection_cut {state : Nat × Draft}
    (hframe : Section.Frame (c.left ++ tail) (kind, content)) (hleft : c.left ≠ [])
    (htail : tail ≠ []) : ∃ c', oneSection options state c = .error c.endError c' := by
  obtain ⟨id, size, hbytes, hid, hsize⟩ := hframe
  have hpos : position c = .ok c.position c := rfl
  obtain ⟨b, part, hpart⟩ := exists_cons_of_ne_nil hleft
  rw [hpart, cons_append] at hbytes
  obtain ⟨rfl, hrest⟩ := List.cons.inj hbytes
  obtain ⟨c1, hbyte, hleft1, ho1⟩ := byte_of_cons hpart
  have hcut : (∃ missing, missing ≠ [] ∧ size = part ++ missing) ∨
      ∃ body, part = size ++ body ∧ content = body ++ tail := by
    obtain ⟨missing, hmissing, htail'⟩ | hbody := append_eq_append_iff.mp hrest
    · by_cases hnil : missing = []
      · subst hnil
        exact .inr ⟨[], by rw [hmissing, append_nil, append_nil], htail'.symm⟩
      · exact .inl ⟨missing, hnil, hmissing⟩
    · exact .inr hbody
  rw [oneSection_eq, bind_of_ok hpos, bind_of_ok hbyte, hid, ← ho1.endError_eq]
  obtain ⟨missing, hnil, hmissing⟩ | ⟨body, hbody, hcontent⟩ := hcut
  · -- the size is cut off
    rw [hmissing, ← hleft1] at hsize
    obtain ⟨c', hc'⟩ := u32_cut hsize hnil
    exact ⟨c', bind_of_error hc'⟩
  · -- the size is there, and is more than is left
    obtain ⟨c2, ho, hleft2⟩ := Cursor.exists_over (hleft1.trans hbody)
    have hu := (Reads.u32 c1 _ c2).mpr ⟨size, hsize, ho⟩
    have hshort : c2.left.length < content.length := by
      have := length_pos_iff.mpr htail
      rw [hleft2, hcontent, length_append]
      omega
    refine ⟨c2, ?_⟩
    rw [framedSection, bind_of_ok hu, ← ho.endError_eq]
    exact bind_of_error (sub_of_short hshort)

end Decode

/-! ## Where a binary is cut -/

theorem Decode.Each.cut {α : Type} {G : List UInt8 → α → Prop} {as : List α} {bs : List UInt8}
    (h : Each G as bs) (hn : n < bs.length) :
    ∃ as1 a as2 bs1 bs2 bs3, bs = bs1 ++ (bs2 ++ bs3) ∧ Each G as1 bs1 ∧ G bs2 a ∧ Each G as2 bs3 ∧
      bs1.length ≤ n ∧ n < bs1.length + bs2.length := by
  induction h generalizing n with
  | nil => cases hn
  | @cons a as bs bs' ha has ih =>
    by_cases hlt : n < bs.length
    · exact ⟨[], a, as, [], bs, bs', rfl, .nil, ha, has, Nat.zero_le _, by simpa using hlt⟩
    · rw [length_append] at hn
      obtain ⟨as1, a', as2, bs1, bs2, bs3, rfl, h1, h2, h3, hle, hlt'⟩ :=
        ih (n := n - bs.length) (by omega)
      refine ⟨a :: as1, a', as2, bs ++ bs1, bs2, bs3, by rw [append_assoc], .cons ha h1,
        h2, h3, ?_, ?_⟩
      · rw [length_append]
        omega
      · rw [length_append]
        omega

namespace Module

/-- The header or a frame ends behind `n` bytes. -/
def Boundary (bs : List UInt8) (n : Nat) : Prop :=
  ∃ front back frames frames', bs = front ++ back ∧ n = front.length ∧ Framed front frames ∧
    Each Section.RawFrame frames' back

theorem data_extract_zero (binary : ByteArray) (n : Nat) :
    (binary.extract 0 n).data.toList = binary.data.toList.take n := by
  rw [ByteArray.data_extract, Array.toList_extract, extract_eq_take_drop, drop_zero, Nat.sub_zero]

theorem finish_ne_unexpectedEnd {d : Draft} {stop : Nat} {e : CompileError}
    (h : d.finish stop = .error e) : e.fault ≠ .unexpectedEnd := by
  unfold Draft.finish at h
  split at h
  · cases h
    exact Fault.noConfusion
  · split at h
    · cases h
      exact Fault.noConfusion
    · split at h
      · cases h
        exact Fault.noConfusion
      · cases h

variable {binary binary' : ByteArray} {m : Module}

theorem exists_behind (h : Module.compile options binary = .ok m) {back' : List UInt8}
    (hfront : Framed front frames) (hb : binary.data.toList = front ++ back)
    (hb' : binary'.data.toList = front ++ back') :
    ∃ state c, c.left = back' ∧ c.position = front.length ∧
      Decode.module options (.ofBytes binary' 0) = Decode.moduleBehind options state c := by
  obtain ⟨c, c', -, hleft', -, hpos', hcontinues⟩ :=
    Decode.replay (R := Eq) options hfront hb hb' fun _ _ => rfl
  obtain ⟨state, state', -, -, hrun'⟩ | ⟨e, e', c1, c1', hrun, -⟩ := hcontinues
  · exact ⟨state', c', hleft', hpos', hrun'⟩
  · cases h.symm.trans (compile_of_error hrun)

theorem compile_extract_boundary (h : Module.compile options binary = .ok m)
    (hn : Boundary binary.data.toList n) :
    Module.compile options (binary.extract 0 n) ≠ .error ⟨.unexpectedEnd, n⟩ := by
  obtain ⟨front, back, frames, frames', hbytes, rfl, hfront, -⟩ := hn
  have hcut : (binary.extract 0 front.length).data.toList = front ++ [] := by
    rw [data_extract_zero, hbytes, take_left, append_nil]
  obtain ⟨state, c, hleft, -, hrun⟩ := exists_behind h hfront hbytes hcut
  rw [Decode.moduleBehind_of_empty hleft] at hrun
  intro herror
  cases hfinish : state.2.finish c.position with
  | ok m' =>
    rw [hfinish] at hrun
    cases herror.symm.trans (compile_of_ok hrun)
  | error e =>
    rw [hfinish] at hrun
    cases herror.symm.trans (compile_of_error hrun)
    exact finish_ne_unexpectedEnd hfinish rfl

theorem compile_extract_header {rest : List UInt8}
    (hbytes : binary.data.toList = headerBytes ++ rest)
    (hn : n < 8) :
    Module.compile options (binary.extract 0 n) = .error ⟨.unexpectedEnd, n⟩ := by
  have hleft : (Cursor.ofBytes (binary.extract 0 n) 0).left = headerBytes.take n := by
    rw [Cursor.left_ofBytes, data_extract_zero, hbytes, take_append_of_le_length (Nat.le_of_lt hn)]
  have htail : headerBytes.drop n ≠ [] := fun hnil =>
    Nat.not_le.mpr hn (drop_eq_nil_iff.mp hnil)
  obtain ⟨c', hc'⟩ := Decode.header_cut (hleft ▸ headerBytes.take_append_drop n) htail
  have hend : (Cursor.ofBytes (binary.extract 0 n) 0).endError = ⟨.unexpectedEnd, n⟩ := by
    rw [Cursor.endError_eq, ← Cursor.length_left, hleft, length_take]
    show (⟨.unexpectedEnd, 0 + min n 8⟩ : CompileError) = _
    congr
    omega
  rw [hend] at hc'
  exact compile_of_error (bind_of_error hc')

theorem compile_extract_frame (h : Module.compile options binary = .ok m) {part : List UInt8}
    (hfront : Framed front frames)
    (hbytes : binary.data.toList = front ++ (part ++ (tail ++ back)))
    (hframe : Section.Frame (part ++ tail) (kind, content)) (hpart : part ≠ [])
    (htail : tail ≠ []) :
    Module.compile options (binary.extract 0 (front.length + part.length)) =
      .error ⟨.unexpectedEnd, front.length + part.length⟩ := by
  have hcut : (binary.extract 0 (front.length + part.length)).data.toList = front ++ part := by
    rw [data_extract_zero, hbytes, ← append_assoc]
    exact take_left' length_append
  obtain ⟨state, c, rfl, hpos, hrun⟩ := exists_behind h hfront hbytes hcut
  obtain ⟨c', hc'⟩ : ∃ c', Decode.oneSection options state c = .error c.endError c' :=
    Decode.oneSection_cut hframe hpart htail
  rw [Decode.moduleBehind_of_bytes hpart, bind_of_error hc', Cursor.endError_eq, hpos,
    ← c.length_left] at hrun
  exact compile_of_error hrun

/-- **Truncation is always detected**, at the offset of the cut, unless the cut is behind the header
    or a frame. -/
theorem compile_extract_iff (h : Module.compile options binary = .ok m) {n : Nat}
    (hn : n < binary.size) :
    Module.compile options (binary.extract 0 n) = .error ⟨.unexpectedEnd, n⟩ ↔
      ¬ Boundary binary.data.toList n := by
  refine ⟨fun herror hboundary => compile_extract_boundary h hboundary herror, fun hinside => ?_⟩
  obtain ⟨contents, ⟨frames, rest, hbytes, hframes, -, -⟩, -⟩ := Contents.exists_of_compile h
  by_cases hheader : n < 8
  · exact compile_extract_header hbytes hheader
  have hsize : binary.size = 8 + rest.length := by
    show binary.data.toList.length = _
    rw [hbytes, length_append]
    rfl
  obtain ⟨frames1, ⟨kind, content⟩, frames2, bs1, bs2, bs3, rfl, h1, h2, h3, hle, hlt⟩ :=
    hframes.cut (n := n - 8) (by omega)
  obtain ⟨raw1, hraw1, -⟩ := Section.each_frame_iff.mp h1
  have hfront : Framed (headerBytes ++ bs1) raw1 := ⟨headerBytes, bs1, rfl, rfl, hraw1⟩
  have hlength : (headerBytes ++ bs1).length = 8 + bs1.length := length_append
  -- the frame does not begin at the cut, so part of it is there
  have hne : n - 8 ≠ bs1.length := fun heq => by
    obtain ⟨raw, hraw, -⟩ := Section.each_frame_iff.mp (.cons h2 h3)
    exact hinside ⟨headerBytes ++ bs1, bs2 ++ bs3, raw1, raw, by rw [hbytes, append_assoc],
      by omega, hfront, hraw⟩
  obtain ⟨part, tail, rfl, hpart⟩ : ∃ part tail, bs2 = part ++ tail ∧
      part.length = n - 8 - bs1.length :=
    ⟨_, _, (bs2.take_append_drop _).symm, length_take_of_le (by omega)⟩
  rw [length_append] at hlt
  rw [append_assoc part, ← append_assoc] at hbytes
  have hcut := compile_extract_frame h hfront hbytes h2
    (length_pos_iff.mp (by omega)) (length_pos_iff.mp (by omega))
  have hplace : (headerBytes ++ bs1).length + part.length = n := by omega
  rw [hplace] at hcut
  exact hcut

def paddedSize : ByteArray :=
  ⟨#[0x00, 0x61, 0x73, 0x6D, 0x01, 0x00, 0x00, 0x00, 0x01, 0x84, 0x00, 0x01, 0x60, 0x00, 0x00]⟩

/-- A cut inside a size that is padded. -/
theorem compile_extract_paddedSize :
    (∃ m, Module.compile .standard paddedSize = .ok m) ∧ 10 < paddedSize.size ∧
    Module.compile .standard (paddedSize.extract 0 10) = .error ⟨.unexpectedEnd, 10⟩ ∧
    ¬ Boundary paddedSize.data.toList 10 := by
  have hok : ∃ m, Module.compile .standard paddedSize = .ok m ∧ m.spaces.types.size = 1 := by
    decide +kernel
  have hcut : ∃ e, Module.compile .standard (paddedSize.extract 0 10) = .error e ∧
      e = ⟨.unexpectedEnd, 10⟩ := by
    decide +kernel
  obtain ⟨m, hm, -⟩ := hok
  obtain ⟨_, hcut, rfl⟩ := hcut
  exact ⟨⟨m, hm⟩, by decide, hcut, (compile_extract_iff hm (by decide)).mp hcut⟩

end Module

end Wasm
