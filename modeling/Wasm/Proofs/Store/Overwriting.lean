import Mathlib.Logic.Basic
import Wasm.Memory
import Wasm.Table

/-! # Overwritten ranges

The new bytes or entries in a range, the old ones outside of it. -/

namespace Wasm

open List

variable {i addr dst src len : Nat} {bytes : List UInt8}

/-! ## Memories -/

theorem Page.get_set (p : Page) {j : Nat} (b : UInt8) (hi : i < pageSize) (hj : j < pageSize) :
    (p.set i b hi).get j hj = if i = j then b else p.get j hj := by
  simp only [Page.get, Page.set, ByteArray.set, ByteArray.getElem_eq_getElem_data]
  exact Array.getElem_set _ _

namespace Memory

section

variable (m : Memory)
include m

theorem pageCount_setByte (addr : Nat) (b : UInt8) : (m.setByte addr b).pageCount = m.pageCount :=
  Array.size_modify

theorem lt_byteLength_iff (addr : Nat) : addr < m.byteLength ↔ addr / pageSize < m.pages.size :=
  (Nat.div_lt_iff_lt_mul (by decide)).symm

theorem byteAt_setByte (b : UInt8) (i : Nat) (h : addr < m.byteLength) :
    (m.setByte addr b).byteAt i = if addr = i then b else m.byteAt i := by
  have hpage := (m.lt_byteLength_iff addr).mp h
  simp only [byteAt, setByte, Array.getElem?_modify]
  by_cases hp : addr / pageSize = i / pageSize
  · -- on the page that is written, the place in it decides
    rw [if_pos hp, Array.getElem?_eq_getElem (hp ▸ hpage)]
    simp only [Option.map_some, Page.get_set]
    have hiff : addr % pageSize = i % pageSize ↔ addr = i := by
      constructor
      · intro hm
        rw [← Nat.div_add_mod addr pageSize, ← Nat.div_add_mod i pageSize, hp, hm]
      · rintro rfl
        rfl
    simp only [hiff]
  · rw [if_neg hp, if_neg]
    rintro rfl
    exact hp rfl

theorem pageCount_overwrite (addr : Nat) (bytes : List UInt8) :
    (m.overwrite addr bytes).pageCount = m.pageCount := by
  induction bytes generalizing m addr with
  | nil => rfl
  | cons b bytes ih => rw [overwrite, ih, pageCount_setByte]

theorem maximum_overwrite (addr : Nat) (bytes : List UInt8) :
    (m.overwrite addr bytes).maximum = m.maximum := by
  induction bytes generalizing m addr with
  | nil => rfl
  | cons b bytes ih => rw [overwrite, ih]; rfl

theorem pageCap_overwrite (addr : Nat) (bytes : List UInt8) :
    (m.overwrite addr bytes).pageCap = m.pageCap := by
  induction bytes generalizing m addr with
  | nil => rfl
  | cons b bytes ih => rw [overwrite, ih]; rfl

theorem byteAt_overwrite (h : addr + bytes.length ≤ m.byteLength) (i : Nat) :
    (m.overwrite addr bytes).byteAt i =
      if addr ≤ i then bytes[i - addr]?.getD (m.byteAt i) else m.byteAt i := by
  induction bytes generalizing m addr with
  | nil => simp [overwrite]
  | cons b bytes ih =>
    rw [length_cons] at h
    have hlen : (m.setByte addr b).byteLength = m.byteLength := by
      rw [byteLength, byteLength, pageCount_setByte]
    rw [overwrite, ih _ (by rw [hlen]; omega), byteAt_setByte m b i (by omega)]
    by_cases hlt : addr + 1 ≤ i
    · have hsub : i - addr = (i - (addr + 1)) + 1 := by omega
      have hle : addr ≤ i := by omega
      have hne : addr ≠ i := by omega
      rw [if_pos hlt, if_neg hne, if_pos hle, hsub, getElem?_cons_succ]
    · rw [if_neg hlt]
      by_cases heq : addr = i
      · subst heq
        simp
      · rw [if_neg heq, if_neg (by omega)]

end

variable {m source : Memory}

/-- The memory with a range replaced. -/
structure Pasted (m : Memory) (dst len : Nat) (new : Nat → UInt8) (m' : Memory) : Prop where
  maximum : m'.maximum = m.maximum
  pageCap : m'.pageCap = m.pageCap
  pageCount : m'.pageCount = m.pageCount
  byteAt : ∀ k, m'.byteAt k = if dst ≤ k ∧ k < dst + len then new (k - dst) else m.byteAt k

theorem pasted_overwrite {new : Nat → UInt8} (hlen : bytes.length = len)
    (hnew : ∀ i < len, bytes[i]? = some (new i)) (h : dst + len ≤ m.byteLength) :
    m.Pasted dst len new (m.overwrite dst bytes) where
  maximum := m.maximum_overwrite dst bytes
  pageCap := m.pageCap_overwrite dst bytes
  pageCount := m.pageCount_overwrite dst bytes
  byteAt k := by
    rw [m.byteAt_overwrite (hlen ▸ h)]
    by_cases hin : dst ≤ k ∧ k < dst + len
    · rw [if_pos hin.1, if_pos hin, hnew _ (by omega)]
      rfl
    · rw [if_neg hin]
      split
      · rw [getElem?_eq_none (by omega)]
        rfl
      · rfl

theorem length_slice (m : Memory) (addr len : Nat) : (m.slice addr len).length = len := by
  simp [slice]

theorem getElem?_slice (h : i < len) : (m.slice src len)[i]? = some (m.byteAt (src + i)) := by
  simp [slice, h]

theorem fill_eq {b : UInt8} : fill dst b len m = if dst + len ≤ m.byteLength then
    .ok () (m.overwrite dst (List.replicate len b)) else .error .outOfBounds m := by
  simp only [fill, guarded, inBounds, decide_eq_true_eq]

theorem copyFrom_eq : copyFrom source dst src len m =
    if src + len ≤ source.byteLength ∧ dst + len ≤ m.byteLength then
      .ok () (m.overwrite dst (source.slice src len)) else .error .outOfBounds m := by
  simp only [copyFrom, guarded, inBounds, decide_eq_true_eq, ite_and]

theorem copy_eq : copy dst src len m = copyFrom m dst src len m := rfl

theorem init_eq (m : Memory) (dst src len : Nat) (bytes : ByteArray) : init dst bytes src len m =
    if src + len ≤ bytes.size ∧ dst + len ≤ m.byteLength then
      .ok () (m.overwrite dst (bytes.extract src (src + len)).toList)
    else .error .outOfBounds m := by
  simp only [init, guarded, inBounds, decide_eq_true_eq, ite_and]

end Memory

/-! ## Tables -/

namespace Table

variable {ρ : Type}

theorem size_overwrite (t : Table ρ) (start : Nat) (entries : List (Option ρ)) :
    (t.overwrite start entries).size = t.size := by
  induction entries generalizing t start with
  | nil => rfl
  | cons e entries ih =>
    rw [overwrite, ih]
    exact Array.size_setIfInBounds

theorem maximum_overwrite (t : Table ρ) (start : Nat) (entries : List (Option ρ)) :
    (t.overwrite start entries).maximum = t.maximum := by
  induction entries generalizing t start with
  | nil => rfl
  | cons e entries ih => rw [overwrite, ih]

theorem getElem?_overwrite (t : Table ρ) {start : Nat} {entries : List (Option ρ)}
    (h : start + entries.length ≤ t.size) (i : Nat) :
    (t.overwrite start entries).entries[i]? =
      if start ≤ i then entries[i - start]?.or t.entries[i]? else t.entries[i]? := by
  induction entries generalizing t start with
  | nil => simp [overwrite]
  | cons e entries ih =>
    rw [length_cons] at h
    have hsize : start < t.entries.size := by
      have : t.size = t.entries.size := rfl
      omega
    have hlen : ({ t with entries := t.entries.setIfInBounds start e } : Table ρ).size = t.size :=
      Array.size_setIfInBounds
    rw [overwrite, ih _ (by rw [hlen]; omega)]
    simp only [Array.getElem?_setIfInBounds]
    by_cases hlt : start + 1 ≤ i
    · have hsub : i - start = (i - (start + 1)) + 1 := by omega
      have hle : start ≤ i := by omega
      have hne : start ≠ i := by omega
      rw [if_pos hlt, if_neg hne, if_pos hle, hsub, getElem?_cons_succ]
    · rw [if_neg hlt]
      by_cases heq : start = i
      · subst heq
        simp [hsize]
      · rw [if_neg heq, if_neg (by omega)]

variable {t source : Table ρ} {entries : List (Option ρ)}

/-- The table with a range replaced. -/
structure Pasted (t : Table ρ) (dst len : Nat) (new : Nat → Option (Option ρ)) (t' : Table ρ) :
    Prop where
  maximum : t'.maximum = t.maximum
  entries : ∀ k : Nat, t'.entries[k]? =
    if dst ≤ k ∧ k < dst + len then new (k - dst) else t.entries[k]?

theorem pasted_overwrite {new : Nat → Option (Option ρ)} (hlen : entries.length = len)
    (hnew : ∀ i < len, entries[i]? = new i) (h : dst + len ≤ t.size) :
    t.Pasted dst len new (t.overwrite dst entries) where
  maximum := t.maximum_overwrite dst entries
  entries k := by
    rw [t.getElem?_overwrite (hlen ▸ h)]
    by_cases hin : dst ≤ k ∧ k < dst + len
    · rw [if_pos hin.1, if_pos hin, ← hnew _ (by omega), getElem?_eq_getElem (by omega)]
      rfl
    · rw [if_neg hin]
      split
      · rw [getElem?_eq_none (by omega)]
        rfl
      · rfl

theorem length_extract {xs : Array (Option ρ)} (h : src + len ≤ xs.size) :
    (xs.extract src (src + len)).toList.length = len := by
  rw [Array.length_toList, Array.size_extract]
  omega

theorem getElem?_extract {xs : Array (Option ρ)} (h : src + len ≤ xs.size) (hi : i < len) :
    (xs.extract src (src + len)).toList[i]? = xs[src + i]? := by
  rw [Array.getElem?_toList, Array.getElem?_extract, if_pos (by omega)]

theorem fill_eq {entry : Option ρ} : fill dst entry len t = if dst + len ≤ t.size then
    .ok () (t.overwrite dst (List.replicate len entry)) else .error .tableOutOfBounds t := by
  simp only [fill, guarded, inBounds, decide_eq_true_eq]

theorem copyFrom_eq : copyFrom source dst src len t =
    if src + len ≤ source.size ∧ dst + len ≤ t.size then
      .ok () (t.overwrite dst (source.slice src len)) else .error .tableOutOfBounds t := by
  simp only [copyFrom, guarded, inBounds, decide_eq_true_eq, ite_and]

theorem init_eq (t : Table ρ) (dst src len : Nat) (entries : Array (Option ρ)) :
    init dst entries src len t = if src + len ≤ entries.size ∧ dst + len ≤ t.size then
      .ok () (t.overwrite dst (entries.extract src (src + len)).toList)
    else .error .tableOutOfBounds t := by
  simp only [init, guarded, inBounds, decide_eq_true_eq, ite_and]

/-! ## Copies within one table -/

theorem size_move : (t.move dst src).size = t.size := Array.size_setIfInBounds

theorem getElem?_move (hdst : dst < t.size) (hsrc : src < t.size) (k : Nat) :
    (t.move dst src).entries[k]? = if k = dst then t.entries[src]? else t.entries[k]? := by
  unfold move size at *
  rw [Array.getElem?_setIfInBounds, Array.getElem?_eq_getElem hsrc]
  by_cases hk : k = dst
  · rw [if_pos hk.symm, if_pos hk, if_pos hdst]
    rfl
  · rw [if_neg (Ne.symm hk), if_neg hk]

theorem getElem?_moveUp (hle : dst ≤ src) (h : src + len ≤ t.size) (k : Nat) :
    (t.moveUp dst src len).entries[k]? =
      if dst ≤ k ∧ k < dst + len then t.entries[src + (k - dst)]? else t.entries[k]? := by
  induction len generalizing t dst src with
  | zero => rw [if_neg (by omega)]; rfl
  | succ len ih =>
    rw [moveUp, ih (by omega) (by rw [size_move]; omega), getElem?_move (by omega) (by omega),
      getElem?_move (by omega) (by omega)]
    by_cases hrest : dst + 1 ≤ k ∧ k < dst + 1 + len
    · have hplace : src + 1 + (k - (dst + 1)) = src + (k - dst) := by omega
      rw [if_pos hrest, if_neg (by omega), if_pos (by omega), hplace]
    · rw [if_neg hrest]
      by_cases hfirst : k = dst
      · subst hfirst
        rw [if_pos rfl, if_pos (by omega), Nat.sub_self, Nat.add_zero]
      · rw [if_neg hfirst, if_neg (by omega)]

theorem getElem?_moveDown (hle : src ≤ dst) (h : dst + len ≤ t.size) (k : Nat) :
    (t.moveDown dst src len).entries[k]? =
      if dst ≤ k ∧ k < dst + len then t.entries[src + (k - dst)]? else t.entries[k]? := by
  induction len generalizing t with
  | zero => rw [if_neg (by omega)]; rfl
  | succ len ih =>
    rw [moveDown, ih (by rw [size_move]; omega), getElem?_move (by omega) (by omega),
      getElem?_move (by omega) (by omega)]
    by_cases hrest : dst ≤ k ∧ k < dst + len
    · rw [if_pos hrest, if_neg (by omega), if_pos (by omega)]
    · rw [if_neg hrest]
      by_cases hlast : k = dst + len
      · subst hlast
        rw [if_pos rfl, if_pos (by omega), Nat.add_sub_cancel_left]
      · rw [if_neg hlast, if_neg (by omega)]

theorem maximum_moveUp : (t.moveUp dst src len).maximum = t.maximum := by
  induction len generalizing t dst src with
  | zero => rfl
  | succ len ih => exact ih

theorem maximum_moveDown : (t.moveDown dst src len).maximum = t.maximum := by
  induction len generalizing t with
  | zero => rfl
  | succ len ih => exact ih

theorem eq_of_entries {t' : Table ρ} (hmax : t.maximum = t'.maximum)
    (h : ∀ k : Nat, t.entries[k]? = t'.entries[k]?) : t = t' := by
  obtain ⟨entries, maximum⟩ := t
  obtain ⟨entries', maximum'⟩ := t'
  obtain rfl : entries = entries' := Array.ext_getElem? h
  cases hmax
  rfl

theorem copy_eq : copy dst src len t = copyFrom t dst src len t := by
  simp only [copyFrom_eq, copy, guarded, inBounds, decide_eq_true_eq, ite_and]
  by_cases hsrc : src + len ≤ t.size
  · by_cases hdst : dst + len ≤ t.size
    · have hslice := pasted_overwrite (length_extract hsrc) (fun _ => getElem?_extract hsrc) hdst
      rw [if_pos hsrc, if_pos hsrc, if_pos hdst, if_pos hdst]
      refine congrArg (EStateM.Result.ok ()) (eq_of_entries ?_ fun k => ?_)
      · rw [maximum_overwrite]
        split
        · exact maximum_moveUp
        · exact maximum_moveDown
      · rw [slice, hslice.entries]
        split
        · exact getElem?_moveUp ‹_› hsrc k
        · exact getElem?_moveDown (by omega) hdst k
    · rw [if_neg hdst, if_neg hdst]
  · rw [if_neg hsrc, if_neg hsrc]

end Table

end Wasm
