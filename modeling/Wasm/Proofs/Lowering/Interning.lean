import Mathlib.Data.Finset.Card
import Wasm.Bytecode.Accessor

/-! # Accessors by their history

A key's number is its place in order of first use (`Accessors.intern_exact`). -/

namespace Wasm

open List

/-! ## Distinct elements in order of first occurrence -/

section

variable {α : Type} [DecidableEq α]

theorem eraseDups_concat (l : List α) (x : α) :
    (l ++ [x]).eraseDups = if x ∈ l then l.eraseDups else l.eraseDups ++ [x] := by
  rw [eraseDups_append]
  by_cases hx : x ∈ l
  · simp [removeAll, hx]
  · simp [removeAll, hx, eraseDups_cons]

theorem nodup_eraseDups (l : List α) : l.eraseDups.Nodup := by
  induction l using reverseRecOn with
  | nil => exact nodup_nil
  | append_singleton l x ih =>
    rw [eraseDups_concat]
    split
    · exact ih
    · next hx => exact nodup_append_comm.mp (ih.cons fun h => hx (mem_eraseDups.mp h))

end

namespace Accessors

variable {keys : List AccessorKey}

/-- The accessors after keys were given in order. -/
def after (a : Accessors) (keys : List AccessorKey) : Accessors :=
  keys.foldl (fun a key => (a.intern key).2) a

/-- The numbers that keys get, given in order. -/
def handedOut (a : Accessors) : List AccessorKey → List Nat
  | [] => []
  | key :: keys => (a.intern key).1 :: handedOut (a.intern key).2 keys

theorem after_concat (a : Accessors) (keys : List AccessorKey) (key : AccessorKey) :
    a.after (keys ++ [key]) = ((a.after keys).intern key).2 :=
  foldl_concat ..

theorem handedOut_concat (a : Accessors) (keys : List AccessorKey) (key : AccessorKey) :
    a.handedOut (keys ++ [key]) = a.handedOut keys ++ [((a.after keys).intern key).1] := by
  induction keys generalizing a with
  | nil => rfl
  | cons first keys ih => exact congrArg _ (ih _)

theorem lookup_ids (a : Accessors) (key : AccessorKey) : a.ids.lookup key =
    if key ∈ a.keys.toList then some (a.keys.toList.idxOf key) else none := by
  split
  · next hkey =>
    rw [a.inverse, ← Array.getElem?_toList]
    exact getElem?_idxOf hkey
  · next hkey =>
    cases hid : a.ids.lookup key with
    | none => rfl
    | some id =>
      rw [a.inverse, ← Array.getElem?_toList] at hid
      exact absurd (mem_of_getElem? hid) hkey

theorem intern_eq (a : Accessors) (key : AccessorKey) : (a.intern key).1 = a.keys.toList.idxOf key ∧
      (a.intern key).2.keys.toList =
        if key ∈ a.keys.toList then a.keys.toList else a.keys.toList ++ [key] := by
  have hlookup := a.lookup_ids key
  unfold intern
  split
  · next id hid =>
    rw [hid] at hlookup
    split at hlookup
    · next hkey =>
      rw [if_pos hkey]
      exact ⟨Option.some.inj hlookup, rfl⟩
    · cases hlookup
  · next hid =>
    rw [hid] at hlookup
    split at hlookup
    · cases hlookup
    · next hkey =>
      rw [if_neg hkey, idxOf_eq_length hkey]
      exact ⟨rfl, Array.toList_push ..⟩

/-! ## All calls from no accessors on -/

theorem keys_after (keys : List AccessorKey) :
    (after .empty keys).keys.toList = keys.eraseDups := by
  induction keys using reverseRecOn with
  | nil => rfl
  | append_singleton keys key ih =>
    rw [after_concat, (intern_eq _ _).2, eraseDups_concat, ih]
    simp only [mem_eraseDups]

theorem idxOf_eraseDups_append {key : AccessorKey} (hkey : key ∈ keys) (later : List AccessorKey) :
    (keys ++ later).eraseDups.idxOf key = keys.eraseDups.idxOf key := by
  rw [eraseDups_append, idxOf_append_of_mem (mem_eraseDups.mpr hkey)]

theorem handedOut_empty (keys : List AccessorKey) :
    handedOut .empty keys = keys.map keys.eraseDups.idxOf := by
  induction keys using reverseRecOn with
  | nil => rfl
  | append_singleton keys key ih =>
    have hlast : (keys ++ [key]).eraseDups.idxOf key = keys.eraseDups.idxOf key := by
      rw [eraseDups_concat]
      split
      · rfl
      · next hkey =>
        have hnew : key ∉ keys.eraseDups := mt mem_eraseDups.mp hkey
        rw [idxOf_append_of_notMem hnew, idxOf_cons_self, idxOf_eq_length hnew, Nat.add_zero]
    rw [handedOut_concat, (intern_eq _ _).1, keys_after, ih, map_append, map_singleton, hlast,
      map_congr_left fun k hk => (idxOf_eraseDups_append hk [key]).symm]

theorem eraseDups_handedOut (keys : List AccessorKey) :
    (handedOut .empty keys).eraseDups = List.range (after .empty keys).size := by
  induction keys using reverseRecOn with
  | nil => rfl
  | append_singleton keys key ih =>
    have hsize : (after .empty keys).size = keys.eraseDups.length := by
      rw [← keys_after]
      rfl
    have hmem (id : Nat) : id ∈ handedOut .empty keys ↔ id < (after .empty keys).size := by
      rw [← mem_eraseDups, ih, mem_range]
    have hnext : (after .empty (keys ++ [key])).size =
        (if key ∈ keys.eraseDups then keys.eraseDups else keys.eraseDups ++ [key]).length := by
      rw [after_concat, ← keys_after, ← (intern_eq _ _).2]
      rfl
    rw [handedOut_concat, (intern_eq _ _).1, keys_after, eraseDups_concat, hnext]
    by_cases hkey : key ∈ keys.eraseDups
    · rw [if_pos ((hmem _).mpr (hsize ▸ idxOf_lt_length_iff.mpr hkey)), if_pos hkey, ih, hsize]
    · rw [idxOf_eq_length hkey, ← hsize, if_neg fun h => Nat.lt_irrefl _ ((hmem _).mp h), ih,
        if_neg hkey, ← range_succ, length_append, hsize]
      rfl

/-- **Numbers and keys belong together one to one**: numbers are handed out in order of first use,
    each stands for its key for good, and the others for none. -/
theorem intern_exact (keys : List AccessorKey) :
    handedOut .empty keys = keys.map keys.eraseDups.idxOf ∧
    (handedOut .empty keys).eraseDups = List.range (after .empty keys).size ∧
    (after .empty keys).size = keys.toFinset.card ∧
    (∀ i id n : Nat, (handedOut .empty keys)[i]? = some id → i < n →
      (after .empty (keys.take n)).get? id = keys[i]?) ∧
    (∀ i j : Nat, (handedOut .empty keys)[i]? = (handedOut .empty keys)[j]? ↔ keys[i]? = keys[j]?) ∧
    (∀ id, (after .empty keys).get? id = none ↔ id ∉ handedOut .empty keys) ∧
    ∀ key id, (after .empty keys).ids.lookup key = some id ↔
      (after .empty keys).get? id = some key := by
  refine ⟨handedOut_empty keys, eraseDups_handedOut keys, ?_, ?_, ?_, ?_, Accessors.inverse _⟩
  · have hset : keys.eraseDups.toFinset = keys.toFinset := by
      ext key
      rw [mem_toFinset, mem_toFinset, mem_eraseDups]
    rw [← hset, toFinset_card_of_nodup (nodup_eraseDups keys), ← keys_after]
    rfl
  · intro i id n hid hn
    rw [handedOut_empty, getElem?_map, Option.map_eq_some_iff] at hid
    obtain ⟨key, hkey, rfl⟩ := hid
    have hmem : key ∈ keys.take n :=
      mem_of_getElem? ((getElem?_take_of_lt hn).trans hkey)
    have hplace := idxOf_eraseDups_append hmem (keys.drop n)
    rw [take_append_drop] at hplace
    rw [get?, ← Array.getElem?_toList, keys_after, hplace, hkey]
    exact getElem?_idxOf (mem_eraseDups.mpr hmem)
  · intro i j
    rw [handedOut_empty, getElem?_map, getElem?_map]
    refine ⟨fun h => ?_, fun h => h ▸ rfl⟩
    cases hi : keys[i]? with
    | none => rw [hi, Option.map_none, eq_comm, Option.map_eq_none_iff] at h; exact h.symm
    | some key =>
      rw [hi, Option.map_some, eq_comm, Option.map_eq_some_iff] at h
      obtain ⟨key', hj, heq⟩ := h
      have hmem := mem_eraseDups.mpr (mem_of_getElem? hi)
      rw [hj, (idxOf_inj hmem).mp heq.symm]
  · intro id
    rw [← mem_eraseDups, eraseDups_handedOut, mem_range, Nat.not_lt]
    exact Array.getElem?_eq_none_iff

end Accessors

end Wasm
