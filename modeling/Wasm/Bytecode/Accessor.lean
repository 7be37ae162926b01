import Wasm.Operator

/-! # Memory accessors

A module keeps each distinct access once, in order of first use. -/

namespace Wasm

/-- What an accessor does. -/
inductive AccessKind where
  | load (access : MemoryAccess)
  | store (access : MemoryAccess)
deriving DecidableEq, Inhabited

/-- A load or store at a static offset. -/
structure AccessorKey where
  kind : AccessKind
  memory : Nat
  offset : Nat
deriving DecidableEq, Inhabited

/-- The accessors of a module and their numbers. -/
structure Accessors where
  ids : List (AccessorKey × Nat)
  keys : Array AccessorKey
  inverse : ∀ key id, ids.lookup key = some id ↔ keys[id]? = some key
deriving DecidableEq

namespace Accessors

/-- No accessors. -/
def empty : Accessors := ⟨[], #[], fun key id => by simp⟩

instance instInhabited : Inhabited Accessors := ⟨empty⟩

/-- The number of distinct accessors. -/
def size (accessors : Accessors) : Nat := accessors.keys.size

/-- The accessor of a number. -/
def get? (accessors : Accessors) (id : Nat) : Option AccessorKey := accessors.keys[id]?

/-- A new accessor keeps the numbers and the places inverse to each other. -/
theorem inverse_push (accessors : Accessors) {key : AccessorKey}
    (h : accessors.ids.lookup key = none) (other : AccessorKey) (id : Nat) :
    ((key, accessors.size) :: accessors.ids).lookup other = some id ↔
      (accessors.keys.push key)[id]? = some other := by
  have hinv := accessors.inverse other id
  rw [List.lookup_cons, Array.getElem?_push]
  by_cases hkey : other = key
  · -- no place held the new key before
    subst hkey
    have hnew : accessors.keys[id]? ≠ some other := by
      intro hid
      rw [hinv.mpr hid] at h
      cases h
    rw [beq_self_eq_true]
    show some accessors.size = some id ↔ _
    split
    · next hid => exact iff_of_true (congrArg some hid.symm) rfl
    · next hid => exact iff_of_false (fun heq => hid (Option.some.inj heq).symm) hnew
  · -- the new place is beyond those of the others
    have hlast : accessors.keys[id]? = some other → id ≠ accessors.keys.size := by
      rintro hid rfl
      rw [Array.getElem?_size] at hid
      cases hid
    rw [beq_eq_false_iff_ne.mpr hkey, hinv]
    split
    · next hid =>
      exact iff_of_false (fun hold => hlast hold hid) fun heq => hkey (Option.some.inj heq).symm
    · rfl

/-- The number of an accessor, which is added when it is new. -/
def intern (accessors : Accessors) (key : AccessorKey) : Nat × Accessors :=
  match h : accessors.ids.lookup key with
  | some id => (id, accessors)
  | none =>
    (accessors.size,
      ⟨(key, accessors.size) :: accessors.ids, accessors.keys.push key, accessors.inverse_push h⟩)

end Accessors

end Wasm
