import Wasm.Trap

/-! # Tables of nullable references

Entries are a reference or null.  An operation that fails leaves the table as it was. -/

namespace Wasm

def maxTableEntries : Nat := 10000000

/-- A table whose references are of type `ρ`. -/
structure Table (ρ : Type) where
  entries : Array (Option ρ)
  maximum : Option Nat
deriving Inhabited

abbrev TableM (ρ : Type) := EStateM Trap (Table ρ)

namespace Table

variable {ρ : Type}

def sizeLimit (maximum : Option Nat) : Nat := min (maximum.getD maxTableEntries) maxTableEntries

def create (initial : Nat) (maximum : Option Nat) : Except ConstructionError (Table ρ) :=
  if initial ≤ sizeLimit maximum then
    .ok ⟨Array.replicate initial none, maximum⟩
  else
    .error (.tableInitialExceedsMax initial (sizeLimit maximum))

def size (t : Table ρ) : Nat := t.entries.size

def inBounds (t : Table ρ) (start len : Nat) : Bool := decide (start + len ≤ t.size)

def slice (t : Table ρ) (start len : Nat) : List (Option ρ) :=
  (t.entries.extract start (start + len)).toList

def overwrite (t : Table ρ) (start : Nat) : List (Option ρ) → Table ρ
  | [] => t
  | e :: es => overwrite { t with entries := t.entries.setIfInBounds start e } (start + 1) es

def get (t : Table ρ) (index : Nat) : Except Trap (Option ρ) :=
  match t.entries[index]? with
  | some entry => .ok entry
  | none => .error .tableOutOfBounds

def getNonNull (t : Table ρ) (index : Nat) : Except Trap ρ := do
  match ← t.get index with
  | some entry => .ok entry
  | none => .error .uninitializedElement

@[inline]
def guarded (start len : Nat) (change : Table ρ → Table ρ) : TableM ρ Unit := fun t =>
  if t.inBounds start len then .ok () (change t) else .error .tableOutOfBounds t

def set (index : Nat) (entry : Option ρ) : TableM ρ Unit :=
  guarded index 1 (·.overwrite index [entry])

def fill (dst : Nat) (entry : Option ρ) (len : Nat) : TableM ρ Unit :=
  guarded dst len (·.overwrite dst (List.replicate len entry))

def move (t : Table ρ) (dst src : Nat) : Table ρ :=
  { t with entries := t.entries.setIfInBounds dst t.entries[src]?.join }

def moveUp (t : Table ρ) (dst src : Nat) : Nat → Table ρ
  | 0 => t
  | len + 1 => (t.move dst src).moveUp (dst + 1) (src + 1) len

def moveDown (t : Table ρ) (dst src : Nat) : Nat → Table ρ
  | 0 => t
  | len + 1 => (t.move (dst + len) (src + len)).moveDown dst src len

def copy (dst src len : Nat) : TableM ρ Unit := fun t =>
  if t.inBounds src len then
    guarded dst len (fun t => if dst ≤ src then t.moveUp dst src len else t.moveDown dst src len) t
  else
    .error .tableOutOfBounds t

def copyFrom (source : Table ρ) (dst src len : Nat) : TableM ρ Unit := fun t =>
  if source.inBounds src len then
    guarded dst len (fun t => t.overwrite dst (source.slice src len)) t
  else
    .error .tableOutOfBounds t

def init (dst : Nat) (segment : Array (Option ρ)) (src len : Nat) : TableM ρ Unit := fun t =>
  if src + len ≤ segment.size then
    guarded dst len (fun t => t.overwrite dst (segment.extract src (src + len)).toList) t
  else
    .error .tableOutOfBounds t

def grow (delta : Nat) (entry : Option ρ) : TableM ρ Int := fun t =>
  let old := t.size
  if old + delta ≤ sizeLimit t.maximum then
    .ok old { t with entries := t.entries ++ Array.replicate delta entry }
  else
    .ok (-1) t

end Table

end Wasm
