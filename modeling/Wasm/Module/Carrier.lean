import Wasm.ValueType

/-! # Carriers of several results

Two or more results are packed into a bundle, whose layout is a `Carrier`. -/

namespace Wasm

/-- The layout of a bundle: the type of each field. -/
structure Carrier where
  fields : List ValueType
deriving DecidableEq, Inhabited

/-- How a list of results is returned as one value. -/
inductive CarrierType where
  | void
  | single (type : ValueType)
  | bundle (carrier : Carrier)
deriving DecidableEq, Inhabited

namespace Carrier

def forResults : List ValueType → CarrierType
  | [] => .void
  | [type] => .single type
  | results => .bundle ⟨results⟩

def bundleFor? (results : List ValueType) : Option Carrier :=
  match forResults results with
  | .bundle carrier => some carrier
  | _ => none

end Carrier

/-- The carriers handed out; a place is an identity. -/
structure CarrierPool where
  carriers : List Carrier
deriving Inhabited

namespace CarrierPool

def empty : CarrierPool := ⟨[]⟩

def lookup? (pool : CarrierPool) (carrier : Carrier) : Option Nat :=
  pool.carriers.findIdx? (· = carrier)

def publish (pool : CarrierPool) (carrier : Carrier) : Nat × CarrierPool :=
  match pool.lookup? carrier with
  | some id => (id, pool)
  | none => (pool.carriers.length, ⟨pool.carriers ++ [carrier]⟩)

end CarrierPool

end Wasm
