import Wasm.ValueType
import Wasm.Numeric.Decimal

/-! # Runtime values

Two or more results of a call travel as one `bundle`.  Equality compares floats by their bits. -/

namespace Wasm

/-- The address of a function in a store. -/
structure FuncAddr where
  index : Nat
deriving DecidableEq, Inhabited

/-- Runtime values. -/
inductive Value where
  | i32 (word : BitVec 32)
  | i64 (word : BitVec 64)
  | f32 (bits : BitVec 32)
  | f64 (bits : BitVec 64)
  | funcRef (func : Option FuncAddr)
  | externRef (host : Option (BitVec 32))
  | bundle (fields : List Value)
deriving Inhabited

namespace Value

def zero : ValueType → Value
  | .i32 => i32 0
  | .i64 => i64 0
  | .f32 => f32 0
  | .f64 => f64 0
  | .funcRef => funcRef none
  | .externRef => externRef none

def type? : Value → Option ValueType
  | i32 _ => some .i32
  | i64 _ => some .i64
  | f32 _ => some .f32
  | f64 _ => some .f64
  | funcRef _ => some .funcRef
  | externRef _ => some .externRef
  | bundle _ => none

theorem type?_zero (t : ValueType) : (zero t).type? = some t := by
  cases t <;> rfl

def isNull : Value → Bool
  | funcRef none | externRef none => true
  | _ => false

mutual

def same : Value → Value → Bool
  | i32 a, i32 b => a == b
  | i64 a, i64 b => a == b
  | f32 a, f32 b => a == b
  | f64 a, f64 b => a == b
  | funcRef a, funcRef b => a == b
  | externRef a, externRef b => a == b
  | bundle as, bundle bs => sameList as bs
  | _, _ => false

def sameList : List Value → List Value → Bool
  | [], [] => true
  | a :: as, b :: bs => same a b && sameList as bs
  | _, _ => false

end

instance : BEq Value := ⟨same⟩

mutual

def describe (func : FuncAddr → String) : Value → String
  | i32 w => s!"i32:{w.toInt}"
  | i64 w => s!"i64:{w.toInt}"
  | f32 b => "f32:" ++ FloatFormat.binary32.render (FloatFormat.binary32.ofBits b.toNat)
  | f64 b => "f64:" ++ FloatFormat.binary64.render (FloatFormat.binary64.ofBits b.toNat)
  | funcRef none | externRef none => "null"
  | funcRef (some f) => func f
  | externRef (some e) => s!"extern:{e.toNat}"
  | bundle fields => "[" ++ String.intercalate ", " (describeList func fields) ++ "]"

def describeList (func : FuncAddr → String) : List Value → List String
  | [] => []
  | v :: vs => describe func v :: describeList func vs

end

def render (func : FuncAddr → String) : Value → String
  | i32 w => toString w.toInt
  | i64 w => toString w.toInt
  | f32 b => FloatFormat.binary32.render (FloatFormat.binary32.ofBits b.toNat)
  | f64 b => FloatFormat.binary64.render (FloatFormat.binary64.ofBits b.toNat)
  | v => describe func v

end Value

end Wasm
