import Wasm.Numeric.Integer

/-! # Integer operations on machine words

The operations of `Wasm.Numeric.Integer` at the two widths, each equal to the general one. -/

namespace Wasm

namespace IntBinary

@[inline]
def eval32 (op : IntBinary) (a b : BitVec 32) : Except Trap (BitVec 32) :=
  match op with
  | .add => .ok (UInt32.ofBitVec a + UInt32.ofBitVec b).toBitVec
  | .sub => .ok (UInt32.ofBitVec a - UInt32.ofBitVec b).toBitVec
  | .mul => .ok (UInt32.ofBitVec a * UInt32.ofBitVec b).toBitVec
  | .div .signed =>
    if b = 0 then .error .divideByZero
    else if a = BitVec.intMin 32 ∧ b = -1 then .error .integerOverflow
    else .ok (Int32.ofBitVec a / Int32.ofBitVec b).toBitVec
  | .div .unsigned => Integer.divU a b
  | .rem .signed =>
    if b = 0 then .error .divideByZero
    else .ok (Int32.ofBitVec a % Int32.ofBitVec b).toBitVec
  | .rem .unsigned => Integer.remU a b
  | .and => .ok (UInt32.ofBitVec a &&& UInt32.ofBitVec b).toBitVec
  | .or => .ok (UInt32.ofBitVec a ||| UInt32.ofBitVec b).toBitVec
  | .xor => .ok (UInt32.ofBitVec a ^^^ UInt32.ofBitVec b).toBitVec
  | .shl => .ok (UInt32.ofBitVec a <<< UInt32.ofBitVec b).toBitVec
  | .shr .unsigned => .ok (UInt32.ofBitVec a >>> UInt32.ofBitVec b).toBitVec
  | op => op.eval a b

@[inline]
def eval64 (op : IntBinary) (a b : BitVec 64) : Except Trap (BitVec 64) :=
  match op with
  | .add => .ok (UInt64.ofBitVec a + UInt64.ofBitVec b).toBitVec
  | .sub => .ok (UInt64.ofBitVec a - UInt64.ofBitVec b).toBitVec
  | .mul => .ok (UInt64.ofBitVec a * UInt64.ofBitVec b).toBitVec
  | .div .signed =>
    if b = 0 then .error .divideByZero
    else if a = BitVec.intMin 64 ∧ b = -1 then .error .integerOverflow
    else .ok (Int64.ofBitVec a / Int64.ofBitVec b).toBitVec
  | .div .unsigned => Integer.divU a b
  | .rem .signed =>
    if b = 0 then .error .divideByZero
    else .ok (Int64.ofBitVec a % Int64.ofBitVec b).toBitVec
  | .rem .unsigned => Integer.remU a b
  | .and => .ok (UInt64.ofBitVec a &&& UInt64.ofBitVec b).toBitVec
  | .or => .ok (UInt64.ofBitVec a ||| UInt64.ofBitVec b).toBitVec
  | .xor => .ok (UInt64.ofBitVec a ^^^ UInt64.ofBitVec b).toBitVec
  | .shl => .ok (UInt64.ofBitVec a <<< UInt64.ofBitVec b).toBitVec
  | .shr .unsigned => .ok (UInt64.ofBitVec a >>> UInt64.ofBitVec b).toBitVec
  | op => op.eval a b

theorem eval32_eq (op : IntBinary) (a b : BitVec 32) : op.eval32 a b = op.eval a b := by
  cases op with
  | div sign => cases sign <;> rfl
  | rem sign => cases sign <;> rfl
  | shr sign => cases sign <;> rfl
  | _ => rfl

theorem eval64_eq (op : IntBinary) (a b : BitVec 64) : op.eval64 a b = op.eval a b := by
  cases op with
  | div sign => cases sign <;> rfl
  | rem sign => cases sign <;> rfl
  | shr sign => cases sign <;> rfl
  | _ => rfl

end IntBinary

namespace IntCompare

@[inline]
def eval32 (op : IntCompare) (a b : BitVec 32) : Bool :=
  match op with
  | .lt .signed => decide (Int32.ofBitVec a < Int32.ofBitVec b)
  | .gt .signed => decide (Int32.ofBitVec b < Int32.ofBitVec a)
  | .le .signed => decide (Int32.ofBitVec a ≤ Int32.ofBitVec b)
  | .ge .signed => decide (Int32.ofBitVec b ≤ Int32.ofBitVec a)
  | op => op.eval a b

@[inline]
def eval64 (op : IntCompare) (a b : BitVec 64) : Bool :=
  match op with
  | .lt .signed => decide (Int64.ofBitVec a < Int64.ofBitVec b)
  | .gt .signed => decide (Int64.ofBitVec b < Int64.ofBitVec a)
  | .le .signed => decide (Int64.ofBitVec a ≤ Int64.ofBitVec b)
  | .ge .signed => decide (Int64.ofBitVec b ≤ Int64.ofBitVec a)
  | op => op.eval a b

theorem eval32_eq (op : IntCompare) (a b : BitVec 32) : op.eval32 a b = op.eval a b := by
  cases op with
  | lt sign | gt sign =>
    cases sign
    · simp [eval32, eval, Int32.lt_iff_toBitVec_slt]
    · rfl
  | le sign | ge sign =>
    cases sign
    · simp [eval32, eval, Int32.le_iff_toBitVec_sle]
    · rfl
  | _ => rfl

theorem eval64_eq (op : IntCompare) (a b : BitVec 64) : op.eval64 a b = op.eval a b := by
  cases op with
  | lt sign | gt sign =>
    cases sign
    · simp [eval64, eval, Int64.lt_iff_toBitVec_slt]
    · rfl
  | le sign | ge sign =>
    cases sign
    · simp [eval64, eval, Int64.le_iff_toBitVec_sle]
    · rfl
  | _ => rfl

end IntCompare

end Wasm
