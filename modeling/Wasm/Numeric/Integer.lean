import Wasm.Operator
import Wasm.Trap

/-! # Integer operations

Integers are bit vectors of a width `n`; each operation is given once for all widths. -/

namespace Wasm

namespace Integer

variable {n : Nat}

@[inline]
def divS (a b : BitVec n) : Except Trap (BitVec n) :=
  if b = 0 then .error .divideByZero
  else if a = BitVec.intMin n ∧ b = -1 then .error .integerOverflow
  else .ok (a.sdiv b)

@[inline]
def divU (a b : BitVec n) : Except Trap (BitVec n) :=
  if b = 0 then .error .divideByZero else .ok (a / b)

@[inline]
def remS (a b : BitVec n) : Except Trap (BitVec n) :=
  if b = 0 then .error .divideByZero else .ok (a.srem b)

@[inline]
def remU (a b : BitVec n) : Except Trap (BitVec n) :=
  if b = 0 then .error .divideByZero else .ok (a % b)

def ofBool (b : Bool) : BitVec 32 := if b then 1 else 0

end Integer

@[inline]
def IntBinary.eval {n : Nat} (op : IntBinary) (a b : BitVec n) : Except Trap (BitVec n) :=
  match op with
  | .add => .ok (a + b)
  | .sub => .ok (a - b)
  | .mul => .ok (a * b)
  | .div .signed => Integer.divS a b
  | .div .unsigned => Integer.divU a b
  | .rem .signed => Integer.remS a b
  | .rem .unsigned => Integer.remU a b
  | .and => .ok (a &&& b)
  | .or => .ok (a ||| b)
  | .xor => .ok (a ^^^ b)
  | .shl => .ok (a <<< (b.toNat % n))
  | .shr .signed => .ok (a.sshiftRight (b.toNat % n))
  | .shr .unsigned => .ok (a >>> (b.toNat % n))
  | .rotl => .ok (a.rotateLeft (b.toNat % n))
  | .rotr => .ok (a.rotateRight (b.toNat % n))

@[inline]
def IntCompare.eval {n : Nat} (op : IntCompare) (a b : BitVec n) : Bool :=
  match op with
  | .eq => a == b
  | .ne => a != b
  | .lt .signed => a.slt b
  | .lt .unsigned => a.ult b
  | .gt .signed => b.slt a
  | .gt .unsigned => b.ult a
  | .le .signed => a.sle b
  | .le .unsigned => a.ule b
  | .ge .signed => b.sle a
  | .ge .unsigned => b.ule a

def IntUnary.eval {n : Nat} (op : IntUnary) (a : BitVec n) : BitVec n :=
  match op with
  | .clz => a.clz
  | .ctz => a.ctz
  | .popcnt => a.cpop

def NarrowWidth.bits : NarrowWidth → Nat
  | .w8 => 8
  | .w16 => 16
  | .w32 => 32

def NarrowWidth.extend {n : Nat} (low : NarrowWidth) (a : BitVec n) : BitVec n :=
  (a.setWidth low.bits).signExtend n

def Signedness.toInt {n : Nat} (sign : Signedness) (a : BitVec n) : Int :=
  match sign with
  | .signed => a.toInt
  | .unsigned => a.toNat

def Signedness.least (sign : Signedness) (n : Nat) : Int :=
  match sign with
  | .signed => -(Nat.pow 2 (n - 1) : Int)
  | .unsigned => 0

def Signedness.greatest (sign : Signedness) (n : Nat) : Int :=
  match sign with
  | .signed => (Nat.pow 2 (n - 1) : Int) - 1
  | .unsigned => (Nat.pow 2 n : Int) - 1

end Wasm
