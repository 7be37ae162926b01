import Wasm.Value
import Wasm.Numeric.Evaluate
import Wasm.Numeric.Word

/-! # Operators on values

A host can put any value into a global, so the functions are total. -/

namespace Wasm

namespace Value

@[inline]
def asI32 : Value → BitVec 32
  | i32 w => w
  | _ => 0

@[inline]
def asI64 : Value → BitVec 64
  | i64 w => w
  | _ => 0

@[inline]
def asF32 : Value → BitVec 32
  | f32 b => b
  | _ => 0

@[inline]
def asF64 : Value → BitVec 64
  | f64 b => b
  | _ => 0

/-- A truth value. -/
@[inline]
def ofBool (b : Bool) : Value := i32 (Integer.ofBool b)

def asFloat (w : FloatWidth) (v : Value) : FloatDatum :=
  match w with
  | .w32 => FloatFormat.binary32.ofVec v.asF32
  | .w64 => FloatFormat.binary64.ofVec v.asF64

def ofFloat (w : FloatWidth) (x : FloatDatum) : Value :=
  match w with
  | .w32 => f32 (FloatFormat.binary32.toVec x)
  | .w64 => f64 (FloatFormat.binary64.toVec x)

end Value

open Value

def BinaryOp.apply (op : BinaryOp) (lhs rhs : Value) : Except Trap Value :=
  match lhs, rhs with
  | .i32 a, .i32 b =>
    match op with
    | .int .w32 op => (op.eval32 a b).map .i32
    | .intCompare .w32 op => .ok (.ofBool (op.eval32 a b))
    | _ => .ok (.i32 0)
  | .i64 a, .i64 b =>
    match op with
    | .int .w64 op => (op.eval64 a b).map .i64
    | .intCompare .w64 op => .ok (.ofBool (op.eval64 a b))
    | _ => .ok (.i64 0)
  | .f32 a, .f32 b =>
    let fmt := FloatFormat.binary32
    match op with
    | .float .w32 op => .ok (.f32 (fmt.toVec (op.eval fmt (fmt.ofVec a) (fmt.ofVec b))))
    | .floatCompare .w32 op => .ok (.ofBool (op.eval fmt (fmt.ofVec a) (fmt.ofVec b)))
    | _ => .ok (.f32 0)
  | .f64 a, .f64 b =>
    let fmt := FloatFormat.binary64
    match op with
    | .float .w64 op => .ok (.f64 (fmt.toVec (op.eval fmt (fmt.ofVec a) (fmt.ofVec b))))
    | .floatCompare .w64 op => .ok (.ofBool (op.eval fmt (fmt.ofVec a) (fmt.ofVec b)))
    | _ => .ok (.f64 0)
  | _, _ => .ok (.i32 0)

def UnaryOp.apply (op : UnaryOp) (v : Value) : Except Trap Value :=
  match op with
  | .int .w32 op => .ok (.i32 (op.eval v.asI32))
  | .int .w64 op => .ok (.i64 (op.eval v.asI64))
  | .eqz .w32 => .ok (.ofBool (v.asI32 == 0))
  | .eqz .w64 => .ok (.ofBool (v.asI64 == 0))
  | .float w op => .ok (.ofFloat w (op.eval w.format (v.asFloat w)))
  | .wrap => .ok (.i32 (v.asI64.setWidth 32))
  | .extend .signed => .ok (.i64 (v.asI32.signExtend 64))
  | .extend .unsigned => .ok (.i64 (v.asI32.setWidth 64))
  | .extendLow .w32 low => .ok (.i32 (low.extend v.asI32))
  | .extendLow .w64 low => .ok (.i64 (low.extend v.asI64))
  | .trunc .w32 source sign => (sign.truncate .w32 source (v.asFloat source)).map .i32
  | .trunc .w64 source sign => (sign.truncate .w64 source (v.asFloat source)).map .i64
  | .truncSat .w32 source sign => .ok (.i32 (sign.truncateSat source.format 32 (v.asFloat source)))
  | .truncSat .w64 source sign => .ok (.i64 (sign.truncateSat source.format 64 (v.asFloat source)))
  | .convert target .w32 sign => .ok (.ofFloat target (target.format.ofInt (sign.toInt v.asI32)))
  | .convert target .w64 sign => .ok (.ofFloat target (target.format.ofInt (sign.toInt v.asI64)))
  | .demote => .ok (.ofFloat .w32 (FloatFormat.binary64.convert .binary32 (v.asFloat .w64)))
  | .promote => .ok (.ofFloat .w64 (FloatFormat.binary32.convert .binary64 (v.asFloat .w32)))
  | .bitsOfFloat .w32 => .ok (.i32 v.asF32)
  | .bitsOfFloat .w64 => .ok (.i64 v.asF64)
  | .floatOfBits .w32 => .ok (.f32 v.asI32)
  | .floatOfBits .w64 => .ok (.f64 v.asI64)

end Wasm
