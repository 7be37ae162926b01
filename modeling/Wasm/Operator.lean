import Wasm.ValueType

/-! # Numeric operators and memory accesses

Comparisons and zero tests yield `i32`. -/

namespace Wasm

/-- The two integer widths. -/
inductive IntWidth where
  | w32
  | w64
deriving DecidableEq, Inhabited

/-- The two float widths. -/
inductive FloatWidth where
  | w32
  | w64
deriving DecidableEq, Inhabited

def IntWidth.type : IntWidth → ValueType
  | w32 => .i32
  | w64 => .i64

def FloatWidth.type : FloatWidth → ValueType
  | w32 => .f32
  | w64 => .f64

/-- How an integer is read. -/
inductive Signedness where
  | signed
  | unsigned
deriving DecidableEq, Inhabited

/-- Integer operations of two operands. -/
inductive IntBinary where
  | add
  | sub
  | mul
  | div (sign : Signedness)
  | rem (sign : Signedness)
  | and
  | or
  | xor
  | shl
  | shr (sign : Signedness)
  | rotl
  | rotr
deriving DecidableEq, Inhabited

/-- Integer comparisons. -/
inductive IntCompare where
  | eq
  | ne
  | lt (sign : Signedness)
  | gt (sign : Signedness)
  | le (sign : Signedness)
  | ge (sign : Signedness)
deriving DecidableEq, Inhabited

/-- Float operations of two operands. -/
inductive FloatBinary where
  | add
  | sub
  | mul
  | div
  | min
  | max
  | copysign
deriving DecidableEq, Inhabited

/-- Float comparisons. -/
inductive FloatCompare where
  | eq
  | ne
  | lt
  | gt
  | le
  | ge
deriving DecidableEq, Inhabited

/-- Operators that take two operands of one type. -/
inductive BinaryOp where
  | int (width : IntWidth) (op : IntBinary)
  | intCompare (width : IntWidth) (op : IntCompare)
  | float (width : FloatWidth) (op : FloatBinary)
  | floatCompare (width : FloatWidth) (op : FloatCompare)
deriving DecidableEq, Inhabited

/-- Integer operations of one operand. -/
inductive IntUnary where
  | clz
  | ctz
  | popcnt
deriving DecidableEq, Inhabited

/-- Float operations of one operand. -/
inductive FloatUnary where
  | abs
  | neg
  | ceil
  | floor
  | trunc
  | nearest
  | sqrt
deriving DecidableEq, Inhabited

/-- The narrow widths whose sign can be extended in place. -/
inductive NarrowWidth where
  | w8
  | w16
  | w32
deriving DecidableEq, Inhabited

/-- Operators that take one operand. -/
inductive UnaryOp where
  | int (width : IntWidth) (op : IntUnary)
  | eqz (width : IntWidth)
  | float (width : FloatWidth) (op : FloatUnary)
  | wrap
  | extend (sign : Signedness)
  | extendLow (width : IntWidth) (low : NarrowWidth)
  | trunc (target : IntWidth) (source : FloatWidth) (sign : Signedness)
  | truncSat (target : IntWidth) (source : FloatWidth) (sign : Signedness)
  | convert (target : FloatWidth) (source : IntWidth) (sign : Signedness)
  | demote
  | promote
  | bitsOfFloat (width : FloatWidth)
  | floatOfBits (width : FloatWidth)
deriving DecidableEq, Inhabited

def FloatWidth.intWidth : FloatWidth → IntWidth
  | w32 => .w32
  | w64 => .w64

namespace BinaryOp

def operandType : BinaryOp → ValueType
  | int w _ | intCompare w _ => w.type
  | float w _ | floatCompare w _ => w.type

def isComparison : BinaryOp → Bool
  | intCompare _ _ | floatCompare _ _ => true
  | _ => false

def resultType (op : BinaryOp) : ValueType :=
  if op.isComparison then .i32 else op.operandType

end BinaryOp

namespace UnaryOp

def operandType : UnaryOp → ValueType
  | int w _ | eqz w | extendLow w _ => w.type
  | float w _ | bitsOfFloat w => w.type
  | wrap => .i64
  | extend _ => .i32
  | trunc _ source _ | truncSat _ source _ => source.type
  | convert _ source _ => source.type
  | demote => .f64
  | promote => .f32
  | floatOfBits w => w.intWidth.type

def resultType : UnaryOp → ValueType
  | int w _ | extendLow w _ => w.type
  | eqz _ | wrap => .i32
  | float w _ | floatOfBits w => w.type
  | extend _ => .i64
  | trunc target _ _ | truncSat target _ _ => target.type
  | convert target _ _ => target.type
  | demote => .f32
  | promote => .f64
  | bitsOfFloat w => w.intWidth.type

end UnaryOp

/-! ## Memory accesses -/

/-- How many bytes an access touches. -/
inductive AccessWidth where
  | full
  | i8
  | i16
  | i32
deriving DecidableEq, Inhabited

/-- The type of an access, and its width in memory. -/
structure MemoryAccess where
  type : ValueType
  width : AccessWidth
  sign : Option Signedness
deriving DecidableEq, Inhabited

namespace MemoryAccess

def full (type : ValueType) : MemoryAccess := ⟨type, .full, none⟩

def byteWidth (access : MemoryAccess) : Nat :=
  match access.width with
  | .i8 => 1
  | .i16 => 2
  | .i32 => 4
  | .full =>
    match access.type with
    | .i64 | .f64 => 8
    | _ => 4

def naturalAlignment (access : MemoryAccess) : Nat :=
  match access.width with
  | .i8 => 0
  | .i16 => 1
  | .i32 => 2
  | .full =>
    match access.type with
    | .i64 | .f64 => 3
    | _ => 2

theorem two_pow_naturalAlignment (access : MemoryAccess) :
    Nat.pow 2 access.naturalAlignment = access.byteWidth := by
  obtain ⟨type, width, sign⟩ := access
  cases width <;> cases type <;> rfl

end MemoryAccess

end Wasm
