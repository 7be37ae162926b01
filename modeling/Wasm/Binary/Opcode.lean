import Wasm.Binary.Primitive

/-! # Instructions in a binary

Loads, stores and numeric operators are read from tables. -/

namespace Wasm.Decode

def loads : Array MemoryAccess :=
  #[.full .i32, .full .i64, .full .f32, .full .f64,
    ⟨.i32, .i8, some .signed⟩, ⟨.i32, .i8, some .unsigned⟩,
    ⟨.i32, .i16, some .signed⟩, ⟨.i32, .i16, some .unsigned⟩,
    ⟨.i64, .i8, some .signed⟩, ⟨.i64, .i8, some .unsigned⟩,
    ⟨.i64, .i16, some .signed⟩, ⟨.i64, .i16, some .unsigned⟩,
    ⟨.i64, .i32, some .signed⟩, ⟨.i64, .i32, some .unsigned⟩]

def stores : Array MemoryAccess :=
  #[.full .i32, .full .i64, .full .f32, .full .f64,
    ⟨.i32, .i8, none⟩, ⟨.i32, .i16, none⟩, ⟨.i64, .i8, none⟩, ⟨.i64, .i16, none⟩,
    ⟨.i64, .i32, none⟩]

def intTests (w : IntWidth) : List Instr :=
  .unary (.eqz w) :: [.eq, .ne, .lt .signed, .lt .unsigned, .gt .signed, .gt .unsigned, .le .signed,
      .le .unsigned, .ge .signed, .ge .unsigned].map fun op => .binary (.intCompare w op)

def floatTests (w : FloatWidth) : List Instr :=
  [.eq, .ne, .lt, .gt, .le, .ge].map fun op => .binary (.floatCompare w op)

def intArithmetic (w : IntWidth) : List Instr :=
  ([.clz, .ctz, .popcnt].map fun op => .unary (.int w op)) ++
    [.add, .sub, .mul, .div .signed, .div .unsigned, .rem .signed, .rem .unsigned, .and, .or, .xor,
      .shl, .shr .signed, .shr .unsigned, .rotl, .rotr].map fun op => .binary (.int w op)

def floatArithmetic (w : FloatWidth) : List Instr :=
  ([.abs, .neg, .ceil, .floor, .trunc, .nearest, .sqrt].map fun op => .unary (.float w op)) ++
    [.add, .sub, .mul, .div, .min, .max, .copysign].map fun op => .binary (.float w op)

def conversions : List UnaryOp :=
  [.wrap, .trunc .w32 .w32 .signed, .trunc .w32 .w32 .unsigned, .trunc .w32 .w64 .signed,
    .trunc .w32 .w64 .unsigned, .extend .signed, .extend .unsigned, .trunc .w64 .w32 .signed,
    .trunc .w64 .w32 .unsigned, .trunc .w64 .w64 .signed, .trunc .w64 .w64 .unsigned,
    .convert .w32 .w32 .signed, .convert .w32 .w32 .unsigned, .convert .w32 .w64 .signed,
    .convert .w32 .w64 .unsigned, .demote, .convert .w64 .w32 .signed, .convert .w64 .w32 .unsigned,
    .convert .w64 .w64 .signed, .convert .w64 .w64 .unsigned, .promote, .bitsOfFloat .w32,
    .bitsOfFloat .w64, .floatOfBits .w32, .floatOfBits .w64, .extendLow .w32 .w8,
    .extendLow .w32 .w16, .extendLow .w64 .w8, .extendLow .w64 .w16, .extendLow .w64 .w32]

def numerics : Array Instr :=
  (intTests .w32 ++ intTests .w64 ++ floatTests .w32 ++ floatTests .w64 ++
    intArithmetic .w32 ++ intArithmetic .w64 ++ floatArithmetic .w32 ++ floatArithmetic .w64 ++
    conversions.map Instr.unary).toArray

def clampingConversions : Array UnaryOp :=
  #[.truncSat .w32 .w32 .signed, .truncSat .w32 .w32 .unsigned,
    .truncSat .w32 .w64 .signed, .truncSat .w32 .w64 .unsigned,
    .truncSat .w64 .w32 .signed, .truncSat .w64 .w32 .unsigned,
    .truncSat .w64 .w64 .signed, .truncSat .w64 .w64 .unsigned]

def entry? {α : Type} (table : Array α) (first code : Nat) : Option α :=
  if first ≤ code then table[code - first]? else none

def memArg : Decode MemArg := do
  let flags ← u32
  let explicit := flags.testBit 6
  let memory ← if explicit then u32 else pure 0
  let offset ← u32
  return { align := if explicit then flags - 64 else flags, memory, offset }

def prefixed (at_ : Nat) (code : UInt8) : Decode Instr := do
  let sub ← u32
  match clampingConversions[sub]? with
  | some op => return .unary op
  | none =>
    match sub with
    | 8 => return .memoryInit (← u32) (← u32)
    | 9 => return .dataDrop (← u32)
    | 10 => return .memoryCopy (← u32) (← u32)
    | 11 => return .memoryFill (← u32)
    | 12 => return .tableInit (← u32) (← u32)
    | 13 => return .elemDrop (← u32)
    | 14 => return .tableCopy (← u32) (← u32)
    | 15 => return .tableGrow (← u32)
    | 16 => return .tableSize (← u32)
    | 17 => return .tableFill (← u32)
    | _ => fail (.unknownPrefixedOpcode code sub) at_

/-- The type of a typed `select`, which declares exactly one. -/
def selectType (at_ : Nat) : Decode ValueType := do
  let count ← u32
  if count = 1 then valueType else fail .invalidSelectArity at_

def instr : Decode Instr := do
  let at_ ← position
  let code ← byte
  match code.toNat with
  | 0x00 => return .unreachable
  | 0x01 => return .nop
  | 0x02 => return .block (← blockType)
  | 0x03 => return .loop (← blockType)
  | 0x04 => return .ifThen (← blockType)
  | 0x05 => return .elseArm
  | 0x0B => return .endScope
  | 0x0C => return .br (← u32)
  | 0x0D => return .brIf (← u32)
  | 0x0E => return .brTable (← many (← u32) u32) (← u32)
  | 0x0F => return .ret
  | 0x10 => return .call (← u32)
  | 0x11 => return .callIndirect (← u32) (← u32)
  | 0x1A => return .drop
  | 0x1B => return .select
  | 0x1C => return .selectTyped (← selectType at_)
  | 0x20 => return .localGet (← u32)
  | 0x21 => return .localSet (← u32)
  | 0x22 => return .localTee (← u32)
  | 0x23 => return .globalGet (← u32)
  | 0x24 => return .globalSet (← u32)
  | 0x25 => return .tableGet (← u32)
  | 0x26 => return .tableSet (← u32)
  | 0x3F => return .memorySize (← u32)
  | 0x40 => return .memoryGrow (← u32)
  | 0x41 => return .i32Const (BitVec.ofInt 32 (← s32))
  | 0x42 => return .i64Const (BitVec.ofInt 64 (← s64))
  | 0x43 => return .f32Const (← f32)
  | 0x44 => return .f64Const (← f64)
  | 0xD0 => return .refNull (← refType)
  | 0xD1 => return .refIsNull
  | 0xD2 => return .refFunc (← u32)
  | 0xFC => prefixed at_ code
  | n =>
    match entry? loads 0x28 n, entry? stores 0x36 n, entry? numerics 0x45 n with
    | some access, _, _ => return .load access (← memArg)
    | none, some access, _ => return .store access (← memArg)
    | none, none, some numeric => return numeric
    | none, none, none => fail (.unknownOpcode code) at_

end Wasm.Decode
