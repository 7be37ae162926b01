import Wasm.Operator

/-! # Instructions and constant expressions

`block`, `loop` and `ifThen` open a scope, `endScope` closes the innermost one. -/

namespace Wasm

/-- The type of a block. -/
inductive BlockType where
  | empty
  | value (type : ValueType)
  | func (index : Nat)
deriving DecidableEq, Inhabited

/-- The immediates of a load or store. -/
structure MemArg where
  align : Nat
  memory : Nat
  offset : Nat
deriving DecidableEq, Inhabited

/-- Instructions of a function body. -/
inductive Instr where
  | unreachable
  | nop
  | block (type : BlockType)
  | loop (type : BlockType)
  | ifThen (type : BlockType)
  | elseArm
  | endScope
  | br (depth : Nat)
  | brIf (depth : Nat)
  | brTable (depths : List Nat) (default : Nat)
  | ret
  | call (func : Nat)
  | callIndirect (type table : Nat)
  | drop
  | select
  | selectTyped (type : ValueType)
  | localGet (index : Nat)
  | localSet (index : Nat)
  | localTee (index : Nat)
  | globalGet (index : Nat)
  | globalSet (index : Nat)
  | tableGet (table : Nat)
  | tableSet (table : Nat)
  | load (access : MemoryAccess) (arg : MemArg)
  | store (access : MemoryAccess) (arg : MemArg)
  | memorySize (memory : Nat)
  | memoryGrow (memory : Nat)
  | i32Const (value : BitVec 32)
  | i64Const (value : BitVec 64)
  | f32Const (bits : BitVec 32)
  | f64Const (bits : BitVec 64)
  | unary (op : UnaryOp)
  | binary (op : BinaryOp)
  | refNull (type : ValueType)
  | refIsNull
  | refFunc (func : Nat)
  | memoryInit (data memory : Nat)
  | dataDrop (data : Nat)
  | memoryCopy (dst src : Nat)
  | memoryFill (memory : Nat)
  | tableInit (elem table : Nat)
  | elemDrop (elem : Nat)
  | tableCopy (dst src : Nat)
  | tableGrow (table : Nat)
  | tableSize (table : Nat)
  | tableFill (table : Nat)
deriving DecidableEq, Inhabited

/-- Constant expressions. -/
inductive ConstExpr where
  | i32 (value : BitVec 32)
  | i64 (value : BitVec 64)
  | f32 (bits : BitVec 32)
  | f64 (bits : BitVec 64)
  | refNull (type : ValueType)
  | refFunc (func : Nat)
  | globalGet (index : Nat)
deriving DecidableEq, Inhabited

end Wasm
