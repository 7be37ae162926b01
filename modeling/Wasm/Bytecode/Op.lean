import Wasm.Operator
import Wasm.Module.Carrier

/-! # Bytecode

The flat code of function bodies.  Jumps go to labels while code is being assembled, and to
positions once it is linked. -/

namespace Wasm

/-- A jump target that gets its position later. -/
structure Label where
  id : Nat
deriving DecidableEq, Inhabited

/-- A global as code refers to it. -/
inductive GlobalRef where
  | imported (index : Nat)
  | defined (index : Nat)
deriving DecidableEq, Inhabited

/-- A local and the first frame slot it takes. -/
structure LocalSlot where
  type : ValueType
  slot : Nat
deriving DecidableEq, Inhabited

/-- Operations that do not jump. -/
inductive BasicOp where
  | unreachable
  | ret
  | call (func : Nat)
  | callIndirect (type table : Nat)
  | drop
  | select
  | i32Const (value : BitVec 32)
  | i64Const (value : BitVec 64)
  | f32Const (bits : BitVec 32)
  | f64Const (bits : BitVec 64)
  | localGet (slot : Nat)
  | localSet (slot : Nat)
  | localTee (slot : Nat)
  | globalGet (global : GlobalRef)
  | globalSet (global : GlobalRef)
  | binary (op : BinaryOp)
  | unary (op : UnaryOp)
  | load (access : MemoryAccess) (memory offset : Nat)
  | store (access : MemoryAccess) (memory offset : Nat)
  | loadVia (accessor : Nat)
  | storeVia (accessor : Nat)
  | memorySize (memory : Nat)
  | memoryGrow (memory : Nat)
  | memoryInit (data memory : Nat)
  | dataDrop (data : Nat)
  | memoryCopy (dst src : Nat)
  | memoryFill (memory : Nat)
  | tableGet (table : Nat)
  | tableSet (table : Nat)
  | tableSize (table : Nat)
  | tableGrow (table : Nat)
  | tableFill (table : Nat)
  | tableCopy (dst src : Nat)
  | tableInit (elem table : Nat)
  | elemDrop (elem : Nat)
  | refNull (type : ValueType)
  | refIsNull
  | refFunc (func : Nat)
  | pack (carrier : Carrier)
  | unpack (carrier : Carrier)
deriving DecidableEq, Inhabited

/-- Operations whose jumps lead to targets of type `τ`. -/
inductive Op (τ : Type) where
  | basic (op : BasicOp)
  | jump (target : τ)
  | jumpIf (target : τ)
  | jumpUnless (target : τ)
  | jumpTable (targets : Array τ) (default : τ)
deriving DecidableEq, Inhabited

def Op.targets {τ : Type} : Op τ → List τ
  | .basic _ => []
  | .jump target | .jumpIf target | .jumpUnless target => [target]
  | .jumpTable targets default => targets.toList ++ [default]

def Op.mapTargets {σ τ ε : Type} (f : σ → Except ε τ) : Op σ → Except ε (Op τ)
  | .basic op => .ok (.basic op)
  | .jump target => return .jump (← f target)
  | .jumpIf target => return .jumpIf (← f target)
  | .jumpUnless target => return .jumpUnless (← f target)
  | .jumpTable targets default => do
    let targets ← targets.toList.mapM f
    return .jumpTable targets.toArray (← f default)

/-- A function body ready to run. -/
structure CompiledFunction where
  funcIndex : Nat
  type : FuncType
  locals : Array LocalSlot
  frameSlots : Nat
  code : Array (Op Nat)
deriving Inhabited

end Wasm
