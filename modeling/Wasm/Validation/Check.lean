import Wasm.Module.IndexSpaces
import Wasm.Validation.ControlStack

/-! # Checking instructions

`Instr.check` is what an instruction requires of the control stack and does to it. -/

namespace Wasm

/-- What a function body is checked against. -/
structure BodyContext where
  spaces : IndexSpaces
  locals : Array LocalSlot
  elemTypes : Array ValueType
  dataCount : Option Nat
  useAccessors : Bool
deriving Inhabited

namespace BodyContext

def localAt (ctx : BodyContext) (index : Nat) : Except Fault LocalSlot :=
  IndexSpaces.lookup ctx.locals index .invalidLocalIndex

def elemType (ctx : BodyContext) (index : Nat) : Except Fault ValueType :=
  IndexSpaces.lookup ctx.elemTypes index .invalidElemIndex

def tableElement (ctx : BodyContext) (index : Nat) : Except Fault ValueType := do
  return (← ctx.spaces.table index).element

def requireData (ctx : BodyContext) (index : Nat) : Except Fault Unit :=
  match ctx.dataCount with
  | some count => if index < count then .ok () else .error (.invalidDataIndex index)
  | none => .ok ()

end BodyContext

namespace Check

def requireMemory (ctx : BodyContext) (index : Nat) : Check Unit := do
  let _ ← need (ctx.spaces.memory index)

def requireSame (expected found : ValueType) : Check Unit :=
  if found = expected then pure () else throw (.typeMismatch expected found)

def popRef : Check Unit := do
  match ← pop with
  | .known found => if found.isRef then pure () else throw (.typeMismatch .funcRef found)
  | .unknown => pure ()

def popMany : Nat → List Operand → Check (List Operand)
  | 0, popped => pure popped
  | n + 1, popped => do popMany n ((← pop) :: popped)

def pushMany : List Operand → Check Unit
  | [] => pure ()
  | operand :: operands => do
    push operand
    pushMany operands

def requireTypes : List Operand → List ValueType → Check Unit
  | .known found :: operands, expected :: types => do
    requireSame expected found
    requireTypes operands types
  | .unknown :: operands, _ :: types => requireTypes operands types
  | _, _ => pure ()

def branch (depth : Nat) : Check Unit := do
  let target ← need ((← get).scopeAt depth)
  popTypes target.branchTypes
  pushTypes target.branchTypes

def requireTargets (arity : Nat) (carried : List Operand) : List Nat → Check Unit
  | [] => pure ()
  | depth :: depths => do
    let target ← need ((← get).scopeAt depth)
    if target.branchTypes.length ≠ arity then throw .invalidBranchArity
    requireTypes carried target.branchTypes
    requireTargets arity carried depths

def branchTable (depths : List Nat) (default : Nat) : Check Unit := do
  let _ ← popType .i32
  let arity := (← need ((← get).scopeAt default)).branchTypes.length
  let carried ← popMany arity []
  requireTargets arity carried (depths ++ [default])
  pushMany carried
  setUnreachable

def selected (type : ValueType) : Except Fault Operand :=
  if type.isRef then .error .invalidSelectOperand else .ok (.known type)

def selectOf (first second : Operand) : Except Fault Operand :=
  match first, second with
  | .known a, .known b => if b = a then selected a else .error (.typeMismatch a b)
  | .known type, .unknown | .unknown, .known type => selected type
  | .unknown, .unknown => .ok .unknown

def selectOperand : Check Operand := do
  let _ ← popType .i32
  let second ← pop
  let first ← pop
  need (selectOf first second)

def selectNumber : Check Unit := do push (← selectOperand)

def apply (operands results : List ValueType) : Check Unit := do
  popTypes operands
  pushTypes results

def memArg (ctx : BodyContext) (access : MemoryAccess) (arg : MemArg) : Check Unit := do
  if arg.align > access.naturalAlignment then throw .invalidAlignment
  requireMemory ctx arg.memory

end Check

open Wasm.Check in
def Instr.check (ctx : BodyContext) (labels : Nat) : Instr → Check Unit
  | .unreachable => setUnreachable
  | .nop => pure ()
  | .block type => do
    let type ← need (ctx.spaces.blockType type)
    openScope .block type.params type.results ⟨labels⟩ ⟨labels⟩ none
  | .loop type => do
    let type ← need (ctx.spaces.blockType type)
    openScope .loop type.params type.results ⟨labels + 1⟩ ⟨labels⟩ none
  | .ifThen type => do
    let type ← need (ctx.spaces.blockType type)
    let _ ← popType .i32
    openScope .ifThen type.params type.results ⟨labels⟩ ⟨labels⟩ (some ⟨labels + 1⟩)
  | .elseArm => do
    let _ ← switchToElse
  | .endScope => do
    let _ ← closeScope
  | .br depth => do
    branch depth
    setUnreachable
  | .brIf depth => do
    let _ ← popType .i32
    branch depth
  | .brTable depths default => branchTable depths default
  | .ret => do
    branch (← get).functionDepth
    setUnreachable
  | .call func => do
    let type ← need (ctx.spaces.funcType func)
    apply type.params type.results
  | .callIndirect type table => do
    let type ← need (ctx.spaces.typeAt type)
    requireSame .funcRef (← need (ctx.tableElement table))
    apply (type.params ++ [.i32]) type.results
  | .drop => do
    let _ ← pop
  | .select => selectNumber
  | .selectTyped type => apply [type, type, .i32] [type]
  | .localGet index => do pushType (← need (ctx.localAt index)).type
  | .localSet index => do apply [(← need (ctx.localAt index)).type] []
  | .localTee index => do
    let slot ← need (ctx.localAt index)
    apply [slot.type] [slot.type]
  | .globalGet index => do pushType (← need (ctx.spaces.global index)).content
  | .globalSet index => do
    let global ← need (ctx.spaces.global index)
    if !global.mutable then throw (.immutableGlobal index)
    apply [global.content] []
  | .tableGet table => do
    let element ← need (ctx.tableElement table)
    apply [.i32] [element]
  | .tableSet table => do
    let element ← need (ctx.tableElement table)
    apply [.i32, element] []
  | .load access arg => do
    memArg ctx access arg
    apply [.i32] [access.type]
  | .store access arg => do
    memArg ctx access arg
    apply [.i32, access.type] []
  | .memorySize memory => do
    requireMemory ctx memory
    pushType .i32
  | .memoryGrow memory => do
    requireMemory ctx memory
    apply [.i32] [.i32]
  | .i32Const _ => pushType .i32
  | .i64Const _ => pushType .i64
  | .f32Const _ => pushType .f32
  | .f64Const _ => pushType .f64
  | .unary op => apply [op.operandType] [op.resultType]
  | .binary op => apply [op.operandType, op.operandType] [op.resultType]
  | .refNull type => pushType type
  | .refIsNull => do
    popRef
    pushType .i32
  | .refFunc func => do
    let _ ← need (ctx.spaces.funcType func)
    pushType .funcRef
  | .memoryInit data memory => do
    requireMemory ctx memory
    need (ctx.requireData data)
    apply [.i32, .i32, .i32] []
  | .dataDrop data => need (ctx.requireData data)
  | .memoryCopy dst src => do
    requireMemory ctx dst
    requireMemory ctx src
    apply [.i32, .i32, .i32] []
  | .memoryFill memory => do
    requireMemory ctx memory
    apply [.i32, .i32, .i32] []
  | .tableInit elem table => do
    let segment ← need (ctx.elemType elem)
    requireSame (← need (ctx.tableElement table)) segment
    apply [.i32, .i32, .i32] []
  | .elemDrop elem => do
    let _ ← need (ctx.elemType elem)
  | .tableCopy dst src => do
    let expected ← need (ctx.tableElement dst)
    requireSame expected (← need (ctx.tableElement src))
    apply [.i32, .i32, .i32] []
  | .tableGrow table => do
    let element ← need (ctx.tableElement table)
    apply [element, .i32] [.i32]
  | .tableSize table => do
    let _ ← need (ctx.tableElement table)
    pushType .i32
  | .tableFill table => do
    let element ← need (ctx.tableElement table)
    apply [.i32, element, .i32] []

def Instr.dataIndex? : Instr → Option Nat
  | .memoryInit data _ | .dataDrop data => some data
  | _ => none

end Wasm
