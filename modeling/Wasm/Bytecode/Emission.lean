import Wasm.Bytecode.Accessor
import Wasm.Bytecode.Assembly
import Wasm.Validation.Check

/-! # Emitting bytecode for checked instructions

`Instr.lower` adds the code of one instruction.  A branch saves what it carries to scratch slots, if
it has something to discard. -/

namespace Wasm

/-- A slot for the value `ordinal` places behind the first of its type among those carried. -/
structure Scratch where
  type : ValueType
  ordinal : Nat
  slot : Nat
deriving DecidableEq, Inhabited

/-- The code emitted so far. -/
structure Emission where
  asm : Assembly
  accessors : Accessors
  nextSlot : Nat
  scratch : List Scratch
deriving Inhabited

namespace Emission

/-- Adds an operation. -/
def emit (e : Emission) (op : Op Label) : Emission := { e with asm := e.asm.emit op }

/-- Adds an operation that is no jump. -/
def basic (e : Emission) (op : BasicOp) : Emission := e.emit (.basic op)

/-- Makes a label. -/
def newLabel (e : Emission) : Label × Emission :=
  let (label, asm) := e.asm.newLabel
  (label, { e with asm })

/-- Binds a label to the current position. -/
def bind (e : Emission) (label : Label) : Emission := { e with asm := e.asm.bind label }

/-- The scratch slot of a type and ordinal, made when it is new. -/
def scratchSlot (e : Emission) (type : ValueType) (ordinal : Nat) : Nat × Emission :=
  match e.scratch.find? fun s => s.type = type ∧ s.ordinal = ordinal with
  | some s => (s.slot, e)
  | none =>
    (e.nextSlot,
      { e with
        nextSlot := e.nextSlot + type.slotWidth
        scratch := ⟨type, ordinal, e.nextSlot⟩ :: e.scratch })

/-- The scratch slots for values of the given types behind others of types
    `seen`. -/
def scratchSlots (seen : List ValueType) : List ValueType → Emission → List Nat × Emission
  | [], e => ([], e)
  | type :: types, e =>
    let (slot, e) := e.scratchSlot type (seen.count type)
    let (slots, e) := scratchSlots (type :: seen) types e
    (slot :: slots, e)

/-- Whether a branch finds nothing to discard. -/
def isPlainBranch (stack : ControlStack) (depth : Nat) : Except Fault Bool := do
  return (← stack.excess depth).isEmpty

/-- Where a branch goes. -/
def branchLabel (stack : ControlStack) (depth : Nat) : Except Fault Label := do
  return (← stack.scopeAt depth).label

/-- Leaves only the values of the types `carried` above what stands below
    `excess` others. -/
def transfer (carried : List ValueType) (excess : Nat) (e : Emission) : Emission :=
  let (slots, e) := scratchSlots [] carried e
  let e := slots.reverse.foldl (fun e slot => e.basic (.localSet slot)) e
  let e := (List.replicate excess BasicOp.drop).foldl basic e
  slots.foldl (fun e slot => e.basic (.localGet slot)) e

/-- A branch, with the transfer of what it carries. -/
def emitBranch (stack : ControlStack) (depth : Nat) (e : Emission) : Except Fault Emission := do
  let scope ← stack.scopeAt depth
  let excess ← stack.excess depth
  let e := if excess.isEmpty then e else e.transfer scope.branchTypes excess.length
  return e.emit (.jump scope.label)

/-- A branch that is taken when the popped condition is not zero. -/
def emitBranchIf (stack : ControlStack) (depth : Nat) (e : Emission) : Except Fault Emission := do
  if ← isPlainBranch stack depth then
    return e.emit (.jumpIf (← branchLabel stack depth))
  else
    let (skip, e) := e.newLabel
    return (← (e.emit (.jumpUnless skip)).emitBranch stack depth).bind skip

/-- Labels for the targets of a branch table; `stubs` lists those that discard first. -/
def tableTargets (stack : ControlStack) (stubs : List (Nat × Label)) :
    List Nat → Emission → Except Fault (List Label × List (Nat × Label) × Emission)
  | [], e => .ok ([], stubs, e)
  | depth :: depths, e => do
    if ← isPlainBranch stack depth then
      let label ← branchLabel stack depth
      let (labels, stubs, e) ← tableTargets stack stubs depths e
      return (label :: labels, stubs, e)
    else
      match stubs.lookup depth with
      | some stub =>
        let (labels, stubs, e) ← tableTargets stack stubs depths e
        return (stub :: labels, stubs, e)
      | none =>
        let (stub, e) := e.newLabel
        let (labels, stubs, e) ← tableTargets stack ((depth, stub) :: stubs) depths e
        return (stub :: labels, stubs, e)

/-- The stubs of a branch table, each at its label. -/
def emitStubs (stack : ControlStack) : List (Nat × Label) → Emission → Except Fault Emission
  | [], e => .ok e
  | (depth, stub) :: stubs, e => do
    emitStubs stack stubs (← (e.bind stub).emitBranch stack depth)

/-- A branch table, followed by its stubs. -/
def emitBranchTable (stack : ControlStack) (depths : List Nat) (default : Nat) (e : Emission) :
    Except Fault Emission := do
  let (labels, stubs, e) ← tableTargets stack [] (depths ++ [default]) e
  match labels.getLast? with
  | some label => emitStubs stack stubs.reverse (e.emit (.jumpTable labels.dropLast.toArray label))
  | none => .error (.internal "br_table without default")

/-- An operation, left out where the operand that it is for has no type. -/
def basicIfKnown (stack : ControlStack) (operand : Check Operand) (op : BasicOp) (e : Emission) :
    Except Fault Emission :=
  match operand stack with
  | .ok (.known _) _ => .ok (e.basic op)
  | .ok .unknown _ => .ok e
  | .error fault _ => .error fault

/-- Replaces the bundle of several results by the results. -/
def unpackResults (results : List ValueType) (e : Emission) : Emission :=
  match Carrier.bundleFor? results with
  | some carrier => e.basic (.unpack carrier)
  | none => e

/-- The end of a function: its results are packed into one value. -/
def epilogue (results : List ValueType) (e : Emission) : Emission :=
  let e := match Carrier.bundleFor? results with
    | some carrier => e.basic (.pack carrier)
    | none => e
  e.basic .ret

/-- The accessor of a load or store that is not of the start of the first memory. -/
def accessor? (ctx : BodyContext) (kind : AccessKind) (arg : MemArg) (e : Emission) :
    Option (Nat × Emission) :=
  if (arg.memory = 0 ∧ arg.offset = 0) ∨ !ctx.useAccessors then
    none
  else
    let (id, accessors) := e.accessors.intern ⟨kind, arg.memory, arg.offset⟩
    some (id, { e with accessors })

end Emission

/-- A global as code refers to it. -/
def IndexSpaces.globalRef (spaces : IndexSpaces) (index : Nat) : GlobalRef :=
  if spaces.isImportedGlobal index then .imported index
  else .defined (index - spaces.importedGlobals)

/-- The operation of an instruction for which there is nothing to look up. -/
def Instr.directOp? (spaces : IndexSpaces) : Instr → Option BasicOp
  | .selectTyped _ => some .select
  | .globalGet index => some (.globalGet (spaces.globalRef index))
  | .globalSet index => some (.globalSet (spaces.globalRef index))
  | .tableGet table => some (.tableGet table)
  | .tableSet table => some (.tableSet table)
  | .memorySize memory => some (.memorySize memory)
  | .memoryGrow memory => some (.memoryGrow memory)
  | .i32Const value => some (.i32Const value)
  | .i64Const value => some (.i64Const value)
  | .f32Const bits => some (.f32Const bits)
  | .f64Const bits => some (.f64Const bits)
  | .unary op => some (.unary op)
  | .binary op => some (.binary op)
  | .refNull type => some (.refNull type)
  | .refIsNull => some .refIsNull
  | .refFunc func => some (.refFunc func)
  | .memoryInit data memory => some (.memoryInit data memory)
  | .dataDrop data => some (.dataDrop data)
  | .memoryCopy dst src => some (.memoryCopy dst src)
  | .memoryFill memory => some (.memoryFill memory)
  | .tableInit elem table => some (.tableInit elem table)
  | .elemDrop elem => some (.elemDrop elem)
  | .tableCopy dst src => some (.tableCopy dst src)
  | .tableGrow table => some (.tableGrow table)
  | .tableSize table => some (.tableSize table)
  | .tableFill table => some (.tableFill table)
  | _ => none

/-- The stack without the `i32` on top of it. -/
def ControlStack.popped (stack : ControlStack) : Except Fault ControlStack :=
  match Check.popType .i32 stack with
  | .ok _ stack => .ok stack
  | .error fault _ => .error fault

/-- The code of an instruction that can be reached and opens or closes no
    scope. -/
def Instr.lowerReachable (ctx : BodyContext) (stack : ControlStack) (e : Emission) :
    Instr → Except Fault Emission
  | .br depth => e.emitBranch stack depth
  | .brIf depth => do e.emitBranchIf (← stack.popped) depth
  | .brTable depths default => do e.emitBranchTable (← stack.popped) depths default
  | .ret => e.emitBranch stack stack.functionDepth
  | .call func => do
    let type ← ctx.spaces.funcType func
    return (e.basic (.call func)).unpackResults type.results
  | .callIndirect typeIndex table => do
    let type ← ctx.spaces.typeAt typeIndex
    return (e.basic (.callIndirect typeIndex table)).unpackResults type.results
  | .drop => e.basicIfKnown stack Check.pop .drop
  | .select => e.basicIfKnown stack Check.selectOperand .select
  | .localGet index => do return e.basic (.localGet (← ctx.localAt index).slot)
  | .localSet index => do return e.basic (.localSet (← ctx.localAt index).slot)
  | .localTee index => do return e.basic (.localTee (← ctx.localAt index).slot)
  | .load access arg =>
    match e.accessor? ctx (.load access) arg with
    | some (id, e) => .ok (e.basic (.loadVia id))
    | none => .ok (e.basic (.load access arg.memory arg.offset))
  | .store access arg =>
    match e.accessor? ctx (.store access) arg with
    | some (id, e) => .ok (e.basic (.storeVia id))
    | none => .ok (e.basic (.store access arg.memory arg.offset))
  | .unreachable => .ok (e.basic .unreachable)
  | instr =>
    match instr.directOp? ctx.spaces with
    | some op => .ok (e.basic op)
    | none => .ok e

/-- The code between the arms of an `if`: a jump from the first over the second. -/
def Scope.emitElse (scope : Scope) (e : Emission) : Emission :=
  if scope.dead then
    e
  else
    let e := if scope.unreachable then e else e.emit (.jump scope.endLabel)
    match scope.elseLabel with
    | some label => e.bind label
    | none => e

/-- The code at the end of a scope, where its labels stand that have no place yet. -/
def Scope.emitEnd (scope : Scope) (e : Emission) : Emission :=
  if scope.dead then
    e
  else
    let e := match scope.elseLabel with
      | some label => e.bind label
      | none => e
    let e := e.bind scope.endLabel
    if scope.kind = .function then e.epilogue scope.results else e

/-- The code of an instruction that the control stack `stack` was checked
    for. -/
def Instr.lower (ctx : BodyContext) (stack : ControlStack) (instr : Instr) (e : Emission) :
    Except Fault Emission :=
  match instr with
  | .block _ => .ok e.newLabel.2
  | .loop _ =>
    let (start, e) := e.newLabel.2.newLabel
    .ok (if stack.isEmitting then e.bind start else e)
  | .ifThen _ =>
    let (other, e) := e.newLabel.2.newLabel
    .ok (if stack.isEmitting then e.emit (.jumpUnless other) else e)
  | .elseArm => do return (← stack.innermost).emitElse e
  | .endScope => do return (← stack.innermost).emitEnd e
  | _ => if stack.isEmitting then instr.lowerReachable ctx stack e else .ok e

end Wasm
