import Wasm.Fault
import Wasm.Bytecode.Op

/-! # The control stack of the validator

After an unconditional transfer popping yields operands of unknown type. -/

namespace Wasm

/-- An operand on the validator's stack. -/
inductive Operand where
  | known (type : ValueType)
  | unknown
deriving DecidableEq, Inhabited

def Operand.type? : Operand → Option ValueType
  | known type => some type
  | unknown => none

/-- What opened a scope. -/
inductive ScopeKind where
  | function
  | block
  | loop
  | ifThen
  | elseArm
deriving DecidableEq, Inhabited

/-- An open block. -/
structure Scope where
  kind : ScopeKind
  params : List ValueType
  results : List ValueType
  label : Label
  endLabel : Label
  elseLabel : Option Label
  unreachable : Bool
  dead : Bool
  operands : List Operand
deriving DecidableEq, Inhabited

def Scope.branchTypes (scope : Scope) : List ValueType :=
  match scope.kind with
  | .loop => scope.params
  | _ => scope.results

/-- The open scopes with their operands. -/
structure ControlStack where
  base : List Operand
  scopes : List Scope
deriving DecidableEq, Inhabited

abbrev Check := EStateM Fault ControlStack

namespace ControlStack

def empty : ControlStack := ⟨[], []⟩

def operands (stack : ControlStack) : List Operand :=
  stack.scopes.flatMap Scope.operands ++ stack.base

def depth (stack : ControlStack) : Nat := stack.operands.length

def height (stack : ControlStack) (depth : Nat) : Nat :=
  ((stack.scopes.drop (depth + 1)).flatMap Scope.operands ++ stack.base).length

def isEmitting (stack : ControlStack) : Bool :=
  match stack.scopes with
  | scope :: _ => !scope.unreachable && !scope.dead
  | [] => false

def isUnreachable (stack : ControlStack) : Bool :=
  match stack.scopes with
  | scope :: _ => scope.unreachable
  | [] => false

def innermost (stack : ControlStack) : Except Fault Scope :=
  match stack.scopes with
  | scope :: _ => .ok scope
  | [] => .error .unbalancedControlStack

def scopeAt (stack : ControlStack) (depth : Nat) : Except Fault Scope :=
  match stack.scopes[depth]? with
  | some scope => .ok scope
  | none => .error (.invalidBranchDepth depth)

def functionDepth (stack : ControlStack) : Nat := stack.scopes.length - 1

def excess (stack : ControlStack) (depth : Nat) : Except Fault (List ValueType) := do
  let target ← stack.scopeAt depth
  let above := (stack.scopes.take (depth + 1)).flatMap Scope.operands
  return (above.drop target.branchTypes.length).reverse.filterMap Operand.type?

end ControlStack

namespace Check

def need {α : Type} : Except Fault α → Check α
  | .ok a => pure a
  | .error fault => throw fault

def push (operand : Operand) : Check Unit := modify fun stack =>
  match stack.scopes with
  | scope :: outer =>
    { stack with scopes := { scope with operands := operand :: scope.operands } :: outer }
  | [] => { stack with base := operand :: stack.base }

def pushType (type : ValueType) : Check Unit := push (.known type)

def pushTypes : List ValueType → Check Unit
  | [] => pure ()
  | type :: types => do
    pushType type
    pushTypes types

def pop : Check Operand := fun stack =>
  match stack.scopes with
  | [] => .error .unbalancedControlStack stack
  | scope :: outer =>
    match scope.operands with
    | [] => if scope.unreachable then .ok .unknown stack else .error .stackUnderflow stack
    | operand :: rest =>
      .ok operand { stack with scopes := { scope with operands := rest } :: outer }

def popType (expected : ValueType) : Check Operand := do
  match ← pop with
  | .known found =>
    if found = expected then pure (.known found) else throw (.typeMismatch expected found)
  | .unknown => pure .unknown

def popTopDown : List ValueType → Check Unit
  | [] => pure ()
  | type :: types => do
    let _ ← popType type
    popTopDown types

def popTypes (types : List ValueType) : Check Unit := popTopDown types.reverse

def openScope (kind : ScopeKind) (params results : List ValueType) (label endLabel : Label)
    (elseLabel : Option Label) : Check Unit := do
  let stack ← get
  let nested := !stack.scopes.isEmpty
  if nested then popTypes params
  modify fun inner =>
    { inner with
      scopes :=
        { kind, params, results, label, endLabel, elseLabel
          unreachable := false
          dead := nested && !stack.isEmitting
          operands := params.reverse.map .known } :: inner.scopes }

def popResults : Check Unit := do
  let scope ← need (← get).innermost
  popTypes scope.results
  let left := (← need (← get).innermost).operands.length
  if left ≠ 0 then
    throw (.stackHeightMismatch scope.results.length (left + scope.results.length))

def switchToElse : Check Scope := do
  let scope ← need (← get).innermost
  if scope.kind ≠ .ifThen then throw .elseWithoutIf
  popResults
  let before ← need (← get).innermost
  modify fun stack =>
    { stack with
      scopes :=
        { before with
          kind := .elseArm
          elseLabel := none
          unreachable := false
          operands := before.params.reverse.map .known } :: stack.scopes.tail }
  return before

def closeScope : Check Scope := do
  let scope ← need (← get).innermost
  if scope.kind = .ifThen ∧ scope.params ≠ scope.results then
    throw .ifWithoutElseTypeMismatch
  popResults
  let closed ← need (← get).innermost
  modify fun stack => { stack with scopes := stack.scopes.tail }
  pushTypes closed.results
  return closed

def setUnreachable : Check Unit := do
  let scope ← need (← get).innermost
  modify fun stack =>
    { stack with
      scopes := { scope with unreachable := true, operands := [] } :: stack.scopes.tail }

end Check

end Wasm
