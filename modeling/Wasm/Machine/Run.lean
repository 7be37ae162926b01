import Wasm.Machine.Frame

/-! # The machine

A frame or a host function that runs, and below it what waits for a result. -/

namespace Wasm

/-- What is being run. -/
inductive Control where
  | frame (frame : Frame)
  | host (type : FuncType) (program : HostProgram)

/-- What waits for the result of a call. -/
inductive Activation where
  | frame (frame : Frame)
  | host (type : FuncType) (arity room : Nat)
      (resume : Except InvokeError (List Value) → HostProgram)

/-- The state of a run. -/
structure Machine where
  control : Control
  callers : List Activation
  room : Nat

/-- How a run ends. -/
inductive Outcome where
  | results (values : List Value)
  | trap (trap : Trap)
  | outOfFuel

/-- What a step leads to. -/
inductive StepResult where
  | next (store : Store) (machine : Machine)
  | done (store : Store) (outcome : Outcome)

def packResults : List Value → List Value
  | [] => []
  | [value] => [value]
  | values => [.bundle values]

def unpackResults (arity : Nat) (yielded : List Value) : List Value :=
  if arity ≤ 1 then
    yielded
  else
    match yielded with
    | .bundle fields :: _ => fields
    | _ :: rest => rest
    | [] => []

def argumentError? (params : List ValueType) (args : List Value) : Option InvokeError :=
  if params.length ≠ args.length then
    some (.argumentCount params.length args.length)
  else
    ((args.zip params).zipIdx.find? fun ((arg, type), _) => arg.type? ≠ some type).map
      fun ((_, type), index) => .argumentType index type

namespace Machine

def unwind (s : Store) (t : Trap) : List Activation → StepResult
  | [] => .done s (.trap t)
  | .frame _ :: callers => unwind s t callers
  | .host type _ room resume :: callers =>
    .next s ⟨.host type (resume (.error (.trap t))), callers, room⟩

def deliver (s : Store) (yielded : List Value) (callers : List Activation) (room : Nat) :
    StepResult :=
  match callers with
  | [] => .done s (.results yielded)
  | .frame f :: callers =>
    .next s ⟨.frame { f with operands := yielded ++ f.operands }, callers, room⟩
  | .host type arity outer resume :: callers =>
    .next s ⟨.host type (resume (.ok (unpackResults arity yielded))), callers, outer⟩

def call (s : Store) (func : FuncAddr) (args : List Value) (callers : List Activation)
    (room : Nat) : StepResult :=
  match s.funcs[func.index]? with
  | some (.host type body) => .next s ⟨.host type (body args), callers, room⟩
  | some (.wasm _ home index) =>
    match s.instance? home with
    | none => unwind s .hostError callers
    | some inst =>
      match room with
      | 0 => unwind s .callStackExhausted callers
      | room + 1 =>
        match inst.module.functions[index]? with
        | some func => .next s ⟨.frame (.enter inst func args), callers, room⟩
        | none => unwind s .hostError callers
  | none => unwind s .hostError callers

def callFrom (s : Store) (f : Frame) (func : FuncAddr) (callers : List Activation) (room : Nat) :
    StepResult :=
  let arity := match s.funcs[func.index]? with
    | some entry => entry.type.params.length
    | none => 0
  let args := (f.operands.take arity).reverse
  call s func args (.frame { f with operands := f.operands.drop arity } :: callers) room

/-- One step of a host function. -/
def hostStep (s : Store) (type : FuncType) (program : HostProgram) (callers : List Activation)
    (room : Nat) : StepResult :=
  match program with
  | .answer values =>
    if values.map Value.type? = type.results.map some then
      deliver s (packResults values) callers room
    else
      unwind s .hostError callers
  | .trap t => unwind s t callers
  | .report event next =>
    .next { s with trace := s.trace.push event } ⟨.host type next, callers, room⟩
  | .inspect resume => .next s ⟨.host type (resume s.hostView), callers, room⟩
  | .change change next => .next (s.amend change) ⟨.host type next, callers, room⟩
  | .invoke func args resume =>
    match s.funcType? func with
    | none => unwind s .hostError callers
    | some callee =>
      match argumentError? callee.params args with
      | some e => .next s ⟨.host type (resume (.error e)), callers, room⟩
      | none =>
        call s func args (.host type callee.results.length room resume :: callers)
          (s.callDepth func)

def step (s : Store) : Machine → StepResult
  | ⟨.host type program, callers, room⟩ => hostStep s type program callers room
  | ⟨.frame f, callers, room⟩ =>
    match f.step s with
    | .ok (.next f) s => .next s ⟨.frame f, callers, room⟩
    | .ok (.call func f) s => callFrom s f func callers room
    | .ok (.leave f) s => deliver s f.result callers (room + 1)
    | .error t s => unwind s t callers

def run : Nat → Store → Machine → Outcome × Store
  | 0, s, _ => (.outOfFuel, s)
  | fuel + 1, s, m =>
    match step s m with
    | .next s m => run fuel s m
    | .done s outcome => (outcome, s)

end Machine

namespace Store

def runFunc (fuel : Nat) (s : Store) (func : FuncAddr) (args : List Value) (depth : Nat) :
    Outcome × Store :=
  let arity := match s.funcType? func with
    | some type => type.results.length
    | none => 0
  match Machine.call s func args [] depth with
  | .done s outcome => (outcome, s)
  | .next s m =>
    match Machine.run fuel s m with
    | (.results yielded, s) => (.results (unpackResults arity yielded), s)
    | other => other

def invoke (fuel : Nat) (s : Store) (func : FuncAddr) (args : List Value) : Outcome × Store :=
  s.runFunc fuel func args (s.callDepth func)

end Store

end Wasm
