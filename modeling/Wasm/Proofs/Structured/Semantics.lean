import Wasm.Bytecode.Emission
import Wasm.Machine.Run
import Wasm.Proofs.Code

/-! # What structured code means

The meaning of bodies without bytecode: a branch looks for its target outwards and keeps what it
carries. -/

namespace Wasm.Structured

/-- What code works on. -/
structure State where
  inst : Instance
  locals : Array Value
  operands : List Value

/-- How code ends other than at its end. -/
inductive Exit where
  | branch (depth : Nat) (state : State)
  | ret (state : State)
  | trap (trap : Trap)
  | outOfFuel

/-- A run that changes the store. -/
abbrev Run := EStateM Exit Store

/-- A change of the store that may trap, as a run. -/
def lift {α : Type} (x : StoreM α) : Run α := fun s =>
  match x s with
  | .ok a s => .ok a s
  | .error t s => .error (.trap t) s

namespace State

/-- The state with other operands. -/
def holding (st : State) (operands : List Value) : State := { st with operands }

/-- A frame with the operands of the state. -/
def frame (st : State) : Frame := ⟨st.inst, default, 0, #[], st.operands⟩

/-- A function on frames, done to the operands. -/
def onFrame (st : State) (x : Frame → StoreM Frame) : StoreM State :=
  return st.holding (← x st.frame).operands

def blockType (st : State) (type : BlockType) : FuncType :=
  match st.inst.module.spaces.blockType type with
  | .ok type => type
  | .error _ => .nullary

end State

/-! ## Instructions without control -/

open Wasm.Frame in
/-- What an instruction does that only goes on. -/
def perform (st : State) : Instr → StoreM State
  | .drop => return st.holding st.operands.tail
  | .select | .selectTyped _ =>
    let (condition, rest) := popI32 st.operands
    let (second, rest) := pop rest
    let (first, rest) := pop rest
    return st.holding ((if condition ≠ 0 then first else second) :: rest)
  | .localGet index => return st.holding (st.locals[index]?.getD (.i32 0) :: st.operands)
  | .localSet index =>
    let (value, rest) := pop st.operands
    return { st with locals := st.locals.setIfInBounds index value, operands := rest }
  | .localTee index =>
    let (value, _) := pop st.operands
    return { st with locals := st.locals.setIfInBounds index value }
  | .globalGet index => do
    let value ← st.frame.globalGet (st.inst.module.spaces.globalRef index)
    return st.holding (value :: st.operands)
  | .globalSet index => st.onFrame (·.globalSet (st.inst.module.spaces.globalRef index))
  | .tableGet table => st.onFrame (·.tableGet table)
  | .tableSet table => st.onFrame (·.tableSet table)
  | .load access arg => st.onFrame (·.load access arg.memory arg.offset)
  | .store access arg => st.onFrame (·.store access arg.memory arg.offset)
  | .memorySize memory => do
    let m ← st.frame.memory memory
    return st.holding (.i32 (BitVec.ofNat 32 m.pageCount) :: st.operands)
  | .memoryGrow memory => st.onFrame (·.memoryGrow memory)
  | .i32Const value => return st.holding (.i32 value :: st.operands)
  | .i64Const value => return st.holding (.i64 value :: st.operands)
  | .f32Const bits => return st.holding (.f32 bits :: st.operands)
  | .f64Const bits => return st.holding (.f64 bits :: st.operands)
  | .unary op => do
    let (value, rest) := pop st.operands
    return st.holding ((← Frame.lift (op.apply value)) :: rest)
  | .binary op => do
    let (rhs, rest) := pop st.operands
    let (lhs, rest) := pop rest
    return st.holding ((← Frame.lift (op.apply lhs rhs)) :: rest)
  | .refNull type => return st.holding (.zero type :: st.operands)
  | .refIsNull =>
    let (value, rest) := pop st.operands
    return st.holding (.ofBool value.isNull :: rest)
  | .refFunc func => return st.holding (.funcRef st.inst.funcs[func]? :: st.operands)
  | .memoryInit data memory => st.onFrame (·.memoryInit data memory)
  | .dataDrop data => do
    match st.inst.data[data]? with
    | some addr => modify (·.dropData addr)
    | none => pure ()
    return st
  | .memoryCopy dst src => st.onFrame (·.memoryCopy dst src)
  | .memoryFill memory => st.onFrame (·.memoryFill memory)
  | .tableInit elem table => st.onFrame (·.tableInit elem table)
  | .elemDrop elem => do
    match st.inst.elems[elem]? with
    | some addr => modify (·.dropElem addr)
    | none => pure ()
    return st
  | .tableCopy dst src => st.onFrame (·.tableCopy dst src)
  | .tableGrow table => st.onFrame (·.tableGrow table)
  | .tableSize table => do
    let t ← st.frame.table table
    return st.holding (.i32 (BitVec.ofNat 32 t.table.size) :: st.operands)
  | .tableFill table => st.onFrame (·.tableFill table)
  | .unreachable | .nop | .block _ | .loop _ | .ifThen _ | .elseArm | .endScope | .br _ | .brIf _
  | .brTable _ _ | .ret | .call _ | .callIndirect _ _ => return st

/-! ## Code -/

/-- Calls a function with operands as arguments. -/
def invoke (call : FuncAddr → List Value → Run (List Value)) (func : FuncAddr) (st : State) :
    Run State := do
  let arity := match (← get).funcType? func with
    | some type => type.params.length
    | none => 0
  let results ← call func (st.operands.take arity).reverse
  return st.holding (results.reverse ++ st.operands.drop arity)

open Wasm.Frame in
/-- What an instruction without scope does. -/
def exec (call : FuncAddr → List Value → Run (List Value)) (st : State) : Instr → Run State
  | .unreachable => throw (.trap .unreachable)
  | .br depth => throw (.branch depth st)
  | .brIf depth => do
    let (condition, rest) := popI32 st.operands
    if condition ≠ 0 then throw (.branch depth (st.holding rest)) else pure (st.holding rest)
  | .brTable depths default => do
    let (index, rest) := popNat st.operands
    throw (.branch (depths[index]?.getD default) (st.holding rest))
  | .ret => throw (.ret st)
  | .call func =>
    match st.inst.funcs[func]? with
    | some addr => invoke call addr st
    | none => throw (.trap .hostError)
  | .callIndirect type table => do
    let (index, rest) := popNat st.operands
    let addr ← lift (st.frame.indirect type table index)
    invoke call addr (st.holding rest)
  | instr => lift (perform st instr)

/-- Runs a scope above `below`.  A branch to it goes on behind it with `arity` values. -/
def inScope (arity : Nat) (below : List Value) (x : Run State) : Run State := fun s =>
  match x s with
  | .ok st s => .ok (st.holding (st.operands ++ below)) s
  | .error (.branch 0 st) s => .ok (st.holding (st.operands.take arity ++ below)) s
  | .error (.branch (depth + 1) st) s => .error (.branch depth st) s
  | .error exit s => .error exit s

/-- Runs a loop.  A branch to it starts it again with `arity` values. -/
def iterate (arity : Nat) (body : State → Run State) : Nat → State → Run State
  | 0, _ => throw .outOfFuel
  | fuel + 1, st => fun s =>
    match body st s with
    | .error (.branch 0 st) s => iterate arity body fuel (st.holding (st.operands.take arity)) s
    | r => r

end Structured

open Structured in
/-- Runs code, each loop at most `fuel` times. -/
def Code.run (call : FuncAddr → List Value → Run (List Value)) (fuel : Nat) :
    Code → State → Run State
  | .done, st => pure st
  | .plain instr _ next, st => do run call fuel next (← exec call st instr)
  | .block type body next, st => do
    let type := st.blockType type
    let n := type.params.length
    let st ← inScope type.results.length (st.operands.drop n)
      (run call fuel body (st.holding (st.operands.take n)))
    run call fuel next st
  | .loop type body next, st => do
    let type := st.blockType type
    let n := type.params.length
    let st ← inScope n (st.operands.drop n)
      (iterate n (run call fuel body) fuel (st.holding (st.operands.take n)))
    run call fuel next st
  | .ifThen type yes next, st => do
    let type := st.blockType type
    let n := type.params.length
    let (condition, rest) := Frame.popI32 st.operands
    let st ← (if condition ≠ 0 then
        inScope type.results.length (rest.drop n) (run call fuel yes (st.holding (rest.take n)))
      else pure (st.holding rest))
    run call fuel next st
  | .ifElse type yes no next, st => do
    let type := st.blockType type
    let n := type.params.length
    let (condition, rest) := Frame.popI32 st.operands
    let st ← inScope type.results.length (rest.drop n)
      (if condition ≠ 0 then run call fuel yes (st.holding (rest.take n))
       else run call fuel no (st.holding (rest.take n)))
    run call fuel next st

namespace Structured

/-! ## Functions -/

/-- The start of a function: arguments and zeros. -/
def enter (inst : Instance) (body : Body) (args : List Value) : State :=
  ⟨inst, (args ++ (LocalGroup.types body.groups).map Value.zero).toArray, []⟩

/-- Runs the code of a function to `arity` results. -/
def returning (arity : Nat) (x : Run State) : Run (List Value) := fun s =>
  match x s with
  | .ok st s | .error (.branch _ st) s | .error (.ret st) s =>
    .ok (st.operands.take arity).reverse s
  | .error (.trap t) s => .error (.trap t) s
  | .error .outOfFuel s => .error .outOfFuel s

/-- Runs a function of the host. -/
def host (call : FuncAddr → List Value → Run (List Value)) (type : FuncType) :
    HostProgram → Run (List Value)
  | .answer values =>
    if values.map Value.type? = type.results.map some then pure values
    else throw (.trap .hostError)
  | .trap t => throw (.trap t)
  | .report event next => do
    modify fun s => { s with trace := s.trace.push event }
    host call type next
  | .inspect resume => fun s => host call type (resume s.hostView) s
  | .change change next => do
    modify fun s => s.amend change
    host call type next
  | .invoke func args resume => fun s =>
    match s.funcType? func with
    | none => .error (.trap .hostError) s
    | some callee =>
      match argumentError? callee.params args with
      | some e => host call type (resume (.error e)) s
      | none =>
        match call func args s with
        | .ok values s => host call type (resume (.ok values)) s
        | .error (.trap t) s => host call type (resume (.error (.trap t))) s
        | .error exit s => .error exit s

/-- Runs a function in at most `room` frames, `fuel` calls deep. -/
def call (bodies : InstanceAddr → List Body) :
    Nat → Nat → FuncAddr → List Value → Run (List Value)
  | 0, _, _, _ => throw .outOfFuel
  | fuel + 1, room, func, args => do
    match (← get).funcs[func.index]? with
    | none => throw (.trap .hostError)
    | some (.host type program) =>
      let back := fun func args => do call bodies fuel ((← get).callDepth func) func args
      host back type (program args)
    | some (.wasm type home index) =>
      match (← get).instance? home with
      | none => throw (.trap .hostError)
      | some inst =>
        match room with
        | 0 => throw (.trap .callStackExhausted)
        | room + 1 =>
          match (bodies home)[index]? with
          | none => throw (.trap .hostError)
          | some body =>
            returning type.results.length
              (body.code.run (call bodies fuel room) (fuel + 1) (enter inst body args))

end Structured

end Wasm
