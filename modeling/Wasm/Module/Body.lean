import Wasm.Binary.Opcode
import Wasm.Bytecode.Emission

/-! # Function bodies

Groups of locals, then instructions up to the `end` that closes the function, checked and
lowered in one pass. -/

namespace Wasm

def maxLocals : Nat := 50000

def addLocals (type : ValueType) : Nat → Array LocalSlot × Nat → Array LocalSlot × Nat
  | 0, state => state
  | count + 1, (locals, slot) =>
    addLocals type count (locals.push ⟨type, slot⟩, slot + type.slotWidth)

def paramLocals (params : List ValueType) : Array LocalSlot × Nat :=
  params.foldl (fun state type => addLocals type 1 state) (#[], 0)

def Decode.localGroup (state : Array LocalSlot × Nat) : Decode (Array LocalSlot × Nat) := do
  let at_ ← position
  let count ← u32
  let type ← valueType
  if state.1.size + count ≤ maxLocals then
    pure (addLocals type count state)
  else
    fail .tooManyLocals at_

/-- What is known in the middle of a body. -/
structure BodyState where
  stack : ControlStack
  emission : Emission
  dataRefs : Array (Nat × Nat)
deriving Inhabited

namespace BodyState

def start (funcIndex : Nat) (type : FuncType) (locals : Array LocalSlot) (nextSlot : Nat)
    (accessors : Accessors) (dataRefs : Array (Nat × Nat)) : BodyState :=
  let (label, asm) := (Assembly.start funcIndex type locals).newLabel
  { stack :=
      ⟨[], [⟨.function, [], type.results, label, label, none, false, false, []⟩]⟩
    emission := { asm, accessors, nextSlot, scratch := [] }
    dataRefs }

def step (ctx : BodyContext) (at_ : Nat) (instr : Instr) (s : BodyState) :
    Except Fault BodyState :=
  match instr.check ctx s.emission.asm.labels.size s.stack with
  | .error fault _ => .error fault
  | .ok () stack => do
    let emission ← instr.lower ctx s.stack s.emission
    let dataRefs := match ctx.dataCount, instr.dataIndex? with
      | none, some data => s.dataRefs.push (data, at_)
      | _, _ => s.dataRefs
    return { stack, emission, dataRefs }

end BodyState

namespace Decode

def instructions (ctx : BodyContext) : Nat → BodyState → Decode BodyState
  | 0, _ => do throw (← get).endError
  | fuel + 1, s => do
    let at_ ← position
    let instr ← instr
    let s ← charge at_ (s.step ctx at_ instr)
    if s.stack.scopes.isEmpty then pure s else instructions ctx fuel s

def body (ctx : BodyContext) (funcIndex : Nat) (accessors : Accessors)
    (dataRefs : Array (Nat × Nat)) :
    Decode (CompiledFunction × Accessors × Array (Nat × Nat)) := do
  let type ← charge (← position) (ctx.spaces.funcType funcIndex)
  let (locals, nextSlot) ← fold localGroup (← u32) (paramLocals type.params)
  let s := BodyState.start funcIndex type locals nextSlot accessors dataRefs
  let s ← instructions { ctx with locals } (← get).remaining s
  unless ← isEmpty do fail .trailingBytes (← position)
  let func ← charge 0 (s.emission.asm.finish s.emission.nextSlot)
  return (func, s.emission.accessors, s.dataRefs)

end Decode

end Wasm
