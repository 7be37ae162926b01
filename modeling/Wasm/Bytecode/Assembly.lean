import Wasm.Fault
import Wasm.Bytecode.Op

/-! # Assembling the code of a function

Labels are bound in any order; `link` replaces each by its last position. -/

namespace Wasm

/-- A function under assembly. -/
structure Assembly where
  funcIndex : Nat
  type : FuncType
  locals : Array LocalSlot
  code : Array (Op Label)
  labels : Array (Option Nat)
deriving Inhabited

namespace Assembly

def empty : Assembly := ⟨0, .nullary, #[], #[], #[]⟩

def start (funcIndex : Nat) (type : FuncType) (locals : Array LocalSlot) : Assembly :=
  ⟨funcIndex, type, locals, #[], #[]⟩

def newLabel (asm : Assembly) : Label × Assembly :=
  (⟨asm.labels.size⟩, { asm with labels := asm.labels.push none })

def bind (asm : Assembly) (label : Label) : Assembly :=
  { asm with labels := asm.labels.setIfInBounds label.id (some asm.code.size) }

/-- Adds an operation. -/
def emit (asm : Assembly) (op : Op Label) : Assembly :=
  { asm with code := asm.code.push op }

def resolve (labels : Array (Option Nat)) (label : Label) : Except Fault Nat :=
  match labels[label.id]? with
  | some (some position) => .ok position
  | _ => .error (.internal "jump to unbound label")

def link (asm : Assembly) : Except Fault (Array (Op Nat)) := do
  return (← asm.code.toList.mapM (Op.mapTargets (resolve asm.labels))).toArray

def finish (asm : Assembly) (frameSlots : Nat) : Except Fault CompiledFunction := do
  return ⟨asm.funcIndex, asm.type, asm.locals, frameSlots, ← asm.link⟩

def afterFinish (asm : Assembly) : Assembly :=
  match asm.link with
  | .ok _ => { empty with funcIndex := asm.funcIndex }
  | .error _ => { asm with code := #[], labels := #[] }

end Assembly

end Wasm
