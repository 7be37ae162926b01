import Wasm.Instruction

/-! # Structured code

Reading brackets is inverse to writing them (`Arm.read_eq_some`). -/

namespace Wasm

open List

/-- Whether an instruction is no bracket. -/
def Instr.isPlain : Instr → Bool
  | .block _ | .loop _ | .ifThen _ | .elseArm | .endScope => false
  | _ => true

/-- A sequence of instructions with nested scopes. -/
inductive Code where
  | done
  | plain (instr : Instr) (isPlain : instr.isPlain = true) (next : Code)
  | block (type : BlockType) (body next : Code)
  | loop (type : BlockType) (body next : Code)
  | ifThen (type : BlockType) (yes next : Code)
  | ifElse (type : BlockType) (yes no next : Code)

namespace Code

/-- The instructions of code, with its brackets. -/
def instrs : Code → List Instr
  | done => []
  | plain instr _ next => instr :: next.instrs
  | block type body next => .block type :: (body.instrs ++ .endScope :: next.instrs)
  | loop type body next => .loop type :: (body.instrs ++ .endScope :: next.instrs)
  | ifThen type yes next => .ifThen type :: (yes.instrs ++ .endScope :: next.instrs)
  | ifElse type yes no next =>
    .ifThen type :: (yes.instrs ++ .elseArm :: (no.instrs ++ .endScope :: next.instrs))

def append : Code → Code → Code
  | done, rest => rest
  | plain instr h next, rest => plain instr h (next.append rest)
  | block type body next, rest => block type body (next.append rest)
  | loop type body next, rest => loop type body (next.append rest)
  | ifThen type yes next, rest => ifThen type yes (next.append rest)
  | ifElse type yes no next, rest => ifElse type yes no (next.append rest)

@[simp] theorem append_done (c : Code) : c.append done = c := by
  induction c with
  | done => rfl
  | plain i h next ih | block t body next _ ih | loop t body next _ ih | ifThen t yes next _ ih
  | ifElse t yes no next _ _ ih => rw [append, ih]

end Code

/-- The end of a scope, maybe with a second arm. -/
structure Arm where
  code : Code
  other : Option Code

namespace Arm

def written : List Arm → List Instr
  | [] => []
  | ⟨code, none⟩ :: outer => code.instrs ++ .endScope :: written outer
  | ⟨code, some no⟩ :: outer =>
    code.instrs ++ .elseArm :: (no.instrs ++ .endScope :: written outer)

/-- A bracket in front of the ends of scopes. -/
def bracket (arms : List Arm) (instr : Instr) : Option (List Arm) :=
  match instr, arms with
  | .endScope, _ => some (⟨.done, none⟩ :: arms)
  | .elseArm, ⟨no, none⟩ :: outer => some (⟨.done, some no⟩ :: outer)
  | .block type, ⟨body, none⟩ :: ⟨next, other⟩ :: outer =>
    some (⟨.block type body next, other⟩ :: outer)
  | .loop type, ⟨body, none⟩ :: ⟨next, other⟩ :: outer =>
    some (⟨.loop type body next, other⟩ :: outer)
  | .ifThen type, ⟨yes, none⟩ :: ⟨next, other⟩ :: outer =>
    some (⟨.ifThen type yes next, other⟩ :: outer)
  | .ifThen type, ⟨yes, some no⟩ :: ⟨next, other⟩ :: outer =>
    some (⟨.ifElse type yes no next, other⟩ :: outer)
  | _, _ => none

/-- One more instruction in front of the ends of scopes. -/
def before (arms : List Arm) (instr : Instr) : Option (List Arm) :=
  if h : instr.isPlain = true then
    match arms with
    | ⟨next, other⟩ :: outer => some (⟨.plain instr h next, other⟩ :: outer)
    | [] => none
  else
    bracket arms instr

/-- The ends of scopes that instructions are. -/
def read : List Instr → Option (List Arm)
  | [] => some []
  | instr :: instrs => (read instrs).bind fun arms => before arms instr

variable {arms : List Arm} {i : Instr} {l : List Instr}

theorem read_cons (h : read l = some arms) : read (i :: l) = before arms i := by
  rw [read, h, Option.bind_some]

theorem before_plain (h : i.isPlain = true) (next : Code) (other : Option Code) (outer : List Arm) :
    before (⟨next, other⟩ :: outer) i = some (⟨.plain i h next, other⟩ :: outer) :=
  dif_pos h

theorem read_instrs_append (c : Code) {next : Code} {other : Option Code} {outer : List Arm}
    (h : read l = some (⟨next, other⟩ :: outer)) :
    read (c.instrs ++ l) = some (⟨c.append next, other⟩ :: outer) := by
  induction c generalizing l next other outer with
  | done => exact h
  | plain i hi _ ih => rw [Code.instrs, cons_append, read_cons (ih h), before_plain hi]; rfl
  | block t body _ ihb ih | loop t body _ ihb ih =>
    have hb := ihb (l := .endScope :: (_ ++ l)) (read_cons (ih h))
    rw [Code.instrs, cons_append, append_assoc, cons_append, read_cons hb, Code.append_done]
    rfl
  | ifThen t yes _ ihy ih =>
    have hy := ihy (l := .endScope :: (_ ++ l)) (read_cons (ih h))
    rw [Code.instrs, cons_append, append_assoc, cons_append, read_cons hy, Code.append_done]
    rfl
  | ifElse t yes no _ ihy ihno ih =>
    have hno := ihno (l := .endScope :: (_ ++ l)) (read_cons (ih h))
    rw [Code.append_done] at hno
    have hy := ihy (l := .elseArm :: (_ ++ .endScope :: (_ ++ l))) (read_cons hno)
    rw [Code.instrs, cons_append, append_assoc, cons_append, append_assoc,
      cons_append, read_cons hy, Code.append_done]
    rfl

theorem read_written (arms : List Arm) : read (written arms) = some arms := by
  induction arms with
  | nil => rfl
  | cons arm outer ih =>
    obtain ⟨code, other⟩ := arm
    cases other with
    | none =>
      rw [written, read_instrs_append code (read_cons ih), Code.append_done]
    | some no =>
      have hno := read_instrs_append no (l := .endScope :: written outer) (read_cons ih)
      rw [Code.append_done] at hno
      rw [written, read_instrs_append code (read_cons hno), Code.append_done]

theorem written_bracket {arms' : List Arm} (h : bracket arms i = some arms') :
    written arms' = i :: written arms := by
  unfold bracket at h
  split at h
  · cases h; rfl
  · cases h; rfl
  all_goals cases h
  all_goals
    rename_i other _
    cases other <;> simp only [written, Code.instrs, cons_append, append_assoc]

theorem written_before {arms' : List Arm} (h : before arms i = some arms') :
    written arms' = i :: written arms := by
  unfold before at h
  split at h
  · cases arms with
    | nil => cases h
    | cons arm outer =>
      obtain ⟨next, other⟩ := arm
      cases h
      cases other <;> rfl
  · exact written_bracket h

theorem read_eq_some : read l = some arms ↔ l = written arms := by
  constructor
  · intro h
    induction l generalizing arms with
    | nil => cases h; rfl
    | cons i l ih =>
      rw [read, Option.bind_eq_some_iff] at h
      obtain ⟨arms', hl, hi⟩ := h
      rw [written_before hi, ← ih hl]
  · rintro rfl
    exact read_written arms

end Arm

/-- The body up to the `end` that closes it. -/
def Code.ofInstrs? (instrs : List Instr) : Option Code :=
  match Arm.read instrs with
  | some [⟨code, none⟩] => some code
  | _ => none

theorem Code.ofInstrs?_eq_some {l : List Instr} {c : Code} :
    ofInstrs? l = some c ↔ l = c.instrs ++ [.endScope] := by
  have hw : c.instrs ++ [Instr.endScope] = Arm.written [⟨c, none⟩] := rfl
  rw [hw, ← Arm.read_eq_some]
  unfold ofInstrs?
  constructor
  · intro h
    split at h
    · next c' hc => cases h; exact hc
    · cases h
  · intro h
    rw [h]

/-! ## Bodies -/

def LocalGroup.types (groups : List (Nat × ValueType)) : List ValueType :=
  groups.flatMap fun group => List.replicate group.1 group.2

/-- A function body: groups of locals and code. -/
structure Body where
  groups : List (Nat × ValueType)
  code : Code

def Body.localTypes (body : Body) (params : List ValueType) : List ValueType :=
  params ++ LocalGroup.types body.groups

end Wasm
