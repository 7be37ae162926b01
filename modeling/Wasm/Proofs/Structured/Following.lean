import Wasm.Proofs.Machine.Changes
import Wasm.Proofs.Structured.Mirror

/-! # How the machine follows structured code

`Follows` relates how structured code ends to where the machine gets. -/

namespace Wasm

open Assembly (place)
open Machine (Leads LeadsOn Lasts)

variable {s : Store} {st : State} {inner : List Value}

namespace Structured

/-! ## Objects of the store -/

variable {α : Type} {s' : Store} {body : State → Run State}

theorem lift_of_ok {x : StoreM α} {a : α} (h : x s = .ok a s') : lift x s = .ok a s' := by
  rw [lift, h]

theorem lift_of_error {x : StoreM α} {t : Trap} (h : x s = .error t s') :
    lift x s = .error (.trap t) s' := by
  rw [lift, h]

theorem keeps_lift {x : StoreM α} (h : Keeps Store.Agrees x) : Keeps Store.Agrees (lift x) := by
  intro s
  cases hx : x s with
  | ok a s' => rw [lift_of_ok hx]; exact h.ok hx
  | error t s' => rw [lift_of_error hx]; exact h.error hx

theorem keeps_onFrame (op : BasicOp) {x : Frame → StoreM Frame} (st : State)
    (h : ∀ f, op.exec f = x f >>= fun f' => pure (.next f')) : Keeps Store.Agrees (st.onFrame x) :=
  (BasicOp.keeps (h _)).bind fun _ => .pure _

theorem keeps_perform (st : State) (i : Instr) : Keeps Store.Agrees (perform st i) := by
  cases i with
  | globalGet index => exact (st.frame.inspects_globalGet _).keeps.bind fun _ => .pure _
  | globalSet index => exact keeps_onFrame (.globalSet _) st fun _ => rfl
  | tableGet table => exact keeps_onFrame (.tableGet table) st fun _ => rfl
  | tableSet table => exact keeps_onFrame (.tableSet table) st fun _ => rfl
  | load access arg => exact keeps_onFrame (.load access arg.memory arg.offset) st fun _ => rfl
  | store access arg => exact keeps_onFrame (.store access arg.memory arg.offset) st fun _ => rfl
  | memorySize memory => exact (st.frame.inspects_memory _).keeps.bind fun _ => .pure _
  | memoryGrow memory => exact keeps_onFrame (.memoryGrow memory) st fun _ => rfl
  | unary op | binary op => exact (Keeps.lift _).bind fun _ => .pure _
  | memoryInit data memory => exact keeps_onFrame (.memoryInit data memory) st fun _ => rfl
  | dataDrop data =>
    rw [perform]
    split
    · exact (Keeps.changing fun s => s.agrees_dropData _).bind fun _ => .pure _
    · exact .pure _
  | memoryCopy dst src => exact keeps_onFrame (.memoryCopy dst src) st fun _ => rfl
  | memoryFill memory => exact keeps_onFrame (.memoryFill memory) st fun _ => rfl
  | tableInit elem table => exact keeps_onFrame (.tableInit elem table) st fun _ => rfl
  | elemDrop elem =>
    rw [perform]
    split
    · exact (Keeps.changing fun s => s.agrees_dropElem _).bind fun _ => .pure _
    · exact .pure _
  | tableCopy dst src => exact keeps_onFrame (.tableCopy dst src) st fun _ => rfl
  | tableGrow table => exact keeps_onFrame (.tableGrow table) st fun _ => rfl
  | tableSize table => exact (st.frame.inspects_table _).keeps.bind fun _ => .pure _
  | tableFill table => exact keeps_onFrame (.tableFill table) st fun _ => rfl
  | _ => exact .pure _

section Keeping

variable {call : FuncAddr → List Value → Run (List Value)}
  (hc : ∀ func args, Keeps Store.Agrees (call func args))

include hc

theorem keeps_invoke (func : FuncAddr) (st : State) : Keeps Store.Agrees (invoke call func st) :=
  Keeps.get.bind fun _ => (hc _ _).bind fun _ => .pure _

theorem keeps_exec (st : State) (i : Instr) : Keeps Store.Agrees (exec call st i) := by
  have hp := keeps_lift (keeps_perform st i)
  cases i with
  | unreachable | br depth | brTable depths default | ret => exact .throw _
  | brIf depth => exact .ite (.throw _) (.pure _)
  | call func =>
    rw [exec]
    split
    · exact keeps_invoke hc _ _
    · exact .throw _
  | callIndirect type table =>
    exact (keeps_lift (st.frame.inspects_indirect _ _ _).keeps).bind fun _ => keeps_invoke hc _ _
  | _ => exact hp

end Keeping

theorem keeps_inScope {x : Run State} (h : Keeps Store.Agrees x) (arity : Nat) (rest : List Value) :
    Keeps Store.Agrees (inScope arity rest x) := by
  intro s
  have hs := h s
  unfold inScope
  cases hx : x s with
  | ok st s' => rw [hx] at hs; exact hs
  | error exit s' =>
    rw [hx] at hs
    cases exit with
    | branch depth st =>
      cases depth with
      | zero | succ depth => exact hs
    | ret st | trap t | outOfFuel => exact hs

theorem iterate_succ (body : State → Run State) (arity fuel : Nat) (st : State) (s : Store) :
    (∃ st' s', body st s = .error (.branch 0 st') s' ∧ iterate arity body (fuel + 1) st s =
        iterate arity body fuel (st'.holding (st'.operands.take arity)) s') ∨
      ((∀ st' s', body st s ≠ .error (.branch 0 st') s') ∧
        iterate arity body (fuel + 1) st s = body st s) := by
  rw [iterate]
  dsimp only
  split
  · next st' s' h => exact .inl ⟨st', s', h, rfl⟩
  · next h => exact .inr ⟨h, rfl⟩

theorem keeps_iterate (h : ∀ st, Keeps Store.Agrees (body st)) (arity fuel : Nat) (st : State) :
    Keeps Store.Agrees (iterate arity body fuel st) := by
  induction fuel generalizing st with
  | zero => exact .throw _
  | succ fuel ih =>
    intro s
    rcases iterate_succ body arity fuel st s with ⟨st', s', hx, heq⟩ | ⟨-, heq⟩
    · have h1 := (h st).error hx
      have h2 := ih (st'.holding (st'.operands.take arity)) s'
      rw [heq]
      split at h2
      · exact h1.trans h2
      · exact h1.trans h2
    · rw [heq]
      exact h st s

theorem iterate_ne_branch (arity fuel : Nat) (st st' : State) (s s' : Store) :
    iterate arity body fuel st s ≠ .error (.branch 0 st') s' := by
  induction fuel generalizing st s with
  | zero => exact fun h => nomatch h
  | succ fuel ih =>
    rcases iterate_succ body arity fuel st s with ⟨st1, s1, -, heq⟩ | ⟨hne, heq⟩
    · rw [heq]
      exact ih _ _
    · rw [heq]
      exact hne st' s'

end Structured

open Structured in
theorem Code.keeps_run {call : FuncAddr → List Value → Run (List Value)}
    (hc : ∀ func args, Keeps Store.Agrees (call func args)) (fuel : Nat) (c : Code) (st : State) :
    Keeps Store.Agrees (c.run call fuel st) := by
  induction c generalizing st with
  | done => exact .pure _
  | plain i hi next ih => exact (keeps_exec hc st i).bind fun st => ih st
  | block type body next ihb ih =>
    exact (keeps_inScope (ihb _) _ _).bind fun st => ih st
  | loop type body next ihb ih =>
    exact (keeps_inScope (keeps_iterate ihb _ _ _) _ _).bind fun st => ih st
  | ifThen type yes next ihy ih =>
    exact (Keeps.ite (keeps_inScope (ihy _) _ _) (.pure _)).bind fun st => ih st
  | ifElse type yes no next ihy ihn ih =>
    exact (keeps_inScope (.ite (ihy _) (ihn _)) _ _).bind fun st => ih st

def Scope.exit (sc : Scope) : Label × Nat := (sc.label, sc.branchTypes.length)

namespace Structured

/-! ## Following -/

/-- What surrounds the code of a function that runs. -/
structure Surroundings where
  site : Site
  callers : List Activation
  room : Nat
  steps : Nat

abbrev Surroundings.state (w : Surroundings) (s : Store) (f : Frame) : StepResult :=
  .next s ⟨.frame f, w.callers, w.room⟩

def Arrives (w : Surroundings) (targets : List (Label × Nat)) (belows : List (List Value))
    (M : StepResult) (depth : Nat) (st : State) (s : Store) : Prop :=
  ∃ label n f, targets[depth]? = some (label, n) ∧ n ≤ st.operands.length ∧
    Mirrors w.site (belows.drop depth).flatten (place w.site.fin.asm.labels label)
      (st.holding (st.operands.take n)) f ∧
    LeadsOn M (w.state s f)

def Follows (w : Surroundings) (targets : List (Label × Nat)) (belows : List (List Value))
    (R : State → Frame → Prop) (M : StepResult) : EStateM.Result Exit Store State → Prop
  | .ok st s => ∃ f, R st f ∧ Leads M (w.state s f)
  | .error (.branch depth st) s => Arrives w targets belows M depth st s
  | .error (.ret st) s => Arrives w targets belows M (targets.length - 1) st s
  | .error (.trap t) s => Leads M (Machine.unwind s t w.callers)
  | .error .outOfFuel _ => Lasts w.steps M

variable {w : Surroundings} {targets : List (Label × Nat)} {belows : List (List Value)}
  {M M' : StepResult} {R R' : State → Frame → Prop}

theorem Arrives.of_leads {depth : Nat} (h : Leads M M')
    (h' : Arrives w targets belows M' depth st s) : Arrives w targets belows M depth st s := by
  obtain ⟨label, n, f, ht, hle, hf, hm⟩ := h'
  exact ⟨label, n, f, ht, hle, hf, h.trans_on hm⟩

variable {r : EStateM.Result Exit Store State} {x : Run State} {site : Site} {below : List Value}
  {pc : Nat} {f : Frame}

theorem Follows.of_leads (h : Leads M M') (h' : Follows w targets belows R M' r) :
    Follows w targets belows R M r := by
  match r, h' with
  | .ok st s, ⟨f, hf, hm⟩ => exact ⟨f, hf, h.trans hm⟩
  | .error (.branch depth st) s, ha => exact Arrives.of_leads h ha
  | .error (.ret st) s, ha => exact Arrives.of_leads h ha
  | .error (.trap t) s, hm => exact h.trans hm
  | .error .outOfFuel s, hm => exact h.lasts hm

theorem Follows.mono (h : Follows w targets belows R M r) (hR : ∀ st f, R st f → R' st f) :
    Follows w targets belows R' M r := by
  match r, h with
  | .ok st s, ⟨f, hf, hm⟩ => exact ⟨f, hR st f hf, hm⟩
  | .error (.branch depth st) s, ha => exact ha
  | .error (.ret st) s, ha => exact ha
  | .error (.trap t) s, hm => exact hm
  | .error .outOfFuel s, hm => exact hm

theorem Follows.bind {g : State → Run State} (h : Follows w targets belows R M (x s))
    (hg : ∀ st f s', x s = .ok st s' → R st f →
      Follows w targets belows R' (w.state s' f) (g st s')) :
    Follows w targets belows R' M ((x >>= g) s) := by
  cases hx : x s with
  | ok st s' =>
    rw [bind_of_ok hx]
    rw [hx] at h
    obtain ⟨f, hf, hm⟩ := h
    exact (hg st f s' hx hf).of_leads hm
  | error exit s' =>
    rw [bind_of_error hx]
    rw [hx] at h
    match exit, h with
    | .branch depth st, ha => exact ha
    | .ret st, ha => exact ha
    | .trap t, hm => exact hm
    | .outOfFuel, hm => exact hm

theorem Mirrors.join (h : Mirrors site (inner ++ below) pc st f) :
    Mirrors site below pc (st.holding (st.operands ++ inner)) f := by
  obtain @⟨values, slots, ops, hs⟩ := h
  rw [← List.append_assoc]
  exact .intro hs

theorem Mirrors.split {ops : List Value} (h : Mirrors site below pc st f)
    (hops : st.operands = ops ++ inner) : Mirrors site (inner ++ below) pc (st.holding ops) f := by
  obtain @⟨values, slots, _, hs⟩ := h
  have hassoc := List.append_assoc ops inner below
  rw [← hops] at hassoc
  rw [hassoc]
  exact .intro hs

theorem Follows.inScope {label : Label} {n : Nat} {t : Label × Nat}
    (h : Follows w ((label, n) :: t :: targets) (inner :: belows) R M (x s))
    (hok : ∀ st f, R st f → R' (st.holding (st.operands ++ inner)) f)
    (hbranch : ∀ st f s', x s = .error (.branch 0 st) s' → n ≤ st.operands.length →
      Mirrors w.site (inner :: belows).flatten (place w.site.fin.asm.labels label)
      (st.holding (st.operands.take n)) f → R' (st.holding (st.operands.take n ++ inner)) f) :
    Follows w (t :: targets) belows R' M (inScope n inner x s) := by
  unfold Structured.inScope
  cases hx : x s with
  | ok st s' =>
    rw [hx] at h
    obtain ⟨f, hf, hm⟩ := h
    exact ⟨f, hok st f hf, hm⟩
  | error exit s' =>
    rw [hx] at h
    match exit, h with
    | .branch 0 st, ⟨_, _, f, ht, hle, hf, hm⟩ =>
      cases ht
      exact ⟨f, hbranch st f s' hx hle hf, hm.leads⟩
    | .branch (depth + 1) st, ha => exact ha
    | .ret st, ha => exact ha
    | .trap t, hm => exact hm
    | .outOfFuel, hm => exact hm

end Structured

end Wasm
