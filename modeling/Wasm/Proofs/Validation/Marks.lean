import Wasm.Proofs.Validation.Brackets

/-! # Where operands of unknown type stand

Only in a scope that is marked as out of reach (`Scope.Marked`). -/

namespace Wasm

open List

variable {ops : List Operand} {ctx : BodyContext}

/-! ## Operands that have types -/

theorem known_ne_unknown (ts : List ValueType) : ∀ o ∈ known ts, o ≠ .unknown := by
  intro o ho
  obtain ⟨t, -, rfl⟩ := mem_map.mp ho
  exact Operand.noConfusion

variable {ts : List ValueType} {rest : List Operand} {labels : List (List ValueType)} {i : Instr}
  {n : Nat}

theorem reverse_known_append (h : ∀ o ∈ ops, o ≠ .unknown) :
    ∀ o ∈ (known ts).reverse ++ ops, o ≠ .unknown := by
  intro o ho
  rcases mem_append.mp ho with ho | ho
  · exact known_ne_unknown ts o (mem_reverse.mp ho)
  · exact h o ho

theorem Operand.take?_known (hk : ∀ o ∈ ops, o ≠ unknown) (h : take? false ts ops = some rest) :
    ∀ o ∈ rest, o ≠ unknown := by
  intro o ho
  refine hk o ?_
  rw [eq_append_of_take? hk h]
  exact mem_append_right _ ho

theorem Operand.pop?_false_eq {o : Operand} :
    pop? false ops = some (o, rest) ↔ ops = o :: rest := by
  cases ops with
  | nil =>
    constructor
    · intro h; cases h
    · intro h; cases h
  | cons o' ops =>
    rw [pop?_cons, Option.some.injEq, Prod.mk.injEq, List.cons.injEq]

theorem Instr.Moves.known_of {ops' : List Operand}
    (h : Instr.Moves ctx labels i false ops false ops') (hk : ∀ o ∈ ops, o ≠ .unknown) :
    ∀ o ∈ ops', o ≠ .unknown := by
  cases h with
  | fixed _ ht | brIf _ ht => exact reverse_known_append (Operand.take?_known hk ht)
  | drop hp =>
    rw [Operand.pop?_false_eq] at hp
    subst hp
    exact (forall_mem_cons.mp hk).2
  | select hi h2 h1 _ _ =>
    have hk1 := Operand.take?_known hk hi
    rw [Operand.pop?_false_eq] at h2 h1
    subst h2
    subst h1
    obtain ⟨hsecond, hk2⟩ := forall_mem_cons.mp hk1
    obtain ⟨hfirst, hrest⟩ := forall_mem_cons.mp hk2
    refine forall_mem_cons.mpr ⟨?_, hrest⟩
    unfold Operand.selected
    split
    · exact hsecond
    · exact hfirst
  | refIsNull hp _ =>
    rw [Operand.pop?_false_eq] at hp
    subst hp
    exact forall_mem_cons.mpr ⟨Operand.noConfusion, (forall_mem_cons.mp hk).2⟩

variable {sc sc' : Scope} {os scopes scopes' : List Scope} {st : ControlStack}

/-! ## What an instruction does to the open scopes -/

/-- Unknown operands are held only where the rest of the scope cannot be reached. -/
def Scope.Marked (sc : Scope) : Prop := .unknown ∈ sc.operands → sc.unreachable = true

/-- Whether a scope is one whose code is left out, from here on or altogether. -/
def Scope.Lost (sc : Scope) : Prop := sc.unreachable = true ∨ sc.dead = true

theorem Scope.lost_iff : sc.Lost ↔ sc.isEmitting = false := by
  unfold Lost isEmitting
  cases sc.unreachable <;> cases sc.dead <;> simp

/-- The scopes after an instruction that is checked in the scopes before it. -/
inductive Scope.Turns : List Scope → List Scope → Prop
  | keeps {sc sc' : Scope} {os : List Scope} (hd : sc'.dead = sc.dead)
    (hm : sc.Marked → sc'.Marked) : Turns (sc :: os) (sc' :: os)
  | opens {new sc sc' : Scope} {os : List Scope} (hu : new.unreachable = false)
    (hk : .unknown ∉ new.operands)
      (hdead : new.dead = true ↔ sc.Lost) (hu' : sc'.unreachable = sc.unreachable)
      (hd : sc'.dead = sc.dead) (hm : sc.Marked → sc'.Marked) :
      Turns (sc :: os) (new :: sc' :: os)
  | closes {sc o o' : Scope} {os : List Scope} (hu : o'.unreachable = o.unreachable)
    (hd : o'.dead = o.dead) (hm : o.Marked → o'.Marked) : Turns (sc :: o :: os) (o' :: os)
  | ends {sc : Scope} : Turns [sc] []

theorem unknown_notMem_known (ts : List ValueType) : .unknown ∉ (known ts).reverse :=
  fun h => known_ne_unknown ts _ (mem_reverse.mp h) rfl

theorem Scope.Marked.take (h : sc.Marked)
    (ht : Operand.take? sc.unreachable ts sc.operands = some rest) :
    (sc.keeping rest).Marked := by
  intro hmem
  cases hu : sc.unreachable with
  | true => exact hu
  | false =>
    rw [hu] at ht
    refine absurd rfl (Operand.take?_known (fun o ho heq => ?_) ht _ hmem)
    have := h (heq ▸ ho)
    rw [hu] at this
    cases this

theorem Scope.Marked.push (h : sc.Marked) (ts : List ValueType) :
    (sc.keeping ((known ts).reverse ++ sc.operands)).Marked :=
  fun hmem => h ((mem_append.mp hmem).resolve_left (unknown_notMem_known ts))

theorem Instr.Moves.marks {unr : Bool}
    (h : Instr.Moves ctx labels i sc.unreachable sc.operands unr ops) (hm : sc.Marked) :
    (sc.holding unr ops).Marked := by
  intro hmem
  cases unr with
  | true => rfl
  | false =>
    cases hu : sc.unreachable with
    | true =>
      rw [hu] at h
      cases h
    | false =>
      rw [hu] at h
      refine absurd rfl (h.known_of (fun o ho heq => ?_) _ hmem)
      have := hm (heq ▸ ho)
      rw [hu] at this
      cases this

theorem Scope.Turns.open_ {type : FuncType}
    (ht : Operand.take? sc.unreachable ts sc.operands = some rest) (kind : ScopeKind)
    (label endLabel : Label) (elseLabel : Option Label) :
    Turns (sc :: os) (sc.inner kind type label endLabel elseLabel :: sc.keeping rest :: os) := by
  refine .opens rfl (unknown_notMem_known _) ?_ rfl rfl fun hm => hm.take ht
  rw [Scope.lost_iff, Scope.inner, Bool.not_eq_true']

/-- **What an instruction that passes does to the open scopes.**  Outside of them there is
    nothing, or the results of the function. -/
theorem Instr.check_turns (h : i.check ctx n ⟨[], sc :: os⟩ = .ok () st) :
    Scope.Turns (sc :: os) st.scopes ∧ .unknown ∉ st.base := by
  cases Instr.check_iff.mp h with
  | plain _ hm => exact ⟨.keeps rfl hm.marks, not_mem_nil⟩
  | block _ ht | loop _ ht | ifThen _ ht => exact ⟨.open_ ht .., not_mem_nil⟩
  | elseArm _ _ =>
    exact ⟨.keeps rfl fun _ hmem => absurd hmem (unknown_notMem_known _), not_mem_nil⟩
  | endScope _ _ => exact ⟨.closes rfl rfl fun hm => hm.push _, not_mem_nil⟩
  | last _ _ => exact ⟨.ends, unknown_notMem_known _⟩

/-! ## The invariant -/

/-- All scopes are marked that hold unknown operands. -/
def Scope.AllMarked (scopes : List Scope) : Prop := ∀ sc ∈ scopes, sc.Marked

theorem Scope.Turns.allMarked (h : Turns scopes scopes') (hm : AllMarked scopes) :
    AllMarked scopes' := by
  cases h with
  | keeps _ hkeeps =>
    obtain ⟨hsc, hos⟩ := forall_mem_cons.mp hm
    exact forall_mem_cons.mpr ⟨hkeeps hsc, hos⟩
  | opens _ hk _ _ _ hkeeps =>
    obtain ⟨hsc, hos⟩ := forall_mem_cons.mp hm
    refine forall_mem_cons.mpr ⟨fun hmem => absurd hmem hk, ?_⟩
    exact forall_mem_cons.mpr ⟨hkeeps hsc, hos⟩
  | closes _ _ hkeeps =>
    obtain ⟨ho, hos⟩ := forall_mem_cons.mp (forall_mem_cons.mp hm).2
    exact forall_mem_cons.mpr ⟨hkeeps ho, hos⟩
  | ends => exact forall_mem_nil _

/-- A scope is open, nothing stands outside the scopes, and they are marked. -/
def ControlStack.Ready (stack : ControlStack) : Prop :=
  ∃ sc os, stack = ⟨[], sc :: os⟩ ∧ Scope.AllMarked (sc :: os)

/-- **An instruction keeps the control stack ready for the next, or closes the last scope.** -/
theorem Instr.check_ready {stack : ControlStack} (hr : stack.Ready)
    (h : i.check ctx n stack = .ok () st) : st.Ready ∨ st.scopes = [] := by
  obtain ⟨sc, os, rfl, hm⟩ := hr
  have hmarked := (Instr.check_turns h).1.allMarked hm
  cases Instr.check_iff.mp h with
  | last _ _ => exact .inr rfl
  | _ => exact .inl ⟨_, _, rfl, hmarked⟩

end Wasm
