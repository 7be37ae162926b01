import Wasm.Proofs.Validation.Innermost

/-! # Scopes as heights of one stack

Every operation does the same on both forms (`StackOp.agrees`). -/

namespace Wasm

open List

variable {s' s : ControlStack} {t' : MarkedStack} {ops : List Operand}

/-- An open scope over a number of operands. -/
structure Mark where
  height : Nat
  scope : Scope

/-- One stack of operands, and the open scopes. -/
structure MarkedStack where
  operands : List Operand
  marks : List Mark

/-- Why a step on a marked stack stops. -/
inductive MarkedStack.Stop where
  | fault (fault : Fault)
  | underflow

/-- A step on a marked stack. -/
abbrev Marking := EStateM MarkedStack.Stop MarkedStack

namespace MarkedStack

/-- No scope and no operand. -/
def empty : MarkedStack := ⟨[], []⟩

/-- The operands below the innermost height. -/
def below (t : MarkedStack) : List Operand :=
  match t.marks with
  | mark :: _ => t.operands.drop (t.operands.length - mark.height)
  | [] => t.operands

/-- Puts a scope with its operands on top. -/
def under (t : MarkedStack) (sc : Scope) : MarkedStack :=
  ⟨sc.operands ++ t.operands, ⟨t.operands.length, sc.keeping []⟩ :: t.marks⟩

/-- Whether code here is kept. -/
def isEmitting (t : MarkedStack) : Bool :=
  match t.marks with
  | mark :: _ => !mark.scope.unreachable && !mark.scope.dead
  | [] => false

def innermost : Marking Mark := fun t =>
  match t.marks with
  | mark :: _ => .ok mark t
  | [] => .error (.fault .unbalancedControlStack) t

/-- Changes the innermost scope. -/
def setInnermost (f : Scope → Scope) (t : MarkedStack) : MarkedStack :=
  match t.marks with
  | mark :: outer => { t with marks := { mark with scope := f mark.scope } :: outer }
  | [] => t

/-- More operands on top. -/
def pushed (ops : List Operand) (t : MarkedStack) : MarkedStack := ⟨ops ++ t.operands, t.marks⟩

def push (operand : Operand) : Marking Unit := modify (pushed [operand])

def pushTypes (types : List ValueType) : Marking Unit := modify (pushed (known types).reverse)

/-- Pops an operand above the innermost height. -/
def pop : Marking Operand := fun t =>
  match t.marks with
  | [] => .error (.fault .unbalancedControlStack) t
  | mark :: _ =>
    if t.operands.length ≤ mark.height then
      if mark.scope.unreachable then .ok .unknown t else .error (.fault .stackUnderflow) t
    else match t.operands with
      | operand :: rest => .ok operand { t with operands := rest }
      | [] => .error (.fault .stackUnderflow) t

def popType (expected : ValueType) : Marking Operand := do
  match ← pop with
  | .known found =>
    if found = expected then pure (.known found) else throw (.fault (.typeMismatch expected found))
  | .unknown => pure .unknown

def popTopDown : List ValueType → Marking Unit
  | [] => pure ()
  | type :: types => do
    let _ ← popType type
    popTopDown types

def popTypes (types : List ValueType) : Marking Unit := popTopDown types.reverse

/-- Opens a scope below its parameters. -/
def openScope (kind : ScopeKind) (params results : List ValueType) (label endLabel : Label)
    (elseLabel : Option Label) : Marking Unit := do
  let t ← get
  let nested := !t.marks.isEmpty
  if nested then popTypes params
  modify (·.under
    { kind, params, results, label, endLabel, elseLabel
      unreachable := false
      dead := nested && !t.isEmitting
      operands := params.reverse.map .known })

/-- Pops the results down to the height. -/
def popResults : Marking Unit := do
  let mark ← innermost
  popTypes mark.scope.results
  let left := (← get).operands.length
  if left ≠ mark.height then
    if mark.height ≤ left then
      throw (.fault (.stackHeightMismatch mark.scope.results.length
        (left - mark.height + mark.scope.results.length)))
    else
      throw .underflow

def switchToElse : Marking Scope := do
  let mark ← innermost
  if mark.scope.kind ≠ .ifThen then throw (.fault .elseWithoutIf)
  popResults
  modify (setInnermost fun scope =>
    { scope with kind := .elseArm, elseLabel := none, unreachable := false })
  pushTypes mark.scope.params
  return mark.scope

def closeScope : Marking Scope := do
  let mark ← innermost
  if mark.scope.kind = .ifThen ∧ mark.scope.params ≠ mark.scope.results then
    throw (.fault .ifWithoutElseTypeMismatch)
  popResults
  modify fun t => { t with marks := t.marks.tail }
  pushTypes mark.scope.results
  return mark.scope

/-- Marks the innermost scope as out of reach and cuts the stack down to its height. -/
def setUnreachable : Marking Unit := do
  let mark ← innermost
  modify fun t =>
    { t.setInnermost (fun scope => { scope with unreachable := true }) with
      operands := t.operands.drop (t.operands.length - mark.height) }

end MarkedStack

/-- An operation of a validator on its stack. -/
inductive StackOp where
  | push (type : ValueType)
  | pushEntry (operand : Operand)
  | pushTypes (types : List ValueType)
  | pop
  | popType (type : ValueType)
  | popTypes (types : List ValueType)
  | openScope (kind : ScopeKind) (params results : List ValueType) (label endLabel : Label)
      (elseLabel : Option Label)
  | switchToElse
  | closeScope
  | setUnreachable

namespace StackOp

/-- The operation on scopes with operands of their own. -/
def check : StackOp → Check Unit
  | push type => Check.pushType type
  | pushEntry operand => Check.push operand
  | pushTypes types => Check.pushTypes types
  | pop => do let _ ← Check.pop
  | popType type => do let _ ← Check.popType type
  | popTypes types => Check.popTypes types
  | openScope kind params results label endLabel elseLabel =>
    Check.openScope kind params results label endLabel elseLabel
  | switchToElse => do let _ ← Check.switchToElse
  | closeScope => do let _ ← Check.closeScope
  | setUnreachable => Check.setUnreachable

/-- The operation on one stack with recorded heights. -/
def marking : StackOp → Marking Unit
  | push type => MarkedStack.push (.known type)
  | pushEntry operand => MarkedStack.push operand
  | pushTypes types => MarkedStack.pushTypes types
  | pop => do let _ ← MarkedStack.pop
  | popType type => do let _ ← MarkedStack.popType type
  | popTypes types => MarkedStack.popTypes types
  | openScope kind params results label endLabel elseLabel =>
    MarkedStack.openScope kind params results label endLabel elseLabel
  | switchToElse => do let _ ← MarkedStack.switchToElse
  | closeScope => do let _ ← MarkedStack.closeScope
  | setUnreachable => MarkedStack.setUnreachable

/-- The control stack after operations. -/
def stackAfter (script : List StackOp) : ControlStack :=
  script.foldl (fun s op => stateAfter op.check s) .empty

/-- The marked stack after operations. -/
def markedAfter (script : List StackOp) : MarkedStack :=
  script.foldl (fun t op => stateAfter op.marking t) .empty

end StackOp

/-! ## The marked stack of a control stack -/

/-- All operands, and the scopes with their heights. -/
def ControlStack.marked (s : ControlStack) : MarkedStack :=
  ⟨s.operands, s.scopes.mapIdx fun depth sc => ⟨s.height depth, sc.keeping []⟩⟩

variable {base : List Operand} {os : List Scope} {sc : Scope}

theorem ControlStack.marked_cons : marked ⟨base, sc :: os⟩ = (marked ⟨base, os⟩).under sc := by
  unfold marked
  rw [mapIdx_cons]
  show MarkedStack.mk ((sc :: os).flatMap Scope.operands ++ base) _ = _
  rw [flatMap_cons, append_assoc]
  rfl

theorem MarkedStack.below_under (t : MarkedStack) (sc : Scope) :
    (t.under sc).below = t.operands := by
  show (sc.operands ++ t.operands).drop ((sc.operands ++ t.operands).length - t.operands.length) = _
  rw [length_append, Nat.add_sub_cancel, drop_left]

theorem ControlStack.pairwise_heights (s : ControlStack) :
    (s.marked.operands.length :: s.marked.marks.map Mark.height).Pairwise (· ≥ ·) := by
  obtain ⟨base, scopes⟩ := s
  induction scopes with
  | nil => exact pairwise_singleton _ _
  | cons sc os ih =>
    rw [marked_cons]
    show ((sc.operands ++ _).length :: (marked ⟨base, os⟩).operands.length :: _).Pairwise _
    rw [length_append]
    refine pairwise_cons.mpr ⟨fun h hh => ?_, ih⟩
    obtain rfl | hh := mem_cons.mp hh
    · exact Nat.le_add_left ..
    · exact Nat.le_trans (rel_of_pairwise_cons ih hh) (Nat.le_add_left ..)

/-! ## Operations on both -/

theorem ControlStack.marked_push (o : Operand) (s : ControlStack) :
    (stateAfter (Check.push o) s).marked = s.marked.pushed [o] := by
  obtain ⟨base, scopes⟩ := s
  cases scopes with
  | nil => rfl
  | cons sc os =>
    rw [marked_cons]
    exact marked_cons

theorem ControlStack.exists_pushTypes (types : List ValueType) (s : ControlStack) :
    ∃ s', Check.pushTypes types s = .ok () s' ∧
      s'.marked = s.marked.pushed (known types).reverse := by
  induction types generalizing s with
  | nil => exact ⟨s, rfl, rfl⟩
  | cons type types ih =>
    obtain ⟨s', hpush, hmarked⟩ := ih (stateAfter (Check.pushType type) s)
    refine ⟨s', hpush, hmarked.trans ?_⟩
    rw [Check.pushType, marked_push, known_cons, reverse_cons]
    simp only [MarkedStack.pushed, append_assoc]

/-- The two stacks fail in the same way. -/
def SameFault (fault : Fault) (stop : MarkedStack.Stop) : Prop := stop = .fault fault

/-- A control stack and its marked form. -/
inductive Within (base : List Operand) (os : List Scope) (t : MarkedStack) (sc : Scope) :
    ControlStack → MarkedStack → Prop
  | intro (ops : List Operand) : Within base os t sc ⟨base, sc.keeping ops :: os⟩
      (t.under (sc.keeping ops))

theorem Within.self (base : List Operand) (os : List Scope) (t : MarkedStack) (sc : Scope) :
    Within base os t sc ⟨base, sc :: os⟩ (t.under sc) := .intro sc.operands

/-- The marked stack, with all that was below its height. -/
structure Keeping (s s' : ControlStack) (t' : MarkedStack) : Prop where
  marked : t' = s'.marked
  below : s.marked.below <:+ t'.operands

theorem Keeping.cons (hmarked : t' = s'.marked)
    (hbelow : (ControlStack.marked ⟨base, os⟩).operands <:+ t'.operands) :
    Keeping ⟨base, sc :: os⟩ s' t' where
  marked := hmarked
  below := by
    rw [ControlStack.marked_cons, MarkedStack.below_under]
    exact hbelow

theorem Within.keeping (h : Within base os (ControlStack.marked ⟨base, os⟩) sc s' t') :
    Keeping ⟨base, sc :: os⟩ s' t' := by
  obtain ⟨ops⟩ := h
  exact .cons ControlStack.marked_cons.symm (suffix_append ..)

namespace MarkedStack

variable {t : MarkedStack}

theorem pop_under_nil : pop (t.under (sc.keeping [])) =
    if sc.unreachable then .ok .unknown (t.under (sc.keeping []))
    else .error (.fault .stackUnderflow) (t.under (sc.keeping [])) :=
  if_pos (Nat.le_refl _)

theorem pop_under_cons {o : Operand} : pop (t.under (sc.keeping (o :: ops))) =
      .ok o (t.under (sc.keeping ops)) := by
  have habove : ¬ (o :: ops ++ t.operands).length ≤ t.operands.length := by
    rw [length_append, length_cons]
    omega
  exact if_neg habove

theorem lockstep_pop : Lockstep SameFault (Within base os t sc) Eq Check.pop pop := by
  rintro _ _ ⟨ops⟩
  cases ops with
  | nil =>
    have hcheck : Check.pop ⟨base, sc.keeping [] :: os⟩ =
        if sc.unreachable then .ok .unknown ⟨base, sc.keeping [] :: os⟩
        else .error .stackUnderflow ⟨base, sc.keeping [] :: os⟩ := rfl
    rw [hcheck, pop_under_nil]
    by_cases hu : sc.unreachable = true
    · rw [if_pos hu, if_pos hu]
      exact .ok rfl (.intro [])
    · rw [if_neg hu, if_neg hu]
      exact .error rfl (.intro [])
  | cons o ops =>
    rw [pop_under_cons]
    exact .ok rfl (.intro ops)

theorem lockstep_popType (type : ValueType) :
    Lockstep SameFault (Within base os t sc) Eq (Check.popType type) (popType type) := by
  refine lockstep_pop.bind fun o _ ho => ?_
  subst ho
  cases o with
  | known found => exact .ite .rfl (.pure rfl) (.throw rfl)
  | unknown => exact .pure rfl

theorem lockstep_popTypes (types : List ValueType) :
    Lockstep SameFault (Within base os t sc) Eq (Check.popTypes types) (popTypes types) := by
  unfold Check.popTypes popTypes
  induction types.reverse with
  | nil => exact .pure rfl
  | cons type types ih => exact (lockstep_popType type).bind fun _ _ _ => ih

theorem lockstep_innermost {α β : Type} {Q : α → β → Prop} {f : Scope → Check α}
    {g : Mark → Marking β} (h : ∀ ops, Lockstep SameFault (Within base os t sc) Q
      (f (sc.keeping ops)) (g ⟨t.operands.length, sc.keeping []⟩)) :
    Lockstep SameFault (Within base os t sc) Q (do f (← Check.need (← get).innermost))
      (innermost >>= g) := by
  rintro _ _ ⟨ops⟩
  exact h ops _ _ (.intro ops)

theorem lockstep_popResults :
    Lockstep SameFault (Within base os t sc) (fun _ _ => True) Check.popResults popResults := by
  refine lockstep_innermost fun ops => ?_
  refine Lockstep.bind (lockstep_popTypes sc.results) fun _ _ _ =>
    Lockstep.get.bind fun _ _ hs => ?_
  obtain ⟨ops⟩ := hs
  show Lockstep _ _ _ (if ops.length ≠ 0 then _ else _)
    (if (ops ++ t.operands).length ≠ t.operands.length then
      if t.operands.length ≤ (ops ++ t.operands).length then
        throw (Stop.fault (.stackHeightMismatch sc.results.length
          ((ops ++ t.operands).length - t.operands.length + sc.results.length)))
      else _
    else _)
  rw [length_append, if_pos (Nat.le_add_left ..), Nat.add_sub_cancel]
  exact .ite (by omega) (.throw rfl) (.pure trivial)

theorem eq_nil_of_popResults
    (h : Check.popResults ⟨base, sc :: os⟩ = .ok () ⟨base, sc.keeping ops :: os⟩) :
    ops = [] := by
  obtain ⟨_, _, hget, h1⟩ := bind_eq_ok.mp h
  cases hget
  obtain ⟨_, _, hin, h2⟩ := bind_eq_ok.mp h1
  cases hin
  obtain ⟨⟨⟩, s1, -, h3⟩ := bind_eq_ok.mp h2
  obtain ⟨_, _, hget, h4⟩ := bind_eq_ok.mp h3
  cases hget
  obtain ⟨left, s2, hin, h5⟩ := bind_eq_ok.mp h4
  obtain ⟨hin, rfl⟩ := Check.need_eq_ok.mp hin
  by_cases hleft : left.operands.length = 0
  · rw [if_neg (not_not_intro hleft)] at h5
    cases h5
    cases hin
    exact eq_nil_of_length_eq_zero hleft
  · rw [if_pos hleft] at h5
    cases h5

end MarkedStack

/-! ## What every operation keeps -/

namespace StackOp

theorem keeping_pushed (h : s'.marked = s.marked.pushed ops) :
    Keeping s s' (s.marked.pushed ops) := by
  refine ⟨h.symm, ?_⟩
  have hbelow : s.marked.below <:+ s.marked.operands := by
    unfold MarkedStack.below
    split
    · exact drop_suffix ..
    · exact suffix_rfl
  exact hbelow.trans (suffix_append ..)

theorem keeping_self (s : ControlStack) : Keeping s s s.marked :=
  @keeping_pushed s s [] rfl

def Agrees {α : Type} (x : Check α) (y : Marking α) : Prop :=
  ∀ s, EndsAlike SameFault (Keeping s) Eq (x s) (y s.marked)

theorem Agrees.discard {α : Type} {x : Check α} {y : Marking α} (h : Agrees x y) :
    Agrees (do let _ ← x) (do let _ ← y) :=
  fun s => (h s).bind id fun _ _ _ _ _ _ ht => .ok rfl ht

theorem Agrees.within {α : Type} {x : Check α} {y : Marking α}
    (hin : ∀ base os t sc, Lockstep SameFault (Within base os t sc) Eq x y)
    (hout : ∀ base, EndsAlike SameFault (Keeping ⟨base, []⟩) Eq (x ⟨base, []⟩)
      (y (ControlStack.marked ⟨base, []⟩))) : Agrees x y := by
  rintro ⟨base, _ | ⟨sc, os⟩⟩
  · exact hout base
  · rw [ControlStack.marked_cons]
    exact (hin base os _ sc _ _ (.self ..)).imp Within.keeping

theorem agrees_pop : Agrees Check.pop MarkedStack.pop :=
  .within (fun _ _ _ _ => MarkedStack.lockstep_pop) fun _ => .error rfl (keeping_self _)

theorem agrees_popType (type : ValueType) :
    Agrees (Check.popType type) (MarkedStack.popType type) :=
  .within (fun _ _ _ _ => MarkedStack.lockstep_popType type) fun _ => .error rfl (keeping_self _)

theorem agrees_popTypes (types : List ValueType) :
    Agrees (Check.popTypes types) (MarkedStack.popTypes types) := by
  refine .within (fun _ _ _ _ => MarkedStack.lockstep_popTypes types) fun base => ?_
  unfold Check.popTypes MarkedStack.popTypes
  cases types.reverse with
  | nil => exact .ok rfl (keeping_self _)
  | cons type types => exact .error rfl (keeping_self _)

theorem agrees_openScope (kind : ScopeKind) (params results : List ValueType)
    (label endLabel : Label) (elseLabel : Option Label) :
    Agrees (Check.openScope kind params results label endLabel elseLabel)
      (MarkedStack.openScope kind params results label endLabel elseLabel) := by
  rintro ⟨base, _ | ⟨sc, os⟩⟩
  · exact .ok rfl ⟨ControlStack.marked_cons.symm, suffix_append ..⟩
  · rw [ControlStack.marked_cons]
    show EndsAlike _ _ _ ((Check.popTypes params >>= fun _ => _) _)
      ((MarkedStack.popTypes params >>= fun _ => _) _)
    refine EndsAlike.bind (MarkedStack.lockstep_popTypes params _ _ (.self base os _ sc))
      Within.keeping fun _ _ _ _ _ _ ht => ?_
    obtain ⟨ops⟩ := ht
    refine .ok rfl (.cons (ControlStack.marked_cons.trans ?_).symm
      ((suffix_append ..).trans (suffix_append ..)))
    rw [ControlStack.marked_cons]
    rfl

theorem agrees_closeScope : Agrees Check.closeScope MarkedStack.closeScope := by
  rintro ⟨base, _ | ⟨sc, os⟩⟩
  · exact .error rfl (keeping_self _)
  · rw [ControlStack.marked_cons]
    show EndsAlike _ _ _
      ((if sc.kind = .ifThen ∧ sc.params ≠ sc.results then _ else _ : Check Scope) _)
      ((if sc.kind = .ifThen ∧ sc.params ≠ sc.results then _ else _ : Marking Scope) _)
    by_cases hif : sc.kind = .ifThen ∧ sc.params ≠ sc.results
    · rw [if_pos hif, if_pos hif]
      exact .error rfl (Within.self ..).keeping
    · rw [if_neg hif, if_neg hif]
      refine EndsAlike.bind (MarkedStack.lockstep_popResults _ _ (.self base os _ sc))
        Within.keeping
        fun _ _ s1 t1 hpop _ ht => ?_
      obtain ⟨ops⟩ := ht
      cases MarkedStack.eq_nil_of_popResults hpop
      obtain ⟨s', hpush, hmarked⟩ := ControlStack.exists_pushTypes sc.results ⟨base, os⟩
      show EndsAlike _ _ _ ((Check.pushTypes sc.results >>= fun _ => _) ⟨base, os⟩) _
      rw [bind_of_ok hpush]
      exact .ok rfl (.cons hmarked.symm (suffix_append ..))

theorem agrees_switchToElse : Agrees Check.switchToElse MarkedStack.switchToElse := by
  rintro ⟨base, _ | ⟨sc, os⟩⟩
  · exact .error rfl (keeping_self _)
  · rw [ControlStack.marked_cons]
    show EndsAlike _ _ _ ((if sc.kind ≠ .ifThen then _ else _ : Check Scope) _)
      ((if sc.kind ≠ .ifThen then _ else _ : Marking Scope) _)
    by_cases hif : sc.kind ≠ .ifThen
    · rw [if_pos hif, if_pos hif]
      exact .error rfl (Within.self ..).keeping
    · rw [if_neg hif, if_neg hif]
      refine EndsAlike.bind (MarkedStack.lockstep_popResults _ _ (.self base os _ sc))
        Within.keeping
        fun _ _ s1 t1 hpop _ ht => ?_
      obtain ⟨ops⟩ := ht
      cases MarkedStack.eq_nil_of_popResults hpop
      refine .ok rfl (.cons ?_ (suffix_append ..))
      rw [ControlStack.marked_cons, ← known_reverse]
      rfl

theorem agrees_setUnreachable : Agrees Check.setUnreachable MarkedStack.setUnreachable := by
  rintro ⟨base, _ | ⟨sc, os⟩⟩
  · exact .error rfl (keeping_self _)
  · have hbelow := (ControlStack.marked ⟨base, os⟩).below_under sc
    rw [ControlStack.marked_cons]
    refine .ok rfl (.cons ?_ ?_)
    · rw [ControlStack.marked_cons]
      exact congrArg (MarkedStack.mk · _) hbelow
    · exact ⟨[], hbelow.symm⟩

theorem agrees (op : StackOp) : Agrees op.check op.marking := by
  cases op with
  | push type | pushEntry operand =>
    exact fun s => .ok rfl (keeping_pushed (s.marked_push _))
  | pushTypes types =>
    intro s
    obtain ⟨s', hpush, hmarked⟩ := s.exists_pushTypes types
    rw [check, hpush]
    exact .ok rfl (keeping_pushed hmarked)
  | pop => exact agrees_pop.discard
  | popType type => exact (agrees_popType type).discard
  | popTypes types => exact agrees_popTypes types
  | openScope kind params results label endLabel elseLabel =>
    exact agrees_openScope kind params results label endLabel elseLabel
  | switchToElse => exact agrees_switchToElse.discard
  | closeScope => exact agrees_closeScope.discard
  | setUnreachable => exact agrees_setUnreachable

theorem markedAfter_eq (script : List StackOp) :
    markedAfter script = (stackAfter script).marked := by
  have hrun : ∀ s : ControlStack, script.foldl (fun t op => stateAfter op.marking t) s.marked =
        (script.foldl (fun s op => stateAfter op.check s) s).marked := by
    induction script with
    | nil => intro s; rfl
    | cons op script ih =>
      intro s
      have hstep : stateAfter op.marking s.marked = (stateAfter op.check s).marked := by
        have hends := op.agrees s
        unfold stateAfter
        generalize op.check s = r at hends ⊢
        generalize op.marking s.marked = r' at hends ⊢
        cases hends with
        | ok _ h => exact h.marked
        | error _ h => exact h.marked
      rw [foldl_cons, foldl_cons, hstep]
      exact ih _
  exact hrun .empty

end StackOp

namespace MarkedStack

theorem of_closeScope {scope : Scope} (h : closeScope s.marked = .ok scope t') :
    ∃ mark outer, s.marked.marks = mark :: outer ∧
      scope = mark.scope ∧ t' = ⟨(known scope.results).reverse ++ s.marked.below, outer⟩ := by
  obtain ⟨base, _ | ⟨sc, os⟩⟩ := s
  · cases h
  · rw [ControlStack.marked_cons] at h ⊢
    rw [below_under]
    obtain ⟨mark, _, hin, h1⟩ := bind_eq_ok.mp h
    cases hin
    refine ⟨_, _, rfl, ?_⟩
    split at h1
    · cases h1
    · obtain ⟨⟨⟩, t1, hpop, h2⟩ := bind_eq_ok.mp h1
      have hends := lockstep_popResults _ _
        (Within.self base os (ControlStack.marked ⟨base, os⟩) sc)
      rw [hpop] at hends
      generalize hcheck : Check.popResults ⟨base, sc :: os⟩ = r at hends
      cases hends with
      | ok _ ht =>
        obtain ⟨ops⟩ := ht
        cases eq_nil_of_popResults hcheck
        cases h2
        exact ⟨rfl, rfl⟩

/-- **The recorded heights are those of the scopes**, in order whatever operations were tried; an
    operation leaves all that is below the innermost height. -/
theorem heights_kept (script : List StackOp) (op : StackOp) : let t := StackOp.markedAfter script
    t = (StackOp.stackAfter script).marked ∧
      (t.operands.length :: t.marks.map Mark.height).Pairwise (· ≥ ·) ∧
      EndsAlike SameFault (fun s' t' => t' = s'.marked) Eq (op.check (StackOp.stackAfter script))
        (op.marking t) ∧
      (∀ t', op.marking t ≠ .error .underflow t') ∧
      t.below <:+ (stateAfter op.marking t).operands ∧
      ∀ scope t', closeScope t = .ok scope t' → ∃ mark outer, t.marks = mark :: outer ∧
        scope = mark.scope ∧ t' = ⟨(known scope.results).reverse ++ t.below, outer⟩ := by
  intro t
  have ht : t = (StackOp.stackAfter script).marked := StackOp.markedAfter_eq script
  have hends := op.agrees (StackOp.stackAfter script)
  rw [← ht] at hends
  refine ⟨ht, ht ▸ ControlStack.pairwise_heights _, hends.imp Keeping.marked, ?_, ?_, ?_⟩
  · intro t' hstop
    rw [hstop] at hends
    generalize op.check (StackOp.stackAfter script) = r at hends
    cases hends with
    | error he _ => cases he
  · unfold stateAfter
    generalize op.check (StackOp.stackAfter script) = r at hends
    generalize op.marking t = r' at hends ⊢
    cases hends with
    | ok _ h | error _ h => exact ht ▸ h.below
  · rw [ht]
    exact fun _ _ => of_closeScope

end MarkedStack

end Wasm
