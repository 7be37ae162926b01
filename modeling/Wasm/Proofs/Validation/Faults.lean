import Wasm.Proofs.Validation.Body

/-! # What checks fail for

A check never finds the control stack empty (`Check.Inside`). -/

namespace Wasm

variable {fault : Fault} {P : Prop} {stack : ControlStack} {i : Instr} {ctx : BodyContext}
  {s : BodyState}

def Fault.isOfBinary : Fault → Bool
  | .unbalancedControlStack | .internal _ => false
  | _ => true

def Rejects {α : Type} (x : Except Fault α) : Prop :=
  ∀ fault, x = .error fault → fault.isOfBinary = true

namespace Rejects

variable {α β : Type}

theorem ok (a : α) : Rejects (.ok a : Except Fault α) := fun _ h => nomatch h

theorem error (h : fault.isOfBinary = true) : Rejects (.error fault : Except Fault α) := by
  intro _ he
  cases he
  exact h

theorem bind {x : Except Fault α} {f : α → Except Fault β} (hx : Rejects x)
    (hf : ∀ a, Rejects (f a)) : Rejects (x >>= f) := by
  cases x with
  | ok a => exact hf a
  | error fault => exact fun _ he => hx _ (by cases he; rfl)

theorem ite [Decidable P] {x y : Except Fault α} (hx : Rejects x) (hy : Rejects y) :
    Rejects (if P then x else y) := by
  split
  · exact hx
  · exact hy

theorem lookup (items : Array α) (index : Nat) {fault : Nat → Fault}
    (h : (fault index).isOfBinary = true) : Rejects (IndexSpaces.lookup items index fault) := by
  unfold IndexSpaces.lookup
  split
  · exact ok _
  · exact error h

end Rejects

namespace IndexSpaces

variable (spaces : IndexSpaces) (index : Nat)

theorem rejects_typeAt : Rejects (spaces.typeAt index) := .lookup _ _ rfl

theorem rejects_funcType : Rejects (spaces.funcType index) :=
  (Rejects.lookup spaces.funcs index rfl).bind fun _ => spaces.rejects_typeAt _

theorem rejects_table : Rejects (spaces.table index) := .lookup _ _ rfl

theorem rejects_memory : Rejects (spaces.memory index) := .lookup _ _ rfl

theorem rejects_global : Rejects (spaces.global index) := .lookup _ _ rfl

theorem rejects_blockType (type : BlockType) : Rejects (spaces.blockType type) := by
  cases type with
  | empty | value type => exact .ok _
  | func index => exact spaces.rejects_typeAt index

end IndexSpaces

/-! ## Checks inside a scope -/

def ControlStack.Open (stack : ControlStack) : Prop := stack.base = [] ∧ stack.scopes ≠ []

theorem ControlStack.Open.exists_eq (h : stack.Open) : ∃ sc os, stack = ⟨[], sc :: os⟩ := by
  obtain ⟨base, scopes⟩ := stack
  obtain ⟨rfl, hne⟩ := h
  cases scopes with
  | nil => exact absurd rfl hne
  | cons sc os => exact ⟨sc, os, rfl⟩

theorem ControlStack.open_cons (sc : Scope) (os : List Scope) : Open ⟨[], sc :: os⟩ :=
  ⟨rfl, List.cons_ne_nil _ _⟩

theorem ControlStack.Ready.open_ (h : stack.Ready) : stack.Open := by
  obtain ⟨sc, os, rfl, -⟩ := h
  exact open_cons sc os

namespace Check

variable {α β : Type}

def OnlyRejects (x : Check α) : Prop :=
  ∀ stack fault stack', stack.Open → x stack = .error fault stack' → fault.isOfBinary = true

/-- A step leaves a scope open, or rejects the binary. -/
structure Inside (x : Check α) : Prop where
  leaves : ∀ stack a stack', stack.Open → x stack = .ok a stack' → stack'.Open
  faults : OnlyRejects x

namespace OnlyRejects

theorem bind {x : Check α} {f : α → Check β} (hx : Inside x) (hf : ∀ a, OnlyRejects (f a)) :
    OnlyRejects (x >>= f) := by
  intro stack fault stack' ho h
  obtain h1 | ⟨a, stack1, h1, h2⟩ := bind_eq_error.mp h
  · exact hx.faults _ _ _ ho h1
  · exact hf a _ _ _ (hx.leaves _ _ _ ho h1) h2

theorem get {f : ControlStack → Check β} (hf : ∀ stack, stack.Open → OnlyRejects (f stack)) :
    OnlyRejects (MonadState.get >>= f) :=
  fun stack fault stack' ho h => hf stack ho stack fault stack' ho h

theorem ite [Decidable P] {x y : Check α} (hx : OnlyRejects x) (hy : OnlyRejects y) :
    OnlyRejects (if P then x else y) := by
  split
  · exact hx
  · exact hy

end OnlyRejects

namespace Inside

theorem pure (a : α) : Inside (Pure.pure a : Check α) where
  leaves := by
    intro stack b stack' ho h
    cases h
    exact ho
  faults := by
    intro stack fault stack' _ h
    cases h

theorem throw (hf : fault.isOfBinary = true) : Inside (MonadExcept.throw fault : Check α) where
  leaves := by
    intro stack b stack' _ h
    cases h
  faults := by
    intro stack fault' stack' _ h
    cases h
    exact hf

theorem bind {x : Check α} {f : α → Check β} (hx : Inside x) (hf : ∀ a, Inside (f a)) :
    Inside (x >>= f) where
  leaves := by
    intro stack b stack' ho h
    obtain ⟨a, stack1, h1, h2⟩ := bind_eq_ok.mp h
    exact (hf a).leaves _ _ _ (hx.leaves _ _ _ ho h1) h2
  faults := .bind hx fun a => (hf a).faults

theorem get {f : ControlStack → Check β} (hf : ∀ stack, stack.Open → Inside (f stack)) :
    Inside (MonadState.get >>= f) where
  leaves := by
    intro stack b stack' ho h
    exact (hf stack ho).leaves _ _ _ ho h
  faults := .get fun stack ho => (hf stack ho).faults

theorem modify {f : ControlStack → ControlStack} (hf : ∀ stack, stack.Open → (f stack).Open) :
    Inside (modify f : Check PUnit) where
  leaves := by
    intro stack b stack' ho h
    cases h
    exact hf stack ho
  faults := by
    intro stack fault stack' _ h
    cases h

theorem ite [Decidable P] {x y : Check α} (hx : Inside x) (hy : Inside y) :
    Inside (if P then x else y) := by
  split
  · exact hx
  · exact hy

theorem need {x : Except Fault α} (h : Rejects x) : Inside (Check.need x) := by
  cases x with
  | ok a => exact .pure a
  | error fault => exact .throw (h fault rfl)

end Inside

theorem rejects_innermost (h : stack.Open) : Rejects stack.innermost := by
  obtain ⟨sc, os, rfl⟩ := h.exists_eq
  exact .ok _

theorem rejects_scopeAt (stack : ControlStack) (depth : Nat) : Rejects (stack.scopeAt depth) := by
  unfold ControlStack.scopeAt
  split
  · exact .ok _
  · exact .error rfl

theorem inside_innermost {α : Type} {f : Scope → Check α} (hf : ∀ sc, Inside (f sc)) :
    Inside (do f (← need (← get).innermost)) :=
  .get fun _ ho => (Inside.need (rejects_innermost ho)).bind hf

theorem inside_push (operand : Operand) : Inside (push operand) := by
  refine .modify fun stack ho => ?_
  obtain ⟨sc, os, rfl⟩ := ho.exists_eq
  exact ControlStack.open_cons _ _

theorem inside_pushType (type : ValueType) : Inside (pushType type) := inside_push _

theorem inside_pushTypes (types : List ValueType) : Inside (pushTypes types) := by
  induction types with
  | nil => exact .pure _
  | cons type types ih => exact (inside_pushType type).bind fun _ => ih

theorem inside_pushMany (operands : List Operand) : Inside (pushMany operands) := by
  induction operands with
  | nil => exact .pure _
  | cons operand operands ih => exact (inside_push operand).bind fun _ => ih

theorem inside_pop : Inside pop where
  leaves := by
    intro stack operand stack' ho h
    obtain ⟨⟨kind, params, results, label, endLabel, elseLabel, unr, dead, ops⟩, os, rfl⟩ :=
      ho.exists_eq
    cases ops with
    | nil =>
      cases unr with
      | true => cases h; exact ho
      | false => cases h
    | cons o ops =>
      cases h
      exact ControlStack.open_cons _ _
  faults := by
    intro stack fault stack' ho h
    obtain ⟨⟨kind, params, results, label, endLabel, elseLabel, unr, dead, ops⟩, os, rfl⟩ :=
      ho.exists_eq
    cases ops with
    | nil =>
      cases unr with
      | true => cases h
      | false => cases h; rfl
    | cons o ops => cases h

theorem inside_requireSame (expected found : ValueType) : Inside (requireSame expected found) :=
  .ite (.pure _) (.throw rfl)

theorem inside_popType (expected : ValueType) : Inside (popType expected) := by
  refine inside_pop.bind fun operand => ?_
  cases operand with
  | known found => exact .ite (.pure _) (.throw rfl)
  | unknown => exact .pure _

theorem inside_popTopDown (types : List ValueType) : Inside (popTopDown types) := by
  induction types with
  | nil => exact .pure _
  | cons type types ih => exact (inside_popType type).bind fun _ => ih

theorem inside_popTypes (types : List ValueType) : Inside (popTypes types) :=
  inside_popTopDown _

theorem inside_popMany (n : Nat) (popped : List Operand) : Inside (popMany n popped) := by
  induction n generalizing popped with
  | zero => exact .pure _
  | succ n ih => exact inside_pop.bind fun operand => ih _

theorem inside_popRef : Inside popRef := by
  refine inside_pop.bind fun operand => ?_
  cases operand with
  | known found => exact .ite (.pure _) (.throw rfl)
  | unknown => exact .pure _

theorem inside_requireTypes (operands : List Operand) (types : List ValueType) :
    Inside (requireTypes operands types) := by
  induction operands generalizing types with
  | nil => cases types <;> exact .pure _
  | cons operand operands ih =>
    cases types with
    | nil => cases operand <;> exact .pure _
    | cons type types =>
      cases operand with
      | known found => exact (inside_requireSame _ _).bind fun _ => ih _
      | unknown => exact ih _

theorem inside_setUnreachable : Inside setUnreachable :=
  inside_innermost fun _ => .modify fun _ ho => ⟨ho.1, List.cons_ne_nil _ _⟩

theorem inside_apply (operands results : List ValueType) : Inside (apply operands results) :=
  (inside_popTypes _).bind fun _ => inside_pushTypes _

theorem inside_branch (depth : Nat) : Inside (branch depth) :=
  .get fun stack _ => (Inside.need (rejects_scopeAt stack depth)).bind fun _ =>
    (inside_popTypes _).bind fun _ => inside_pushTypes _

theorem inside_requireTargets (arity : Nat) (carried : List Operand) (depths : List Nat) :
    Inside (requireTargets arity carried depths) := by
  induction depths with
  | nil => exact .pure _
  | cons depth depths ih =>
    refine .get fun stack _ => (Inside.need (rejects_scopeAt stack depth)).bind fun target => ?_
    have hrest := (inside_requireTypes carried target.branchTypes).bind fun _ => ih
    exact .ite ((Inside.throw rfl).bind fun _ => hrest) hrest

theorem inside_branchTable (depths : List Nat) (default : Nat) :
    Inside (branchTable depths default) :=
  (inside_popType _).bind fun _ => .get fun stack _ =>
    (Inside.need (rejects_scopeAt stack default)).bind fun _ =>
      (inside_popMany _ _).bind fun _ => (inside_requireTargets _ _ _).bind fun _ =>
        (inside_pushMany _).bind fun _ => inside_setUnreachable

theorem rejects_selectOf (first second : Operand) : Rejects (selectOf first second) := by
  have hselected : ∀ type, Rejects (selected type) := fun type => .ite (.error rfl) (.ok _)
  cases first with
  | known a =>
    cases second with
    | known b => exact .ite (hselected a) (.error rfl)
    | unknown => exact hselected a
  | unknown =>
    cases second with
    | known b => exact hselected b
    | unknown => exact .ok _

theorem inside_selectNumber : Inside selectNumber :=
  ((inside_popType _).bind fun _ => inside_pop.bind fun _ => inside_pop.bind fun _ =>
    Inside.need (rejects_selectOf _ _)).bind fun _ => inside_push _

theorem inside_requireMemory (ctx : BodyContext) (index : Nat) : Inside (requireMemory ctx index) :=
  (Inside.need (ctx.spaces.rejects_memory index)).bind fun _ => .pure _

theorem inside_memArg (ctx : BodyContext) (access : MemoryAccess) (arg : MemArg) :
    Inside (memArg ctx access arg) :=
  .ite ((Inside.throw rfl).bind fun _ => inside_requireMemory _ _) (inside_requireMemory _ _)

theorem inside_openScope (kind : ScopeKind) (params results : List ValueType)
    (label endLabel : Label) (elseLabel : Option Label) :
    Inside (openScope kind params results label endLabel elseLabel) := by
  refine .get fun stack _ => ?_
  have hopen : ∀ f : List Scope → Scope, Inside (modify (fun inner : ControlStack =>
      { inner with scopes := f inner.scopes :: inner.scopes }) : Check PUnit) :=
    fun f => .modify fun _ ho => ⟨ho.1, List.cons_ne_nil _ _⟩
  exact .ite ((inside_popTypes _).bind fun _ => hopen fun _ => _) (hopen fun _ => _)

theorem inside_popResults : Inside popResults := by
  refine inside_innermost fun sc => (inside_popTypes _).bind fun _ => inside_innermost fun sc' => ?_
  exact .ite (.throw rfl) (.pure _)

theorem inside_switchToElse : Inside switchToElse := by
  refine inside_innermost fun sc => ?_
  have hrest := inside_popResults.bind fun _ => inside_innermost fun before =>
    (Inside.modify (f := fun stack : ControlStack =>
      { stack with
        scopes :=
          { before with
            kind := .elseArm
            elseLabel := none
            unreachable := false
            operands := before.params.reverse.map .known } :: stack.scopes.tail })
      fun _ ho => ⟨ho.1, List.cons_ne_nil _ _⟩).bind fun _ => .pure before
  exact .ite ((Inside.throw rfl).bind fun _ => hrest) hrest

end Check

theorem BodyContext.rejects_tableElement (ctx : BodyContext) (index : Nat) :
    Rejects (ctx.tableElement index) :=
  (ctx.spaces.rejects_table index).bind fun _ => .ok _

theorem BodyContext.rejects_requireData (ctx : BodyContext) (index : Nat) :
    Rejects (ctx.requireData index) := by
  unfold requireData
  split
  · split
    · exact .ok _
    · exact .error rfl
  · exact .ok _

/-! ## Instructions -/

open Check in
theorem Instr.check_inside (ctx : BodyContext) (labels : Nat) (hi : i ≠ .endScope) :
    Inside (i.check ctx labels) := by
  have htable : ∀ {α : Type} {f : ValueType → Check α} (table : Nat), (∀ t, Inside (f t)) →
      Inside (do f (← need (ctx.tableElement table))) :=
    fun table hf => (Inside.need (ctx.rejects_tableElement table)).bind hf
  have hlocal : ∀ {f : LocalSlot → Check Unit} (index : Nat), (∀ slot, Inside (f slot)) →
      Inside (do f (← need (ctx.localAt index))) :=
    fun index hf => (Inside.need (.lookup _ _ rfl)).bind hf
  have hglobal : ∀ {f : GlobalType → Check Unit} (index : Nat), (∀ type, Inside (f type)) →
      Inside (do f (← need (ctx.spaces.global index))) :=
    fun index hf => (Inside.need (ctx.spaces.rejects_global index)).bind hf
  have helem : ∀ {f : ValueType → Check Unit} (index : Nat), (∀ t, Inside (f t)) →
      Inside (do f (← need (ctx.elemType index))) :=
    fun index hf => (Inside.need (.lookup _ _ rfl)).bind hf
  have hblock : ∀ {f : FuncType → Check Unit} (type : BlockType), (∀ t, Inside (f t)) →
      Inside (do f (← need (ctx.spaces.blockType type))) :=
    fun type hf => (Inside.need (ctx.spaces.rejects_blockType type)).bind hf
  cases i with
  | unreachable => exact inside_setUnreachable
  | nop => exact .pure _
  | block type | loop type => exact hblock type fun _ => inside_openScope ..
  | ifThen type =>
    exact hblock type fun _ => (inside_popType _).bind fun _ => inside_openScope ..
  | elseArm => exact inside_switchToElse.bind fun _ => .pure _
  | endScope => exact absurd rfl hi
  | br depth => exact (inside_branch depth).bind fun _ => inside_setUnreachable
  | brIf depth => exact (inside_popType _).bind fun _ => inside_branch depth
  | brTable depths default => exact inside_branchTable depths default
  | ret => exact .get fun _ _ => (inside_branch _).bind fun _ => inside_setUnreachable
  | call func =>
    exact (Inside.need (ctx.spaces.rejects_funcType func)).bind fun _ => inside_apply _ _
  | callIndirect type table =>
    exact (Inside.need (ctx.spaces.rejects_typeAt type)).bind fun _ => htable table fun _ =>
      (inside_requireSame _ _).bind fun _ => inside_apply _ _
  | drop => exact inside_pop.bind fun _ => .pure _
  | select => exact inside_selectNumber
  | selectTyped type | unary op | binary op => exact inside_apply _ _
  | localGet index => exact hlocal index fun _ => inside_pushType _
  | localSet index | localTee index => exact hlocal index fun _ => inside_apply _ _
  | globalGet index => exact hglobal index fun _ => inside_pushType _
  | globalSet index =>
    exact hglobal index fun _ => .ite ((Inside.throw rfl).bind fun _ => inside_apply _ _)
      (inside_apply _ _)
  | tableGet table | tableSet table | tableGrow table | tableFill table =>
    exact htable table fun _ => inside_apply _ _
  | load access arg | store access arg =>
    exact (inside_memArg ctx access arg).bind fun _ => inside_apply _ _
  | memorySize memory => exact (inside_requireMemory ctx memory).bind fun _ => inside_pushType _
  | memoryGrow memory | memoryFill memory =>
    exact (inside_requireMemory ctx memory).bind fun _ => inside_apply _ _
  | i32Const value | i64Const value | f32Const bits | f64Const bits | refNull type =>
    exact inside_pushType _
  | refIsNull => exact inside_popRef.bind fun _ => inside_pushType _
  | refFunc func =>
    exact (Inside.need (ctx.spaces.rejects_funcType func)).bind fun _ => inside_pushType _
  | memoryInit data memory =>
    exact (inside_requireMemory ctx memory).bind fun _ =>
      (Inside.need (ctx.rejects_requireData data)).bind fun _ => inside_apply _ _
  | dataDrop data => exact .need (ctx.rejects_requireData data)
  | memoryCopy dst src =>
    exact (inside_requireMemory ctx dst).bind fun _ =>
      (inside_requireMemory ctx src).bind fun _ => inside_apply _ _
  | tableInit elem table =>
    exact helem elem fun _ => htable table fun _ =>
      (inside_requireSame _ _).bind fun _ => inside_apply _ _
  | elemDrop elem => exact helem elem fun _ => .pure _
  | tableCopy dst src =>
    exact htable dst fun _ => htable src fun _ =>
      (inside_requireSame _ _).bind fun _ => inside_apply _ _
  | tableSize table => exact htable table fun _ => inside_pushType _

namespace Check

theorem pushTypes_ne_error (types : List ValueType) (stack stack' : ControlStack) (fault : Fault) :
    pushTypes types stack ≠ .error fault stack' := by
  induction types generalizing stack with
  | nil => exact nofun
  | cons type types ih => exact ih _

theorem closeScope_onlyRejects : OnlyRejects closeScope := by
  have hrest : OnlyRejects (do
      popResults
      let closed ← need (← get).innermost
      modify fun stack => { stack with scopes := stack.scopes.tail }
      pushTypes closed.results
      return closed) := by
    refine .bind inside_popResults fun _ => .get fun _ ho =>
      .bind (.need (rejects_innermost ho)) fun closed => ?_
    intro stack fault stack' _ h
    obtain h1 | ⟨_, _, _, h2⟩ := bind_eq_error.mp h
    · cases h1
    · obtain h3 | ⟨_, _, _, h4⟩ := bind_eq_error.mp h2
      · exact absurd h3 (pushTypes_ne_error _ _ _ _)
      · cases h4
  refine .get fun _ ho => .bind (.need (rejects_innermost ho)) fun sc => ?_
  exact .ite (.bind (.throw rfl) fun _ => hrest) hrest

end Check

theorem Instr.check_onlyRejects (ctx : BodyContext) (labels : Nat) (i : Instr) :
    Check.OnlyRejects (i.check ctx labels) := by
  by_cases hi : i = .endScope
  · subst hi
    intro stack fault stack' ho h
    obtain h1 | ⟨_, _, _, h2⟩ := bind_eq_error.mp h
    · exact Check.closeScope_onlyRejects _ _ _ ho h1
    · cases h2
  · exact (check_inside ctx labels hi).faults

/-! ## The states of a body -/

theorem Passes.concat {l : List Instr} {sc : Scope} {os : List Scope} {st st' : ControlStack}
    {e0 e : Emission} (h : Passes ctx l st e0 ⟨[], sc :: os⟩ e)
    (hc : i.check ctx e.asm.labels.size ⟨[], sc :: os⟩ = .ok () st') :
    Passes ctx (l ++ [i]) st e0 st' (i.emit ctx ⟨[], sc :: os⟩ e) := by
  generalize hst : (⟨[], sc :: os⟩ : ControlStack) = st1 at h
  induction h with
  | nil =>
    subst hst
    exact .cons hc .nil
  | cons hc' _ ih => exact .cons hc' (ih hc hst)

namespace BodyState

/-- The states of reading instructions in turn. -/
inductive Reached (ctx : BodyContext) (start : BodyState) : BodyState → Prop
  | refl : Reached ctx start start
  | step {s s' : BodyState} {at_ : Nat} {i : Instr} (h : Reached ctx start s)
      (hopen : s.stack.scopes ≠ []) (hs : s.step ctx at_ i = .ok s') : Reached ctx start s'

variable {start : BodyState}

theorem Reached.ready_or_closed (h : Reached ctx start s) (hr : start.stack.Ready) :
    s.stack.Ready ∨ s.stack.scopes = [] := by
  induction h with
  | refl => exact .inl hr
  | @step s s' at_ i _ hopen hs ih =>
    obtain ⟨stack', e', refs'⟩ := s'
    have hready := ih.resolve_right hopen
    exact Instr.check_ready hready ((BodyState.step_eq_ok hready).mp ⟨refs', hs⟩).1

theorem Reached.exists_passes (h : Reached ctx start s) (hr : start.stack.Ready) :
    ∃ l, Passes ctx l start.stack start.emission s.stack s.emission := by
  induction h with
  | refl => exact ⟨[], .nil⟩
  | @step s s' at_ i h hopen hs ih =>
    have hready := (h.ready_or_closed hr).resolve_right hopen
    obtain ⟨stack', e', refs'⟩ := s'
    obtain ⟨hc, rfl⟩ := (BodyState.step_eq_ok hready).mp ⟨refs', hs⟩
    obtain ⟨sc, os, hstack, -⟩ := hready
    obtain ⟨l, hl⟩ := ih
    rw [hstack] at hc hl ⊢
    exact ⟨l ++ [i], hl.concat hc⟩

theorem step_rejects (hr : s.stack.Ready) (at_ : Nat) (i : Instr) : Rejects (s.step ctx at_ i) := by
  intro fault h
  unfold step at h
  split at h
  · next fault' stack' hc =>
      cases h
      exact Instr.check_onlyRejects ctx _ i _ _ _ hr.open_ hc
  · next stack' hc =>
      rw [Instr.lower_eq hr hc] at h
      cases h

end BodyState

/-! ## Closed bodies -/

namespace BodyState

open Assembly (IsBound)

variable {funcIndex : Nat} {type : FuncType} {locals : Array LocalSlot} {nextSlot : Nat}
  {accessors : Accessors} {refs : Array (Nat × Nat)}

theorem start_ready : (start funcIndex type locals nextSlot accessors refs).stack.Ready :=
  ⟨_, _, rfl, Scope.allMarked_function _⟩

variable (h : Reached ctx (start funcIndex type locals nextSlot accessors refs) s)
  (hclosed : s.stack.scopes = [])
include h hclosed

theorem Reached.exists_lowers :
    ∃ (c : Code) (sc : Scope) (e : Emission), c.Lowers ctx [] (Scope.function type.results)
      (start funcIndex type locals nextSlot accessors refs).emission sc e ∧
      s.emission = sc.emitEnd e := by
  obtain ⟨l, hl⟩ := h.exists_passes start_ready
  obtain ⟨c, rfl⟩ := hl.exists_code (Scope.function_kind_ne _) hclosed
  obtain ⟨sc, e, hlow, -, he, -⟩ := (passes_body (Scope.function_kind_ne _)).mp hl
  exact ⟨c, sc, e, hlow, he⟩

theorem Reached.exists_link : ∃ code, s.emission.asm.link = .ok code := by
  obtain ⟨c, sc, e, hl, he⟩ := h.exists_lowers hclosed
  rw [he]
  exact hl.exists_link.1

theorem Reached.bound_once :
    ∃ bound, (Assembly.start funcIndex type locals).Binds bound s.emission.asm ∧
      ∀ op ∈ s.emission.asm.code.toList, ∀ label ∈ op.targets, bound.count label = 1 := by
  obtain ⟨code, hlink⟩ := h.exists_link hclosed
  obtain ⟨c, sc, e, hl, he⟩ := h.exists_lowers hclosed
  obtain ⟨bound, hhistory⟩ := hl.exists_link.2
  rw [← he] at hhistory
  refine ⟨bound, hhistory, fun op hop label hlabel => ?_⟩
  have hnone : ¬ IsBound (Assembly.start funcIndex type locals).labels label := by
    rintro ⟨position, hp⟩
    cases hp
  exact hhistory.count_eq_one hnone ((Assembly.link_eq_ok.mp hlink).1 op hop label hlabel)

end BodyState

end Wasm
