import Wasm.Proofs.Lowering.Placement
import Wasm.Proofs.Validation.Faults

/-! # Where operands have types

Unknown operands stay in scopes that are marked (`Scope.Nested`). -/

namespace Wasm

open List

variable {ctx : BodyContext} {sc sc' : Scope} {os scopes scopes' : List Scope} {st : ControlStack}

/-! ## The invariant -/

namespace Scope

/-- Scopes are marked, and dead exactly inside a lost one. -/
inductive Nested : List Scope → Prop
  | nil : Nested []
  | cons {sc : Scope} {os : List Scope} (hm : sc.Marked)
    (hd : sc.dead = true ↔ ∃ o ∈ os, o.Lost) (h : Nested os) : Nested (sc :: os)

theorem Lost.congr (hu : sc'.unreachable = sc.unreachable) (hd : sc'.dead = sc.dead) :
    sc'.Lost ↔ sc.Lost := by
  rw [Lost, hu, hd]
  rfl

theorem exists_lost_cons : (∃ o ∈ sc :: os, o.Lost) ↔ sc.Lost ∨ ∃ o ∈ os, o.Lost := by
  simp only [mem_cons, or_and_right, exists_or, exists_eq_left]

theorem Nested.exists_lost (h : Nested (sc :: os)) : (∃ o ∈ sc :: os, o.Lost) ↔ sc.Lost := by
  cases h with
  | cons _ hd _ =>
    rw [exists_lost_cons, ← hd]
    exact or_iff_left_of_imp .inr

theorem Nested.turns (h : Nested scopes) (ht : Turns scopes scopes') : Nested scopes' := by
  cases ht with
  | keeps hd hm =>
    cases h with
    | cons hm0 hd0 h => exact .cons (hm hm0) (hd ▸ hd0) h
  | opens hu hk hdead hu' hd hm =>
    have hlost := h.exists_lost
    cases h with
    | cons hm0 hd0 h =>
      refine .cons (fun hmem => absurd hmem hk) ?_ (.cons (hm hm0) (hd ▸ hd0) h)
      rw [hdead, ← hlost, exists_lost_cons, exists_lost_cons, Lost.congr hu' hd]
  | closes hu hd hm =>
    cases h with
    | cons _ _ h =>
      cases h with
      | cons hm0 hd0 h => exact .cons (hm hm0) (hd ▸ hd0) h
  | ends => exact .nil

theorem Nested.suffix (h : Nested scopes) (hs : scopes' <:+ scopes) : Nested scopes' := by
  induction h with
  | nil => exact suffix_nil.mp hs ▸ .nil
  | cons hm hd h ih =>
    rcases suffix_cons_iff.mp hs with rfl | hs
    · exact .cons hm hd h
    · exact ih hs

theorem Nested.marked (h : Nested scopes) : ∀ sc ∈ scopes, sc.Marked := by
  induction h with
  | nil => exact forall_mem_nil _
  | cons hm _ _ ih => exact forall_mem_cons.mpr ⟨hm, ih⟩

theorem Nested.allLive (h : Nested (sc :: os)) (he : sc.isEmitting = true) :
    AllLive (sc :: os) := by
  have hkept : ∀ o ∈ sc :: os, ¬ o.Lost := fun o ho hlost => by
    rw [lost_iff.mp (h.exists_lost.mp ⟨o, ho, hlost⟩)] at he
    cases he
  intro o ho
  have hnot := hkept o ho
  rw [Lost, not_or, Bool.not_eq_true, Bool.not_eq_true] at hnot
  refine ⟨hnot.1, hnot.2, fun x hx heq => hkept o ho (.inl (h.marked o ho (heq ▸ hx)))⟩

theorem Turns.exists_dead_eq {outer : List Scope} (h : Turns scopes scopes')
    (hs : sc :: outer <:+ scopes') (hlt : outer.length < scopes.length) :
    ∃ sc0, sc0 :: outer <:+ scopes ∧ sc0.dead = sc.dead := by
  cases h with
  | keeps hd _ =>
    rcases suffix_cons_iff.mp hs with heq | hs
    · cases heq
      exact ⟨_, suffix_rfl, hd.symm⟩
    · exact ⟨sc, hs.trans (suffix_cons _ _), rfl⟩
  | opens _ _ _ _ hd _ =>
    rcases suffix_cons_iff.mp hs with heq | hs
    · cases heq
      exact absurd hlt (Nat.lt_irrefl _)
    · rcases suffix_cons_iff.mp hs with heq | hs
      · cases heq
        exact ⟨_, suffix_rfl, hd.symm⟩
      · exact ⟨sc, hs.trans (suffix_cons _ _), rfl⟩
  | closes _ hd _ =>
    rcases suffix_cons_iff.mp hs with heq | hs
    · cases heq
      exact ⟨_, suffix_cons _ _, hd.symm⟩
    · exact ⟨sc, hs.trans ((suffix_cons _ _).trans (suffix_cons _ _)), rfl⟩
  | ends => cases suffix_nil.mp hs

end Scope

namespace Passes

variable {l : List Instr} {st' : ControlStack} {e e' : Emission} {results : List ValueType}

theorem nested (h : Passes ctx l st e st' e') (hn : Scope.Nested st.scopes)
    (hb : .unknown ∉ st.base) : Scope.Nested st'.scopes ∧ .unknown ∉ st'.base := by
  induction h with
  | nil => exact ⟨hn, hb⟩
  | cons hc _ ih =>
    obtain ⟨ht, hb'⟩ := Instr.check_turns hc
    exact ih (hn.turns ht) hb'

theorem open_or_closed (h : Passes ctx l st e st' e')
    (ho : (∃ sc os, st = ⟨[], sc :: os⟩) ∨ st.scopes = []) :
    (∃ sc os, st' = ⟨[], sc :: os⟩) ∨ st'.scopes = [] := by
  induction h with
  | nil => exact ho
  | cons hc _ ih => exact ih (Instr.check_scopes hc)

theorem nested_function (h : Passes ctx l ⟨[], [Scope.function results]⟩ e st e') :
    Scope.Nested st.scopes ∧ .unknown ∉ st.base := by
  refine h.nested (.cons (fun hmem => ?_) ⟨fun h => ?_, fun h => ?_⟩ .nil) not_mem_nil
  · cases hmem
  · cases h
  · obtain ⟨o, ho, -⟩ := h
    cases ho

theorem exists_live (h : Passes ctx l ⟨[], [Scope.function results]⟩ e st e')
    (hem : st.isEmitting = true) : ∃ sc os, st = ⟨[], sc :: os⟩ ∧ Scope.AllLive (sc :: os) := by
  obtain ⟨sc, os, rfl⟩ | hnil := h.open_or_closed (.inl ⟨_, _, rfl⟩)
  · exact ⟨sc, os, rfl, h.nested_function.1.allLive hem⟩
  · rw [ControlStack.isEmitting, hnil] at hem
    cases hem

end Passes

theorem BodyState.Reached.turns {funcIndex nextSlot at_ : Nat} {type : FuncType}
    {locals : Array LocalSlot} {accessors : Accessors} {refs : Array (Nat × Nat)} {s s' : BodyState}
    {i : Instr} (h : Reached ctx (start funcIndex type locals nextSlot accessors refs) s)
    (hopen : s.stack.scopes ≠ []) (hs : s.step ctx at_ i = .ok s') :
    Scope.Turns s.stack.scopes s'.stack.scopes := by
  have hready := (h.ready_or_closed start_ready).resolve_right hopen
  obtain ⟨stack', e', refs'⟩ := s'
  obtain ⟨hc, -⟩ := (BodyState.step_eq_ok hready).mp ⟨refs', hs⟩
  obtain ⟨sc, os, hstack, -⟩ := hready
  rw [hstack] at hc ⊢
  exact (Instr.check_turns hc).1

/-! ## What branches discard -/

namespace ControlStack

/-- A branch to `target` discards operands of these types. -/
structure Discards (stack : ControlStack) (depth : Nat) (target : Scope) (types : List ValueType) :
    Prop where
  scopeAt : stack.scopeAt depth = .ok target
  excess : stack.excess depth = .ok types
  room : target.branchTypes.length + stack.height depth ≤ stack.depth
  count : types.length = stack.depth - target.branchTypes.length - stack.height depth
  operands : (known types).reverse =
    (stack.operands.drop target.branchTypes.length).take types.length

theorem operands_eq (scopes : List Scope) (depth : Nat) : operands ⟨[], scopes⟩ =
      Scope.above scopes depth ++ (scopes.drop (depth + 1)).flatMap Scope.operands := by
  rw [operands, append_nil, Scope.above, ← flatMap_append, take_append_drop]

theorem depth_eq (scopes : List Scope) (depth : Nat) : ControlStack.depth ⟨[], scopes⟩ =
      (Scope.above scopes depth).length + height ⟨[], scopes⟩ depth := by
  rw [ControlStack.depth, operands_eq scopes depth, length_append, height, append_nil]

theorem exists_discards {depth : Nat} (hl : Scope.AllLive (sc :: os))
    (hc : Check.branch depth ⟨[], sc :: os⟩ = .ok () st) :
    ∃ target types, Discards ⟨[], sc :: os⟩ depth target types := by
  obtain ⟨carried, rest, hlabel, htake, -⟩ := Check.branch_eq_ok.mp hc
  obtain ⟨target, hs, rfl⟩ := Check.labels_getElem?.mp hlabel
  have hsc := hl sc mem_cons_self
  have hops := operands_eq (sc :: os) depth
  have hknown := hl.above depth
  have hle : target.branchTypes.length ≤ (Scope.above (sc :: os) depth).length := by
    rw [hsc.reachable] at htake
    exact Scope.le_above (Operand.eq_append_of_take? hsc.known htake) depth
  have hdepth := depth_eq (sc :: os) depth
  have htypes : known (((Scope.above (sc :: os) depth).drop
      target.branchTypes.length).reverse.filterMap Operand.type?) =
      ((Scope.above (sc :: os) depth).drop target.branchTypes.length).reverse :=
    known_filterMap_type? fun o ho => hknown o (mem_of_mem_drop (mem_reverse.mp ho))
  have hlen := congrArg List.length htypes
  rw [length_known, length_reverse, length_drop] at hlen
  have hscope : scopeAt ⟨[], sc :: os⟩ depth = .ok target := Check.scopeAt_eq_ok.mpr hs
  refine ⟨target, _, hscope, except_bind_eq_ok.mpr ⟨target, hscope, rfl⟩, by omega, ?_, ?_⟩
  · exact hlen.trans (by omega)
  · refine (congrArg List.reverse htypes).trans ?_
    rw [reverse_reverse, hops, drop_append_of_le_length hle]
    exact (take_left' (by rw [length_drop]; exact hlen.symm)).symm

end ControlStack

namespace BodyState

/-- **The unknown type does not get into code that is emitted.**  Where code is emitted no open
    scope is unreachable or dead, each operand has a type, and a branch discards exactly what its
    target does not have. -/
theorem Reached.known_where_live {funcIndex nextSlot : Nat} {type : FuncType}
    {locals : Array LocalSlot} {accessors : Accessors} {refs : Array (Nat × Nat)} {s : BodyState}
    (h : Reached ctx (start funcIndex type locals nextSlot accessors refs) s) :
    (∀ sc ∈ s.stack.scopes, .unknown ∈ sc.operands → sc.unreachable = true) ∧
    .unknown ∉ s.stack.base ∧
    (∀ sc outer, sc :: outer <:+ s.stack.scopes →
      (sc.dead = true ↔ ∃ o ∈ outer, o.unreachable = true ∨ o.dead = true)) ∧
    (∀ at_ i s', s.stack.scopes ≠ [] → s.step ctx at_ i = .ok s' →
      ∀ sc outer, sc :: outer <:+ s'.stack.scopes → outer.length < s.stack.scopes.length →
        ∃ sc0, sc0 :: outer <:+ s.stack.scopes ∧ sc0.dead = sc.dead) ∧
    (s.stack.isEmitting = true → (∀ sc ∈ s.stack.scopes, sc.unreachable = false ∧ sc.dead = false) ∧
      (∀ o ∈ s.stack.operands, ∃ t, o = .known t) ∧
      -- a branch is judged with all operands or behind the condition or index
      ∀ stack, stack = s.stack ∨ (∃ o, Check.popType .i32 s.stack = .ok o stack) →
        ∀ depth stack', Check.branch depth stack = .ok () stack' →
          ∃ target types, stack.Discards depth target types) := by
  obtain ⟨l, hl⟩ := h.exists_passes start_ready
  obtain ⟨hnested, hbase⟩ := hl.nested_function
  refine ⟨hnested.marked, hbase, fun sc outer hs => ?_, fun at_ i s' hopen hstep sc outer hs hlt =>
    (h.turns hopen hstep).exists_dead_eq hs hlt, fun hem => ?_⟩
  · cases hnested.suffix hs with
    | cons _ hd _ => exact hd
  · obtain ⟨sc, os, hstack, hlive⟩ := hl.exists_live hem
    rw [hstack]
    refine ⟨fun o ho => ⟨(hlive o ho).reachable, (hlive o ho).kept⟩, fun o ho => ?_, ?_⟩
    · rw [ControlStack.operands, append_nil] at ho
      obtain ⟨x, hx, hmem⟩ := mem_flatMap.mp ho
      cases o with
      | known t => exact ⟨t, rfl⟩
      | unknown => exact absurd rfl ((hlive x hx).known _ hmem)
    · rintro stack (rfl | ⟨o, hpop⟩) depth stack' hc
      · exact ControlStack.exists_discards hlive hc
      · obtain ⟨rest, hp, -, rfl⟩ := Check.popType_eq_ok.mp hpop
        have hsc := hlive sc mem_cons_self
        rw [hsc.reachable, Operand.pop?_false_eq] at hp
        refine ControlStack.exists_discards (hlive.holding fun x hx => ?_) hc
        exact hsc.known x (hp ▸ mem_cons_of_mem o hx)

/-- A conditional branch in a block discards one operand of it. -/
theorem Reached.known_where_live_inBlock :
    ∃ s o stack, Reached default (start 0 ⟨[], []⟩ #[] 0 default #[]) s ∧
      s.stack.isEmitting = true ∧ s.stack.depth = 3 ∧ Check.popType .i32 s.stack = .ok o stack ∧
      ∃ target types, stack.Discards 0 target types := by
  have h1 := (@Reached.refl default (start 0 ⟨[], []⟩ #[] 0 default #[])).step
    (cons_ne_nil _ _) (show BodyState.step default 0 (.i32Const 1) _ = .ok _ from rfl)
  have h2 := h1.step (cons_ne_nil _ _)
    (show BodyState.step default 2 (.block .empty) _ = .ok _ from rfl)
  have h3 := h2.step (cons_ne_nil _ _)
    (show BodyState.step default 4 (.i32Const 2) _ = .ok _ from rfl)
  have h4 := h3.step (cons_ne_nil _ _)
    (show BodyState.step default 6 (.i32Const 3) _ = .ok _ from rfl)
  obtain ⟨-, -, -, -, hlive⟩ := h4.known_where_live
  exact ⟨_, _, _, h4, rfl, rfl, rfl, (hlive rfl).2.2 _ (.inr ⟨_, rfl⟩) 0 _ rfl⟩

end BodyState

end Wasm
