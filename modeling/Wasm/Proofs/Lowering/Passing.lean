import Wasm.Proofs.Lowering.Placement
import Wasm.Proofs.Validation.Body

/-! # Labels while a body is translated

What is emitted stands in the finished code (`Passes.kept`). -/

namespace Wasm

open List Scope

variable {sc : Scope} {os : List Scope} {e e' : Emission} {l l' : List Instr}

variable {ctx : BodyContext} {st st' : ControlStack} {i : Instr} {n : Nat}

/-! ## One instruction -/

theorem Instr.emit_extends_of_ne (ctx : BodyContext) (st : ControlStack) (e : Emission)
    (helse : i ≠ .elseArm) (hend : i ≠ .endScope) : e.Extends (i.emit ctx st e) := by
  have hrefl := Emission.Extends.refl e
  have hreach : e.Extends (if st.isEmitting then i.emitReachable ctx st e else e) := by
    split
    · exact i.emitReachable_extends ctx st e
    · exact hrefl
  cases i with
  | block bt => exact hrefl.newLabel
  | loop bt =>
    show e.Extends
      (if st.isEmitting then e.newLabel.2.newLabel.2.bind _ else e.newLabel.2.newLabel.2)
    split
    · exact hrefl.newLabel.newLabel.bind hrefl.newLabel.labels_le
    · exact hrefl.newLabel.newLabel
  | ifThen bt =>
    show e.Extends
      (if st.isEmitting then e.newLabel.2.newLabel.2.emit _ else e.newLabel.2.newLabel.2)
    split
    · exact hrefl.newLabel.newLabel.emit _
    · exact hrefl.newLabel.newLabel
  | elseArm => exact absurd rfl helse
  | endScope => exact absurd rfl hend
  | _ => exact hreach

theorem Instr.heads_emit (ctx : BodyContext) (st : ControlStack) (e : Emission) (i : Instr) :
    e.Heads (i.emit ctx st e) := by
  by_cases helse : i = .elseArm
  · subst helse
    rw [emit]
    split
    · next sc _ => exact sc.heads_emitElse e
    · exact .refl e
  by_cases hend : i = .endScope
  · subst hend
    rw [emit]
    split
    · next sc _ => exact sc.heads_emitEnd e
    · exact .refl e
  exact (emit_extends_of_ne ctx st e helse hend).heads

theorem passes_append : Passes ctx (l ++ l') st e st' e' ↔
      ∃ st1 e1, Passes ctx l st e st1 e1 ∧ Passes ctx l' st1 e1 st' e' := by
  induction l generalizing st e with
  | nil =>
    constructor
    · intro h; exact ⟨st, e, .nil, h⟩
    · rintro ⟨st1, e1, h, hl⟩; cases h; exact hl
  | cons i l ih =>
    constructor
    · intro h
      cases h with
      | cons hc hl =>
        obtain ⟨st1, e1, h1, h2⟩ := ih.mp hl
        exact ⟨st1, e1, .cons hc h1, h2⟩
    · rintro ⟨st1, e1, h, hl⟩
      cases h with
      | cons hc h => exact .cons hc (ih.mpr ⟨st1, e1, h, hl⟩)

namespace Passes

variable {st'' : ControlStack} {e'' : Emission}

theorem unique (h : Passes ctx l st e st' e') (h' : Passes ctx l st e st'' e'') :
    st'' = st' ∧ e'' = e' := by
  induction h with
  | nil => cases h'; exact ⟨rfl, rfl⟩
  | cons hc _ ih =>
    obtain ⟨st1, hc', hl'⟩ := passes_cons.mp h'
    cases hc.symm.trans hc'
    exact ih hl'

theorem append (h : Passes ctx l st e st' e') :
    Passes ctx (l ++ l') st e st'' e'' ↔ Passes ctx l' st' e' st'' e'' := by
  rw [passes_append]
  constructor
  · rintro ⟨st1, e1, h1, hl⟩
    obtain ⟨rfl, rfl⟩ := h.unique h1
    exact hl
  · intro hl
    exact ⟨st', e', h, hl⟩

theorem eq_nil {base : List Operand} (h : Passes ctx l ⟨base, []⟩ e st' e') : l = [] := by
  cases h
  rfl

theorem heads (h : Passes ctx l st e st' e') : e.Heads e' := by
  induction h with
  | nil => exact (Emission.Extends.refl _).heads
  | cons _ _ ih => exact (Instr.heads_emit ctx _ _ _).trans ih

end Passes

theorem Code.Lowers.passes {sc' : Scope} {c : Code} (h : c.Lowers ctx os sc e sc' e') :
    Passes ctx c.instrs ⟨[], sc :: os⟩ e ⟨[], sc' :: os⟩ e' := by
  have hall := passes_instrs_append.mpr ⟨sc', e', h, Passes.nil⟩
  rwa [append_nil] at hall

theorem Body.compiles_iff_passes {idx : Nat} {acc acc' : Accessors} {b : Body}
    {func : CompiledFunction} :
    b.Compiles ctx idx acc func acc' ↔ ∃ type st e, ctx.spaces.funcType idx = .ok type ∧
        (b.groups ≠ [] → (b.localTypes type.params).length ≤ maxLocals) ∧
        Passes (b.context ctx type.params) (b.code.instrs ++ [.endScope])
          ⟨[], [function type.results]⟩
          (Emission.start idx type (b.localTypes type.params) acc) st e ∧
        e.asm.finish e.nextSlot = .ok func ∧ acc' = e.accessors := by
  constructor
  · intro h
    cases h with
    | @intro type sc e _ ht hmax hl hc hf =>
      exact ⟨type, _, _, ht, hmax,
        (passes_body (function_kind_ne _)).mpr ⟨sc, e, hl, hc, rfl, rfl⟩, hf, rfl⟩
  · rintro ⟨type, st, e, ht, hmax, hp, hf, rfl⟩
    obtain ⟨sc, e1, hl, hc, rfl, -⟩ := (passes_body (function_kind_ne _)).mp hp
    exact .intro ht hmax hl hc hf

/-! ## Labels that were made -/

def Emission.Refers (n : Nat) (e : Emission) : Prop :=
  ∀ op ∈ e.asm.code.toList, ∀ l ∈ op.targets, l.id < n

/-- Labels in use were made, and scopes' ends are not bound. -/
structure Made (st : ControlStack) (e : Emission) : Prop where
  scopes : ∀ sc ∈ st.scopes, sc.label.id < e.asm.labels.size ∧ sc.Pending e.asm.labels
  apart : st.scopes.Pairwise fun sc o => o.EndsBefore sc.endLabel.id
  code : e.Refers e.asm.labels.size

theorem Emission.Refers.emit (h : e.Refers n) {op : Op Label} (hop : ∀ l ∈ op.targets, l.id < n) :
    (e.emit op).Refers n := by
  intro op' hop'
  rw [Emission.code_emit, Array.toList_push, mem_append, mem_singleton] at hop'
  rcases hop' with hop' | rfl
  · exact h op' hop'
  · exact hop

theorem Emission.Refers.emitEnd (h : e.Refers n) (sc : Scope) : (sc.emitEnd e).Refers n := by
  have hbasic : ∀ {e : Emission} (op : BasicOp), e.Refers n → (e.basic op).Refers n :=
    fun _ h => h.emit (forall_mem_nil _)
  cases hd : sc.dead with
  | true => rw [Scope.emitEnd, hd]; exact h
  | false =>
    have hbind : (sc.bindLabels e).Refers n := by
      unfold Refers
      rw [sc.code_bindLabels]
      exact h
    rw [sc.emitEnd_eq e hd]
    split
    · refine hbasic _ ?_
      split
      · exact hbasic _ hbind
      · exact hbind
    · exact hbind

theorem Emission.Refers.emitElse (h : e.Refers n) (hend : sc.endLabel.id < n) :
    (sc.emitElse e).Refers n := by
  have hjump : (if sc.unreachable then e else e.emit (.jump sc.endLabel)).Refers n := by
    split
    · exact h
    · exact h.emit (forall_mem_singleton.mpr hend)
  unfold Scope.emitElse
  split
  · exact h
  · dsimp only
    split
    · exact hjump
    · exact hjump

namespace Made

section

variable (h : Made ⟨[], sc :: os⟩ e)
include h

theorem refers_plain (hi : i.isPlain = true) {unr : Bool} {ops : List Operand}
    (hm : Instr.Moves ctx ((sc :: os).map branchTypes) i sc.unreachable sc.operands unr ops) :
    (i.emit ctx ⟨[], sc :: os⟩ e).Refers (i.emit ctx ⟨[], sc :: os⟩ e).asm.labels.size := by
  rw [Instr.emit_of_isPlain hi]
  split
  · have hb := @Instr.builds _ (fun l => l.id < e.asm.labels.size) ctx i e ⟨[], sc :: os⟩
      Emission.admits_all (fun s hs => (h.scopes s hs).1)
      (fun depth hd => by
        obtain ⟨s, hs, heq⟩ := hm.exists_target hd
        exact heq ▸ (h.scopes s hs).1)
      fun _ _ _ => trivial
    intro op hop l hl
    rcases hb.settled (fun op hop l hl => .inr (h.code op hop l hl)) op hop l hl with hb' | hlt | hl
    · exact hb'.lt
    · exact Nat.lt_of_lt_of_le hlt hb.extended.labels_le
    · cases hl
  · exact h.code

theorem holding (hx : e.Extends e') (hcode : e'.Refers e'.asm.labels.size) (unr : Bool)
    (ops : List Operand) :
    Made ⟨[], sc.holding unr ops :: os⟩ e' where
  scopes := by
    have hold : ∀ s ∈ sc :: os, s.label.id < e'.asm.labels.size ∧ s.Pending e'.asm.labels :=
      fun s hs => ⟨Nat.lt_of_lt_of_le (h.scopes s hs).1 hx.labels_le, (h.scopes s hs).2.extends hx⟩
    obtain ⟨⟨hlt, hp⟩, hos⟩ := forall_mem_cons.mp hold
    exact forall_mem_cons.mpr ⟨⟨hlt, hp.endLabel, hp.elseLabel⟩, hos⟩
  apart := pairwise_cons.mpr (pairwise_cons.mp h.apart)
  code := hcode

theorem opens (hx : e.Extends e') (hcode : e'.Refers e'.asm.labels.size) (unr : Bool)
    (ops : List Operand) {inner : Scope} (hend : inner.endLabel = ⟨e.asm.labels.size⟩)
    (hlabel : inner.label.id < e'.asm.labels.size) (hp : inner.Pending e'.asm.labels) :
    Made ⟨[], inner :: sc.holding unr ops :: os⟩ e' where
  scopes := forall_mem_cons.mpr ⟨⟨hlabel, hp⟩, (h.holding hx hcode unr ops).scopes⟩
  apart := by
    refine pairwise_cons.mpr ⟨?_, (h.holding hx hcode unr ops).apart⟩
    have hold : ∀ s ∈ sc :: os, s.EndsBefore inner.endLabel.id :=
      fun s hs => hend ▸ (h.scopes s hs).2.endsBefore
    exact forall_mem_cons.mpr (forall_mem_cons.mp hold)
  code := hcode

theorem outer (hle : e.asm.labels.size ≤ e'.asm.labels.size)
    (hs : ∀ i, i < sc.endLabel.id → e'.asm.labels[i]? = e.asm.labels[i]?) :
    ∀ s ∈ os, s.label.id < e'.asm.labels.size ∧ s.Pending e'.asm.labels := by
  intro s hmem
  obtain ⟨hlt, hp⟩ := h.scopes s (mem_cons_of_mem sc hmem)
  exact ⟨Nat.lt_of_lt_of_le hlt hle, hp.congr ((pairwise_cons.mp h.apart).1 s hmem) hs⟩

theorem ends : ∀ s ∈ os, s.label.id < (sc.emitEnd e).asm.labels.size ∧
      s.Pending (sc.emitEnd e).asm.labels := by
  refine h.outer (sc.heads_emitEnd e).labels_le fun i hi => sc.labels_emitEnd e (Nat.ne_of_lt hi) ?_
  intro label hl
  have := ((h.scopes sc mem_cons_self).2.elseLabel label hl).1
  omega

theorem step (hc : i.check ctx e.asm.labels.size ⟨[], sc :: os⟩ = .ok () st) :
    Made st (i.emit ctx ⟨[], sc :: os⟩ e) := by
  obtain ⟨hlt, hp⟩ := h.scopes sc mem_cons_self
  have hcode : e.Refers (i.emit ctx ⟨[], sc :: os⟩ e).asm.labels.size := fun op hop l hl =>
    Nat.lt_of_lt_of_le (h.code op hop l hl) (i.heads_emit ctx ⟨[], sc :: os⟩ e).labels_le
  obtain ⟨hsc, hos⟩ := pairwise_cons.mp h.apart
  have hx := @Instr.emit_extends_of_ne i ctx ⟨[], sc :: os⟩ e
  cases Instr.check_iff.mp hc with
  | plain hi hm =>
    exact h.holding (Instr.emit_extends hi ctx sc os e) (h.refers_plain hi hm) _ _
  | @block _ type _ _ _ _ _ =>
    have hpend := @Scope.pending_block type sc e
    exact h.opens (hx Instr.noConfusion Instr.noConfusion) hcode _ _ rfl hpend.endLabel.lt hpend
  | loop _ _ =>
    refine h.opens (hx Instr.noConfusion Instr.noConfusion) ?_ _ _ rfl ?_ pending_loop
    · intro op hop
      rw [emit_loop_quiet.code] at hop
      exact hcode op hop
    · rw [emit_loop]
      split <;> simp [Scope.inner]
  | @ifThen bt type _ _ _ _ _ =>
    have hpend := @Scope.pending_ifThen ctx type sc e os bt
    refine h.opens (hx Instr.noConfusion Instr.noConfusion) ?_ _ _ rfl hpend.endLabel.lt hpend
    have hother := (hpend.elseLabel _ rfl).2.lt
    rw [emit_ifThen] at hcode hother ⊢
    split
    · next hem =>
        rw [if_pos hem] at hcode hother
        exact Emission.Refers.emit hcode (forall_mem_singleton.mpr hother)
    · next hem => exact (if_neg hem ▸ hcode :)
  | elseArm _ _ =>
    have hle := (sc.heads_emitElse e).labels_le
    refine ⟨forall_mem_cons.mpr ⟨⟨Nat.lt_of_lt_of_le hlt hle, hp.toElse⟩, ?_⟩,
      pairwise_cons.mpr ⟨hsc, hos⟩,
      hcode.emitElse (Nat.lt_of_lt_of_le hp.endLabel.lt hle)⟩
    refine h.outer hle fun i hi => labels_emitElse fun label hl => ?_
    have := (hp.elseLabel label hl).1
    omega
  | endScope _ _ =>
    obtain ⟨⟨hlt', ho⟩, hmore⟩ := forall_mem_cons.mp h.ends
    exact ⟨forall_mem_cons.mpr ⟨⟨hlt', ho.endLabel, ho.elseLabel⟩, hmore⟩,
      pairwise_cons.mpr (pairwise_cons.mp hos), hcode.emitEnd sc⟩
  | last _ _ => exact ⟨forall_mem_nil _, .nil, hcode.emitEnd sc⟩

theorem kept : e.Kept (i.emit ctx ⟨[], sc :: os⟩ e) := by
  obtain ⟨-, hp⟩ := h.scopes sc mem_cons_self
  by_cases helse : i = .elseArm
  · subst helse
    exact kept_emitElse hp
  by_cases hend : i = .endScope
  · subst hend
    exact Scope.kept_emitEnd hp
  exact (Instr.emit_extends_of_ne ctx _ e helse hend).kept

end

theorem start (funcIndex : Nat) (type : FuncType) (types results : List ValueType)
    (accessors : Accessors) :
    Made ⟨[], [function results]⟩ (Emission.start funcIndex type types accessors) where
  scopes := forall_mem_singleton.mpr ⟨Nat.zero_lt_one, rfl, fun label hl => by cases hl⟩
  apart := pairwise_singleton _ _
  code op hop := by cases hop

end Made

namespace Passes

theorem made (h : Passes ctx l st e st' e') (hm : Made st e) : Made st' e' := by
  induction h with
  | nil => exact hm
  | cons hc _ ih => exact ih (hm.step hc)

theorem kept (h : Passes ctx l st e st' e') (hm : Made st e) : e.Kept e' := by
  induction h with
  | nil => exact .refl _
  | cons hc _ ih => exact hm.kept.trans (ih (hm.step hc))

end Passes

end Wasm
