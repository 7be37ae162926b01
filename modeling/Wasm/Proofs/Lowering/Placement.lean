import Wasm.Proofs.Lowering.Branches
import Wasm.Proofs.Lowering.Labels

/-! # Where lowered code stands

`Code.Laid` gives the positions of the parts of code in the finished body. -/

namespace Wasm

open List
open Assembly (place IsFree)

variable {e' fin : Emission} {scopes : List Scope} {base : Nat} {ctx : BodyContext}

variable {label : Label} {type : FuncType}

namespace Emission

/-- What was emitted stands in `fin` for good. -/
structure Kept (e fin : Emission) : Prop extends heads : Heads e fin where
  bound : ∀ (i p : Nat), e.asm.labels[i]? = some (some p) → fin.asm.labels[i]? = some (some p)

theorem Extends.kept {e : Emission} (h : e.Extends e') : e.Kept e' where
  heads := h.heads
  bound i _ hp := (h.labels i (Array.getElem?_eq_some_iff.mp hp).1).trans hp

theorem kept_bind {e : Emission} (h : IsFree e.asm.labels label) : e.Kept (e.bind label) where
  heads := e.heads_bind label
  bound i p hp := by
    rw [labels_bind, Array.getElem?_setIfInBounds_ne]
    · exact hp
    · rintro rfl
      cases h.symm.trans hp

namespace Kept

variable {e : Emission}

theorem refl (e : Emission) : e.Kept e := (Extends.refl e).kept

theorem trans (h : e.Kept e') (h' : e'.Kept fin) : e.Kept fin :=
  ⟨h.heads.trans h'.heads, fun i p hp => h'.bound i p (h.bound i p hp)⟩

theorem place_eq (h : e.Kept fin) {p : Nat}
    (hb : e.asm.labels[label.id]? = some (some p)) : place fin.asm.labels label = p :=
  Assembly.place_eq (h.bound _ _ hb)

end Kept

/-! ## Where branches stand -/

variable {depth : Nat}

theorem lt_size_branch {target : Scope} (e : Emission) (h : scopes[depth]? = some target)
    (hl : Scope.AllLive scopes) :
    e.asm.code.size < (e.branch ⟨[], scopes⟩ depth).asm.code.size := by
  obtain ⟨slots, hasm, -⟩ := e.branch_spec h hl
  have hsome : branchOps slots (Scope.surplus scopes depth target) target.label ≠ [] := by
    unfold branchOps
    split
    · exact cons_ne_nil _ _
    · exact append_ne_nil_of_right_ne_nil _ (cons_ne_nil _ _)
  rw [hasm, Array.size_append, size_toArray]
  exact Nat.lt_add_of_pos_right (length_pos_iff.mpr hsome)

/-- A branch is made from a position on. -/
inductive Diverts (fin : Emission) (base : Nat) (scopes : List Scope) (depth start stop : Nat)
    (target : Scope) : Nat → Prop
  | jump {op : Op Label} (hzero : Scope.surplus scopes depth target = 0)
      (hop : op ∈ fin.asm.code.toList) (hlabel : target.label ∈ op.targets) :
      Diverts fin base scopes depth start stop target (place fin.asm.labels target.label)
  | code {e : Emission} (hsep : e.Separate base) (hlt : start < e.asm.code.size)
      (hheads : (e.branch ⟨[], scopes⟩ depth).Heads fin)
      (hstop : (e.branch ⟨[], scopes⟩ depth).asm.code.size ≤ stop) :
      Diverts fin base scopes depth start stop target e.asm.code.size

variable {e : Emission} {target : Scope}

theorem Kept.branchIf (h : (e.branchIf ⟨[], scopes⟩ depth).Kept fin)
    (ht : scopes[depth]? = some target) (hl : Scope.AllLive scopes) (hsep : e.Separate base) :
    ∃ label, (fin.asm.code[e.asm.code.size]? = some (.jumpIf label) ∧
        (e.branchIf ⟨[], scopes⟩ depth).asm.code.size = e.asm.code.size + 1 ∧
        Diverts fin base scopes depth e.asm.code.size
          (e.branchIf ⟨[], scopes⟩ depth).asm.code.size target (place fin.asm.labels label)) ∨
      (fin.asm.code[e.asm.code.size]? = some (.jumpUnless label) ∧
        place fin.asm.labels label = (e.branchIf ⟨[], scopes⟩ depth).asm.code.size ∧
        Diverts fin base scopes depth e.asm.code.size
          (e.branchIf ⟨[], scopes⟩ depth).asm.code.size target (e.asm.code.size + 1)) := by
  rcases e.branchIf_spec ht hl with ⟨hzero, heq⟩ | heq
  · rw [heq] at h ⊢
    have hop : fin.asm.code[e.asm.code.size]? = some (.jumpIf target.label) :=
      h.code_getElem? (by rw [code_emit, Array.getElem?_push_size])
    refine ⟨target.label, .inl ⟨hop, ?_, .jump hzero (Array.mem_of_getElem? hop).val mem_cons_self⟩⟩
    rw [code_emit, Array.size_push]
  · rw [heq] at h ⊢
    have hheads := (heads_bind _ _).trans h.heads
    have hsize : (e.newLabel.2.emit (.jumpUnless ⟨e.asm.labels.size⟩)).asm.code.size =
        e.asm.code.size + 1 := by
      rw [code_emit, Array.size_push, code_newLabel]
    refine ⟨⟨e.asm.labels.size⟩, .inr ⟨?_, h.place_eq ?_, ?_⟩⟩
    · refine ((extends_branch _ _ _).heads.trans hheads).code_getElem? ?_
      exact Array.getElem?_push_size
    · rw [labels_bind, labels_branch, Array.getElem?_setIfInBounds_self_of_lt]
      · rfl
      · simp
    · rw [← hsize]
      exact .code hsep (hsize ▸ Nat.lt_succ_self _) hheads (Nat.le_refl _)

theorem Kept.branchTable {depths : List Nat} {default : Nat}
    (h : (e.branchTable ⟨[], scopes⟩ depths default).Kept fin) (hl : Scope.AllLive scopes)
    (hsep : e.Separate base) :
    ∃ (labels : List Label) (last : Label),
      fin.asm.code[e.asm.code.size]? = some (.jumpTable labels.toArray last) ∧
      ∀ (i : Nat) (target : Scope), scopes[depths[i]?.getD default]? = some target →
        Diverts fin base scopes (depths[i]?.getD default) e.asm.code.size
          (e.branchTable ⟨[], scopes⟩ depths default).asm.code.size target
          (place fin.asm.labels (labels[i]?.getD last)) := by
  obtain ⟨labels, last, hcode, hreach⟩ := @branchTable_spec ⟨[], scopes⟩ e depths default
  have hop : fin.asm.code[e.asm.code.size]? = some (.jumpTable labels.toArray last) := by
    obtain ⟨more, hmore⟩ := hcode
    refine h.code_getElem? ?_
    rw [← Array.getElem?_toList, ← hmore, append_assoc, ← Array.length_toList,
      getElem?_append_right (Nat.le_refl _), Nat.sub_self]
    rfl
  refine ⟨labels, last, hop, fun i target ht => ?_⟩
  rcases hreach i with ⟨hplain, hlabel⟩ | ⟨-, hle, -, e1, hbound, hheads, hsep1⟩
  · rw [isPlain_eq ht hl] at hplain
    have hmem := mem_of_getElem? (getElem?_append_getD labels last i)
    rw [hlabel, target_eq ht] at hmem ⊢
    exact .jump (of_decide_eq_true hplain) (Array.mem_of_getElem? hop).val hmem
  · rw [h.place_eq hbound]
    exact @Diverts.code _ _ _ _ _ _ _ (e1.bind (labels[i]?.getD last)) (hsep1 base hsep)
      (lt_of_labels_branchTable hle hbound) (hheads.trans h.heads) hheads.code_size

end Emission

/-! ## The ends of scopes -/

def Emission.epilogueOps (results : List ValueType) : List (Op Label) :=
  match Carrier.bundleFor? results with
  | some carrier => [.basic (.pack carrier), .basic .ret]
  | none => [.basic .ret]

theorem Emission.code_epilogue (e : Emission) (results : List ValueType) :
    (e.epilogue results).asm.code = e.asm.code ++ (epilogueOps results).toArray := by
  unfold epilogue epilogueOps
  cases Carrier.bundleFor? results with
  | some carrier => exact Array.ext' (by simp [basic_eq_emit])
  | none => exact Array.push_eq_append

namespace Scope

def bindLabels (sc : Scope) (e : Emission) : Emission :=
  Emission.bind (match sc.elseLabel with
    | some label => e.bind label
    | none => e) sc.endLabel

variable (sc : Scope) (e : Emission)

theorem code_bindLabels : (sc.bindLabels e).asm.code = e.asm.code := by
  unfold bindLabels
  split <;> rfl

theorem emitEnd_eq (hd : sc.dead = false) :
    sc.emitEnd e = if sc.kind = .function then (sc.bindLabels e).epilogue sc.results
      else sc.bindLabels e := by
  unfold emitEnd
  rw [hd]
  rfl

theorem code_emitEnd (hk : sc.kind ≠ .function) : (sc.emitEnd e).asm.code = e.asm.code := by
  cases hd : sc.dead with
  | true => rw [emitEnd, hd]; rfl
  | false => rw [emitEnd_eq sc e hd, if_neg hk, code_bindLabels]

theorem labels_emitEnd_eq (hd : sc.dead = false) :
    (sc.emitEnd e).asm.labels = (sc.bindLabels e).asm.labels := by
  rw [emitEnd_eq sc e hd]
  split
  · unfold Emission.epilogue
    split <;> rfl
  · rfl

variable {i : Nat} {labels : Array (Option Nat)} {os : List Scope} {bt : BlockType}

theorem labels_emitEnd (hend : i ≠ sc.endLabel.id)
    (helse : ∀ label, sc.elseLabel = some label → i ≠ label.id) :
    (sc.emitEnd e).asm.labels[i]? = e.asm.labels[i]? := by
  cases hd : sc.dead with
  | true => rw [emitEnd, hd]; rfl
  | false =>
    rw [labels_emitEnd_eq sc e hd, bindLabels, Emission.labels_bind,
      Array.getElem?_setIfInBounds_ne hend.symm]
    split
    · next label hl =>
        rw [Emission.labels_bind, Array.getElem?_setIfInBounds_ne (helse label hl).symm]
    · rfl

theorem endLabel_emitEnd (hd : sc.dead = false) (hlt : sc.endLabel.id < e.asm.labels.size) :
    (sc.emitEnd e).asm.labels[sc.endLabel.id]? = some (some e.asm.code.size) := by
  rw [labels_emitEnd_eq sc e hd, bindLabels, Emission.labels_bind]
  split
  · rw [Array.getElem?_setIfInBounds_self_of_lt]
    · rfl
    · rw [Emission.labels_bind, Array.size_setIfInBounds]; exact hlt
  · rw [Array.getElem?_setIfInBounds_self_of_lt hlt]

theorem elseLabel_emitEnd (hd : sc.dead = false) (hl : sc.elseLabel = some label)
    (hne : label.id ≠ sc.endLabel.id) (hlt : label.id < e.asm.labels.size) :
    (sc.emitEnd e).asm.labels[label.id]? = some (some e.asm.code.size) := by
  rw [labels_emitEnd_eq sc e hd, bindLabels, Emission.labels_bind,
    Array.getElem?_setIfInBounds_ne hne.symm, hl]
  rw [Emission.labels_bind, Array.getElem?_setIfInBounds_self_of_lt hlt]

theorem heads_bindLabels : e.Heads (sc.bindLabels e) := by
  unfold bindLabels
  split
  · exact (e.heads_bind _).trans (Emission.heads_bind _ _)
  · exact e.heads_bind _

theorem heads_emitEnd : e.Heads (sc.emitEnd e) := by
  cases hd : sc.dead with
  | true => rw [emitEnd, hd]; exact (Emission.Extends.refl e).heads
  | false =>
    rw [emitEnd_eq sc e hd]
    refine (heads_bindLabels sc e).trans ?_
    split
    · exact (Emission.extends_epilogue _ _).heads
    · exact (Emission.Extends.refl _).heads

theorem heads_emitElse : e.Heads (sc.emitElse e) := by
  have hjump : e.Heads (if sc.unreachable then e else e.emit (.jump sc.endLabel)) := by
    split
    · exact .refl e
    · exact ((Emission.Extends.refl e).emit _).heads
  unfold emitElse
  split
  · exact .refl e
  · dsimp only
    split
    · exact hjump.trans (Emission.heads_bind _ _)
    · exact hjump

theorem emitElse_spec (hd : sc.dead = false) (hl : sc.elseLabel = some label)
    (hlt : label.id < e.asm.labels.size) :
    (sc.emitElse e).asm.labels[label.id]? = some (some (sc.emitElse e).asm.code.size) ∧
      ((sc.unreachable = true ∧ (sc.emitElse e).asm.code.size = e.asm.code.size) ∨
        (sc.unreachable = false ∧
          (sc.emitElse e).asm.code[e.asm.code.size]? = some (.jump sc.endLabel) ∧
          (sc.emitElse e).asm.code.size = e.asm.code.size + 1)) := by
  unfold emitElse
  rw [hd, hl]
  cases sc.unreachable with
  | true => exact ⟨Array.getElem?_setIfInBounds_self_of_lt hlt, .inl ⟨rfl, rfl⟩⟩
  | false =>
    exact ⟨Array.getElem?_setIfInBounds_self_of_lt hlt, .inr ⟨rfl, Array.getElem?_push_size,
      Array.size_push _⟩⟩

/-- A scope's end labels have no position yet. -/
structure Pending (labels : Array (Option Nat)) (sc : Scope) : Prop where
  endLabel : IsFree labels sc.endLabel
  elseLabel : ∀ label, sc.elseLabel = some label → sc.endLabel.id < label.id ∧ IsFree labels label

variable {sc e}

theorem Pending.congr {labels' : Array (Option Nat)} {n : Nat} (h : sc.Pending labels)
    (hlt : sc.EndsBefore n) (hs : ∀ i, i < n → labels'[i]? = labels[i]?) : sc.Pending labels' where
  endLabel := (hs _ hlt.1).trans h.endLabel
  elseLabel label hl :=
    ⟨(h.elseLabel label hl).1, (hs _ (hlt.2 label hl)).trans (h.elseLabel label hl).2⟩

theorem Pending.endsBefore (h : sc.Pending labels) : sc.EndsBefore labels.size :=
  ⟨h.endLabel.lt, fun label hl => (h.elseLabel label hl).2.lt⟩

theorem Pending.extends (h : sc.Pending e.asm.labels) (hx : e.Extends e') :
    sc.Pending e'.asm.labels :=
  h.congr h.endsBefore hx.labels

theorem kept_emitEnd (h : sc.Pending e.asm.labels) : e.Kept (sc.emitEnd e) := by
  have hbind : e.Kept (sc.bindLabels e) := by
    unfold bindLabels
    split
    · next label hl =>
        obtain ⟨hlt, hfree⟩ := h.elseLabel label hl
        refine (Emission.kept_bind hfree).trans (Emission.kept_bind ?_)
        rw [IsFree, Emission.labels_bind, Array.getElem?_setIfInBounds_ne (Nat.ne_of_gt hlt)]
        exact h.endLabel
    · exact Emission.kept_bind h.endLabel
  cases hd : sc.dead with
  | true => rw [emitEnd, hd]; exact .refl e
  | false =>
    rw [emitEnd_eq sc e hd]
    split
    · exact hbind.trans (Emission.extends_epilogue _ _).kept
    · exact hbind

theorem kept_emitElse (h : sc.Pending e.asm.labels) : e.Kept (sc.emitElse e) := by
  have hjump : e.Extends (if sc.unreachable then e else e.emit (.jump sc.endLabel)) := by
    split
    · exact .refl e
    · exact (Emission.Extends.refl e).emit _
  unfold emitElse
  split
  · exact .refl e
  · dsimp only
    split
    · next label hl =>
      exact hjump.kept.trans (Emission.kept_bind (hjump.isFree (h.elseLabel label hl).2))
    · exact hjump.kept

theorem labels_emitElse (h : ∀ label, sc.elseLabel = some label → i ≠ label.id) :
    (sc.emitElse e).asm.labels[i]? = e.asm.labels[i]? := by
  have hjump : (if sc.unreachable then e else e.emit (.jump sc.endLabel)).asm.labels =
      e.asm.labels := by
    split <;> rfl
  unfold emitElse
  split
  · rfl
  · dsimp only
    split
    · next label hl =>
        rw [Emission.labels_bind, Array.getElem?_setIfInBounds_ne (h label hl).symm, hjump]
    · rw [hjump]

theorem Pending.toElse (h : sc.Pending e.asm.labels) :
    sc.toElse.Pending (sc.emitElse e).asm.labels where
  endLabel :=
    (labels_emitElse fun label hl => Nat.ne_of_lt (h.elseLabel label hl).1).trans h.endLabel
  elseLabel label hl := by cases hl

theorem pending_block : (sc.block type e.asm.labels.size).Pending e.newLabel.2.asm.labels where
  endLabel := e.isFree_newLabel
  elseLabel label hl := by cases hl

theorem isFree_two (e : Emission) : IsFree e.newLabel.2.newLabel.2.asm.labels ⟨e.asm.labels.size⟩ ∧
      IsFree e.newLabel.2.newLabel.2.asm.labels ⟨e.asm.labels.size + 1⟩ := by
  have hsecond := e.newLabel.2.isFree_newLabel
  rw [Emission.newLabel_fst, e.labels_newLabel, Array.size_push] at hsecond
  exact ⟨(Emission.Extends.refl _).newLabel.isFree e.isFree_newLabel, hsecond⟩

theorem pending_loop : (sc.loop type e.asm.labels.size).Pending
      ((Instr.loop bt).emit ctx ⟨[], sc :: os⟩ e).asm.labels where
  endLabel := by
    rw [emit_loop]
    split
    · exact (Array.getElem?_setIfInBounds_ne (Nat.succ_ne_self _)).trans (isFree_two e).1
    · exact (isFree_two e).1
  elseLabel label hl := by cases hl

theorem pending_ifThen : (sc.ifThen type e.asm.labels.size).Pending
      ((Instr.ifThen bt).emit ctx ⟨[], sc :: os⟩ e).asm.labels where
  endLabel := by
    rw [emit_ifThen]
    split <;> exact (isFree_two e).1
  elseLabel label hl := by
    cases hl
    refine ⟨Nat.lt_succ_self _, ?_⟩
    rw [emit_ifThen]
    split <;> exact (isFree_two e).2

end Scope

variable {ops : List Operand}

/-! ## Liveness -/

namespace Scope

theorem Live.inner {sc : Scope} (h : sc.Live) (kind : ScopeKind) (type : FuncType)
    (label endLabel : Label) (elseLabel : Option Label) :
    (sc.inner kind type label endLabel elseLabel).Live :=
  ⟨rfl, inner_live h.isEmitting .., fun o ho =>
    known_ne_unknown type.params o (mem_reverse.mp ho)⟩

theorem Live.toElse {sc : Scope} (h : sc.dead = false) : sc.toElse.Live :=
  ⟨rfl, h, fun o ho => known_ne_unknown sc.params o (mem_reverse.mp ho)⟩

variable {sc : Scope} {os : List Scope}

theorem AllLive.cons (h : AllLive os) (hsc : sc.Live) : AllLive (sc :: os) :=
  forall_mem_cons.mpr ⟨hsc, h⟩

theorem AllLive.held (h : AllLive (sc :: os)) (hk : ∀ o ∈ ops, o ≠ .unknown) :
    AllLive (sc.holding false ops :: os) :=
  (h sc mem_cons_self).reachable ▸ h.holding hk

end Scope

/-! ## Laid-out code -/

def Instr.At (ctx : BodyContext) (base : Nat) (fin : Emission) (scopes : List Scope) (i : Instr)
    (p p' : Nat) : Prop :=
  ∃ e : Emission, e.Separate base ∧ e.asm.code.size = p ∧
    (i.emitReachable ctx ⟨[], scopes⟩ e).asm.code.size = p' ∧
    (i.emitReachable ctx ⟨[], scopes⟩ e).Kept fin

/-- Code stands between two positions of `fin`. -/
inductive Code.Laid (ctx : BodyContext) (base : Nat) (fin : Emission) :
    List Scope → Scope → Code → Nat → Scope → Nat → Prop
  | done {os sc p} : Laid ctx base fin os sc .done p sc p
  | lost {os sc c p sc'} (h : sc.isEmitting = false) : Laid ctx base fin os sc c p sc' p
  | plain {os sc i hi next ops unr p p1 sc' p'}
      (hm : Instr.Moves ctx ((sc :: os).map Scope.branchTypes) i false sc.operands unr ops)
      (hat : i.At ctx base fin (sc :: os) p p1)
      (hn : Laid ctx base fin os (sc.holding unr ops) next p1 sc' p') :
      Laid ctx base fin os sc (.plain i hi next) p sc' p'
  | block {os sc bt type rest body next inner label p p1 sc' p'}
      (ht : ctx.spaces.blockType bt = .ok type)
      (hp : sc.operands = known type.params.reverse ++ rest)
      (hb : Laid ctx base fin (sc.holding false rest :: os)
        (sc.inner .block type label label none) body p inner p1)
      (hc : inner.unreachable = false → inner.operands = (known type.results).reverse)
      (hend : place fin.asm.labels label = p1)
      (hn : Laid ctx base fin os (sc.holding false ((known type.results).reverse ++ rest)) next p1
        sc' p') :
      Laid ctx base fin os sc (.block bt body next) p sc' p'
  | loop {os sc bt type rest body next inner label endLabel p p1 sc' p'}
      (ht : ctx.spaces.blockType bt = .ok type)
      (hp : sc.operands = known type.params.reverse ++ rest)
      (hb : Laid ctx base fin (sc.holding false rest :: os)
        (sc.inner .loop type label endLabel none) body p inner p1)
      (hc : inner.unreachable = false → inner.operands = (known type.results).reverse)
      (hstart : place fin.asm.labels label = p)
      (hn : Laid ctx base fin os (sc.holding false ((known type.results).reverse ++ rest)) next p1
        sc' p') :
      Laid ctx base fin os sc (.loop bt body next) p sc' p'
  | ifThen {os sc bt type rest yes next inner label other p p1 sc' p'}
      (ht : ctx.spaces.blockType bt = .ok type) (hsame : type.params = type.results)
      (hp : sc.operands = known (type.params ++ [ValueType.i32]).reverse ++ rest)
      (hjump : fin.asm.code[p]? = some (.jumpUnless other))
      (hy : Laid ctx base fin (sc.holding false rest :: os)
        (sc.inner .ifThen type label label (some other)) yes (p + 1) inner p1)
      (hc : inner.unreachable = false → inner.operands = (known type.results).reverse)
      (hend : place fin.asm.labels label = p1)
      (helse : place fin.asm.labels other = p1)
      (hn : Laid ctx base fin os (sc.holding false ((known type.results).reverse ++ rest)) next p1
        sc' p') :
      Laid ctx base fin os sc (.ifThen bt yes next) p sc' p'
  | ifElse {os sc bt type rest yes no next first second label other p p1 p2 p3 sc' p'}
      (ht : ctx.spaces.blockType bt = .ok type)
      (hp : sc.operands = known (type.params ++ [ValueType.i32]).reverse ++ rest)
      (hjump : fin.asm.code[p]? = some (.jumpUnless other))
      (hy : Laid ctx base fin (sc.holding false rest :: os)
        (sc.inner .ifThen type label label (some other)) yes (p + 1) first p1)
      (hc1 : first.unreachable = false → first.operands = (known type.results).reverse)
      (hover : (first.unreachable = true ∧ p2 = p1) ∨
        (first.unreachable = false ∧ fin.asm.code[p1]? = some (.jump label) ∧ p2 = p1 + 1))
      (helse : place fin.asm.labels other = p2)
      (hno : Laid ctx base fin (sc.holding false rest :: os)
        (sc.inner .ifThen type label label (some other)).toElse no p2 second p3)
      (hc2 : second.unreachable = false → second.operands = (known type.results).reverse)
      (hend : place fin.asm.labels label = p3)
      (hn : Laid ctx base fin os (sc.holding false ((known type.results).reverse ++ rest)) next p3
        sc' p') :
      Laid ctx base fin os sc (.ifElse bt yes no next) p sc' p'

namespace Code.Lowers

variable {os : List Scope} {sc sc' : Scope} {c : Code} {e : Emission}

variable (h : c.Lowers ctx os sc e sc' e')
include h

theorem operands_of_closes (hc : sc'.Closes) (hk : ∀ o ∈ sc'.operands, o ≠ .unknown)
    (hu : sc'.unreachable = false) : sc'.operands = (known sc.results).reverse := by
  unfold Scope.Closes at hc
  rw [hu, h.results_eq] at hc
  rw [Operand.eq_append_of_take? hk hc, append_nil, known_reverse]

theorem unreachable_of (hu : sc.unreachable = true) : sc'.unreachable = true := by
  induction h with
  | done => exact hu
  | plain hm _ ih => exact ih (hm.unreachable_of hu)
  | block _ _ _ _ _ _ ih | loop _ _ _ _ _ _ ih | ifThen _ _ _ _ _ _ _ ih
  | ifElse _ _ _ _ _ _ _ _ _ ih => exact ih hu

theorem known_of (hl : sc.Live) (hu : sc'.unreachable = false) :
    ∀ o ∈ sc'.operands, o ≠ .unknown := by
  have hpush : ∀ {sc : Scope} {ts us : List ValueType} {rest : List Operand}, sc.Live →
      Operand.take? sc.unreachable us sc.operands = some rest →
      (sc.keeping ((known ts).reverse ++ rest)).Live := by
    intro sc ts us rest hl ht
    rw [hl.reachable] at ht
    rw [hl.keeping_eq]
    exact hl.holding (reverse_known_append (Operand.take?_known hl.known ht))
  induction h with
  | done => exact hl.known
  | @plain _ sc _ _ _ unr _ _ _ _ hm hn ih =>
    cases unr with
    | true => rw [hn.unreachable_of rfl] at hu; cases hu
    | false =>
      rw [hl.reachable] at hm
      exact ih (hl.holding (hm.known_of hl.known)) hu
  | block _ hp _ _ _ _ ih | loop _ hp _ _ _ _ ih | ifThen _ _ hp _ _ _ _ ih
  | ifElse _ hp _ _ _ _ _ _ _ ih => exact ih (hpush hl hp) hu

theorem holds_results (hl : sc.Live) (hc : sc'.Closes) (hu : sc'.unreachable = false) :
    sc'.operands = (known sc.results).reverse :=
  h.operands_of_closes hc (h.known_of hl hu) hu

theorem size_emitEnd (hk : sc.kind ≠ .function) :
    (sc'.emitEnd e').asm.code.size = e'.asm.code.size := by
  rw [sc'.code_emitEnd e' (by rw [h.kind_eq]; exact hk)]

theorem pending (hp : sc.Pending e.asm.labels) : sc'.Pending e'.asm.labels := by
  have hp' := hp.extends h.emission_extends
  rw [h.scope_eq]
  exact ⟨hp'.endLabel, hp'.elseLabel⟩

theorem kept_emitEnd (hp : sc.Pending e.asm.labels) (hd : sc.dead = false)
    (hk : (sc'.emitEnd e').Kept fin) :
    e'.Kept fin ∧ place fin.asm.labels sc.endLabel = e'.asm.code.size ∧
      ∀ label, sc.elseLabel = some label → place fin.asm.labels label = e'.asm.code.size := by
  have hp' := h.pending hp
  have hd' := h.dead_eq.trans hd
  refine ⟨(Scope.kept_emitEnd hp').trans hk, ?_, fun label hl => ?_⟩
  · rw [← h.endLabel_eq]
    exact hk.place_eq (sc'.endLabel_emitEnd e' hd' hp'.endLabel.lt)
  · have hl' := h.elseLabel_eq.trans hl
    obtain ⟨hlt, hfree⟩ := hp'.elseLabel label hl'
    exact hk.place_eq (sc'.elseLabel_emitEnd e' hd' hl' (Nat.ne_of_gt hlt) hfree.lt)

theorem laid (hl : Scope.AllLive (sc :: os)) (hk : e'.Kept fin) (hs : e.Separate base) :
    c.Laid ctx base fin os sc e.asm.code.size sc' e'.asm.code.size := by
  induction h with
  | done => exact .done
  | @plain os sc i hi next unr ops e sc' e' hm hn ih =>
    have hsc := hl _ mem_cons_self
    rw [hsc.reachable] at hm
    have hemit : i.emit ctx ⟨[], sc :: os⟩ e = i.emitReachable ctx ⟨[], sc :: os⟩ e := by
      rw [Instr.emit_of_isPlain hi, hsc.isEmitting]
      rfl
    have hx := Instr.emit_extends hi ctx sc os e
    refine .plain hm ⟨e, hs, rfl, rfl, hemit ▸ hn.emission_extends.kept.trans hk⟩ ?_
    rw [← hemit]
    cases unr with
    | true =>
      -- Behind an unconditional transfer nothing is emitted.
      have hlost : (sc.holding true ops).isEmitting = false :=
        Scope.isEmitting_eq_false.mpr (.inl rfl)
      rw [(hn.quiet hlost).code]
      exact .lost hlost
    | false =>
      exact ih (hl.held (hm.known_of hsc.known)) hk (hx.separate base hs)
  | @block os sc bt type rest body next inner e e1 sc' e' ht htake hb hc hn ihb ih =>
    obtain ⟨hsc, hops, hrest⟩ := hl.opens htake
    rw [hsc.keeping_eq] at hb hn ihb ih
    have hin : (sc.block type e.asm.labels.size).Live := hsc.inner ..
    have hout := hl.held hrest
    obtain ⟨hkb, hend, -⟩ := hb.kept_emitEnd Scope.pending_block hin.kept
      (hn.emission_extends.kept.trans hk)
    have hbody := ihb (hout.cons hin) hkb hs
    have hnext := ih (hl.held (reverse_known_append hrest)) hk
      ((inner.heads_emitEnd e1).separate base (hb.emission_extends.separate base hs))
    rw [hb.size_emitEnd ScopeKind.noConfusion] at hnext
    exact .block ht hops hbody (hb.holds_results hin hc) hend hnext
  | @loop os sc bt type rest body next inner e e1 sc' e' ht htake hb hc hn ihb ih =>
    obtain ⟨hsc, hops, hrest⟩ := hl.opens htake
    rw [hsc.keeping_eq] at hb hn ihb ih
    have hin : (sc.loop type e.asm.labels.size).Live := hsc.inner ..
    have hout := hl.held hrest
    obtain ⟨hkb, -, -⟩ := hb.kept_emitEnd Scope.pending_loop hin.kept
      (hn.emission_extends.kept.trans hk)
    rw [emit_loop, if_pos hsc.isEmitting] at hb ihb
    have hstart : place fin.asm.labels ⟨e.asm.labels.size + 1⟩ = e.asm.code.size :=
      (hb.emission_extends.kept.trans hkb).place_eq (by simp)
    have hbody := ihb (hout.cons hin) hkb hs
    have hnext := ih (hl.held (reverse_known_append hrest)) hk
      ((inner.heads_emitEnd e1).separate base (hb.emission_extends.separate base hs))
    rw [hb.size_emitEnd ScopeKind.noConfusion] at hnext
    exact .loop ht hops hbody (hb.holds_results hin hc) hstart hnext
  | @ifThen os sc bt type rest yes next inner e e1 sc' e' ht hsame htake hy hc hn ihy ih =>
    obtain ⟨hsc, hops, hrest⟩ := hl.opens htake
    rw [hsc.keeping_eq] at hy hn ihy ih
    have hin : (sc.ifThen type e.asm.labels.size).Live := hsc.inner ..
    have hout := hl.held hrest
    obtain ⟨hky, hend, helse⟩ := hy.kept_emitEnd Scope.pending_ifThen hin.kept
      (hn.emission_extends.kept.trans hk)
    rw [emit_ifThen, if_pos hsc.isEmitting] at hy ihy
    have hjump : fin.asm.code[e.asm.code.size]? = some (.jumpUnless ⟨e.asm.labels.size + 1⟩) :=
      (hy.emission_extends.kept.trans hky).code_getElem? (by simp)
    have hyes := ihy (hout.cons hin) hky hs
    have hnext := ih (hl.held (reverse_known_append hrest)) hk
      ((inner.heads_emitEnd e1).separate base (hy.emission_extends.separate base hs))
    rw [hy.size_emitEnd ScopeKind.noConfusion] at hnext
    rw [Emission.code_emit, Array.size_push] at hyes
    exact .ifThen ht hsame hops hjump hyes (hy.holds_results hin hc) hend (helse _ rfl) hnext
  | @ifElse os sc bt type rest yes no next first second e e1 e2 sc' e' ht htake hy hc1 hno hc2 hn
      ihy ihno ih =>
      obtain ⟨hsc, hops, hrest⟩ := hl.opens htake
      rw [hsc.keeping_eq] at hy hno hn ihy ihno ih
      have hin : (sc.ifThen type e.asm.labels.size).Live := hsc.inner ..
      have hout := hl.held hrest
      have hp1 := hy.pending Scope.pending_ifThen
      have hd1 := hy.dead_eq.trans hin.kept
      have hother := Scope.Live.toElse hd1
      obtain ⟨hkno, hend, -⟩ := hno.kept_emitEnd hp1.toElse hother.kept
        (hn.emission_extends.kept.trans hk)
      have hkelse := hno.emission_extends.kept.trans hkno
      obtain ⟨helse, hover⟩ := first.emitElse_spec e1 hd1 (hy.elseLabel_eq.trans rfl)
        (hp1.elseLabel _ (hy.elseLabel_eq.trans rfl)).2.lt
      rw [emit_ifThen, if_pos hsc.isEmitting] at hy ihy
      have hky := (Scope.kept_emitElse hp1).trans hkelse
      have hjump : fin.asm.code[e.asm.code.size]? = some (.jumpUnless ⟨e.asm.labels.size + 1⟩) :=
        (hy.emission_extends.kept.trans hky).code_getElem? (by simp)
      have hs2 := (first.heads_emitElse e1).separate base (hy.emission_extends.separate base hs)
      have hyes := ihy (hout.cons hin) hky hs
      have hnot := ihno (hout.cons hother) hkno hs2
      have hnext := ih (hl.held (reverse_known_append hrest)) hk
        ((second.heads_emitEnd e2).separate base (hno.emission_extends.separate base hs2))
      rw [hno.size_emitEnd ScopeKind.noConfusion] at hnext
      rw [Emission.code_emit, Array.size_push] at hyes
      have hres : first.toElse.results = type.results := hy.results_eq
      have hholds := hno.holds_results hother hc2
      rw [hres] at hholds
      have hfirst : first.toElse = (sc.ifThen type e.asm.labels.size).toElse := by
        rw [hy.scope_eq]
        rfl
      rw [hfirst] at hnot hend
      rw [hy.endLabel_eq] at hover
      exact .ifElse ht hops hjump hyes (hy.holds_results hin hc1)
        (hover.imp_right fun ⟨hu, hget, hsize⟩ => ⟨hu, hkelse.code_getElem? hget, hsize⟩)
        (hkelse.place_eq helse) hnot hholds hend hnext

end Code.Lowers

end Wasm
