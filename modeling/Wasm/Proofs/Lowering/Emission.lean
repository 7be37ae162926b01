import Wasm.Proofs.Lowering.Slots
import Wasm.Proofs.Lowering.Structure

/-! # What emitting does to an emission

An emission only grows (`Emission.Extends`). -/

namespace Wasm

open List

variable {e' e0 e'' : Emission} {stack : ControlStack} {i : Instr} {ctx : BodyContext}
  {sc : Scope} {os : List Scope} {bt : BlockType}

namespace Emission

/-! ## Fields after each operation -/

section Fields

variable (e : Emission) (op : Op Label) (b : BasicOp) (label : Label)

@[simp] theorem code_emit : (e.emit op).asm.code = e.asm.code.push op := rfl
@[simp] theorem labels_emit : (e.emit op).asm.labels = e.asm.labels := rfl
@[simp] theorem accessors_emit : (e.emit op).accessors = e.accessors := rfl
@[simp] theorem nextSlot_emit : (e.emit op).nextSlot = e.nextSlot := rfl
@[simp] theorem scratch_emit : (e.emit op).scratch = e.scratch := rfl

@[simp] theorem code_newLabel : e.newLabel.2.asm.code = e.asm.code := rfl
@[simp] theorem labels_newLabel : e.newLabel.2.asm.labels = e.asm.labels.push none := rfl
@[simp] theorem accessors_newLabel : e.newLabel.2.accessors = e.accessors := rfl
@[simp] theorem nextSlot_newLabel : e.newLabel.2.nextSlot = e.nextSlot := rfl
@[simp] theorem scratch_newLabel : e.newLabel.2.scratch = e.scratch := rfl
@[simp] theorem newLabel_fst : e.newLabel.1 = ⟨e.asm.labels.size⟩ := rfl

@[simp] theorem code_bind : (e.bind label).asm.code = e.asm.code := rfl
@[simp] theorem labels_bind :
    (e.bind label).asm.labels = e.asm.labels.setIfInBounds label.id (some e.asm.code.size) := rfl
@[simp] theorem accessors_bind : (e.bind label).accessors = e.accessors := rfl
@[simp] theorem nextSlot_bind : (e.bind label).nextSlot = e.nextSlot := rfl
@[simp] theorem scratch_bind : (e.bind label).scratch = e.scratch := rfl

theorem basic_eq_emit : e.basic b = e.emit (.basic b) := rfl

theorem foldl_basic (ops : List BasicOp) : ops.foldl basic e =
      { e with asm := { e.asm with code := e.asm.code ++ (ops.map Op.basic).toArray } } := by
  induction ops generalizing e with
  | nil => simp
  | cons op ops ih =>
    rw [foldl_cons, ih]
    simp [basic, emit, Assembly.emit]

end Fields

/-! ## Extension -/

/-- An emission is the start of another. -/
structure Heads (e fin : Emission) : Prop where
  code : e.asm.code.toList <+: fin.asm.code.toList
  labels_le : e.asm.labels.size ≤ fin.asm.labels.size
  nextSlot : e.nextSlot ≤ fin.nextSlot
  scratch : e.scratch <:+ fin.scratch
  separate : ∀ base, e.Separate base → fin.Separate base
  keys : e.accessors.keys.toList <+: fin.accessors.keys.toList
  header : fin.asm.funcIndex = e.asm.funcIndex ∧ fin.asm.type = e.asm.type ∧
    fin.asm.locals = e.asm.locals

namespace Heads

variable {e fin : Emission}

theorem refl (e : Emission) : e.Heads e :=
  ⟨prefix_rfl, Nat.le_refl _, Nat.le_refl _, suffix_rfl, fun _ h => h, prefix_rfl, rfl, rfl, rfl⟩

theorem trans (h : e.Heads e') (h' : e'.Heads fin) : e.Heads fin where
  code := h.code.trans h'.code
  labels_le := Nat.le_trans h.labels_le h'.labels_le
  nextSlot := Nat.le_trans h.nextSlot h'.nextSlot
  scratch := h.scratch.trans h'.scratch
  separate base hs := h'.separate base (h.separate base hs)
  keys := h.keys.trans h'.keys
  header := ⟨h'.header.1.trans h.header.1, h'.header.2.1.trans h.header.2.1,
    h'.header.2.2.trans h.header.2.2⟩

theorem code_size (h : e.Heads fin) : e.asm.code.size ≤ fin.asm.code.size := by
  simpa using h.code.length_le

theorem code_getElem? (h : e.Heads fin) {i : Nat} {op : Op Label}
    (hi : e.asm.code[i]? = some op) : fin.asm.code[i]? = some op := by
  obtain ⟨more, hmore⟩ := h.code
  rw [← Array.getElem?_toList] at hi ⊢
  obtain ⟨hlt, -⟩ := List.getElem?_eq_some_iff.mp hi
  rw [← hmore, getElem?_append_left hlt, hi]

end Heads

theorem heads_bind (e : Emission) (label : Label) : e.Heads (e.bind label) :=
  { Heads.refl e with labels_le := Nat.le_of_eq Array.size_setIfInBounds.symm }

/-- What is emitted later comes behind what there is. -/
structure Extends (e e' : Emission) : Prop extends heads : Heads e e' where
  labels : ∀ i, i < e.asm.labels.size → e'.asm.labels[i]? = e.asm.labels[i]?

namespace Extends

variable {e : Emission}

theorem refl (e : Emission) : e.Extends e := ⟨.refl e, fun _ _ => rfl⟩

theorem trans (h : e.Extends e') (h' : e'.Extends e'') : e.Extends e'' where
  heads := h.heads.trans h'.heads
  labels i hi := (h'.labels i (Nat.lt_of_lt_of_le hi h.labels_le)).trans (h.labels i hi)

variable (h : e0.Extends e)
include h

theorem emit (op : Op Label) : e0.Extends (e.emit op) :=
  { h with
    code := by
      rw [code_emit, Array.toList_push]
      exact h.code.trans (prefix_append _ _) }

theorem basic (op : BasicOp) : e0.Extends (e.basic op) := h.emit _

theorem foldl_basic (ops : List BasicOp) : e0.Extends (ops.foldl .basic e) := by
  induction ops generalizing e with
  | nil => exact h
  | cons op ops ih => exact ih (h.basic op)

theorem newLabel : e0.Extends e.newLabel.2 :=
  { h with
    labels_le := by rw [labels_newLabel, Array.size_push]; exact Nat.le_succ_of_le h.labels_le
    labels := by
      intro i hi
      rw [labels_newLabel, Array.getElem?_push, if_neg (by have := h.labels_le; omega)]
      exact h.labels i hi }

theorem bind {label : Label} (hl : e0.asm.labels.size ≤ label.id) : e0.Extends (e.bind label) :=
  { h with
    labels_le := by rw [labels_bind, Array.size_setIfInBounds]; exact h.labels_le
    labels := by
      intro i hi
      rw [labels_bind, Array.getElem?_setIfInBounds_ne (by omega)]
      exact h.labels i hi }

theorem scratchSlot (t : ValueType) (n : Nat) : e0.Extends (e.scratchSlot t n).2 := by
  have hs : ∀ base, e0.Separate base → (e.scratchSlot t n).2.Separate base :=
    fun base h0 => (h.separate base h0).scratchSlot t n
  unfold Emission.scratchSlot at hs ⊢
  split
  · exact h
  · next hnone =>
      rw [hnone] at hs
      exact { h with
        nextSlot := Nat.le_trans h.nextSlot (Nat.le_add_right _ _)
        scratch := h.scratch.trans (suffix_cons _ _)
        separate := hs }

end Extends

/-- Nothing was emitted but labels. -/
structure Quiet (e e' : Emission) : Prop where
  code : e'.asm.code = e.asm.code
  nextSlot : e'.nextSlot = e.nextSlot
  scratch : e'.scratch = e.scratch
  accessors : e'.accessors = e.accessors

theorem Quiet.trans {e : Emission} (h : e.Quiet e') (h' : e'.Quiet e'') : e.Quiet e'' :=
  ⟨h'.code.trans h.code, h'.nextSlot.trans h.nextSlot, h'.scratch.trans h.scratch,
    h'.accessors.trans h.accessors⟩

/-! ## Transfers -/

theorem scratchSlots_code (seen ts : List ValueType) (e : Emission) :
    (scratchSlots seen ts e).2.asm = e.asm := by
  induction ts generalizing seen e with
  | nil => rfl
  | cons t ts ih =>
    refine (ih _ _).trans ?_
    show (e.scratchSlot t _).2.asm = e.asm
    unfold scratchSlot
    split <;> rfl

/-- The operations that discard `excess` below what is carried. -/
def transferOps (slots : List Nat) (excess : Nat) : List BasicOp :=
  slots.reverse.map .localSet ++ (List.replicate excess .drop ++ slots.map .localGet)

theorem transfer_eq (e : Emission) (ts : List ValueType) (n : Nat) : e.transfer ts n =
      (transferOps (scratchSlots [] ts e).1 n).foldl basic (scratchSlots [] ts e).2 := by
  unfold transfer transferOps
  rw [foldl_append, foldl_append, foldl_map, foldl_map]

theorem asm_transfer (e : Emission) (ts : List ValueType) (n : Nat) :
    (e.transfer ts n).asm = { e.asm with
      code := e.asm.code ++ ((transferOps (scratchSlots [] ts e).1 n).map Op.basic).toArray } := by
  rw [transfer_eq, foldl_basic, scratchSlots_code]

theorem extends_transfer_of_slots (e : Emission) (ts : List ValueType) (n : Nat) :
    (scratchSlots [] ts e).2.Extends (e.transfer ts n) := by
  rw [transfer_eq]
  exact (Extends.refl _).foldl_basic _

/-! ## Labels of a branch table -/

theorem target_eq {depth : Nat} {scope : Scope} (h : stack.scopes[depth]? = some scope) :
    target stack depth = scope.label := by
  unfold target
  rw [Check.scopeAt_eq_ok.mpr h]

theorem mem_tableLabels {stubs : List (Nat × Label)} {depths : List Nat} {e : Emission} :
    (∀ label ∈ (tableLabels stack stubs depths e).1,
      (∃ depth ∈ depths, label = target stack depth) ∨
        ∃ depth, (depth, label) ∈ (tableLabels stack stubs depths e).2.1) ∧
    (∀ stub ∈ stubs, stub ∈ (tableLabels stack stubs depths e).2.1) := by
  induction depths generalizing stubs e with
  | nil => exact ⟨forall_mem_nil _, fun _ h => h⟩
  | cons depth depths ih =>
    rw [tableLabels]
    split
    · refine ⟨?_, ih.2⟩
      rw [forall_mem_cons]
      refine ⟨.inl ⟨depth, mem_cons_self, rfl⟩, fun label hl => ?_⟩
      exact (ih.1 label hl).imp_left (.imp fun _ => .imp_left (mem_cons_of_mem _))
    · split
      · next stub hstub =>
          refine ⟨?_, ih.2⟩
          rw [forall_mem_cons]
          obtain ⟨l1, l2, hl, -⟩ := lookup_eq_some_iff.mp hstub
          have hmem : (depth, stub) ∈ stubs :=
            hl ▸ mem_append_right _ mem_cons_self
          refine ⟨.inr ⟨depth, ih.2 _ hmem⟩, fun label hl => ?_⟩
          exact (ih.1 label hl).imp_left (.imp fun _ => .imp_left (mem_cons_of_mem _))
      · refine ⟨?_, fun stub hs => ih.2 stub (mem_cons_of_mem _ hs)⟩
        rw [forall_mem_cons]
        refine ⟨.inr ⟨depth, ih.2 _ mem_cons_self⟩, fun label hl => ?_⟩
        exact (ih.1 label hl).imp_left (.imp fun _ => .imp_left (mem_cons_of_mem _))

theorem tableLabels_code (stack : ControlStack) (stubs : List (Nat × Label)) (depths : List Nat)
    (e : Emission) : e.Quiet (tableLabels stack stubs depths e).2.2 := by
  induction depths generalizing stubs e with
  | nil => exact ⟨rfl, rfl, rfl, rfl⟩
  | cons depth depths ih =>
    rw [tableLabels]
    split
    · exact ih _ _
    · split
      · exact ih _ _
      · have hnew : e.Quiet e.newLabel.2 := ⟨rfl, rfl, rfl, rfl⟩
        exact hnew.trans (ih _ _)

theorem targets_jumpTable {labels : List Label} (h : labels ≠ []) :
    (Op.jumpTable labels.dropLast.toArray (labels.getLastD ⟨0⟩)).targets = labels := by
  rw [Op.targets, getLastD_eq_getLast?, getLast?_eq_some_getLast h]
  exact dropLast_concat_getLast h

end Emission

/-! ## Accessors -/

theorem Accessors.keys_intern (a : Accessors) (key : AccessorKey) :
    a.keys.toList <+: (a.intern key).2.keys.toList := by
  unfold intern
  split
  · exact prefix_rfl
  · rw [Array.toList_push]; exact prefix_append _ _

theorem Accessors.get?_intern (a : Accessors) (key : AccessorKey) :
    (a.intern key).2.get? (a.intern key).1 = some key := by
  unfold intern get?
  split
  · next id h => exact (a.inverse key id).mp h
  · exact Array.getElem?_push_size

theorem Accessors.get?_mono {a b : Accessors} (h : a.keys.toList <+: b.keys.toList) {id : Nat}
    {key : AccessorKey} (hk : a.get? id = some key) : b.get? id = some key := by
  obtain ⟨more, hmore⟩ := h
  unfold get? at hk ⊢
  rw [← Array.getElem?_toList] at hk ⊢
  obtain ⟨hlt, -⟩ := List.getElem?_eq_some_iff.mp hk
  rw [← hmore, getElem?_append_left hlt, hk]

/-! ## Instructions -/

theorem Instr.emit_of_isPlain (hi : i.isPlain = true) (ctx : BodyContext) (sc : Scope)
    (os : List Scope) (e : Emission) :
    i.emit ctx ⟨[], sc :: os⟩ e =
      if sc.isEmitting then i.emitReachable ctx ⟨[], sc :: os⟩ e else e := by
  cases i <;> first | rfl | cases hi

/-! ## Brackets -/

section Brackets

variable {e : Emission}

theorem emit_loop : (Instr.loop bt).emit ctx ⟨[], sc :: os⟩ e =
      if sc.isEmitting then e.newLabel.2.newLabel.2.bind ⟨e.asm.labels.size + 1⟩
      else e.newLabel.2.newLabel.2 := by
  show (if sc.isEmitting then e.newLabel.2.newLabel.2.bind ⟨(e.asm.labels.push none).size⟩
    else e.newLabel.2.newLabel.2) = _
  rw [Array.size_push]

theorem emit_ifThen : (Instr.ifThen bt).emit ctx ⟨[], sc :: os⟩ e =
      if sc.isEmitting then e.newLabel.2.newLabel.2.emit (.jumpUnless ⟨e.asm.labels.size + 1⟩)
      else e.newLabel.2.newLabel.2 := by
  show (if sc.isEmitting then
    e.newLabel.2.newLabel.2.emit (.jumpUnless ⟨(e.asm.labels.push none).size⟩)
    else e.newLabel.2.newLabel.2) = _
  rw [Array.size_push]

theorem Scope.accessors_emitEnd (sc : Scope) (e : Emission) :
    (sc.emitEnd e).accessors = e.accessors := by
  unfold Scope.emitEnd Emission.epilogue
  repeat' split
  all_goals rfl

end Brackets

/-! ## Code that cannot be reached -/

theorem Instr.Moves.unreachable_of {labels : List (List ValueType)} {unr unr' : Bool}
    {ops ops' : List Operand} (h : Instr.Moves ctx labels i unr ops unr' ops') (hu : unr = true) :
    unr' = true := by
  cases h <;> first | exact hu | rfl

theorem Scope.isEmitting_eq_false :
    sc.isEmitting = false ↔ sc.unreachable = true ∨ sc.dead = true := by
  unfold Scope.isEmitting
  cases sc.unreachable <;> cases sc.dead <;> simp

theorem Scope.inner_dead (hd : sc.isEmitting = false) (kind : ScopeKind) (type : FuncType)
    (label endLabel : Label) (elseLabel : Option Label) :
    (sc.inner kind type label endLabel elseLabel).dead = true := by
  rw [Scope.inner, hd]
  rfl

theorem Scope.isEmitting_of_dead (hd : sc.dead = true) : sc.isEmitting = false :=
  isEmitting_eq_false.mpr (.inr hd)

section Brackets

variable {e : Emission}

theorem emit_block_quiet : e.Quiet ((Instr.block bt).emit ctx ⟨[], sc :: os⟩ e) :=
  ⟨rfl, rfl, rfl, rfl⟩

theorem emit_loop_quiet : e.Quiet ((Instr.loop bt).emit ctx ⟨[], sc :: os⟩ e) := by
  rw [emit_loop]
  split <;> exact ⟨rfl, rfl, rfl, rfl⟩

theorem emit_ifThen_quiet (hd : sc.isEmitting = false) :
    e.Quiet ((Instr.ifThen bt).emit ctx ⟨[], sc :: os⟩ e) := by
  rw [emit_ifThen, hd]
  exact ⟨rfl, rfl, rfl, rfl⟩

end Brackets

namespace Code.Lowers

variable {sc' : Scope} {c : Code} {e : Emission}

variable (h : c.Lowers ctx os sc e sc' e')
include h

theorem emitEnd_eq (hd : sc.dead = true) : sc'.emitEnd e' = e' := by
  rw [Scope.emitEnd, h.dead_eq, hd]
  rfl

theorem emitElse_eq (hd : sc.dead = true) : sc'.emitElse e' = e' := by
  rw [Scope.emitElse, h.dead_eq, hd]
  rfl

theorem quiet (hd : sc.isEmitting = false) : e.Quiet e' := by
  induction h with
  | done => exact ⟨rfl, rfl, rfl, rfl⟩
  | @plain _ _ i hi _ _ _ _ _ _ hm _ ih =>
    rw [Instr.emit_of_isPlain hi, hd] at ih
    refine ih (Scope.isEmitting_eq_false.mpr ?_)
    rcases Scope.isEmitting_eq_false.mp hd with hu | hdead
    · exact .inl (hm.unreachable_of hu)
    · exact .inr hdead
  | block _ _ hb _ _ ihb ih =>
    have hdead := Scope.inner_dead hd
    rw [hb.emitEnd_eq (hdead ..)] at ih
    exact emit_block_quiet.trans ((ihb (Scope.isEmitting_of_dead (hdead ..))).trans (ih hd))
  | loop _ _ hb _ _ ihb ih =>
    have hdead := Scope.inner_dead hd
    rw [hb.emitEnd_eq (hdead ..)] at ih
    exact emit_loop_quiet.trans ((ihb (Scope.isEmitting_of_dead (hdead ..))).trans (ih hd))
  | ifThen _ _ _ hy _ _ ihy ih =>
    have hdead := Scope.inner_dead hd
    rw [hy.emitEnd_eq (hdead ..)] at ih
    exact (emit_ifThen_quiet hd).trans ((ihy (Scope.isEmitting_of_dead (hdead ..))).trans (ih hd))
  | ifElse _ _ hy _ hno _ _ ihy ihno ih =>
    have hdead := Scope.inner_dead hd
    have hother := hy.dead_eq.trans (hdead ..)
    rw [hno.emitEnd_eq hother] at ih
    rw [hy.emitElse_eq (hdead ..)] at ihno
    exact (emit_ifThen_quiet hd).trans ((ihy (Scope.isEmitting_of_dead (hdead ..))).trans
      ((ihno (Scope.isEmitting_of_dead hother)).trans (ih hd)))

end Code.Lowers

end Wasm
