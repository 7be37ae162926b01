import Wasm.Proofs.Typed.Branches

/-! # Translated code keeps to what is tracked

By induction on the structure of code, each operation leads to sound places only
(`Translation.flowsFrom_points`). -/

namespace Wasm

open List Scope Emission Instr Operand
open Assembly (place)
open Shape (one ones yields)
open LocalSlot (typeAt? layout width)

variable {results : List ValueType} {rest : List Operand} {e' eₛ : Emission} {l' : List Instr}

namespace Translation

variable {m : Module} {func : CompiledFunction} {T : Translation m func}
  {i : Instr} {l : List Instr} {sc : Scope} {os : List Scope} {e : Emission} {p : Point}

/-! ## Instructions with one operation -/

theorem within : T.ctx.Within m T.base where
  spaces := T.spaces
  elements := T.elements
  locals index entry h := by
    rw [T.locals] at h
    exact LocalSlot.slot_lt_width h

variable {index : Nat} {entry : LocalSlot} {op' : BasicOp} {accessors : Accessors}
  {labels : List (List ValueType)} {scopes : List Scope} {a : View} {st st' : ControlStack}

theorem slotAt (h : T.ctx.localAt index = .ok entry) : T.ctx.slotAt index < func.frameSlots ∧
      typeAt? func.locals.toList (T.ctx.slotAt index) = some entry.type := by
  obtain ⟨hget, hslot⟩ := Structured.localAt_eq_ok h
  rw [T.locals] at hget
  rw [hslot, T.frameSlots_eq, T.locals_eq]
  exact ⟨Nat.lt_of_lt_of_le (LocalSlot.slot_lt_width hget) T.heads_fin.nextSlot,
    LocalSlot.typeAt?_layout hget⟩

theorem implies_write (h : T.ctx.localAt index = .ok entry) (operands : List Shape) :
    (View.mk operands (⟨entry.type, T.ctx.slotAt index⟩ :: func.locals.toList)).Implies
      ⟨operands, func.locals.toList⟩ := by
  refine ⟨rfl, (LocalSlot.Retains.refl _).write fun type htype => ?_⟩
  cases (T.slotAt h).2.symm.trans htype
  rfl

variable {op : BasicOp} {ops : List Operand} {unr : Bool}

/-- An operation of a fixed type makes of a view what the type says. -/
theorem alters_fixed {ps rs : List ValueType} (hi : i ∈ T.body.code.instrs)
    (hop : i.op? T.ctx = some op) (hs : op'.StandsFor accessors op)
    (hkeys : accessors.keys.toList <+: m.accessors.keys.toList) (hf : Instr.Fixed T.ctx i ps rs)
    (rest : List Shape) :
    ∃ b : View, op'.Alters m func.frameSlots ⟨ones ps.reverse ++ rest, func.locals.toList⟩ b ∧
      b.Implies ⟨ones rs.reverse ++ rest, func.locals.toList⟩ := by
  have hfixed : op'.Fixed m ps rs → ∃ b : View,
      op'.Alters m func.frameSlots ⟨ones ps.reverse ++ rest, func.locals.toList⟩ b ∧
        b.Implies ⟨ones rs.reverse ++ rest, func.locals.toList⟩ :=
    fun h => ⟨_, .fixed h, .refl _⟩
  have hdata : ∀ data, i.dataIndex? = some data → data < m.data.size :=
    fun data hd => T.data data (mem_filterMap.mpr ⟨i, hi, hd⟩)
  cases hf with cases hop
  | selectTyped =>
    cases hs
    exact ⟨_, .select, .refl _⟩
  | localGet hl =>
    cases hs
    exact ⟨_, .localGet (T.slotAt hl).2, .refl _⟩
  | localSet hl =>
    cases hs
    exact ⟨_, .localSet (T.slotAt hl).1, implies_write hl _⟩
  | localTee hl =>
    cases hs
    exact ⟨_, .localTee (T.slotAt hl).1, implies_write hl _⟩
  | globalGet hg | globalSet hg _ =>
    cases hs
    exact hfixed (by constructor; exact T.within.global hg)
  | load _ hm =>
    have ha := T.loads _ _ hi
    have hlt := T.within.memory_lt hm
    cases hs with
    | self => exact hfixed (.load ha hlt)
    | load h => exact hfixed (.loadVia (Accessors.get?_mono hkeys h) ha hlt)
  | store _ hm =>
    have ha := T.stores _ _ hi
    have hlt := T.within.memory_lt hm
    cases hs with
    | self => exact hfixed (.store ha hlt)
    | store h => exact hfixed (.storeVia (Accessors.get?_mono hkeys h) ha hlt)
  | memorySize hm | memoryGrow hm | memoryFill hm =>
    cases hs
    exact hfixed (by constructor; exact T.within.memory_lt hm)
  | i32Const | i64Const | f32Const | f64Const | unary | binary | refNull =>
    cases hs
    exact hfixed (by constructor)
  | refFunc hfunc =>
    cases hs
    rw [T.spaces] at hfunc
    exact hfixed (.refFunc hfunc)
  | memoryInit hm _ =>
    cases hs
    exact hfixed (.memoryInit (hdata _ rfl) (T.within.memory_lt hm))
  | dataDrop _ =>
    cases hs
    exact hfixed (.dataDrop (hdata _ rfl))
  | memoryCopy hd hsrc =>
    cases hs
    exact hfixed (.memoryCopy (T.within.memory_lt hd) (T.within.memory_lt hsrc))
  | tableInit he ht =>
    cases hs
    obtain ⟨segment, hseg, htype⟩ := T.within.element he
    obtain ⟨t, hget, hel⟩ := T.within.table ht
    exact hfixed (.tableInit hseg hget (htype.trans hel.symm))
  | elemDrop he =>
    cases hs
    obtain ⟨segment, hseg, -⟩ := T.within.element he
    exact hfixed (.elemDrop hseg)
  | tableCopy hd hsrc =>
    cases hs
    obtain ⟨t, hget, hel⟩ := T.within.table hd
    obtain ⟨u, hget', hel'⟩ := T.within.table hsrc
    exact hfixed (.tableCopy hget hget' (hel.trans hel'.symm))
  | tableGet ht | tableSet ht | tableSize ht | tableGrow ht | tableFill ht =>
    cases hs
    obtain ⟨t, hget, rfl⟩ := T.within.table ht
    exact hfixed (by constructor; exact hget)

theorem alters_moves (hi : i ∈ T.body.code.instrs) (hop : i.op? T.ctx = some op)
    (hs : op'.StandsFor accessors op) (hkeys : accessors.keys.toList <+: m.accessors.keys.toList)
    (hm : Instr.Moves T.ctx labels i false sc.operands unr ops)
    (hk : ∀ o ∈ sc.operands, o ≠ .unknown) (below : List ValueType) :
    unr = false ∧ ∃ b : View,
      op'.Alters m func.frameSlots (func.view (Operand.types sc.operands ++ below)) b ∧
        b.Implies (func.view (Operand.types ops ++ below)) := by
  cases hm with
  | @fixed _ ps rs _ _ rest hf ht =>
    have hview : ∀ ts : List ValueType,
        func.view (Operand.types (known ts.reverse ++ rest) ++ below) =
          ⟨ones ts.reverse ++ ones (Operand.types rest ++ below), func.locals.toList⟩ := by
      intro ts
      rw [types_append, types_known, append_assoc, CompiledFunction.view, Shape.ones_append]
    rw [eq_append_of_take? hk ht, ← known_reverse, hview, hview]
    exact ⟨rfl, alters_fixed hi hop hs hkeys hf _⟩
  | unreachable | br _ _ | ret _ _ | brIf _ _ | brTable _ _ _ _ => cases hop
  | @drop o _ _ rest hp =>
    cases hop
    cases hs
    rw [pop?_false_eq] at hp
    rw [hp] at hk ⊢
    cases o with
    | unknown => exact absurd rfl (hk _ mem_cons_self)
    | known t => exact ⟨rfl, _, .drop, .refl _⟩
  | @select first second _ _ ops1 ops2 rest hc h2 h1 hsame _ =>
    cases hop
    cases hs
    have hops := eq_append_of_take? hk hc
    rw [pop?_false_eq] at h2 h1
    rw [h2, h1] at hops
    rw [hops] at hk ⊢
    cases first with
    | unknown => exact absurd rfl (hk _ (by simp))
    | known a =>
      cases second with
      | unknown => exact absurd rfl (hk _ (by simp))
      | known b =>
        obtain rfl := hsame a b rfl rfl
        exact ⟨rfl, _, .select, .refl _⟩
  | @refIsNull o _ _ rest hp href =>
    cases hop
    cases hs
    rw [pop?_false_eq] at hp
    rw [hp] at hk ⊢
    cases o with
    | unknown => exact absurd rfl (hk _ mem_cons_self)
    | known t => exact ⟨rfl, _, .refIsNull (href t rfl), .refl _⟩

theorem Remains.mem_instrs (h : T.Remains (i :: l) scopes e) (hi : i ≠ .endScope) :
    i ∈ T.body.code.instrs := by
  obtain ⟨before, heq, -⟩ := h
  have hmem : i ∈ T.instrs := heq ▸ mem_append_right _ mem_cons_self
  rcases mem_append.mp hmem with hmem | hmem
  · exact hmem
  · exact absurd (mem_singleton.mp hmem) hi

theorem keys_of_heads (h : e.Heads T.fin) : e.accessors.keys.toList <+: m.accessors.keys.toList :=
  h.keys.trans T.keys

theorem Remains.flows_op (h : T.Remains (i :: l) (sc :: os) e) (hi : i.isPlain = true)
    (hop : i.op? T.ctx = some op) (hm : Instr.Moves T.ctx labels i false sc.operands unr ops)
    (hl : Scope.AllLive (sc :: os))
    (hheads : (i.emitReachable T.ctx ⟨[], sc :: os⟩ e).Heads T.fin)
    (hnext : unr = false → T.Starts (i.emitReachable T.ctx ⟨[], sc :: os⟩ e).asm.code.size
      (func.view (Scope.types (sc.holding unr ops :: os)))) :
    T.Flows e.asm.code.size (func.view (Scope.types (sc :: os))) := by
  have hmem := h.mem_instrs (fun heq => by rw [heq] at hi; cases hi)
  obtain ⟨e1, op', heq, hasm, hstands, -⟩ := emitReachable_of_op? hop ⟨[], sc :: os⟩ e
  rw [heq] at hheads hnext
  have hsize : (e1.basic op').asm.code.size = e.asm.code.size + 1 := by
    rw [code_size_basic, hasm]
  have hcode : T.fin.asm.code[e.asm.code.size]? = some (.basic op') := by
    refine hheads.code_getElem? ?_
    rw [basic_eq_emit, code_emit, hasm, Array.getElem?_push_size]
  obtain ⟨hunr, b, ha, hb⟩ := alters_moves hmem hop hstands
    (keys_of_heads (((Emission.Extends.refl e1).basic op').heads.trans hheads)) hm
    (hl sc mem_cons_self).known (Scope.types os)
  have hstart := hnext hunr
  rw [hsize, types_cons] at hstart
  rw [types_cons]
  exact flows_basic hcode ha (.start hstart hb)

/-! ## Calls -/

theorem Inside.flows_call (hp : p ∈ T.points) {below : List ValueType}
    (h : T.Inside p e.asm.code.size a)
    (ha : op.Alters m func.frameSlots a ⟨yields results ++ ones below, func.locals.toList⟩)
    (hcall : op.isCall = true) (hheads : ((e.basic op).unpackResults results).Heads T.fin)
    (hstop : ((e.basic op).unpackResults results).asm.code.size = p.stop T.ctx)
    (hnext : T.Starts ((e.basic op).unpackResults results).asm.code.size
      (func.view (results.reverse ++ below))) :
    T.Flows e.asm.code.size a := by
  have hcode : T.fin.asm.code[e.asm.code.size]? = some (.basic op) := by
    refine ((extends_unpackResults _ results).heads.trans hheads).code_getElem? ?_
    rw [basic_eq_emit, code_emit, Array.getElem?_push_size]
  rw [CompiledFunction.view, Shape.ones_append] at hnext
  unfold Emission.unpackResults at hheads hstop hnext
  cases hb : Carrier.bundleFor? results with
  | none =>
    rw [hb] at hnext
    rw [code_size_basic] at hnext
    rw [Shape.yields_of_bundleFor? hb] at ha
    exact flows_basic hcode ha (.start hnext (.refl _))
  | some carrier =>
    rw [hb] at hheads hstop hnext
    dsimp only at hheads hstop hnext
    rw [code_size_basic, code_size_basic] at hstop hnext
    obtain ⟨rfl, hyields⟩ := Shape.yields_of_bundleFor?_some hb
    rw [hyields] at ha
    have hunpack : T.fin.asm.code[e.asm.code.size + 1]? = some (.basic (.unpack ⟨results⟩)) := by
      refine hheads.code_getElem? ?_
      rw [basic_eq_emit, code_emit, ← e.code_size_basic op, Array.getElem?_push_size]
    have hlt : e.asm.code.size + 1 < p.stop T.ctx := hstop ▸ Nat.lt_succ_self _
    have hin := h.basic hcode ha hlt
    exact flows_basic hcode ha (Tracks.sound ⟨p, hp, hlt, hin⟩
      ⟨.called (getElem?_code hcode) hcall (getElem?_code hunpack), .refl _⟩
      (flows_basic hunpack .unpack (.start hnext (.refl _))))

/-! ## Instructions that open and close no scope -/

theorem types_tail {t : ValueType} (h : sc.operands = .known t :: rest) :
    Scope.types (sc :: os) = t :: Scope.types (sc.keeping sc.operands.tail :: os) := by
  have htail : (sc.keeping sc.operands.tail).operands = rest := by
    rw [h]
    rfl
  rw [types_cons, types_cons, htail, h]
  rfl

/-- **An instruction that can be reached, and opens and closes no scope, flows on.** -/
theorem Remains.flows_plain (h : T.Remains (i :: l) (sc :: os) e) (hi : i.isPlain = true)
    (hnop : i ≠ .nop)
    (hm : Instr.Moves T.ctx ((sc :: os).map branchTypes) i false sc.operands unr ops)
    (hl : Scope.AllLive (sc :: os)) (htargets : T.Targets (sc :: os))
    (hk : (i.emitReachable T.ctx ⟨[], sc :: os⟩ e).Kept T.fin)
    (hnext : unr = false → T.Starts (i.emitReachable T.ctx ⟨[], sc :: os⟩ e).asm.code.size
      (func.view (Scope.types (sc.holding unr ops :: os)))) :
    T.Flows e.asm.code.size (func.view (Scope.types (sc :: os))) := by
  have hsc := hl sc mem_cons_self
  have hsep := h.separate
  have hpoint := h.mem_points_head
  have hne : i ≠ .endScope := fun heq => by rw [heq] at hi; cases hi
  have hin : T.Inside ⟨i, sc :: os, e⟩ e.asm.code.size (func.view (Scope.types (sc :: os))) :=
    .start ((Point.operands_of_ne hne).trans hl.known_types.symm)
  have hstop : (i.emitReachable T.ctx ⟨[], sc :: os⟩ e).asm.code.size =
      Point.stop T.ctx ⟨i, sc :: os, e⟩ := by
    rw [Point.stop, Point.after, emit_of_isPlain hi, hsc.isEmitting]
    rfl
  have hone := @Remains.flows_op m func T i l sc os e
  have hm' := hm
  cases hm with
  | unreachable =>
    have hop : T.fin.asm.code[e.asm.code.size]? = some (.basic .unreachable) :=
      hk.code_getElem? Array.getElem?_push_size
    exact ⟨_, _, getElem?_code hop, .unreachable, forall_mem_nil _⟩
  | br _ _ | ret _ _ =>
    obtain ⟨sc', target, rest, hs, -, htarget, hops⟩ := hm'.goesTo hl (by constructor)
    cases hs
    obtain ⟨rest', hrest⟩ := @Scope.exists_above sc _ os _ hops _
    exact hin.flows_branch hpoint htarget hl htargets hrest hk.heads (Nat.le_of_eq hstop) hsep
  | @brIf depth types _ _ rest _ htake =>
    obtain ⟨sc', target, rest', hs, hl1, htarget, htail⟩ := hm'.goesTo hl .brIf
    cases hs
    have hops := eq_append_of_take? hsc.known htake
    rw [reverse_append] at hops
    have hview := @types_tail _ sc os _ hops
    have hstart := hnext rfl
    rw [← known_reverse, show known types.reverse ++ rest = sc.operands.tail by rw [hops]; rfl,
      ← hsc.reachable] at hstart
    rw [hview] at hin ⊢
    exact hin.flows_branchIf hpoint htarget hl1 (htargets.holding _ _) htail hk
      (Nat.le_of_eq hstop) hsep hstart
  | brTable hc _ _ _ =>
    have hl1 := hl.holding fun o ho => hsc.known o (mem_of_mem_tail ho)
    have hview := @types_tail _ sc os _ (eq_append_of_take? hsc.known hc)
    rw [hview] at hin ⊢
    refine hin.flows_branchTable hpoint (fun depth hd => ?_) hl1 (htargets.holding _ _) hk
      (Nat.le_of_eq hstop) hsep
    obtain ⟨sc', target, rest, hs, -, htarget, htail⟩ := hm'.goesTo hl (.brTable hd)
    cases hs
    exact ⟨target, rest, htarget, htail⟩
  | drop _ | select _ _ _ _ _ | refIsNull _ _ => exact hone h hi rfl hm' hl hk.heads hnext
  | fixed hf htake =>
    cases hf with
    | nop => exact absurd rfl hnop
    | call hfunc =>
      have hops := eq_append_of_take? hsc.known htake
      have hstart := hnext rfl
      rw [Instr.emitReachable, hfunc] at hk hstop hstart
      rw [types_cons, holding_operands, ← known_reverse, types_append,
        types_known, append_assoc] at hstart
      rw [types_cons, hops, types_append, types_known, append_assoc,
        CompiledFunction.view, Shape.ones_append] at hin ⊢
      rw [T.spaces] at hfunc
      exact hin.flows_call hpoint (.call hfunc) rfl hk.heads hstop hstart
    | callIndirect ht hel =>
      have hops := eq_append_of_take? hsc.known htake
      rw [reverse_append] at hops
      have hstart := hnext rfl
      rw [Instr.emitReachable, ht] at hk hstop hstart
      rw [types_cons, holding_operands, ← known_reverse, types_append,
        types_known, append_assoc] at hstart
      rw [types_cons, hops, types_append, types_known, append_assoc,
        CompiledFunction.view, Shape.ones_append, Shape.ones_append] at hin ⊢
      rw [T.spaces] at ht
      obtain ⟨t, hget, hfunc⟩ := T.within.table hel
      exact hin.flows_call hpoint (.callIndirect (IndexSpaces.lookup_eq_ok.mp ht) hget hfunc) rfl
        hk.heads hstop hstart
    | _ => exact hone h hi rfl hm' hl hk.heads hnext

/-! ## Structured code -/

/-- The code of the instruction at a point flows on, if it has any. -/
def FlowsFrom (T : Translation m func) (p : Point) : Prop :=
  p.start < p.stop T.ctx → ∀ types, p.operands = known types → T.Flows p.start (func.view types)

theorem flowsFrom_of_quiet (h : p.stop T.ctx ≤ p.start) : T.FlowsFrom p :=
  fun hlt => absurd hlt (Nat.not_lt.mpr h)

theorem flowsFrom_of_live (hi : i ≠ .endScope) (hl : Scope.AllLive (sc :: os))
    (h : e.asm.code.size < Point.stop T.ctx ⟨i, sc :: os, e⟩ →
      T.Flows e.asm.code.size (func.view (Scope.types (sc :: os)))) :
    T.FlowsFrom ⟨i, sc :: os, e⟩ := by
  intro hlt types htypes
  have hops : known (Scope.types (sc :: os)) = known types :=
    hl.known_types.trans ((Point.operands_of_ne hi).symm.trans htypes)
  rw [← known_injective hops]
  exact h hlt

theorem flowsFrom_of_passes (h : Passes T.ctx l st e st' e')
    (hsize : e'.asm.code.size ≤ e.asm.code.size) : ∀ p ∈ trace T.ctx l st e, T.FlowsFrom p := by
  intro p hp
  obtain ⟨hbefore, hafter⟩ := h.heads_trace p hp
  exact flowsFrom_of_quiet (Nat.le_trans hafter.code_size (Nat.le_trans hsize hbefore.code_size))

/-- In front of code that is left all scopes can be reached, and their labels stand right. -/
structure Ahead (T : Translation m func) (l : List Instr) (sc : Scope) (os : List Scope)
    (e : Emission) : Prop where
  remains : T.Remains l (sc :: os) e
  live : Scope.AllLive (sc :: os)
  targets : T.Targets (sc :: os)

variable {e1 : Emission} {inner inner' : Scope}

theorem check_end (n : Nat) (hk : inner.kind = .ifThen → inner.params = inner.results)
    (hc : inner.Closes) (hres : inner.results = results) :
    Instr.endScope.check T.ctx n ⟨[], inner :: sc.keeping rest :: os⟩ =
      .ok () ⟨[], sc.keeping ((known results).reverse ++ rest) :: os⟩ := by
  rw [← hres]
  exact check_iff.mpr (.endScope hk hc)

theorem types_results (unr : Bool) (results : List ValueType) (rest : List Operand) :
    Scope.types (sc.holding unr ((known results).reverse ++ rest) :: os) =
      results.reverse ++ Scope.types (sc.holding unr rest :: os) := by
  rw [types_cons, types_cons, holding_operands, holding_operands,
    ← known_reverse, types_append, types_known, append_assoc]

theorem types_params (kind : ScopeKind) (type : FuncType) (label endLabel : Label)
    (elseLabel : Option Label) :
    Scope.types (sc.inner kind type label endLabel elseLabel :: os) =
      type.params.reverse ++ Scope.types os := by
  have hin : (sc.inner kind type label endLabel elseLabel).operands = known type.params.reverse :=
    (known_reverse _).symm
  rw [types_cons, hin, types_known]

namespace Ahead

theorem starts (h : T.Ahead l sc os e) :
    T.Starts e.asm.code.size (func.view (Scope.types (sc :: os))) :=
  h.remains.starts h.live

theorem behind (h : T.Ahead (i :: l) sc os e) (hrest : ∀ o ∈ rest, o ≠ .unknown)
    (hr : T.Remains (.endScope :: l') (inner :: sc.keeping rest :: os) e1)
    (hend : Instr.endScope.check T.ctx e1.asm.labels.size ⟨[], inner :: sc.keeping rest :: os⟩ =
      .ok () ⟨[], sc.keeping ((known results).reverse ++ rest) :: os⟩) :
    T.Ahead l' (sc.keeping ((known results).reverse ++ rest)) os (inner.emitEnd e1) where
  remains := hr.next hend
  live := h.live.holding (reverse_known_append hrest)
  targets := h.targets.holding _ _

theorem inside (h : T.Ahead (i :: l) sc os e) (hrest : ∀ o ∈ rest, o ≠ .unknown)
    (hin : inner.Live) (hr : T.Remains l' (inner :: sc.keeping rest :: os) eₛ)
    (hlabel : T.Starts (place T.fin.asm.labels inner.label)
      (func.view (inner.branchTypes.reverse ++ Scope.types (sc.keeping rest :: os)))) :
    T.Ahead l' inner (sc.keeping rest :: os) eₛ where
  remains := hr
  live := forall_mem_cons.mpr ⟨hin, h.live.holding hrest⟩
  targets := (h.targets.holding _ _).cons hlabel

end Ahead

theorem flowsFrom_end (hk : inner.kind ≠ .function) : T.FlowsFrom ⟨.endScope, inner :: os, e⟩ := by
  refine flowsFrom_of_quiet (Nat.le_of_eq ?_)
  show (inner.emitEnd e).asm.code.size = e.asm.code.size
  rw [inner.code_emitEnd e hk]

/-- Code with a scope in front flows on, if the scope and what follows it do. -/
theorem flowsFrom_scope {body next : List Instr}
    (hopen : i.check T.ctx e.asm.labels.size ⟨[], scopes⟩ = .ok () st)
    (hemit : i.emit T.ctx ⟨[], scopes⟩ e = eₛ)
    (hbody : Passes T.ctx body st eₛ ⟨[], inner :: os⟩ e1)
    (hend : Instr.endScope.check T.ctx e1.asm.labels.size ⟨[], inner :: os⟩ = .ok () st')
    (hk : inner.kind ≠ .function) (hfirst : T.FlowsFrom ⟨i, scopes, e⟩)
    (hinside : ∀ p ∈ trace T.ctx body st eₛ, T.FlowsFrom p)
    (hbehind : ∀ p ∈ trace T.ctx next st' (inner.emitEnd e1), T.FlowsFrom p) :
    ∀ p ∈ trace T.ctx (i :: (body ++ .endScope :: next)) ⟨[], scopes⟩ e, T.FlowsFrom p := by
  rw [trace_cons hopen, hemit, hbody.trace_append, trace_cons hend]
  refine forall_mem_cons.mpr ⟨hfirst, forall_mem_append.mpr ⟨hinside, ?_⟩⟩
  exact forall_mem_cons.mpr ⟨flowsFrom_end hk, hbehind⟩

theorem Ahead.flowsFrom_ifThen {bt : BlockType} {params : List ValueType} {other : Label}
    (h : T.Ahead (.ifThen bt :: l) sc os e)
    (hops : sc.operands = known (params ++ [ValueType.i32]).reverse ++ rest)
    (hjump : T.fin.asm.code[e.asm.code.size]? = some (.jumpUnless other))
    (hyes : T.Starts (e.asm.code.size + 1)
      (func.view (params.reverse ++ Scope.types (sc.keeping rest :: os))))
    (hno : T.Starts (place T.fin.asm.labels other)
      (func.view (params.reverse ++ Scope.types (sc.keeping rest :: os)))) :
    T.FlowsFrom ⟨.ifThen bt, sc :: os, e⟩ := by
  refine flowsFrom_of_live Instr.noConfusion h.live fun _ => ?_
  have htypes : Scope.types (sc :: os) =
      .i32 :: (params.reverse ++ Scope.types (sc.keeping rest :: os)) := by
    rw [types_cons, types_cons, holding_operands, hops, types_append,
      types_known, reverse_append, append_assoc, append_assoc]
    rfl
  rw [htypes]
  exact ⟨_, _, getElem?_code hjump, .jumpUnless, forall_mem_cons.mpr
    ⟨.start hno (.refl _), forall_mem_singleton.mpr (.start hyes (.refl _))⟩⟩

theorem flowsFrom_elseArm {label : Label} (hos : Scope.AllLive os)
    (hl : inner.unreachable = false → inner.Live) (hc : inner.Closes)
    (hover : (inner.unreachable = true ∧ (inner.emitElse e).asm.code.size = e.asm.code.size) ∨
      (inner.unreachable = false ∧ T.fin.asm.code[e.asm.code.size]? = some (.jump label) ∧
        (inner.emitElse e).asm.code.size = e.asm.code.size + 1))
    (hend : T.Starts (place T.fin.asm.labels label)
      (func.view (inner.results.reverse ++ Scope.types os))) :
    T.FlowsFrom ⟨.elseArm, inner :: os, e⟩ := by
  rcases hover with ⟨-, hsize⟩ | ⟨hu, hjump, -⟩
  · exact flowsFrom_of_quiet (Nat.le_of_eq hsize)
  · have hlive := hl hu
    refine flowsFrom_of_live Instr.noConfusion (forall_mem_cons.mpr ⟨hlive, hos⟩) fun _ => ?_
    rw [types_cons, types_of_closes hlive hc]
    exact ⟨_, _, getElem?_code hjump, .jump, forall_mem_singleton.mpr (.start hend (.refl _))⟩

/-- **Lowered code flows on**, if the scopes around it can be reached. -/
theorem flowsFrom_of_lowers {c : Code} {sc' : Scope} (h : c.Lowers T.ctx os sc e sc' e')
    (ha : T.Ahead (c.instrs ++ l) sc os e) :
    ∀ p ∈ trace T.ctx c.instrs ⟨[], sc :: os⟩ e, T.FlowsFrom p := by
  -- What follows the code varies: behind the body of a scope it is the end of the scope.
  induction h generalizing l with
  | done => exact forall_mem_nil _
  | @plain os sc i hi next unr ops e sc' e' hm hn ih =>
    obtain ⟨hsc, hos⟩ := forall_mem_cons.mp ha.live
    have hcheck : i.check T.ctx e.asm.labels.size ⟨[], sc :: os⟩ =
        .ok () ⟨[], sc.holding unr ops :: os⟩ :=
      (Instr.check_eq_ok hi).mpr ⟨unr, ops, hm, rfl⟩
    have hafter := ha.remains.next hcheck
    rw [hsc.reachable] at hm
    have hemit : i.emit T.ctx ⟨[], sc :: os⟩ e = i.emitReachable T.ctx ⟨[], sc :: os⟩ e := by
      rw [emit_of_isPlain hi, hsc.isEmitting]
      rfl
    have hlive : unr = false → Scope.AllLive (sc.holding unr ops :: os) := by
      rintro rfl
      exact forall_mem_cons.mpr ⟨hsc.holding (hm.known_of hsc.known), hos⟩
    rw [Code.instrs, trace_cons hcheck]
    refine forall_mem_cons.mpr ⟨?_, ?_⟩
    · refine flowsFrom_of_live (fun heq => by rw [heq] at hi; cases hi) ha.live fun hlt => ?_
      have hnop : i ≠ .nop := by
        rintro rfl
        have hsame : Instr.nop.emit T.ctx ⟨[], sc :: os⟩ e = e := ite_self _
        rw [Point.stop, Point.after, hsame] at hlt
        exact absurd hlt (Nat.lt_irrefl _)
      refine ha.remains.flows_plain hi hnop hm ha.live ha.targets (hemit ▸ hafter.kept) fun hu => ?_
      rw [← hemit]
      exact hafter.starts (hlive hu)
    · cases unr with
      | true =>
        -- Behind an unconditional transfer nothing is emitted.
        have hlost : (sc.holding true ops).isEmitting = false :=
          isEmitting_eq_false.mpr (.inl rfl)
        exact flowsFrom_of_passes hn.passes (Nat.le_of_eq (by rw [(hn.quiet hlost).code]))
      | false =>
        exact ih ⟨hafter, hlive rfl, ha.targets.holding _ _⟩
  | @block os sc bt type rest body next inner e e1 sc' e' ht htake hb hc hn ihb ih =>
    obtain ⟨hsc, -, hrest⟩ := ha.live.opens htake
    have hcheck := (@Instr.check_iff T.ctx e.asm.labels.size sc os _ _).mpr (.block ht htake)
    have hend := @check_end type.results rest m func T sc os inner e1.asm.labels.size
      (fun hk => by cases hb.kind_eq.symm.trans hk) hc hb.results_eq
    rw [Code.instrs, cons_append, append_assoc, cons_append] at ha
    have hbody := ha.remains.next hcheck
    have hbehind := ha.behind hrest (hbody.along hb.passes) hend
    have hin : (sc.block type e.asm.labels.size).Live := hsc.inner ..
    obtain ⟨-, hplace, -⟩ := hb.kept_emitEnd pending_block hin.kept hbehind.remains.kept
    -- The label of a block stands behind it, so the place that it names is that of what follows.
    have hstarts := hbehind.starts
    rw [types_results, hb.size_emitEnd ScopeKind.noConfusion, ← hplace] at hstarts
    exact flowsFrom_scope hcheck rfl hb.passes hend
      (fun hk => by cases hb.kind_eq.symm.trans hk) (flowsFrom_of_quiet (Nat.le_refl _))
      (ihb (ha.inside hrest hin hbody hstarts)) (ih hbehind)
  | @loop os sc bt type rest body next inner e e1 sc' e' ht htake hb hc hn ihb ih =>
    obtain ⟨hsc, -, hrest⟩ := ha.live.opens htake
    have hcheck := (@Instr.check_iff T.ctx e.asm.labels.size sc os _ _).mpr (.loop ht htake)
    have hend := @check_end type.results rest m func T sc os inner e1.asm.labels.size
      (fun hk => by cases hb.kind_eq.symm.trans hk) hc hb.results_eq
    rw [Code.instrs, cons_append, append_assoc, cons_append] at ha
    have hbody := ha.remains.next hcheck
    have hin : (sc.loop type e.asm.labels.size).Live := hsc.inner ..
    -- The label of a loop stands in front of its body.
    have hstarts := hbody.starts (forall_mem_cons.mpr ⟨hin, ha.live.holding hrest⟩)
    rw [emit_loop_quiet.code, types_params] at hstarts
    have hquiet : T.FlowsFrom ⟨.loop bt, sc :: os, e⟩ :=
      flowsFrom_of_quiet (Nat.le_of_eq (congrArg Array.size emit_loop_quiet.code))
    have hemit := (@emit_loop T.ctx sc os bt e).trans (if_pos hsc.isEmitting)
    rw [hemit] at hb ihb hbody
    have hplace : place T.fin.asm.labels ⟨e.asm.labels.size + 1⟩ = e.asm.code.size :=
      hbody.kept.place_eq (by simp)
    rw [← hplace] at hstarts
    exact flowsFrom_scope hcheck hemit hb.passes hend
      (fun hk => by cases hb.kind_eq.symm.trans hk) hquiet
      (ihb (ha.inside hrest hin hbody hstarts))
      (ih (ha.behind hrest (hbody.along hb.passes) hend))
  | @ifThen os sc bt type rest yes next inner e e1 sc' e' ht hsame htake hy hc hn ihy ih =>
    obtain ⟨hsc, hops, hrest⟩ := ha.live.opens htake
    have hcheck := (@Instr.check_iff T.ctx e.asm.labels.size sc os _ _).mpr (.ifThen ht htake)
    have hend := @check_end type.results rest m func T sc os inner e1.asm.labels.size
      (fun _ => hy.params_eq.trans (hsame.trans hy.results_eq.symm)) hc hy.results_eq
    rw [Code.instrs, cons_append, append_assoc, cons_append] at ha
    have hbody := ha.remains.next hcheck
    have hin : (sc.ifThen type e.asm.labels.size).Live := hsc.inner ..
    have hbehind := ha.behind hrest (hbody.along hy.passes) hend
    obtain ⟨-, hplace, helse⟩ := hy.kept_emitEnd pending_ifThen hin.kept hbehind.remains.kept
    have hemit := (@emit_ifThen T.ctx sc os bt e).trans (if_pos hsc.isEmitting)
    rw [hemit] at hy ihy hbody
    have hjump : T.fin.asm.code[e.asm.code.size]? = some (.jumpUnless ⟨e.asm.labels.size + 1⟩) :=
      hbody.kept.code_getElem? (by simp)
    have hstarts := hbehind.starts
    rw [types_results, hy.size_emitEnd ScopeKind.noConfusion] at hstarts
    have hyes := hbody.starts (forall_mem_cons.mpr ⟨hin, ha.live.holding hrest⟩)
    rw [code_emit, Array.size_push, types_params] at hyes
    refine flowsFrom_scope hcheck hemit hy.passes hend
      (fun hk => by cases hy.kind_eq.symm.trans hk) ?_
      (ihy (ha.inside hrest hin hbody (hplace.symm ▸ hstarts))) (ih hbehind)
    -- Without a second arm the jump over the first one goes behind the scope.
    refine ha.flowsFrom_ifThen hops hjump hyes ?_
    rw [helse _ rfl, hsame]
    exact hstarts
  | @ifElse os sc bt type rest yes no next first second e e1 e2 sc' e' ht htake hy hc1 hno hc2 hn
      ihy ihno ih =>
      obtain ⟨hsc, hops, hrest⟩ := ha.live.opens htake
      have hcheck := (@Instr.check_iff T.ctx e.asm.labels.size sc os _ _).mpr (.ifThen ht htake)
      have helseArm := (@Instr.check_iff T.ctx e1.asm.labels.size first
        (sc.keeping rest :: os) _ _).mpr (.elseArm hy.kind_eq hc1)
      have hres : first.toElse.results = type.results := hy.results_eq
      have hend := @check_end type.results rest m func T sc os second e2.asm.labels.size
        (fun hk => by cases hno.kind_eq.symm.trans hk) hc2 (hno.results_eq.trans hres)
      rw [Code.instrs, cons_append, append_assoc, cons_append, append_assoc, cons_append] at ha
      have hbody := ha.remains.next hcheck
      have hin : (sc.ifThen type e.asm.labels.size).Live := hsc.inner ..
      have hother := Scope.Live.toElse (hy.dead_eq.trans hin.kept)
      have hfirst : first.toElse = (sc.ifThen type e.asm.labels.size).toElse := by
        rw [hy.scope_eq]
        rfl
      have hp1 := hy.pending pending_ifThen
      have hl1 : first.elseLabel = some ⟨e.asm.labels.size + 1⟩ := hy.elseLabel_eq
      have hsecond := (hbody.along hy.passes).next helseArm
      rw [emit_elseArm] at hsecond
      have hbehind := ha.behind hrest (hsecond.along hno.passes) hend
      obtain ⟨-, hplace, -⟩ := hno.kept_emitEnd hp1.toElse hother.kept hbehind.remains.kept
      obtain ⟨helse, hover⟩ := first.emitElse_spec e1 (hy.dead_eq.trans hin.kept) hl1
        (hp1.elseLabel _ hl1).2.lt
      have hemit := (@emit_ifThen T.ctx sc os bt e).trans (if_pos hsc.isEmitting)
      rw [hemit] at hy ihy hbody
      have hstarts := hbehind.starts
      rw [types_results, hno.size_emitEnd ScopeKind.noConfusion, ← hplace, hfirst] at hstarts
      have hout := ha.live.holding hrest
      have hyes := hbody.starts (forall_mem_cons.mpr ⟨hin, hout⟩)
      rw [code_emit, Array.size_push, types_params] at hyes
      have hno' := hsecond.starts (forall_mem_cons.mpr ⟨hother, hout⟩)
      have htoElse : Scope.types (first.toElse :: sc.keeping rest :: os) =
          type.params.reverse ++ Scope.types (sc.keeping rest :: os) := by
        rw [hfirst]
        exact types_params ..
      rw [htoElse, ← hsecond.kept.place_eq helse] at hno'
      rw [Code.instrs, trace_cons hcheck, hemit, hy.passes.trace_append]
      refine forall_mem_cons.mpr ⟨?_, forall_mem_append.mpr
        ⟨ihy (ha.inside hrest hin hbody hstarts), ?_⟩⟩
      · exact ha.flowsFrom_ifThen hops (hbody.kept.code_getElem? (by simp)) hyes hno'
      -- The second arm is a scope of its own, which the end of the first one opens.
      refine flowsFrom_scope helseArm (emit_elseArm ..) hno.passes hend
        (fun hk => by cases hno.kind_eq.symm.trans hk) ?_
        (ihno (ha.inside hrest hother hsecond ?_)) (ih hbehind)
      · refine flowsFrom_elseArm hout (fun hu => ?_) hc1
          (hover.imp_right fun h => ⟨h.1, hsecond.kept.code_getElem? h.2.1, h.2.2⟩) ?_
        · exact ⟨hu, hy.dead_eq.trans hin.kept, hy.known_of hin hu⟩
        · rw [hy.results_eq, hy.endLabel_eq]
          exact hstarts
      · rw [hfirst]
        exact hstarts

/-! ## Functions -/

theorem code_fin :
    T.fin.asm.code = T.emission.asm.code ++ (epilogueOps func.type.results).toArray := by
  have hdead : T.last.dead = false := T.lowers.dead_eq
  have hkind : T.last.kind = .function := T.lowers.kind_eq
  have hres : T.last.results = func.type.results := T.lowers.results_eq
  rw [fin, T.last.emitEnd_eq _ hdead, if_pos hkind, code_epilogue, T.last.code_bindLabels, hres]

theorem flowsFrom_last : T.FlowsFrom ⟨.endScope, [T.last], T.emission⟩ := by
  intro hlt types htypes
  have hres : T.last.results = func.type.results := T.lowers.results_eq
  have hops : known types = known func.type.results.reverse := by
    rw [known_reverse, ← hres]
    exact htypes.symm.trans (append_nil _)
  obtain rfl := known_injective hops
  have hin : T.Inside ⟨.endScope, [T.last], T.emission⟩ T.emission.asm.code.size
      (func.view func.type.results.reverse) := .start htypes
  have hpoint : ⟨.endScope, [T.last], T.emission⟩ ∈ T.points :=
    (T.remains_instrs.along T.lowers.passes).mem_points_head
  have hcode : T.fin.CodeAt T.emission.asm.code.size (epilogueOps func.type.results) :=
    .of_heads (Emission.Extends.refl _).heads T.code_fin
  have hsize : Point.stop T.ctx ⟨.endScope, [T.last], T.emission⟩ =
      T.emission.asm.code.size + (epilogueOps func.type.results).length := by
    show T.fin.asm.code.size = _
    rw [T.code_fin, Array.size_append]
    rfl
  unfold epilogueOps at hcode hsize
  cases hb : Carrier.bundleFor? func.type.results with
  | none =>
    rw [hb] at hcode
    obtain ⟨hret, -⟩ := hcode.cons
    rw [CompiledFunction.view, ← Shape.yields_of_bundleFor? hb]
    exact ⟨_, _, getElem?_code hret, .ret, forall_mem_nil _⟩
  | some carrier =>
    rw [hb] at hcode hsize
    obtain ⟨rfl, hyields⟩ := Shape.yields_of_bundleFor?_some hb
    obtain ⟨hpack, hmore⟩ := hcode.cons
    obtain ⟨hret, -⟩ := hmore.cons
    have hlt : T.emission.asm.code.size + 1 < Point.stop T.ctx ⟨.endScope, [T.last], T.emission⟩ :=
      hsize ▸ Nat.lt_succ_self _
    have ha := @BasicOp.Alters.pack m func.frameSlots ⟨func.type.results⟩ [] func.locals.toList
    rw [append_nil] at ha
    refine flows_basic hpack ha (Tracks.sound ⟨_, hpoint, hlt, hin.basic hpack ha hlt⟩
      ⟨.packed (getElem?_code hpack) (getElem?_code hret), .refl _⟩ ?_)
    rw [← hyields]
    exact ⟨_, _, getElem?_code hret, .ret, forall_mem_nil _⟩

theorem place_last : place T.fin.asm.labels ⟨0⟩ = T.emission.asm.code.size := by
  have hp : (function func.type.results).Pending T.first.asm.labels :=
    ⟨rfl, fun label hl => by cases hl⟩
  exact (T.lowers.kept_emitEnd hp rfl (.refl _)).2.1

theorem ahead_first : T.Ahead T.instrs (function func.type.results) [] T.first where
  remains := remains_instrs
  live := forall_mem_singleton.mpr ⟨rfl, rfl, fun _ ho => nomatch ho⟩
  targets := by
    have hres : T.last.results = func.type.results := T.lowers.results_eq
    refine Targets.cons (fun depth target ht => nomatch ht) ?_
    show T.Starts (place T.fin.asm.labels ⟨0⟩) (func.view (func.type.results.reverse ++ _))
    rw [T.place_last, ← hres]
    exact (T.remains_instrs.along T.lowers.passes).starts_end (forall_mem_nil _) lt_size_fin

/-- **At every point of the translation the code of the instruction flows on.** -/
theorem flowsFrom_points : ∀ p ∈ T.points, T.FlowsFrom p := by
  have hend := (T.remains_instrs.along T.lowers.passes).passes
  obtain ⟨st, hc, -⟩ := passes_cons.mp hend
  cases check_iff.mp hc with
  | plain hi => cases hi
  | last _ _ =>
    rw [points, instrs, first, T.lowers.passes.trace_append, trace_cons hc]
    exact forall_mem_append.mpr ⟨flowsFrom_of_lowers T.lowers T.ahead_first,
      forall_mem_singleton.mpr flowsFrom_last⟩

theorem sound_entry : T.Sound 0 (func.view []) :=
  .start T.ahead_first.starts (.refl _)

/-- **Every sound place is tracked, and its operation leads to sound places.** -/
theorem Sound.flows {q : Nat} (h : T.Sound q a) :
    ∃ b : View, a.Implies b ∧ T.Tracks q b ∧ func.Admits q b ∧ T.Flows q b := by
  cases h with
  | @start q a b hb hab =>
    refine ⟨b, hab, hb.tracks, ?_⟩
    obtain ⟨p, hp, rfl, hlt, types, htypes, rfl⟩ := hb
    exact ⟨func.admits_view _ _, flowsFrom_points p hp hlt types htypes⟩
  | inside ht hs hop hl hp => exact ⟨a, .refl a, ht, hs, _, _, hop, hl, hp⟩

end Translation

end Wasm
