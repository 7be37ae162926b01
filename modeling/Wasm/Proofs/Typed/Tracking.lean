import Wasm.Proofs.Lowering.Passing
import Wasm.Proofs.Module.Closed
import Wasm.Proofs.Structured.Mirror
import Wasm.Proofs.Typed.Views

/-! # What is tracked while a body is translated

`trace` lists instructions with the open scopes; `Translation.Sound` are the views from which all
that follows is tracked. -/

namespace Wasm

open List Scope Emission Operand
open Assembly (place)
open Shape (ones)

variable {scopes os : List Scope} {i : Instr} {sc : Scope} {l : List Instr}
  {st st' : ControlStack} {e e' : Emission} {unr : Bool}

variable {ctx : BodyContext}

/-! ## Types of operands -/

def Operand.types (ops : List Operand) : List ValueType := ops.filterMap Operand.type?

namespace Operand

@[simp] theorem types_nil : types [] = [] := rfl

@[simp] theorem types_append (as bs : List Operand) : types (as ++ bs) = types as ++ types bs :=
  filterMap_append

@[simp] theorem types_known (ts : List ValueType) : types (Wasm.known ts) = ts := by
  induction ts with
  | nil => rfl
  | cons t ts ih =>
    exact congrArg (t :: ·) ih

end Operand

def Scope.types (scopes : List Scope) : List ValueType :=
  Operand.types (scopes.flatMap Scope.operands)

namespace Scope

@[simp] theorem types_cons (sc : Scope) (os : List Scope) :
    types (sc :: os) = Operand.types sc.operands ++ types os := by
  rw [types, flatMap_cons, Operand.types_append]
  rfl

theorem AllLive.known_types (h : AllLive scopes) :
    known (types scopes) = scopes.flatMap Scope.operands := by
  refine known_filterMap_type? fun o ho => ?_
  obtain ⟨sc, hsc, hmem⟩ := mem_flatMap.mp ho
  exact (h sc hsc).known o hmem

end Scope

/-! ## Points of a translation -/

/-- An instruction with the open scopes and the emission. -/
structure Point where
  instr : Instr
  scopes : List Scope
  emission : Emission

namespace Point

/-- Where the code of the instruction starts. -/
def start (p : Point) : Nat := p.emission.asm.code.size

/-- The emission behind the instruction. -/
def after (ctx : BodyContext) (p : Point) : Emission := p.instr.emit ctx ⟨[], p.scopes⟩ p.emission

/-- Where the code of the instruction stops. -/
def stop (ctx : BodyContext) (p : Point) : Nat := (p.after ctx).asm.code.size

/-- The tracked operands where the code of the instruction starts, the top first. -/
def operands (p : Point) : List Operand :=
  match p.instr, p.scopes with
  | .endScope, sc :: os => (known sc.results).reverse ++ os.flatMap Scope.operands
  | _, scopes => scopes.flatMap Scope.operands

theorem operands_of_ne {p : Point} (h : p.instr ≠ .endScope) :
    p.operands = p.scopes.flatMap Scope.operands := by
  unfold operands
  split
  · next hi _ => exact absurd hi h
  · rfl

end Point

/-- The points that a translation passes through. -/
def trace (ctx : BodyContext) : List Instr → ControlStack → Emission → List Point
  | [], _, _ => []
  | i :: l, st, e =>
    ⟨i, st.scopes, e⟩ ::
      match i.check ctx e.asm.labels.size st with
      | .ok () st' => trace ctx l st' (i.emit ctx st e)
      | .error _ _ => []

theorem trace_cons (h : i.check ctx e.asm.labels.size st = .ok () st') :
    trace ctx (i :: l) st e = ⟨i, st.scopes, e⟩ :: trace ctx l st' (i.emit ctx st e) := by
  rw [trace, h]

theorem Scope.size_emitElse (h : sc.Live) (e : Emission) :
    (sc.emitElse e).asm.code.size = e.asm.code.size + 1 := by
  unfold emitElse
  rw [h.kept, h.reachable]
  cases sc.elseLabel with
  | some label | none => exact Array.size_push _

namespace Passes

theorem trace_append (h : Passes ctx l st e st' e') (l' : List Instr) :
    trace ctx (l ++ l') st e = trace ctx l st e ++ trace ctx l' st' e' := by
  induction h with
  | nil => rfl
  | cons hc _ ih => rw [cons_append, trace_cons hc, trace_cons hc, ih, cons_append]

theorem heads_trace (h : Passes ctx l st e st' e') :
    ∀ p ∈ trace ctx l st e, e.Heads p.emission ∧ (p.after ctx).Heads e' := by
  induction h with
  | nil => exact forall_mem_nil _
  | cons hc hl ih =>
    rw [trace_cons hc]
    refine forall_mem_cons.mpr ⟨⟨(Emission.Extends.refl _).heads, hl.heads⟩, fun p hp => ?_⟩
    obtain ⟨hbefore, hafter⟩ := ih p hp
    exact ⟨(Instr.heads_emit ctx _ _ _).trans hbefore, hafter⟩

end Passes

/-! ## Emitting something -/

theorem Emission.code_size_basic (e : Emission) (op : BasicOp) :
    (e.basic op).asm.code.size = e.asm.code.size + 1 :=
  Array.size_push _

theorem Instr.lt_size_of_op? {op : BasicOp} (h : i.op? ctx = some op) (stack : ControlStack)
    (e : Emission) : e.asm.code.size < (i.emitReachable ctx stack e).asm.code.size := by
  obtain ⟨e1, op', heq, hasm, -⟩ := emitReachable_of_op? h stack e
  rw [heq, Emission.code_size_basic, hasm]
  exact Nat.lt_succ_self _

theorem Instr.Moves.lt_size {ops : List Operand}
    (hm : Moves ctx ((sc :: os).map branchTypes) i false sc.operands unr ops)
    (hl : Scope.AllLive (sc :: os)) (hi : i ≠ .nop) (e : Emission) :
    e.asm.code.size < (i.emitReachable ctx ⟨[], sc :: os⟩ e).asm.code.size := by
  have hcall : ∀ (op : BasicOp) (results : List ValueType),
      e.asm.code.size < ((e.basic op).unpackResults results).asm.code.size := by
    intro op results
    have hle := ((e.basic op).extends_unpackResults results).code_size
    rw [e.code_size_basic] at hle
    exact hle
  have htail : Scope.AllLive (sc.keeping sc.operands.tail :: os) :=
    hl.holding fun o ho => (hl sc mem_cons_self).known o (mem_of_mem_tail ho)
  cases hm with
  | unreachable =>
    show _ < (e.basic .unreachable).asm.code.size
    rw [e.code_size_basic]
    exact Nat.lt_succ_self _
  | br h _ =>
    rw [getElem?_map] at h
    obtain ⟨target, htarget, -⟩ := Option.map_eq_some_iff.mp h
    exact e.lt_size_branch htarget hl
  | ret h _ =>
    rw [getElem?_map, length_map] at h
    obtain ⟨target, htarget, -⟩ := Option.map_eq_some_iff.mp h
    exact e.lt_size_branch htarget hl
  | brIf h _ =>
    obtain ⟨target, htarget, -⟩ := @getElem?_holding _ sc os sc.unreachable sc.operands.tail _ h
    rw [emitReachable, ControlStack.dropTop_eq]
    rcases e.branchIf_spec htarget htail with ⟨-, heq⟩ | heq
    · rw [heq, code_emit, Array.size_push]
      exact Nat.lt_succ_self _
    · rw [heq, code_bind]
      refine Nat.lt_trans ?_ (lt_size_branch _ htarget htail)
      rw [code_emit, Array.size_push]
      exact Nat.lt_succ_self _
  | @brTable depths default _ _ _ _ _ _ _ _ _ _ =>
    obtain ⟨labels, last, hcode, -⟩ := @Emission.branchTable_spec
      ⟨[], sc.keeping sc.operands.tail :: os⟩ e depths default
    have hle := hcode.length_le
    rw [length_append, Array.length_toList, Array.length_toList] at hle
    exact hle
  | drop _ | select _ _ _ _ _ | refIsNull _ _ => exact lt_size_of_op? rfl _ e
  | fixed h _ =>
    cases h with
    | nop => exact absurd rfl hi
    | call hf | callIndirect hf _ =>
      rw [emitReachable, hf]
      exact hcall _ _
    | _ => exact lt_size_of_op? rfl _ e

/-! ## Shapes of operands at a place -/

/-- Whether an operation calls a function. -/
def BasicOp.isCall : BasicOp → Bool
  | .call _ | .callIndirect _ _ => true
  | _ => false

/-- The shapes of operands at a place: single values, or several results in one behind a call and in
    front of the return. -/
inductive CompiledFunction.Shaped (func : CompiledFunction) : Nat → List Shape → Prop
  | ones {q types} : Shaped func q (ones types)
  | called {q op types rest} (hop : func.code[q]? = some (.basic op)) (hcall : op.isCall = true)
      (hunpack : func.code[q + 1]? = some (.basic (.unpack ⟨types⟩))) :
      Shaped func (q + 1) (.bundle types :: Shape.ones rest)
  | packed {q types} (hpack : func.code[q]? = some (.basic (.pack ⟨types⟩)))
      (hret : func.code[q + 1]? = some (.basic .ret)) : Shaped func (q + 1) [.bundle types]

/-- What may be known at a place of the code. -/
structure CompiledFunction.Admits (func : CompiledFunction) (q : Nat) (a : View) : Prop where
  shaped : func.Shaped q a.operands
  locals : LocalSlot.Retains func.locals.toList a.slots

/-! ## Translations of functions -/

/-- A frame with operands of these types. -/
def CompiledFunction.view (func : CompiledFunction) (types : List ValueType) : View :=
  ⟨ones types, func.locals.toList⟩

theorem CompiledFunction.admits_view (func : CompiledFunction) (q : Nat) (types : List ValueType) :
    func.Admits q (func.view types) := ⟨.ones, .refl _⟩

/-- How a function was translated from a body. -/
structure Translation (m : Module) (func : CompiledFunction) where
  ctx : BodyContext
  body : Body
  accessors : Accessors
  last : Scope
  emission : Emission
  spaces : ctx.spaces = m.spaces
  elements : ctx.elemTypes = m.elements.map (·.type)
  locals : ctx.locals = LocalSlot.layout (body.localTypes func.type.params)
  data : ∀ data ∈ body.dataIndices, data < m.data.size
  loads : ∀ access arg, Instr.load access arg ∈ body.code.instrs → access ∈ Decode.loads
  stores : ∀ access arg, Instr.store access arg ∈ body.code.instrs → access ∈ Decode.stores
  lowers : body.code.Lowers ctx [] (function func.type.results)
    (Emission.start func.funcIndex func.type (body.localTypes func.type.params) accessors)
      last emission
  closes : last.Closes
  finish : (last.emitEnd emission).asm.finish (last.emitEnd emission).nextSlot = .ok func
  keys : (last.emitEnd emission).accessors.keys.toList <+: m.accessors.keys.toList

namespace Translation

variable {m : Module} {func : CompiledFunction} (T : Translation m func)

/-- What was emitted before the first instruction. -/
def first : Emission :=
  Emission.start func.funcIndex func.type (T.body.localTypes func.type.params) T.accessors

def fin : Emission := T.last.emitEnd T.emission

def instrs : List Instr := T.body.code.instrs ++ [.endScope]

def points : List Point := trace T.ctx T.instrs ⟨[], [function func.type.results]⟩ T.first

def Starts (q : Nat) (a : View) : Prop :=
  ∃ p ∈ T.points, p.start = q ∧ q < p.stop T.ctx ∧
    ∃ types, p.operands = known types ∧ a = func.view types

/-- A place in the code of an instruction, and its view. -/
inductive Inside (p : Point) : Nat → View → Prop
  | start {types} (h : p.operands = known types) : Inside p p.start (func.view types)
  | next {q q' op a a' places} (h : Inside p q a) (hop : func.code[q]? = some op)
      (hl : op.Leads m func q a places) (hmem : (q', a') ∈ places) (hlt : p.start < q')
      (hstop : q' < p.stop T.ctx) : Inside p q' a'

/-- A place in the code, and its view. -/
def Tracks (q : Nat) (a : View) : Prop := ∃ p ∈ T.points, q < p.stop T.ctx ∧ T.Inside p q a

/-- A tracked place, from which operations lead to tracked places only. -/
inductive Sound : Nat → View → Prop
  | start {q a b} (h : T.Starts q b) (hab : a.Implies b) : Sound q a
  | inside {q a op places} (h : T.Tracks q a) (hs : func.Admits q a)
      (hop : func.code[q]? = some op) (hl : op.Leads m func q a places)
      (hp : ∀ place ∈ places, Sound place.1 place.2) : Sound q a

def Flows (q : Nat) (a : View) : Prop :=
  ∃ op places, func.code[q]? = some op ∧ op.Leads m func q a places ∧
    ∀ place ∈ places, T.Sound place.1 place.2

variable {T}

variable {q : Nat} {a : View}

theorem Starts.tracks (h : T.Starts q a) : T.Tracks q a := by
  obtain ⟨p, hp, rfl, hlt, types, htypes, rfl⟩ := h
  exact ⟨p, hp, hlt, .start htypes⟩

theorem Tracks.sound (h : T.Tracks q a) (hs : func.Admits q a) (hf : T.Flows q a) :
    T.Sound q a := by
  obtain ⟨op, places, hop, hl, hp⟩ := hf
  exact .inside h hs hop hl hp

/-! ## What is left to translate -/

def Remains (T : Translation m func) (l : List Instr) (scopes : List Scope) (e : Emission) : Prop :=
  ∃ before, T.instrs = before ++ l ∧
    Passes T.ctx before ⟨[], [function func.type.results]⟩ T.first ⟨[], scopes⟩ e

theorem remains_instrs : T.Remains T.instrs [function func.type.results] T.first :=
  ⟨[], rfl, .nil⟩

theorem passes : Passes T.ctx T.instrs ⟨[], [function func.type.results]⟩ T.first
      ⟨(known func.type.results).reverse, []⟩ T.fin :=
  (passes_body (function_kind_ne _)).mpr ⟨T.last, T.emission, T.lowers, T.closes, rfl, rfl⟩

variable {l' : List Instr} {scopes' : List Scope}

namespace Remains

theorem passes (h : T.Remains l scopes e) :
    Passes T.ctx l ⟨[], scopes⟩ e ⟨(known func.type.results).reverse, []⟩ T.fin := by
  obtain ⟨before, heq, hb⟩ := h
  have hall := T.passes
  rwa [heq, hb.append] at hall

theorem along (h : T.Remains (l ++ l') scopes e)
    (hl : Passes T.ctx l ⟨[], scopes⟩ e ⟨[], scopes'⟩ e') : T.Remains l' scopes' e' := by
  obtain ⟨before, heq, hb⟩ := h
  exact ⟨before ++ l, by rw [heq, append_assoc], hb.append.mpr hl⟩

theorem next (h : T.Remains (i :: l) (sc :: os) e)
    (hc : i.check T.ctx e.asm.labels.size ⟨[], sc :: os⟩ = .ok () ⟨[], scopes'⟩) :
    T.Remains l scopes' (i.emit T.ctx ⟨[], sc :: os⟩ e) :=
  Remains.along (l := [i]) h (.cons hc .nil)

theorem kept (h : T.Remains l scopes e) : e.Kept T.fin := by
  have hrest := h.passes
  obtain ⟨before, -, hb⟩ := h
  exact hrest.kept (hb.made (.start ..))

theorem mem_points (h : T.Remains l scopes e) :
    ∀ p ∈ trace T.ctx l ⟨[], scopes⟩ e, p ∈ T.points := by
  obtain ⟨before, heq, hb⟩ := h
  intro p hp
  rw [points, heq, hb.trace_append]
  exact mem_append_right _ hp

theorem mem_points_head (h : T.Remains (i :: l) scopes e) : ⟨i, scopes, e⟩ ∈ T.points :=
  h.mem_points _ mem_cons_self

theorem eq_last (h : T.Remains (.endScope :: l) [sc] e) : sc = T.last ∧ e = T.emission := by
  obtain ⟨st, hc, hl⟩ := passes_cons.mp h.passes
  obtain rfl : l = [] := by
    cases Instr.check_iff.mp hc with
    | plain hi => cases hi
    | last _ _ => exact hl.eq_nil
  obtain ⟨before, heq, hb⟩ := h
  obtain rfl : T.body.code.instrs = before := append_cancel_right heq
  obtain ⟨hst, he⟩ := T.lowers.passes.unique hb
  cases hst
  exact ⟨rfl, he⟩

end Remains

theorem types_inner {type : FuncType} {rest : List Operand}
    (hops : sc.operands = known type.params.reverse ++ rest) (kind : ScopeKind)
    (label endLabel : Label) (elseLabel : Option Label) :
    Scope.types (sc.inner kind type label endLabel elseLabel :: sc.holding unr rest :: os) =
      Scope.types (sc :: os) := by
  have hin : (sc.inner kind type label endLabel elseLabel).operands = known type.params.reverse :=
    (known_reverse _).symm
  have hout : (sc.holding unr rest).operands = rest := rfl
  rw [Scope.types_cons, Scope.types_cons, Scope.types_cons, hin, hout, hops, Operand.types_append,
    append_assoc]

theorem lt_size_fin : T.emission.asm.code.size < T.fin.asm.code.size := by
  have hdead : T.last.dead = false := T.lowers.dead_eq
  have hkind : T.last.kind = .function := T.lowers.kind_eq
  obtain ⟨code, hcode, hle⟩ :=
    (T.last.bindLabels T.emission).exists_code_epilogue T.last.results
  rw [fin, T.last.emitEnd_eq _ hdead, if_pos hkind, hcode, Array.size_push]
  rw [T.last.code_bindLabels] at hle
  exact Nat.lt_succ_of_le hle

theorem Remains.starts_end (h : T.Remains (.endScope :: l) (sc :: os) e) (hos : Scope.AllLive os)
    (hlt : e.asm.code.size < (sc.emitEnd e).asm.code.size) :
    T.Starts e.asm.code.size (func.view (sc.results.reverse ++ Scope.types os)) := by
  refine ⟨_, h.mem_points_head, rfl, hlt, _, ?_, rfl⟩
  rw [known_append, known_reverse, hos.known_types]
  rfl

theorem types_of_closes (h : sc.Live) (hc : sc.Closes) :
    Operand.types sc.operands = sc.results.reverse := by
  unfold Scope.Closes at hc
  rw [h.reachable] at hc
  rw [eq_append_of_take? h.known hc, append_nil, Operand.types_known]

theorem Remains.starts (h : T.Remains l (sc :: os) e) (hl : Scope.AllLive (sc :: os)) :
    T.Starts e.asm.code.size (func.view (Scope.types (sc :: os))) := by
  induction l generalizing sc os e with
  | nil =>
    obtain ⟨hst, -⟩ := Passes.nil.unique h.passes
    exact nomatch congrArg ControlStack.scopes hst
  | cons i l ih =>
    obtain ⟨hsc, hos⟩ := forall_mem_cons.mp hl
    obtain ⟨st1, hc, -⟩ := passes_cons.mp h.passes
    -- an instruction that emits something is the one
    have hhere : i ≠ .endScope → e.asm.code.size < (i.emit T.ctx ⟨[], sc :: os⟩ e).asm.code.size →
        T.Starts e.asm.code.size (func.view (Scope.types (sc :: os))) := fun hne hlt =>
      ⟨_, h.mem_points_head, rfl, hlt, _, (Point.operands_of_ne hne).trans hl.known_types.symm, rfl⟩
    cases Instr.check_iff.mp hc with
    | plain hi hm =>
      rw [hsc.reachable] at hm
      by_cases hnop : i = .nop
      · subst hnop
        cases hm with
        | fixed hf ht =>
          cases hf
          cases ht
          have hsame : sc.holding false ([] ++ sc.operands) = sc := by
            rw [← hsc.reachable]
            rfl
          have hemit : Instr.nop.emit T.ctx ⟨[], sc :: os⟩ e = e := ite_self _
          have hnext := h.next hc
          rw [hemit, known_nil, reverse_nil, hsame] at hnext
          exact ih hnext hl
      · refine hhere (fun hend => ?_) ?_
        · rw [hend] at hi
          cases hi
        · rw [Instr.emit_of_isPlain hi, hsc.isEmitting]
          exact hm.lt_size hl hnop e
    | block _ hp =>
      rw [hsc.reachable] at hp
      have hnext := ih (h.next hc) (forall_mem_cons.mpr ⟨hsc.inner .., hl.holding
        (take?_known hsc.known hp)⟩)
      rwa [types_inner (eq_append_of_take? hsc.known hp)] at hnext
    | loop _ hp =>
      rw [hsc.reachable] at hp
      have hnext := ih (h.next hc) (forall_mem_cons.mpr ⟨hsc.inner .., hl.holding
        (take?_known hsc.known hp)⟩)
      rw [types_inner (eq_append_of_take? hsc.known hp), emit_loop_quiet.code] at hnext
      exact hnext
    | ifThen _ _ =>
      refine hhere Instr.noConfusion ?_
      rw [emit_ifThen, if_pos hsc.isEmitting, code_emit, Array.size_push]
      exact Nat.lt_succ_self _
    | elseArm _ _ =>
      refine hhere Instr.noConfusion ?_
      rw [emit_elseArm, Scope.size_emitElse hsc]
      exact Nat.lt_succ_self _
    | last _ hcl =>
      rw [Scope.types_cons, types_of_closes hsc hcl]
      obtain ⟨rfl, rfl⟩ := h.eq_last
      exact h.starts_end hos lt_size_fin
    | @endScope _ o os _ hcl =>
      rw [Scope.types_cons, types_of_closes hsc hcl]
      by_cases hlt : e.asm.code.size < (sc.emitEnd e).asm.code.size
      · exact h.starts_end hos hlt
      · -- a scope inside others ends without code
        have hsize := (sc.heads_emitEnd e).code_size
        have hnext := ih (h.next hc)
          (Scope.AllLive.holding hos (reverse_known_append (hos o mem_cons_self).known))
        have hops : (o.keeping ((known sc.results).reverse ++ o.operands)).operands =
            known sc.results.reverse ++ o.operands := by
          rw [known_reverse]
          rfl
        rw [Scope.types_cons, hops, Operand.types_append, Operand.types_known,
          append_assoc, ← Scope.types_cons, emit_endScope,
          show (sc.emitEnd e).asm.code.size = e.asm.code.size by omega] at hnext
        exact hnext

end Translation

end Wasm
