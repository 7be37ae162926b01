import Wasm.Proofs.Lowering.Passing
import Wasm.Proofs.Lowering.Recast

/-! # Compiling with accessors and without

Emissions differ in loads and stores only (`Emission.Inlines`). -/

namespace Wasm

open List Accessors

def AccessorKey.op : AccessorKey → BasicOp
  | ⟨.load access, memory, offset⟩ => .load access memory offset
  | ⟨.store access, memory, offset⟩ => .store access memory offset

def AccessKind.via : AccessKind → Nat → BasicOp
  | .load _ => .loadVia
  | .store _ => .storeVia

def BasicOp.inline (accessors : Accessors) (op : BasicOp) : BasicOp :=
  match op with
  | .loadVia id | .storeVia id => ((accessors.get? id).map AccessorKey.op).getD op
  | _ => op

def BasicOp.Routed (accessors : Accessors) : BasicOp → Prop
  | .load _ memory offset | .store _ memory offset => memory = 0 ∧ offset = 0
  | .loadVia id => ∃ access memory offset,
      accessors.get? id = some ⟨.load access, memory, offset⟩ ∧ ¬ (memory = 0 ∧ offset = 0)
  | .storeVia id => ∃ access memory offset,
      accessors.get? id = some ⟨.store access, memory, offset⟩ ∧ ¬ (memory = 0 ∧ offset = 0)
  | _ => True

namespace BasicOp

variable {a b : Accessors} {op : BasicOp}

theorem inline_of_not_isAccess (h : op.isAccess = false) : op.inline a = op := by
  cases op <;> first | rfl | exact nomatch h

theorem routed_of_not_isAccess (h : op.isAccess = false) : op.Routed a := by
  cases op <;> first | exact trivial | exact nomatch h

theorem Routed.mono (h : op.Routed a) (hab : a.keys.toList <+: b.keys.toList) : op.Routed b := by
  cases op with
  | loadVia id | storeVia id =>
    obtain ⟨access, memory, offset, hid, hne⟩ := h
    exact ⟨access, memory, offset, get?_mono hab hid, hne⟩
  | load access memory offset | store access memory offset => exact h
  | _ => exact trivial

end BasicOp

theorem AccessorKey.inline_op (a : Accessors) (key : AccessorKey) : key.op.inline a = key.op := by
  obtain ⟨_ | _, _, _⟩ := key <;> rfl

variable {key : AccessorKey} {a : Accessors}

theorem AccessorKey.routed_op (h : key.memory = 0 ∧ key.offset = 0) (a : Accessors) :
    key.op.Routed a := by
  obtain ⟨_ | _, _, _⟩ := key <;> exact h

theorem AccessKind.inline_via {id : Nat} (h : a.get? id = some key) :
    (key.kind.via id).inline a = key.op := by
  obtain ⟨_ | _, _, _⟩ := key <;>
  · show ((a.get? id).map AccessorKey.op).getD _ = _
    rw [h]
    rfl

theorem AccessKind.routed_via {id : Nat} (h : a.get? id = some key)
    (hne : ¬ (key.memory = 0 ∧ key.offset = 0)) : (key.kind.via id).Routed a := by
  obtain ⟨_ | _, _, _⟩ := key <;> exact ⟨_, _, _, h, hne⟩

/-! ## Operations of an emission -/

def Emission.Consists (P : BasicOp → Prop) (e : Emission) : Prop :=
  ∀ op, .basic op ∈ e.asm.code.toList → P op

namespace Recast

open Classical in
noncomputable def sieve (P : BasicOp → Prop) (hP : ∀ b, b.isAccess = false → P b) : Recast where
  op b := if P b then b else .unreachable
  accessors := id
  first := 1
  between := []
  op_eq b hb := if_pos (hP b hb)
  first_pos := Nat.one_pos

variable (r : Recast)

theorem label_eq (h : r.between = []) (l : Label) : r.label l = l := by
  unfold label
  rw [h]
  split <;> rfl

theorem labels_eq (h : r.between = []) (positions : Array (Option Nat)) :
    r.labels positions = positions := by
  apply Array.ext'
  rw [labels, h, nil_append]
  exact take_append_drop _ _

theorem stack_eq (h : r.between = []) (st : ControlStack) : r.stack st = st := by
  obtain ⟨base, scopes⟩ := st
  have hscope : ∀ sc, r.scope sc = sc := by
    intro sc
    obtain ⟨kind, params, results, label, endLabel, elseLabel, unreachable, dead, operands⟩ := sc
    unfold scope
    rw [funext (r.label_eq h)]
    cases elseLabel <;> rfl
  unfold stack
  rw [funext hscope, map_id']

theorem ops_eq (h : r.between = []) (op : Op Label) : r.ops op = op.mapBasic r.op := by
  cases op with
  | basic op => rfl
  | jumpTable targets default =>
    rw [ops, funext (r.label_eq h), Array.map_id']
    rfl
  | _ =>
    rw [ops, r.label_eq h]
    rfl

theorem sieve_emission {P : BasicOp → Prop} {hP : ∀ b, b.isAccess = false → P b} {e : Emission} :
    (sieve P hP).emission e = e ↔ e.Consists P := by
  have hop : ∀ b, (sieve P hP).op b = b ↔ P b := by
    intro b
    by_cases hb : P b
    · exact ⟨fun _ => hb, fun _ => if_pos hb⟩
    · refine ⟨fun h => ?_, fun h => absurd h hb⟩
      have hout : (sieve P hP).op b = .unreachable := if_neg hb
      exact hP b (h.symm.trans hout ▸ rfl)
  have hcode : (sieve P hP).emission e = e ↔ e.asm.code.map (sieve P hP).ops = e.asm.code := by
    unfold emission
    rw [labels_eq _ rfl]
    constructor
    · intro h
      exact congrArg (·.asm.code) h
    · intro h
      rw [h]
      rfl
  rw [hcode, ← Array.toList_inj, Array.toList_map]
  constructor
  · intro h op hmem
    obtain ⟨i, hi, heq⟩ := getElem_of_mem hmem
    have hi' : ((e.asm.code.toList.map (sieve P hP).ops)[i]?) = some (.basic op) := by
      rw [h, getElem?_eq_getElem hi, heq]
    rw [getElem?_map, getElem?_eq_getElem hi, heq] at hi'
    exact (hop op).mp (Op.basic.inj (Option.some.inj hi'))
  · intro h
    refine (map_congr_left fun op hmem => ?_).trans (map_id' _)
    rw [ops_eq _ rfl]
    cases op with
    | basic op => exact congrArg Op.basic ((hop op).mpr (h op hmem))
    | _ => rfl

def inlining (a : Accessors) : Recast where
  op := (·.inline a)
  accessors _ := .empty
  first := 1
  between := []
  op_eq _ hb := BasicOp.inline_of_not_isAccess hb
  first_pos := Nat.one_pos

end Recast

namespace Emission

variable {ctx : BodyContext} {st : ControlStack} {e e0 : Emission} {i : Instr}

variable {P : BasicOp → Prop}

theorem Consists.emit (hP : ∀ b, b.isAccess = false → P b) (h : e.Consists P)
    (hmade : 0 < e.asm.labels.size)
    (hi : st.isEmitting = true → i.isAccess = true → (i.emitReachable ctx st e).Consists P) :
    (i.emit ctx st e).Consists P := by
  have hfix : (Recast.sieve P hP).emission e = e := Recast.sieve_emission.mpr h
  have hst := (Recast.sieve P hP).stack_eq rfl st
  have hemit := (Recast.sieve P hP).emit ctx ctx.useAccessors st hmade fun hem ha => by
    rw [hfix, hst]
    exact (Recast.sieve_emission.mpr (hi hem ha)).symm
  rw [hfix, hst] at hemit
  exact Recast.sieve_emission.mp hemit.symm

theorem Consists.basic (h : e.Consists P) {op : BasicOp} (hop : P op) :
    (e.basic op).Consists P := by
  intro op' hmem
  rw [Emission.basic, code_emit, Array.toList_push, mem_append, mem_singleton] at hmem
  rcases hmem with hmem | hmem
  · exact h op' hmem
  · cases hmem
    exact hop

def access (ctx : BodyContext) (kind : AccessKind) (arg : MemArg) (e : Emission) : Emission :=
  match e.accessor? ctx kind arg with
  | some (id, e) => e.basic (kind.via id)
  | none => e.basic (AccessorKey.op ⟨kind, arg.memory, arg.offset⟩)

/-- With accessors put back, the code is the same. -/
structure Inlines (e e0 : Emission) : Prop where
  made : 0 < e.asm.labels.size
  inlined : ∀ a : Accessors, e.accessors.keys.toList <+: a.keys.toList →
    (Recast.inlining a).emission e = e0
  routed : e.Consists (·.Routed e.accessors)

theorem accessor?_eq_none (h : ctx.useAccessors = false) (kind : AccessKind) (arg : MemArg)
    (e : Emission) : e.accessor? ctx kind arg = none := by
  unfold accessor?
  rw [h]
  exact if_pos (.inr rfl)

theorem accessor?_cases (h : ctx.useAccessors = true) (kind : AccessKind) (arg : MemArg)
    (e : Emission) :
    (e.accessor? ctx kind arg = none ∧ arg.memory = 0 ∧ arg.offset = 0) ∨
      ∃ id a, e.accessor? ctx kind arg = some (id, { e with accessors := a }) ∧
        e.accessors.keys.toList <+: a.keys.toList ∧
        a.get? id = some ⟨kind, arg.memory, arg.offset⟩ ∧ ¬ (arg.memory = 0 ∧ arg.offset = 0) := by
  unfold accessor?
  rw [h]
  by_cases hzero : arg.memory = 0 ∧ arg.offset = 0
  · exact .inl ⟨if_pos (.inl hzero), hzero⟩
  · refine .inr ⟨_, _, if_neg ?_, keys_intern _ _, get?_intern _ _, hzero⟩
    rintro (hz | hn)
    · exact hzero hz
    · cases hn

theorem Inlines.access (h : e.Inlines e0) (hctx : ctx.useAccessors = true) (kind : AccessKind)
    (arg : MemArg) :
    (e.access ctx kind arg).Inlines (e0.basic (AccessorKey.op ⟨kind, arg.memory, arg.offset⟩)) := by
  rcases accessor?_cases hctx kind arg e with ⟨hnone, hzero⟩ | ⟨id, a, hsome, hkeys, hkey, hne⟩
  · rw [Emission.access, hnone]
    refine ⟨h.made, fun b hb => ?_, h.routed.basic (AccessorKey.routed_op hzero _)⟩
    rw [← h.inlined b hb]
    exact ((Recast.inlining b).emit_ops e (.basic _)).symm.trans
      (by rw [Recast.ops]; exact congrArg (Emission.basic _) (AccessorKey.inline_op _ _))
  · rw [Emission.access, hsome]
    refine ⟨h.made, fun b hb => ?_, ?_⟩
    · rw [← h.inlined b (hkeys.trans hb)]
      exact ((Recast.inlining b).emit_ops { e with accessors := a } (.basic _)).symm.trans
        (congrArg (Emission.basic _) (AccessKind.inline_via (get?_mono hb hkey)))
    · refine Consists.basic (fun op hop => (h.routed op hop).mono hkeys) ?_
      exact AccessKind.routed_via hkey hne

theorem Inlines.emit (h : e.Inlines e0) (hctx : ctx.useAccessors = true) (st : ControlStack)
    (i : Instr) :
    (i.emit ctx st e).Inlines (i.emit { ctx with useAccessors := false } st e0) := by
  have hheads := i.heads_emit ctx st e
  have haccess : i.isAccess = true → (i.emitReachable ctx st e).Inlines
        (i.emitReachable { ctx with useAccessors := false } st e0) := by
    intro hi
    cases i with
    | load access arg =>
      have hnone : e0.accessor? { ctx with useAccessors := false } (.load access) arg = none :=
        accessor?_eq_none rfl _ _ _
      show (e.access ctx (.load access) arg).Inlines _
      rw [Instr.emitReachable, hnone]
      exact h.access hctx (.load access) arg
    | store access arg =>
      have hnone : e0.accessor? { ctx with useAccessors := false } (.store access) arg = none :=
        accessor?_eq_none rfl _ _ _
      show (e.access ctx (.store access) arg).Inlines _
      rw [Instr.emitReachable, hnone]
      exact h.access hctx (.store access) arg
    | _ => cases hi
  -- Where code is emitted, a load or store is emitted as such.
  have hemit : st.isEmitting = true → i.isAccess = true →
      i.emit ctx st e = i.emitReachable ctx st e := by
    intro hem hi
    cases i <;> first | exact if_pos hem | cases hi
  refine ⟨Nat.lt_of_lt_of_le h.made hheads.labels_le, fun a ha => ?_, ?_⟩
  · have hst := (Recast.inlining a).stack_eq rfl st
    have heq := h.inlined a (hheads.keys.trans ha)
    have hrecast := (Recast.inlining a).emit ctx false st h.made (i := i) fun hem hi => by
      rw [heq, hst]
      exact ((haccess hi).inlined a (hemit hem hi ▸ ha)).symm
    rw [heq, hst] at hrecast
    exact hrecast.symm
  · refine Consists.emit (fun b hb => BasicOp.routed_of_not_isAccess hb)
      (fun op hop => (h.routed op hop).mono hheads.keys) h.made fun hem hi => ?_
    rw [hemit hem hi]
    exact (haccess hi).routed

end Emission

end Wasm
