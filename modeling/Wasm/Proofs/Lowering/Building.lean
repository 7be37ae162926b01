import Wasm.Proofs.Lowering.Emission
import Wasm.Proofs.Lowering.Link

/-! # How an emission comes about

What holds of emissions is read off their history (`Emission.Builds`). -/

namespace Wasm

open List Scope
open Assembly (IsBound)

variable {D : Emission → BasicOp → Prop} {T : Label → Prop} {depth : Nat} {ctx : BodyContext}
  {i : Instr} {sc : Scope} {os : List Scope}

variable {labels : Array (Option Nat)} {label : Label}

theorem Label.id_ne {l l' : Label} (h : l ≠ l') : l.id ≠ l'.id := by
  intro hid
  cases l
  cases l'
  cases hid
  exact h rfl

namespace Assembly

/-- Whether a label was made and has no position. -/
def IsFree (labels : Array (Option Nat)) (label : Label) : Prop := labels[label.id]? = some none

theorem IsFree.not_isBound (h : IsFree labels label) : ¬ IsBound labels label := by
  rintro ⟨position, hp⟩
  cases h.symm.trans hp

theorem IsFree.lt (h : IsFree labels label) : label.id < labels.size :=
  (Array.getElem?_eq_some_iff.mp h).1

theorem IsBound.lt (h : IsBound labels label) : label.id < labels.size := by
  obtain ⟨position, hp⟩ := h
  exact (Array.getElem?_eq_some_iff.mp hp).1

end Assembly

open Assembly (IsFree)

namespace Emission

/-- An emission comes from `e` by adding operations that `D` grants and jumps, by making labels,
    scratch slots and accessors, and by binding labels.  The list has the labels that are still to
    be bound, the last one first; jumps go to these, to bound ones and to the labels `T`. -/
inductive Builds (D : Emission → BasicOp → Prop) (T : Label → Prop) (e : Emission) :
    List Label → Emission → Prop
  | refl : Builds D T e [] e
  | basic {pend e' op} (h : Builds D T e pend e') (hop : D e' op) : Builds D T e pend (e'.basic op)
  | jump {pend e'} {op : Op Label} (h : Builds D T e pend e') (hop : ∀ b, op ≠ .basic b)
      (ht : ∀ l ∈ op.targets, IsBound e'.asm.labels l ∨ T l ∨ l ∈ pend) :
      Builds D T e pend (e'.emit op)
  | newLabel {pend e'} (h : Builds D T e pend e') :
      Builds D T e (e'.newLabel.1 :: pend) e'.newLabel.2
  | spare {pend e'} (h : Builds D T e pend e') : Builds D T e pend e'.newLabel.2
  | bind {before label after e'} (h : Builds D T e (before ++ label :: after) e') :
      Builds D T e (before ++ after) (e'.bind label)
  | scratchSlot {pend e'} (h : Builds D T e pend e') (type : ValueType) (ordinal : Nat) :
      Builds D T e pend (e'.scratchSlot type ordinal).2
  | intern {pend e'} (h : Builds D T e pend e') (key : AccessorKey) :
      Builds D T e pend { e' with accessors := (e'.accessors.intern key).2 }

theorem asm_scratchSlot (e : Emission) (type : ValueType) (ordinal : Nat) :
    (e.scratchSlot type ordinal).2.asm = e.asm := by
  unfold scratchSlot
  split <;> rfl

theorem isFree_newLabel (e : Emission) : IsFree e.newLabel.2.asm.labels e.newLabel.1 := by
  rw [IsFree, labels_newLabel, newLabel_fst, Array.getElem?_push_size]

theorem Extends.isFree {e e' : Emission} (h : e.Extends e')
    (hfree : IsFree e.asm.labels label) : IsFree e'.asm.labels label :=
  (h.labels label.id hfree.lt).trans hfree

theorem Extends.isBound {e e' : Emission} (h : e.Extends e')
    (hb : IsBound e.asm.labels label) : IsBound e'.asm.labels label := by
  obtain ⟨position, hp⟩ := hb
  exact ⟨position, (h.labels _ (IsBound.lt ⟨position, hp⟩)).trans hp⟩

namespace Builds

variable {e e' e'' : Emission} {pend pend' : List Label}

section

variable (h : Builds D T e pend e')
include h

theorem pending : e.asm.labels.size ≤ e'.asm.labels.size ∧ pend.Nodup ∧
      ∀ l ∈ pend, e.asm.labels.size ≤ l.id ∧ IsFree e'.asm.labels l := by
  induction h with
  | refl => exact ⟨Nat.le_refl _, .nil, forall_mem_nil _⟩
  | basic _ _ ih | jump _ _ _ ih | intern _ _ ih => exact ih
  | scratchSlot _ type ordinal ih =>
    rw [asm_scratchSlot]
    exact ih
  | @newLabel pend e' _ ih =>
    have hx := (Extends.refl e').newLabel
    refine ⟨Nat.le_trans ih.1 hx.labels_le, nodup_cons.mpr ⟨fun hmem => ?_, ih.2.1⟩,
      forall_mem_cons.mpr ⟨⟨ih.1, e'.isFree_newLabel⟩, fun l hl => ?_⟩⟩
    · exact Nat.lt_irrefl _ (ih.2.2 _ hmem).2.lt
    · exact ⟨(ih.2.2 l hl).1, hx.isFree (ih.2.2 l hl).2⟩
  | @spare pend e' _ ih =>
    have hx := (Extends.refl e').newLabel
    exact ⟨Nat.le_trans ih.1 hx.labels_le, ih.2.1, fun l hl =>
      ⟨(ih.2.2 l hl).1, hx.isFree (ih.2.2 l hl).2⟩⟩
  | @bind before label after e' _ ih =>
    obtain ⟨hle, hnd, hpend⟩ := ih
    have hmid := perm_middle.nodup_iff.mp hnd
    rw [nodup_cons] at hmid
    refine ⟨by rw [labels_bind, Array.size_setIfInBounds]; exact hle, hmid.2, fun l hl => ?_⟩
    have hin : l ∈ before ++ label :: after :=
      perm_middle.mem_iff.mpr (mem_cons_of_mem _ hl)
    refine ⟨(hpend l hin).1, ?_⟩
    rw [IsFree, labels_bind, Array.getElem?_setIfInBounds_ne]
    · exact (hpend l hin).2
    · exact Label.id_ne fun heq => hmid.1 (heq ▸ hl)

theorem extended : e.Extends e' := by
  induction h with
  | refl => exact .refl e
  | basic _ _ ih | jump _ _ _ ih => exact ih.emit _
  | newLabel _ ih => exact ih.newLabel
  | spare _ ih => exact ih.newLabel
  | bind h ih => exact ih.bind (h.pending.2.2 _ (mem_append_right _ mem_cons_self)).1
  | scratchSlot _ type ordinal ih => exact ih.scratchSlot type ordinal
  | intern _ key ih => exact { ih with keys := ih.keys.trans (Accessors.keys_intern _ _) }

theorem append {T' : Label → Prop} (h' : Builds D T' e' pend' e'')
    (hT : ∀ l, T' l → IsBound e'.asm.labels l ∨ T l ∨ l ∈ pend) :
    Builds D T e (pend' ++ pend) e'' := by
  induction h' with
  | refl => exact h
  | basic _ hop ih => exact ih.basic hop
  | jump h' hop ht ih =>
    refine ih.jump hop fun l hl => ?_
    rcases ht l hl with hb | hl | hl
    · exact .inl hb
    · rcases hT l hl with hb | hl | hl
      · exact .inl (h'.extended.isBound hb)
      · exact .inr (.inl hl)
      · exact .inr (.inr (mem_append_right _ hl))
    · exact .inr (.inr (mem_append_left _ hl))
  | newLabel _ ih => exact ih.newLabel
  | spare _ ih => exact ih.spare
  | bind _ ih =>
    rw [append_assoc] at ih ⊢
    exact ih.bind
  | scratchSlot _ type ordinal ih => exact ih.scratchSlot type ordinal
  | intern _ key ih => exact ih.intern key

theorem trans (h' : Builds D T e' pend' e'') : Builds D T e (pend' ++ pend) e'' :=
  h.append h' fun _ hl => .inr (.inl hl)

end

theorem bind_head (h : Builds D T e (label :: pend) e') : Builds D T e pend (e'.bind label) :=
  @Builds.bind D T e [] label pend e' h

end Builds

/-! ## Branches -/

/-- Operations that `D` grants everywhere. -/
structure Admits (D : Emission → BasicOp → Prop) : Prop where
  scratch : ∀ {e : Emission} {s : Scratch}, s ∈ e.scratch →
    D e (.localSet s.slot) ∧ D e (.localGet s.slot)
  drop : ∀ {e}, D e .drop
  unreachable : ∀ {e}, D e .unreachable
  pack : ∀ {e} carrier, D e (.pack carrier)
  unpack : ∀ {e} carrier, D e (.unpack carrier)
  ret : ∀ {e}, D e .ret

theorem admits_all : Admits fun _ _ => True :=
  ⟨fun _ => ⟨trivial, trivial⟩, trivial, trivial, fun _ => trivial, fun _ => trivial, trivial⟩

namespace Builds

variable {e e' : Emission} {pend : List Label} {stack : ControlStack}

section

variable (h : Builds D T e pend e')
include h

theorem scratchSlots (seen types : List ValueType) :
    Builds D T e pend (Emission.scratchSlots seen types e').2 := by
  induction types generalizing seen e' with
  | nil => exact h
  | cons type types ih => exact ih (h.scratchSlot type _) _

theorem foldl_basic {ops : List BasicOp}
    (hops : ∀ op ∈ ops, ∀ e1 : Emission, e1.scratch = e'.scratch → D e1 op) :
    Builds D T e pend (ops.foldl Emission.basic e') := by
  induction ops generalizing e' with
  | nil => exact h
  | cons op ops ih =>
    rw [forall_mem_cons] at hops
    exact ih (h.basic (hops.1 e' rfl)) hops.2

theorem transfer (hD : Admits D) (types : List ValueType) (n : Nat) :
    Builds D T e pend (e'.transfer types n) := by
  rw [transfer_eq]
  have hslots : ∀ slot ∈ (Emission.scratchSlots [] types e').1, ∀ e1 : Emission,
      e1.scratch = (Emission.scratchSlots [] types e').2.scratch →
        D e1 (.localSet slot) ∧ D e1 (.localGet slot) := by
    intro slot hslot e1 heq
    rw [← map_slot_scratchEntries [] (length_scratchSlots [] types e')] at hslot
    obtain ⟨s, hs, rfl⟩ := mem_map.mp hslot
    exact hD.scratch (heq ▸ mem_scratchEntries [] types e' s hs)
  refine (h.scratchSlots [] types).foldl_basic fun op hop e1 heq => ?_
  simp only [transferOps, mem_append, mem_map, mem_reverse] at hop
  rcases hop with ⟨slot, hslot, rfl⟩ | hdrop | ⟨slot, hslot, rfl⟩
  · exact (hslots slot hslot e1 heq).1
  · rw [eq_of_mem_replicate hdrop]
    exact hD.drop
  · exact (hslots slot hslot e1 heq).2

theorem branch (hD : Admits D) (hT : ∀ s ∈ stack.scopes, T s.label) (depth : Nat) :
    Builds D T e pend (e'.branch stack depth) := by
  unfold Emission.branch
  split
  · next scope excess hs _ =>
      have hmem := mem_of_getElem? (Check.scopeAt_eq_ok.mp hs)
      refine Builds.jump ?_ (fun b hb => by cases hb) fun l hl => .inr (.inl ?_)
      · split
        · exact h
        · exact h.transfer hD _ _
      · rw [mem_singleton.mp hl]
        exact hT scope hmem
  · exact h

theorem branchIf (hD : Admits D) (hT : ∀ s ∈ stack.scopes, T s.label)
    (hd : T (target stack depth)) : Builds D T e pend (e'.branchIf stack depth) := by
  unfold Emission.branchIf
  split
  · refine h.jump (fun b hb => by cases hb) fun l hl => .inr (.inl ?_)
    rw [mem_singleton.mp hl]
    exact hd
  · refine Builds.bind_head ((h.newLabel.jump ?_ ?_).branch hD hT depth)
    · intro b hb
      cases hb
    · intro l hl
      exact .inr (.inr (mem_singleton.mp hl ▸ mem_cons_self))

end

theorem tableLabels {stubs : List (Nat × Label)}
    (h : Builds D T e (stubs.map Prod.snd ++ pend) e') (depths : List Nat) :
    Builds D T e ((Emission.tableLabels stack stubs depths e').2.1.map Prod.snd ++ pend)
      (Emission.tableLabels stack stubs depths e').2.2 := by
  induction depths generalizing stubs e' with
  | nil => exact h
  | cons depth depths ih =>
    rw [Emission.tableLabels]
    split
    · exact ih h
    · split
      · exact ih h
      · exact ih h.newLabel

theorem stubs (hD : Admits D) (hT : ∀ s ∈ stack.scopes, T s.label) {stubs : List (Nat × Label)}
    (h : Builds D T e (stubs.reverse.map Prod.snd ++ pend) e') :
    Builds D T e pend (stubs.foldl (fun e stub => (e.bind stub.2).branch stack stub.1) e') := by
  induction stubs generalizing e' with
  | nil => exact h
  | cons stub stubs ih =>
    rw [reverse_cons, map_append, append_assoc] at h
    exact ih ((Builds.bind h).branch hD hT stub.1)

theorem branchTable (h : Builds D T e pend e') (hD : Admits D)
    (hT : ∀ s ∈ stack.scopes, T s.label) {depths : List Nat} {default : Nat}
    (hd : ∀ depth ∈ depths ++ [default], T (target stack depth)) :
    Builds D T e pend (e'.branchTable stack depths default) := by
  have hmem := (@mem_tableLabels stack [] (depths ++ [default]) e').1
  have hlen := length_tableLabels stack [] (depths ++ [default]) e'
  have htable := @tableLabels D T e e' pend stack [] h (depths ++ [default])
  unfold Emission.branchTable
  generalize Emission.tableLabels stack [] (depths ++ [default]) e' = table at hmem hlen htable
  obtain ⟨labels, stubs, e1⟩ := table
  refine Builds.stubs hD hT ?_
  rw [reverse_reverse]
  refine htable.jump (fun b hb => by cases hb) fun l hl => .inr ?_
  rw [targets_jumpTable (by rintro rfl; simp at hlen)] at hl
  rcases hmem l hl with ⟨depth, hdepth, rfl⟩ | ⟨depth, hstub⟩
  · exact .inl (hd depth hdepth)
  · exact .inr (mem_append_left _ (mem_map.mpr ⟨_, hstub, rfl⟩))

theorem unpackResults (h : Builds D T e pend e') (hD : Admits D) (results : List ValueType) :
    Builds D T e pend (e'.unpackResults results) := by
  unfold Emission.unpackResults
  split
  · exact h.basic (hD.unpack _)
  · exact h

theorem epilogue (h : Builds D T e pend e') (hD : Admits D) (results : List ValueType) :
    Builds D T e pend (e'.epilogue results) := by
  refine Builds.basic ?_ hD.ret
  split
  · exact h.basic (hD.pack _)
  · exact h

end Builds

section Extends

variable (e : Emission) (stack : ControlStack)

theorem extends_branch (depth : Nat) : e.Extends (e.branch stack depth) :=
  (@Builds.branch _ (fun _ => True) e e [] stack .refl admits_all (fun _ _ => trivial)
    depth).extended

theorem extends_unpackResults (results : List ValueType) : e.Extends (e.unpackResults results) :=
  (@Builds.unpackResults _ (fun _ => True) e e [] .refl admits_all results).extended

theorem extends_epilogue (results : List ValueType) : e.Extends (e.epilogue results) :=
  (@Builds.epilogue _ (fun _ => True) e e [] .refl admits_all results).extended

theorem builds_tableLabels (depths : List Nat) :
    Builds (fun _ _ => True) (fun _ => True) e ((tableLabels stack [] depths e).2.1.map Prod.snd)
      (tableLabels stack [] depths e).2.2 := by
  have h := @Builds.tableLabels (fun _ _ => True) (fun _ => True) e e [] stack [] .refl depths
  rwa [append_nil] at h

end Extends

end Emission

/-! ## Instructions -/

/-- An operation, or the access behind an accessor. -/
inductive BasicOp.StandsFor (accessors : Accessors) : BasicOp → BasicOp → Prop
  | self {op} : StandsFor accessors op op
  | load {access memory offset id} (h : accessors.get? id = some ⟨.load access, memory, offset⟩) :
      StandsFor accessors (.loadVia id) (.load access memory offset)
  | store {access memory offset id} (h : accessors.get? id = some ⟨.store access, memory, offset⟩) :
      StandsFor accessors (.storeVia id) (.store access memory offset)

variable {unr : Bool} {ops : List Operand}

theorem Instr.emitReachable_of_op? {op : BasicOp} (h : i.op? ctx = some op) (stack : ControlStack)
    (e : Emission) :
    ∃ (e1 : Emission) (op' : BasicOp), i.emitReachable ctx stack e = e1.basic op' ∧
      e1.asm = e.asm ∧ op'.StandsFor e1.accessors op ∧
      ∀ D T, Emission.Builds D T e [] e1 := by
  have haccess : ∀ (kind : AccessKind) (arg : MemArg), e.accessor? ctx kind arg = none ∨
      ∃ id e1, e.accessor? ctx kind arg = some (id, e1) ∧ e1.asm = e.asm ∧
        e1.accessors.get? id = some ⟨kind, arg.memory, arg.offset⟩ ∧
        ∀ D T, Emission.Builds D T e [] e1 := by
    intro kind arg
    by_cases hplain : (arg.memory = 0 ∧ arg.offset = 0) ∨ !ctx.useAccessors
    · exact .inl (if_pos hplain)
    · exact .inr ⟨_, _, if_neg hplain, rfl, Accessors.get?_intern _ _, fun _ _ => .intern .refl _⟩
  cases i with
  | load access arg =>
    cases h
    obtain hnone | ⟨id, e1, hsome, hasm, hget, hbuilds⟩ := haccess (.load access) arg
    · rw [emitReachable, hnone]
      exact ⟨e, _, rfl, rfl, .self, fun _ _ => .refl⟩
    · rw [emitReachable, hsome]
      exact ⟨e1, _, rfl, hasm, .load hget, hbuilds⟩
  | store access arg =>
    cases h
    obtain hnone | ⟨id, e1, hsome, hasm, hget, hbuilds⟩ := haccess (.store access) arg
    · rw [emitReachable, hnone]
      exact ⟨e, _, rfl, rfl, .self, fun _ _ => .refl⟩
    · rw [emitReachable, hsome]
      exact ⟨e1, _, rfl, hasm, .store hget, hbuilds⟩
  | _ => cases h <;> exact ⟨e, _, rfl, rfl, .self, fun _ _ => .refl⟩

namespace Instr

def Yields (ctx : BodyContext) (accessors : Accessors) (i : Instr) (op : BasicOp) : Prop :=
  match i with
  | .call func => op = .call func
  | .callIndirect type table => op = .callIndirect type table
  | .load access arg => op.StandsFor accessors (.load access arg.memory arg.offset)
  | .store access arg => op.StandsFor accessors (.store access arg.memory arg.offset)
  | i => i.op? ctx = some op

def depths : Instr → List Nat
  | .brIf depth => [depth]
  | .brTable depths default => depths ++ [default]
  | _ => []

variable {e : Emission} {stack : ControlStack}

theorem builds (hD : Emission.Admits D) (hT : ∀ s ∈ stack.scopes, T s.label)
    (hd : ∀ depth ∈ i.depths, T (Emission.target stack.dropTop depth))
    (hop : ∀ (e : Emission) op, i.Yields ctx e.accessors op → D e op) :
    Emission.Builds D T e [] (i.emitReachable ctx stack e) := by
  have hrefl : Emission.Builds D T e [] e := .refl
  have hT' : ∀ s ∈ stack.dropTop.scopes, T s.label := by
    obtain ⟨base, _ | ⟨sc, os⟩⟩ := stack
    · exact hT
    · exact forall_mem_cons.mpr (forall_mem_cons.mp hT)
  cases hi : i.op? ctx with
  | some op =>
    obtain ⟨e1, op', heq, -, hs, hb⟩ := emitReachable_of_op? hi stack e
    rw [heq]
    refine (hb D T).basic (hop e1 op' ?_)
    cases i with
    | load access arg | store access arg => cases hi; exact hs
    | _ => cases hi <;> cases hs <;> rfl
  | none =>
    cases i with
    | br depth => exact hrefl.branch hD hT depth
    | ret => exact hrefl.branch hD hT _
    | brIf depth => exact hrefl.branchIf hD hT' (hd depth mem_cons_self)
    | brTable depths default => exact hrefl.branchTable hD hT' hd
    | unreachable => exact hrefl.basic hD.unreachable
    | call func | callIndirect type table =>
      rw [emitReachable]
      split
      · exact (hrefl.basic (hop e _ rfl)).unpackResults hD _
      · exact hrefl
    | nop | block _ | loop _ | ifThen _ | elseArm | endScope => exact hrefl
    | _ => cases hi

end Instr

theorem ControlStack.dropTop_eq (sc : Scope) (os : List Scope) :
    dropTop ⟨[], sc :: os⟩ = ⟨[], sc.keeping sc.operands.tail :: os⟩ := rfl

theorem getElem?_holding {types : List ValueType}
    (h : ((sc :: os).map branchTypes)[depth]? = some types) :
    ∃ s, (sc.holding unr ops :: os)[depth]? = some s ∧ s.branchTypes = types :=
  Check.labels_getElem?.mp (show ((sc.holding unr ops :: os).map branchTypes)[depth]? = _ from h)

theorem Instr.Moves.exists_target
    (h : Instr.Moves ctx ((sc :: os).map branchTypes) i sc.unreachable sc.operands unr ops)
    (hd : depth ∈ i.depths) :
    ∃ s ∈ sc :: os, Emission.target (ControlStack.dropTop ⟨[], sc :: os⟩) depth = s.label := by
  obtain ⟨types, hl⟩ : ∃ types, ((sc :: os).map branchTypes)[depth]? = some types := by
    cases h with
    | brIf hl _ => exact ⟨_, mem_singleton.mp hd ▸ hl⟩
    | brTable _ _ _ hall =>
      obtain ⟨types, hl, -⟩ := hall depth hd
      exact ⟨types, hl⟩
    | fixed hf _ => cases hf <;> cases hd
    | _ => cases hd
  obtain ⟨s, hs, -⟩ := @getElem?_holding depth sc os sc.unreachable sc.operands.tail types hl
  rw [ControlStack.dropTop_eq, Emission.target_eq hs]
  rcases mem_cons.mp (mem_of_getElem? hs) with rfl | hs
  · exact ⟨sc, mem_cons_self, rfl⟩
  · exact ⟨s, mem_cons_of_mem _ hs, rfl⟩

/-! ## Scopes -/

theorem Scope.inner_live (hem : sc.isEmitting = true) (kind : ScopeKind) (type : FuncType)
    (label endLabel : Label) (elseLabel : Option Label) :
    (sc.inner kind type label endLabel elseLabel).dead = false := by
  rw [Scope.inner, hem]
  rfl

namespace Emission.Builds

variable {e e' : Emission} {pend : List Label}

theorem emitElse (h : Builds D T e (sc.elseLabel.toList ++ sc.endLabel :: pend) e')
    (hd : sc.dead = false) : Builds D T e (sc.endLabel :: pend) (sc.emitElse e') := by
  have hjump : Builds D T e (sc.elseLabel.toList ++ sc.endLabel :: pend)
      (if sc.unreachable then e' else e'.emit (.jump sc.endLabel)) := by
    split
    · exact h
    · refine h.jump (fun b hb => by cases hb) fun l hl => .inr (.inr ?_)
      rw [mem_singleton.mp hl]
      exact mem_append_right _ mem_cons_self
  unfold Scope.emitElse
  rw [hd]
  cases hl : sc.elseLabel with
  | none =>
    rw [hl] at hjump
    exact hjump
  | some label =>
    rw [hl] at hjump
    exact hjump.bind_head

theorem emitEnd (h : Builds D T e (sc.elseLabel.toList ++ sc.endLabel :: pend) e')
    (hD : Admits D) (hd : sc.dead = false) : Builds D T e pend (sc.emitEnd e') := by
  have hlast {e1 : Emission} (h1 : Builds D T e (sc.endLabel :: pend) e1) :
      Builds D T e pend (if sc.kind = .function then (e1.bind sc.endLabel).epilogue sc.results
        else e1.bind sc.endLabel) := by
    split
    · exact h1.bind_head.epilogue hD _
    · exact h1.bind_head
  unfold Scope.emitEnd
  rw [hd]
  cases hl : sc.elseLabel with
  | none =>
    rw [hl] at h
    exact hlast h
  | some label =>
    rw [hl] at h
    exact hlast (bind_head h)

end Emission.Builds

namespace Code.Lowers

open Emission (Builds Admits)

variable {sc' : Scope} {c : Code} {e e' : Emission}

theorem label_eq (h : c.Lowers ctx os sc e sc' e') : sc'.label = sc.label := by
  rw [h.scope_eq]; rfl

theorem endLabel_eq (h : c.Lowers ctx os sc e sc' e') : sc'.endLabel = sc.endLabel := by
  rw [h.scope_eq]; rfl

theorem elseLabel_eq (h : c.Lowers ctx os sc e sc' e') : sc'.elseLabel = sc.elseLabel := by
  rw [h.scope_eq]; rfl

variable {e0 : Emission} {pend : List Label}

theorem builds_scope (h : c.Lowers ctx os sc e sc' e')
    (hbody : Builds D (fun l => l = sc.label ∨ T l) e [] e')
    (h0 : Builds D T e0 (sc.elseLabel.toList ++ sc.endLabel :: pend) e)
    (hlabel : sc.label = sc.endLabel ∨ IsBound e.asm.labels sc.label) :
    Builds D T e0 (sc'.elseLabel.toList ++ sc'.endLabel :: pend) e' := by
  have hall := h0.append hbody fun l hl => by
    rcases hl with rfl | hl
    · rcases hlabel with heq | hb
      · exact .inr (.inr (heq ▸ mem_append_right _ mem_cons_self))
      · exact .inl hb
    · exact .inr (.inl hl)
  rwa [nil_append, ← h.elseLabel_eq, ← h.endLabel_eq] at hall

theorem builds_end (h : c.Lowers ctx os sc e sc' e')
    (hbody : Builds D (fun l => l = sc.label ∨ T l) e [] e') (hD : Admits D)
    (hd : sc.dead = false) (h0 : Builds D T e0 (sc.elseLabel.toList ++ sc.endLabel :: pend) e)
    (hlabel : sc.label = sc.endLabel ∨ IsBound e.asm.labels sc.label) :
    Builds D T e0 pend (sc'.emitEnd e') :=
  (h.builds_scope hbody h0 hlabel).emitEnd hD (h.dead_eq.trans hd)

theorem builds_ifThen {type : FuncType} :
    Builds D T e ((sc.ifThen type e.asm.labels.size).elseLabel.toList ++
      (sc.ifThen type e.asm.labels.size).endLabel :: [])
      (e.newLabel.2.newLabel.2.emit (.jumpUnless ⟨e.asm.labels.size + 1⟩)) := by
  have htwo : Builds D T e [e.newLabel.2.newLabel.1, ⟨e.asm.labels.size⟩] e.newLabel.2.newLabel.2 :=
    .newLabel (.newLabel .refl)
  rw [Emission.newLabel_fst, Emission.labels_newLabel, Array.size_push] at htwo
  refine htwo.jump (fun b hb => by cases hb) fun l hl => .inr (.inr ?_)
  exact mem_singleton.mp hl ▸ mem_cons_self

theorem labels_inner (h : ∀ s ∈ sc :: os, T s.label) (inner : Scope) (unr : Bool)
    (ops : List Operand) :
    ∀ s ∈ inner :: sc.holding unr ops :: os, s.label = inner.label ∨ T s.label := by
  rw [forall_mem_cons] at h
  exact forall_mem_cons.mpr ⟨.inl rfl, forall_mem_cons.mpr ⟨.inr h.1, fun s hs => .inr (h.2 s hs)⟩⟩

theorem builds (hD : Admits D) (h : c.Lowers ctx os sc e sc' e')
    (hop : ∀ i ∈ c.instrs, ∀ {labels unr ops unr' ops'},
      Instr.Moves ctx labels i unr ops unr' ops' →
      ∀ (e : Emission) op, i.Yields ctx e.accessors op → D e op)
    (hT : sc.isEmitting = true → ∀ s ∈ sc :: os, T s.label) : Builds D T e [] e' := by
  -- in a scope that is dead nothing is emitted, so any labels will do
  have hlost : ∀ {sc : Scope} {os : List Scope} {T : Label → Prop}, sc.dead = true →
      sc.isEmitting = true → ∀ s ∈ sc :: os, T s.label := by
    intro sc os T hd hem
    rw [isEmitting_of_dead hd] at hem
    cases hem
  have hholding : ∀ {sc : Scope} {os : List Scope} {T : Label → Prop} {ops : List Operand},
      (sc.isEmitting = true → ∀ s ∈ sc :: os, T s.label) →
      (sc.keeping ops).isEmitting = true →
      ∀ s ∈ sc.keeping ops :: os, T s.label :=
    fun h hem => forall_mem_cons.mpr (forall_mem_cons.mp (h hem))
  induction h generalizing T with
  | done => exact .refl
  | @plain os sc i hi next unr ops e sc' e' hm hn ih =>
    rw [Code.instrs, forall_mem_cons] at hop
    have hstep : Builds D T e [] (i.emit ctx ⟨[], sc :: os⟩ e) := by
      rw [Instr.emit_of_isPlain hi]
      split
      · next hem =>
          refine Instr.builds hD (hT hem) (fun depth hdepth => ?_) (hop.1 hm)
          obtain ⟨s, hs, heq⟩ := hm.exists_target hdepth
          exact heq ▸ hT hem s hs
      · exact .refl
    refine hstep.trans (ih hop.2 fun hem => ?_)
    refine forall_mem_cons.mpr (forall_mem_cons.mp (hT ?_))
    cases hsc : sc.isEmitting with
    | true => rfl
    | false =>
      have hl := (isEmitting_eq_false.mp hsc).imp_left hm.unreachable_of
      rw [isEmitting_eq_false.mpr hl] at hem
      cases hem
  | @block os sc bt type rest body next inner e e1 sc' e' ht hp hb hc hn ihb ih =>
    simp only [Code.instrs, forall_mem_cons, forall_mem_append] at hop
    refine Builds.trans ?_ (ih hop.2.2.2 (hholding hT))
    cases hem : sc.isEmitting with
    | false =>
      have hdead := inner_dead hem .block type ⟨e.asm.labels.size⟩ ⟨e.asm.labels.size⟩ none
      rw [hb.emitEnd_eq hdead]
      exact (Builds.spare .refl).trans (ihb hop.2.1 (hlost hdead))
    | true =>
      exact hb.builds_end (ihb hop.2.1 fun _ => labels_inner (hT hem) _ _ _) hD
        (Scope.inner_live hem ..) (.newLabel .refl) (.inl rfl)
  | @loop os sc bt type rest body next inner e e1 sc' e' ht hp hb hc hn ihb ih =>
    simp only [Code.instrs, forall_mem_cons, forall_mem_append] at hop
    refine Builds.trans ?_ (ih hop.2.2.2 (hholding hT))
    cases hem : sc.isEmitting with
    | false =>
      have hdead := inner_dead hem .loop type ⟨e.asm.labels.size + 1⟩ ⟨e.asm.labels.size⟩ none
      rw [hb.emitEnd_eq hdead]
      rw [emit_loop, hem] at ihb
      exact (Builds.spare (.spare .refl)).trans (ihb hop.2.1 (hlost hdead))
    | true =>
      rw [emit_loop, hem, if_pos rfl] at hb ihb
      have hstart : Builds D T e [⟨e.asm.labels.size⟩]
          (e.newLabel.2.newLabel.2.bind ⟨e.asm.labels.size + 1⟩) := by
        have htwo : Builds D T e [e.newLabel.2.newLabel.1, ⟨e.asm.labels.size⟩]
            e.newLabel.2.newLabel.2 := .newLabel (.newLabel .refl)
        rw [Emission.newLabel_fst, Emission.labels_newLabel, Array.size_push] at htwo
        exact htwo.bind_head
      exact hb.builds_end (ihb hop.2.1 fun _ => labels_inner (hT hem) _ _ _) hD
        (Scope.inner_live hem ..) hstart (.inr ⟨e.asm.code.size, by simp [Scope.inner]⟩)
  | @ifThen os sc bt type rest yes next inner e e1 sc' e' ht hsame hp hy hc hn ihy ih =>
    simp only [Code.instrs, forall_mem_cons, forall_mem_append] at hop
    refine Builds.trans ?_ (ih hop.2.2.2 (hholding hT))
    cases hem : sc.isEmitting with
    | false =>
      have hdead := inner_dead hem .ifThen type ⟨e.asm.labels.size⟩ ⟨e.asm.labels.size⟩
        (some ⟨e.asm.labels.size + 1⟩)
      rw [hy.emitEnd_eq hdead]
      rw [emit_ifThen, hem] at ihy
      exact (Builds.spare (.spare .refl)).trans (ihy hop.2.1 (hlost hdead))
    | true =>
      rw [emit_ifThen, hem, if_pos rfl] at hy ihy
      exact hy.builds_end (ihy hop.2.1 fun _ => labels_inner (hT hem) _ _ _) hD
        (Scope.inner_live hem ..) builds_ifThen (.inl rfl)
  | @ifElse os sc bt type rest yes no next first second e e1 e2 sc' e' ht hp hy hc1 hno hc2 hn
      ihy ihno ih =>
      simp only [Code.instrs, forall_mem_cons, forall_mem_append] at hop
      refine Builds.trans ?_ (ih hop.2.2.2.2.2 (hholding hT))
      cases hem : sc.isEmitting with
      | false =>
        have hdead := inner_dead hem .ifThen type ⟨e.asm.labels.size⟩ ⟨e.asm.labels.size⟩
          (some ⟨e.asm.labels.size + 1⟩)
        have hother := hy.dead_eq.trans hdead
        rw [hno.emitEnd_eq hother]
        rw [hy.emitElse_eq hdead] at ihno
        rw [emit_ifThen, hem] at ihy
        exact ((Builds.spare (.spare .refl)).trans (ihy hop.2.1 (hlost hdead))).trans
          (ihno hop.2.2.2.1 (hlost hother))
      | true =>
        have hlive := Scope.inner_live hem .ifThen type ⟨e.asm.labels.size⟩ ⟨e.asm.labels.size⟩
          (some ⟨e.asm.labels.size + 1⟩)
        rw [emit_ifThen, hem, if_pos rfl] at hy ihy
        have hyes := hy.builds_scope (ihy hop.2.1 fun _ => labels_inner (hT hem) _ _ _)
          builds_ifThen (.inl rfl)
        exact hno.builds_end (ihno hop.2.2.2.1 fun _ => labels_inner (hT hem) _ _ _) hD
          (hy.dead_eq.trans hlive) (hyes.emitElse (hy.dead_eq.trans hlive))
          (.inl (hy.label_eq.trans hy.endLabel_eq.symm))

theorem built (h : c.Lowers ctx os sc e sc' e') :
    Builds (fun _ _ => True) (fun _ => True) e [] e' :=
  h.builds Emission.admits_all (fun _ _ _ _ _ _ _ _ _ _ _ => trivial) fun _ _ _ => trivial

/-- **Lowering only adds to what was emitted.** -/
theorem emission_extends (h : c.Lowers ctx os sc e sc' e') : e.Extends e' := h.built.extended

end Code.Lowers

theorem Instr.emitReachable_extends (ctx : BodyContext) (stack : ControlStack) (e : Emission)
    (i : Instr) : e.Extends (i.emitReachable ctx stack e) :=
  (@Instr.builds _ (fun _ => True) ctx i e stack Emission.admits_all (fun _ _ => trivial)
    (fun _ _ => trivial) fun _ _ _ => trivial).extended

theorem Instr.emit_extends (hi : i.isPlain = true) (ctx : BodyContext) (sc : Scope)
    (os : List Scope) (e : Emission) : e.Extends (i.emit ctx ⟨[], sc :: os⟩ e) := by
  rw [emit_of_isPlain hi]
  split
  · exact emitReachable_extends ctx _ e i
  · exact .refl e

end Wasm
