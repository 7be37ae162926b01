import Wasm.Proofs.Lowering.Building

/-! # The same code, recast

Emissions that differ in accesses and unused labels stay in step (`Recast.emit`). -/

namespace Wasm

open List

variable {l : Label} {positions : Array (Option Nat)} {i : Instr}

def BasicOp.isAccess : BasicOp → Bool
  | .load .. | .store .. | .loadVia _ | .storeVia _ => true
  | _ => false

/-- Accesses are replaced, and labels inserted. -/
structure Recast where
  op : BasicOp → BasicOp
  accessors : Accessors → Accessors
  first : Nat
  between : List (Option Nat)
  op_eq : ∀ b, b.isAccess = false → op b = b
  first_pos : 0 < first

namespace Recast

variable (r : Recast)

def label (l : Label) : Label := if l.id < r.first then l else ⟨l.id + r.between.length⟩

def labels (positions : Array (Option Nat)) : Array (Option Nat) :=
  (positions.toList.take r.first ++ (r.between ++ positions.toList.drop r.first)).toArray

def ops : Op Label → Op Label
  | .basic b => .basic (r.op b)
  | .jump target => .jump (r.label target)
  | .jumpIf target => .jumpIf (r.label target)
  | .jumpUnless target => .jumpUnless (r.label target)
  | .jumpTable targets default => .jumpTable (targets.map r.label) (r.label default)

def scope (sc : Scope) : Scope :=
  { sc with
    label := r.label sc.label
    endLabel := r.label sc.endLabel
    elseLabel := sc.elseLabel.map r.label }

def stack (st : ControlStack) : ControlStack := ⟨st.base, st.scopes.map r.scope⟩

def emission (e : Emission) : Emission :=
  { e with
    asm := { e.asm with code := e.asm.code.map r.ops, labels := r.labels e.asm.labels }
    accessors := r.accessors e.accessors }

/-! ## Labels -/

theorem label_of_lt (h : l.id < r.first) : r.label l = l := if_pos h

theorem label_of_le (h : r.first ≤ l.id) : r.label l = ⟨l.id + r.between.length⟩ :=
  if_neg (Nat.not_lt.mpr h)

theorem label_default : r.label ⟨0⟩ = ⟨0⟩ := r.label_of_lt r.first_pos

theorem size_labels (positions : Array (Option Nat)) :
    (r.labels positions).size = positions.size + r.between.length := by
  rw [labels, size_toArray, length_append, length_append, length_take,
    length_drop, Array.length_toList]
  omega

theorem labels_push (h : r.first ≤ positions.size) (position : Option Nat) :
    (r.labels positions).push position = r.labels (positions.push position) := by
  apply Array.ext'
  rw [labels, labels, Array.toList_push, Array.toList_push,
    take_append_of_le_length (by simpa using h),
    drop_append_of_le_length (by simpa using h)]
  simp

theorem getElem?_labels (h : r.first ≤ positions.size) (l : Label) :
    (r.labels positions)[(r.label l).id]? = positions[l.id]? := by
  have hlen : (positions.toList.take r.first).length = r.first := by
    rw [length_take, Array.length_toList]
    omega
  rw [labels, getElem?_toArray, ← Array.getElem?_toList]
  by_cases hl : l.id < r.first
  · rw [r.label_of_lt hl, getElem?_append_left (by omega), getElem?_take_of_lt hl]
  · have hle : r.first ≤ l.id := Nat.le_of_not_lt hl
    obtain ⟨j, hj⟩ := Nat.exists_eq_add_of_le hle
    have hid : (r.label l).id = r.first + (r.between.length + j) := by
      rw [r.label_of_le hle]
      show l.id + r.between.length = _
      omega
    rw [hid, hj, getElem?_append_right (by omega), getElem?_append_right (by omega),
      getElem?_drop]
    congr 1
    omega

theorem labels_set (h : r.first ≤ positions.size) (l : Label) (position : Option Nat) :
    (r.labels positions).setIfInBounds (r.label l).id position =
      r.labels (positions.setIfInBounds l.id position) := by
  have hlen : (positions.toList.take r.first).length = r.first := by
    rw [length_take, Array.length_toList]
    omega
  apply Array.ext'
  rw [labels, labels, Array.toList_setIfInBounds, Array.toList_setIfInBounds]
  by_cases hl : l.id < r.first
  · rw [r.label_of_lt hl, set_append_left _ _ (by omega), take_set,
      drop_set_of_lt hl]
  · have hle : r.first ≤ l.id := Nat.le_of_not_lt hl
    obtain ⟨j, hj⟩ := Nat.exists_eq_add_of_le hle
    have hid : (r.label l).id = r.first + (r.between.length + j) := by
      rw [r.label_of_le hle]
      show l.id + r.between.length = _
      omega
    rw [hid, hj, set_append_right _ _ (by omega), set_append_right _ _ (by omega),
      take_set_of_le (Nat.le_add_right _ _), ← set_drop]
    congr 3
    omega

/-! ## Stacks -/

variable (st : ControlStack) (e : Emission)

theorem scopeAt_stack (depth : Nat) :
    (r.stack st).scopeAt depth = (st.scopeAt depth).map r.scope := by
  unfold ControlStack.scopeAt
  rw [show (r.stack st).scopes = st.scopes.map r.scope from rfl, getElem?_map]
  cases st.scopes[depth]? <;> rfl

theorem flatMap_operands (scopes : List Scope) :
    (scopes.map r.scope).flatMap Scope.operands = scopes.flatMap Scope.operands := by
  rw [flatMap_map]
  rfl

theorem excess_stack (depth : Nat) : (r.stack st).excess depth = st.excess depth := by
  unfold ControlStack.excess
  rw [scopeAt_stack]
  cases st.scopeAt depth with
  | error fault => rfl
  | ok target =>
    show Except.ok _ = Except.ok _
    congr 4
    show ((st.scopes.map r.scope).take (depth + 1)).flatMap Scope.operands = _
    rw [← map_take, flatMap_operands]

theorem isPlain_stack (depth : Nat) :
    Emission.isPlain (r.stack st) depth = Emission.isPlain st depth := by
  unfold Emission.isPlain
  rw [excess_stack]

theorem target_stack (depth : Nat) :
    Emission.target (r.stack st) depth = r.label (Emission.target st depth) := by
  unfold Emission.target
  rw [scopeAt_stack]
  cases st.scopeAt depth with
  | error fault => exact r.label_default.symm
  | ok target => rfl

theorem dropTop_stack : (r.stack st).dropTop = r.stack st.dropTop := by
  obtain ⟨base, scopes⟩ := st
  cases scopes <;> rfl

theorem isEmitting_stack : (r.stack st).isEmitting = st.isEmitting := by
  obtain ⟨base, scopes⟩ := st
  cases scopes <;> rfl

theorem functionDepth_stack : (r.stack st).functionDepth = st.functionDepth := by
  unfold ControlStack.functionDepth
  show (st.scopes.map r.scope).length - 1 = _
  rw [length_map]

/-! ## Emissions -/

theorem emit_ops (op : Op Label) : (r.emission e).emit (r.ops op) = r.emission (e.emit op) := by
  unfold emission Emission.emit Assembly.emit
  rw [Array.map_push]

theorem emit_basic {b : BasicOp} (hb : b.isAccess = false) :
    (r.emission e).basic b = r.emission (e.basic b) := by
  have h := r.emit_ops e (.basic b)
  rw [ops, r.op_eq b hb] at h
  exact h

theorem size_labels_emission :
    (r.emission e).asm.labels.size = e.asm.labels.size + r.between.length := r.size_labels _

variable {e}

section

variable (h : r.first ≤ e.asm.labels.size)
include h

theorem newLabel_fst : (r.emission e).newLabel.1 = r.label e.newLabel.1 := by
  rw [Emission.newLabel_fst, size_labels_emission, Emission.newLabel_fst]
  exact (r.label_of_le (l := ⟨e.asm.labels.size⟩) h).symm

theorem newLabel_snd : (r.emission e).newLabel.2 = r.emission e.newLabel.2 := by
  unfold Emission.newLabel Assembly.newLabel emission
  rw [r.labels_push h]

theorem bind_label (l : Label) : (r.emission e).bind (r.label l) = r.emission (e.bind l) := by
  unfold Emission.bind Assembly.bind emission
  rw [Array.size_map, r.labels_set h]

end

variable (e)

theorem scratchSlot (type : ValueType) (ordinal : Nat) : (r.emission e).scratchSlot type ordinal =
      ((e.scratchSlot type ordinal).1, r.emission (e.scratchSlot type ordinal).2) := by
  unfold Emission.scratchSlot
  rw [show (r.emission e).scratch = e.scratch from rfl]
  cases e.scratch.find? fun s => s.type = type ∧ s.ordinal = ordinal <;> rfl

theorem scratchSlots (seen types : List ValueType) :
    Emission.scratchSlots seen types (r.emission e) = ((Emission.scratchSlots seen types e).1,
        r.emission (Emission.scratchSlots seen types e).2) := by
  induction types generalizing seen e with
  | nil => rfl
  | cons type types ih =>
    rw [Emission.scratchSlots, r.scratchSlot]
    dsimp only
    rw [ih]
    rfl

theorem foldl_basic {α : Type} (f : α → BasicOp) (hf : ∀ a, (f a).isAccess = false) (as : List α) :
    as.foldl (fun e a => e.basic (f a)) (r.emission e) =
      r.emission (as.foldl (fun e a => e.basic (f a)) e) := by
  induction as generalizing e with
  | nil => rfl
  | cons a as ih => rw [foldl_cons, foldl_cons, r.emit_basic e (hf a), ih]

theorem transfer (carried : List ValueType) (excess : Nat) :
    (r.emission e).transfer carried excess = r.emission (e.transfer carried excess) := by
  have hdrop : ∀ e : Emission,
    (List.replicate excess BasicOp.drop).foldl Emission.basic (r.emission e) =
      r.emission ((List.replicate excess BasicOp.drop).foldl Emission.basic e) := by
    intro e
    have h := r.foldl_basic e (fun _ : Unit => BasicOp.drop) (fun _ => rfl)
      (List.replicate excess ())
    rw [← map_replicate (f := fun _ => BasicOp.drop) (a := ()), foldl_map, foldl_map]
    exact h
  unfold Emission.transfer
  rw [r.scratchSlots]
  dsimp only
  rw [r.foldl_basic _ _ fun _ => rfl, hdrop, r.foldl_basic _ _ fun _ => rfl]

theorem branch (depth : Nat) :
    (r.emission e).branch (r.stack st) depth = r.emission (e.branch st depth) := by
  unfold Emission.branch
  rw [scopeAt_stack, excess_stack]
  cases st.scopeAt depth with
  | error fault => rfl
  | ok target =>
    cases st.excess depth with
    | error fault => rfl
    | ok excess =>
      show (if excess.isEmpty then r.emission e
        else (r.emission e).transfer target.branchTypes excess.length).emit
          (r.ops (.jump target.label)) = r.emission (Emission.emit _ _)
      rw [← emit_ops]
      split
      · rfl
      · rw [transfer]

variable {e}

theorem branchIf (h : r.first ≤ e.asm.labels.size) (depth : Nat) :
    (r.emission e).branchIf (r.stack st) depth = r.emission (e.branchIf st depth) := by
  unfold Emission.branchIf
  rw [isPlain_stack]
  split
  · rw [target_stack]
    exact r.emit_ops e (.jumpIf _)
  · have hbranch : ((r.emission e).newLabel.2.emit (.jumpUnless (r.emission e).newLabel.1)).branch
        (r.stack st) depth =
        r.emission ((e.newLabel.2.emit (.jumpUnless e.newLabel.1)).branch st depth) := by
      rw [r.newLabel_fst h, r.newLabel_snd h, ← r.branch, ← r.emit_ops]
      rfl
    have hext := ((Emission.Extends.refl e).newLabel.emit (.jumpUnless e.newLabel.1)).trans
      (Emission.extends_branch _ st depth)
    have hle := Nat.le_trans h hext.labels_le
    show (((r.emission e).newLabel.2.emit (.jumpUnless (r.emission e).newLabel.1)).branch
      (r.stack st) depth).bind (r.emission e).newLabel.1 =
        r.emission (((e.newLabel.2.emit (.jumpUnless e.newLabel.1)).branch st depth).bind
          e.newLabel.1)
    rw [hbranch, r.newLabel_fst h, r.bind_label hle]

def stub (s : Nat × Label) : Nat × Label := (s.1, r.label s.2)

theorem lookup_stubs (stubs : List (Nat × Label)) (depth : Nat) :
    (stubs.map r.stub).lookup depth = (stubs.lookup depth).map r.label := by
  induction stubs with
  | nil => rfl
  | cons s stubs ih =>
    rw [map_cons, lookup_cons, lookup_cons, ih]
    show (match depth == s.1 with
      | true => some (r.label s.2)
      | false => _) = _
    cases depth == s.1 <;> rfl

theorem tableLabels (h : r.first ≤ e.asm.labels.size) (stubs : List (Nat × Label))
    (depths : List Nat) :
    Emission.tableLabels (r.stack st) (stubs.map r.stub) depths (r.emission e) =
      ((Emission.tableLabels st stubs depths e).1.map r.label,
        (Emission.tableLabels st stubs depths e).2.1.map r.stub,
        r.emission (Emission.tableLabels st stubs depths e).2.2) := by
  induction depths generalizing stubs e with
  | nil => rfl
  | cons depth depths ih =>
    rw [Emission.tableLabels, Emission.tableLabels, isPlain_stack]
    split
    · rw [ih h, target_stack]
      rfl
    · rw [lookup_stubs]
      cases stubs.lookup depth with
      | some label =>
        rw [ih h]
        rfl
      | none =>
        have hle : r.first ≤ e.newLabel.2.asm.labels.size :=
          Nat.le_trans h (Emission.Extends.refl e).newLabel.labels_le
        have hstubs : (depth, (r.emission e).newLabel.1) :: stubs.map r.stub =
            ((depth, e.newLabel.1) :: stubs).map r.stub := by
          rw [r.newLabel_fst h]
          rfl
        have hrest := ih hle ((depth, e.newLabel.1) :: stubs)
        rw [← hstubs, ← r.newLabel_snd h] at hrest
        show ((r.emission e).newLabel.1 :: (Emission.tableLabels (r.stack st)
            ((depth, (r.emission e).newLabel.1) :: stubs.map r.stub) depths
            (r.emission e).newLabel.2).1,
          (Emission.tableLabels (r.stack st)
            ((depth, (r.emission e).newLabel.1) :: stubs.map r.stub) depths
            (r.emission e).newLabel.2).2) = _
        rw [hrest, r.newLabel_fst h]
        rfl

theorem stubCode (h : r.first ≤ e.asm.labels.size) (stubs : List (Nat × Label)) :
    (stubs.map r.stub).foldl (fun e s => (e.bind s.2).branch (r.stack st) s.1) (r.emission e) =
      r.emission (stubs.foldl (fun e s => (e.bind s.2).branch st s.1) e) := by
  induction stubs generalizing e with
  | nil => rfl
  | cons s stubs ih =>
    have hle : r.first ≤ ((e.bind s.2).branch st s.1).asm.labels.size := by
      refine Nat.le_trans ?_ ((e.bind s.2).extends_branch st s.1).labels_le
      rw [Emission.labels_bind, Array.size_setIfInBounds]
      exact h
    rw [map_cons, foldl_cons, foldl_cons, ← ih hle, ← r.branch, ← r.bind_label h]
    rfl

theorem emit_jumpTable (e : Emission) (labels : List Label) :
    (r.emission e).emit (.jumpTable (labels.map r.label).dropLast.toArray
        ((labels.map r.label).getLastD ⟨0⟩)) =
      r.emission (e.emit (.jumpTable labels.dropLast.toArray (labels.getLastD ⟨0⟩))) := by
  have hlast : (labels.map r.label).getLastD ⟨0⟩ = r.label (labels.getLastD ⟨0⟩) := by
    rw [getLastD_eq_getLast?, getLast?_map, getLastD_eq_getLast?]
    cases labels.getLast? with
    | none => exact r.label_default.symm
    | some l => rfl
  rw [← r.emit_ops, ops, hlast, ← map_dropLast, map_toArray]

theorem branchTable (h : r.first ≤ e.asm.labels.size) (depths : List Nat) (default : Nat) :
    (r.emission e).branchTable (r.stack st) depths default =
      r.emission (e.branchTable st depths default) := by
  have htable := r.tableLabels st h [] (depths ++ [default])
  have hle := Nat.le_trans h (e.builds_tableLabels st (depths ++ [default])).extended.labels_le
  generalize hresult : Emission.tableLabels st [] (depths ++ [default]) e = table at htable hle
  obtain ⟨labels, stubs, e1⟩ := table
  have hcode := r.stubCode st
    (e := e1.emit (.jumpTable labels.dropLast.toArray (labels.getLastD ⟨0⟩)))
    hle stubs.reverse
  unfold Emission.branchTable
  rw [hresult, show ([] : List (Nat × Label)) = [].map r.stub from rfl, htable]
  show ((stubs.map r.stub).reverse).foldl _ _ = _
  rw [r.emit_jumpTable, ← map_reverse]
  exact hcode

theorem unpackResults (e : Emission) (results : List ValueType) :
    (r.emission e).unpackResults results = r.emission (e.unpackResults results) := by
  unfold Emission.unpackResults
  split
  · exact r.emit_basic e rfl
  · rfl

theorem epilogue (e : Emission) (results : List ValueType) :
    (r.emission e).epilogue results = r.emission (e.epilogue results) := by
  unfold Emission.epilogue
  split
  · next carrier _ =>
      rw [← r.emit_basic _ rfl, ← r.emit_basic e (b := .pack carrier) rfl]
  · exact r.emit_basic e rfl

/-! ## Instructions -/

theorem emitElse (h : r.first ≤ e.asm.labels.size) (sc : Scope) :
    (r.scope sc).emitElse (r.emission e) = r.emission (sc.emitElse e) := by
  have hjump : (if (r.scope sc).unreachable then r.emission e
      else (r.emission e).emit (.jump (r.scope sc).endLabel)) =
        r.emission (if sc.unreachable then e else e.emit (.jump sc.endLabel)) := by
    show (if sc.unreachable then _ else _) = _
    split
    · rfl
    · exact r.emit_ops e (.jump sc.endLabel)
  have hle : r.first ≤
      (if sc.unreachable then e else e.emit (.jump sc.endLabel)).asm.labels.size := by
    split <;> exact h
  unfold Scope.emitElse
  rw [hjump]
  rw [show (r.scope sc).dead = sc.dead from rfl,
    show (r.scope sc).elseLabel = sc.elseLabel.map r.label from rfl]
  split
  · rfl
  · cases sc.elseLabel with
    | none => rfl
    | some label => exact r.bind_label hle label

theorem emitEnd (h : r.first ≤ e.asm.labels.size) (sc : Scope) :
    (r.scope sc).emitEnd (r.emission e) = r.emission (sc.emitEnd e) := by
  -- The last steps are the same whether or not there was a label for a second arm.
  have hclose : ∀ e : Emission, r.first ≤ e.asm.labels.size →
      (if sc.kind = .function then ((r.emission e).bind (r.label sc.endLabel)).epilogue sc.results
        else (r.emission e).bind (r.label sc.endLabel)) =
      r.emission (if sc.kind = .function then (e.bind sc.endLabel).epilogue sc.results
        else e.bind sc.endLabel) := by
    intro e he
    rw [r.bind_label he, r.epilogue]
    split <;> rfl
  obtain ⟨kind, params, results, label, endLabel, elseLabel, unreachable, dead, operands⟩ := sc
  cases dead with
  | true => rfl
  | false =>
    cases elseLabel with
    | none => exact hclose e h
    | some other =>
      have hle : r.first ≤ (e.bind other).asm.labels.size := by
        rw [Emission.labels_bind, Array.size_setIfInBounds]
        exact h
      have hend := hclose (e.bind other) hle
      rw [← r.bind_label h] at hend
      exact hend

end Recast

def Instr.isAccess : Instr → Bool
  | .load .. | .store .. => true
  | _ => false

namespace Recast

variable (r : Recast) (ctx : BodyContext) (u : Bool) (st : ControlStack) {e : Emission}

theorem emitReachable (h : r.first ≤ e.asm.labels.size) (hi : i.isAccess = false) :
    i.emitReachable { ctx with useAccessors := u } (r.stack st) (r.emission e) =
      r.emission (i.emitReachable ctx st e) := by
  cases i with
  | br depth => exact r.branch st e depth
  | brIf depth =>
    show (r.emission e).branchIf (r.stack st).dropTop depth = _
    rw [dropTop_stack]
    exact r.branchIf st.dropTop h depth
  | brTable depths default =>
    show (r.emission e).branchTable (r.stack st).dropTop depths default = _
    rw [dropTop_stack]
    exact r.branchTable st.dropTop h depths default
  | ret =>
    show (r.emission e).branch (r.stack st) (r.stack st).functionDepth = _
    rw [functionDepth_stack]
    exact r.branch st e st.functionDepth
  | call func =>
    rw [Instr.emitReachable, Instr.emitReachable]
    cases ctx.spaces.funcType func with
    | error fault => rfl
    | ok type => exact (congrArg _ (r.emit_basic e rfl)).trans (r.unpackResults _ _)
  | callIndirect type table =>
    rw [Instr.emitReachable, Instr.emitReachable]
    cases ctx.spaces.typeAt type with
    | error fault => rfl
    | ok type => exact (congrArg _ (r.emit_basic e rfl)).trans (r.unpackResults _ _)
  | load access arg | store access arg => cases hi
  | nop | block type | loop type | ifThen type | elseArm | endScope => rfl
  | _ => exact r.emit_basic e rfl

theorem innermost_stack : (r.stack st).innermost = st.innermost.map r.scope := by
  obtain ⟨base, scopes⟩ := st
  cases scopes <;> rfl

theorem emit (h : r.first ≤ e.asm.labels.size)
    (hi : st.isEmitting = true → i.isAccess = true →
      i.emitReachable { ctx with useAccessors := u } (r.stack st) (r.emission e) =
      r.emission (i.emitReachable ctx st e)) :
    i.emit { ctx with useAccessors := u } (r.stack st) (r.emission e) =
      r.emission (i.emit ctx st e) := by
  have hreach : (if (r.stack st).isEmitting then
      i.emitReachable { ctx with useAccessors := u } (r.stack st) (r.emission e)
      else r.emission e) = r.emission (if st.isEmitting then i.emitReachable ctx st e else e) := by
    rw [isEmitting_stack]
    split
    · next hem =>
        cases ha : i.isAccess with
        | false => exact r.emitReachable ctx u st h ha
        | true => exact hi hem ha
    · rfl
  have hle : r.first ≤ e.newLabel.2.asm.labels.size :=
    Nat.le_trans h (Emission.Extends.refl e).newLabel.labels_le
  have hle2 : r.first ≤ e.newLabel.2.newLabel.2.asm.labels.size :=
    Nat.le_trans hle (Emission.Extends.refl _).newLabel.labels_le
  cases i with
  | block type => exact r.newLabel_snd h
  | loop type =>
    show (if (r.stack st).isEmitting then
      (r.emission e).newLabel.2.newLabel.2.bind (r.emission e).newLabel.2.newLabel.1
      else (r.emission e).newLabel.2.newLabel.2) = r.emission (if st.isEmitting then
        e.newLabel.2.newLabel.2.bind e.newLabel.2.newLabel.1 else e.newLabel.2.newLabel.2)
    rw [r.newLabel_snd h, r.newLabel_snd hle, r.newLabel_fst hle, r.bind_label hle2,
      isEmitting_stack]
    split <;> rfl
  | ifThen type =>
    show (if (r.stack st).isEmitting then
      (r.emission e).newLabel.2.newLabel.2.emit (.jumpUnless (r.emission e).newLabel.2.newLabel.1)
      else (r.emission e).newLabel.2.newLabel.2) = r.emission (if st.isEmitting then
        e.newLabel.2.newLabel.2.emit (.jumpUnless e.newLabel.2.newLabel.1)
        else e.newLabel.2.newLabel.2)
    rw [r.newLabel_snd h, r.newLabel_snd hle, r.newLabel_fst hle, isEmitting_stack]
    split
    · exact r.emit_ops _ (.jumpUnless _)
    · rfl
  | elseArm =>
    rw [Instr.emit, Instr.emit, innermost_stack]
    cases st.innermost with
    | error fault => rfl
    | ok sc => exact r.emitElse h sc
  | endScope =>
    rw [Instr.emit, Instr.emit, innermost_stack]
    cases st.innermost with
    | error fault => rfl
    | ok sc => exact r.emitEnd h sc
  | _ => exact hreach

/-! ## Linking -/

end Recast

def Op.mapBasic {τ : Type} (f : BasicOp → BasicOp) : Op τ → Op τ
  | .basic op => .basic (f op)
  | .jump target => .jump target
  | .jumpIf target => .jumpIf target
  | .jumpUnless target => .jumpUnless target
  | .jumpTable targets default => .jumpTable targets default

def CompiledFunction.mapBasic (f : BasicOp → BasicOp) (func : CompiledFunction) :
    CompiledFunction :=
  { func with code := func.code.map (Op.mapBasic f) }

theorem Op.mapBasic_id {τ : Type} (op : Op τ) : op.mapBasic id = op := by cases op <;> rfl

theorem CompiledFunction.mapBasic_id (func : CompiledFunction) : func.mapBasic id = func := by
  unfold mapBasic
  rw [funext Op.mapBasic_id, Array.map_id']

theorem mapM_map_comm {ε α β : Type} {f f' : α → Except ε β} {g : α → α} {k : β → β}
    (h : ∀ a, f' (g a) = (f a).map k) (as : List α) :
    (as.map g).mapM f' = (as.mapM f).map (List.map k) := by
  induction as with
  | nil => rfl
  | cons a as ih =>
    rw [map_cons, mapM_cons, mapM_cons, h, ih]
    cases f a with
    | error error => rfl
    | ok b => cases as.mapM f <;> rfl

namespace Recast

variable (r : Recast) {e : Emission}

theorem resolve_labels (h : r.first ≤ positions.size) (l : Label) :
    Assembly.resolve (r.labels positions) (r.label l) = Assembly.resolve positions l := by
  unfold Assembly.resolve
  rw [r.getElem?_labels h]

theorem mapTargets_ops (h : r.first ≤ positions.size) (op : Op Label) :
    (r.ops op).mapTargets (Assembly.resolve (r.labels positions)) =
      (op.mapTargets (Assembly.resolve positions)).map (Op.mapBasic r.op) := by
  cases op with
  | basic op => rfl
  | jump target | jumpIf target | jumpUnless target =>
    rw [ops, Op.mapTargets, Op.mapTargets, r.resolve_labels h]
    cases Assembly.resolve positions target <;> rfl
  | jumpTable targets default =>
    have hall : (targets.map r.label).toList.mapM (Assembly.resolve (r.labels positions)) =
        targets.toList.mapM (Assembly.resolve positions) := by
      rw [Array.toList_map, mapM_map]
      exact congrArg (List.mapM · _) (funext (r.resolve_labels h))
    rw [ops, Op.mapTargets, Op.mapTargets, r.resolve_labels h, hall]
    cases targets.toList.mapM (Assembly.resolve positions) with
    | error fault => rfl
    | ok positions' => cases Assembly.resolve positions default <;> rfl

theorem finish (h : r.first ≤ e.asm.labels.size) (slots : Nat) :
    (r.emission e).asm.finish slots =
      (e.asm.finish slots).map (CompiledFunction.mapBasic r.op) := by
  have hlink : (r.emission e).asm.code.toList.mapM
      (Op.mapTargets (Assembly.resolve (r.emission e).asm.labels)) =
        (e.asm.code.toList.mapM (Op.mapTargets (Assembly.resolve e.asm.labels))).map
          (List.map (Op.mapBasic r.op)) := by
    show (e.asm.code.map r.ops).toList.mapM _ = _
    rw [Array.toList_map]
    exact mapM_map_comm (r.mapTargets_ops h) _
  unfold Assembly.finish Assembly.link
  rw [hlink]
  cases e.asm.code.toList.mapM (Op.mapTargets (Assembly.resolve e.asm.labels)) with
  | error fault => rfl
  | ok code =>
    show Except.ok (CompiledFunction.mk _ _ _ _ (code.map _).toArray) = Except.ok _
    rw [← map_toArray]
    rfl

end Recast

end Wasm
