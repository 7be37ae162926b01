import Wasm.Bytecode.Emission
import Wasm.Proofs.Validation.Marks

/-! # Lowering does not fail

An instruction that passed its check is lowered to `Instr.emit` (`Instr.lower_eq`). -/

namespace Wasm

open List Operand Check

/-! ## The code without the failures -/

namespace Emission

/-- Whether a branch finds nothing to discard. -/
def isPlain (stack : ControlStack) (depth : Nat) : Bool :=
  match stack.excess depth with
  | .ok types => types.isEmpty
  | .error _ => true

/-- Where a branch goes. -/
def target (stack : ControlStack) (depth : Nat) : Label :=
  match stack.scopeAt depth with
  | .ok scope => scope.label
  | .error _ => default

/-- A branch, with the transfer of what it carries. -/
def branch (stack : ControlStack) (depth : Nat) (e : Emission) : Emission :=
  match stack.scopeAt depth, stack.excess depth with
  | .ok scope, .ok excess =>
    let e := if excess.isEmpty then e else e.transfer scope.branchTypes excess.length
    e.emit (.jump scope.label)
  | _, _ => e

/-- A branch that is taken when the popped condition is not zero. -/
def branchIf (stack : ControlStack) (depth : Nat) (e : Emission) : Emission :=
  if isPlain stack depth then
    e.emit (.jumpIf (target stack depth))
  else
    let (skip, e) := e.newLabel
    ((e.emit (.jumpUnless skip)).branch stack depth).bind skip

/-- Labels for the targets of a branch table; `stubs` lists those that discard first. -/
def tableLabels (stack : ControlStack) (stubs : List (Nat × Label)) :
    List Nat → Emission → List Label × List (Nat × Label) × Emission
  | [], e => ([], stubs, e)
  | depth :: depths, e =>
    if isPlain stack depth then
      let (labels, stubs, e) := tableLabels stack stubs depths e
      (target stack depth :: labels, stubs, e)
    else
      match stubs.lookup depth with
      | some stub =>
        let (labels, stubs, e) := tableLabels stack stubs depths e
        (stub :: labels, stubs, e)
      | none =>
        let (stub, e) := e.newLabel
        let (labels, stubs, e) := tableLabels stack ((depth, stub) :: stubs) depths e
        (stub :: labels, stubs, e)

/-- A branch table, followed by its stubs. -/
def branchTable (stack : ControlStack) (depths : List Nat) (default : Nat) (e : Emission) :
    Emission :=
  let (labels, stubs, e) := tableLabels stack [] (depths ++ [default]) e
  let e := e.emit (.jumpTable labels.dropLast.toArray (labels.getLastD ⟨0⟩))
  stubs.reverse.foldl (fun e (depth, stub) => (e.bind stub).branch stack depth) e

end Emission

/-- The slot of a local. -/
def BodyContext.slotAt (ctx : BodyContext) (index : Nat) : Nat :=
  match ctx.locals[index]? with
  | some entry => entry.slot
  | none => 0

/-- The stack without its top operand. -/
def ControlStack.dropTop (stack : ControlStack) : ControlStack :=
  match stack.scopes with
  | scope :: outer =>
    { stack with scopes := { scope with operands := scope.operands.tail } :: outer }
  | [] => stack

/-- The operation of an instruction that has one and goes on to the next. -/
def Instr.op? (ctx : BodyContext) : Instr → Option BasicOp
  | .drop => some .drop
  | .select => some .select
  | .localGet index => some (.localGet (ctx.slotAt index))
  | .localSet index => some (.localSet (ctx.slotAt index))
  | .localTee index => some (.localTee (ctx.slotAt index))
  | .load access arg => some (.load access arg.memory arg.offset)
  | .store access arg => some (.store access arg.memory arg.offset)
  | i => i.directOp? ctx.spaces

/-- The code of an instruction that can be reached and opens or closes no
    scope. -/
def Instr.emitReachable (ctx : BodyContext) (stack : ControlStack) (e : Emission) :
    Instr → Emission
  | .br depth => e.branch stack depth
  | .brIf depth => e.branchIf stack.dropTop depth
  | .brTable depths default => e.branchTable stack.dropTop depths default
  | .ret => e.branch stack stack.functionDepth
  | .call func =>
    match ctx.spaces.funcType func with
    | .ok type => (e.basic (.call func)).unpackResults type.results
    | .error _ => e
  | .callIndirect typeIndex table =>
    match ctx.spaces.typeAt typeIndex with
    | .ok type => (e.basic (.callIndirect typeIndex table)).unpackResults type.results
    | .error _ => e
  | .load access arg =>
    match e.accessor? ctx (.load access) arg with
    | some (id, e) => e.basic (.loadVia id)
    | none => e.basic (.load access arg.memory arg.offset)
  | .store access arg =>
    match e.accessor? ctx (.store access) arg with
    | some (id, e) => e.basic (.storeVia id)
    | none => e.basic (.store access arg.memory arg.offset)
  | .unreachable => e.basic .unreachable
  | i =>
    match i.op? ctx with
    | some op => e.basic op
    | none => e

/-- The code of an instruction that the control stack `stack` was checked
    for. -/
def Instr.emit (ctx : BodyContext) (stack : ControlStack) (instr : Instr) (e : Emission) :
    Emission :=
  match instr with
  | .block _ => e.newLabel.2
  | .loop _ =>
    let (start, e) := e.newLabel.2.newLabel
    if stack.isEmitting then e.bind start else e
  | .ifThen _ =>
    let (other, e) := e.newLabel.2.newLabel
    if stack.isEmitting then e.emit (.jumpUnless other) else e
  | .elseArm =>
    match stack.innermost with
    | .ok scope => scope.emitElse e
    | .error _ => e
  | .endScope =>
    match stack.innermost with
    | .ok scope => scope.emitEnd e
    | .error _ => e
  | _ => if stack.isEmitting then instr.emitReachable ctx stack e else e

/-! ## Branches -/

namespace Emission

variable {stack : ControlStack} {depth : Nat}

section

variable (h : depth < stack.scopes.length)
include h

theorem exists_scopeAt :
    ∃ scope types, stack.scopeAt depth = .ok scope ∧ stack.excess depth = .ok types := by
  have hs : stack.scopeAt depth = .ok stack.scopes[depth] :=
    scopeAt_eq_ok.mpr (getElem?_eq_getElem h)
  exact ⟨_, _, hs, except_bind_eq_ok.mpr ⟨_, hs, rfl⟩⟩

theorem isPlainBranch_eq : isPlainBranch stack depth = .ok (isPlain stack depth) := by
  obtain ⟨scope, types, -, he⟩ := exists_scopeAt h
  rw [isPlainBranch, isPlain, he]
  rfl

theorem branchLabel_eq : branchLabel stack depth = .ok (target stack depth) := by
  obtain ⟨scope, types, hs, -⟩ := exists_scopeAt h
  rw [branchLabel, target, hs]
  rfl

theorem emitBranch_eq (e : Emission) : e.emitBranch stack depth = .ok (e.branch stack depth) := by
  obtain ⟨scope, types, hs, he⟩ := exists_scopeAt h
  rw [emitBranch, branch, hs, he]
  rfl

theorem emitBranchIf_eq (e : Emission) :
    e.emitBranchIf stack depth = .ok (e.branchIf stack depth) := by
  rw [emitBranchIf, branchIf, isPlainBranch_eq h, branchLabel_eq h]
  cases isPlain stack depth with
  | true => rfl
  | false =>
    show (do return (← emitBranch _ _ _).bind _ : Except Fault Emission) = _
    rw [emitBranch_eq h]
    rfl

end

variable {depths : List Nat} {stubs : List (Nat × Label)}

theorem tableTargets_eq (h : ∀ depth ∈ depths, depth < stack.scopes.length)
    (stubs : List (Nat × Label)) (e : Emission) :
    tableTargets stack stubs depths e = .ok (tableLabels stack stubs depths e) := by
  induction depths generalizing stubs e with
  | nil => rfl
  | cons depth depths ih =>
    obtain ⟨hd, hds⟩ := forall_mem_cons.mp h
    rw [tableTargets, tableLabels, isPlainBranch_eq hd, branchLabel_eq hd]
    cases isPlain stack depth with
    | true =>
      change (tableTargets stack stubs depths e >>= fun table =>
        .ok (target stack depth :: table.1, table.2)) = _
      rw [ih hds]
      rfl
    | false =>
      cases stubs.lookup depth with
      | some stub =>
        change (tableTargets stack stubs depths e >>=
          fun table => .ok (stub :: table.1, table.2)) = _
        rw [ih hds]
        rfl
      | none =>
        change (tableTargets stack ((depth, e.newLabel.1) :: stubs) depths e.newLabel.2 >>=
          fun table => .ok (e.newLabel.1 :: table.1, table.2)) = _
        rw [ih hds]
        rfl

theorem length_tableLabels (stack : ControlStack) (stubs : List (Nat × Label)) (depths : List Nat)
    (e : Emission) : (tableLabels stack stubs depths e).1.length = depths.length := by
  induction depths generalizing stubs e with
  | nil => rfl
  | cons depth depths ih =>
    rw [tableLabels]
    split
    · exact congrArg Nat.succ (ih _ _)
    · split
      · exact congrArg Nat.succ (ih _ _)
      · exact congrArg Nat.succ (ih _ _)

theorem mem_stubs {e : Emission} :
    ∀ stub ∈ (tableLabels stack stubs depths e).2.1, stub ∈ stubs ∨ stub.1 ∈ depths := by
  induction depths generalizing stubs e with
  | nil => exact fun stub h => .inl h
  | cons depth depths ih =>
    have htail : ∀ stub : Nat × Label, stub.1 ∈ depths → stub.1 ∈ depth :: depths :=
      fun _ => mem_cons_of_mem _
    rw [tableLabels]
    split
    · exact fun stub h => (ih stub h).imp_right (htail stub)
    · split
      · exact fun stub h => (ih stub h).imp_right (htail stub)
      · intro stub h
        rcases ih stub h with h | h
        · rcases mem_cons.mp h with rfl | h
          · exact .inr mem_cons_self
          · exact .inl h
        · exact .inr (htail stub h)

theorem emitStubs_eq (h : ∀ stub ∈ stubs, stub.1 < stack.scopes.length) (e : Emission) :
    emitStubs stack stubs e =
      .ok (stubs.foldl (fun e (depth, stub) => (e.bind stub).branch stack depth) e) := by
  induction stubs generalizing e with
  | nil => rfl
  | cons stub stubs ih =>
    obtain ⟨hs, hss⟩ := forall_mem_cons.mp h
    rw [emitStubs, emitBranch_eq hs, foldl_cons]
    exact ih hss _

/-- **A branch table has a default**, since there is one more label than depths. -/
theorem emitBranchTable_eq {default : Nat}
    (h : ∀ depth ∈ depths ++ [default], depth < stack.scopes.length) (e : Emission) :
    e.emitBranchTable stack depths default = .ok (e.branchTable stack depths default) := by
  have hlen := length_tableLabels stack [] (depths ++ [default]) e
  have hstubs := @mem_stubs stack (depths ++ [default]) [] e
  rw [emitBranchTable, branchTable, tableTargets_eq h]
  generalize tableLabels stack [] (depths ++ [default]) e = table at hlen hstubs
  obtain ⟨labels, stubs, e'⟩ := table
  have hstub : ∀ stub ∈ stubs.reverse, stub.1 < stack.scopes.length := fun stub hs =>
    h _ ((hstubs stub (mem_reverse.mp hs)).resolve_left not_mem_nil)
  cases hlast : labels.getLast? with
  | none =>
    cases getLast?_eq_none_iff.mp hlast
    rw [length_append] at hlen
    cases hlen
  | some label =>
    refine except_bind_eq_ok.mpr ⟨_, rfl, ?_⟩
    simp only [hlast, getLastD_eq_getLast?, Option.getD_some]
    exact emitStubs_eq hstub _

end Emission

/-! ## Instructions -/

variable {ctx : BodyContext} {sc : Scope} {os : List Scope} {st : ControlStack} {i : Instr}
  {unr : Bool} {ops : List Operand}

variable {o : Operand} {rest : List Operand} {stack : ControlStack}

theorem eq_tail_of_pop? (h : pop? unr ops = some (o, rest)) : rest = ops.tail := by
  cases ops with
  | nil =>
    cases unr with
    | true => cases h; rfl
    | false => cases h
  | cons _ _ => cases h; rfl

theorem ControlStack.popped_eq (h : take? sc.unreachable [.i32] sc.operands = some rest) :
    popped ⟨[], sc :: os⟩ = .ok (dropTop ⟨[], sc :: os⟩) := by
  obtain ⟨o, hp, hfit⟩ := take?_singleton.mp h
  rw [popped, popType_eq_ok.mpr ⟨_, hp, hfit, rfl⟩, eq_tail_of_pop? hp]
  rfl

theorem BodyContext.slotAt_eq {index : Nat} {slot : LocalSlot} (h : ctx.localAt index = .ok slot) :
    ctx.slotAt index = slot.slot := by
  rw [slotAt, IndexSpaces.lookup_eq_ok.mp h]

/-- An operand of a scope that can be reached has a type, so what is done with it is emitted. -/
theorem Emission.basicIfKnown_eq {operand : Check Operand} (h : operand stack = .ok o st)
    (ho : o ≠ .unknown) (op : BasicOp) (e : Emission) :
    e.basicIfKnown stack operand op = .ok (e.basic op) := by
  cases o with
  | known t => rw [basicIfKnown, h]
  | unknown => exact absurd rfl ho

/-- An instruction of fixed type finds what its code refers to. -/
theorem Instr.Fixed.lowerReachable_eq {ps rs : List ValueType} (h : Instr.Fixed ctx i ps rs)
    (stack : ControlStack) (e : Emission) :
    i.lowerReachable ctx stack e = .ok (i.emitReachable ctx stack e) := by
  cases h with
  | call hf => rw [lowerReachable, emitReachable, hf]; rfl
  | callIndirect ht _ => rw [lowerReachable, emitReachable, ht]; rfl
  | localGet hl =>
    show (do return e.basic (.localGet (← ctx.localAt _).slot) : Except Fault Emission) =
      .ok (e.basic (.localGet (ctx.slotAt _)))
    rw [hl, BodyContext.slotAt_eq hl]
    rfl
  | localSet hl =>
    show (do return e.basic (.localSet (← ctx.localAt _).slot) : Except Fault Emission) =
      .ok (e.basic (.localSet (ctx.slotAt _)))
    rw [hl, BodyContext.slotAt_eq hl]
    rfl
  | localTee hl =>
    show (do return e.basic (.localTee (← ctx.localAt _).slot) : Except Fault Emission) =
      .ok (e.basic (.localTee (ctx.slotAt _)))
    rw [hl, BodyContext.slotAt_eq hl]
    rfl
  | @load access arg =>
    rw [lowerReachable, emitReachable]
    cases e.accessor? ctx (.load access) arg <;> rfl
  | @store access arg =>
    rw [lowerReachable, emitReachable]
    cases e.accessor? ctx (.store access) arg <;> rfl
  | _ => rfl

theorem Instr.Moves.lowerReachable_eq
    (h : Instr.Moves ctx ((sc :: os).map Scope.branchTypes) i sc.unreachable sc.operands unr ops)
    (hm : sc.Marked) (hu : sc.unreachable = false) (e : Emission) :
    i.lowerReachable ctx ⟨[], sc :: os⟩ e = .ok (i.emitReachable ctx ⟨[], sc :: os⟩ e) := by
  have hlt : ∀ {depth types}, ((sc :: os).map Scope.branchTypes)[depth]? = some types →
      depth < (sc :: os).length := by
    intro depth types hl
    rw [← length_map Scope.branchTypes]
    exact (List.getElem?_eq_some_iff.mp hl).1
  have hknown : ∀ o ∈ sc.operands, o ≠ .unknown := by
    rintro o ho rfl
    rw [hm ho] at hu
    cases hu
  have hmarked := h.marks hm
  cases h with
  | fixed hf _ => exact hf.lowerReachable_eq _ e
  | unreachable | refIsNull _ _ => rfl
  | br hl _ => exact Emission.emitBranch_eq (hlt hl) e
  | ret hl _ =>
    rw [length_map] at hl
    exact Emission.emitBranch_eq (hlt hl) e
  | brIf hl ht =>
    rw [reverse_append, take?_append, Option.bind_eq_some_iff] at ht
    obtain ⟨ops1, hi, -⟩ := ht
    rw [lowerReachable, ControlStack.popped_eq hi]
    exact Emission.emitBranchIf_eq (hlt hl) e
  | brTable hi _ _ hall =>
    rw [lowerReachable, ControlStack.popped_eq hi]
    refine Emission.emitBranchTable_eq (fun depth hd => ?_) e
    obtain ⟨ts, hl, -⟩ := hall depth hd
    exact hlt hl
  | drop hp =>
    refine Emission.basicIfKnown_eq (pop_eq_ok.mpr ⟨_, hp, rfl⟩) (hknown _ ?_) .drop e
    rw [hu, pop?_false_eq] at hp
    exact hp ▸ mem_cons_self
  | select hi hp2 hp1 hsame hn =>
    have hof := selectOf_eq_ok.mpr ⟨hsame, hn, rfl⟩
    refine Emission.basicIfKnown_eq
      (selectOperand_eq_ok.mpr ⟨_, _, _, _, _, hi, hp2, hp1, hof, rfl⟩) (fun heq => ?_) .select e
    have hlost := hmarked (heq ▸ mem_cons_self)
    rw [Scope.holding, hu] at hlost
    cases hlost

/-- **An instruction that passed its check is lowered**, and yields `Instr.emit`. -/
theorem Instr.lower_eq {n : Nat} (hr : stack.Ready) (h : i.check ctx n stack = .ok () st)
    (e : Emission) : i.lower ctx stack e = .ok (i.emit ctx stack e) := by
  obtain ⟨sc, os, rfl, hm⟩ := hr
  cases Instr.check_iff.mp h with
  | plain hi hmoves =>
    have hreach : (if ControlStack.isEmitting ⟨[], sc :: os⟩
        then i.lowerReachable ctx ⟨[], sc :: os⟩ e else .ok e) =
        .ok (if ControlStack.isEmitting ⟨[], sc :: os⟩ then
          i.emitReachable ctx ⟨[], sc :: os⟩ e else e) := by
      split
      · next hem =>
        refine hmoves.lowerReachable_eq (hm sc mem_cons_self) ?_ e
        rw [ControlStack.isEmitting, Bool.and_eq_true, Bool.not_eq_true'] at hem
        exact hem.1
      · rfl
    cases i with
    | block | loop | ifThen | elseArm | endScope => cases hi
    | _ => exact hreach
  | _ => rfl

end Wasm
