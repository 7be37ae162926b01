import Wasm.Proofs.Structured.Following

/-! # The machine follows each instruction

Those that open no scope (`exec_follows`), given the calls that they make. -/

namespace Wasm

open List Emission LocalSlot
open Assembly (place)
open Machine (Leads LeadsOn Lasts)

variable {os : List Scope} {belows : List (List Value)} {sc : Scope} {ops : List Value}
  {f : Frame} {table base p p1 steps : Nat} {func : FuncAddr} {s s0 : Store} {unr : Bool}

variable {type : FuncType} {i : Instr} {count : Nat}

def Scope.Hold (os : List Scope) (belows : List (List Value)) : Prop :=
  belows.map List.length = os.map fun sc => sc.operands.length

theorem Scope.Hold.length_ops (h : Scope.Hold os belows) (hops : ops.length = sc.operands.length)
    (depth : Nat) :
    (ops ++ (belows.take depth).flatten).length = (Scope.above (sc :: os) depth).length := by
  have htake : (belows.take depth).map List.length =
      (os.take depth).map fun sc => sc.operands.length := by
    rw [map_take, h, map_take]
  rw [Scope.above, take_succ_cons, flatMap_cons, length_append, length_append,
    length_flatten, length_flatMap, htake, hops]

def Instance.Linked (inst : Instance) (s : Store) : Prop :=
  ∀ (index : Nat) (type : FuncType), inst.module.spaces.funcType index = .ok type →
    ∃ addr, inst.funcs[index]? = some addr ∧ s.funcType? addr = some type

theorem Frame.funcType?_of_indirect {type index : Nat} {s' : Store}
    (h : f.indirect type table index s = .ok func s') :
    s'.funcType? func = f.inst.module.spaces.types[type]? := by
  obtain ⟨t, s1, -, h⟩ := bind_eq_ok.mp h
  obtain ⟨entry, s2, -, h⟩ := bind_eq_ok.mp h
  split at h
  · cases h
  · cases h
  · rw [bind_of_ok (get_apply s2)] at h
    split at h
    · next heq => cases h; exact heq
    · cases h

namespace Structured

variable {w : Surroundings} {st : State}

/-! ## Branches -/

variable {depth : Nat} {op : BasicOp}

theorem append_flatten (ops : List Value) (belows : List (List Value)) (depth : Nat) :
    ops ++ (belows.take depth).flatten ++ (belows.drop depth).flatten = ops ++ belows.flatten := by
  rw [append_assoc, ← flatten_append, take_append_drop]

variable {target : Scope} {slots : Array Value} {e : Emission} {rest : List Operand} {pc : Nat}
  {results : List ValueType}

theorem arrives_of_leads {values slots' : Array Value} {M : StepResult}
    (ht : (sc :: os)[depth]? = some target) (hle : target.branchTypes.length ≤ ops.length)
    (hs : w.site.Stores values slots) (hsame : w.site.Same slots slots')
    (hM : LeadsOn M (w.state s (w.site.frame (place w.site.fin.asm.labels target.label) slots'
      ((ops ++ (belows.take depth).flatten).take target.branchTypes.length ++
      (belows.drop depth).flatten)))) :
    Arrives w ((sc :: os).map Scope.exit) belows M depth ⟨w.site.inst, values, ops⟩ s := by
  rw [take_append_of_le_length hle] at hM
  refine ⟨target.label, target.branchTypes.length, _, ?_, hle, .intro (hs.of_same hsame), hM⟩
  rw [getElem?_map, ht]
  rfl

theorem arrives_branch (ht : (sc :: os)[depth]? = some target) (hl : Scope.AllLive (sc :: os))
    (hp : (e.branch ⟨[], sc :: os⟩ depth).Heads w.site.fin)
    (hsep : e.Separate (width w.site.types)) (hb : Scope.Hold os belows)
    (hle : target.branchTypes.length ≤ sc.operands.length)
    (hf : MirrorsWith w.site belows.flatten e.asm.code.size sc.operands.length st f) :
    Arrives w ((sc :: os).map Scope.exit) belows (w.state s f) depth st s := by
  obtain ⟨@⟨values, slots, ops, hs⟩, hlen⟩ := hf
  have hle' : target.branchTypes.length ≤ ops.length := Nat.le_trans hle (Nat.le_of_eq hlen.symm)
  obtain ⟨slots', hsame, hlead⟩ := @Spot.leads_branch e slots _ (belows.drop depth).flatten
    w.site.toSpot s w.callers w.room _ _ _ ht hl hp hsep hs.size (hb.length_ops hlen depth)
    (length_append ▸ Nat.le_add_right_of_le hle')
  rw [append_flatten] at hlead
  exact arrives_of_leads ht hle' hs hsame hlead

theorem follows_brIf {types : List ValueType} {call : FuncAddr → List Value → Run (List Value)}
    (ht : ((sc :: os).map Scope.branchTypes)[depth]? = some types) (hl : Scope.AllLive (sc :: os))
    (hbase : base = width w.site.types)
    (hat : (Instr.brIf depth).At w.site.ctx base w.site.fin (sc :: os) p p1)
    (hb : Scope.Hold os belows) (hops : sc.operands = .known .i32 :: rest)
    (hle : types.length ≤ rest.length)
    (hf : MirrorsWith w.site belows.flatten p sc.operands.length st f) :
    Follows w ((sc :: os).map Scope.exit) belows
      (MirrorsWith w.site belows.flatten p1 rest.length) (w.state s f)
      (exec call st (.brIf depth) s) := by
  obtain ⟨e, hsep, rfl, rfl, hplaced⟩ := hat
  subst hbase
  have hsc := hl sc mem_cons_self
  obtain ⟨target, htarget, rfl⟩ := @getElem?_holding _ sc os sc.unreachable sc.operands.tail _ ht
  have hl1 := hl.holding fun o ho => hsc.known o (mem_of_mem_tail ho)
  obtain ⟨@⟨values, slots, ops, hs⟩, hlen⟩ := hf
  rw [hops] at hlen
  obtain ⟨v, vs, rfl⟩ := exists_cons_of_length_eq_add_one hlen
  have hvs : vs.length = rest.length := Nat.succ.inj hlen
  have htail : vs.length = (sc.keeping sc.operands.tail).operands.length := by
    rw [Scope.holding_operands, hops]
    exact hvs
  have hlead := @Spot.leads_branchIf e slots _ (belows.drop depth).flatten w.site.toSpot s
    w.callers w.room _ depth target hplaced hsep htarget hl1 hs.size (hb.length_ops htail depth)
    (length_append ▸ Nat.le_add_right_of_le (hvs ▸ hle)) v
  rw [append_flatten] at hlead
  show Follows w ((sc.keeping sc.operands.tail :: os).map Scope.exit) belows _ _
    ((if v.asI32 ≠ 0 then throw _ else pure _ : Run State) s)
  split at hlead
  · next hc =>
      obtain ⟨slots', hsame, hlead⟩ := hlead
      rw [if_pos hc]
      exact arrives_of_leads htarget (hvs ▸ hle) hs hsame hlead
  · next hc =>
      rw [if_neg hc]
      exact ⟨_, ⟨.intro hs, hvs⟩, hlead.leads⟩

theorem follows_brTable {depths : List Nat} {default n : Nat}
    {call : FuncAddr → List Value → Run (List Value)} {R : State → Frame → Prop}
    (ht : ∀ depth ∈ depths ++ [default], ∃ types, ((sc :: os).map Scope.branchTypes)[depth]? =
      some types ∧ types.length = n)
    (hl : Scope.AllLive (sc :: os)) (hbase : base = width w.site.types)
    (hat : (Instr.brTable depths default).At w.site.ctx base w.site.fin (sc :: os) p p1)
    (hb : Scope.Hold os belows) (hops : sc.operands = .known .i32 :: rest) (hle : n ≤ rest.length)
    (hf : MirrorsWith w.site belows.flatten p sc.operands.length st f) :
    Follows w ((sc :: os).map Scope.exit) belows R (w.state s f)
      (exec call st (.brTable depths default) s) := by
  obtain ⟨e, hsep, rfl, rfl, hplaced⟩ := hat
  subst hbase
  have hsc := hl sc mem_cons_self
  have hl1 := hl.holding fun o ho => hsc.known o (mem_of_mem_tail ho)
  obtain ⟨@⟨values, slots, ops, hs⟩, hlen⟩ := hf
  rw [hops] at hlen
  obtain ⟨v, vs, rfl⟩ := exists_cons_of_length_eq_add_one hlen
  have hvs : vs.length = rest.length := Nat.succ.inj hlen
  have htail : vs.length = (sc.keeping sc.operands.tail).operands.length := by
    rw [Scope.holding_operands, hops]
    exact hvs
  -- The target at the index, or the default.
  have hmem : depths[v.asI32.toNat]?.getD default ∈ depths ++ [default] :=
    mem_of_getElem? (getElem?_append_getD depths default v.asI32.toNat)
  obtain ⟨types, htypes, rfl⟩ := ht _ hmem
  obtain ⟨target, htarget, rfl⟩ :=
    @getElem?_holding _ sc os sc.unreachable sc.operands.tail _ htypes
  obtain ⟨slots', hsame, hlead⟩ := @Spot.leads_branchTable e slots _
    (belows.drop (depths[v.asI32.toNat]?.getD default)).flatten w.site.toSpot s w.callers w.room _
    target _ _ v hplaced hsep htarget hl1 hs.size (hb.length_ops htail _)
    (length_append ▸ Nat.le_add_right_of_le (hvs ▸ hle))
  rw [append_flatten] at hlead
  show Arrives w ((sc.keeping sc.operands.tail :: os).map Scope.exit) belows _ _ _ s
  exact arrives_of_leads htarget (hvs ▸ hle) hs hsame hlead

/-! ## Instructions without control -/

theorem Mirrors.step_eq {site : Site} {below : List Value} {op : Op Label}
    (h : Mirrors site below p st f) (hop : site.fin.asm.code[p]? = some op) :
    ∃ f', Mirrors site below (p + 1) st f' ∧
      f.step = (op.relabel (place site.fin.asm.labels)).exec f' := by
  obtain @⟨values, slots, ops, hs⟩ := h
  exact ⟨_, .intro hs, Spot.step_eq hop _⟩

theorem exec_of_op? {ctx : BodyContext} (h : i.op? ctx = some op)
    (call : FuncAddr → List Value → Run (List Value)) (st : State) :
    exec call st i = lift (perform st i) := by
  cases i <;> first | rfl | exact nomatch h

variable {call : FuncAddr → List Value → Run (List Value)} {targets : List (Label × Nat)}

theorem follows_op {labels : List (List ValueType)} {ops : List Operand}
    (hop : i.op? w.site.ctx = some op)
    (hm : Instr.Moves w.site.ctx labels i false sc.operands unr ops)
    (hat : i.At w.site.ctx base w.site.fin (sc :: os) p p1) (hk : sc.Live)
    (hf : MirrorsWith w.site belows.flatten p sc.operands.length st f) :
    Follows w targets belows
      (fun st f => unr = false ∧ MirrorsWith w.site belows.flatten p1 ops.length st f)
      (w.state s f) (exec call st i s) := by
  obtain ⟨e, -, rfl, rfl, hplaced⟩ := hat
  obtain ⟨e1, op', heq, hasm, hstands, -⟩ := Instr.emitReachable_of_op? hop ⟨[], sc :: os⟩ e
  rw [heq] at hplaced ⊢
  have hcode : w.site.fin.asm.code[e.asm.code.size]? = some (.basic op') := by
    refine hplaced.code_getElem? ?_
    rw [basic_eq_emit, code_emit, hasm, Array.getElem?_push_size]
  obtain ⟨f', hf', hstep⟩ := hf.1.step_eq hcode
  obtain ⟨hunr, hacts⟩ := perform_acts hop hm hk.known ⟨hf', hf.2⟩
  have hinst : f'.inst = w.site.inst := by
    obtain ⟨-⟩ := hf'
    rfl
  have hexec : op'.exec f' = op.exec f' := by
    refine hstands.exec_eq ?_
    rw [hinst]
    exact hplaced.heads.keys.trans w.site.keys
  have hsize : (e1.basic op').asm.code.size = e.asm.code.size + 1 := by
    rw [basic_eq_emit, code_emit, hasm, Array.size_push]
  have hs := hacts s
  rw [exec_of_op? hop, lift, hsize]
  have hmachine : f.step s = op.exec f' s := by
    rw [hstep, ← hexec]
    rfl
  cases hp : perform st i s with
  | ok st' s' =>
    rw [hp] at hs
    obtain ⟨f'', hx, hf''⟩ := hs
    refine ⟨f'', ⟨hunr, hf''⟩, .step ?_⟩
    rw [Machine.step, hmachine, hx]
  | error t s' =>
    rw [hp] at hs
    refine Leads.step ?_
    rw [Machine.step, hmachine, hs]

/-! ## Calls -/

def FollowsCall (type : FuncType) (callers : List Activation) (room steps : Nat) (M : StepResult) :
    EStateM.Result Exit Store (List Value) → Prop
  | .ok vs s => vs.length = type.results.length ∧
      Leads M (Machine.deliver s (packResults vs) callers room)
  | .error (.trap t) s => Leads M (Machine.unwind s t callers)
  | .error .outOfFuel _ => Lasts steps M
  | .error (.branch _ _) _ => False
  | .error (.ret _) _ => False

def CallsFollow (call : FuncAddr → List Value → Run (List Value)) (room steps : Nat)
    (s0 : Store) : Prop :=
  ∀ (s : Store) (func : FuncAddr) (args : List Value) (type : FuncType) (callers : List Activation),
    s0.Agrees s → s.funcType? func = some type → args.length = type.params.length →
    FollowsCall type callers room steps (Machine.call s func args callers room) (call func args s)

def unpackOps (results : List ValueType) : List (Op Label) :=
  match Carrier.bundleFor? results with
  | some carrier => [.basic (.unpack carrier)]
  | none => []

theorem code_unpackResults (results : List ValueType) (e : Emission) :
    (e.unpackResults results).asm.code = e.asm.code ++ (unpackOps results).toArray := by
  unfold Emission.unpackResults unpackOps
  cases Carrier.bundleFor? results with
  | some carrier => exact Array.push_eq_append
  | none => exact Array.append_empty.symm

theorem leads_unpack {vs rest : List Value} (hlen : vs.length = results.length)
    (hcode : w.site.fin.CodeAt pc (unpackOps results)) :
    Leads (w.site.state s w.callers w.room pc slots (packResults vs ++ rest))
      (w.site.state s w.callers w.room (pc + (unpackOps results).length) slots
        (vs.reverse ++ rest)) := by
  match vs, results, hlen with
  | [], [], _ => exact .refl _
  | [v], [t], _ => exact .refl _
  | u :: v :: vs, t1 :: t2 :: ts, _ =>
    obtain ⟨hop, -⟩ := hcode.cons
    exact (Spot.leadsOn_next hop rfl).leads

theorem follows_invoke {s1 : Store} {f1 : Frame} (hcalls : CallsFollow call w.room steps s0)
    (hsteps : w.steps ≤ steps + 1) (hs : s0.Agrees s) (htype : s.funcType? func = some type)
    (hf : MirrorsWith w.site belows.flatten pc (count + type.params.length) st f)
    (hcode : w.site.fin.CodeAt pc (unpackOps type.results))
    (hstep : Machine.step s1 ⟨.frame f1, w.callers, w.room⟩ =
      Machine.callFrom s f func w.callers w.room) :
    Follows w targets belows (MirrorsWith w.site belows.flatten
      (pc + (unpackOps type.results).length) (count + type.results.length))
      (w.state s1 f1) (invoke call func st s) := by
  obtain ⟨@⟨values, slots, ops, hstores⟩, hlen⟩ := hf
  have hops : ops.length = count + type.params.length := hlen
  have hle : type.params.length ≤ ops.length := by omega
  have hentry : ∃ entry, s.funcs[func.index]? = some entry ∧ entry.type = type := by
    simpa [Store.funcType?] using htype
  obtain ⟨entry, hget, rfl⟩ := hentry
  -- The arguments are the operands on top, and stay below the callee.
  have hcallFrom : Machine.callFrom s
      ⟨w.site.inst, w.site.func, pc, slots, ops ++ belows.flatten⟩ func w.callers w.room =
      Machine.call s func (ops.take entry.type.params.length).reverse
        (.frame (w.site.frame pc slots (ops.drop entry.type.params.length ++ belows.flatten)) ::
          w.callers) w.room := by
    unfold Machine.callFrom
    rw [hget]
    dsimp only
    rw [take_append_of_le_length hle, drop_append_of_le_length hle]
  have hfollows := hcalls s func (ops.take entry.type.params.length).reverse entry.type
    (.frame (w.site.frame pc slots (ops.drop entry.type.params.length ++ belows.flatten)) ::
      w.callers) hs htype (by rw [length_reverse, length_take, Nat.min_eq_left hle])
  rw [← hcallFrom, ← hstep] at hfollows
  unfold invoke
  rw [bind_of_ok (get_apply s), htype]
  cases hx : call func (ops.take entry.type.params.length).reverse s with
  | ok vs s' =>
    rw [hx] at hfollows
    obtain ⟨hvs, hlead⟩ := hfollows
    rw [bind_of_ok hx]
    have hback := hlead.trans (leads_unpack hvs hcode)
    rw [← append_assoc] at hback
    refine ⟨_, ⟨.intro hstores, ?_⟩, (Leads.step rfl).trans hback⟩
    show (vs.reverse ++ ops.drop entry.type.params.length).length = _
    rw [length_append, length_reverse, length_drop, hvs]
    omega
  | error exit s' =>
    rw [hx] at hfollows
    rw [bind_of_error hx]
    match exit, hfollows with
    | .trap t, hlead => exact (Leads.step rfl).trans hlead
    | .outOfFuel, hlasts => exact Lasts.mono (n := steps + 1) hlasts hsteps

theorem codeAt_call {fin : Emission} (h : ((e.basic op).unpackResults results).Kept fin) :
    fin.asm.code[e.asm.code.size]? = some (.basic op) ∧
      fin.CodeAt (e.asm.code.size + 1) (unpackOps results) ∧
      ((e.basic op).unpackResults results).asm.code.size =
        e.asm.code.size + 1 + (unpackOps results).length := by
  have hcode := code_unpackResults results (e.basic op)
  have hpush : (e.basic op).asm.code.size = e.asm.code.size + 1 := Array.size_push _
  have hat : fin.CodeAt (e.basic op).asm.code.size (unpackOps results) := .of_heads h.heads hcode
  have hall : fin.CodeAt e.asm.code.size (.basic op :: unpackOps results) := by
    refine .of_heads h.heads (hcode.trans ?_)
    simp [basic_eq_emit]
  refine ⟨hall.cons.1, hpush ▸ hat, ?_⟩
  simp [hcode, hpush]

section Exec

variable (hcalls : CallsFollow call w.room steps s0) (hsteps : w.steps ≤ steps + 1)
  (hs : s0.Agrees s)

include hcalls hsteps hs

theorem follows_call {func : Nat} (hlinked : w.site.inst.Linked s0)
    (ht : w.site.ctx.spaces.funcType func = .ok type)
    (hat : (Instr.call func).At w.site.ctx base w.site.fin (sc :: os) p p1)
    (hf : MirrorsWith w.site belows.flatten p (count + type.params.length) st f) :
    Follows w targets belows (MirrorsWith w.site belows.flatten p1 (count + type.results.length))
      (w.state s f) (exec call st (.call func) s) := by
  obtain ⟨e, -, rfl, rfl, hplaced⟩ := hat
  rw [Instr.emitReachable, ht] at hplaced ⊢
  obtain ⟨hop, hunpack, hsize⟩ := codeAt_call hplaced
  rw [hsize]
  obtain ⟨addr, haddr, htype⟩ := hlinked func type (w.site.spaces ▸ ht)
  obtain ⟨@⟨values, slots, ops, hstores⟩, hlen⟩ := hf
  have hexec : BasicOp.exec (w.site.frame (e.asm.code.size + 1) slots (ops ++ belows.flatten))
      (.call func) s = .ok (.call addr (w.site.frame (e.asm.code.size + 1) slots
        (ops ++ belows.flatten))) s := by
    rw [BasicOp.exec, haddr]
    rfl
  rw [exec, haddr]
  exact follows_invoke hcalls hsteps hs (hs.funcType? addr ▸ htype) ⟨.intro hstores, hlen⟩
    hunpack (Spot.step_call hop hexec)

theorem follows_callIndirect {typeIndex : Nat} (ht : w.site.ctx.spaces.typeAt typeIndex = .ok type)
    (hat : (Instr.callIndirect typeIndex table).At w.site.ctx base w.site.fin (sc :: os) p p1)
    (hf : MirrorsWith w.site belows.flatten p (count + type.params.length + 1) st f) :
    Follows w targets belows (MirrorsWith w.site belows.flatten p1 (count + type.results.length))
      (w.state s f) (exec call st (.callIndirect typeIndex table) s) := by
  obtain ⟨e, -, rfl, rfl, hplaced⟩ := hat
  rw [Instr.emitReachable, ht] at hplaced ⊢
  obtain ⟨hop, hunpack, hsize⟩ := codeAt_call hplaced
  rw [hsize]
  obtain ⟨@⟨values, slots, ops, hstores⟩, hlen⟩ := hf
  obtain ⟨v, rest, rfl⟩ := exists_cons_of_length_eq_add_one hlen
  have htypes : w.site.inst.module.spaces.types[typeIndex]? = some type :=
    IndexSpaces.lookup_eq_ok.mp (w.site.spaces ▸ ht)
  show Follows _ _ _ _ _ ((lift (Frame.indirect _ typeIndex table v.asI32.toNat) >>= fun addr =>
    invoke call addr ⟨w.site.inst, values, rest⟩) s)
  cases hx : (State.frame ⟨w.site.inst, values, v :: rest⟩).indirect typeIndex table
      v.asI32.toNat s with
  | ok addr s' =>
    -- The frame finds the same callee, since only the instance matters.
    have hexec : BasicOp.exec (w.site.frame (e.asm.code.size + 1) slots
        (v :: rest ++ belows.flatten)) (.callIndirect typeIndex table) s =
        .ok (.call addr (w.site.frame (e.asm.code.size + 1) slots (rest ++ belows.flatten)))
          s' := by
      exact bind_of_ok hx
    rw [bind_of_ok (lift_of_ok hx)]
    exact follows_invoke hcalls hsteps (hs.trans ((Frame.inspects_indirect _ _ _ _).keeps.ok hx))
      ((Frame.funcType?_of_indirect hx).trans htypes) ⟨.intro hstores, Nat.succ.inj hlen⟩ hunpack
      (Spot.step_call hop hexec)
  | error t s' =>
    have hexec : BasicOp.exec (w.site.frame (e.asm.code.size + 1) slots
        (v :: rest ++ belows.flatten)) (.callIndirect typeIndex table) s = .error t s' := by
      exact bind_of_error hx
    rw [bind_of_error (lift_of_error hx)]
    exact Leads.step (Spot.step_trap hop hexec)

theorem exec_follows {ops : List Operand} (hlinked : w.site.inst.Linked s0)
    (hbase : base = width w.site.types)
    (hm : Instr.Moves w.site.ctx ((sc :: os).map Scope.branchTypes) i false sc.operands unr ops)
    (hat : i.At w.site.ctx base w.site.fin (sc :: os) p p1) (hl : Scope.AllLive (sc :: os))
    (hb : Scope.Hold os belows) (hf : MirrorsWith w.site belows.flatten p sc.operands.length st f) :
    Follows w ((sc :: os).map Scope.exit) belows
      (fun st f => unr = false ∧ MirrorsWith w.site belows.flatten p1 ops.length st f)
      (w.state s f) (exec call st i s) := by
  have hsc := hl sc mem_cons_self
  cases hop : i.op? w.site.ctx with
  | some op => exact follows_op hop hm hat hsc hf
  | none =>
    cases hm with
    | @fixed _ ps rs _ _ rest hi ht =>
      have hlen := length_of_take? hsc.known ht
      rw [length_reverse, Nat.add_comm] at hlen
      rw [hlen] at hf
      rw [length_append, length_reverse, length_known, Nat.add_comm]
      cases hi with
      | nop =>
        obtain ⟨e, -, rfl, rfl, -⟩ := hat
        exact ⟨f, ⟨rfl, hf⟩, .refl _⟩
      | call htype =>
        exact (follows_call hcalls hsteps hs hlinked htype hat hf).mono fun _ _ h => ⟨rfl, h⟩
      | callIndirect htype _ =>
        rw [length_append, ← Nat.add_assoc] at hf
        exact (follows_callIndirect hcalls hsteps hs htype hat hf).mono fun _ _ h => ⟨rfl, h⟩
      | _ => cases hop
    | unreachable =>
      obtain ⟨e, -, rfl, rfl, hplaced⟩ := hat
      obtain ⟨@⟨values, slots, vs, hstores⟩, hlen⟩ := hf
      have hcode : w.site.fin.asm.code[e.asm.code.size]? = some (.basic .unreachable) :=
        hplaced.code_getElem? Array.getElem?_push_size
      exact Leads.step (Spot.step_trap hcode rfl)
    | br htypes ht =>
      obtain ⟨e, hsep, rfl, rfl, hplaced⟩ := hat
      obtain ⟨target, htarget, rfl⟩ := Check.labels_getElem?.mp htypes
      have hlen := length_of_take? hsc.known ht
      rw [length_reverse] at hlen
      exact arrives_branch htarget hl hplaced.heads (hbase ▸ hsep) hb (by omega) hf
    | ret htypes ht =>
      obtain ⟨e, hsep, rfl, rfl, hplaced⟩ := hat
      obtain ⟨target, htarget, rfl⟩ := Check.labels_getElem?.mp htypes
      have hlen := length_of_take? hsc.known ht
      rw [length_reverse] at hlen
      rw [length_map] at htarget
      show Arrives w _ belows _ (((sc :: os).map Scope.exit).length - 1) st s
      rw [length_map]
      exact arrives_branch htarget hl hplaced.heads (hbase ▸ hsep) hb (by omega) hf
    | @brIf _ types _ _ rest htypes ht =>
      have hops : sc.operands = .known .i32 :: (known types.reverse ++ rest) := by
        rw [Operand.eq_append_of_take? hsc.known ht, reverse_append]
        rfl
      have hlen : (known types.reverse ++ rest).length = types.length + rest.length := by
        rw [length_append, length_known, length_reverse]
      rw [length_append, length_reverse, length_known, ← hlen]
      exact (follows_brIf htypes hl hbase hat hb hops (by omega) hf).mono
        fun _ _ h => ⟨rfl, h⟩
    | brTable hi htypes hc hall =>
      have hops := Operand.eq_append_of_take? hsc.known hi
      obtain ⟨front, hfront, -, hlen⟩ := eq_append_of_popMany? hc
      have hle := Nat.le.intro (hlen ▸ (length_append ▸ congrArg List.length hfront).symm)
      refine follows_brTable (fun depth hd => ?_) hl hbase hat hb hops hle hf
      obtain ⟨ts, hts, hlen, -⟩ := hall depth hd
      exact ⟨ts, hts, hlen⟩
    | drop _ => cases hop
    | select _ _ _ _ _ => cases hop
    | refIsNull _ _ => cases hop

end Exec

end Structured

end Wasm
