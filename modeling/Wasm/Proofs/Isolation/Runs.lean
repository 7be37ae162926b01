import Wasm.Proofs.Isolation.Operations
import Wasm.Proofs.Store.Linking

/-! # Runs of twins

A run of one twin takes the steps of the other (`Twins.Machines.step`). -/

namespace Wasm

open List

variable {callers callers' : List Activation} {args args' : List Value} {g g' : FuncAddr}

namespace Twins

variable (τ : Twins)

/-- Frames of the twins wait for a result. -/
inductive Waiting : Activation → Activation → Prop
  | frame {f f' : Frame} (h : τ.Frames f f') : Waiting (.frame f) (.frame f')

/-- The machines are at the same place of the twins. -/
inductive Machines : Machine → Machine → Prop
  | mk {f f' : Frame} {callers callers' : List Activation} {room : Nat} (hf : τ.Frames f f')
      (hcallers : Forall₂ τ.Waiting callers callers') :
      Machines ⟨.frame f, callers, room⟩ ⟨.frame f', callers', room⟩

/-- The runs end in the same way. -/
inductive Outcomes : Outcome → Outcome → Prop
  | results {vs vs' : List Value} (h : τ.SameValues vs vs') : Outcomes (.results vs) (.results vs')
  | trap (t : Trap) : Outcomes (.trap t) (.trap t)
  | outOfFuel : Outcomes .outOfFuel .outOfFuel

/-- The steps lead to the same. -/
inductive Steps : StepResult → StepResult → Prop
  | next {s s' : Store} {m m' : Machine} (hs : τ.In s s') (hm : τ.Machines m m') :
      Steps (.next s m) (.next s' m')
  | done {s s' : Store} {o o' : Outcome} (hs : τ.In s s') (ho : τ.Outcomes o o') :
      Steps (.done s o) (.done s' o')

/-- Both twins end alike, and change their own objects only. -/
structure Ended (s : Store) (r r' : Outcome × Store) : Prop where
  outcome : τ.Outcomes r.1 r'.1
  stores : τ.In r.2 r'.2
  touched : s.TouchedBy τ.inst r.2

variable {τ} {s s' : Store}

/-! ## Steps -/

theorem In.unwind (hs : τ.In s s') (t : Trap) (h : Forall₂ τ.Waiting callers callers') :
    τ.Steps (Machine.unwind s t callers) (Machine.unwind s' t callers') := by
  induction h with
  | nil => exact .done hs (.trap t)
  | cons hw _ ih =>
    cases hw
    exact ih

variable {vs vs' : List Value} {f f' : Frame}

theorem In.deliver (hs : τ.In s s') (hvs : τ.SameValues vs vs')
    (h : Forall₂ τ.Waiting callers callers') (room : Nat) :
    τ.Steps (Machine.deliver s vs callers room) (Machine.deliver s' vs' callers' room) := by
  cases h with
  | nil => exact .done hs (.results hvs)
  | cons hw hrest =>
    cases hw with
    | frame hf => exact .next hs (.mk (hf.withOperands (rel_append hvs hf.operands)) hrest)

theorem same_fillLocals (entries : List LocalSlot)
    (hargs : τ.SameValues args args') {slots slots' : Array Value}
    (h : τ.SameValues slots.toList slots'.toList) :
    τ.SameValues (Frame.fillLocals entries args slots).toList
      (Frame.fillLocals entries args' slots').toList := by
  have hset (slot : Nat) {v v' : Value} (hv : τ.SameValue v v') {vs vs' : Array Value}
      (hvs : τ.SameValues vs.toList vs'.toList) :
      τ.SameValues (vs.setIfInBounds slot v).toList (vs'.setIfInBounds slot v').toList := by
    rw [Array.toList_setIfInBounds, Array.toList_setIfInBounds]
    exact forall₂_set hvs slot hv
  induction entries generalizing args args' slots slots' with
  | nil => exact h
  | cons entry entries ih =>
    cases hargs with
    | nil => exact ih .nil (hset entry.slot (Value.free_zero entry.type).alike h)
    | cons hv hrest => exact ih hrest (hset entry.slot hv h)

theorem frames_enter (func : CompiledFunction) (hargs : τ.SameValues args args') :
    τ.Frames (.enter τ.inst func args) (.enter τ.inst' func args') where
  inst := rfl
  inst' := rfl
  func := rfl
  pc := rfl
  operands := .nil
  locals := by
    refine same_fillLocals _ hargs ?_
    exact forall₂_replicate _ (.i32 0)

theorem In.call (hs : τ.In s s') (hg : τ.SameFunc g g') (hargs : τ.SameValues args args')
    (h : Forall₂ τ.Waiting callers callers') (room : Nat) :
    τ.Steps (Machine.call s g args callers room) (Machine.call s' g' args' callers' room) := by
  obtain ⟨func, func', hfunc, hfunc', hown⟩ := hs.funcs g g' hg
  rw [Machine.call, Machine.call, hfunc, hfunc']
  cases hown with
  | wasm type index =>
    -- The function is one of the instance's own, so the call stays in it.
    dsimp only
    rw [hs.here, hs.there]
    cases room with
    | zero => exact hs.unwind _ h
    | succ room =>
      dsimp only
      rw [τ.module]
      cases τ.inst.module.functions[index]? with
      | none => exact hs.unwind _ h
      | some func => exact .next hs (.mk (frames_enter func hargs) h)

theorem In.callFrom (hs : τ.In s s') (hf : τ.Frames f f') (hg : τ.SameFunc g g')
    (h : Forall₂ τ.Waiting callers callers') (room : Nat) :
    τ.Steps (Machine.callFrom s f g callers room) (Machine.callFrom s' f' g' callers' room) := by
  obtain ⟨func, func', hfunc, hfunc', hown⟩ := hs.funcs g g' hg
  rw [Machine.callFrom, Machine.callFrom, hfunc, hfunc']
  cases hown with
  | wasm type index =>
    exact hs.call hg (rel_reverse (forall₂_take _ hf.operands))
      (.cons (.frame (hf.withOperands (forall₂_drop _ hf.operands))) h) room

theorem Frames.result (h : τ.Frames f f') : τ.SameValues f.result f'.result := by
  rw [Frame.result, Frame.result, h.func]
  cases f.func.type.results with
  | nil => exact .nil
  | cons => exact forall₂_take 1 h.operands

namespace Machines

variable {m m' : Machine}

theorem step (hs : τ.In s s') (hm : τ.Machines m m') :
    τ.Steps (Machine.step s m) (Machine.step s' m') := by
  cases hm with
  | @mk f f' callers callers' room hf hcallers =>
    have hends := hf.step s s' hs
    rw [Machine.step, Machine.step]
    generalize f.step s = r at hends
    generalize f'.step s' = r' at hends
    cases hends with
    | error he hs => exact he ▸ hs.unwind _ hcallers
    | ok heffect hs =>
      cases heffect with
      | next hf => exact .next hs (.mk hf hcallers)
      | call hg hf => exact hs.callFrom hf hg hcallers room
      | leave hf => exact hs.deliver hf.result hcallers (room + 1)

theorem step_touched (hm : τ.Machines m m') : s.TouchedBy τ.inst (Machine.step s m).store := by
  cases hm with
  | @mk f _ callers _ room hf _ =>
    -- A frame is in control, and it is one of the instance.
    have halters := Machine.step_alters s ⟨.frame f, callers, room⟩
    generalize (Machine.step s ⟨.frame f, callers, room⟩).store = s1 at halters
    cases halters with
    | none => exact .refl
    | frame h =>
      obtain ⟨op, -, hby⟩ := h
      exact .single ⟨op, hf.inst ▸ hby⟩

theorem run (fuel : Nat) (hs : τ.In s s') (hm : τ.Machines m m') :
    τ.Ended s (Machine.run fuel s m) (Machine.run fuel s' m') := by
  -- on the fuel: the machines and the stores are others after each step, and related again
  induction fuel generalizing s s' m m' with
  | zero => exact ⟨.outOfFuel, hs, .refl⟩
  | succ fuel ih =>
    have hstep := hm.step hs
    have htouched : s.TouchedBy τ.inst (Machine.step s m).store := hm.step_touched
    rw [Machine.run, Machine.run]
    generalize Machine.step s m = r at hstep htouched
    generalize Machine.step s' m' = r' at hstep
    cases hstep with
    | done hs ho => exact ⟨ho, hs, htouched⟩
    | next hs hm =>
      have hend := ih hs hm
      exact { hend with touched := htouched.trans hend.touched }

end Machines

/-! ## Calls from outside -/

theorem same_unpackResults (arity : Nat) (h : τ.SameValues vs vs') :
    τ.SameValues (unpackResults arity vs) (unpackResults arity vs') := by
  by_cases ha : arity ≤ 1
  · simp only [unpackResults, if_pos ha]
    exact h
  · simp only [unpackResults, if_neg ha]
    cases h with
    | nil => exact .nil
    | cons hv hrest =>
      cases hv with
      | bundle hfields => exact hfields
      | _ => exact hrest

theorem In.runFunc (fuel : Nat) (hs : τ.In s s') (hg : τ.SameFunc g g')
    (hargs : τ.SameValues args args') (depth : Nat) :
    τ.Ended s (s.runFunc fuel g args depth) (s'.runFunc fuel g' args' depth) := by
  have hcall := hs.call hg hargs .nil depth
  -- what is changed since `s` is what the run changes: the call has only set up a frame
  have hstore : (Machine.call s g args [] depth).store = s := Machine.store_call s g args [] depth
  rw [Store.runFunc, Store.runFunc, hs.funcType? hg]
  generalize Machine.call s g args [] depth = r at hcall hstore
  generalize Machine.call s' g' args' [] depth = r' at hcall
  cases hcall with
  | @done t _ _ _ ht ho =>
    obtain rfl : t = s := hstore
    exact ⟨ho, ht, .refl⟩
  | @next t t' m m' ht hm =>
    obtain rfl : t = s := hstore
    have hend := Machines.run fuel ht hm
    dsimp only
    generalize Machine.run fuel t m = r at hend
    generalize Machine.run fuel t' m' = r' at hend
    obtain ⟨o, t1⟩ := r
    obtain ⟨o', t1'⟩ := r'
    obtain ⟨ho, ht1, htouched⟩ := hend
    cases ho with
    | results h => exact ⟨.results (same_unpackResults _ h), ht1, htouched⟩
    | trap trap => exact ⟨.trap trap, ht1, htouched⟩
    | outOfFuel => exact ⟨.outOfFuel, ht1, htouched⟩

theorem In.callDepth (hs : τ.In s s') (hg : τ.SameFunc g g') : s'.callDepth g' = s.callDepth g := by
  obtain ⟨func, func', hfunc, hfunc', hown⟩ := hs.funcs g g' hg
  rw [Store.callDepth, Store.callDepth, hfunc, hfunc']
  cases hown with
  | wasm type index =>
    dsimp only
    rw [hs.here, hs.there]
    exact τ.limit

theorem In.invoke (fuel : Nat) (hs : τ.In s s') (hg : τ.SameFunc g g')
    (hargs : τ.SameValues args args') :
    τ.Ended s (s.invoke fuel g args) (s'.invoke fuel g' args') := by
  rw [Store.invoke, Store.invoke, hs.callDepth hg]
  exact hs.runFunc fuel hg hargs _

end Twins

/-! ## What an instance leaves alone -/

/-- Its objects are the same in both stores. -/
structure Instance.SameIn (inst : Instance) (s s' : Store) : Prop where
  funcs : ∀ addr ∈ inst.funcs, s'.funcs[addr.index]? = s.funcs[addr.index]?
  tables : ∀ addr ∈ inst.tables, s'.tables[addr.index]? = s.tables[addr.index]?
  memories : ∀ addr ∈ inst.memories, s'.memories[addr.index]? = s.memories[addr.index]?
  globals : ∀ ref addr, inst.global? ref = some addr →
    s'.globals[addr.index]? = s.globals[addr.index]?
  elems : ∀ addr ∈ inst.elems, s'.elems[addr.index]? = s.elems[addr.index]?
  data : ∀ addr ∈ inst.data, s'.data[addr.index]? = s.data[addr.index]?

/-- Instances with no mutable object in common. -/
structure Instance.Disjoint (inst other : Instance) : Prop where
  tables : ∀ addr ∈ inst.tables, addr ∉ other.tables
  memories : ∀ addr ∈ inst.memories, addr ∉ other.memories
  globals : ∀ ref addr, inst.global? ref = some addr → ∀ ref', other.global? ref' ≠ some addr
  elems : ∀ addr ∈ inst.elems, addr ∉ other.elems
  data : ∀ addr ∈ inst.data, addr ∉ other.data

namespace Instance

variable {inst other : Instance} {s s' s'' : Store}

theorem SameIn.refl (s : Store) : inst.SameIn s s :=
  ⟨fun _ _ => rfl, fun _ _ => rfl, fun _ _ => rfl, fun _ _ _ => rfl, fun _ _ => rfl, fun _ _ => rfl⟩

theorem SameIn.trans (h : inst.SameIn s s') (h' : inst.SameIn s' s'') : inst.SameIn s s'' where
  funcs addr ha := (h'.funcs addr ha).trans (h.funcs addr ha)
  tables addr ha := (h'.tables addr ha).trans (h.tables addr ha)
  memories addr ha := (h'.memories addr ha).trans (h.memories addr ha)
  globals ref addr ha := (h'.globals ref addr ha).trans (h.globals ref addr ha)
  elems addr ha := (h'.elems addr ha).trans (h.elems addr ha)
  data addr ha := (h'.data addr ha).trans (h.data addr ha)

theorem Disjoint.symm (h : inst.Disjoint other) : other.Disjoint inst where
  tables addr ha ha' := h.tables addr ha' ha
  memories addr ha ha' := h.memories addr ha' ha
  globals ref addr ha ref' ha' := h.globals ref' addr ha' ref ha
  elems addr ha ha' := h.elems addr ha' ha
  data addr ha ha' := h.data addr ha' ha

theorem Disjoint.sameIn_of_change (h : inst.Disjoint other) {op : Op Nat}
    (hby : s.ChangeBy other op s') : inst.SameIn s s' where
  funcs _ _ := by rw [hby.funcs_eq]
  tables addr ha := hby.tables_eq fun _ hi => h.tables addr ha (Array.mem_of_getElem? hi)
  memories addr ha := hby.memories_eq fun _ hi => h.memories addr ha (Array.mem_of_getElem? hi)
  globals ref addr ha := hby.globals_eq (h.globals ref addr ha)
  elems addr ha := hby.elems_eq fun _ _ hi => h.elems addr ha (Array.mem_of_getElem? hi)
  data addr ha := hby.data_eq fun _ _ hi => h.data addr ha (Array.mem_of_getElem? hi)

theorem Disjoint.sameIn (h : inst.Disjoint other) (ht : s.TouchedBy other s') :
    inst.SameIn s s' := by
  induction ht with
  | refl => exact .refl s
  | tail _ hlast ih =>
    obtain ⟨op, hby⟩ := hlast
    exact ih.trans (h.sameIn_of_change hby)

end Instance

namespace Twins

variable {τ : Twins} {s s' t : Store}

theorem In.of_sameIn (h : τ.In s s') (hsame : τ.inst.SameIn s t)
    (hinst : t.instance? τ.home = some τ.inst) : τ.In t s' where
  here := hinst
  there := h.there
  funcs := h.funcs.congr hsame.funcs
  tables := h.tables.congr hsame.tables
  memories := h.memories.congr hsame.memories
  globals := h.globals.congr fun addr ha => by
    obtain ⟨i, hi⟩ := Array.mem_iff_getElem?.mp ha
    exact hsame.globals (.defined i) addr hi
  elems := h.elems.congr hsame.elems
  data := h.data.congr hsame.data

theorem In.sameIn (h : τ.In s s') (hinst : τ.inst' = τ.inst) (hhome : τ.home' = τ.home) :
    τ.inst.SameIn s s' := by
  have hfunc := τ.eq_of_sameFunc hinst
  have hglobal : ∀ g g', τ.SameGlobal g g' → g = g' := by
    rintro ⟨type, value, owner⟩ ⟨type', value', owner'⟩ ⟨htype, hvalue, howner, howner'⟩
    cases htype
    cases hvalue.eq hfunc
    rw [show owner = some τ.home from howner, show owner' = some τ.home' from howner', hhome]
  have hown : ∀ g g', τ.Own g g' → g = g' := by
    rintro _ _ ⟨type, index⟩
    rw [hhome]
  have hdefined := h.globals.eq_of_same (congrArg Instance.definedGlobals hinst) hglobal
  exact
    { funcs := h.funcs.eq_of_same (congrArg Instance.funcs hinst) hown
      tables := h.tables.eq_of_same (congrArg Instance.tables hinst) fun _ _ ht => ht.eq hfunc
      memories := h.memories.eq_of_same (congrArg Instance.memories hinst) fun _ _ hm => hm
      globals := fun ref addr ha => by
        cases ref with
        | imported i =>
          rw [Instance.global?, τ.imported] at ha
          cases ha
        | defined i => exact hdefined addr (Array.mem_of_getElem? ha)
      elems := h.elems.eq_of_same (congrArg Instance.elems hinst) fun _ _ he =>
        Array.toList_inj.mp (EntriesAlike.eq hfunc he)
      data := h.data.eq_of_same (congrArg Instance.data hinst) fun _ _ hd => hd }

end Twins

end Wasm
