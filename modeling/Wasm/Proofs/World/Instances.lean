import Wasm.Proofs.World.Basic

/-! # The instances of a world

New ones come by instantiation alone, and a segment belongs to one of them. -/

namespace Wasm

variable {s s1 s2 : Store} {inst other : Instance} {m : Module} {bindings : List Binding}
  {limit i : Nat} {home : InstanceAddr} {makes : GlobalInst → Prop} {w w' : World}

/-! ## Whose code runs -/

def Waiting (inst : Instance) (callers : List Activation) : Prop :=
  ∃ f, Activation.frame f ∈ callers ∧ f.inst = inst

def Machine.Runs (mc : Machine) (inst : Instance) : Prop :=
  (∃ f, mc.control = .frame f ∧ f.inst = inst) ∨ Waiting inst mc.callers

namespace Machine

variable {callers : List Activation} {mc mc' : Machine}

theorem waiting_cons {caller : Activation} (h : Waiting inst callers) :
    Waiting inst (caller :: callers) := by
  obtain ⟨f, hf, hinst⟩ := h
  exact ⟨f, .tail _ hf, hinst⟩

variable {type : FuncType} {program : HostProgram} {room : Nat}

theorem runs_host (h : Runs ⟨.host type program, callers, room⟩ inst) : Waiting inst callers := by
  rcases h with ⟨f, hf, -⟩ | h
  · cases hf
  · exact h

theorem runs_unwind {t : Trap} (hmc : (unwind s t callers).machine? = some mc)
    (h : mc.Runs inst) : Waiting inst callers := by
  induction callers with
  | nil => cases hmc
  | cons caller callers ih =>
    cases caller with
    | frame f => exact waiting_cons (ih hmc)
    | host type arity room resume =>
      cases hmc
      exact waiting_cons (runs_host h)

theorem runs_deliver {yielded : List Value}
    (hmc : (deliver s yielded callers room).machine? = some mc) (h : mc.Runs inst) :
    Waiting inst callers := by
  cases callers with
  | nil => cases hmc
  | cons caller callers =>
    cases caller with
    | frame f =>
      cases hmc
      rcases h with ⟨g, hg, hinst⟩ | h
      · cases hg
        exact ⟨f, .head _, hinst⟩
      · exact waiting_cons h
    | host type arity outer resume =>
      cases hmc
      exact waiting_cons (runs_host h)

theorem runs_call {func : FuncAddr} {args : List Value}
    (hmc : (call s func args callers room).machine? = some mc) (h : mc.Runs inst) :
    Waiting inst callers ∨ ∃ home, s.instance? home = some inst := by
  rw [call] at hmc
  split at hmc
  · cases hmc
    exact .inl (runs_host h)
  · next home index hfunc =>
      split at hmc
      · exact .inl (runs_unwind hmc h)
      · next inst' hinst' =>
          split at hmc
          · exact .inl (runs_unwind hmc h)
          · split at hmc
            · cases hmc
              rcases h with ⟨g, hg, hinst⟩ | h
              · cases hg
                exact .inr ⟨home, hinst ▸ hinst'⟩
              · exact .inl h
            · exact .inl (runs_unwind hmc h)
  · exact .inl (runs_unwind hmc h)

theorem runs_hostStep (hmc : (hostStep s type program callers room).machine? = some mc)
    (h : mc.Runs inst) : Waiting inst callers ∨ ∃ home, s.instance? home = some inst := by
  cases program with
  | answer values =>
    rw [hostStep] at hmc
    split at hmc
    · exact .inl (runs_deliver hmc h)
    · exact .inl (runs_unwind hmc h)
  | trap t => exact .inl (runs_unwind hmc h)
  | report event next | inspect resume | change c next =>
    cases hmc
    exact .inl (runs_host h)
  | invoke func args resume =>
    rw [hostStep] at hmc
    split at hmc
    · exact .inl (runs_unwind hmc h)
    · split at hmc
      · cases hmc
        exact .inl (runs_host h)
      · rcases runs_call hmc h with ⟨f, hf, hinst⟩ | hstore
        · -- the host function that waits now is no frame
          rcases List.mem_cons.mp hf with heq | hf
          · cases heq
          · exact .inl ⟨f, hf, hinst⟩
        · exact .inr hstore

theorem runs_step (hmc : (step s mc).machine? = some mc') (h : mc'.Runs inst) :
    mc.Runs inst ∨ ∃ home, s.instance? home = some inst := by
  obtain ⟨control, callers, room⟩ := mc
  cases control with
  | host type program => exact (runs_hostStep hmc h).imp_left .inr
  | frame f =>
    rw [step] at hmc
    cases hs : f.step s with
    | error t s' =>
      rw [hs] at hmc
      exact .inl (.inr (runs_unwind hmc h))
    | ok effect s' =>
      have hinst := (f.step_acts.continues hs).inst
      rw [hs] at hmc
      cases effect with
      | leave f' => exact .inl (.inr (runs_deliver hmc h))
      | next f' =>
        cases hmc
        rcases h with ⟨g, hg, hg'⟩ | h
        · cases hg
          exact .inl (.inl ⟨f, rfl, hinst.symm.trans hg'⟩)
        · exact .inl (.inr h)
      | call func f' =>
        cases f.step_acts.call hs
        rcases runs_call hmc h with ⟨g, hg, hg'⟩ | hstore
        · rcases List.mem_cons.mp hg with heq | hg
          · cases heq
            exact .inl (.inl ⟨f, rfl, hinst.symm.trans hg'⟩)
          · exact .inl (.inr ⟨g, hg, hg'⟩)
        · exact .inr hstore

end Machine

/-! ## New instances -/

namespace Store

variable {addr : InstanceAddr}

theorem instance?_of_allocate (ha : s.allocate m bindings limit = .ok (inst, home, s1))
    (h : s1.instance? addr = some other) : s.instance? addr = some other ∨ other = inst := by
  obtain ⟨r, tables, memories, -, -, -, hresult⟩ := allocate_eq_addInstance ha
  rw [addInstance_eq] at hresult
  cases hresult
  rw [instance?_of_push rfl] at h
  split at h
  · exact .inr (Option.some.inj h).symm
  · exact .inl h

theorem instance?_of_release (h : (s.release home).instance? addr = some other) :
    s.instance? addr = some other := by
  rw [release_eq_forget] at h
  exact instance?_of_forget h

theorem Act.instance? {strict : Prop} (h : s.Act strict makes s2)
    (hi : s2.instance? addr = some inst) : s.instance? addr = some inst ∨
      ∃ m bindings limit home s1,
        s.allocate m bindings limit = .ok (inst, home, s1) ∧ s1.Develops s2 := by
  cases h with
  | addFunc | addMemory | addTable | addGlobal | clearTrace | setGlobal => exact .inl hi
  | forget => exact .inl (instance?_of_forget hi)
  | onMemory _ hx => exact .inl ((keeps_onMemory _ _).ok hx |>.instance? addr ▸ hi)
  | onTable _ hx => exact .inl ((keeps_onTable _ _).ok hx |>.instance? addr ▸ hi)
  | @place _ _ m bindings limit inst' home s1 _ _ ha hs =>
    rw [(inst'.keeps_applySegments.ok hs).instance?] at hi
    rcases instance?_of_allocate ha hi with hi | rfl
    · exact .inl hi
    · exact .inr ⟨m, bindings, limit, home, s1, ha, (inst.works_applySegments.ok hs).develops⟩
  | @fail _ _ m bindings limit inst' home s1 s2 t _ _ ha hs =>
    have hi' := instance?_of_release hi
    rw [(inst'.keeps_applySegments.error hs).instance?] at hi'
    rcases instance?_of_allocate ha hi' with hi | rfl
    · exact .inl hi
    · exact .inr ⟨m, bindings, limit, home, s1, ha,
        (inst.works_applySegments.error hs).develops.trans (develops_release _ _)⟩

end Store

/-! ## The instances of a world -/

namespace World

variable {strict : Prop}

def Has (w : World) (inst : Instance) : Prop :=
  (∃ addr, w.store.instance? addr = some inst) ∨ ∃ mc, w.running = some mc ∧ mc.Runs inst

theorem Next.has (h : Next strict makes w w') (hi : w'.Has inst) : w.Has inst ∨
    ∃ m bindings limit home s1,
      w.store.allocate m bindings limit = .ok (inst, home, s1) ∧ s1.Develops w'.store := by
  cases h with
  | act hout ha =>
    rcases hi with ⟨addr, hi⟩ | hi
    · exact (ha.instance? hi).imp_left fun hi => .inl ⟨addr, hi⟩
    · exact .inl (.inr hi)
  | turn =>
    rcases hi with hi | ⟨mc, hmc, hi⟩
    · exact .inl (.inl hi)
    · cases hmc
      exact .inl (.inr ⟨_, rfl, .inr (Machine.runs_host hi)⟩)
  | call ht ha depth =>
    rcases hi with ⟨addr, hi⟩ | ⟨mc, hmc, hi⟩
    · rw [Machine.store_call] at hi
      exact .inl (.inl ⟨addr, hi⟩)
    · rcases Machine.runs_call hmc hi with ⟨f, hf, -⟩ | hi
      · cases hf
      · exact .inl (.inl hi)
  | step =>
    rcases hi with ⟨addr, hi⟩ | ⟨mc, hmc, hi⟩
    · rw [(Machine.step_agrees _ _).instance?] at hi
      exact .inl (.inl ⟨addr, hi⟩)
    · rcases Machine.runs_step hmc hi with hi | hi
      · exact .inl (.inr ⟨_, rfl, hi⟩)
      · exact .inl (.inl hi)

end World

/-! ## Segments belong to one instance -/

/-- A kind of segments: where instances list them. -/
structure SegmentKind (α : Type) where
  listed : Instance → Array α
  index : α → Nat
  count : Store → Nat
  grows : ∀ {s s' : Store}, s.Develops s' → count s ≤ count s'
  fresh : ∀ {s s1 : Store} {m : Module} {bindings : List Binding} {limit : Nat}
    {inst : Instance} {home : InstanceAddr},
    s.allocate m bindings limit = .ok (inst, home, s1) →
    ∀ (i : Nat) (addr : α), (listed inst)[i]? = some addr →
      index addr = count s + i ∧ index addr < count s1

namespace SegmentKind

theorem size_le_of_getElem? {α β : Type} {xs : Array α} {ys : Array β}
    (h : ∀ (i : Nat) (x : α), xs[i]? = some x → ∃ y, ys[i]? = some y) : xs.size ≤ ys.size := by
  by_contra hlt
  obtain ⟨y, hy⟩ := h ys.size _ (Array.getElem?_eq_getElem (by omega))
  exact absurd (Array.getElem?_eq_some_iff.mp hy).1 (by omega)

theorem index_of_freshAddrs {α : Type} {mk : Nat → α} (index : α → Nat)
    (hmk : ∀ n, index (mk n) = n) {start count : Nat} {addr : α}
    (h : (freshAddrs mk start count)[i]? = some addr) :
    index addr = start + i ∧ index addr < start + count := by
  obtain ⟨hi, rfl⟩ := of_getElem?_freshAddrs h
  rw [hmk]
  omega

def elements : SegmentKind ElemAddr where
  listed := Instance.elems
  index := ElemAddr.index
  count s := s.elems.size
  grows h := size_le_of_getElem? fun i entries hi =>
    (h.elems ⟨i⟩ entries hi).elim (fun hi => ⟨_, hi⟩) fun hi => ⟨_, hi⟩
  fresh h i addr ha := by
    obtain ⟨r, tables, memories, -, -, -, hresult⟩ := Store.allocate_eq_addInstance h
    rw [Store.addInstance_eq] at hresult
    cases hresult
    have hindex := index_of_freshAddrs ElemAddr.index (fun _ => rfl) ha
    simpa using hindex

def data : SegmentKind DataAddr where
  listed := Instance.data
  index := DataAddr.index
  count s := s.data.size
  grows h := size_le_of_getElem? fun i d hi =>
    (h.data ⟨i⟩ d hi).elim (fun hi => ⟨_, hi⟩) fun hi => ⟨_, hi⟩
  fresh h i addr ha := by
    obtain ⟨r, tables, memories, -, -, -, hresult⟩ := Store.allocate_eq_addInstance h
    rw [Store.addInstance_eq] at hresult
    cases hresult
    have hindex := index_of_freshAddrs DataAddr.index (fun _ => rfl) ha
    simpa using hindex

end SegmentKind

namespace World

variable {α : Type} {kind : SegmentKind α} {strict : Prop}

theorem Later.counted (h : Later makes initial w) (hi : w.Has inst) {addr : α}
    (ha : (kind.listed inst)[i]? = some addr) : kind.index addr < kind.count w.store := by
  induction h generalizing inst with
  | refl =>
    rcases hi with ⟨addr, hi⟩ | ⟨mc, hmc, -⟩
    · exact absurd hi (by simp [initial, Store.empty, Store.instance?])
    · cases hmc
  | tail _ hnext ih =>
    rcases hnext.has hi with hi | ⟨m, bindings, limit, home, s1, halloc, hdev⟩
    · exact Nat.lt_of_lt_of_le (ih hi ha) (kind.grows hnext.develops)
    · exact Nat.lt_of_lt_of_le (kind.fresh halloc i addr ha).2 (kind.grows hdev)

def Sole (kind : SegmentKind α) (w : World) (inst : Instance) : Prop :=
  ∀ (i : Nat) (addr : α), (kind.listed inst)[i]? = some addr →
    kind.index addr < kind.count w.store ∧
      ∀ (other : Instance) (j : Nat), w.Has other → (kind.listed other)[j]? = some addr →
        other = inst ∧ j = i

theorem sole_of_allocate (hw : Reachable makes w)
    (ha : w.store.allocate m bindings limit = .ok (inst, home, s1))
    (hs : inst.applySegments s1 = .ok () s2) : Sole kind ⟨s2, w.running⟩ inst := by
  intro i addr hi
  obtain ⟨hindex, hlt⟩ := kind.fresh ha i addr hi
  refine ⟨Nat.lt_of_lt_of_le hlt (kind.grows (inst.works_applySegments.ok hs).develops), ?_⟩
  intro other j hother hj
  have hor : w.Has other ∨ other = inst := by
    rcases hother with ⟨at', hat⟩ | hrun
    · rw [(inst.keeps_applySegments.ok hs).instance?] at hat
      exact (Store.instance?_of_allocate ha hat).imp_left fun hold => .inl ⟨at', hold⟩
    · exact .inl (.inr hrun)
  rcases hor with hold | rfl
  · have hold' : kind.index addr < kind.count w.store := Later.counted hw hold hj
    omega
  · exact ⟨rfl, by have := (kind.fresh ha j addr hj).1; omega⟩

theorem Next.sole (h : Next strict makes w w') (hs : Sole kind w inst) : Sole kind w' inst := by
  intro i addr hi
  obtain ⟨hlt, hsole⟩ := hs i addr hi
  refine ⟨Nat.lt_of_lt_of_le hlt (kind.grows h.develops), ?_⟩
  intro other j hother hj
  rcases h.has hother with hother | ⟨m, bindings, limit, home, s1, halloc, -⟩
  · exact hsole other j hother hj
  · -- a new instance has addresses behind those that are given away
    have := (kind.fresh halloc j addr hj).1
    omega

/-- **Segments stay with their instance.** -/
theorem Later.sole (h : Later makes w w') (hs : Sole kind w inst) : Sole kind w' inst := by
  induction h with
  | refl => exact hs
  | tail _ hnext ih => exact hnext.sole ih

end World

end Wasm
