import Wasm.Proofs.Store.Linking

/-! # Worlds

`World.Next` is what can happen at once, `World.Later` any number of these. -/

namespace Wasm

open Relation (ReflTransGen)

variable {s s' : Store} {inst : Instance} {makes : GlobalInst → Prop} {w w' : World}
  {mc : Machine} {fuel : Nat} {outcome : Outcome}

/-! ## What the host does -/

/-- The operations by which a host changes a memory. -/
inductive Memory.Operation : {α : Type} → MemoryM α → Prop
  | grow (delta : Nat) : Operation (grow delta)
  | write (addr : Nat) (bytes : List UInt8) : Operation (write addr bytes)
  | store (addr len value : Nat) : Operation (store addr len value)
  | fill (dst : Nat) (b : UInt8) (len : Nat) : Operation (fill dst b len)
  | copy (dst src len : Nat) : Operation (copy dst src len)
  | copyFrom (source : Memory) (dst src len : Nat) : Operation (copyFrom source dst src len)
  | init (dst : Nat) (data : ByteArray) (src len : Nat) : Operation (init dst data src len)
  | poke (addr : Nat) (b : UInt8) : Operation (poke addr b)

theorem Memory.settles_poke (addr : Nat) (b : UInt8) : Settles Changes (poke addr b) := by
  intro m
  unfold poke
  by_cases hb : m.inBounds addr 1
  · simp only [if_pos hb]
    have hrange : addr + [b].length ≤ m.byteLength := of_decide_eq_true hb
    exact .overwrite hrange
  · simp only [if_neg hb]
    exact .none

theorem Memory.Operation.settles {α : Type} {op : MemoryM α} (h : Operation op) :
    Settles Changes op := by
  cases h with
  | grow => exact settles_grow _
  | write => exact settles_write _ _
  | store => exact settles_store _ _ _
  | fill => exact settles_fill _ _ _
  | copy => exact settles_copy _ _ _
  | copyFrom => exact settles_copyFrom _ _ _ _
  | init => exact settles_init _ _ _ _
  | poke => exact settles_poke _ _

/-- The operations by which a host changes a table. -/
inductive Table.Operation (P : Option Ref → Prop) : {α : Type} → TableM Ref α → Prop
  | set (index : Nat) {entry : Option Ref} (h : P entry) : Operation P (set index entry)
  | grow (delta : Nat) {entry : Option Ref} (h : P entry) : Operation P (grow delta entry)
  | fill (dst : Nat) {entry : Option Ref} (h : P entry) (len : Nat) :
      Operation P (fill dst entry len)
  | copy (dst src len : Nat) : Operation P (copy dst src len)
  | copyFrom {source : Table Ref} (h : ∀ entry ∈ source.entries, P entry) (dst src len : Nat) :
      Operation P (copyFrom source dst src len)
  | init (dst : Nat) {segment : Array (Option Ref)} (h : ∀ entry ∈ segment, P entry)
      (src len : Nat) : Operation P (init dst segment src len)

theorem Table.Operation.settles {P : Option Ref → Prop} {α : Type} {op : TableM Ref α}
    (h : Operation P op) : Settles Changes op := by
  cases h with
  | set => exact settles_set _ _
  | grow => exact settles_grow _ _
  | fill => exact settles_fill _ _ _
  | copy => exact settles_copy _ _ _
  | copyFrom => exact settles_copyFrom _ _ _ _
  | init => exact settles_init _ _ _ _

namespace Store

/-- The store without the instances that are not kept. -/
def forget (keep : InstanceAddr → Bool) (s : Store) : Store :=
  { s with instances := s.instances.mapIdx fun i inst => if keep ⟨i⟩ then inst else none }

theorem instance?_of_forget {keep : InstanceAddr → Bool} {addr : InstanceAddr}
    (h : (s.forget keep).instance? addr = some inst) : s.instance? addr = some inst := by
  rw [instance?, forget, Array.getElem?_mapIdx] at h
  rw [instance?]
  cases hi : s.instances[addr.index]? with
  | none =>
    rw [hi] at h
    cases h
  | some i =>
    rw [hi, Option.map_some] at h
    split at h
    · exact h
    · cases h

theorem release_eq_forget (s : Store) (addr : InstanceAddr) :
    s.release addr = s.forget fun a => a != addr := by
  rw [release, forget]
  congr 1
  refine Array.ext (by simp) fun i hi hi' => ?_
  rw [Array.getElem_setIfInBounds (by simpa using hi'), Array.getElem_mapIdx]
  by_cases heq : addr.index = i
  · subst heq
    simp
  · have hne : (⟨i⟩ : InstanceAddr) ≠ addr := fun h => heq (congrArg InstanceAddr.index h).symm
    rw [if_neg heq, if_pos (bne_iff_ne.mpr hne)]

/-- If `strict`, an entry is of the table's type. -/
def Allows (strict : Prop) (s : Store) (addr : TableAddr) (entry : Option Ref) : Prop :=
  strict → ∀ element, s.element? addr = some element → Ref.Of element entry

/-- What the host does to a store: it makes objects, globals as `makes` allows, changes memories and
    tables, writes mutable globals, takes the trace, lets go of instances, and instantiates
    accepted modules as far as their segments, which may fail.  A `strict` host puts in tables what
    is of their types, and keeps its instances. -/
inductive Act (strict : Prop) (makes : GlobalInst → Prop) (s : Store) : Store → Prop
  | addFunc (type : FuncType) (body : List Value → HostProgram) :
      Act strict makes s (s.addFunc (.host type body)).2
  | addMemory {limits : Limits} {memory : Memory} (cap : Nat)
      (h : Memory.create limits.min limits.max = .ok memory) :
      Act strict makes s (s.addMemory (memory.withPageCap cap)).2
  | addTable {type : TableType} {table : Table Ref}
      (h : Table.create type.limits.min type.limits.max = .ok table) :
      Act strict makes s (s.addTable ⟨type.element, table⟩).2
  | addGlobal {type : GlobalType} {value : Value} (h : makes ⟨type, value, none⟩) :
      Act strict makes s (s.addGlobal ⟨type, value, none⟩).2
  | onMemory {α : Type} {addr : MemoryAddr} {op : MemoryM α} {a : α} {s' : Store}
      (hop : Memory.Operation op) (h : Store.onMemory addr op s = .ok a s') : Act strict makes s s'
  | onTable {α : Type} {addr : TableAddr} {op : TableM Ref α} {a : α} {s' : Store}
      (hop : Table.Operation (s.Allows strict addr) op) (h : Store.onTable addr op s = .ok a s') :
        Act strict makes s s'
  | setGlobal {addr : GlobalAddr} {g : GlobalInst} {value : Value}
      (hg : s.globals[addr.index]? = some g) (hm : g.type.mutable = true)
      (hv : value.type? = some g.type.content) : Act strict makes s (s.setGlobal addr value)
  | clearTrace : Act strict makes s s.clearTrace
  | forget (hstrict : ¬ strict) (keep : InstanceAddr → Bool) : Act strict makes s (s.forget keep)
  | place {options : CompileOptions} {binary : ByteArray} {m : Module} {bindings : List Binding}
      {limit : Nat} {inst : Instance} {home : InstanceAddr} {s1 s2 : Store}
      (hm : Module.compile options binary = .ok m)
      (ha : s.allocate m bindings limit = .ok (inst, home, s1))
      (hs : inst.applySegments s1 = .ok () s2) : Act strict makes s s2
  | fail {options : CompileOptions} {binary : ByteArray} {m : Module} {bindings : List Binding}
      {limit : Nat} {inst : Instance} {home : InstanceAddr} {s1 s2 : Store} {t : Trap}
      (hstrict : ¬ strict) (hm : Module.compile options binary = .ok m)
      (ha : s.allocate m bindings limit = .ok (inst, home, s1))
      (hs : inst.applySegments s1 = .error t s2) : Act strict makes s (s2.release home)

theorem develops_release (s : Store) (addr : InstanceAddr) : s.Develops (s.release addr) :=
  { Develops.refl s with }

theorem Act.develops {strict : Prop} (h : s.Act strict makes s') : s.Develops s' := by
  have hnone : ∀ {α : Type} (xs : Array α), xs = xs ++ #[] := fun xs => Array.append_empty.symm
  have hone : ∀ {α : Type} (xs : Array α) (x : α), xs.push x = xs ++ #[x] :=
    fun xs x => Array.push_eq_append
  cases h with
  | addFunc | clearTrace | forget => exact { Develops.refl s with }
  | addMemory => exact .of_append (hnone _) (hone _ _) (hnone _) (hnone _) (hnone _)
  | addTable => exact .of_append (hone _ _) (hnone _) (hnone _) (hnone _) (hnone _)
  | addGlobal => exact .of_append (hnone _) (hnone _) (hone _ _) (hnone _) (hnone _)
  | onMemory hop hx => exact ((settles_onMemory hop.settles Change.memory).ok hx).develops
  | onTable hop hx => exact ((settles_onTable hop.settles Change.table).ok hx).develops
  | setGlobal => exact Change.global.develops
  | place _ ha hs =>
    exact (develops_allocate ha).trans (Instance.works_applySegments _ |>.ok hs).develops
  | fail _ _ ha hs =>
    -- what the segments wrote before one did not fit stays written
    have hwritten := (Instance.works_applySegments _ |>.error hs).develops
    exact ((develops_allocate ha).trans hwritten).trans (develops_release _ _)

def Permits (strict : Prop) (s : Store) : HostChange → Prop
  | .setEntry addr _ entry | .growTable addr _ entry => s.Allows strict addr entry
  | _ => True

theorem permits_of_not {strict : Prop} (h : ¬ strict) (s : Store) (c : HostChange) :
    s.Permits strict c := by
  cases c with
  | setEntry | growTable => exact fun hs => absurd hs h
  | _ => trivial

theorem act_amend {strict : Prop} {c : HostChange} (h : s.Permits strict c) :
    s.amend c = s ∨ s.Act strict makes (s.amend c) := by
  have hattempt : ∀ {α : Type} {op : StoreM α}, (∀ a s', op s = .ok a s' → s.Act strict makes s') →
      attempt op s = s ∨ s.Act strict makes (attempt op s) := by
    intro α op hop
    rw [attempt]
    split
    · next a s' hx => exact .inr (hop a s' hx)
    · exact .inl rfl
  cases c with
  | writeMemory addr start bytes => exact hattempt fun a s' hx => .onMemory (.write _ _) hx
  | growMemory addr delta => exact hattempt fun a s' hx => .onMemory (.grow _) hx
  | setEntry addr index entry => exact hattempt fun a s' hx => .onTable (.set _ h) hx
  | growTable addr delta entry => exact hattempt fun a s' hx => .onTable (.grow _ h) hx
  | setGlobal addr value =>
    rw [amend]
    split
    · next g hg =>
        split
        · next hallowed => exact .inr (.setGlobal hg hallowed.1 hallowed.2)
        · exact .inl rfl
    · exact .inl rfl

end Store

/-! ## What happens -/

/-- The change that a host function is about to make. -/
def Machine.change? : Machine → Option HostChange
  | ⟨.host _ (.change c _), _, _⟩ => some c
  | _ => none

/-- A store, and the machine that runs on it if one does. -/
structure World where
  store : Store
  running : Option Machine

namespace World

variable {strict : Prop}

/-- Nothing is there and nothing runs. -/
def initial : World := ⟨.empty, none⟩

/-- What happens to a world at once.  The host acts where no frame is in control; a host function
    may go on in another way than it began, and the changes that it makes are acts of the host
    (`steps`).  Functions are called with arguments of their types. -/
inductive Next (strict : Prop) (makes : GlobalInst → Prop) : World → World → Prop
  | act {s s' : Store} {running : Option Machine} (hout : Outside running)
    (h : s.Act strict makes s') : Next strict makes ⟨s, running⟩ ⟨s', running⟩
  | turn {s : Store} {type : FuncType} {program program' : HostProgram} {callers : List Activation}
      {room : Nat} : Next strict makes ⟨s, some ⟨.host type program, callers, room⟩⟩
        ⟨s, some ⟨.host type program', callers, room⟩⟩
  | call {s : Store} {func : FuncAddr} {type : FuncType} {args : List Value}
      (ht : s.funcType? func = some type) (ha : argumentError? type.params args = none)
      (depth : Nat) :
      Next strict makes ⟨s, none⟩
        ⟨(Machine.call s func args [] depth).store, (Machine.call s func args [] depth).machine?⟩
  | step {s : Store} {mc : Machine} (hmc : mc.change? = none) :
      Next strict makes ⟨s, some mc⟩ ⟨(mc.step s).store, (mc.step s).machine?⟩

/-- What may have become of a world. -/
abbrev Later (makes : GlobalInst → Prop) : World → World → Prop := ReflTransGen (Next False makes)

/-- What may have become of nothing. -/
def Reachable (makes : GlobalInst → Prop) (w : World) : Prop := Later makes initial w

theorem Next.develops (h : Next strict makes w w') : w.store.Develops w'.store := by
  cases h with
  | act _ ha => exact ha.develops
  | turn => exact .refl _
  | @call s func type args _ _ depth =>
    rw [Machine.store_call]
    exact .refl s
  | @step s mc _ => exact mc.step_develops s

/-- **Objects develop, whatever happens.** -/
theorem Later.develops (h : Later makes w w') : w.store.Develops w'.store := by
  induction h with
  | refl => exact .refl _
  | tail _ hnext ih => exact ih.trans hnext.develops

/-! ## Runs -/

theorem steps (h : ∀ c, mc.change? = some c → s.Permits strict c) :
    ReflTransGen (Next strict makes) ⟨s, some mc⟩ ⟨(mc.step s).store, (mc.step s).machine?⟩ := by
  cases hc : mc.change? with
  | none => exact .single (.step hc)
  | some c =>
    obtain ⟨control, callers, room⟩ := mc
    cases control with
    | frame f => cases hc
    | host type program =>
      cases program with
      | change c' next =>
        have hturn : Next strict makes
          ⟨s.amend c', some ⟨.host type (.change c' next), callers, room⟩⟩
            ⟨s.amend c', some ⟨.host type next, callers, room⟩⟩ := .turn
        rcases @Store.act_amend s makes strict c' (h c' rfl) with heq | hact
        · rw [heq] at hturn
          have hstep : (Machine.step s ⟨.host type (.change c' next), callers, room⟩).store = s :=
            heq
          rw [hstep]
          exact .single hturn
        · exact .head (.act trivial hact) (.single hturn)
      | _ => cases hc

theorem later_step (s : Store) (mc : Machine) :
    Later makes ⟨s, some mc⟩ ⟨(mc.step s).store, (mc.step s).machine?⟩ :=
  steps fun c _ => Store.permits_of_not id s c

theorem later_run (h : Machine.run fuel s mc = (outcome, s')) (ho : outcome ≠ .outOfFuel) :
    Later makes ⟨s, some mc⟩ ⟨s', none⟩ := by
  induction fuel generalizing s mc with
  | zero =>
    cases h
    exact absurd rfl ho
  | succ fuel ih =>
    have hstep : Later makes ⟨s, some mc⟩ _ := later_step s mc
    rw [Machine.run] at h
    cases hr : mc.step s with
    | next s1 mc1 =>
      rw [hr] at h hstep
      exact hstep.trans (ih h)
    | done s1 o =>
      rw [hr] at h hstep
      cases h
      exact hstep

theorem later_invoke {func : FuncAddr} {type : FuncType} {args : List Value}
    (ht : s.funcType? func = some type) (ha : argumentError? type.params args = none)
    (h : s.invoke fuel func args = (outcome, s')) (ho : outcome ≠ .outOfFuel) :
    Later makes ⟨s, none⟩ ⟨s', none⟩ := by
  have hcall : Next False makes ⟨s, none⟩ _ := .call ht ha (s.callDepth func)
  rw [Store.invoke, Store.runFunc] at h
  cases hc : Machine.call s func args [] (s.callDepth func) with
  | done s1 o =>
    rw [hc] at h hcall
    cases h
    exact .single hcall
  | next s1 mc =>
    rw [hc] at h hcall
    dsimp only at h
    split at h
    · next yielded s2 hrun =>
        cases h
        exact .head hcall (later_run hrun (by simp))
    · exact .head hcall (later_run h ho)

section Instantiation

variable {options : CompileOptions} {binary : ByteArray} {m : Module} {bindings : List Binding}
  {limit : Nat} {home : InstanceAddr} {s1 s2 : Store}

theorem later_runStart (hm : Module.compile options binary = .ok m)
    (ha : s.allocate m bindings limit = .ok (inst, home, s1))
    (hs : inst.applySegments s1 = .ok () s2) (h : inst.runStart fuel s2 = (outcome, s'))
    (ho : outcome ≠ .outOfFuel) : Later makes ⟨s2, none⟩ ⟨s', none⟩ := by
  have hrealizes := Store.allocate_realizes hm ha
  have hagrees := inst.keeps_applySegments.ok hs
  rw [Instance.runStart] at h
  split at h
  · cases h
    exact .refl
  · next start hstart =>
      split at h
      · cases h
        exact .refl
      · next func hfunc =>
          rw [hrealizes.module] at hstart
          obtain ⟨type, htype, hfunctype, -⟩ := hrealizes.func start func hfunc
          cases htype.symm.trans ((Module.wellFormed_of_compile hm).start start hstart)
          rw [← hagrees.funcType?] at hfunctype
          exact later_invoke hfunctype rfl h ho

theorem exists_of_instantiate (makes : GlobalInst → Prop)
    (hm : Module.compile options binary = .ok m)
    (h : s.instantiate fuel m bindings limit = (.ok home, s')) :
    ∃ inst s1 s2, s.allocate m bindings limit = .ok (inst, home, s1) ∧
      inst.applySegments s1 = .ok () s2 ∧ Later makes ⟨s2, none⟩ ⟨s', none⟩ ∧
      s'.instance? home = some inst ∧ (m.start = none → s' = s2) := by
  obtain ⟨inst, s1, s2, values, ha, hs, hstart, hinst⟩ := Store.exists_of_instantiate h
  refine ⟨inst, s1, s2, ha, hs, later_runStart hm ha hs hstart (by simp), hinst, fun hnone => ?_⟩
  rw [Instance.runStart, (Store.allocate_realizes hm ha).module, hnone] at hstart
  cases hstart
  rfl

theorem later_instantiate (hm : Module.compile options binary = .ok m) {result : Instantiation}
    (h : s.instantiate fuel m bindings limit = (result, s')) (hr : result ≠ .outOfFuel) :
    Later makes ⟨s, none⟩ ⟨s', none⟩ := by
  cases result with
  | outOfFuel => exact absurd rfl hr
  | ok home =>
    obtain ⟨inst, s1, s2, ha, hs, hlater, -⟩ := exists_of_instantiate makes hm h
    exact .head (.act trivial (.place hm ha hs)) hlater
  | failed e =>
    rw [Store.instantiate] at h
    split at h
    · cases h
      exact .refl
    · next inst home s1 ha =>
        rw [Store.start] at h
        split at h
        · next t s2 hs =>
            cases h
            exact .single (.act trivial (.fail id hm ha hs))
        · next s2 hs =>
            split at h
            · cases h
            · next t s3 hstart =>
                -- the instance was there while the start function ran, and is let go of then
                cases h
                have hrun : Later makes ⟨s2, none⟩ ⟨s3, none⟩ :=
                  later_runStart hm ha hs hstart (by simp)
                refine .head (.act trivial (.place hm ha hs)) (hrun.tail (.act trivial ?_))
                rw [Store.release_eq_forget]
                exact .forget id _
            · cases h

end Instantiation

end World

end Wasm
