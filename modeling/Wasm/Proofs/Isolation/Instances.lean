import Wasm.Proofs.Isolation.Runs

/-! # New instances without imports

They are twins, and share no object with older ones (`Store.apart_of_allocate`). -/

namespace Wasm

open List Instance

variable {count : Nat} {home : InstanceAddr} {s t s' : Store} {tables : List TableInst}
  {τ : Twins}

/-! ## Fresh addresses -/

section Fresh

variable {α β : Type} {mk : Nat → α} {index : α → Nat}

theorem aligned_freshAddrs (index : α → Nat) (hindex : ∀ n, index (mk n) = n)
    (start start' count : Nat) :
    Aligned (freshAddrs mk start count) (freshAddrs mk start' count) := by
  have hinj : ∀ (start i j : Nat) (a : α), (freshAddrs mk start count)[i]? = some a →
      (freshAddrs mk start count)[j]? = some a → i = j := by
    intro start i j a hi hj
    have heq : index (mk (start + i)) = index (mk (start + j)) := by
      rw [← (of_getElem?_freshAddrs hi).2, ← (of_getElem?_freshAddrs hj).2]
    rw [hindex, hindex] at heq
    omega
  exact ⟨by rw [size_freshAddrs, size_freshAddrs], hinj start, hinj start'⟩

theorem matched_freshAddrs (hindex : ∀ n, index (mk n) = n) {R : β → β → Prop}
    {objs objs' : Array β} {news news' : List β} (h : Forall₂ R news news')
    (hcount : news.length = count) :
    Matched index R (freshAddrs mk objs.size count) (freshAddrs mk objs'.size count)
      (objs ++ news.toArray) (objs' ++ news'.toArray) := by
  rintro a a' ⟨i, hi, hi'⟩
  obtain ⟨hlt, rfl⟩ := of_getElem?_freshAddrs hi
  obtain ⟨-, rfl⟩ := of_getElem?_freshAddrs hi'
  rw [hindex, hindex, getElem?_append_add, getElem?_append_add]
  have hrel := rel_getElem? h i
  rw [getElem?_eq_getElem (hcount ▸ hlt)] at hrel ⊢
  generalize news'[i]? = o' at hrel
  cases hrel with
  | some hR => exact ⟨_, _, rfl, rfl, hR⟩

end Fresh

variable {bindings : List Binding} {inst : Instance} {m : Module} {limit : Nat} {α β : Type}

variable {γ : Type} {fuel : Nat}

theorem forall₂_map {R : β → γ → Prop} {f : α → β} {g : α → γ} (l : List α)
    (h : ∀ a ∈ l, R (f a) (g a)) : Forall₂ R (l.map f) (l.map g) := by
  rw [forall₂_map_left_iff, forall₂_map_right_iff]
  exact forall₂_same.mpr h

/-! ## Objects of a new instance -/

theorem ConstExpr.alike_eval (expr : ConstExpr) (s s' : Store) {funcs funcs' : Array FuncAddr}
    (h : Aligned funcs funcs') :
    (expr.eval s funcs #[]).Alike (Beside funcs funcs') (expr.eval s' funcs' #[]) := by
  cases expr with
  | i32 value => exact .i32 value
  | i64 value => exact .i64 value
  | f32 bits => exact .f32 bits
  | f64 bits => exact .f64 bits
  | refNull type => exact (Value.free_zero type).alike
  | refFunc func => exact .funcRef (h.getElem? func)
  | globalGet index => exact .i32 0

theorem Module.alike_newTables (h : m.newTables = .ok tables) (R : FuncAddr → FuncAddr → Prop) :
    Forall₂ (TableInst.Alike R) tables tables := by
  refine forall₂_same.mpr fun t ht => ⟨rfl, rfl, ?_⟩
  obtain ⟨i, hi⟩ := mem_iff_getElem?.mp ht
  have hrel := rel_getElem? (forall₂_of_mapM h) i
  rw [hi] at hrel
  generalize (m.spaces.tables.toList.drop m.spaces.importedTables)[i]? = type at hrel
  cases hrel with
  | some hnew =>
    obtain ⟨table, hcreate, hpure⟩ := except_bind_eq_ok.mp hnew
    cases hpure
    rw [Table.create] at hcreate
    split at hcreate
    · -- a new table has null references only
      cases hcreate
      exact forall₂_replicate _ .none
    · cases hcreate

namespace Module

variable (m : Module)

def instanceIn (s : Store) (tables : List TableInst) (memories : List Memory)
    (limit : Nat) : Instance where
  module := m
  maxCallDepth := limit
  funcs := freshAddrs FuncAddr.mk s.funcs.size m.functions.size
  tables := freshAddrs TableAddr.mk s.tables.size tables.length
  memories := freshAddrs MemoryAddr.mk s.memories.size memories.length
  importedGlobals := #[]
  definedGlobals := freshAddrs GlobalAddr.mk s.globals.size
    (m.globalInits.toList.zip (m.spaces.globals.toList.drop m.spaces.importedGlobals)).length
  elems := freshAddrs ElemAddr.mk s.elems.size m.elements.size
  data := freshAddrs DataAddr.mk s.data.size m.data.size

def storeWith (s : Store) (tables : List TableInst) (memories : List Memory)
    (limit : Nat) : Store :=
  let inst := m.instanceIn s tables memories limit
  { funcs := s.funcs ++ (m.newFuncs ⟨s.instances.size⟩).toArray
    tables := s.tables ++ tables.toArray
    memories := s.memories ++ memories.toArray
    globals := s.globals ++ (m.newGlobals s inst.funcs #[] ⟨s.instances.size⟩).toArray
    elems := s.elems ++ (m.elements.toList.map fun segment =>
      segment.items.map fun item => Ref.ofValue? (item.eval s inst.funcs #[])).toArray
    data := s.data ++ (m.data.toList.map fun segment => ⟨segment.bytes, false⟩).toArray
    instances := s.instances.push (some inst)
    trace := s.trace }

theorem addInstance_empty (s : Store) (tables : List TableInst) (memories : List Memory)
    (limit : Nat) :
    s.addInstance m .empty tables memories limit =
      (m.instanceIn s tables memories limit, ⟨s.instances.size⟩,
        m.storeWith s tables memories limit) := by
  rw [Store.addInstance_eq]
  simp only [Resolved.empty, Array.empty_append, newGlobals, length_map]
  rfl

def twins (s s' : Store) (tables : List TableInst) (memories : List Memory)
    (limit : Nat) : Twins where
  inst := m.instanceIn s tables memories limit
  inst' := m.instanceIn s' tables memories limit
  home := ⟨s.instances.size⟩
  home' := ⟨s'.instances.size⟩
  module := rfl
  limit := rfl
  imported := rfl
  imported' := rfl
  funcs := aligned_freshAddrs FuncAddr.index (fun _ => rfl) _ _ _
  tables := aligned_freshAddrs TableAddr.index (fun _ => rfl) _ _ _
  memories := aligned_freshAddrs MemoryAddr.index (fun _ => rfl) _ _ _
  globals := aligned_freshAddrs GlobalAddr.index (fun _ => rfl) _ _ _
  elems := aligned_freshAddrs ElemAddr.index (fun _ => rfl) _ _ _
  data := aligned_freshAddrs DataAddr.index (fun _ => rfl) _ _ _

theorem twins_in (ht : m.newTables = .ok tables) (s s' : Store) (memories : List Memory)
    (limit : Nat) :
    (m.twins s s' tables memories limit).In (m.storeWith s tables memories limit)
      (m.storeWith s' tables memories limit) := by
  -- With no globals to import, a constant expression does not read the store.
  have heval (expr : ConstExpr) :=
    expr.alike_eval s s' (m.twins s s' tables memories limit).funcs
  refine
    { here := ?_
      there := ?_
      funcs := matched_freshAddrs (fun _ => rfl) (forall₂_map _ fun index _ => .wasm _ index) ?_
      tables := matched_freshAddrs (fun _ => rfl) (alike_newTables ht _) rfl
      memories := matched_freshAddrs (fun _ => rfl) (forall₂_same.mpr fun _ _ => rfl) rfl
      globals := matched_freshAddrs (fun _ => rfl)
        (forall₂_map _ fun entry _ => ⟨rfl, heval entry.1, rfl, rfl⟩) (length_map _)
      elems := matched_freshAddrs (fun _ => rfl) (forall₂_map _ fun segment _ => ?_) ?_
      data := matched_freshAddrs (fun _ => rfl) (forall₂_same.mpr fun _ _ => rfl) ?_ }
  · rw [Store.instance?_of_push rfl]
    exact if_pos rfl
  · rw [Store.instance?_of_push rfl]
    exact if_pos rfl
  · exact m.length_newFuncs _
  · rw [Array.toList_map, Array.toList_map]
    exact forall₂_map _ fun item _ => (heval item).ofValue?
  · rw [length_map, Array.length_toList]
  · rw [length_map, Array.length_toList]

end Module

theorem Store.exists_of_allocate (hm : m.imports = #[])
    (h : s.allocate m bindings limit = .ok (inst, home, t)) :
    ∃ tables memories, m.newTables = .ok tables ∧ m.newMemories = .ok memories ∧
      inst = m.instanceIn s tables memories limit ∧ home = ⟨s.instances.size⟩ ∧
      t = m.storeWith s tables memories limit := by
  obtain ⟨r, tables, memories, hr, ht, hmem, hresult⟩ := allocate_eq_addInstance h
  rw [hm] at hr
  rw [hr.eq_empty, m.addInstance_empty] at hresult
  cases hresult
  exact ⟨tables, memories, ht, hmem, rfl, rfl, rfl⟩

theorem Store.allocate_of_new (s : Store) (hm : m.imports = #[]) (bindings : List Binding)
    (limit : Nat) {memories : List Memory} (ht : m.newTables = .ok tables)
    (hmem : m.newMemories = .ok memories) :
    s.allocate m bindings limit = .ok (m.instanceIn s tables memories limit, ⟨s.instances.size⟩,
        m.storeWith s tables memories limit) := by
  rw [allocate, hm, ht, hmem, ← m.addInstance_empty]
  rfl

/-! ## Segments and the start function -/

theorem forall₂_zip {Q : β → γ → Prop} (as : List α) {bs : List β} {cs : List γ}
    (h : Forall₂ Q bs cs) :
    Forall₂ (fun p q => p.1 = q.1 ∧ Q p.2 q.2) (as.zip bs) (as.zip cs) := by
  induction as generalizing bs cs with
  | nil => exact .nil
  | cons a as ih =>
    cases h with
    | nil => exact .nil
    | cons hq hrest => exact .cons ⟨rfl, hq⟩ (ih hrest)

theorem Aligned.forall₂ {xs xs' : Array α} (h : Aligned xs xs') :
    Forall₂ (Beside xs xs') xs.toList xs'.toList := by
  refine forall₂_iff_get.mpr ⟨h.size.symm, fun i hi hi' => ⟨i, ?_, ?_⟩⟩
  · exact Array.getElem?_eq_getElem hi
  · exact Array.getElem?_eq_getElem hi'

namespace Twins

theorem same_offset (s s' : Store) (expr : ConstExpr) :
    τ.inst'.offset s' expr = τ.inst.offset s expr := by
  rw [Instance.offset, Instance.offset, τ.imported, τ.imported',
    (expr.alike_eval s s' τ.funcs).asI32]

theorem lockstep_applyElement (segment : ElementSegment) {a a' : ElemAddr}
    (ha : Beside τ.inst.elems τ.inst'.elems a a') :
    Lockstep Eq τ.In (fun _ _ => True) (τ.inst.applyElement segment a)
      (τ.inst'.applyElement segment a') := by
  have hdrop : Lockstep Eq τ.In (fun _ _ => True) (modify (·.dropElem a) : StoreM PUnit)
      (modify (·.dropElem a')) := .changing fun _ _ hs => hs.dropElem ha
  rw [applyElement, applyElement]
  cases segment.mode with
  | passive => exact .pure trivial
  | declarative => exact hdrop
  | active table offset =>
    refine Lockstep.get.bind fun s s' hs => ?_
    obtain ⟨es, es', he, he', halike⟩ := hs.elems a a' ha
    have hsize : es'.size = es.size := halike.length_eq.symm
    rw [he, he', same_offset s s']
    dsimp only [Option.getD_some]
    rw [hsize]
    exact rel_cases (τ.tables.getElem? table) (.throw rfl) fun _ _ hb =>
      (Lockstep.onTable hb (Table.lockstep_init halike _ _ _)).bind fun _ _ _ => hdrop

theorem lockstep_applyData (segment : DataSegment) {a a' : DataAddr}
    (ha : Beside τ.inst.data τ.inst'.data a a') :
    Lockstep Eq τ.In (fun _ _ => True) (τ.inst.applyData segment a)
      (τ.inst'.applyData segment a') := by
  have hdrop : Lockstep Eq τ.In (fun _ _ => True) (modify (·.dropData a) : StoreM PUnit)
      (modify (·.dropData a')) := .changing fun _ _ hs => hs.dropData ha
  rw [applyData, applyData]
  cases segment.mode with
  | passive | declarative => exact .pure trivial
  | active memory offset =>
    dsimp only
    refine rel_cases (τ.memories.getElem? memory) (.throw rfl) fun _ _ hb =>
      Lockstep.get.bind fun s s' _ => ?_
    rw [same_offset s s']
    exact (Lockstep.onMemory hb _).bind fun _ _ _ => hdrop

theorem lockstep_applyAll {α β : Type} {Q : β → β → Prop} {apply apply' : α → β → StoreM Unit}
    (h : ∀ a b b', Q b b' → Lockstep Eq τ.In (fun _ _ => True) (apply a b) (apply' a b'))
    {pairs pairs' : List (α × β)}
    (hpairs : Forall₂ (fun p p' => p.1 = p'.1 ∧ Q p.2 p'.2) pairs pairs') :
    Lockstep Eq τ.In (fun _ _ => True) (applyAll apply pairs) (applyAll apply' pairs') := by
  induction hpairs with
  | nil => exact .pure trivial
  | @cons p p' _ _ hhead _ ih =>
    obtain ⟨a, b⟩ := p
    obtain ⟨a', b'⟩ := p'
    obtain ⟨rfl, hq⟩ := hhead
    exact (h a b b' hq).bind fun _ _ _ => ih

theorem lockstep_applySegments :
    Lockstep Eq τ.In (fun _ _ => True) τ.inst.applySegments τ.inst'.applySegments := by
  have helements := lockstep_applyAll (Q := Beside τ.inst.elems τ.inst'.elems)
    (fun segment _ _ ha => lockstep_applyElement segment ha)
    (forall₂_zip τ.inst.module.elements.toList τ.elems.forall₂)
  have hdata := lockstep_applyAll (Q := Beside τ.inst.data τ.inst'.data)
    (fun segment _ _ ha => lockstep_applyData segment ha)
    (forall₂_zip τ.inst.module.data.toList τ.data.forall₂)
  rw [Instance.applySegments, Instance.applySegments, τ.module]
  exact helements.bind fun _ _ _ => hdata

theorem In.runStart (fuel : Nat) (hs : τ.In s s') :
    τ.Ended s (τ.inst.runStart fuel s) (τ.inst'.runStart fuel s') := by
  rw [Instance.runStart, Instance.runStart, τ.module]
  cases τ.inst.module.start with
  | none => exact ⟨.results .nil, hs, .refl⟩
  | some start =>
    dsimp only
    exact rel_cases (τ.funcs.getElem? start) ⟨.results .nil, hs, .refl⟩ fun _ _ hg =>
      hs.invoke fuel hg .nil

theorem In.start (fuel : Nat) (hs : τ.In s s') (h : s.start fuel τ.inst τ.home = (.ok home, t)) :
    home = τ.home ∧ s.TouchedBy τ.inst t ∧
      ∃ t', s'.start fuel τ.inst' τ.home' = (.ok τ.home', t') ∧ τ.In t t' := by
  have hsegments := τ.lockstep_applySegments s s' hs
  have hworks := works_applySegments τ.inst s
  rw [Store.start] at h ⊢
  -- the segments fit for both or for none, and then the start functions end alike
  generalize τ.inst.applySegments s = r at hsegments hworks h
  generalize τ.inst'.applySegments s' = r' at hsegments
  cases hsegments with
  | error => cases h
  | @ok _ _ s1 s1' _ hs1 =>
    have hstart := hs1.runStart fuel
    dsimp only at h hworks ⊢
    generalize τ.inst.runStart fuel s1 = e at hstart h
    generalize τ.inst'.runStart fuel s1' = e' at hstart
    obtain ⟨o, t1⟩ := e
    obtain ⟨o', t1'⟩ := e'
    obtain ⟨ho, ht, htouched⟩ := hstart
    cases ho with
    | trap | outOfFuel => cases h
    | results =>
      cases h
      exact ⟨rfl, hworks.trans htouched, t1', rfl, ht⟩

end Twins

theorem Store.twins_of_instantiate (hm : m.imports = #[])
    (h : s.instantiate fuel m bindings limit = (.ok home, t)) (s' : Store)
    (bindings' : List Binding) :
    ∃ (τ : Twins) (t0 t' : Store), τ.home = home ∧
      s.allocate m bindings limit = .ok (τ.inst, τ.home, t0) ∧ t0.TouchedBy τ.inst t ∧
      s'.instantiate fuel m bindings' limit = (.ok τ.home', t') ∧ τ.In t t' := by
  rw [instantiate] at h
  cases ha : s.allocate m bindings limit with
  | error e =>
    rw [ha] at h
    cases h
  | ok result =>
    obtain ⟨inst, addr, t0⟩ := result
    obtain ⟨tables, memories, ht, hmem, rfl, rfl, rfl⟩ := exists_of_allocate hm ha
    rw [ha] at h
    obtain ⟨hhome, htouched, t', hstart', hin⟩ :=
      (m.twins_in ht s s' memories limit).start fuel h
    -- the other bindings are not looked at, since there is nothing to import
    refine ⟨_, _, t', hhome.symm, rfl, htouched, ?_, hin⟩
    rw [instantiate, s'.allocate_of_new hm bindings' limit ht hmem]
    exact hstart'

theorem Store.module_of_instantiate (h : s.instantiate fuel m bindings limit = (.ok home, t))
    (hinst : t.instance? home = some inst) : inst.module = m := by
  obtain ⟨new, t0, t1, values, ha, -, -, hnew⟩ := exists_of_instantiate h
  obtain rfl : new = inst := Option.some.inj (hnew.symm.trans hinst)
  obtain ⟨r, tables, memories, -, -, -, hresult⟩ := allocate_eq_addInstance ha
  cases hresult
  rfl

/-! ## Instances that were there before -/

/-- The store has all objects that an instance lists. -/
structure Instance.Within (inst : Instance) (s : Store) : Prop where
  funcs : ∀ addr ∈ inst.funcs, addr.index < s.funcs.size
  tables : ∀ addr ∈ inst.tables, addr.index < s.tables.size
  memories : ∀ addr ∈ inst.memories, addr.index < s.memories.size
  globals : ∀ ref addr, inst.global? ref = some addr → addr.index < s.globals.size
  elems : ∀ addr ∈ inst.elems, addr.index < s.elems.size
  data : ∀ addr ∈ inst.data, addr.index < s.data.size

theorem Matched.within {index : α → Nat} {R : β → β → Prop} {xs xs' : Array α}
    {objs objs' : Array β} (h : Matched index R xs xs' objs objs') (hal : Aligned xs xs') :
    ∀ a ∈ xs, index a < objs.size := by
  intro a ha
  obtain ⟨i, hi⟩ := Array.mem_iff_getElem?.mp ha
  have hrel := hal.getElem? i
  rw [hi] at hrel
  generalize xs'[i]? = a' at hrel
  cases hrel with
  | some hb =>
    obtain ⟨o, o', ho, -, -⟩ := h a _ hb
    exact (Array.getElem?_eq_some_iff.mp ho).1

theorem Twins.In.within (h : τ.In s s') : τ.inst.Within s where
  funcs := h.funcs.within τ.funcs
  tables := h.tables.within τ.tables
  memories := h.memories.within τ.memories
  globals ref addr ha := by
    cases ref with
    | imported i =>
      rw [Instance.global?, τ.imported] at ha
      cases ha
    | defined i => exact h.globals.within τ.globals addr (Array.mem_of_getElem? ha)
  elems := h.elems.within τ.elems
  data := h.data.within τ.data

theorem not_mem_freshAddrs {mk : Nat → α} {index : α → Nat} (hindex : ∀ n, index (mk n) = n)
    {start : Nat} {a : α} (h : index a < start) : a ∉ freshAddrs mk start count := by
  intro ha
  obtain ⟨i, hi⟩ := Array.mem_iff_getElem?.mp ha
  obtain ⟨-, rfl⟩ := of_getElem?_freshAddrs hi
  rw [hindex] at h
  omega

theorem Store.apart_of_allocate (hm : m.imports = #[]) {new : Instance}
    (h : s.allocate m bindings limit = .ok (new, home, t)) (hw : inst.Within s) :
    inst.SameIn s t ∧ inst.Disjoint new := by
  obtain ⟨tables, memories, -, -, rfl, rfl, rfl⟩ := exists_of_allocate hm h
  constructor
  · exact
      { funcs := fun addr ha => Array.getElem?_append_left (hw.funcs addr ha)
        tables := fun addr ha => Array.getElem?_append_left (hw.tables addr ha)
        memories := fun addr ha => Array.getElem?_append_left (hw.memories addr ha)
        globals := fun ref addr ha => Array.getElem?_append_left (hw.globals ref addr ha)
        elems := fun addr ha => Array.getElem?_append_left (hw.elems addr ha)
        data := fun addr ha => Array.getElem?_append_left (hw.data addr ha) }
  · refine
      { tables := fun addr ha => not_mem_freshAddrs (fun _ => rfl) (hw.tables addr ha)
        memories := fun addr ha => not_mem_freshAddrs (fun _ => rfl) (hw.memories addr ha)
        globals := fun ref addr ha ref' ha' => ?_
        elems := fun addr ha => not_mem_freshAddrs (fun _ => rfl) (hw.elems addr ha)
        data := fun addr ha => not_mem_freshAddrs (fun _ => rfl) (hw.data addr ha) }
    cases ref' with
    | imported i => cases ha'
    | defined i =>
      exact not_mem_freshAddrs (fun _ => rfl) (hw.globals ref addr ha) (Array.mem_of_getElem? ha')

end Wasm
