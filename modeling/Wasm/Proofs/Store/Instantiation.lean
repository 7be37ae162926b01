import Wasm.Proofs.Module.Closed
import Wasm.Proofs.Store.Imports

/-! # Instantiation and the objects of a store

A store that hosts instances hosts the new one as well (`Store.Hosts.instantiate`). -/

namespace Wasm

open List IndexSpaces ImportDesc

variable {m : Module} {home addr : InstanceAddr} {tables : List TableInst}
  {memories : List Memory} {s s' : Store} {bindings : List Binding} {inst : Instance}
  {limit : Nat} {binaries : InstanceAddr → ByteArray} {options : CompileOptions}
  {binary : ByteArray}

/-! ## New objects -/

variable {i : Nat} {α : Type}

theorem forall₂_of_mapM {ε β : Type} {f : α → Except ε β} {xs : List α} {ys : List β}
    (h : xs.mapM f = .ok ys) : Forall₂ (fun x y => f x = .ok y) xs ys := by
  induction xs generalizing ys with
  | nil =>
    cases h
    exact .nil
  | cons x xs ih =>
    rw [mapM_cons] at h
    obtain ⟨y, hy, h⟩ := except_bind_eq_ok.mp h
    obtain ⟨ys', hys, h⟩ := except_bind_eq_ok.mp h
    cases h
    exact .cons hy (ih hys)

theorem Module.length_newFuncs (m : Module) (home : InstanceAddr) :
    (m.newFuncs home).length = m.functions.size := by
  rw [Module.newFuncs, length_map, length_range]

namespace Store

theorem addAll_eq {α β γ : Type} {add : Store → β → α × Store} (addr : Nat → α)
    (items : Store → Array γ) (put : Store → Array γ → Store) (make : β → γ)
    (hadd : ∀ s b, add s b = (addr (items s).size, put s ((items s).push (make b))))
    (hitems : ∀ s xs, items (put s xs) = xs) (hput : ∀ s xs ys, put (put s xs) ys = put s ys)
    (hself : ∀ s, put s (items s) = s) (bs : List β) (s : Store) (addrs : Array α) :
    s.addAll add bs addrs = (addrs ++ freshAddrs addr (items s).size bs.length,
      put s (items s ++ (bs.map make).toArray)) := by
  induction bs generalizing s addrs with
  | nil =>
    rw [addAll]
    simp [freshAddrs, hself]
  | cons b bs ih =>
    rw [addAll, hadd]
    dsimp only
    rw [ih, hitems, hput]
    simp [freshAddrs, range'_succ]

theorem addInstance_eq (s : Store) (m : Module) (r : Resolved) (tables : List TableInst)
    (memories : List Memory) (limit : Nat) :
    let home : InstanceAddr := ⟨s.instances.size⟩
    let funcs := r.funcs ++ freshAddrs FuncAddr.mk s.funcs.size m.functions.size
    let globals := m.newGlobals s funcs r.globals home
    let entries := m.elements.toList.map fun segment =>
      segment.items.map fun item => Ref.ofValue? (item.eval s funcs r.globals)
    let inst : Instance :=
      { module := m
        maxCallDepth := limit
        funcs
        tables := r.tables ++ freshAddrs TableAddr.mk s.tables.size tables.length
        memories := r.memories ++ freshAddrs MemoryAddr.mk s.memories.size memories.length
        importedGlobals := r.globals
        definedGlobals := freshAddrs GlobalAddr.mk s.globals.size globals.length
        elems := freshAddrs ElemAddr.mk s.elems.size m.elements.size
        data := freshAddrs DataAddr.mk s.data.size m.data.size }
    s.addInstance m r tables memories limit = (inst, home,
      { funcs := s.funcs ++ (m.newFuncs home).toArray
        tables := s.tables ++ tables.toArray
        memories := s.memories ++ memories.toArray
        globals := s.globals ++ globals.toArray
        elems := s.elems ++ entries.toArray
        data := s.data ++ (m.data.toList.map fun segment => ⟨segment.bytes, false⟩).toArray
        instances := s.instances.push (some inst)
        trace := s.trace }) := by
  have htables := @addAll_eq _ _ _ addTable TableAddr.mk Store.tables
    (fun s xs => { s with tables := xs }) id (fun _ _ => rfl) (fun _ _ => rfl) (fun _ _ _ => rfl)
    (fun _ => rfl)
  have hmemories := @addAll_eq _ _ _ addMemory MemoryAddr.mk Store.memories
    (fun s xs => { s with memories := xs }) id (fun _ _ => rfl) (fun _ _ => rfl) (fun _ _ _ => rfl)
    (fun _ => rfl)
  have hfuncs := @addAll_eq _ _ _ addFunc FuncAddr.mk Store.funcs
    (fun s xs => { s with funcs := xs }) id (fun _ _ => rfl) (fun _ _ => rfl) (fun _ _ _ => rfl)
    (fun _ => rfl)
  have hglobals := @addAll_eq _ _ _ addGlobal GlobalAddr.mk Store.globals
    (fun s xs => { s with globals := xs }) id (fun _ _ => rfl) (fun _ _ => rfl) (fun _ _ _ => rfl)
    (fun _ => rfl)
  have helems := @addAll_eq _ _ _ addElem ElemAddr.mk Store.elems
    (fun s xs => { s with elems := xs }) id (fun _ _ => rfl) (fun _ _ => rfl) (fun _ _ _ => rfl)
    (fun _ => rfl)
  have hdata := @addAll_eq _ _ _ addData DataAddr.mk Store.data
    (fun s xs => { s with data := xs }) (⟨·, false⟩) (fun _ _ => rfl) (fun _ _ => rfl)
    (fun _ _ _ => rfl) (fun _ => rfl)
  intro home funcs globals entries inst
  unfold addInstance
  dsimp only
  rw [htables]
  rw [hmemories]
  rw [hfuncs]
  rw [hglobals]
  rw [helems]
  rw [hdata]
  simp only [map_id_fun, id_eq, length_map, Array.length_toList, map_map,
    Module.length_newFuncs, Array.empty_append]
  rfl

theorem extends_addInstance (s : Store) (m : Module) (r : Resolved) (tables : List TableInst)
    (memories : List Memory) (limit : Nat) :
    s.Extends (s.addInstance m r tables memories limit).2.2 := by
  rw [addInstance_eq]
  constructor
  all_goals first
    | rw [Array.size_append]; exact Nat.le_add_right _ _
    | simp only [Array.map_append, Array.toList_append]; exact prefix_append _ _

end Store

/-! ## The new instance -/

theorem Limits.matchesDeclared_self (limits : Limits) : limits.matchesDeclared limits = true := by
  rw [matchesDeclared]
  cases limits.max with
  | none | some _ => simp

theorem Limits.matchesDeclared_mono {provided provided' declared : Limits}
    (h : provided.matchesDeclared declared = true) (hmin : provided.min ≤ provided'.min)
    (hmax : provided'.max = provided.max) : provided'.matchesDeclared declared = true := by
  simp only [matchesDeclared, Bool.and_eq_true, decide_eq_true_eq] at h ⊢
  rw [hmax]
  exact ⟨Nat.le_trans h.1 hmin, h.2⟩

namespace Module

theorem newFuncs_getElem? {index : Nat} {type : FuncType} (hi : index < m.functions.size)
    (ht : m.spaces.funcType (m.spaces.importedFuncs + index) = .ok type) :
    (m.newFuncs home)[index]? = some (.wasm type home index) := by
  rw [newFuncs, getElem?_map, getElem?_range hi, Option.map_some, ht]

theorem types_newFuncs (hm : m.WellFormed) (home : InstanceAddr) :
    Forall₂ (fun index (func : FuncInst) => m.spaces.types[index]? = some func.type)
      (m.spaces.funcs.toList.drop m.spaces.importedFuncs) (m.newFuncs home) := by
  have hlen : (m.spaces.funcs.toList.drop m.spaces.importedFuncs).length =
      (m.newFuncs home).length := by
    rw [length_drop, Array.length_toList, length_newFuncs, hm.defined]
    rfl
  refine forall₂_iff_get.mpr ⟨hlen, fun k hk hk' => ?_⟩
  rw [length_drop, Array.length_toList] at hk
  have hlt : m.spaces.importedFuncs + k < m.spaces.funcs.size := by omega
  have htype := Array.getElem?_eq_getElem (hm.funcTypes _ (Array.getElem_mem hlt))
  have hnew : (m.newFuncs home)[k]? = _ := newFuncs_getElem? (m.length_newFuncs home ▸ hk')
    (funcType_eq_ok.mpr ⟨_, Array.getElem?_eq_getElem hlt, htype⟩)
  rw [getElem?_eq_getElem hk'] at hnew
  simp only [get_eq_getElem, getElem_drop, Array.getElem_toList, Option.some.inj hnew]
  exact htype

theorem types_newTables (h : m.newTables = .ok tables) :
    Forall₂ (fun type t => TableInst.type t = type)
      (m.spaces.tables.toList.drop m.spaces.importedTables) tables := by
  refine (forall₂_of_mapM h).imp fun type t ht => ?_
  obtain ⟨table, hcreate, h⟩ := except_bind_eq_ok.mp ht
  cases h
  rw [Table.create] at hcreate
  split at hcreate
  · cases hcreate
    simp [TableInst.type, Table.size]
  · cases hcreate

theorem limits_newMemories (h : m.newMemories = .ok memories) :
    Forall₂ (fun limits memory => Memory.limits memory = limits)
      (m.spaces.memories.toList.drop m.spaces.importedMemories) memories := by
  refine (forall₂_of_mapM h).imp fun type t ht => ?_
  obtain ⟨memory, hcreate, h⟩ := except_bind_eq_ok.mp ht
  cases h
  rw [Memory.create] at hcreate
  split at hcreate
  · cases hcreate
    simp [Memory.limits, Memory.withPageCap, Memory.pageCount]
  · cases hcreate

theorem types_newGlobals (hm : m.Consistent) (s : Store) (funcs : Array FuncAddr)
    (imported : Array GlobalAddr) (home : InstanceAddr) :
    Forall₂ (fun type (g : GlobalInst) => g.type = type)
      (m.spaces.globals.toList.drop m.spaces.importedGlobals)
      (m.newGlobals s funcs imported home) := by
  have h := hm.inits
  rw [newGlobals]
  generalize m.globalInits.toList = inits, m.spaces.globals.toList.drop _ = types at h ⊢
  induction h with
  | nil => exact .nil
  | cons _ _ ih => exact .cons rfl ih

end Module

section NewInstance

variable {r : Resolved}

namespace Resolved.Given

variable (hr : r.Given s m.spaces.types bindings m.imports.toList) (hm : m.WellFormed)
include hr hm

theorem behind_funcs (home : InstanceAddr) : Behind (fun i a => m.Binds bindings .func i (.func a))
      (fun index func => m.spaces.types[index]? = some func.type) FuncAddr.index m.spaces.funcs
      m.spaces.importedFuncs s.funcs.size
      (r.funcs ++ freshAddrs FuncAddr.mk s.funcs.size m.functions.size)
      (s.funcs ++ (m.newFuncs home).toArray) := by
  rw [← m.length_newFuncs home]
  refine hm.listed.funcs.behind isSome_func? hr.funcs (fun _ => rfl)
    (Module.types_newFuncs hm home) fun {i index a} hdesc hgives => ?_
  obtain ⟨_, _, heq, htype, hgiven⟩ := hgives.func
  rw [heq] at hdesc
  cases hdesc
  obtain ⟨func, hfunc, rfl⟩ := Option.map_eq_some_iff.mp hgiven
  exact ⟨func, hfunc, htype⟩

theorem behind_tables (ht : m.newTables = .ok tables) :
    Behind (fun i a => m.Binds bindings .table i (.table a))
      (fun type t => t.element = type.element ∧
        t.type.limits.matchesDeclared type.limits = true) TableAddr.index m.spaces.tables
      m.spaces.importedTables s.tables.size
      (r.tables ++ freshAddrs TableAddr.mk s.tables.size tables.length)
      (s.tables ++ tables.toArray) := by
  refine hm.listed.tables.behind isSome_table? hr.tables (fun _ => rfl)
    ((Module.types_newTables ht).imp ?_) fun {i type a} hdesc hgives => ?_
  · rintro type t rfl
    exact ⟨rfl, Limits.matchesDeclared_self _⟩
  · obtain ⟨_, t, heq, h⟩ := hgives.table
    rw [heq] at hdesc
    cases hdesc
    exact ⟨t, h⟩

theorem behind_memories (hmem : m.newMemories = .ok memories) :
    Behind (fun i a => m.Binds bindings .memory i (.memory a))
      (fun limits mem => mem.limits.matchesDeclared limits = true) MemoryAddr.index
      m.spaces.memories m.spaces.importedMemories s.memories.size
      (r.memories ++ freshAddrs MemoryAddr.mk s.memories.size memories.length)
      (s.memories ++ memories.toArray) := by
  refine hm.listed.memories.behind isSome_memory? hr.memories (fun _ => rfl)
    ((Module.limits_newMemories hmem).imp ?_) fun {i type a} hdesc hgives => ?_
  · rintro limits mem rfl
    exact Limits.matchesDeclared_self _
  · obtain ⟨_, mem, heq, h⟩ := hgives.memory
    rw [heq] at hdesc
    cases hdesc
    exact ⟨mem, h⟩

theorem behind_globals (funcs : Array FuncAddr) (home : InstanceAddr) :
    Behind (fun i a => m.Binds bindings .global i (.global a))
      (fun type g => g.type = type) GlobalAddr.index m.spaces.globals m.spaces.importedGlobals
      s.globals.size
      (r.globals ++ freshAddrs GlobalAddr.mk s.globals.size
        (m.newGlobals s funcs r.globals home).length)
      (s.globals ++ (m.newGlobals s funcs r.globals home).toArray) := by
  refine hm.listed.globals.behind isSome_global? hr.globals (fun _ => rfl)
    (Module.types_newGlobals hm.toConsistent s funcs r.globals home)
      fun {i type a} hdesc hgives => ?_
  obtain ⟨_, g, heq, h⟩ := hgives.global
  rw [heq] at hdesc
  cases hdesc
  exact ⟨g, h⟩

end Resolved.Given

theorem Instance.global?_globalRef {addr : GlobalAddr}
    (hsize : inst.importedGlobals.size = inst.module.spaces.importedGlobals)
    (ha : (inst.importedGlobals ++ inst.definedGlobals)[i]? = some addr) :
    inst.global? (inst.module.spaces.globalRef i) = some addr := by
  rw [Array.getElem?_append] at ha
  rw [globalRef, isImportedGlobal, ← hsize]
  by_cases hi : i < inst.importedGlobals.size
  · rw [if_pos hi] at ha
    rw [if_pos (decide_eq_true hi)]
    exact ha
  · rw [if_neg hi] at ha
    rw [if_neg (by simpa using hi)]
    exact ha

theorem Store.placed_addInstance (hm : m.WellFormed)
    (hr : r.Given s m.spaces.types bindings m.imports.toList) (ht : m.newTables = .ok tables)
    (hmem : m.newMemories = .ok memories) (limit : Nat) :
    (s.addInstance m r tables memories limit).1.Placed
      (s.addInstance m r tables memories limit).2.2 := by
  rw [addInstance_eq]
  constructor
  · intro index type (htype : m.spaces.funcType index = .ok type)
    obtain ⟨typeIndex, hindex, htype⟩ := funcType_eq_ok.mp htype
    have hfuncs := hr.behind_funcs hm ⟨s.instances.size⟩
    obtain ⟨a, ha⟩ := hfuncs.exists_address hindex
    obtain ⟨func, hfunc, htype'⟩ := hfuncs.object hindex ha
    refine ⟨a, ha, Option.map_eq_some_iff.mpr ⟨func, hfunc, ?_⟩⟩
    exact Option.some.inj (htype'.symm.trans htype)
  · intro index type (htype : m.spaces.tables[index]? = some type)
    obtain ⟨a, ha⟩ := (hr.behind_tables hm ht).exists_address htype
    obtain ⟨t, ht, helement, -⟩ := (hr.behind_tables hm ht).object htype ha
    exact ⟨a, ha, by rw [element?, Array.getElem?_map, ht, ← helement]; rfl⟩
  · intro index limits (hlimits : m.spaces.memories[index]? = some limits)
    obtain ⟨a, ha⟩ := (hr.behind_memories hm hmem).exists_address hlimits
    obtain ⟨mem, hmem, -⟩ := (hr.behind_memories hm hmem).object hlimits ha
    exact ⟨a, ha, (Array.getElem?_eq_some_iff.mp hmem).1⟩
  · intro index type (htype : m.spaces.globals[index]? = some type)
    have hglobals := hr.behind_globals hm
      (r.funcs ++ freshAddrs FuncAddr.mk s.funcs.size m.functions.size) ⟨s.instances.size⟩
    obtain ⟨a, ha⟩ := hglobals.exists_address htype
    obtain ⟨g, hg, rfl⟩ := hglobals.object htype ha
    have hsize := hm.listed.globals.size_given isSome_global? hr.globals
    exact ⟨a, Instance.global?_globalRef hsize ha, by rw [globalType?, Array.getElem?_map, hg]; rfl⟩
  · intro index segment (hsegment : m.elements[index]? = some segment)
    have hlt := (Array.getElem?_eq_some_iff.mp hsegment).1
    refine ⟨_, getElem?_freshAddrs ElemAddr.mk s.elems.size hlt, ?_⟩
    simp only [Array.size_append, size_toArray, length_map, Array.length_toList]
    exact Nat.add_lt_add_left hlt _
  · intro index segment (hsegment : m.data[index]? = some segment)
    have hlt := (Array.getElem?_eq_some_iff.mp hsegment).1
    refine ⟨_, getElem?_freshAddrs DataAddr.mk s.data.size hlt, ?_⟩
    simp only [Array.size_append, size_toArray, length_map, Array.length_toList]
    exact Nat.add_lt_add_left hlt _

end NewInstance

/-! ## Stores with a new instance -/

namespace Store

theorem allocate_eq_addInstance {result : Instance × InstanceAddr × Store}
    (h : s.allocate m bindings limit = .ok result) :
    ∃ (r : Resolved) (tables : List TableInst) (memories : List Memory),
      r.Given s m.spaces.types bindings m.imports.toList ∧
      m.newTables = .ok tables ∧ m.newMemories = .ok memories ∧
      result = s.addInstance m r tables memories limit := by
  obtain ⟨r, hr, h⟩ := except_bind_eq_ok.mp h
  split at h
  · cases h
  · cases h
  · next tables memories ht hm =>
      cases h
      exact ⟨r, tables, memories, resolve_given hr, ht, hm, rfl⟩

section

variable (hs : s'.instances = s.instances.push (some inst))
include hs

theorem instance?_of_push (addr : InstanceAddr) :
    s'.instance? addr = if addr = ⟨s.instances.size⟩ then some inst else s.instance? addr := by
  obtain ⟨index⟩ := addr
  rw [instance?, instance?, hs, Array.getElem?_push]
  by_cases h : index = s.instances.size
  · rw [if_pos h, if_pos (congrArg InstanceAddr.mk h)]
    rfl
  · have hne : ¬ (⟨index⟩ : InstanceAddr) = ⟨s.instances.size⟩ :=
      fun he => h (congrArg InstanceAddr.index he)
    rw [if_neg h, if_neg hne]

theorem instance?_of_lt (h : addr.index < s.instances.size) :
    s'.instance? addr = s.instance? addr := by
  rw [instance?_of_push hs, if_neg]
  intro he
  exact Nat.lt_irrefl _ (congrArg InstanceAddr.index he ▸ h)

theorem Owns.push {func : FuncInst} (h : s.Owns func) : s'.Owns func := by
  cases func with
  | host => trivial
  | wasm type home index =>
    refine ⟨by rw [hs, Array.size_push]; exact Nat.lt_succ_of_lt h.1, fun inst' hinst => ?_⟩
    exact h.2 inst' (instance?_of_lt hs h.1 ▸ hinst)

end

theorem owns_newFuncs (hhome : s.instance? home = some inst) (hlt : home.index < s.instances.size)
    (hm : inst.module.WellFormed) : ∀ func ∈ inst.module.newFuncs home, s.Owns func := by
  intro func hf
  obtain ⟨index, hindex, rfl⟩ := mem_map.mp hf
  rw [mem_range] at hindex
  refine ⟨hlt, fun inst' hinst => ?_⟩
  cases hhome.symm.trans hinst
  refine ⟨hindex, ?_⟩
  -- the index is one of the function space
  have hfunc : inst.module.spaces.importedFuncs + index < inst.module.spaces.funcs.size := by
    have := hm.defined
    unfold definedFuncs at this
    omega
  have htype := hm.funcTypes _ (Array.getElem_mem hfunc)
  have hok := funcType_eq_ok.mpr
    ⟨_, Array.getElem?_eq_getElem hfunc, Array.getElem?_eq_getElem htype⟩
  rw [hok]

def withBinary (s : Store) (binaries : InstanceAddr → ByteArray) (binary : ByteArray)
    (addr : InstanceAddr) : ByteArray :=
  if addr = ⟨s.instances.size⟩ then binary else binaries addr

theorem Hosts.allocate (h : s.Hosts binaries) (hm : Module.compile options binary = .ok m)
    (ha : s.allocate m bindings limit = .ok (inst, addr, s')) :
    s'.Hosts (s.withBinary binaries binary) := by
  have hwf := Module.wellFormed_of_compile hm
  obtain ⟨r, tables, memories, hr, ht, hmem, hresult⟩ := allocate_eq_addInstance ha
  have hplaced := placed_addInstance hwf hr ht hmem limit
  have hext := s.extends_addInstance m r tables memories limit
  have heq := s.addInstance_eq m r tables memories limit
  rw [← hresult] at hplaced hext heq
  have hinstances : s'.instances = s.instances.push (some inst) := by
    injection heq with hinst hrest
    injection hrest with haddr hstore
    rw [hinst, hstore]
  have hmodule : inst.module = m := congrArg (·.1.module) heq
  have hfuncs : s'.funcs = s.funcs ++ (m.newFuncs ⟨s.instances.size⟩).toArray :=
    congrArg (·.2.2.funcs) heq
  constructor
  · intro addr' inst' hinst
    rw [instance?_of_push hinstances] at hinst
    unfold withBinary
    split at hinst
    · next he =>
        cases hinst
        exact ⟨options, by rw [if_pos he, hmodule, hm]⟩
    · next he =>
        rw [if_neg he]
        exact h.compiled addr' inst' hinst
  · intro addr' inst' hinst
    rw [instance?_of_push hinstances] at hinst
    split at hinst
    · cases hinst
      exact hplaced
    · exact (h.placed addr' inst' hinst).extend hext
  · intro func hf
    rw [hfuncs, Array.mem_append] at hf
    obtain hold | hnew := hf
    · exact (h.owned func hold).push hinstances
    · have hhome : s'.instance? ⟨s.instances.size⟩ = some inst := by
        rw [instance?_of_push hinstances, if_pos rfl]
      refine owns_newFuncs hhome ?_ (hmodule.symm ▸ hwf) func ?_
      · rw [hinstances, Array.size_push]
        exact Nat.lt_succ_self _
      · rw [hmodule]
        exact mem_toArray.mp hnew

end Store

namespace Store

theorem Hosts.release (h : s.Hosts binaries) (addr : InstanceAddr) :
    (s.release addr).Hosts binaries := by
  have hlive : ∀ {addr' : InstanceAddr} {inst : Instance},
      (s.release addr).instance? addr' = some inst → s.instance? addr' = some inst := by
    intro addr' inst hinst
    rw [instance?, Store.release, Array.getElem?_setIfInBounds] at hinst
    split at hinst
    · split at hinst
      · cases hinst
      · cases hinst
    · exact hinst
  constructor
  · exact fun addr' inst hinst => h.compiled addr' inst (hlive hinst)
  · intro addr' inst hinst
    exact (h.placed addr' inst (hlive hinst)).extend ⟨prefix_rfl, prefix_rfl,
      Nat.le_refl _, prefix_rfl, Nat.le_refl _, Nat.le_refl _⟩
  · intro func hf
    have := h.owned func hf
    cases func with
    | host => trivial
    | wasm type home index =>
      refine ⟨?_, fun inst hinst => this.2 inst (hlive hinst)⟩
      rw [Store.release, Array.size_setIfInBounds]
      exact this.1

theorem Hosts.start (h : s.Hosts binaries) (fuel : Nat) (inst : Instance) (addr : InstanceAddr) :
    (s.start fuel inst addr).2.Hosts binaries := by
  unfold Store.start
  split
  · next t s' happly => exact (h.agrees (inst.keeps_applySegments.error happly)).release addr
  · next s1 happly =>
      have h1 := h.agrees (inst.keeps_applySegments.ok happly)
      have h2 := h1.agrees (inst.runStart_agrees fuel s1)
      split
      · next heq => rw [heq] at h2; exact h2
      · next heq => rw [heq] at h2; exact h2.release addr
      · next heq => rw [heq] at h2; exact h2.release addr

theorem Hosts.instantiate (h : s.Hosts binaries) (hm : Module.compile options binary = .ok m)
    (fuel : Nat) (bindings : List Binding) (limit : Nat) :
    (s.instantiate fuel m bindings limit).2.Hosts (s.withBinary binaries binary) := by
  unfold Store.instantiate
  split
  · -- the new address is that of no instance
    refine { h with compiled := fun addr inst hinst => ?_ }
    have hne : addr ≠ ⟨s.instances.size⟩ := by
      rintro rfl
      rw [instance?, Array.getElem?_eq_none (Nat.le_refl _)] at hinst
      cases hinst
    rw [withBinary, if_neg hne]
    exact h.compiled addr inst hinst
  · next inst addr s' ha => exact (h.allocate hm ha).start fuel inst addr

theorem hosts_empty (binaries : InstanceAddr → ByteArray) : Store.empty.Hosts binaries where
  compiled _ _ h := nomatch h
  placed _ _ h := nomatch h
  owned _ h := nomatch h

end Store

/-! ## What is there after an instantiation -/

theorem Store.develops_allocate (h : s.allocate m bindings limit = .ok (inst, home, s')) :
    s.Develops s' := by
  obtain ⟨r, tables, memories, -, -, -, hresult⟩ := allocate_eq_addInstance h
  rw [addInstance_eq] at hresult
  cases hresult
  exact .of_append rfl rfl rfl rfl rfl

theorem Store.instance?_allocate (h : s.allocate m bindings limit = .ok (inst, home, s')) :
    s'.instance? home = some inst := by
  obtain ⟨r, tables, memories, -, -, -, hresult⟩ := allocate_eq_addInstance h
  rw [addInstance_eq] at hresult
  cases hresult
  rw [instance?_of_push rfl, if_pos rfl]

theorem Store.exists_of_instantiate {fuel : Nat}
    (h : s.instantiate fuel m bindings limit = (.ok home, s')) :
    ∃ inst s1 s2 values, s.allocate m bindings limit = .ok (inst, home, s1) ∧
      inst.applySegments s1 = .ok () s2 ∧ inst.runStart fuel s2 = (.results values, s') ∧
      s'.instance? home = some inst := by
  rw [Store.instantiate] at h
  split at h
  · cases h
  · next inst home s1 ha =>
      rw [Store.start] at h
      split at h
      · cases h
      · next s2 hs =>
          split at h
          · next values s3 hstart =>
              cases h
              have hagrees := inst.runStart_agrees fuel s2
              rw [hstart] at hagrees
              refine ⟨inst, s1, s2, values, ha, hs, hstart, ?_⟩
              rw [hagrees.instance?, (inst.keeps_applySegments.ok hs).instance?]
              exact Store.instance?_allocate ha
          · cases h
          · cases h

end Wasm
