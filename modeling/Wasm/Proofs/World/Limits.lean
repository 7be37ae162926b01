import Wasm.Proofs.World.Basic

/-! # Declared limits hold for good

A memory or table within its bounds stays within them (`Memory.bounded_of_changes`). -/

namespace Wasm

open List
open Relation (ReflTransGen)

variable {options : CompileOptions} {binary : ByteArray} {limits : Limits}
  {bindings : List Binding} {limit : Nat} {home : InstanceAddr} {s s1 : Store}

/-! ## Memories and tables that change -/

namespace Memory

/-- All bytes, page by page. -/
def contents (m : Memory) : List UInt8 := m.pages.toList.flatMap fun page => page.bytes.data.toList

theorem length_contents (m : Memory) : m.contents.length = 65536 * m.pageCount := by
  have hpage : ∀ page : Page, page.bytes.data.toList.length = 65536 := fun page => page.size_eq
  rw [contents, pageCount, ← Array.length_toList, length_flatMap]
  induction m.pages.toList with
  | nil => rfl
  | cons page pages ih =>
    rw [map_cons, sum_cons, hpage, ih, length_cons]
    omega

variable {m m' : Memory} {bound : Nat}

theorem Changes.bounded (h : m.Changes m') (hlimit : m.growthLimit ≤ bound)
    (hm : m.pageCount ≤ bound) : m'.pageCount ≤ bound := by
  cases h with
  | @overwrite addr bytes _ => rwa [m.pageCount_overwrite]
  | @grow delta h =>
    show (m.pages ++ Array.replicate delta Page.zero).size ≤ bound
    rw [Array.size_append, Array.size_replicate]
    exact Nat.le_trans h hlimit
  | none => exact hm

theorem growthLimit_of_changes (h : ReflTransGen Changes m m') :
    m'.growthLimit = m.growthLimit := by
  obtain ⟨hmax, hcap, -⟩ := grows_of_changes h
  rw [growthLimit, growthLimit, hmax, hcap]

theorem bounded_of_changes (h : ReflTransGen Changes m m') (hlimit : m.growthLimit ≤ bound)
    (hm : m.pageCount ≤ bound) : m'.pageCount ≤ bound := by
  induction h with
  | refl => exact hm
  | tail hfirst hlast ih => exact hlast.bounded (growthLimit_of_changes hfirst ▸ hlimit) ih

end Memory

namespace Table

variable {ρ : Type} {t t' : Table ρ}

theorem Changes.within (h : t.Changes t') (ht : t.size ≤ sizeLimit t.maximum) :
    t'.size ≤ sizeLimit t'.maximum := by
  cases h with
  | @overwrite start entries _ =>
    rw [t.maximum_overwrite, t.size_overwrite]
    exact ht
  | @grow delta entry h =>
    show (t.entries ++ Array.replicate delta entry).size ≤ sizeLimit t.maximum
    rw [Array.size_append, Array.size_replicate]
    exact h
  | none => exact ht

theorem within_of_changes (h : ReflTransGen Changes t t') (ht : t.size ≤ sizeLimit t.maximum) :
    t'.size ≤ sizeLimit t'.maximum := by
  induction h with
  | refl => exact ht
  | tail _ hlast ih => exact hlast.within ih

end Table

/-! ## New memories and tables -/

theorem Module.under_of_compile {m : Module} (h : Module.compile options binary = .ok m) :
    m.pageCap = options.pageCap ∧
      ∀ limits ∈ m.spaces.memories.toList.drop m.spaces.importedMemories,
        limits.Under options.pageCap := by
  obtain ⟨contents, -, hvalid, rfl⟩ := Contents.exists_of_compile h
  refine ⟨rfl, fun limits hl => ?_⟩
  have hdrop : (contents.descs.filterMap ImportDesc.memory? ++ contents.memories).drop
      (contents.descs.filterMap ImportDesc.memory?).length = contents.memories := drop_left
  exact hvalid.judged .memory limits (hdrop ▸ hl)

theorem Memory.bounded_create {cap : Nat} {memory : Memory}
    (h : Memory.create limits.min limits.max = .ok memory) (hunder : limits.Under cap)
    (hcap : cap ≤ maxPages) :
    (memory.withPageCap cap).maximum = limits.max ∧ (memory.withPageCap cap).pageCap = cap ∧
      (memory.withPageCap cap).pageCount ≤ (memory.withPageCap cap).growthLimit := by
  unfold create initialLimit at h
  split at h
  · next hle =>
      cases h
      refine ⟨rfl, Nat.min_eq_left hcap, ?_⟩
      have := hunder.1
      simp only [withPageCap, pageCount, growthLimit, Array.size_replicate]
      omega
  · cases h

theorem Table.bounded_create {ρ : Type} {t : Table ρ}
    (h : Table.create limits.min limits.max = .ok t) :
    t.maximum = limits.max ∧ t.size ≤ sizeLimit t.maximum := by
  unfold create at h
  split at h
  · next hle =>
      cases h
      refine ⟨rfl, ?_⟩
      rw [size, Array.size_replicate]
      exact hle
  · cases h

namespace Store

variable {m : Module} {inst : Instance} {i : Nat}

theorem bounded_memory (hm : Module.compile options binary = .ok m)
    (ha : s.allocate m bindings limit = .ok (inst, home, s1))
    (hl : m.spaces.memories[i]? = some limits) (hi : m.spaces.importedMemories ≤ i) :
    ∃ mem, s1.memories[s.memories.size + (i - m.spaces.importedMemories)]? = some mem ∧
      mem.maximum = limits.max ∧ mem.pageCap = options.pageCap ∧
      mem.pageCount ≤ mem.growthLimit := by
  obtain ⟨r, tables, memories, -, -, hmem, hresult⟩ := allocate_eq_addInstance ha
  rw [addInstance_eq] at hresult
  cases hresult
  obtain ⟨hcap, hunder⟩ := Module.under_of_compile hm
  have hdrop : (m.spaces.memories.toList.drop m.spaces.importedMemories)[i -
      m.spaces.importedMemories]? = some limits := by
    rw [getElem?_drop, Nat.add_sub_cancel' hi, Array.getElem?_toList, hl]
  obtain ⟨mem, hget, hmake⟩ := exists_of_forall₂ (forall₂_of_mapM hmem) hdrop
  obtain ⟨memory, hcreate, heq⟩ := except_bind_eq_ok.mp hmake
  cases heq
  refine ⟨_, by rw [getElem?_append_add, hget], ?_⟩
  rw [hcap]
  exact Memory.bounded_create hcreate (hunder limits (mem_of_getElem? hdrop)) (Nat.min_le_right _ _)

theorem bounded_table (ha : s.allocate m bindings limit = .ok (inst, home, s1))
    {type : TableType} (ht : m.spaces.tables[i]? = some type)
    (hi : m.spaces.importedTables ≤ i) :
    ∃ t, s1.tables[s.tables.size + (i - m.spaces.importedTables)]? = some t ∧
      t.table.maximum = type.limits.max ∧ t.table.size ≤ Table.sizeLimit t.table.maximum := by
  obtain ⟨r, tables, memories, -, htables, -, hresult⟩ := allocate_eq_addInstance ha
  rw [addInstance_eq] at hresult
  cases hresult
  have hdrop : (m.spaces.tables.toList.drop m.spaces.importedTables)[i -
      m.spaces.importedTables]? = some type := by
    rw [getElem?_drop, Nat.add_sub_cancel' hi, Array.getElem?_toList, ht]
  obtain ⟨t, hget, hmake⟩ := exists_of_forall₂ (forall₂_of_mapM htables) hdrop
  obtain ⟨table, hcreate, heq⟩ := except_bind_eq_ok.mp hmake
  cases heq
  exact ⟨_, by rw [getElem?_append_add, hget], Table.bounded_create hcreate⟩

/-! ## At every later time -/

variable {s' : Store}

theorem memory_holds (hm : Module.compile options binary = .ok m)
    (ha : s.allocate m bindings limit = .ok (inst, home, s1)) (hd : s1.Develops s')
    {addr : MemoryAddr} (haddr : inst.memories[i]? = some addr) :
    ∃ limits mem, m.spaces.memories[i]? = some limits ∧ s'.memories[addr.index]? = some mem ∧
      mem.limits.matchesDeclared limits = true ∧
      (m.spaces.importedMemories ≤ i → mem.pageCount ≤ options.maxPages ∧
        mem.pageCount ≤ 65536 ∧ ∀ max, limits.max = some max → mem.pageCount ≤ max) := by
  obtain ⟨limits, mem, hl, hmem, hmatches, -, hnew⟩ :=
    (allocate_realizes hm ha).memory i addr haddr
  obtain ⟨mem', hmem', hchanges⟩ := hd.memories addr mem hmem
  obtain ⟨hmax, hcap, hcount⟩ := Memory.grows_of_changes hchanges
  refine ⟨limits, mem', hl, hmem', Limits.matchesDeclared_mono hmatches hcount hmax, fun hi => ?_⟩
  -- the memory was made for this instance, within bounds that have not moved since
  obtain ⟨mem1, hmem1, hdeclared, hoptions, hwithin⟩ := bounded_memory hm ha hl hi
  rw [hnew hi, hmem1] at hmem
  cases hmem
  have hlimit := Memory.bounded_of_changes hchanges (Nat.le_refl _) hwithin
  rw [Memory.growthLimit, hdeclared, hoptions, Nat.le_min, CompileOptions.pageCap,
    Nat.le_min] at hlimit
  refine ⟨hlimit.2.1, hlimit.2.2, fun max hsome => ?_⟩
  rw [hsome] at hlimit
  exact hlimit.1

theorem table_holds (hm : Module.compile options binary = .ok m)
    (ha : s.allocate m bindings limit = .ok (inst, home, s1)) (hd : s1.Develops s')
    {addr : TableAddr} (haddr : inst.tables[i]? = some addr) :
    ∃ type t, m.spaces.tables[i]? = some type ∧ s'.tables[addr.index]? = some t ∧
      t.element = type.element ∧ t.type.limits.matchesDeclared type.limits = true ∧
      (m.spaces.importedTables ≤ i → t.table.size ≤ 10000000 ∧
        ∀ max, type.limits.max = some max → t.table.size ≤ max) := by
  obtain ⟨type, t, htype, ht, helement, hmatches, -, hnew⟩ :=
    (allocate_realizes hm ha).table i addr haddr
  obtain ⟨table, ht', hchanges⟩ := hd.tables addr t ht
  obtain ⟨hmax, hsize⟩ := Table.grows_of_changes hchanges
  refine ⟨type, _, htype, ht', helement, Limits.matchesDeclared_mono hmatches hsize hmax,
    fun hi => ?_⟩
  obtain ⟨t1, ht1, hdeclared, hwithin⟩ := bounded_table ha htype hi
  rw [hnew hi, ht1] at ht
  cases ht
  have hlimit := Table.within_of_changes hchanges hwithin
  rw [hmax, hdeclared, Table.sizeLimit, Nat.le_min] at hlimit
  refine ⟨hlimit.2, fun max hsome => ?_⟩
  rw [hsome] at hlimit
  exact hlimit.1

end Store

namespace World

variable {makes : GlobalInst → Prop} {m : Module} {fuel : Nat} {running : Option Machine}
  {w w' : World}

/-- **Declared limits hold for good**: whatever happens after an instantiation, its memories and
    tables match their declarations and never shrink. -/
theorem limits_hold (hm : Module.compile options binary = .ok m)
    (hi : s.instantiate fuel m bindings limit = (.ok home, s1))
    (hw : Later makes ⟨s1, running⟩ w) (hw' : Later makes w w') :
    ∃ inst, s1.instance? home = some inst ∧ inst.module = m ∧
      inst.memories.size = m.spaces.memories.size ∧ inst.tables.size = m.spaces.tables.size ∧
      (∀ (i : Nat) (addr : MemoryAddr), inst.memories[i]? = some addr → ∃ limits mem mem',
        m.spaces.memories[i]? = some limits ∧ w.store.memories[addr.index]? = some mem ∧
        w'.store.memories[addr.index]? = some mem' ∧ mem.pageCount ≤ mem'.pageCount ∧
        mem.limits.matchesDeclared limits = true ∧
        mem.byteLength = 65536 * mem.pageCount ∧ mem.contents.length = 65536 * mem.pageCount ∧
        (m.spaces.importedMemories ≤ i → mem.pageCount ≤ options.maxPages ∧
          mem.pageCount ≤ 65536 ∧ ∀ max, limits.max = some max → mem.pageCount ≤ max)) ∧
      ∀ (i : Nat) (addr : TableAddr), inst.tables[i]? = some addr → ∃ type t t',
        m.spaces.tables[i]? = some type ∧ w.store.tables[addr.index]? = some t ∧
        w'.store.tables[addr.index]? = some t' ∧ t.table.size ≤ t'.table.size ∧
        t.element = type.element ∧ t.type.limits.matchesDeclared type.limits = true ∧
        (m.spaces.importedTables ≤ i → t.table.size ≤ 10000000 ∧
          ∀ max, type.limits.max = some max → t.table.size ≤ max) := by
  obtain ⟨inst, s2, s3, ha, hs, hstart, hhome, -⟩ := exists_of_instantiate makes hm hi
  have hrealizes := Store.allocate_realizes hm ha
  have hdevelops : s2.Develops w.store :=
    (((inst.works_applySegments.ok hs).develops).trans hstart.develops).trans hw.develops
  refine ⟨inst, hhome, hrealizes.module, hrealizes.memories, hrealizes.tables,
    fun i addr haddr => ?_, fun i addr haddr => ?_⟩
  · obtain ⟨limits, mem, hl, hmem, hmatches, hbounds⟩ := Store.memory_holds hm ha hdevelops haddr
    obtain ⟨mem', hmem', hchanges⟩ := hw'.develops.memories addr mem hmem
    exact ⟨limits, mem, mem', hl, hmem, hmem', (Memory.grows_of_changes hchanges).2.2, hmatches,
      Nat.mul_comm _ _, mem.length_contents, hbounds⟩
  · obtain ⟨type, t, htype, ht, helement, hmatches, hbounds⟩ :=
      Store.table_holds hm ha hdevelops haddr
    obtain ⟨table, ht', hchanges⟩ := hw'.develops.tables addr t ht
    exact ⟨type, t, _, htype, ht, ht', (Table.grows_of_changes hchanges).2, helement, hmatches,
      hbounds⟩

def growing : ByteArray :=
  ⟨#[0x00, 0x61, 0x73, 0x6D, 0x01, 0x00, 0x00, 0x00,
    0x04, 0x05, 0x01, 0x70, 0x01, 0x01, 0x02, 0x05, 0x03, 0x01, 0x00, 0x01]⟩

/-- A memory that has grown to its limit keeps its two pages. -/
theorem limits_hold_growing : ∃ (m : Module) (s1 s2 : Store) (running : Option Machine),
    Module.compile ⟨2, true⟩ growing = .ok m ∧
    Store.empty.instantiate 0 m [] 16 = (.ok ⟨0⟩, s1) ∧
    Store.onMemory ⟨0⟩ (Memory.grow 1) s1 = .ok 1 s2 ∧
    Later (fun _ => True) ⟨s1, running⟩ ⟨s2, running⟩ ∧
    ∀ w : World, Later (fun _ => True) ⟨s2, running⟩ w →
      ∃ mem, w.store.memories[0]? = some mem ∧ mem.pageCount = 2 ∧
        mem.contents.length = 131072 := by
  have hrun : ∃ m, Module.compile ⟨2, true⟩ growing = .ok m ∧
      ∃ s1, Store.empty.instantiate 0 m [] 16 = (.ok ⟨0⟩, s1) ∧
      ∃ inst, s1.instance? ⟨0⟩ = some inst ∧ ∃ mem, s1.memories[0]? = some mem ∧
        m.spaces.importedMemories = 0 ∧ inst.memories[0]?.map (·.index) = some 0 ∧
        mem.pageCount = 1 ∧ mem.growthLimit = 2 := by
    decide +kernel
  obtain ⟨m, hm, s1, hi, inst, hinst, mem, hmem, himported, haddr, hcount, hlimit⟩ := hrun
  have hgrow : Store.onMemory ⟨0⟩ (Memory.grow 1) s1 = .ok 1 { s1 with
      memories := s1.memories.setIfInBounds 0
        { mem with pages := mem.pages ++ Array.replicate 1 Page.zero } } := by
    simp only [Store.onMemory_eq, hmem, Memory.grow, hcount, hlimit]
    rfl
  have hlater : Later (fun _ => True) ⟨s1, none⟩ ⟨_, none⟩ :=
    .single (.act trivial (.onMemory (.grow 1) hgrow))
  refine ⟨m, s1, _, none, hm, hi, hgrow, hlater, fun w hw => ?_⟩
  obtain ⟨⟨_⟩, haddr, rfl⟩ := Option.map_eq_some_iff.mp haddr
  -- from the time when it grew on, and at the later time
  obtain ⟨inst1, hinst1, -, -, -, hmemories1, -⟩ := limits_hold hm hi hlater hw
  obtain ⟨inst2, hinst2, -, -, -, hmemories2, -⟩ := limits_hold hm hi (hlater.trans hw) .refl
  cases hinst.symm.trans hinst1
  cases hinst.symm.trans hinst2
  obtain ⟨_, grown, mem1, -, hgrown, hmem1, hle1, -⟩ := hmemories1 0 ⟨0⟩ haddr
  obtain ⟨_, mem2, _, -, hmem2, -, -, -, -, hbytes, hbounds⟩ := hmemories2 0 ⟨0⟩ haddr
  cases hmem1.symm.trans hmem2
  have hle2 := (hbounds (Nat.le_of_eq himported)).1
  have htwo : grown.pageCount = 2 := by
    rw [getElem?_setIfInBounds_some hmem, if_pos rfl] at hgrown
    cases hgrown
    rw [Memory.pageCount, Array.size_append, Array.size_replicate]
    exact congrArg (· + 1) hcount
  have hpages : mem1.pageCount = 2 := Nat.le_antisymm hle2 (htwo ▸ hle1)
  exact ⟨mem1, hmem1, hpages, by rw [hbytes, hpages]⟩

end World

end Wasm
