import Wasm.Proofs.Module.Sources
import Wasm.Proofs.Store.Segments

/-! # The index spaces of an instance

Behind each index stands an import's item or a new object (`Instance.Realizes`). -/

namespace Wasm

open List

/-! ## Instances and their modules -/

def Module.constExprs (m : Module) : List ConstExpr :=
  m.globalInits.toList ++ m.elements.toList.flatMap (·.items.toList) ++
    (m.elements.toList.map (·.mode) ++ m.data.toList.map (·.mode)).filterMap fun
      | .active _ offset => some offset
      | _ => none

/-- A global index means one global in all uses. -/
structure Instance.Denotes (inst : Instance) (m : Module) (index : Nat) (addr : GlobalAddr) :
    Prop where
  code : ∀ (ctx : BodyContext) (stack : ControlStack) (e : Emission), ctx.spaces = m.spaces →
    ∃ ref, inst.global? ref = some addr ∧
      (Instr.globalGet index).lowerReachable ctx stack e = .ok (e.basic (.globalGet ref)) ∧
      (Instr.globalSet index).lowerReachable ctx stack e = .ok (e.basic (.globalSet ref))
  exported : ∀ (name : String) (entry : Export), m.findExport? name = some entry →
    entry.kind = .global → entry.index = index → inst.export? name = some (.global addr)
  constant : index < m.spaces.importedGlobals → ∀ (s : Store) (g : GlobalInst),
    s.globals[addr.index]? = some g →
    (ConstExpr.globalGet index).eval s inst.funcs inst.importedGlobals = g.value

/-- What is behind the indices of an instance, made at `home` in `s` and now in `s'`.  An imported
    item is the one bound to its names; the others have the addresses behind those of `s`. -/
structure Instance.Realizes (inst : Instance) (m : Module) (bindings : List Binding)
    (home : InstanceAddr) (s s' : Store) : Prop where
  module : inst.module = m
  funcs : inst.funcs.size = m.spaces.funcs.size
  func : ∀ (i : Nat) (addr : FuncAddr), inst.funcs[i]? = some addr →
    ∃ type, m.spaces.funcType i = .ok type ∧ s'.funcType? addr = some type ∧
      (i < m.spaces.importedFuncs → m.Binds bindings .func i (.func addr)) ∧
      (m.spaces.importedFuncs ≤ i → ∃ body : CompiledFunction,
        addr.index = s.funcs.size + (i - m.spaces.importedFuncs) ∧
        s'.funcs[addr.index]? = some (.wasm type home (i - m.spaces.importedFuncs)) ∧
        m.functions[i - m.spaces.importedFuncs]? = some body ∧ body.funcIndex = i)
  tables : inst.tables.size = m.spaces.tables.size
  table : ∀ (i : Nat) (addr : TableAddr), inst.tables[i]? = some addr →
    ∃ type t, m.spaces.tables[i]? = some type ∧ s'.tables[addr.index]? = some t ∧
      t.element = type.element ∧ t.type.limits.matchesDeclared type.limits = true ∧
      (i < m.spaces.importedTables → m.Binds bindings .table i (.table addr)) ∧
      (m.spaces.importedTables ≤ i → addr.index = s.tables.size + (i - m.spaces.importedTables))
  memories : inst.memories.size = m.spaces.memories.size
  memory : ∀ (i : Nat) (addr : MemoryAddr), inst.memories[i]? = some addr →
    ∃ limits mem, m.spaces.memories[i]? = some limits ∧ s'.memories[addr.index]? = some mem ∧
      mem.limits.matchesDeclared limits = true ∧
      (i < m.spaces.importedMemories → m.Binds bindings .memory i (.memory addr)) ∧
      (m.spaces.importedMemories ≤ i →
        addr.index = s.memories.size + (i - m.spaces.importedMemories))
  globals : inst.importedGlobals.size + inst.definedGlobals.size = m.spaces.globals.size
  global : ∀ (i : Nat) (type : GlobalType), m.spaces.globals[i]? = some type →
    ∃ addr, inst.Denotes m i addr ∧ s'.globalType? addr = some type ∧
      (i < m.spaces.importedGlobals → m.Binds bindings .global i (.global addr)) ∧
      (m.spaces.importedGlobals ≤ i → addr.index = s.globals.size + (i - m.spaces.importedGlobals))
  constants : ∀ i, ConstExpr.globalGet i ∈ m.constExprs → i < m.spaces.importedGlobals

/-! ## Functions and constant expressions -/

variable {index : Nat} {m : Module}

theorem Body.Compiles.funcIndex_eq {ctx : BodyContext} {funcIndex : Nat}
    {accessors accessors' : Accessors} {body : Body} {func : CompiledFunction}
    (h : body.Compiles ctx funcIndex accessors func accessors') : func.funcIndex = funcIndex := by
  cases h with
  | @intro type sc e _ ht hmax hl hc hf =>
    obtain ⟨code, -, hfunc⟩ := except_bind_eq_ok.mp hf
    cases hfunc
    show (sc.emitEnd e).asm.funcIndex = funcIndex
    rw [(sc.heads_emitEnd e).header.1, hl.emission_extends.header.1]
    rfl

theorem ConstExpr.HasType.imported {spaces : IndexSpaces} {type : ValueType}
    (h : (ConstExpr.globalGet index).HasType spaces type) : index < spaces.importedGlobals := by
  cases h with
  | globalGet himported _ => exact himported

theorem Module.Consistent.constants (hm : m.Consistent)
    (h : ConstExpr.globalGet index ∈ m.constExprs) : index < m.spaces.importedGlobals := by
  rw [constExprs, mem_append, mem_append] at h
  rcases h with (hinit | hitem) | hoffset
  · obtain ⟨i, hi⟩ := mem_iff_getElem?.mp hinit
    obtain ⟨type, -, htype⟩ := exists_of_forall₂ hm.inits hi
    exact htype.imported
  · obtain ⟨segment, hsegment, hitem⟩ := mem_flatMap.mp hitem
    have hfits := hm.elements segment (Array.mem_toList_iff.mp hsegment)
    exact (hfits.items _ (Array.mem_toList_iff.mp hitem)).imported
  · obtain ⟨mode, hmode, hactive⟩ := mem_filterMap.mp hoffset
    split at hactive
    · next table offset =>
        cases hactive
        rcases mem_append.mp hmode with hmode | hmode
        · obtain ⟨segment, hsegment, hmode⟩ := mem_map.mp hmode
          have hfits := hm.elements segment (Array.mem_toList_iff.mp hsegment)
          exact (hfits.active _ _ hmode).2.imported
        · obtain ⟨segment, hsegment, hmode⟩ := mem_map.mp hmode
          have hfits := hm.data segment (Array.mem_toList_iff.mp hsegment)
          exact (hfits _ _ hmode).2.imported
    · cases hactive

/-! ## The new instance -/

theorem Instance.denotes {inst : Instance} {i : Nat} {addr : GlobalAddr}
    (hsize : inst.importedGlobals.size = inst.module.spaces.importedGlobals)
    (ha : (inst.importedGlobals ++ inst.definedGlobals)[i]? = some addr) :
    inst.Denotes inst.module i addr := by
  refine ⟨fun ctx stack e hctx => ⟨inst.module.spaces.globalRef i,
    Instance.global?_globalRef hsize ha, ?_, ?_⟩, ?_, ?_⟩
  · exact hctx ▸ rfl
  · exact hctx ▸ rfl
  · rintro name entry hentry hkind rfl
    rw [Array.getElem?_append] at ha
    simp only [export?, hentry, hkind, Option.bind_eq_bind, Option.bind_some]
    split at ha
    · next hi => rw [if_pos hi, ha]; rfl
    · next hi => rw [if_neg hi, ha]; rfl
  · intro hi s g hg
    rw [Array.getElem?_append_left (hsize.symm ▸ hi)] at ha
    simp only [ConstExpr.eval, ha, hg]

namespace Store

variable {options : CompileOptions} {binary : ByteArray} {m : Module} {bindings : List Binding}
  {limit : Nat} {inst : Instance} {addr : InstanceAddr} {s s1 s' : Store}

theorem allocate_realizes (hm : Module.compile options binary = .ok m)
    (h : s.allocate m bindings limit = .ok (inst, addr, s1)) :
    inst.Realizes m bindings addr s s1 := by
  have hwf := Module.wellFormed_of_compile hm
  have hl := Module.lowered_of_compile hm
  obtain ⟨r, tables, memories, hr, ht, hmem, hresult⟩ := allocate_eq_addInstance h
  rw [addInstance_eq] at hresult
  cases hresult
  have hfuncs := hr.behind_funcs hwf ⟨s.instances.size⟩
  have htables := hr.behind_tables hwf ht
  have hmemories := hr.behind_memories hwf hmem
  have hglobals := hr.behind_globals hwf
    (r.funcs ++ freshAddrs FuncAddr.mk s.funcs.size m.functions.size) ⟨s.instances.size⟩
  refine ⟨rfl, hfuncs.size, ?_, htables.size, ?_, hmemories.size, ?_, ?_, ?_,
    fun i hi => hwf.toConsistent.constants hi⟩
  · intro i addr ha
    obtain ⟨typeIndex, hindex⟩ := hfuncs.exists_item ha
    obtain ⟨func, hfunc, hknown⟩ := hfuncs.object hindex ha
    have htype := IndexSpaces.funcType_eq_ok.mpr ⟨typeIndex, hindex, hknown⟩
    refine ⟨func.type, htype, Option.map_eq_some_iff.mpr ⟨func, hfunc, rfl⟩, hfuncs.bound ha,
      fun hle => ?_⟩
    have haddr := hfuncs.fresh ha hle
    have hdefined : i - m.spaces.importedFuncs < m.functions.size := by
      have hlt := (Array.getElem?_eq_some_iff.mp hindex).1
      rw [hwf.defined, IndexSpaces.definedFuncs]
      omega
    have hbody := Array.getElem?_eq_getElem hdefined
    obtain ⟨ctx, accessors, accessors', -, hcompiles, -⟩ :=
      hl.compiles _ _ _ (getElem?_eq_getElem (hl.length ▸ hdefined)) hbody
    refine ⟨_, haddr, ?_, hbody, ?_⟩
    · rw [haddr, getElem?_append_add]
      exact Module.newFuncs_getElem? hdefined (by rwa [Nat.add_sub_cancel' hle])
    · rw [hcompiles.funcIndex_eq, Nat.add_sub_cancel' hle]
  · intro i addr ha
    obtain ⟨type, htype⟩ := htables.exists_item ha
    obtain ⟨t, ht, helement, hlimits⟩ := htables.object htype ha
    exact ⟨type, t, htype, ht, helement, hlimits, htables.bound ha, htables.fresh ha⟩
  · intro i addr ha
    obtain ⟨limits, hlimits⟩ := hmemories.exists_item ha
    obtain ⟨mem, hmem, hmatches⟩ := hmemories.object hlimits ha
    exact ⟨limits, mem, hlimits, hmem, hmatches, hmemories.bound ha, hmemories.fresh ha⟩
  · rw [← Array.size_append]
    exact hglobals.size
  · intro i type htype
    obtain ⟨addr, ha⟩ := hglobals.exists_address htype
    obtain ⟨g, hg, rfl⟩ := hglobals.object htype ha
    refine ⟨addr, Instance.denotes ?_ ha, ?_, hglobals.bound ha, hglobals.fresh ha⟩
    · exact hwf.listed.globals.size_given ImportDesc.isSome_global? hr.globals
    · rw [globalType?, Array.getElem?_map, hg]
      rfl

theorem realizes_later (h : inst.Realizes m bindings addr s s1)
    (hagrees : s1.Agrees s') (hgrows : s1.Develops s') : inst.Realizes m bindings addr s s' := by
  refine { h with func := ?_, table := ?_, memory := ?_, global := ?_ }
  · intro i a ha
    rw [hagrees.funcType?, hagrees.funcs]
    exact h.func i a ha
  · intro i a ha
    obtain ⟨type, t, htype, ht, helement, hlimits, hrest⟩ := h.table i a ha
    obtain ⟨table, ht', hchanges⟩ := hgrows.tables a t ht
    obtain ⟨hmax, hsize⟩ := Table.grows_of_changes hchanges
    exact ⟨type, _, htype, ht', helement, Limits.matchesDeclared_mono hlimits hsize hmax, hrest⟩
  · intro i a ha
    obtain ⟨limits, mem, hlim, hmem, hlimits, hrest⟩ := h.memory i a ha
    obtain ⟨mem', hmem', hchanges⟩ := hgrows.memories a mem hmem
    obtain ⟨hmax, -, hcount⟩ := Memory.grows_of_changes hchanges
    exact ⟨limits, mem', hlim, hmem', Limits.matchesDeclared_mono hlimits hcount hmax, hrest⟩
  · intro i type htype
    obtain ⟨a, hdenotes, hglobal, hrest⟩ := h.global i type htype
    rw [globalType?, ← hagrees.globals] at hglobal
    exact ⟨a, hdenotes, hglobal, hrest⟩

theorem instantiate_eq_ok {fuel : Nat} (h : s.instantiate fuel m bindings limit = (.ok addr, s')) :
    ∃ inst s1, s.allocate m bindings limit = .ok (inst, addr, s1) ∧ s1.Agrees s' ∧
      s1.Develops s' := by
  obtain ⟨inst, s1, s2, values, hallocate, happly, hrun, -⟩ := exists_of_instantiate h
  have htouched := inst.works_applySegments.ok happly
  have hagrees := inst.runStart_agrees fuel s2
  have hdevelops := inst.runStart_along Develops.refl .trans Machine.step_develops fuel s2
  rw [hrun] at hagrees hdevelops
  exact ⟨inst, s1, hallocate, htouched.agrees.trans hagrees, htouched.develops.trans hdevelops⟩

/-- **The index spaces of an instance agree with its module**: behind each index is the item bound
    to the import of its number or a new one, of the declared type, and all uses of a global index
    mean the same global. -/
theorem instantiate_realizes {fuel : Nat} (hm : Module.compile options binary = .ok m)
    (h : s.instantiate fuel m bindings limit = (.ok addr, s')) :
    ∃ inst, s'.instance? addr = some inst ∧ inst.Realizes m bindings addr s s' := by
  obtain ⟨inst, s1, hallocate, hagrees, hgrows⟩ := instantiate_eq_ok h
  refine ⟨inst, ?_, realizes_later (allocate_realizes hm hallocate) hagrees hgrows⟩
  obtain ⟨r, tables, memories, -, -, -, hresult⟩ := allocate_eq_addInstance hallocate
  rw [addInstance_eq] at hresult
  cases hresult
  rw [hagrees.instance?, instance?_of_push rfl, if_pos rfl]

def mixedImports : ByteArray :=
  ⟨#[0x00, 0x61, 0x73, 0x6D, 0x01, 0x00, 0x00, 0x00, 0x01, 0x04, 0x01, 0x60, 0x00, 0x00,
    0x02, 0x24, 0x05, 0x01, 0x6D, 0x01, 0x67, 0x03, 0x7F, 0x00,
    0x01, 0x6D, 0x01, 0x66, 0x00, 0x00,
    0x01, 0x6D, 0x01, 0x74, 0x01, 0x70, 0x00, 0x01,
    0x01, 0x6D, 0x01, 0x6D, 0x02, 0x00, 0x00,
    0x01, 0x6D, 0x01, 0x68, 0x03, 0x7F, 0x00,
    0x03, 0x02, 0x01, 0x00,
    0x06, 0x06, 0x01, 0x7F, 0x00, 0x23, 0x01, 0x0B,
    0x07, 0x09, 0x02, 0x01, 0x78, 0x03, 0x02, 0x01, 0x79, 0x03, 0x00,
    0x0A, 0x0A, 0x01, 0x08, 0x00, 0x23, 0x02, 0x1A, 0x23, 0x00, 0x1A, 0x0B]⟩

def oneOfEach : Store :=
  { Store.empty with
    funcs := #[.host .nullary fun _ => .answer []]
    tables := #[⟨.funcRef, ⟨#[none], none⟩⟩]
    memories := #[⟨#[], none, 1⟩]
    globals := #[⟨⟨.i32, false⟩, .i32 5, none⟩, ⟨⟨.i32, false⟩, .i32 6, none⟩] }

def mixedBindings : List Binding :=
  [⟨"m", "h", .global ⟨1⟩⟩, ⟨"m", "g", .global ⟨0⟩⟩, ⟨"m", "m", .memory ⟨0⟩⟩,
    ⟨"m", "t", .table ⟨0⟩⟩, ⟨"m", "f", .func ⟨0⟩⟩]

/-- The third global is the one behind the two that were there. -/
theorem instantiate_mixedImports : ∃ (m : Module) (inst : Instance) (s' : Store)
    (type : GlobalType) (addr : GlobalAddr),
    Module.compile .standard mixedImports = .ok m ∧
    oneOfEach.instantiate 0 m mixedBindings 16 = (.ok ⟨0⟩, s') ∧
    inst.Realizes m mixedBindings ⟨0⟩ oneOfEach s' ∧
    m.spaces.globals[2]? = some type ∧ inst.Denotes m 2 addr ∧ addr.index = 2 := by
  have hrun : ∃ m, Module.compile .standard mixedImports = .ok m ∧
      ∃ s', oneOfEach.instantiate 0 m mixedBindings 16 = (.ok ⟨0⟩, s') ∧
        m.spaces.importedGlobals = 2 ∧ m.spaces.globals[2]? = some ⟨.i32, false⟩ := by
    decide +kernel
  obtain ⟨m, hm, s', hinstantiate, himported, htype⟩ := hrun
  obtain ⟨inst, -, hrealizes⟩ := instantiate_realizes hm hinstantiate
  obtain ⟨a, hdenotes, -, -, hnew⟩ := hrealizes.global 2 _ htype
  have hlast := hnew (Nat.le_of_eq himported)
  rw [himported] at hlast
  exact ⟨m, inst, s', _, a, hm, hinstantiate, hrealizes, htype, hdenotes, hlast⟩

end Store

end Wasm
