import Wasm.Proofs.Machine.Frames
import Wasm.Proofs.Module.WellFormed

/-! # Stores that host instances

Behind each index of a module there is an object of its type (`Store.Hosts`). -/

namespace Wasm

/-- An entry of this type. -/
def Ref.Of (element : ValueType) : Option Ref → Prop
  | none => True
  | some (.func _) => element = .funcRef
  | some (.host _) => element = .externRef

/-! ## More objects -/

/-- Another store has the same objects and maybe more. -/
structure Store.Extends (s s' : Store) : Prop where
  funcs : s.funcs.toList <+: s'.funcs.toList
  tables : (s.tables.map TableInst.element).toList <+: (s'.tables.map TableInst.element).toList
  memories : s.memories.size ≤ s'.memories.size
  globals : (s.globals.map GlobalInst.type).toList <+: (s'.globals.map GlobalInst.type).toList
  elems : s.elems.size ≤ s'.elems.size
  data : s.data.size ≤ s'.data.size

namespace Store.Extends

variable {s s' s'' : Store}

theorem trans (h : s.Extends s') (h' : s'.Extends s'') : s.Extends s'' where
  funcs := h.funcs.trans h'.funcs
  tables := h.tables.trans h'.tables
  memories := Nat.le_trans h.memories h'.memories
  globals := h.globals.trans h'.globals
  elems := Nat.le_trans h.elems h'.elems
  data := Nat.le_trans h.data h'.data

theorem of_agrees (h : s.Agrees s') : s.Extends s' where
  funcs := h.funcs ▸ List.prefix_rfl
  tables := h.tables ▸ List.prefix_rfl
  memories := Nat.le_of_eq h.memories.symm
  globals := h.globals ▸ List.prefix_rfl
  elems := Nat.le_of_eq h.elems.symm
  data := Nat.le_of_eq h.data.symm

theorem funcType? (h : s.Extends s') {addr : FuncAddr} {type : FuncType}
    (ht : s.funcType? addr = some type) : s'.funcType? addr = some type := by
  obtain ⟨func, hfunc, rfl⟩ := Option.map_eq_some_iff.mp ht
  exact Option.map_eq_some_iff.mpr ⟨func, getElem?_mono h.funcs hfunc, rfl⟩

end Store.Extends

/-! ## Instances and their objects -/

namespace Store

/-- The type of the entries of a table. -/
def element? (s : Store) (addr : TableAddr) : Option ValueType :=
  (s.tables.map TableInst.element)[addr.index]?

def globalType? (s : Store) (addr : GlobalAddr) : Option GlobalType :=
  (s.globals.map GlobalInst.type)[addr.index]?

end Store

/-- Behind each index is an object of its type. -/
structure Instance.Placed (inst : Instance) (s : Store) : Prop where
  funcs : ∀ (index : Nat) (type : FuncType), inst.module.spaces.funcType index = .ok type →
    ∃ addr, inst.funcs[index]? = some addr ∧ s.funcType? addr = some type
  tables : ∀ (index : Nat) (type : TableType), inst.module.spaces.tables[index]? = some type →
    ∃ addr, inst.tables[index]? = some addr ∧ s.element? addr = some type.element
  memories : ∀ (index : Nat) (limits : Limits), inst.module.spaces.memories[index]? = some limits →
    ∃ addr, inst.memories[index]? = some addr ∧ addr.index < s.memories.size
  globals : ∀ (index : Nat) (type : GlobalType), inst.module.spaces.globals[index]? = some type →
    ∃ addr, inst.global? (inst.module.spaces.globalRef index) = some addr ∧
      s.globalType? addr = some type
  elems : ∀ (index : Nat) (segment : ElementSegment), inst.module.elements[index]? = some segment →
    ∃ addr, inst.elems[index]? = some addr ∧ addr.index < s.elems.size
  data : ∀ (index : Nat) (segment : DataSegment), inst.module.data[index]? = some segment →
    ∃ addr, inst.data[index]? = some addr ∧ addr.index < s.data.size

theorem Instance.Placed.extend {inst : Instance} {s s' : Store} (h : inst.Placed s)
    (he : s.Extends s') : inst.Placed s' where
  funcs index type ht := by
    obtain ⟨addr, haddr, hfunc⟩ := h.funcs index type ht
    exact ⟨addr, haddr, he.funcType? hfunc⟩
  tables index type ht := by
    obtain ⟨addr, haddr, htable⟩ := h.tables index type ht
    exact ⟨addr, haddr, getElem?_mono he.tables htable⟩
  memories index limits hl := by
    obtain ⟨addr, haddr, hlt⟩ := h.memories index limits hl
    exact ⟨addr, haddr, Nat.lt_of_lt_of_le hlt he.memories⟩
  globals index type ht := by
    obtain ⟨addr, haddr, hglobal⟩ := h.globals index type ht
    exact ⟨addr, haddr, getElem?_mono he.globals hglobal⟩
  elems index segment hs := by
    obtain ⟨addr, haddr, hlt⟩ := h.elems index segment hs
    exact ⟨addr, haddr, Nat.lt_of_lt_of_le hlt he.elems⟩
  data index segment hs := by
    obtain ⟨addr, haddr, hlt⟩ := h.data index segment hs
    exact ⟨addr, haddr, Nat.lt_of_lt_of_le hlt he.data⟩

/-! ## Stores and their instances -/

/-- A function has the type that its module gives it. -/
def Store.Owns (s : Store) : FuncInst → Prop
  | .wasm type home index => home.index < s.instances.size ∧
      ∀ inst, s.instance? home = some inst → index < inst.module.functions.size ∧
        inst.module.spaces.funcType (inst.module.spaces.importedFuncs + index) = .ok type
  | .host _ _ => True

/-- Its instances come from accepted binaries and have their objects. -/
structure Store.Hosts (binaries : InstanceAddr → ByteArray) (s : Store) : Prop where
  compiled : ∀ (addr : InstanceAddr) (inst : Instance), s.instance? addr = some inst →
    ∃ options, Module.compile options (binaries addr) = .ok inst.module
  placed : ∀ (addr : InstanceAddr) (inst : Instance), s.instance? addr = some inst → inst.Placed s
  owned : ∀ func ∈ s.funcs, s.Owns func

theorem Store.Hosts.agrees {binaries : InstanceAddr → ByteArray} {s s' : Store}
    (h : s.Hosts binaries) (ha : s.Agrees s') : s'.Hosts binaries where
  compiled addr inst hinst := h.compiled addr inst (ha.instance? addr ▸ hinst)
  placed addr inst hinst := (h.placed addr inst (ha.instance? addr ▸ hinst)).extend (.of_agrees ha)
  owned func hf := by
    have := h.owned func (ha.funcs ▸ hf)
    cases func with
    | host => trivial
    | wasm type home index =>
      refine ⟨ha.instances ▸ this.1, fun inst hinst => this.2 inst (ha.instance? home ▸ hinst)⟩

end Wasm
