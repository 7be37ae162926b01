import Mathlib.Data.List.Forall2
import Wasm.Proofs.Module.Drafts
import Wasm.Proofs.Validation.Body

/-! # What is known of an accepted module

Imported items come first, and constant expressions have the types asked of them. -/

namespace Wasm

theorem getElem?_mono {α : Type} {xs ys : Array α} (h : xs.toList <+: ys.toList) {i : Nat}
    {a : α} (ha : xs[i]? = some a) : ys[i]? = some a := by
  rw [← Array.getElem?_toList] at ha ⊢
  obtain ⟨hlt, rfl⟩ := List.getElem?_eq_some_iff.mp ha
  exact List.prefix_iff_getElem?.mp h i hlt

/-! ## Well-formed modules -/

/-- The type of a constant expression. -/
inductive ConstExpr.HasType (spaces : IndexSpaces) : ConstExpr → ValueType → Prop
  | i32 (value) : HasType spaces (.i32 value) .i32
  | i64 (value) : HasType spaces (.i64 value) .i64
  | f32 (bits) : HasType spaces (.f32 bits) .f32
  | f64 (bits) : HasType spaces (.f64 bits) .f64
  | refNull (type) : HasType spaces (.refNull type) type
  | refFunc {func type} (h : spaces.funcType func = .ok type) :
      HasType spaces (.refFunc func) .funcRef
  | globalGet {index global} (himported : index < spaces.importedGlobals)
      (h : spaces.globals[index]? = some global) : HasType spaces (.globalGet index) global.content

/-- An element segment and its table are of its type. -/
structure ElementSegment.Fits (spaces : IndexSpaces) (segment : ElementSegment) : Prop where
  items : ∀ item ∈ segment.items, item.HasType spaces segment.type
  active : ∀ index offset, segment.mode = .active index offset →
    (∃ table, spaces.tables[index]? = some table ∧ table.element = segment.type) ∧
      offset.HasType spaces .i32

def DataSegment.Fits (spaces : IndexSpaces) (segment : DataSegment) : Prop :=
  ∀ index offset, segment.mode = .active index offset →
    (∃ limits, spaces.memories[index]? = some limits) ∧ offset.HasType spaces .i32

/-- The first `n` items are the imported ones. -/
structure Imported {α : Type} (listed : List α) (items : Array α) (n : Nat) : Prop where
  le : n ≤ items.size
  eq : listed = items.toList.take n

namespace Imported

variable {α : Type} {listed : List α} {items : Array α} {n : Nat}

theorem length (h : Imported listed items n) : listed.length = n := by
  have := h.le
  rw [h.eq, List.length_take, Array.length_toList]
  omega

end Imported

namespace ImportDesc

/-- The type index of a function. -/
def func? : ImportDesc → Option Nat
  | func typeIndex => some typeIndex
  | _ => none

def table? : ImportDesc → Option TableType
  | table type => some type
  | _ => none

def memory? : ImportDesc → Option Limits
  | memory limits => some limits
  | _ => none

def global? : ImportDesc → Option GlobalType
  | global type => some type
  | _ => none

def addTo (spaces : IndexSpaces) : ImportDesc → IndexSpaces
  | func typeIndex => { spaces with
      funcs := spaces.funcs.push typeIndex, importedFuncs := spaces.importedFuncs + 1 }
  | table type => spaces.addTable type true
  | memory limits => spaces.addMemory limits true
  | global type => spaces.addGlobal type true

end ImportDesc

/-- The spaces list the items of imports first. -/
structure IndexSpaces.Lists (spaces : IndexSpaces) (descs : List ImportDesc) : Prop where
  funcs : Imported (descs.filterMap ImportDesc.func?) spaces.funcs spaces.importedFuncs
  tables : Imported (descs.filterMap ImportDesc.table?) spaces.tables spaces.importedTables
  memories : Imported (descs.filterMap ImportDesc.memory?) spaces.memories spaces.importedMemories
  globals : Imported (descs.filterMap ImportDesc.global?) spaces.globals spaces.importedGlobals

def Module.descs (m : Module) : List ImportDesc := m.imports.toList.map Import.desc

/-- What holds of a module being read. -/
structure Module.Consistent (m : Module) : Prop where
  funcTypes : ∀ index ∈ m.spaces.funcs, index < m.spaces.types.size
  tableTypes : ∀ table ∈ m.spaces.tables, table.element.isRef = true
  listed : m.spaces.Lists m.descs
  inits : List.Forall₂ (fun init type => init.HasType m.spaces type.content) m.globalInits.toList
    (m.spaces.globals.toList.drop m.spaces.importedGlobals)
  elements : ∀ segment ∈ m.elements, segment.Fits m.spaces
  data : ∀ segment ∈ m.data, segment.Fits m.spaces
  start : ∀ func, m.start = some func → m.spaces.funcType func = .ok .nullary

/-- What holds of a module that was accepted. -/
structure Module.WellFormed (m : Module) : Prop extends m.Consistent where
  defined : m.functions.size = m.spaces.definedFuncs

/-! ## What is judged -/

namespace Draft

theorem addFunc_eq_ok {spaces spaces' : IndexSpaces} {typeIndex : Nat} {imported : Bool} :
    spaces.addFunc typeIndex imported = .ok spaces' ↔ typeIndex < spaces.types.size ∧
      spaces' = { spaces with
        funcs := spaces.funcs.push typeIndex
        importedFuncs := spaces.importedFuncs + imported.toNat } := by
  unfold IndexSpaces.addFunc
  rw [except_bind_eq_ok]
  constructor
  · rintro ⟨type, htype, h⟩
    cases h
    exact ⟨(Array.getElem?_eq_some_iff.mp (IndexSpaces.lookup_eq_ok.mp htype)).1, rfl⟩
  · rintro ⟨hlt, rfl⟩
    exact ⟨_, IndexSpaces.lookup_eq_ok.mpr (Array.getElem?_eq_getElem hlt), rfl⟩

theorem requireElementTable_eq_ok {spaces : IndexSpaces} {type : ValueType} {mode : SegmentMode}
    (h : requireElementTable spaces type mode = .ok ()) {index : Nat} {offset : ConstExpr}
    (hm : mode = .active index offset) :
    ∃ table, spaces.tables[index]? = some table ∧ table.element = type := by
  subst hm
  obtain ⟨table, htable, h⟩ := except_bind_eq_ok.mp h
  split at h
  · next heq => exact ⟨table, IndexSpaces.lookup_eq_ok.mp htable, heq⟩
  · cases h

end Draft

end Wasm
