import Wasm.Fault
import Wasm.Instruction

/-! # Index spaces of a module

In each space but that of types the imported items come first. -/

namespace Wasm

/-- The index spaces of a module. -/
structure IndexSpaces where
  types : Array FuncType
  funcs : Array Nat
  tables : Array TableType
  memories : Array Limits
  globals : Array GlobalType
  importedFuncs : Nat
  importedTables : Nat
  importedMemories : Nat
  importedGlobals : Nat
deriving Inhabited

namespace IndexSpaces

def empty : IndexSpaces := ⟨#[], #[], #[], #[], #[], 0, 0, 0, 0⟩

def lookup {α : Type} (items : Array α) (index : Nat) (fault : Nat → Fault) : Except Fault α :=
  match items[index]? with
  | some item => .ok item
  | none => .error (fault index)

def typeAt (spaces : IndexSpaces) (index : Nat) : Except Fault FuncType :=
  lookup spaces.types index .invalidTypeIndex

def funcTypeIndex (spaces : IndexSpaces) (index : Nat) : Except Fault Nat :=
  lookup spaces.funcs index .invalidFunctionIndex

def funcType (spaces : IndexSpaces) (index : Nat) : Except Fault FuncType := do
  spaces.typeAt (← spaces.funcTypeIndex index)

def table (spaces : IndexSpaces) (index : Nat) : Except Fault TableType :=
  lookup spaces.tables index .invalidTableIndex

def memory (spaces : IndexSpaces) (index : Nat) : Except Fault Limits :=
  lookup spaces.memories index .invalidMemoryIndex

def global (spaces : IndexSpaces) (index : Nat) : Except Fault GlobalType :=
  lookup spaces.globals index .invalidGlobalIndex

def isImportedGlobal (spaces : IndexSpaces) (index : Nat) : Bool :=
  decide (index < spaces.importedGlobals)

def definedFuncs (spaces : IndexSpaces) : Nat := spaces.funcs.size - spaces.importedFuncs

def blockType (spaces : IndexSpaces) : BlockType → Except Fault FuncType
  | .empty => .ok ⟨[], []⟩
  | .value type => .ok ⟨[], [type]⟩
  | .func index => spaces.typeAt index

def addType (spaces : IndexSpaces) (type : FuncType) : IndexSpaces :=
  { spaces with types := spaces.types.push type }

def addFunc (spaces : IndexSpaces) (typeIndex : Nat) (imported : Bool) :
    Except Fault IndexSpaces := do
  let _ ← spaces.typeAt typeIndex
  return { spaces with
    funcs := spaces.funcs.push typeIndex
    importedFuncs := spaces.importedFuncs + imported.toNat }

def addTable (spaces : IndexSpaces) (type : TableType) (imported : Bool) : IndexSpaces :=
  { spaces with
    tables := spaces.tables.push type
    importedTables := spaces.importedTables + imported.toNat }

def addMemory (spaces : IndexSpaces) (limits : Limits) (imported : Bool) : IndexSpaces :=
  { spaces with
    memories := spaces.memories.push limits
    importedMemories := spaces.importedMemories + imported.toNat }

def addGlobal (spaces : IndexSpaces) (type : GlobalType) (imported : Bool) : IndexSpaces :=
  { spaces with
    globals := spaces.globals.push type
    importedGlobals := spaces.importedGlobals + imported.toNat }

end IndexSpaces

end Wasm
