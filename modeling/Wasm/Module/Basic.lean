import Wasm.Bytecode.Accessor
import Wasm.Bytecode.Op
import Wasm.Module.IndexSpaces

/-! # Modules -/

namespace Wasm

/-- What an import asks for. -/
inductive ImportDesc where
  | func (typeIndex : Nat)
  | table (type : TableType)
  | memory (limits : Limits)
  | global (type : GlobalType)
deriving DecidableEq, Inhabited

def ImportDesc.kind : ImportDesc → ItemKind
  | func _ => .func
  | table _ => .table
  | memory _ => .memory
  | global _ => .global

/-- An import, found by two names. -/
structure Import where
  module : String
  name : String
  desc : ImportDesc
deriving DecidableEq, Inhabited

/-- An exported item of one of the index spaces. -/
structure Export where
  name : String
  kind : ItemKind
  index : Nat
deriving DecidableEq, Inhabited

/-- When and where the contents of a segment are used. -/
inductive SegmentMode where
  | active (index : Nat) (offset : ConstExpr)
  | passive
  | declarative
deriving DecidableEq, Inhabited

/-- References to be written to tables. -/
structure ElementSegment where
  type : ValueType
  items : Array ConstExpr
  mode : SegmentMode
deriving Inhabited

/-- Bytes to be written to memories. -/
structure DataSegment where
  bytes : ByteArray
  mode : SegmentMode
deriving Inhabited

/-- A module. -/
structure Module where
  spaces : IndexSpaces
  imports : Array Import
  exports : Array Export
  functions : Array CompiledFunction
  globalInits : Array ConstExpr
  elements : Array ElementSegment
  data : Array DataSegment
  accessors : Accessors
  start : Option Nat
  pageCap : Nat
deriving Inhabited

namespace Module

def empty (pageCap : Nat) : Module where
  spaces := .empty
  imports := #[]
  exports := #[]
  functions := #[]
  globalInits := #[]
  elements := #[]
  data := #[]
  accessors := .empty
  start := none
  pageCap := pageCap

def findExport? (m : Module) (name : String) : Option Export :=
  m.exports.find? (·.name == name)

end Module

end Wasm
