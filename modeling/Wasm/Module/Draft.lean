import Wasm.Binary.Section
import Wasm.Memory
import Wasm.Module.Basic
import Wasm.Module.Body
import Wasm.Table

/-! # The entries of a module's sections

An entry is judged by what was read before it. -/

namespace Wasm

/-- Bounds and choices for reading a module. -/
structure CompileOptions where
  maxPages : Nat
  accessors : Bool
deriving DecidableEq, Inhabited

namespace CompileOptions

def standard : CompileOptions := ⟨Wasm.maxPages, true⟩

def pageCap (options : CompileOptions) : Nat := min options.maxPages Wasm.maxPages

end CompileOptions

/-- A module of which some sections have been read. -/
structure Draft where
  module : Module
  dataCount : Option Nat
  dataSeen : Bool
  dataRefs : Array (Nat × Nat)
deriving Inhabited

namespace Decode

def funcType : Decode FuncType := do
  let at_ ← position
  let form ← byte
  if form ≠ 0x60 then fail (.invalidTypeForm form) at_
  return ⟨← valueTypes, ← valueTypes⟩

def tableType : Decode TableType := do
  let element ← refType
  let at_ ← position
  let limits ← limits
  if limits.min > maxTableEntries then
    fail (.limitExceeded "table elements" limits.min maxTableEntries) at_
  return ⟨element, limits⟩

def memoryType (cap : Nat) : Decode Limits := do
  let at_ ← position
  let limits ← limits
  if limits.min > cap then fail (.limitExceeded "memory pages" limits.min cap) at_
  match limits.max with
  | some max => if max > cap then fail (.limitExceeded "memory pages" max cap) at_
  | none => pure ()
  return limits

def globalType : Decode GlobalType := do
  let content ← valueType
  let at_ ← position
  let flag ← byte
  if flag = 0 then pure ⟨content, false⟩
  else if flag = 1 then pure ⟨content, true⟩
  else fail (.invalidMutability flag) at_

def constInstr (spaces : IndexSpaces) (globals : Bool) : Decode (ConstExpr × ValueType) := do
  let at_ ← position
  match (← byte).toNat with
  | 0x41 => return (.i32 (BitVec.ofInt 32 (← s32)), .i32)
  | 0x42 => return (.i64 (BitVec.ofInt 64 (← s64)), .i64)
  | 0x43 => return (.f32 (← f32), .f32)
  | 0x44 => return (.f64 (← f64), .f64)
  | 0xD0 =>
    let type ← refType
    return (.refNull type, type)
  | 0xD2 =>
    let func ← u32
    let _ ← charge at_ (spaces.funcType func)
    return (.refFunc func, .funcRef)
  | 0x23 =>
    if !globals then fail .invalidConstExpr at_
    let index ← u32
    let global ← charge at_ (spaces.global index)
    if !spaces.isImportedGlobal index || global.mutable then fail .invalidConstExpr at_
    return (.globalGet index, global.content)
  | _ => fail .invalidConstExpr at_

def constExpr (spaces : IndexSpaces) (expected : ValueType) (globals : Bool) :
    Decode ConstExpr := do
  let at_ ← position
  let (expr, found) ← constInstr spaces globals
  if (← byte) ≠ 0x0B then fail .invalidConstExpr at_
  if found ≠ expected then fail (.typeMismatch expected found) at_
  return expr

def itemKind (fault : UInt8 → Fault) : Decode ItemKind := do
  let at_ ← position
  let code ← byte
  match code.toNat with
  | 0 => return .func
  | 1 => return .table
  | 2 => return .memory
  | 3 => return .global
  | _ => fail (fault code) at_

end Decode

namespace Draft

open Decode

def empty (options : CompileOptions) : Draft := ⟨.empty options.pageCap, none, false, #[]⟩

def spaces (d : Draft) : IndexSpaces := d.module.spaces

def withSpaces (d : Draft) (spaces : IndexSpaces) : Draft :=
  { d with module := { d.module with spaces } }

def readType (d : Draft) : Decode Draft :=
  return d.withSpaces (d.spaces.addType (← funcType))

def readImportDesc (d : Draft) : Decode (ImportDesc × IndexSpaces) := do
  let at_ ← position
  match ← itemKind .invalidImportKind with
  | .func =>
    let typeIndex ← u32
    return (.func typeIndex, ← charge at_ (d.spaces.addFunc typeIndex true))
  | .table =>
    let type ← tableType
    return (.table type, d.spaces.addTable type true)
  | .memory =>
    let limits ← memoryType d.module.pageCap
    return (.memory limits, d.spaces.addMemory limits true)
  | .global =>
    let type ← globalType
    return (.global type, d.spaces.addGlobal type true)

def readImport (d : Draft) : Decode Draft := do
  let module ← name
  let name ← name
  let (desc, spaces) ← d.readImportDesc
  return { d with
    module := { d.module with spaces, imports := d.module.imports.push ⟨module, name, desc⟩ } }

def readFunction (d : Draft) : Decode Draft := do
  let at_ ← position
  let typeIndex ← u32
  return d.withSpaces (← charge at_ (d.spaces.addFunc typeIndex false))

def readTable (d : Draft) : Decode Draft :=
  return d.withSpaces (d.spaces.addTable (← tableType) false)

def readMemory (d : Draft) : Decode Draft :=
  return d.withSpaces (d.spaces.addMemory (← memoryType d.module.pageCap) false)

def readGlobal (d : Draft) : Decode Draft := do
  let type ← globalType
  let init ← constExpr d.spaces type.content true
  return { d with
    module :=
      { d.module with
        spaces := d.spaces.addGlobal type false
        globalInits := d.module.globalInits.push init } }

def requireItem (spaces : IndexSpaces) (index : Nat) : ItemKind → Except Fault Unit
  | .func => do let _ ← spaces.funcType index
  | .table => do let _ ← spaces.table index
  | .memory => do let _ ← spaces.memory index
  | .global => do let _ ← spaces.global index

def readExport (d : Draft) : Decode Draft := do
  let at_ ← position
  let name ← name
  if (d.module.findExport? name).isSome then fail (.duplicateExport name) at_
  let kind ← itemKind .invalidExportKind
  let indexAt ← position
  let index ← u32
  charge indexAt (requireItem d.spaces index kind)
  return { d with module := { d.module with exports := d.module.exports.push ⟨name, kind, index⟩ } }

def readStart (d : Draft) : Decode Draft := do
  let at_ ← position
  let index ← u32
  let type ← charge at_ (d.spaces.funcType index)
  if type ≠ .nullary then fail .invalidStartFunction at_
  return { d with module := { d.module with start := some index } }

def readElementMode (d : Draft) (flags : Nat) : Decode SegmentMode := do
  if flags.testBit 0 then
    pure (if flags.testBit 1 then .declarative else .passive)
  else
    let table ← if flags.testBit 1 then u32 else pure 0
    return .active table (← constExpr d.spaces .i32 false)

def readElementType (flags : Nat) : Decode ValueType := do
  if flags = 0 ∨ flags = 4 then
    pure .funcRef
  else if flags.testBit 2 then
    refType
  else
    let at_ ← position
    let kind ← byte
    if kind = 0 then pure .funcRef else fail (.invalidRefType kind) at_

def requireElementTable (spaces : IndexSpaces) (type : ValueType) : SegmentMode → Except Fault Unit
  | .active index _ => do
    let table ← spaces.table index
    if table.element = type then .ok () else .error (.typeMismatch table.element type)
  | _ => .ok ()

def readElementItem (d : Draft) (type : ValueType) (expressions : Bool) : Decode ConstExpr := do
  if expressions then
    constExpr d.spaces type false
  else
    let at_ ← position
    let func ← u32
    let _ ← charge at_ (d.spaces.funcType func)
    return .refFunc func

def readElement (d : Draft) : Decode Draft := do
  let at_ ← position
  let flags ← u32
  if flags > 7 then fail (.invalidSegmentFlags flags) at_
  let mode ← d.readElementMode flags
  let type ← readElementType flags
  charge at_ (requireElementTable d.spaces type mode)
  let items ← many (← u32) (d.readElementItem type (flags.testBit 2))
  return { d with
    module := { d.module with elements := d.module.elements.push ⟨type, items.toArray, mode⟩ } }

def bodyContext (options : CompileOptions) (d : Draft) : BodyContext where
  spaces := d.spaces
  locals := #[]
  elemTypes := d.module.elements.map (·.type)
  dataCount := d.dataCount
  useAccessors := options.accessors

def readCode (ctx : BodyContext) (d : Draft) : Decode Draft := do
  let range ← sub (← u32)
  let index := ctx.spaces.importedFuncs + d.module.functions.size
  let (func, accessors, dataRefs) ← within range (body ctx index d.module.accessors d.dataRefs)
  return { d with
    module := { d.module with functions := d.module.functions.push func, accessors }
    dataRefs }

def readDataMode (d : Draft) : Decode SegmentMode := do
  let at_ ← position
  let flags ← u32
  match flags with
  | 0 | 2 =>
    let memory ← if flags = 2 then u32 else pure 0
    let _ ← charge at_ (d.spaces.memory memory)
    return .active memory (← constExpr d.spaces .i32 false)
  | 1 => return .passive
  | _ => fail (.invalidSegmentFlags flags) at_

def readData (d : Draft) : Decode Draft := do
  let mode ← d.readDataMode
  let contents ← bytes (← u32)
  return { d with module := { d.module with data := d.module.data.push ⟨contents, mode⟩ } }

def readCodeSection (options : CompileOptions) (d : Draft) : Decode Draft := do
  let at_ ← position
  let count ← u32
  if count ≠ d.spaces.definedFuncs then fail .functionCountMismatch at_
  fold (readCode (d.bodyContext options)) count d

def readDataSection (d : Draft) : Decode Draft := do
  let at_ ← position
  let count ← u32
  match d.dataCount with
  | some expected => if expected ≠ count then fail .dataCountMismatch at_
  | none => pure ()
  fold readData count { d with dataSeen := true }

def readSection (options : CompileOptions) (d : Draft) : Section → Decode Draft
  | .custom => pure d
  | .type => do fold readType (← u32) d
  | .imports => do fold readImport (← u32) d
  | .function => do fold readFunction (← u32) d
  | .table => do fold readTable (← u32) d
  | .memory => do fold readMemory (← u32) d
  | .global => do fold readGlobal (← u32) d
  | .exports => do fold readExport (← u32) d
  | .start => d.readStart
  | .element => do fold readElement (← u32) d
  | .dataCount => return { d with dataCount := some (← u32) }
  | .code => d.readCodeSection options
  | .data => d.readDataSection

end Draft

end Wasm
