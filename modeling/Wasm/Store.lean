import Wasm.Memory
import Wasm.Module.Basic
import Wasm.Table
import Wasm.Value

/-! # The store

Two instances share an object when they list the same address. -/

namespace Wasm

/-- The address of a table. -/
structure TableAddr where
  index : Nat
deriving DecidableEq, Inhabited

/-- The address of a memory. -/
structure MemoryAddr where
  index : Nat
deriving DecidableEq, Inhabited

/-- The address of a global. -/
structure GlobalAddr where
  index : Nat
deriving DecidableEq, Inhabited

/-- The address of an element segment. -/
structure ElemAddr where
  index : Nat
deriving DecidableEq, Inhabited

/-- The address of a data segment. -/
structure DataAddr where
  index : Nat
deriving DecidableEq, Inhabited

/-- The address of an instance. -/
structure InstanceAddr where
  index : Nat
deriving DecidableEq, Inhabited

/-! ## References in tables -/

/-- What a table entry that is not null refers to. -/
inductive Ref where
  | func (func : FuncAddr)
  | host (id : BitVec 32)
deriving DecidableEq, Inhabited

namespace Ref

def ofValue? : Value → Option Ref
  | .funcRef f => f.map .func
  | .externRef id => id.map .host
  | _ => none

def toValue (entry : Option Ref) : ValueType → Value
  | .externRef =>
    match entry with
    | some (.host id) => .externRef (some id)
    | _ => .externRef none
  | _ =>
    match entry with
    | some (.func f) => .funcRef (some f)
    | _ => .funcRef none

end Ref

/-! ## Tables, globals and data segments -/

/-- A table and the type of its entries. -/
structure TableInst where
  element : ValueType
  table : Table Ref
deriving Inhabited

def TableInst.type (t : TableInst) : TableType := ⟨t.element, t.table.size, t.table.maximum⟩

def Memory.limits (m : Memory) : Limits := ⟨m.pageCount, m.maximum⟩

/-- A global and the instance that defines it, if any. -/
structure GlobalInst where
  type : GlobalType
  value : Value
  owner : Option InstanceAddr
deriving Inhabited

/-- A data segment. -/
structure DataInst where
  bytes : ByteArray
  dropped : Bool
deriving Inhabited

def DataInst.contents (d : DataInst) : ByteArray := if d.dropped then .empty else d.bytes

/-! ## Functions -/

/-- Something that a host function reports. -/
structure HostEvent where
  name : String
  values : List Value
deriving Inhabited

/-- What a host function finds in the store. -/
structure HostView where
  memories : Array Memory
  tables : Array TableInst
  globals : Array GlobalInst
deriving Inhabited

/-- A change that a host function makes. -/
inductive HostChange where
  | writeMemory (addr : MemoryAddr) (start : Nat) (bytes : List UInt8)
  | growMemory (addr : MemoryAddr) (delta : Nat)
  | setEntry (addr : TableAddr) (index : Nat) (entry : Option Ref)
  | growTable (addr : TableAddr) (delta : Nat) (entry : Option Ref)
  | setGlobal (addr : GlobalAddr) (value : Value)
deriving Inhabited

/-- What a host function does. -/
inductive HostProgram where
  /-- Ends with results. -/
  | answer (values : List Value)
  /-- Ends with a trap. -/
  | trap (trap : Trap)
  /-- Reports an event and goes on. -/
  | report (event : HostEvent) (next : HostProgram)
  /-- Goes on as it finds the store. -/
  | inspect (resume : HostView → HostProgram)
  /-- Makes a change and goes on. -/
  | change (change : HostChange) (next : HostProgram)
  /-- Calls a function and goes on with the outcome. -/
  | invoke (func : FuncAddr) (args : List Value)
      (resume : Except InvokeError (List Value) → HostProgram)

instance : Inhabited HostProgram := ⟨.answer []⟩

/-- A function. -/
inductive FuncInst where
  | wasm (type : FuncType) (home : InstanceAddr) (index : Nat)
  | host (type : FuncType) (body : List Value → HostProgram)

namespace FuncInst

instance : Inhabited FuncInst := ⟨.host .nullary fun _ => .answer []⟩

def type : FuncInst → FuncType
  | wasm type _ _ | host type _ => type

def describe : FuncInst → String
  | wasm type _ index => s!"func[{index}] {type.render}"
  | host type _ => "host " ++ type.render

end FuncInst

/-! ## Instances -/

/-- The addresses behind the index spaces of a module. -/
structure Instance where
  module : Module
  maxCallDepth : Nat
  funcs : Array FuncAddr
  tables : Array TableAddr
  memories : Array MemoryAddr
  importedGlobals : Array GlobalAddr
  definedGlobals : Array GlobalAddr
  elems : Array ElemAddr
  data : Array DataAddr
deriving Inhabited

def defaultCallDepth : Nat := 1024

def Instance.global? (inst : Instance) : GlobalRef → Option GlobalAddr
  | .imported index => inst.importedGlobals[index]?
  | .defined index => inst.definedGlobals[index]?

/-- Something that can be imported and exported. -/
inductive Item where
  | func (addr : FuncAddr)
  | table (addr : TableAddr)
  | memory (addr : MemoryAddr)
  | global (addr : GlobalAddr)
deriving DecidableEq, Inhabited

def Item.kind : Item → ItemKind
  | func _ => .func
  | table _ => .table
  | memory _ => .memory
  | global _ => .global

def Instance.export? (inst : Instance) (name : String) : Option Item := do
  let entry ← inst.module.findExport? name
  match entry.kind with
  | .func => Item.func <$> inst.funcs[entry.index]?
  | .table => Item.table <$> inst.tables[entry.index]?
  | .memory => Item.memory <$> inst.memories[entry.index]?
  | .global =>
    let imported := inst.importedGlobals.size
    if entry.index < imported then Item.global <$> inst.importedGlobals[entry.index]?
    else Item.global <$> inst.definedGlobals[entry.index - imported]?

/-! ## The store -/

/-- All objects that instances refer to. -/
structure Store where
  funcs : Array FuncInst
  tables : Array TableInst
  memories : Array Memory
  globals : Array GlobalInst
  elems : Array (Array (Option Ref))
  data : Array DataInst
  instances : Array (Option Instance)
  trace : Array HostEvent
deriving Inhabited

abbrev StoreM := EStateM Trap Store

namespace Store

def empty : Store := ⟨#[], #[], #[], #[], #[], #[], #[], #[]⟩

def instance? (s : Store) (addr : InstanceAddr) : Option Instance := s.instances[addr.index]?.join

def describeFunc (s : Store) (func : FuncAddr) : String :=
  match s.funcs[func.index]? with
  | some f => f.describe
  | none => ""

def funcType? (s : Store) (func : FuncAddr) : Option FuncType :=
  s.funcs[func.index]?.map FuncInst.type

def callDepth (s : Store) (func : FuncAddr) : Nat :=
  match s.funcs[func.index]? with
  | some (.wasm _ home _) =>
    match s.instance? home with
    | some inst => inst.maxCallDepth
    | none => defaultCallDepth
  | _ => defaultCallDepth

def addFunc (s : Store) (func : FuncInst) : FuncAddr × Store :=
  (⟨s.funcs.size⟩, { s with funcs := s.funcs.push func })

def addTable (s : Store) (table : TableInst) : TableAddr × Store :=
  (⟨s.tables.size⟩, { s with tables := s.tables.push table })

def addMemory (s : Store) (memory : Memory) : MemoryAddr × Store :=
  (⟨s.memories.size⟩, { s with memories := s.memories.push memory })

def addGlobal (s : Store) (global : GlobalInst) : GlobalAddr × Store :=
  (⟨s.globals.size⟩, { s with globals := s.globals.push global })

def addElem (s : Store) (entries : Array (Option Ref)) : ElemAddr × Store :=
  (⟨s.elems.size⟩, { s with elems := s.elems.push entries })

def addData (s : Store) (bytes : ByteArray) : DataAddr × Store :=
  (⟨s.data.size⟩, { s with data := s.data.push ⟨bytes, false⟩ })

def setGlobal (s : Store) (addr : GlobalAddr) (value : Value) : Store :=
  { s with globals := s.globals.modify addr.index fun g => { g with value } }

def dropElem (s : Store) (addr : ElemAddr) : Store :=
  { s with elems := s.elems.setIfInBounds addr.index #[] }

def dropData (s : Store) (addr : DataAddr) : Store :=
  { s with data := s.data.modify addr.index fun d => { d with dropped := true } }

def clearTrace (s : Store) : Store := { s with trace := #[] }

@[inline]
def onMemory {α : Type} (addr : MemoryAddr) (op : MemoryM α) : StoreM α := fun s =>
  let memories := s.memories
  let s := { s with memories := #[] }
  if h : addr.index < memories.size then
    let (memory, rest) := memories.swapAt addr.index default h
    match op memory with
    | .ok a memory => .ok a { s with memories := rest.setIfInBounds addr.index memory }
    | .error t memory => .error t { s with memories := rest.setIfInBounds addr.index memory }
  else
    .error .outOfBounds { s with memories }

@[inline]
def onTable {α : Type} (addr : TableAddr) (op : TableM Ref α) : StoreM α := fun s =>
  let tables := s.tables
  let s := { s with tables := #[] }
  if h : addr.index < tables.size then
    let (entry, rest) := tables.swapAt addr.index default h
    match op entry.table with
    | .ok a table => .ok a { s with tables := rest.setIfInBounds addr.index { entry with table } }
    | .error t table =>
      .error t { s with tables := rest.setIfInBounds addr.index { entry with table } }
  else
    .error .tableOutOfBounds { s with tables }

/-- What a host function finds in the store. -/
def hostView (s : Store) : HostView := ⟨s.memories, s.tables, s.globals⟩

def attempt {α : Type} (op : StoreM α) (s : Store) : Store :=
  match op s with
  | .ok _ s' => s'
  | .error _ _ => s

/-- The store after a change by a host function, which does nothing where it is refused. -/
def amend (s : Store) : HostChange → Store
  | .writeMemory addr start bytes => attempt (onMemory addr (Memory.write start bytes)) s
  | .growMemory addr delta => attempt (onMemory addr (Memory.grow delta)) s
  | .setEntry addr index entry => attempt (onTable addr (Table.set index entry)) s
  | .growTable addr delta entry => attempt (onTable addr (Table.grow delta entry)) s
  | .setGlobal addr value =>
    match s.globals[addr.index]? with
    | some g =>
      if g.type.mutable ∧ value.type? = some g.type.content then s.setGlobal addr value else s
    | none => s

end Store

end Wasm
