import Wasm.Host
import Wasm.Instantiate
import Wasm.Module.Compile
import Wasm.Store.Reachable

/-! # Sessions

A store with names for what the host holds.  A command that fails changes no names. -/

namespace Wasm

/-- Why a command of a session fails. -/
inductive SessionError where
  | noHandle
  | compile (error : CompileError)
  | instantiation (error : InstantiationError)
  | invoke (error : InvokeError)
  | trap (trap : Trap)
  | outOfFuel

/-- A store and the names of what the host holds. -/
structure Session where
  store : Store
  modules : List (String × Module)
  instances : List (String × InstanceAddr)
  funcs : List (String × FuncAddr)
  memories : List (String × MemoryAddr)
  tables : List (String × TableAddr)
  globals : List (String × GlobalAddr)
deriving Inhabited

abbrev SessionM := EStateM SessionError Session

namespace Session

def empty : Session := ⟨.empty, [], [], [], [], [], []⟩

def rename {α : Type} (name : String) (a : α) (names : List (String × α)) : List (String × α) :=
  (name, a) :: names.filter (·.1 != name)

def forget {α : Type} (name : String) (names : List (String × α)) : List (String × α) :=
  names.filter (·.1 != name)

def find {α : Type} (name : String) (names : List (String × α)) : SessionM α :=
  match names.lookup name with
  | some a => pure a
  | none => throw .noHandle

def settle (s : Session) : Session :=
  let owners := s.globals.filterMap fun (_, addr) => s.store.ownerOf? addr
  { s with store := s.store.retain (s.instances.map (·.2) ++ owners) }

@[inline]
def onStore {α : Type} (change : Store → α × Store) : SessionM α := do
  let s ← get
  let store := s.store
  set { s with store := default }
  let (a, store) := change store
  modify fun s => { s with store }
  return a

@[inline]
def trapping {α : Type} (change : StoreM α) : SessionM α := do
  let result ← onStore fun store =>
    match change store with
    | .ok a store => (Except.ok a, store)
    | .error t store => (Except.error t, store)
  match result with
  | .ok a => pure a
  | .error t => throw (.trap t)

def addModule (name : String) (options : CompileOptions) (binary : ByteArray) :
    SessionM Module := do
  match Module.compile options binary with
  | .error e => throw (.compile e)
  | .ok m =>
    modify fun s => { s with modules := rename name m s.modules }
    return m

def item (s : Session) (name : String) : Option Item :=
  (s.funcs.lookup name).map .func <|> (s.tables.lookup name).map .table <|>
    (s.memories.lookup name).map .memory <|> (s.globals.lookup name).map .global

def bindings : List (String × String × String) → SessionM (List Binding)
  | [] => pure []
  | (module, name, handle) :: rest => do
    match (← get).item handle with
    | some item => return ⟨module, name, item⟩ :: (← bindings rest)
    | none => throw .noHandle

def instantiate (fuel : Nat) (name module : String) (imports : List (String × String × String))
    (maxCallDepth : Nat) : SessionM Instance := do
  let m ← find module (← get).modules
  let bindings ← bindings imports
  match ← onStore fun store => store.instantiate fuel m bindings maxCallDepth with
  | .failed e => throw (.instantiation e)
  | .outOfFuel => throw .outOfFuel
  | .ok addr =>
    modify fun s => settle { s with instances := rename name addr s.instances }
    match (← get).store.instance? addr with
    | some inst => pure inst
    | none => throw .noHandle

def callFunc (fuel : Nat) (func : FuncAddr) (args : List Value) : SessionM (List Value) := do
  match (← get).store.funcType? func with
  | none => throw .noHandle
  | some type =>
    match argumentError? type.params args with
    | some e => throw (.invoke e)
    | none =>
      match ← onStore fun store => store.invoke fuel func args with
      | .results values => pure values
      | .trap t => throw (.invoke (.trap t))
      | .outOfFuel => throw .outOfFuel

def call (fuel : Nat) (func : String) (args : List Value) : SessionM (List Value) := do
  callFunc fuel (← find func (← get).funcs) args

def instanceOf (name : String) : SessionM Instance := do
  let addr ← find name (← get).instances
  match (← get).store.instance? addr with
  | some inst => pure inst
  | none => throw .noHandle

def lookUp (inst entry : String) : SessionM (Option Item) := do
  return (← instanceOf inst).export? entry

def invoke (fuel : Nat) (inst entry : String) (args : List Value) : SessionM (List Value) := do
  match ← lookUp inst entry with
  | none => throw (.invoke (.unknownExport entry))
  | some (.func func) => callFunc fuel func args
  | some _ => throw (.invoke (.notAFunction entry))

def exported? (s : Session) (inst entry : String) : Option Item := do
  (← s.store.instance? (← s.instances.lookup inst)).export? entry

def takeExport (inst entry name : String) : SessionM (Option Item) := do
  let found := (← get).exported? inst entry
  modify fun s => match found with
    | some (.func addr) => { s with funcs := rename name addr s.funcs }
    | some (.table addr) => { s with tables := rename name addr s.tables }
    | some (.memory addr) => { s with memories := rename name addr s.memories }
    | some (.global addr) => settle { s with globals := rename name addr s.globals }
    | none => s
  return found

def addHost (name : String) (type : FuncType) (body : List Value → HostProgram) :
    SessionM FuncAddr := do
  let addr ← onStore fun store => store.addFunc (.host type body)
  modify fun s => { s with funcs := rename name addr s.funcs }
  return addr

def addMemory (name : String) (limits : Limits) (pageCap : Nat) : SessionM Memory := do
  match Memory.create limits.min limits.max with
  | .error e => throw (.instantiation (.construction e))
  | .ok memory =>
    let memory := memory.withPageCap pageCap
    let addr ← onStore fun store => store.addMemory memory
    modify fun s => { s with memories := rename name addr s.memories }
    return memory

def addTable (name : String) (type : TableType) : SessionM TableInst := do
  match Table.create type.limits.min type.limits.max with
  | .error e => throw (.instantiation (.construction e))
  | .ok table =>
    let entry : TableInst := ⟨type.element, table⟩
    let addr ← onStore fun store => store.addTable entry
    modify fun s => { s with tables := rename name addr s.tables }
    return entry

def addGlobal (name : String) (type : GlobalType) (value : Value) : SessionM Unit := do
  let addr ← onStore fun store => store.addGlobal ⟨type, value, none⟩
  modify fun s => settle { s with globals := rename name addr s.globals }

def onMemory {α : Type} (memory : String) (op : MemoryM α) : SessionM α := do
  let addr ← find memory (← get).memories
  trapping (Store.onMemory addr op)

def memoryOf (memory : String) : SessionM Memory := onMemory memory get

def tableOf (table : String) : SessionM TableInst := do
  let addr ← find table (← get).tables
  match (← get).store.tables[addr.index]? with
  | some entry => pure entry
  | none => throw .noHandle

def onTable {α : Type} (table : String) (op : TableM Ref α) : SessionM α := do
  let addr ← find table (← get).tables
  trapping (Store.onTable addr op)

def tableGet (table : String) (index : Nat) : SessionM Value := do
  let entry ← tableOf table
  match entry.table.get index with
  | .ok ref => return Ref.toValue ref entry.element
  | .error t => throw (.trap t)

def tableSet (table : String) (index : Nat) (value : Value) : SessionM Unit :=
  onTable table (Table.set index (Ref.ofValue? value))

def tableGrow (table : String) (delta : Nat) (value : Value) : SessionM Int :=
  onTable table (Table.grow delta (Ref.ofValue? value))

def tableValues (table : String) : SessionM (List Value) := do
  let entry ← tableOf table
  return entry.table.entries.toList.map fun ref => Ref.toValue ref entry.element

def globalOf (global : String) : SessionM GlobalInst := do
  let addr ← find global (← get).globals
  match (← get).store.globals[addr.index]? with
  | some g => pure g
  | none => throw .noHandle

def globalSet (global : String) (value : Value) : SessionM Bool := do
  let addr ← find global (← get).globals
  let g ← globalOf global
  if g.type.mutable ∧ value.type? = some g.type.content then
    onStore fun store => ((), store.setGlobal addr value)
    return true
  else
    return false

def drop (name : String) : SessionM Unit :=
  modify fun s =>
    settle
      { s with
        modules := forget name s.modules
        instances := forget name s.instances
        funcs := forget name s.funcs
        memories := forget name s.memories
        tables := forget name s.tables
        globals := forget name s.globals }

def takeTrace : SessionM (Array HostEvent) := do
  let events := (← get).store.trace
  onStore fun store => (events, store.clearTrace)

end Session

end Wasm
