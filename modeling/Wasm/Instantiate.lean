import Wasm.Machine.Run

/-! # Instantiating a module

What segments and the start function did before a trap stays done. -/

namespace Wasm

/-- An item offered under two names. -/
structure Binding where
  module : String
  name : String
  item : Item
deriving Inhabited

def Binding.find? (bindings : List Binding) (module name : String) : Option Item :=
  (bindings.reverse.find? fun b => b.module == module && b.name == name).map Binding.item

/-- The addresses that imports were resolved to. -/
structure Resolved where
  funcs : Array FuncAddr
  tables : Array TableAddr
  memories : Array MemoryAddr
  globals : Array GlobalAddr
deriving Inhabited

namespace Resolved

def empty : Resolved := ⟨#[], #[], #[], #[]⟩

/-- One more item. -/
def push (r : Resolved) : Item → Resolved
  | .func addr => { r with funcs := r.funcs.push addr }
  | .table addr => { r with tables := r.tables.push addr }
  | .memory addr => { r with memories := r.memories.push addr }
  | .global addr => { r with globals := r.globals.push addr }

end Resolved

def Store.offers (s : Store) (types : Array FuncType) (desc : ImportDesc) (item : Item) : Bool :=
  match desc, item with
  | .func typeIndex, .func addr =>
    match types[typeIndex]? with
    | some declared => s.funcType? addr == some declared
    | none => false
  | .table declared, .table addr =>
    match s.tables[addr.index]? with
    | some t => t.element == declared.element && t.type.limits.matchesDeclared declared.limits
    | none => false
  | .memory declared, .memory addr =>
    match s.memories[addr.index]? with
    | some m => m.limits.matchesDeclared declared
    | none => false
  | .global declared, .global addr =>
    match s.globals[addr.index]? with
    | some g => g.type == declared
    | none => false
  | _, _ => false

def Store.resolve (s : Store) (types : Array FuncType) (bindings : List Binding) :
    List Import → Resolved → Except InstantiationError Resolved
  | [], r => .ok r
  | i :: imports, r =>
    match Binding.find? bindings i.module i.name with
    | none => .error (.unresolvedImport i.module i.name)
    | some item =>
      if s.offers types i.desc item then s.resolve types bindings imports (r.push item)
      else .error (.incompatibleImportType i.module i.name)

def ConstExpr.eval (s : Store) (funcs : Array FuncAddr) (globals : Array GlobalAddr) :
    ConstExpr → Value
  | .i32 value => .i32 value
  | .i64 value => .i64 value
  | .f32 bits => .f32 bits
  | .f64 bits => .f64 bits
  | .refNull type => .zero type
  | .refFunc func => .funcRef funcs[func]?
  | .globalGet index =>
    match globals[index]? with
    | some addr =>
      match s.globals[addr.index]? with
      | some g => g.value
      | none => .i32 0
    | none => .i32 0

def Store.addAll {α β : Type} (add : Store → β → α × Store) :
    List β → Store → Array α → Array α × Store
  | [], s, addrs => (addrs, s)
  | b :: bs, s, addrs =>
    let (addr, s) := add s b
    s.addAll add bs (addrs.push addr)

def Module.newTables (m : Module) : Except ConstructionError (List TableInst) :=
  (m.spaces.tables.toList.drop m.spaces.importedTables).mapM fun type => do
    return ⟨type.element, ← Table.create type.limits.min type.limits.max⟩

def Module.newMemories (m : Module) : Except ConstructionError (List Memory) :=
  (m.spaces.memories.toList.drop m.spaces.importedMemories).mapM fun limits => do
    return (← Memory.create limits.min limits.max).withPageCap m.pageCap

def Module.newFuncs (m : Module) (home : InstanceAddr) : List FuncInst :=
  (List.range m.functions.size).map fun index =>
    let type := match m.spaces.funcType (m.spaces.importedFuncs + index) with
      | .ok type => type
      | .error _ => .nullary
    .wasm type home index

def Module.newGlobals (m : Module) (s : Store) (funcs : Array FuncAddr)
    (imported : Array GlobalAddr) (home : InstanceAddr) : List GlobalInst :=
  (m.globalInits.toList.zip (m.spaces.globals.toList.drop m.spaces.importedGlobals)).map
    fun (init, type) => ⟨type, init.eval s funcs imported, some home⟩

def Store.addInstance (s : Store) (m : Module) (r : Resolved) (tables : List TableInst)
    (memories : List Memory) (maxCallDepth : Nat) : Instance × InstanceAddr × Store :=
  let home : InstanceAddr := ⟨s.instances.size⟩
  let (tables, s) := s.addAll addTable tables r.tables
  let (memories, s) := s.addAll addMemory memories r.memories
  let (funcs, s) := s.addAll addFunc (m.newFuncs home) r.funcs
  let globals := m.newGlobals s funcs r.globals home
  let entries := m.elements.toList.map fun segment =>
    segment.items.map fun item => Ref.ofValue? (item.eval s funcs r.globals)
  let (definedGlobals, s) := s.addAll addGlobal globals #[]
  let (elems, s) := s.addAll addElem entries #[]
  let (data, s) := s.addAll addData (m.data.toList.map DataSegment.bytes) #[]
  let inst : Instance :=
    { module := m
      maxCallDepth
      funcs
      tables
      memories
      importedGlobals := r.globals
      definedGlobals
      elems
      data }
  (inst, home, { s with instances := s.instances.push (some inst) })

def Store.allocate (s : Store) (m : Module) (bindings : List Binding) (maxCallDepth : Nat) :
    Except InstantiationError (Instance × InstanceAddr × Store) := do
  let r ← s.resolve m.spaces.types bindings m.imports.toList .empty
  match m.newTables, m.newMemories with
  | .error e, _ | .ok _, .error e => .error (.construction e)
  | .ok tables, .ok memories => .ok (s.addInstance m r tables memories maxCallDepth)

namespace Instance

def offset (inst : Instance) (s : Store) (expr : ConstExpr) : Nat :=
  (expr.eval s inst.funcs inst.importedGlobals).asI32.toNat

def applyElement (inst : Instance) (segment : ElementSegment) (addr : ElemAddr) : StoreM Unit := do
  match segment.mode with
  | .passive => pure ()
  | .declarative => modify (·.dropElem addr)
  | .active table offset =>
    let s ← get
    let entries := s.elems[addr.index]?.getD #[]
    match inst.tables[table]? with
    | none => throw .tableOutOfBounds
    | some tableAddr =>
      Store.onTable tableAddr (Table.init (inst.offset s offset) entries 0 entries.size)
      modify (·.dropElem addr)

def applyData (inst : Instance) (segment : DataSegment) (addr : DataAddr) : StoreM Unit := do
  match segment.mode with
  | .active memory offset =>
    match inst.memories[memory]? with
    | none => throw .outOfBounds
    | some memoryAddr =>
      let place := inst.offset (← get) offset
      Store.onMemory memoryAddr (Memory.init place segment.bytes 0 segment.bytes.size)
      modify (·.dropData addr)
  | _ => pure ()

def applyAll {α β : Type} (apply : α → β → StoreM Unit) : List (α × β) → StoreM Unit
  | [] => pure ()
  | (a, b) :: rest => do
    apply a b
    applyAll apply rest

def applySegments (inst : Instance) : StoreM Unit := do
  applyAll inst.applyElement (inst.module.elements.toList.zip inst.elems.toList)
  applyAll inst.applyData (inst.module.data.toList.zip inst.data.toList)

def runStart (fuel : Nat) (inst : Instance) (s : Store) : Outcome × Store :=
  match inst.module.start with
  | none => (.results [], s)
  | some start =>
    match inst.funcs[start]? with
    | none => (.results [], s)
    | some func => s.invoke fuel func []

end Instance

/-- How an instantiation ends. -/
inductive Instantiation where
  | ok (addr : InstanceAddr)
  | failed (error : InstantiationError)
  | outOfFuel

def Store.release (s : Store) (addr : InstanceAddr) : Store :=
  { s with instances := s.instances.setIfInBounds addr.index none }

def Store.start (fuel : Nat) (s : Store) (inst : Instance) (addr : InstanceAddr) :
    Instantiation × Store :=
  match inst.applySegments s with
  | .error t s => (.failed (.trap t), s.release addr)
  | .ok () s =>
    match inst.runStart fuel s with
    | (.results _, s) => (.ok addr, s)
    | (.trap t, s) => (.failed (.trap t), s.release addr)
    | (.outOfFuel, s) => (.outOfFuel, s.release addr)

def Store.instantiate (fuel : Nat) (s : Store) (m : Module) (bindings : List Binding)
    (maxCallDepth : Nat) : Instantiation × Store :=
  match s.allocate m bindings maxCallDepth with
  | .error e => (.failed e, s)
  | .ok (inst, addr, s) => s.start fuel inst addr

end Wasm
