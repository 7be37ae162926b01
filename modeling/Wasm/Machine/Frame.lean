import Wasm.Machine.Access
import Wasm.Store

/-! # Frames

In a frame an operand that is missing is an `i32` zero; validated code needs none. -/

namespace Wasm

/-- A function that is being run. -/
structure Frame where
  inst : Instance
  func : CompiledFunction
  pc : Nat
  locals : Array Value
  operands : List Value
deriving Inhabited

/-- What an operation of a frame leads to. -/
inductive Effect where
  | next (frame : Frame)
  | call (func : FuncAddr) (frame : Frame)
  | leave (frame : Frame)

namespace Frame

def fillLocals : List LocalSlot → List Value → Array Value → Array Value
  | [], _, slots => slots
  | entry :: entries, [], slots =>
    fillLocals entries [] (slots.setIfInBounds entry.slot (.zero entry.type))
  | entry :: entries, arg :: args, slots =>
    fillLocals entries args (slots.setIfInBounds entry.slot arg)

def enter (inst : Instance) (func : CompiledFunction) (args : List Value) : Frame where
  inst := inst
  func := func
  pc := 0
  locals := fillLocals func.locals.toList args (Array.replicate func.frameSlots (.i32 0))
  operands := []

def result (f : Frame) : List Value :=
  match f.func.type.results with
  | [] => []
  | _ => f.operands.take 1

def memoryAddr (f : Frame) (index : Nat) : StoreM MemoryAddr :=
  match f.inst.memories[index]? with
  | some addr => pure addr
  | none => throw .outOfBounds

def memory (f : Frame) (index : Nat) : StoreM Memory := do
  let addr ← f.memoryAddr index
  match (← get).memories[addr.index]? with
  | some m => pure m
  | none => throw .outOfBounds

def tableAddr (f : Frame) (index : Nat) : StoreM TableAddr :=
  match f.inst.tables[index]? with
  | some addr => pure addr
  | none => throw .tableOutOfBounds

def table (f : Frame) (index : Nat) : StoreM TableInst := do
  let addr ← f.tableAddr index
  match (← get).tables[addr.index]? with
  | some t => pure t
  | none => throw .tableOutOfBounds

@[inline]
def lift {α : Type} : Except Trap α → StoreM α
  | .ok a => pure a
  | .error t => throw t

@[inline]
def pop : List Value → Value × List Value
  | v :: rest => (v, rest)
  | [] => (.i32 0, [])

@[inline]
def popI32 (operands : List Value) : BitVec 32 × List Value :=
  let (v, rest) := pop operands
  (v.asI32, rest)

@[inline]
def popNat (operands : List Value) : Nat × List Value :=
  let (w, rest) := popI32 operands
  (w.toNat, rest)

@[inline]
def withOperands (f : Frame) (operands : List Value) : Frame := { f with operands }

def load (f : Frame) (access : MemoryAccess) (memory offset : Nat) : StoreM Frame := do
  let (addr, rest) := popNat f.operands
  let value ← lift (access.load (← f.memory memory) (addr + offset))
  return f.withOperands (value :: rest)

def store (f : Frame) (access : MemoryAccess) (memory offset : Nat) : StoreM Frame := do
  let (value, rest) := pop f.operands
  let (addr, rest) := popNat rest
  Store.onMemory (← f.memoryAddr memory) (access.store (addr + offset) value)
  return f.withOperands rest

def access (f : Frame) (id : Nat) : StoreM Frame :=
  match f.inst.module.accessors.get? id with
  | some ⟨.load access, memory, offset⟩ => f.load access memory offset
  | some ⟨.store access, memory, offset⟩ => f.store access memory offset
  | none => throw .hostError

def indirect (f : Frame) (type table index : Nat) : StoreM FuncAddr := do
  match ← lift ((← f.table table).table.get index) with
  | none => throw .uninitializedElement
  | some (.host _) => throw .indirectCallTypeMismatch
  | some (.func func) =>
    if (← get).funcType? func = f.inst.module.spaces.types[type]? then pure func
    else throw .indirectCallTypeMismatch

@[inline]
def popRange (operands : List Value) : Nat × Nat × Nat × List Value :=
  let (len, rest) := popNat operands
  let (src, rest) := popNat rest
  let (dst, rest) := popNat rest
  (dst, src, len, rest)

def dataContents (f : Frame) (s : Store) (index : Nat) : ByteArray :=
  match f.inst.data[index]? with
  | some addr =>
    match s.data[addr.index]? with
    | some segment => segment.contents
    | none => .empty
  | none => .empty

def elemEntries (f : Frame) (s : Store) (index : Nat) : Array (Option Ref) :=
  match f.inst.elems[index]? with
  | some addr => s.elems[addr.index]?.getD #[]
  | none => #[]

def memoryInit (f : Frame) (data memory : Nat) : StoreM Frame := do
  let (dst, src, len, rest) := popRange f.operands
  let contents := f.dataContents (← get) data
  Store.onMemory (← f.memoryAddr memory) (Memory.init dst contents src len)
  return f.withOperands rest

def memoryCopy (f : Frame) (dstMemory srcMemory : Nat) : StoreM Frame := do
  let (dst, src, len, rest) := popRange f.operands
  let dstAddr ← f.memoryAddr dstMemory
  let srcAddr ← f.memoryAddr srcMemory
  if dstAddr = srcAddr then
    Store.onMemory dstAddr (Memory.copy dst src len)
  else
    Store.onMemory dstAddr (Memory.copyFrom (← f.memory srcMemory) dst src len)
  return f.withOperands rest

def memoryFill (f : Frame) (memory : Nat) : StoreM Frame := do
  let (len, rest) := popNat f.operands
  let (byte, rest) := popNat rest
  let (dst, rest) := popNat rest
  Store.onMemory (← f.memoryAddr memory) (Memory.fill dst (UInt8.ofNat byte) len)
  return f.withOperands rest

/-- Reads a table entry. -/
def tableGet (f : Frame) (table : Nat) : StoreM Frame := do
  let (index, rest) := popNat f.operands
  let t ← f.table table
  let entry ← lift (t.table.get index)
  return f.withOperands (Ref.toValue entry t.element :: rest)

def tableSet (f : Frame) (table : Nat) : StoreM Frame := do
  let (value, rest) := pop f.operands
  let (index, rest) := popNat rest
  Store.onTable (← f.tableAddr table) (Table.set index (Ref.ofValue? value))
  return f.withOperands rest

def tableGrow (f : Frame) (table : Nat) : StoreM Frame := do
  let (delta, rest) := popNat f.operands
  let (value, rest) := pop rest
  let old ← Store.onTable (← f.tableAddr table) (Table.grow delta (Ref.ofValue? value))
  return f.withOperands (.i32 (BitVec.ofInt 32 old) :: rest)

def tableFill (f : Frame) (table : Nat) : StoreM Frame := do
  let (len, rest) := popNat f.operands
  let (value, rest) := pop rest
  let (dst, rest) := popNat rest
  Store.onTable (← f.tableAddr table) (Table.fill dst (Ref.ofValue? value) len)
  return f.withOperands rest

def tableCopy (f : Frame) (dstTable srcTable : Nat) : StoreM Frame := do
  let (dst, src, len, rest) := popRange f.operands
  let dstAddr ← f.tableAddr dstTable
  let srcAddr ← f.tableAddr srcTable
  if dstAddr = srcAddr then
    Store.onTable dstAddr (Table.copy dst src len)
  else
    Store.onTable dstAddr (Table.copyFrom (← f.table srcTable).table dst src len)
  return f.withOperands rest

def tableInit (f : Frame) (elem table : Nat) : StoreM Frame := do
  let (dst, src, len, rest) := popRange f.operands
  let entries := f.elemEntries (← get) elem
  Store.onTable (← f.tableAddr table) (Table.init dst entries src len)
  return f.withOperands rest

def globalGet (f : Frame) (global : GlobalRef) : StoreM Value := do
  match f.inst.global? global with
  | some addr =>
    match (← get).globals[addr.index]? with
    | some g => pure g.value
    | none => pure (.i32 0)
  | none => pure (.i32 0)

def globalSet (f : Frame) (global : GlobalRef) : StoreM Frame := do
  let (value, rest) := pop f.operands
  match f.inst.global? global with
  | some addr => modify (·.setGlobal addr value)
  | none => pure ()
  return f.withOperands rest

def memoryGrow (f : Frame) (memory : Nat) : StoreM Frame := do
  let (delta, rest) := popNat f.operands
  let old ← Store.onMemory (← f.memoryAddr memory) (Memory.grow delta)
  return f.withOperands (.i32 (BitVec.ofInt 32 old) :: rest)

end Frame

open Wasm.Frame in
def BasicOp.exec (f : Frame) : BasicOp → StoreM Effect
  | .localGet slot => return .next (f.withOperands (f.locals[slot]?.getD (.i32 0) :: f.operands))
  | .localSet slot =>
    let (value, rest) := pop f.operands
    return .next { f with locals := f.locals.setIfInBounds slot value, operands := rest }
  | .localTee slot =>
    match f.operands with
    | value :: _ => return .next { f with locals := f.locals.setIfInBounds slot value }
    | [] => return .next f
  | .i32Const value => return .next (f.withOperands (.i32 value :: f.operands))
  | .i64Const value => return .next (f.withOperands (.i64 value :: f.operands))
  | .f32Const bits => return .next (f.withOperands (.f32 bits :: f.operands))
  | .f64Const bits => return .next (f.withOperands (.f64 bits :: f.operands))
  | .binary op => do
    let (rhs, rest) := pop f.operands
    let (lhs, rest) := pop rest
    return .next (f.withOperands ((← lift (op.apply lhs rhs)) :: rest))
  | .unary op => do
    let (value, rest) := pop f.operands
    return .next (f.withOperands ((← lift (op.apply value)) :: rest))
  | .drop => return .next (f.withOperands f.operands.tail)
  | .select =>
    let (condition, rest) := popI32 f.operands
    let (second, rest) := pop rest
    let (first, rest) := pop rest
    return .next (f.withOperands ((if condition ≠ 0 then first else second) :: rest))
  | .call func =>
    match f.inst.funcs[func]? with
    | some addr => return .call addr f
    | none => throw .hostError
  | .callIndirect type table => do
    let (index, rest) := popNat f.operands
    return .call (← f.indirect type table index) (f.withOperands rest)
  | .ret => return .leave f
  | .unreachable => throw .unreachable
  | .globalGet global => return .next (f.withOperands ((← f.globalGet global) :: f.operands))
  | .globalSet global => return .next (← f.globalSet global)
  | .load access memory offset => return .next (← f.load access memory offset)
  | .store access memory offset => return .next (← f.store access memory offset)
  | .loadVia id | .storeVia id => return .next (← f.access id)
  | .memorySize memory =>
    return .next (f.withOperands
      (.i32 (BitVec.ofNat 32 (← f.memory memory).pageCount) :: f.operands))
  | .memoryGrow memory => return .next (← f.memoryGrow memory)
  | .memoryInit data memory => return .next (← f.memoryInit data memory)
  | .dataDrop data => do
    match f.inst.data[data]? with
    | some addr => modify (·.dropData addr)
    | none => pure ()
    return .next f
  | .memoryCopy dst src => return .next (← f.memoryCopy dst src)
  | .memoryFill memory => return .next (← f.memoryFill memory)
  | .tableGet table => return .next (← f.tableGet table)
  | .tableSet table => return .next (← f.tableSet table)
  | .tableSize table =>
    return .next (f.withOperands
      (.i32 (BitVec.ofNat 32 (← f.table table).table.size) :: f.operands))
  | .tableGrow table => return .next (← f.tableGrow table)
  | .tableFill table => return .next (← f.tableFill table)
  | .tableCopy dst src => return .next (← f.tableCopy dst src)
  | .tableInit elem table => return .next (← f.tableInit elem table)
  | .elemDrop elem => do
    match f.inst.elems[elem]? with
    | some addr => modify (·.dropElem addr)
    | none => pure ()
    return .next f
  | .refNull type => return .next (f.withOperands (.zero type :: f.operands))
  | .refIsNull =>
    let (value, rest) := pop f.operands
    return .next (f.withOperands (.ofBool value.isNull :: rest))
  | .refFunc func => return .next (f.withOperands (.funcRef f.inst.funcs[func]? :: f.operands))
  | .pack carrier =>
    let n := carrier.fields.length
    return .next (f.withOperands (.bundle (f.operands.take n).reverse :: f.operands.drop n))
  | .unpack _ =>
    match pop f.operands with
    | (.bundle fields, rest) => return .next (f.withOperands (fields.reverse ++ rest))
    | (_, rest) => return .next (f.withOperands rest)

open Wasm.Frame in
def Op.exec (f : Frame) : Op Nat → StoreM Effect
  | .basic op => op.exec f
  | .jump target => return .next { f with pc := target }
  | .jumpIf target =>
    let (condition, operands) := popI32 f.operands
    return .next { f with operands, pc := if condition ≠ 0 then target else f.pc }
  | .jumpUnless target =>
    let (condition, operands) := popI32 f.operands
    return .next { f with operands, pc := if condition = 0 then target else f.pc }
  | .jumpTable targets default =>
    let (index, operands) := popNat f.operands
    return .next { f with operands, pc := targets[index]?.getD default }

def Frame.step (f : Frame) : StoreM Effect :=
  match f.func.code[f.pc]? with
  | some op => op.exec { f with pc := f.pc + 1 }
  | none => return .leave f

end Wasm
