/-! # Value types and the descriptors built from them -/

namespace Wasm

/-- The types of runtime values. -/
inductive ValueType where
  | i32
  | i64
  | f32
  | f64
  | funcRef
  | externRef
deriving DecidableEq, Inhabited

namespace ValueType

def name : ValueType → String
  | i32 => "i32"
  | i64 => "i64"
  | f32 => "f32"
  | f64 => "f64"
  | funcRef => "funcref"
  | externRef => "externref"

def code : ValueType → UInt8
  | i32 => 0x7F
  | i64 => 0x7E
  | f32 => 0x7D
  | f64 => 0x7C
  | funcRef => 0x70
  | externRef => 0x6F

def ofCode? (byte : UInt8) : Option ValueType :=
  if byte = 0x7F then some i32
  else if byte = 0x7E then some i64
  else if byte = 0x7D then some f32
  else if byte = 0x7C then some f64
  else if byte = 0x70 then some funcRef
  else if byte = 0x6F then some externRef
  else none

theorem ofCode?_code (t : ValueType) : ofCode? t.code = some t := by
  cases t <;> decide

def slotWidth : ValueType → Nat
  | i64 | f64 => 2
  | _ => 1

def isRef : ValueType → Bool
  | funcRef | externRef => true
  | _ => false

def isNum (t : ValueType) : Bool := !t.isRef

end ValueType

/-- A function signature. -/
structure FuncType where
  params : List ValueType
  results : List ValueType
deriving DecidableEq, Inhabited

namespace FuncType

def nullary : FuncType := ⟨[], []⟩

private def renderList (types : List ValueType) : String :=
  "[" ++ String.intercalate " " (types.map ValueType.name) ++ "]"

def render (type : FuncType) : String :=
  renderList type.params ++ " -> " ++ renderList type.results

end FuncType

/-- A lower bound and maybe an upper bound. -/
structure Limits where
  min : Nat
  max : Option Nat
deriving DecidableEq, Inhabited

def Limits.matchesDeclared (provided declared : Limits) : Bool :=
  decide (declared.min ≤ provided.min) &&
    match declared.max, provided.max with
    | none, _ => true
    | some _, none => false
    | some d, some p => decide (p ≤ d)

/-- The type of a table. -/
structure TableType where
  element : ValueType
  limits : Limits
deriving DecidableEq, Inhabited

/-- The type of a global. -/
structure GlobalType where
  content : ValueType
  mutable : Bool
deriving DecidableEq, Inhabited

/-- The kinds of things a module can import and export. -/
inductive ItemKind where
  | func
  | table
  | memory
  | global
deriving DecidableEq, Inhabited

def ItemKind.name : ItemKind → String
  | func => "func"
  | table => "table"
  | memory => "memory"
  | global => "global"

end Wasm
