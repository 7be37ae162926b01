/-! # Sections of a module binary

Sections other than custom ones appear at most once and in the order of their `rank`. -/

namespace Wasm

/-- The sections of a module. -/
inductive Section where
  | custom
  | type
  | imports
  | function
  | table
  | memory
  | global
  | exports
  | start
  | element
  | code
  | data
  | dataCount
deriving DecidableEq, Inhabited

namespace Section

def ofId? (id : UInt8) : Option Section :=
  [custom, type, imports, function, table, memory, global, exports, start, element, code, data,
    dataCount][id.toNat]?

def rank : Section → Nat
  | custom => 0
  | type => 1
  | imports => 2
  | function => 3
  | table => 4
  | memory => 5
  | global => 6
  | exports => 7
  | start => 8
  | element => 9
  | dataCount => 10
  | code => 11
  | data => 12

end Section

end Wasm
