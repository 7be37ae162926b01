import Wasm.ValueType
import Wasm.Text.Quoted

/-! # What can go wrong while a module is set up or run -/

namespace Wasm

/-- The reasons for which execution stops. -/
inductive Trap where
  | outOfBounds
  | divideByZero
  | integerOverflow
  | invalidConversionToInteger
  | unreachable
  | indirectCallTypeMismatch
  | tableOutOfBounds
  | uninitializedElement
  | callStackExhausted
  | hostError
deriving DecidableEq, Inhabited

def Trap.message : Trap → String
  | outOfBounds => "out of bounds memory access"
  | divideByZero => "integer divide by zero"
  | integerOverflow => "integer overflow"
  | invalidConversionToInteger => "invalid conversion to integer"
  | unreachable => "unreachable executed"
  | indirectCallTypeMismatch => "indirect call type mismatch"
  | tableOutOfBounds => "out of bounds table access"
  | uninitializedElement => "uninitialized element"
  | callStackExhausted => "call stack exhausted"
  | hostError => "host function failed"

/-- Why a memory or table cannot be made. -/
inductive ConstructionError where
  | memoryInitialExceedsMax (initial max : Nat)
  | tableInitialExceedsMax (initial max : Nat)
deriving DecidableEq, Inhabited

def ConstructionError.message : ConstructionError → String
  | memoryInitialExceedsMax initial max =>
    s!"initial memory size {initial} pages exceeds maximum {max}"
  | tableInitialExceedsMax initial max =>
    s!"initial table size {initial} exceeds maximum {max}"

/-- Why a module cannot be instantiated. -/
inductive InstantiationError where
  | unresolvedImport (module name : String)
  | incompatibleImportType (module name : String)
  | construction (error : ConstructionError)
  | trap (trap : Trap)
deriving DecidableEq, Inhabited

def InstantiationError.message : InstantiationError → String
  | unresolvedImport module name => s!"unresolved import {module}::{name}"
  | incompatibleImportType module name =>
    s!"incompatible import type for {module}::{name}"
  | construction error => "failed to allocate: " ++ error.message
  | trap t => "trap during instantiation: " ++ t.message

/-- Why a call does not end in results. -/
inductive InvokeError where
  | unknownExport (name : String)
  | notAFunction (name : String)
  | argumentCount (expected found : Nat)
  | argumentType (index : Nat) (expected : ValueType)
  | trap (trap : Trap)
deriving DecidableEq, Inhabited

def InvokeError.message : InvokeError → String
  | unknownExport name => "no export named " ++ Text.quoted name
  | notAFunction name => "export " ++ Text.quoted name ++ " is not a function"
  | argumentCount expected found => s!"expected {expected} arguments, got {found}"
  | argumentType index expected => s!"argument {index}: expected {expected.name}"
  | trap t => "trap: " ++ t.message

end Wasm
