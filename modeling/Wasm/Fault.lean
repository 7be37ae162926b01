import Wasm.ValueType
import Wasm.Text.Quoted

/-! # What can be wrong with a module binary

A `Fault` is a cause of rejection; a `CompileError` charges it to an offset in the binary. -/

namespace Wasm

/-- The causes for which a module binary is rejected. -/
inductive Fault where
  | unexpectedEnd
  | malformedLeb128
  | invalidUtf8
  | badMagic
  | unsupportedVersion (version : Nat)
  | unknownSection (id : UInt8)
  | sectionOutOfOrder (id : UInt8)
  | duplicateSection (id : UInt8)
  | sectionSizeMismatch
  | unknownOpcode (opcode : UInt8)
  | unknownPrefixedOpcode (opcode : UInt8) (sub : Nat)
  | invalidValueType (byte : UInt8)
  | invalidRefType (byte : UInt8)
  | invalidTypeForm (byte : UInt8)
  | invalidBlockType
  | invalidLimitsFlags (byte : UInt8)
  | invalidMutability (byte : UInt8)
  | invalidImportKind (byte : UInt8)
  | invalidExportKind (byte : UInt8)
  | invalidSegmentFlags (flags : Nat)
  | trailingBytes
  | limitsMinExceedsMax (min max : Nat)
  | limitExceeded (what : String) (value limit : Nat)
  | tooManyLocals
  | stackUnderflow
  | typeMismatch (expected found : ValueType)
  | stackHeightMismatch (expected found : Nat)
  | unbalancedControlStack
  | elseWithoutIf
  | ifWithoutElseTypeMismatch
  | invalidBranchDepth (depth : Nat)
  | invalidBranchArity
  | invalidSelectOperand
  | invalidSelectArity
  | invalidAlignment
  | invalidTypeIndex (index : Nat)
  | invalidFunctionIndex (index : Nat)
  | invalidTableIndex (index : Nat)
  | invalidMemoryIndex (index : Nat)
  | invalidGlobalIndex (index : Nat)
  | invalidLocalIndex (index : Nat)
  | invalidElemIndex (index : Nat)
  | invalidDataIndex (index : Nat)
  | immutableGlobal (index : Nat)
  | invalidConstExpr
  | duplicateExport (name : String)
  | functionCountMismatch
  | dataCountMismatch
  | invalidStartFunction
  | internal (what : String)
deriving DecidableEq, Inhabited

def Fault.message : Fault → String
  | unexpectedEnd => "unexpected end of input"
  | malformedLeb128 => "malformed LEB128 integer"
  | invalidUtf8 => "invalid UTF-8 in name"
  | badMagic => "bad magic number"
  | unsupportedVersion version => s!"unsupported binary version {version}"
  | unknownSection id => s!"unknown section id {id}"
  | sectionOutOfOrder id => s!"section id {id} out of order"
  | duplicateSection id => s!"duplicate section id {id}"
  | sectionSizeMismatch => "section size mismatch"
  | unknownOpcode opcode => "unknown opcode " ++ Text.hexByte opcode
  | unknownPrefixedOpcode opcode sub => s!"unknown opcode {Text.hexByte opcode} {sub}"
  | invalidValueType byte => "invalid value type " ++ Text.hexByte byte
  | invalidRefType byte => "invalid reference type " ++ Text.hexByte byte
  | invalidTypeForm byte => "invalid function type form " ++ Text.hexByte byte
  | invalidBlockType => "invalid block type"
  | invalidLimitsFlags byte => "invalid limits flags " ++ Text.hexByte byte
  | invalidMutability byte => "invalid mutability flag " ++ Text.hexByte byte
  | invalidImportKind byte => "invalid import kind " ++ Text.hexByte byte
  | invalidExportKind byte => "invalid export kind " ++ Text.hexByte byte
  | invalidSegmentFlags flags => s!"invalid segment flags {flags}"
  | trailingBytes => "unexpected bytes after function body end"
  | limitsMinExceedsMax min max => s!"limits minimum {min} exceeds maximum {max}"
  | limitExceeded what value limit => s!"{what} limit exceeded: {value} > {limit}"
  | tooManyLocals => "too many locals"
  | stackUnderflow => "operand stack underflow"
  | typeMismatch expected found =>
    s!"type mismatch: expected {expected.name}, found {found.name}"
  | stackHeightMismatch expected found =>
    s!"expected {expected} values at end of block, found {found}"
  | unbalancedControlStack => "unbalanced control stack"
  | elseWithoutIf => "`else` without matching `if`"
  | ifWithoutElseTypeMismatch =>
    "`if` without `else` must have matching params and results"
  | invalidBranchDepth depth => s!"invalid branch depth {depth}"
  | invalidBranchArity => "br_table targets have inconsistent arity"
  | invalidSelectOperand => "untyped select on reference operands"
  | invalidSelectArity => "typed select must declare exactly one type"
  | invalidAlignment => "alignment exceeds natural alignment"
  | invalidTypeIndex index => s!"unknown type {index}"
  | invalidFunctionIndex index => s!"unknown function {index}"
  | invalidTableIndex index => s!"unknown table {index}"
  | invalidMemoryIndex index => s!"unknown memory {index}"
  | invalidGlobalIndex index => s!"unknown global {index}"
  | invalidLocalIndex index => s!"unknown local {index}"
  | invalidElemIndex index => s!"unknown element segment {index}"
  | invalidDataIndex index => s!"unknown data segment {index}"
  | immutableGlobal index => s!"global {index} is immutable"
  | invalidConstExpr => "invalid constant expression"
  | duplicateExport name => "duplicate export name " ++ Text.quoted name
  | functionCountMismatch => "function and code section counts differ"
  | dataCountMismatch => "data count section disagrees with data section"
  | invalidStartFunction => "start function must have type [] -> []"
  | internal what => "internal translator error: " ++ what

/-- A fault and the offset it is charged to. -/
structure CompileError where
  fault : Fault
  offset : Nat
deriving DecidableEq, Inhabited

def CompileError.message (error : CompileError) : String :=
  error.fault.message ++ " (at offset " ++ Text.hex error.offset ++ ")"

end Wasm
