import Wasm.Text.Quoted
import Wasm.Bytecode.Op
import Wasm.Bytecode.Accessor

/-! # Listings

Compiled functions in text: a heading, then one numbered line per operation. -/

namespace Wasm

namespace Listing

def tuple (name : String) (operands : List String) : String :=
  name ++ "(" ++ String.intercalate ", " operands ++ ")"

def record (name : String) (fields : List (String × String)) : String :=
  name ++ " \x7b " ++ String.intercalate ", " (fields.map fun f => f.1 ++ ": " ++ f.2) ++ " \x7d"

def list (items : List String) : String := "[" ++ String.intercalate ", " items ++ "]"

end Listing

open Listing

def ValueType.tag : ValueType → String
  | .i32 => "I32"
  | .i64 => "I64"
  | .f32 => "F32"
  | .f64 => "F64"
  | .funcRef => "FuncRef"
  | .externRef => "ExternRef"

def Signedness.tag : Signedness → String
  | .signed => "Signed"
  | .unsigned => "Unsigned"

def Signedness.letter : Signedness → String
  | .signed => "S"
  | .unsigned => "U"

def AccessWidth.tag : AccessWidth → String
  | .full => "Full"
  | .i8 => "I8"
  | .i16 => "I16"
  | .i32 => "I32"

def MemoryAccess.listing (access : MemoryAccess) : String :=
  record "MemoryAccess"
    [("ty", access.type.tag), ("width", access.width.tag),
      ("sign", access.sign.elim "None" fun sign => tuple "Some" [sign.tag])]

def AccessKind.listing : AccessKind → String
  | .load access => tuple "Load" [access.listing]
  | .store access => tuple "Store" [access.listing]

/-! ## Operators -/

def IntBinary.tag : IntBinary → String
  | .add => "Add"
  | .sub => "Sub"
  | .mul => "Mul"
  | .div sign => "Div" ++ sign.letter
  | .rem sign => "Rem" ++ sign.letter
  | .and => "And"
  | .or => "Or"
  | .xor => "Xor"
  | .shl => "Shl"
  | .shr sign => "Shr" ++ sign.letter
  | .rotl => "Rotl"
  | .rotr => "Rotr"

def IntCompare.tag : IntCompare → String
  | .eq => "Eq"
  | .ne => "Ne"
  | .lt sign => "Lt" ++ sign.letter
  | .gt sign => "Gt" ++ sign.letter
  | .le sign => "Le" ++ sign.letter
  | .ge sign => "Ge" ++ sign.letter

def FloatBinary.tag : FloatBinary → String
  | .add => "Add"
  | .sub => "Sub"
  | .mul => "Mul"
  | .div => "Div"
  | .min => "Min"
  | .max => "Max"
  | .copysign => "Copysign"

def FloatCompare.tag : FloatCompare → String
  | .eq => "Eq"
  | .ne => "Ne"
  | .lt => "Lt"
  | .gt => "Gt"
  | .le => "Le"
  | .ge => "Ge"

def IntUnary.tag : IntUnary → String
  | .clz => "Clz"
  | .ctz => "Ctz"
  | .popcnt => "Popcnt"

def FloatUnary.tag : FloatUnary → String
  | .abs => "Abs"
  | .neg => "Neg"
  | .ceil => "Ceil"
  | .floor => "Floor"
  | .trunc => "Trunc"
  | .nearest => "Nearest"
  | .sqrt => "Sqrt"

def NarrowWidth.tag : NarrowWidth → String
  | .w8 => "8"
  | .w16 => "16"
  | .w32 => "32"

def BinaryOp.tag : BinaryOp → String
  | .int w op => w.type.tag ++ op.tag
  | .intCompare w op => w.type.tag ++ op.tag
  | .float w op => w.type.tag ++ op.tag
  | .floatCompare w op => w.type.tag ++ op.tag

def UnaryOp.tag : UnaryOp → String
  | .int w op => w.type.tag ++ op.tag
  | .eqz w => w.type.tag ++ "Eqz"
  | .float w op => w.type.tag ++ op.tag
  | .wrap => "I32WrapI64"
  | .extend sign => "I64ExtendI32" ++ sign.letter
  | .extendLow w low => w.type.tag ++ "Extend" ++ low.tag ++ "S"
  | .trunc target source sign => target.type.tag ++ "Trunc" ++ source.type.tag ++ sign.letter
  | .truncSat target source sign =>
    target.type.tag ++ "TruncSat" ++ source.type.tag ++ sign.letter
  | .convert target source sign => target.type.tag ++ "Convert" ++ source.type.tag ++ sign.letter
  | .demote => "F32DemoteF64"
  | .promote => "F64PromoteF32"
  | .bitsOfFloat w => w.intWidth.type.tag ++ "Reinterpret" ++ w.type.tag
  | .floatOfBits w => w.type.tag ++ "Reinterpret" ++ w.intWidth.type.tag

/-! ### Operators by name -/

namespace Listing

/-- Both integer widths. -/
def intWidths : List IntWidth := [.w32, .w64]

def floatWidths : List FloatWidth := [.w32, .w64]

def readings : List Signedness := [.signed, .unsigned]

def intBinaries : List IntBinary :=
  [.add, .sub, .mul, .and, .or, .xor, .shl, .rotl, .rotr]
    ++ readings.map .div ++ readings.map .rem ++ readings.map .shr

def intCompares : List IntCompare :=
  [.eq, .ne] ++ readings.map .lt ++ readings.map .gt ++ readings.map .le ++ readings.map .ge

def floatBinaries : List FloatBinary := [.add, .sub, .mul, .div, .min, .max, .copysign]

def floatCompares : List FloatCompare := [.eq, .ne, .lt, .gt, .le, .ge]

def binaryOps : List BinaryOp :=
  intWidths.flatMap (fun w => intBinaries.map (.int w) ++ intCompares.map (.intCompare w))
    ++ floatWidths.flatMap
      (fun w => floatBinaries.map (.float w) ++ floatCompares.map (.floatCompare w))

def floatUnaries : List FloatUnary := [.abs, .neg, .ceil, .floor, .trunc, .nearest, .sqrt]

def crossings (float : FloatWidth) (int : IntWidth) (sign : Signedness) : List UnaryOp :=
  [.trunc int float sign, .truncSat int float sign, .convert float int sign]

def unaryOps : List UnaryOp :=
  intWidths.flatMap (fun w =>
      [.int w .clz, .int w .ctz, .int w .popcnt, .eqz w, .extendLow w .w8, .extendLow w .w16])
    ++ [.extendLow .w64 .w32, .wrap, .demote, .promote] ++ readings.map .extend
    ++ floatWidths.flatMap (fun w =>
      [.bitsOfFloat w, .floatOfBits w] ++ floatUnaries.map (.float w)
        ++ intWidths.flatMap fun i => readings.flatMap (crossings w i))

end Listing

def BinaryOp.ofTag? (name : String) : Option BinaryOp := binaryOps.find? (·.tag == name)

def UnaryOp.ofTag? (name : String) : Option UnaryOp := unaryOps.find? (·.tag == name)

/-! ## Operations -/

def GlobalRef.listing : GlobalRef → String
  | .imported index => tuple "Imported" [toString index]
  | .defined index => tuple "Defined" [toString index]

def Carrier.listing (carrier : Carrier) : String :=
  record "Carrier" [("fields", list (carrier.fields.map ValueType.tag))]

def BasicOp.listing : BasicOp → String
  | .unreachable => "Unreachable"
  | .ret => "Return"
  | .call func => tuple "Call" [toString func]
  | .callIndirect type table =>
    record "CallIndirect" [("type_index", toString type), ("table", toString table)]
  | .drop => "Drop"
  | .select => "Select"
  | .i32Const value => tuple "I32Const" [toString value.toInt]
  | .i64Const value => tuple "I64Const" [toString value.toInt]
  | .f32Const bits => tuple "F32Const" [toString bits.toNat]
  | .f64Const bits => tuple "F64Const" [toString bits.toNat]
  | .localGet slot => tuple "LocalGet" [toString slot]
  | .localSet slot => tuple "LocalSet" [toString slot]
  | .localTee slot => tuple "LocalTee" [toString slot]
  | .globalGet global => tuple "GlobalGet" [global.listing]
  | .globalSet global => tuple "GlobalSet" [global.listing]
  | .binary op => tuple "Binary" [op.tag]
  | .unary op => tuple "Unary" [op.tag]
  | .load access memory offset =>
    record "Load"
      [("access", access.listing), ("memory", toString memory), ("offset", toString offset)]
  | .store access memory offset =>
    record "Store"
      [("access", access.listing), ("memory", toString memory), ("offset", toString offset)]
  | .loadVia accessor => tuple "LoadVia" [tuple "AccessorId" [toString accessor]]
  | .storeVia accessor => tuple "StoreVia" [tuple "AccessorId" [toString accessor]]
  | .memorySize memory => tuple "MemorySize" [toString memory]
  | .memoryGrow memory => tuple "MemoryGrow" [toString memory]
  | .memoryInit data memory =>
    record "MemoryInit" [("data", toString data), ("memory", toString memory)]
  | .dataDrop data => tuple "DataDrop" [toString data]
  | .memoryCopy dst src => record "MemoryCopy" [("dst", toString dst), ("src", toString src)]
  | .memoryFill memory => tuple "MemoryFill" [toString memory]
  | .tableGet table => tuple "TableGet" [toString table]
  | .tableSet table => tuple "TableSet" [toString table]
  | .tableSize table => tuple "TableSize" [toString table]
  | .tableGrow table => tuple "TableGrow" [toString table]
  | .tableFill table => tuple "TableFill" [toString table]
  | .tableCopy dst src => record "TableCopy" [("dst", toString dst), ("src", toString src)]
  | .tableInit elem table =>
    record "TableInit" [("elem", toString elem), ("table", toString table)]
  | .elemDrop elem => tuple "ElemDrop" [toString elem]
  | .refNull type => tuple "RefNull" [type.tag]
  | .refIsNull => "RefIsNull"
  | .refFunc func => tuple "RefFunc" [toString func]
  | .pack carrier => tuple "Pack" [carrier.listing]
  | .unpack carrier => tuple "Unpack" [carrier.listing]

def Op.listing : Op Nat → String
  | .basic op => op.listing
  | .jump target => tuple "Jump" [toString target]
  | .jumpIf target => tuple "JumpIf" [toString target]
  | .jumpUnless target => tuple "JumpUnless" [toString target]
  | .jumpTable targets default =>
    record "JumpTable"
      [("targets", list (targets.toList.map toString)), ("default", toString default)]

def Listing.lines : (first : Nat) → List (Op Nat) → List String
  | _, [] => []
  | first, op :: ops =>
    ("  " ++ Text.padLeft ' ' 5 (toString first) ++ ": " ++ op.listing ++ "\n")
      :: lines (first + 1) ops

def CompiledFunction.listing (f : CompiledFunction) : String :=
  s!"func {f.funcIndex} {f.type.render} (slots: {f.frameSlots})\n"
    ++ String.join (Listing.lines 0 f.code.toList)

end Wasm
