import Wasm.CommandLine.Failure
import Wasm.Numeric.Evaluate
import Wasm.Text.Number
import Wasm.Value

/-! # Arguments in text -/

namespace Wasm.CommandLine

def readAs {α : Type} (type : ValueType) (text : String) (value : α → Value) :
    Except Text.NumberFault α → Except Failure Value
  | .ok a => .ok (value a)
  | .error fault => .error ⟨s!"invalid {type.name} argument `{text}`", some fault.message⟩

def hostReference (text : String) : Except Text.NumberFault (BitVec 32) := do
  return BitVec.ofNat 32 (← Text.natBelow (Nat.pow 2 32) text.toList)

def argument (type : ValueType) (text : String) : Except Failure Value :=
  match type with
  | .i32 => readAs type text .i32 (Text.word 32 text)
  | .i64 => readAs type text .i64 (Text.word 64 text)
  | .f32 =>
    let fmt := FloatFormat.binary32
    readAs type text (fun x => .f32 (fmt.toVec x)) (Text.float fmt text)
  | .f64 =>
    let fmt := FloatFormat.binary64
    readAs type text (fun x => .f64 (fmt.toVec x)) (Text.float fmt text)
  | .externRef =>
    if text = "null" then .ok (.externRef none)
    else readAs type text (fun id => .externRef (some id)) (hostReference text)
  | .funcRef =>
    if text = "null" then .ok (.funcRef none)
    else .error ⟨"funcref arguments other than `null` are not supported", none⟩

def arguments : List ValueType → List String → Except Failure (List Value)
  | type :: types, text :: texts => do
    let value ← argument type text
    return value :: (← arguments types texts)
  | _, _ => .ok []

end Wasm.CommandLine
