import Wasm.Bytecode.Listing
import Wasm.CommandLine.Argument
import Wasm.Instantiate
import Wasm.Module.Compile

/-! # The command

A module is checked and listed if asked for; if a function is named, it is called in an instance
without imports. -/

namespace Wasm.CommandLine

/-- What is asked for. -/
structure Request where
  dump : Bool
  compile : CompileOptions
  maxCallDepth : Nat
  invoke : Option String
  args : List String
deriving Inhabited

def Request.standard : Request where
  dump := false
  compile := .standard
  maxCallDepth := defaultCallDepth
  invoke := none
  args := []

/-- What is written, and the exit code. -/
structure Report where
  exit : Nat
  stdout : String
  stderr : String
deriving DecidableEq, Inhabited

def listing (m : Module) : String := String.join (m.functions.toList.map CompiledFunction.listing)

def instantiate (fuel : Nat) (m : Module) (maxCallDepth : Nat) :
    Except Failure (Instance × Store) :=
  match Store.empty.instantiate fuel m [] maxCallDepth with
  | (.failed e, _) => .error ⟨"instantiation failed", some e.message⟩
  | (.outOfFuel, _) => .error ⟨"instantiation failed", some "out of fuel"⟩
  | (.ok addr, s) =>
    match s.instance? addr with
    | some inst => .ok (inst, s)
    | none => .error ⟨"instantiation failed", none⟩

def exportedFunc (inst : Instance) (name : String) : Except Failure FuncAddr :=
  match inst.export? name with
  | some (.func func) => .ok func
  | _ => .error ⟨s!"no exported function named `{name}`", none⟩

def readArguments (name : String) (params : List ValueType) (args : List String) :
    Except Failure (List Value) :=
  if params.length ≠ args.length then
    .error ⟨s!"`{name}` takes {params.length} argument(s), {args.length} given", none⟩
  else
    arguments params args

def invoke (fuel : Nat) (m : Module) (request : Request) (name : String) :
    Except Failure String := do
  let (inst, s) ← instantiate fuel m request.maxCallDepth
  let func ← exportedFunc inst name
  let params := match s.funcType? func with
    | some type => type.params
    | none => []
  let args ← readArguments name params request.args
  let failed (why : String) : Failure := ⟨s!"`{name}` failed", some why⟩
  match s.invoke fuel func args with
  | (.results values, s) =>
    return String.join (values.map fun v => v.render s.describeFunc ++ "\n")
  | (.trap t, _) => throw (failed (InvokeError.trap t).message)
  | (.outOfFuel, _) => throw (failed "out of fuel")

def run (fuel : Nat) (request : Request) (binary : ByteArray) : Report :=
  match Module.compile request.compile binary with
  | .error e => ⟨1, "", Failure.render ⟨"validation failed", some e.message⟩⟩
  | .ok m =>
    let listed := if request.dump then listing m else ""
    match request.invoke with
    | none => ⟨0, listed, ""⟩
    | some name =>
      match invoke fuel m request name with
      | .ok text => ⟨0, listed ++ text, ""⟩
      | .error failure => ⟨1, listed, failure.render⟩

end Wasm.CommandLine
