import Wasm.Machine.Operate
import Wasm.Store

/-! # Host functions

Bodies that report their arguments, return them or fixed values, add them up, fail, or pass the
call on. -/

namespace Wasm.Host

def log (name : String) (type : FuncType) (args : List Value) : HostProgram :=
  .report ⟨name, args⟩ (.answer (type.results.map .zero))

def echo (args : List Value) : HostProgram := .answer args

def const (values : List Value) (_ : List Value) : HostProgram := .answer values

def sum (args : List Value) : HostProgram :=
  .answer [.i32 (args.foldl (fun total v => total + v.asI32) 0)]

def fail (trap : Trap) (_ : List Value) : HostProgram := .trap trap

def forward (target : FuncAddr) (args : List Value) : HostProgram :=
  .invoke target args fun
    | .ok values => .answer values
    | .error (.trap t) => .trap t
    | .error _ => .trap .hostError

end Wasm.Host
