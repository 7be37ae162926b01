import Wasm.Machine.Operate
import Wasm.Memory
import Wasm.Operator

/-! # Typed loads and stores

A narrow load fills up with zeros or with the sign; a narrow store keeps the low bytes. -/

namespace Wasm

namespace MemoryAccess

def widen (sign : Option Signedness) (bits w n : Nat) : BitVec w :=
  if sign = some .signed then (BitVec.ofNat bits n).signExtend w else BitVec.ofNat w n

def load (access : MemoryAccess) (m : Memory) (addr : Nat) : Except Trap Value :=
  match access.type, access.width with
  | .i32, .full => return .i32 (BitVec.ofNat 32 (← m.load addr 4))
  | .i64, .full => return .i64 (BitVec.ofNat 64 (← m.load addr 8))
  | .f32, .full => return .f32 (BitVec.ofNat 32 (← m.load addr 4))
  | .f64, .full => return .f64 (BitVec.ofNat 64 (← m.load addr 8))
  | .i32, .i8 => return .i32 (widen access.sign 8 32 (← m.load addr 1))
  | .i32, .i16 => return .i32 (widen access.sign 16 32 (← m.load addr 2))
  | .i64, .i8 => return .i64 (widen access.sign 8 64 (← m.load addr 1))
  | .i64, .i16 => return .i64 (widen access.sign 16 64 (← m.load addr 2))
  | .i64, .i32 => return .i64 (widen access.sign 32 64 (← m.load addr 4))
  | _, _ => .error .outOfBounds

def wordBits : Value → Nat
  | .i32 w => w.toNat
  | .i64 w => w.toNat
  | _ => 0

def store (access : MemoryAccess) (addr : Nat) (value : Value) : MemoryM Unit :=
  match access.width with
  | .full =>
    match value with
    | .i32 w => Memory.store addr 4 w.toNat
    | .i64 w => Memory.store addr 8 w.toNat
    | .f32 b => Memory.store addr 4 b.toNat
    | .f64 b => Memory.store addr 8 b.toNat
    | _ => throw .outOfBounds
  | .i8 => Memory.store addr 1 (wordBits value)
  | .i16 => Memory.store addr 2 (wordBits value)
  | .i32 => Memory.store addr 4 (wordBits value)

end MemoryAccess

end Wasm
