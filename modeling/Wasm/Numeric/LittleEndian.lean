/-! # Little-endian numbers -/

namespace Wasm.LittleEndian

def toNat : List UInt8 → Nat
  | [] => 0
  | b :: bs => b.toNat + 256 * toNat bs

def ofNat : (len value : Nat) → List UInt8
  | 0, _ => []
  | len + 1, value => UInt8.ofNat value :: ofNat len (value / 256)

theorem length_ofNat (len value : Nat) : (ofNat len value).length = len := by
  induction len generalizing value with
  | zero => rfl
  | succ len ih => simp [ofNat, ih]

theorem toNat_ofNat (len value : Nat) : toNat (ofNat len value) = value % Nat.pow 256 len := by
  induction len generalizing value with
  | zero => simp [ofNat, toNat, Nat.mod_one]
  | succ len ih =>
    rw [ofNat, toNat, ih]
    show _ = value % (Nat.pow 256 len * 256)
    rw [Nat.mul_comm (Nat.pow 256 len) 256, Nat.mod_mul]
    simp

end Wasm.LittleEndian
