import Wasm.Binary.Cursor

/-! # LEB128 integers

Groups of seven bits, lowest first; all bytes but the last have the high bit. -/

namespace Wasm.Decode

/-- The seven bits that a byte adds to an integer. -/
def payload (b : UInt8) : BitVec 64 := (b &&& 0x7F).toBitVec.setWidth 64

/-- The groups of an unsigned integer from bit `shift` on, put above `result`. -/
def unsignedFrom (bits shift : Nat) (result : BitVec 64) : Decode (BitVec 64) := do
  let b ← byte
  let remaining := bits - shift
  let result := result ||| payload b <<< shift
  if h : remaining ≤ 7 then
    -- the last byte there may be: it ends the integer, and its unused bits are zero
    let unused := 0x7F#64 <<< remaining &&& 0x7F#64
    if b &&& 0x80 ≠ 0 ∨ payload b &&& unused ≠ 0 then
      fail .malformedLeb128 ((← position) - 1)
    else
      return result
  else if b &&& 0x80 = 0 then
    return result
  else
    unsignedFrom bits (shift + 7) result
termination_by bits - shift

/-- The groups of a signed integer from bit `shift` on; the sign is extended upward. -/
def signedFrom (bits shift : Nat) (result : BitVec 64) : Decode (BitVec 64) := do
  let b ← byte
  let remaining := bits - shift
  -- in the last byte there may be, all the bits from the sign upward agree
  let upper := 0x7F#64 <<< (remaining - 1) &&& 0x7F#64
  let signBits := payload b &&& upper
  if h : remaining ≤ 7 ∧ (b &&& 0x80 ≠ 0 ∨ (signBits ≠ 0 ∧ signBits ≠ upper)) then
    fail .malformedLeb128 ((← position) - 1)
  else
    let result := result ||| payload b <<< shift
    let shift' := shift + 7
    if hlast : b &&& 0x80 = 0 then
      return if shift' < 64 ∧ b &&& 0x40 ≠ 0 then result ||| (-1#64) <<< shift' else result
    else
      have : ¬ remaining ≤ 7 := fun hle => h ⟨hle, .inl hlast⟩
      signedFrom bits shift' result
termination_by bits - shift

/-- A natural number of 32 bits. -/
def u32 : Decode Nat := return ((← unsignedFrom 32 0 0).setWidth 32).toNat

/-- A natural number of 64 bits. -/
def u64 : Decode Nat := return (← unsignedFrom 64 0 0).toNat

/-- An integer of 32 bits. -/
def s32 : Decode Int := return ((← signedFrom 32 0 0).setWidth 32).toInt

/-- An integer of 33 bits, which block types are written in. -/
def s33 : Decode Int := return (← signedFrom 33 0 0).toInt

/-- An integer of 64 bits. -/
def s64 : Decode Int := return (← signedFrom 64 0 0).toInt

end Wasm.Decode
