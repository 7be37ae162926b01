import Wasm.Numeric.Float

/-! # Decimal text of floats

`shortest` has the fewest digits that read back as the float. -/

namespace Wasm

/-- The number `digits * 10 ^ exponent`. -/
structure Decimal where
  digits : Nat
  exponent : Int
deriving DecidableEq, Inhabited

namespace Decimal

def stripZeros : Nat → Decimal → Decimal
  | 0, d => d
  | fuel + 1, d =>
    if d.digits ≠ 0 ∧ d.digits % 10 = 0 then stripZeros fuel ⟨d.digits / 10, d.exponent + 1⟩
    else d

def render (d : Decimal) : String :=
  let digits := Nat.toDigits 10 d.digits
  let zeros (n : Nat) := List.replicate n '0'
  if 0 ≤ d.exponent then
    String.ofList (digits ++ zeros d.exponent.toNat)
  else
    let places := d.exponent.natAbs
    if places < digits.length then
      let whole := digits.length - places
      String.ofList (digits.take whole ++ '.' :: digits.drop whole)
    else
      String.ofList ('0' :: '.' :: zeros (places - digits.length) ++ digits)

end Decimal

namespace FloatFormat

variable (fmt : FloatFormat)

def leadingZeros (den : Nat) : (fuel num : Nat) → Nat
  | 0, _ => 0
  | fuel + 1, num => if den ≤ num then 0 else leadingZeros den fuel (num * 10) + 1

def leadExponent (num den : Nat) : Int :=
  if den ≤ num then (Nat.toDigits 10 (num / den)).length - 1
  else -(leadingZeros den den.log2 num : Int)

def onGrid (even : Bool) (low num high den : Nat) (exponent : Int) : Option Nat :=
  let up := Nat.pow 10 (-exponent).toNat
  let den := den * Nat.pow 10 exponent.toNat
  let readsBack (c : Nat) : Bool :=
    if even then decide (low * up ≤ c * den ∧ c * den ≤ high * up)
    else decide (low * up < c * den ∧ c * den < high * up)
  let below := num * up / den
  let above := below + 1
  if readsBack below then
    if readsBack above ∧ den ≤ 2 * (num * up - below * den) then some above else some below
  else if readsBack above then some above
  else none

def shortest (magnitude : Nat) : Decimal :=
  if magnitude = 0 then ⟨0, 0⟩
  else
    -- in halves of a least subnormal, so that midpoints are whole numbers
    let mid := fmt.scaled magnitude
    let low := fmt.scaled (magnitude - 1) + mid
    let high := mid + fmt.scaled (magnitude + 1)
    let den := 2 <<< fmt.oneExponent
    let lead := leadExponent (2 * mid) den
    let attempt (n : Nat) : Option Decimal :=
      let exponent := lead - n
      (onGrid (magnitude % 2 == 0) low (2 * mid) high den exponent).map (⟨·, exponent⟩)
    ((List.range 20).findSome? attempt).elim ⟨0, 0⟩ (Decimal.stripZeros 20)

/-- The text of a float. -/
def render (x : FloatDatum) : String :=
  if fmt.isNaN x then "NaN"
  else
    let text := if fmt.isInfinite x then "inf" else (fmt.shortest x.magnitude).render
    if x.negative then "-" ++ text else text

def ofDecimal (d : Decimal) : Nat :=
  let length := (Nat.toDigits 10 d.digits).length
  if d.digits = 0 then 0
  else if (fmt.oneExponent : Int) < length + d.exponent then fmt.infinity
  else if length + d.exponent < -(fmt.oneExponent : Int) then 0
  else
    fmt.round ((d.digits * Nat.pow 10 d.exponent.toNat) <<< fmt.oneExponent)
      (Nat.pow 10 (-d.exponent).toNat)

end FloatFormat

end Wasm
