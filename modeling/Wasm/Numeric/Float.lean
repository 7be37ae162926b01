import Wasm.Operator
import Wasm.Trap

/-! # Binary floating point on bit patterns

Operations compute exact ratios in units of the least subnormal, and round once. -/

namespace Wasm

/-- The floating point formats. -/
inductive FloatFormat where
  | binary32
  | binary64
deriving DecidableEq, Inhabited

def FloatWidth.format : FloatWidth → FloatFormat
  | .w32 => .binary32
  | .w64 => .binary64

/-- A float: its sign and the pattern of its magnitude. -/
structure FloatDatum where
  negative : Bool
  magnitude : Nat
deriving DecidableEq, Inhabited

def roundHalfEven (num den : Nat) : Nat :=
  let quotient := num / den
  let twice := 2 * (num % den)
  if twice < den then quotient
  else if den < twice then quotient + 1
  else quotient + quotient % 2

def rootFloor : (steps radicand : Nat) → Nat
  | 0, _ => 0
  | steps + 1, radicand =>
    let root := 2 * rootFloor steps (radicand / 4)
    if (root + 1) * (root + 1) ≤ radicand then root + 1 else root

namespace FloatFormat

variable (fmt : FloatFormat)

def bits : FloatFormat → Nat
  | binary32 => 32
  | binary64 => 64

def exponentBits : FloatFormat → Nat
  | binary32 => 8
  | binary64 => 11

def fractionBits : FloatFormat → Nat
  | binary32 => 23
  | binary64 => 52

def fractionWeight : FloatFormat → Nat
  | binary32 => 0x800000
  | binary64 => 0x10000000000000

def signWeight : FloatFormat → Nat
  | binary32 => 0x80000000
  | binary64 => 0x8000000000000000

def infinity : FloatFormat → Nat
  | binary32 => 0x7F800000
  | binary64 => 0x7FF0000000000000

def quietBit : FloatFormat → Nat
  | binary32 => 0x400000
  | binary64 => 0x8000000000000

def oneExponent : FloatFormat → Nat
  | binary32 => 149
  | binary64 => 1074

theorem fractionWeight_eq : fmt.fractionWeight = Nat.pow 2 fmt.fractionBits := by
  cases fmt <;> rfl

theorem signWeight_eq : fmt.signWeight = Nat.pow 2 (fmt.exponentBits + fmt.fractionBits) := by
  cases fmt <;> rfl

theorem infinity_eq :
    fmt.infinity = (Nat.pow 2 fmt.exponentBits - 1) * Nat.pow 2 fmt.fractionBits := by
  cases fmt <;> rfl

theorem quietBit_eq : fmt.quietBit = Nat.pow 2 (fmt.fractionBits - 1) := by
  cases fmt <;> rfl

theorem oneExponent_eq :
    fmt.oneExponent = Nat.pow 2 (fmt.exponentBits - 1) - 2 + fmt.fractionBits := by
  cases fmt <;> rfl

def ofBits (bits : Nat) : FloatDatum where
  negative := decide (fmt.signWeight ≤ bits)
  magnitude := bits % fmt.signWeight

def toBits (x : FloatDatum) : Nat :=
  if x.negative then fmt.signWeight + x.magnitude else x.magnitude

def isNaN (x : FloatDatum) : Bool := decide (fmt.infinity < x.magnitude)

def isInfinite (x : FloatDatum) : Bool := x.magnitude == fmt.infinity

def scaled (magnitude : Nat) : Nat :=
  let exponent := magnitude / fmt.fractionWeight
  let fraction := magnitude % fmt.fractionWeight
  if exponent = 0 then fraction
  else (fmt.fractionWeight + fraction) <<< (exponent - 1)

def value (x : FloatDatum) : Int :=
  if x.negative then -(fmt.scaled x.magnitude : Int) else fmt.scaled x.magnitude

def round (num den : Nat) : Nat :=
  -- the last place is `2 ^ shift` least subnormals wide
  let shift := (num / den).log2 - fmt.fractionBits
  let pattern := (shift <<< fmt.fractionBits) + roundHalfEven num (den <<< shift)
  if pattern < fmt.infinity then pattern else fmt.infinity

def roundWhole (n : Nat) : Nat := fmt.round (n <<< fmt.oneExponent) 1

def half : FloatFormat → FloatDatum
  | binary32 => ⟨false, 0x3F000000⟩
  | binary64 => ⟨false, 0x3FE0000000000000⟩

def defaultNaN : FloatDatum := ⟨true, fmt.infinity + fmt.quietBit⟩

/-- A NaN made quiet. -/
def quiet (x : FloatDatum) : FloatDatum :=
  { x with magnitude := x.magnitude ||| fmt.quietBit }

def propagateNaN (x y : FloatDatum) : FloatDatum :=
  if fmt.isNaN x then fmt.quiet x else fmt.quiet y

/-! ## Order -/

def rank (x : FloatDatum) : Int :=
  if x.negative then -(x.magnitude : Int) else x.magnitude

def comparable (x y : FloatDatum) : Bool := !fmt.isNaN x && !fmt.isNaN y

def eq (x y : FloatDatum) : Bool := fmt.comparable x y && rank x == rank y

def lt (x y : FloatDatum) : Bool := fmt.comparable x y && decide (rank x < rank y)

def le (x y : FloatDatum) : Bool := fmt.comparable x y && decide (rank x ≤ rank y)

/-! ## Arithmetic -/

def add (x y : FloatDatum) : FloatDatum :=
  if fmt.isNaN x || fmt.isNaN y then fmt.propagateNaN x y
  else if fmt.isInfinite x then
    if fmt.isInfinite y && x.negative != y.negative then fmt.defaultNaN else x
  else if fmt.isInfinite y then y
  else
    let sum := fmt.value x + fmt.value y
    if sum = 0 then ⟨x.negative && y.negative, 0⟩
    else ⟨decide (sum < 0), fmt.round sum.natAbs 1⟩

def neg (x : FloatDatum) : FloatDatum := { x with negative := !x.negative }

def sub (x y : FloatDatum) : FloatDatum :=
  if fmt.isNaN x || fmt.isNaN y then fmt.propagateNaN x y else fmt.add x (neg y)

def mul (x y : FloatDatum) : FloatDatum :=
  let negative := x.negative != y.negative
  if fmt.isNaN x || fmt.isNaN y then fmt.propagateNaN x y
  else if fmt.isInfinite x || fmt.isInfinite y then
    if x.magnitude = 0 ∨ y.magnitude = 0 then fmt.defaultNaN else ⟨negative, fmt.infinity⟩
  else
    ⟨negative, fmt.round (fmt.scaled x.magnitude * fmt.scaled y.magnitude) (1 <<< fmt.oneExponent)⟩

def div (x y : FloatDatum) : FloatDatum :=
  let negative := x.negative != y.negative
  if fmt.isNaN x || fmt.isNaN y then fmt.propagateNaN x y
  else if fmt.isInfinite x then
    if fmt.isInfinite y then fmt.defaultNaN else ⟨negative, fmt.infinity⟩
  else if fmt.isInfinite y then ⟨negative, 0⟩
  else if y.magnitude = 0 then
    if x.magnitude = 0 then fmt.defaultNaN else ⟨negative, fmt.infinity⟩
  else
    ⟨negative, fmt.round (fmt.scaled x.magnitude <<< fmt.oneExponent) (fmt.scaled y.magnitude)⟩

def min (x y : FloatDatum) : FloatDatum :=
  if fmt.isNaN x || fmt.isNaN y then fmt.add x y
  else if rank x = rank y then ⟨x.negative || y.negative, x.magnitude⟩
  else if rank x < rank y then x
  else y

def max (x y : FloatDatum) : FloatDatum :=
  if fmt.isNaN x || fmt.isNaN y then fmt.add x y
  else if rank x = rank y then ⟨x.negative && y.negative, x.magnitude⟩
  else if rank y < rank x then x
  else y

def copysign (x y : FloatDatum) : FloatDatum := { x with negative := y.negative }

def abs (x : FloatDatum) : FloatDatum := { x with negative := false }

def sqrt (x : FloatDatum) : FloatDatum :=
  if fmt.isNaN x then fmt.quiet x
  else if x.magnitude = 0 then x
  else if x.negative then fmt.defaultNaN
  else if fmt.isInfinite x then x
  else
    let radicand := fmt.scaled x.magnitude <<< fmt.oneExponent
    -- enough bits of the root for rounding, and one that tells whether it is exact
    let steps := fmt.fractionBits + 6
    let shift := (radicand.log2 - 2 * (fmt.fractionBits + 4)) / 2
    let root := rootFloor steps (radicand >>> (2 * shift))
    let exact := (root * root) <<< (2 * shift) == radicand
    ⟨false, fmt.round ((2 * root + if exact then 0 else 1) <<< shift) 2⟩

/-! ## Whole parts -/

def wholePart (magnitude : Nat) : Nat := fmt.scaled magnitude >>> fmt.oneExponent

def isWhole (magnitude : Nat) : Bool :=
  (fmt.wholePart magnitude) <<< fmt.oneExponent == fmt.scaled magnitude

def toWhole (x : FloatDatum) (whole : Nat) : FloatDatum :=
  if fmt.isNaN x then fmt.quiet x
  else if fmt.isInfinite x then x
  else { x with magnitude := fmt.roundWhole whole }

def trunc (x : FloatDatum) : FloatDatum := fmt.toWhole x (fmt.wholePart x.magnitude)

def ceil (x : FloatDatum) : FloatDatum :=
  let whole := fmt.wholePart x.magnitude
  fmt.toWhole x (if !x.negative && !fmt.isWhole x.magnitude then whole + 1 else whole)

def floor (x : FloatDatum) : FloatDatum :=
  let whole := fmt.wholePart x.magnitude
  fmt.toWhole x (if x.negative && !fmt.isWhole x.magnitude then whole + 1 else whole)

/-! ## Conversions -/

def truncInt (x : FloatDatum) : Int :=
  if x.negative then -(fmt.wholePart x.magnitude : Int) else fmt.wholePart x.magnitude

def toIntSat (least greatest : Int) (x : FloatDatum) : Int :=
  if fmt.isNaN x then 0
  else if fmt.isInfinite x then
    if x.negative then least else greatest
  else
    let n := fmt.truncInt x
    if n < least then least else if greatest < n then greatest else n

def ofInt (n : Int) : FloatDatum := ⟨decide (n < 0), fmt.roundWhole n.natAbs⟩

def convert (target : FloatFormat) (x : FloatDatum) : FloatDatum :=
  if fmt.isNaN x then
    let payload := x.magnitude - fmt.infinity
    let payload :=
      (payload <<< (target.fractionBits - fmt.fractionBits))
        >>> (fmt.fractionBits - target.fractionBits)
    target.quiet { x with magnitude := target.infinity + payload }
  else if fmt.isInfinite x then { x with magnitude := target.infinity }
  else
    { x with
      magnitude :=
        target.round (fmt.scaled x.magnitude <<< target.oneExponent) (1 <<< fmt.oneExponent) }

end FloatFormat

end Wasm
