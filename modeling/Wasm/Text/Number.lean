import Wasm.Numeric.Decimal

/-! # Numbers in text

Integers are decimal, with an optional sign; floats are rounded once. -/

namespace Wasm.Text

/-- What can be wrong with the text of a number. -/
inductive NumberFault where
  | emptyInteger
  | invalidDigit
  | tooLarge
  | emptyFloat
  | invalidFloat
deriving DecidableEq, Inhabited

def NumberFault.message : NumberFault → String
  | emptyInteger => "cannot parse integer from empty string"
  | invalidDigit => "invalid digit found in string"
  | tooLarge => "number too large to fit in target type"
  | emptyFloat => "cannot parse float from empty string"
  | invalidFloat => "invalid float literal"

def digit? (c : Char) : Option Nat :=
  if '0' ≤ c ∧ c ≤ '9' then some (c.toNat - '0'.toNat) else none

def digitsBelow (limit : Nat) : List Char → Nat → Except NumberFault Nat
  | [], acc => .ok acc
  | c :: cs, acc =>
    match digit? c with
    | none => .error .invalidDigit
    | some d =>
      if acc * 10 + d < limit then digitsBelow limit cs (acc * 10 + d) else .error .tooLarge

def natBelow (limit : Nat) : List Char → Except NumberFault Nat
  | [] => .error .emptyInteger
  | ['+'] => .error .invalidDigit
  | '+' :: cs => digitsBelow limit cs 0
  | cs => digitsBelow limit cs 0

def negativeAbove? (limit : Nat) : List Char → Option Nat
  | '-' :: c :: cs =>
    match digitsBelow limit (c :: cs) 0 with
    | .ok n => some n
    | .error _ => none
  | _ => none

def word (bits : Nat) (text : String) : Except NumberFault (BitVec bits) :=
  match natBelow (Nat.pow 2 bits) text.toList with
  | .ok n => .ok (BitVec.ofNat bits n)
  | .error fault =>
    match negativeAbove? (Nat.pow 2 (bits - 1) + 1) text.toList with
    | some n => .ok (BitVec.ofInt bits (-(n : Int)))
    | none => .error fault

def digitsValue (cs : List Char) : Nat :=
  cs.foldl (fun acc c => acc * 10 + (digit? c).getD 0) 0

def takeDigits (cs : List Char) : List Char × List Char := cs.span fun c => (digit? c).isSome

def exponent? (cs : List Char) : Option Int :=
  let (negative, cs) := match cs with
    | '-' :: cs => (true, cs)
    | '+' :: cs => (false, cs)
    | cs => (false, cs)
  match takeDigits cs with
  | (d :: ds, []) =>
    let n := digitsValue (d :: ds)
    some (if negative then -(n : Int) else n)
  | _ => none

def decimal? (cs : List Char) : Option Decimal :=
  let (whole, rest) := takeDigits cs
  let (fraction, rest) := match rest with
    | '.' :: rest => takeDigits rest
    | rest => ([], rest)
  let digits := whole ++ fraction
  let places : Int := fraction.length
  if digits.isEmpty then none
  else
    match rest with
    | [] => some ⟨digitsValue digits, -places⟩
    | c :: rest =>
      if c = 'e' ∨ c = 'E' then (exponent? rest).map fun e => ⟨digitsValue digits, e - places⟩
      else none

def magnitude? (fmt : FloatFormat) (cs : List Char) : Option Nat :=
  let name := String.ofList (cs.map Char.toLower)
  if name = "inf" ∨ name = "infinity" then some fmt.infinity
  else if name = "nan" then some (fmt.infinity + fmt.quietBit)
  else (decimal? cs).map fmt.ofDecimal

def float (fmt : FloatFormat) (text : String) : Except NumberFault FloatDatum :=
  let (negative, cs) := match text.toList with
    | '-' :: cs => (true, cs)
    | '+' :: cs => (false, cs)
    | cs => (false, cs)
  if text.isEmpty then .error .emptyFloat
  else
    match magnitude? fmt cs with
    | some magnitude => .ok ⟨negative, magnitude⟩
    | none => .error .invalidFloat

end Wasm.Text
