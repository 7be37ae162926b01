import Mathlib.Algebra.Ring.Int.Defs
import Mathlib.Algebra.Ring.Nat
import Mathlib.Data.Int.ModEq
import Wasm.CommandLine.Argument

/-! # Integers in text

`Numeral` says which texts write which integer (`Text.word_eq_ok_iff`). -/

namespace Wasm.Text

/-- One or more decimal digits. -/
structure Digits (cs : List Char) : Prop where
  ne_nil : cs ≠ []
  isDigit : ∀ c ∈ cs, c.isDigit = true

/-- The text of an integer: digits, maybe with a sign. -/
inductive Numeral : List Char → Int → Prop where
  | plain {cs : List Char} (h : Digits cs) : Numeral cs (Nat.ofDigitChars 10 cs 0)
  | plus {cs : List Char} (h : Digits cs) : Numeral ('+' :: cs) (Nat.ofDigitChars 10 cs 0)
  | minus {cs : List Char} (h : Digits cs) : Numeral ('-' :: cs) (-(Nat.ofDigitChars 10 cs 0 : Nat))

variable {limit acc n bits : Nat} {cs : List Char}

/-! ## Digits -/

theorem digit?_eq (c : Char) :
    digit? c = if c.isDigit = true then some (c.toNat - '0'.toNat) else none := by
  have hc : c.isDigit = true ↔ '0' ≤ c ∧ c ≤ '9' := by
    simp only [Char.isDigit, Char.le_def, Bool.and_eq_true, decide_eq_true_eq]
  simp only [digit?, hc]

theorem le_ofDigitChars (cs : List Char) (acc : Nat) : acc ≤ Nat.ofDigitChars 10 cs acc := by
  induction cs generalizing acc with
  | nil => rw [Nat.ofDigitChars_nil]
  | cons c cs ih =>
    rw [Nat.ofDigitChars_cons]
    have := ih (10 * acc + (c.toNat - '0'.toNat))
    omega

theorem digitsBelow_eq_ok_iff (hacc : acc < limit) : digitsBelow limit cs acc = .ok n ↔
      (∀ c ∈ cs, c.isDigit = true) ∧ n = Nat.ofDigitChars 10 cs acc ∧ n < limit := by
  induction cs generalizing acc with
  | nil =>
    rw [digitsBelow, Nat.ofDigitChars_nil]
    constructor
    · intro h
      cases h
      exact ⟨fun c hc => absurd hc List.not_mem_nil, rfl, hacc⟩
    · rintro ⟨-, rfl, -⟩
      rfl
  | cons c cs ih =>
    rw [digitsBelow, digit?_eq, Nat.ofDigitChars_cons, List.forall_mem_cons, Nat.mul_comm 10 acc]
    by_cases hc : c.isDigit = true
    · rw [if_pos hc]
      dsimp only
      split
      · next hlt =>
        rw [ih hlt]
        simp only [hc, true_and]
      · next hge =>
        -- what was read so far only grows with the digits that follow
        have := le_ofDigitChars cs (acc * 10 + (c.toNat - '0'.toNat))
        constructor
        · intro h
          cases h
        · rintro ⟨-, rfl, hlt⟩
          omega
    · rw [if_neg hc]
      constructor
      · intro h
        cases h
      · intro h
        exact absurd h.1.1 hc

theorem Digits.digitsBelow_eq_ok_iff (hcs : cs ≠ []) (hlimit : 0 < limit) :
    digitsBelow limit cs 0 = .ok n ↔ Digits cs ∧ n = Nat.ofDigitChars 10 cs 0 ∧ n < limit := by
  rw [Text.digitsBelow_eq_ok_iff hlimit]
  exact and_congr_left fun _ => ⟨fun h => ⟨hcs, h⟩, Digits.isDigit⟩

theorem Digits.not_sign {c : Char} (h : Digits (c :: cs)) : c ≠ '+' ∧ c ≠ '-' := by
  have hc := h.isDigit c List.mem_cons_self
  constructor <;> (rintro rfl; cases hc)

/-! ## Signs -/

theorem natBelow_eq_ok_iff (hlimit : 0 < limit) : natBelow limit cs = .ok n ↔
      ∃ ds, (cs = ds ∨ cs = '+' :: ds) ∧ Digits ds ∧ n = Nat.ofDigitChars 10 ds 0 ∧ n < limit := by
  constructor
  · intro h
    unfold natBelow at h
    split at h
    · cases h
    · cases h
    · next cs hcs =>
      exact ⟨cs, .inr rfl, (Digits.digitsBelow_eq_ok_iff hcs hlimit).mp h⟩
    · next hcs _ _ => exact ⟨cs, .inl rfl, (Digits.digitsBelow_eq_ok_iff hcs hlimit).mp h⟩
  · rintro ⟨_ | ⟨c, ds⟩, hcs, hdigits, hn⟩
    · exact absurd rfl hdigits.ne_nil
    · rw [← (Digits.digitsBelow_eq_ok_iff hdigits.ne_nil hlimit).mpr ⟨hdigits, hn⟩]
      obtain rfl | rfl := hcs
      · obtain ⟨hplus, -⟩ := hdigits.not_sign
        simp [natBelow, hplus]
      · rfl

theorem negativeAbove?_eq_some_iff (hlimit : 0 < limit) : negativeAbove? limit cs = some n ↔
      ∃ ds, cs = '-' :: ds ∧ Digits ds ∧ n = Nat.ofDigitChars 10 ds 0 ∧ n < limit := by
  constructor
  · intro h
    unfold negativeAbove? at h
    split at h
    · next c cs =>
      split at h
      · next hn =>
        cases h
        exact ⟨_, rfl, (Digits.digitsBelow_eq_ok_iff (List.cons_ne_nil _ _) hlimit).mp hn⟩
      · cases h
    · cases h
  · rintro ⟨_ | ⟨c, ds⟩, rfl, hdigits, hn⟩
    · exact absurd rfl hdigits.ne_nil
    · rw [negativeAbove?, (Digits.digitsBelow_eq_ok_iff hdigits.ne_nil hlimit).mpr ⟨hdigits, hn⟩]

/-! ## Words -/

theorem eq_ofInt_iff {w : BitVec bits} {i : Int} :
    w = BitVec.ofInt bits i ↔ w.toInt ≡ i [ZMOD 2 ^ bits] := by
  have hcast : ((2 ^ bits : Nat) : Int) = 2 ^ bits := Int.natCast_pow 2 bits
  constructor
  · rintro rfl
    rw [BitVec.toInt_ofInt, ← hcast]
    exact Int.bmod_emod
  · intro h
    rw [← hcast] at h
    rw [← BitVec.toInt_inj, BitVec.toInt_ofInt, ← Int.emod_bmod, ← h, Int.emod_bmod,
      ← BitVec.toInt_ofInt, BitVec.ofInt_toInt]

def InRange (bits : Nat) (i : Int) : Prop := -2 ^ (bits - 1) ≤ i ∧ i < 2 ^ bits

theorem inRange_natCast : InRange bits n ↔ n < Nat.pow 2 bits := by
  have hcast : ((Nat.pow 2 bits : Nat) : Int) = 2 ^ bits := Int.natCast_pow 2 bits
  have hpos : (0 : Int) < 2 ^ (bits - 1) := Int.pow_pos (by decide)
  unfold InRange
  omega

theorem inRange_neg : InRange bits (-n) ↔ n < Nat.pow 2 (bits - 1) + 1 := by
  have hcast : ((Nat.pow 2 (bits - 1) : Nat) : Int) = 2 ^ (bits - 1) := Int.natCast_pow 2 (bits - 1)
  have hpos : (0 : Int) < 2 ^ bits := Int.pow_pos (by decide)
  unfold InRange
  omega

theorem word_eq_ok_iff {text : String} {w : BitVec bits} : word bits text = .ok w ↔
      ∃ i, Numeral text.toList i ∧ InRange bits i ∧ w = BitVec.ofInt bits i := by
  have hlimit : 0 < Nat.pow 2 bits := Nat.two_pow_pos bits
  constructor
  · intro h
    unfold word at h
    split at h
    · next n hn =>
      cases h
      obtain ⟨ds, hcs, hds, rfl, hlt⟩ := (natBelow_eq_ok_iff hlimit).mp hn
      refine ⟨_, ?_, inRange_natCast.mpr hlt, (BitVec.ofInt_natCast _ _).symm⟩
      obtain rfl | hcs := hcs
      · exact .plain hds
      · exact hcs ▸ .plus hds
    · split at h
      · next n hn =>
        cases h
        obtain ⟨ds, hcs, hds, rfl, hlt⟩ := (negativeAbove?_eq_some_iff (Nat.succ_pos _)).mp hn
        exact ⟨_, hcs ▸ .minus hds, inRange_neg.mpr hlt, rfl⟩
      · cases h
  · rintro ⟨i, hi, hrange, rfl⟩
    generalize hcs : text.toList = cs at hi
    cases hi with
    | plain hds =>
      rw [word, (natBelow_eq_ok_iff hlimit).mpr ⟨_, .inl hcs, hds, rfl, inRange_natCast.mp hrange⟩,
        BitVec.ofInt_natCast]
    | plus hds =>
      rw [word, (natBelow_eq_ok_iff hlimit).mpr ⟨_, .inr hcs, hds, rfl, inRange_natCast.mp hrange⟩,
        BitVec.ofInt_natCast]
    | minus hds =>
      rw [word, (negativeAbove?_eq_some_iff (Nat.succ_pos _)).mpr
        ⟨_, hcs, hds, rfl, inRange_neg.mp hrange⟩]
      split
      · next n hn =>
        -- No unsigned number starts with a minus sign.
        obtain ⟨ds, hds | hds, hdigits, -⟩ := (natBelow_eq_ok_iff hlimit).mp hn
        · rw [hcs] at hds
          exact absurd rfl (hds ▸ hdigits).not_sign.2
        · rw [hcs] at hds
          exact absurd (List.cons.inj hds).1 (by decide)
      · rfl

/-! ## Text of words -/

theorem Digits.toDigits (n : Nat) : Digits (Nat.toDigits 10 n) :=
  ⟨Nat.toDigits_ne_nil, fun _ => Nat.isDigit_of_mem_toDigits (by decide) (by decide)⟩

theorem Numeral.repr (i : Int) : Numeral i.repr.toList i := by
  rw [Int.repr_eq_if]
  split
  · next h =>
    have hn := Numeral.plain (.toDigits i.toNat)
    rw [Nat.ofDigitChars_ten_toDigits, Int.toNat_of_nonneg h] at hn
    rwa [Nat.toList_repr]
  · next h =>
    have hn := Numeral.minus (.toDigits (-i).toNat)
    rw [Nat.ofDigitChars_ten_toDigits, Int.toNat_of_nonneg (by omega), Int.neg_neg] at hn
    rwa [String.toList_append, Nat.toList_repr]

theorem word_repr (w : BitVec bits) : word bits w.toInt.repr = .ok w := by
  have hlt : 2 * w.toInt < 2 ^ bits := BitVec.two_mul_toInt_lt
  have hpos : (0 : Int) < 2 ^ bits := Int.pow_pos (by decide)
  exact word_eq_ok_iff.mpr ⟨_, .repr _, ⟨BitVec.le_toInt w, by omega⟩, BitVec.ofInt_toInt.symm⟩

end Wasm.Text

namespace Wasm.CommandLine

open Text

theorem readAs_word_eq_ok_iff {bits : Nat} {type : ValueType} {text : String}
    {value : BitVec bits → Value} {v : Value} :
    readAs type text value (word bits text) = .ok v ↔ ∃ (i : Int) (w : BitVec bits),
      Numeral text.toList i ∧ -2 ^ (bits - 1) ≤ i ∧ i < 2 ^ bits ∧ v = value w ∧
        w.toInt ≡ i [ZMOD 2 ^ bits] := by
  have hread : readAs type text value (word bits text) = .ok v ↔
      ∃ w, word bits text = .ok w ∧ v = value w := by
    cases word bits text with
    | error fault => simp [readAs]
    | ok w => simp [readAs, eq_comm]
  rw [hread]
  constructor
  · rintro ⟨w, hw, rfl⟩
    obtain ⟨i, hi, ⟨hlow, hhigh⟩, heq⟩ := word_eq_ok_iff.mp hw
    exact ⟨i, w, hi, hlow, hhigh, rfl, eq_ofInt_iff.mp heq⟩
  · rintro ⟨i, w, hi, hlow, hhigh, rfl, hmod⟩
    exact ⟨w, word_eq_ok_iff.mpr ⟨i, hi, ⟨hlow, hhigh⟩, eq_ofInt_iff.mpr hmod⟩, rfl⟩

/-- **Arguments for integer parameters** are the numerals of the width, signed or unsigned, and the
    text of a word gives it back. -/
theorem argument_exact (func : FuncAddr → String) :
    (∀ text v, argument .i32 text = .ok v ↔ ∃ (i : Int) (w : BitVec 32),
      Numeral text.toList i ∧ -2 ^ 31 ≤ i ∧ i < 2 ^ 32 ∧ v = .i32 w ∧ w.toInt ≡ i [ZMOD 2 ^ 32]) ∧
    (∀ text v, argument .i64 text = .ok v ↔ ∃ (i : Int) (w : BitVec 64),
      Numeral text.toList i ∧ -2 ^ 63 ≤ i ∧ i < 2 ^ 64 ∧ v = .i64 w ∧ w.toInt ≡ i [ZMOD 2 ^ 64]) ∧
    (∀ w, argument .i32 ((Value.i32 w).render func) = .ok (.i32 w)) ∧
    ∀ w, argument .i64 ((Value.i64 w).render func) = .ok (.i64 w) := by
  refine ⟨fun text v => readAs_word_eq_ok_iff, fun text v => readAs_word_eq_ok_iff, fun w => ?_,
    fun w => ?_⟩
  · rw [argument, Value.render, Int.toString_eq_repr, word_repr]
    rfl
  · rw [argument, Value.render, Int.toString_eq_repr, word_repr]
    rfl

end Wasm.CommandLine
