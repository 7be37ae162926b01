import Wasm.Machine.Operate

/-! # Division of words

Dividing words divides the integers that they are read as (`Signedness.toInt_quotient`). -/

namespace Wasm

variable {n : Nat} {a b : BitVec n}

namespace Signedness

variable {sign : Signedness}

def quotient (sign : Signedness) (a b : BitVec n) : BitVec n :=
  match sign with
  | .signed => a.sdiv b
  | .unsigned => a / b

def remainder (sign : Signedness) (a b : BitVec n) : BitVec n :=
  match sign with
  | .signed => a.srem b
  | .unsigned => a % b

/-- The least integer divided by minus one. -/
abbrev Overflows (sign : Signedness) (a b : BitVec n) : Prop :=
  sign = .signed ∧ a = BitVec.intMin n ∧ b = -1

theorem toInt_ne_zero (h : b ≠ 0) : sign.toInt b ≠ 0 := by
  cases sign with
  | signed =>
    intro hzero
    exact h (BitVec.toInt_inj.mp (hzero.trans BitVec.toInt_zero.symm))
  | unsigned =>
    intro hzero
    exact h (BitVec.toNat_inj.mp (Int.ofNat.inj hzero))

theorem toInt_quotient (h : ¬ sign.Overflows a b) :
    sign.toInt (sign.quotient a b) = (sign.toInt a).tdiv (sign.toInt b) := by
  cases sign with
  | signed =>
    refine BitVec.toInt_sdiv_of_ne_or_ne a b ?_
    by_cases ha : a = BitVec.intMin n
    · exact .inr fun hb => h ⟨rfl, ha, hb⟩
    · exact .inl ha
  | unsigned =>
    show ((a / b).toNat : Int) = _
    rw [BitVec.toNat_udiv, Int.ofNat_tdiv]
    rfl

theorem toInt_remainder : sign.toInt (sign.remainder a b) = (sign.toInt a).tmod (sign.toInt b) := by
  cases sign with
  | signed => exact BitVec.toInt_srem a b
  | unsigned =>
    show ((a % b).toNat : Int) = _
    rw [BitVec.toNat_umod, Int.ofNat_tmod]
    rfl

theorem toInt_remainder_lt (h : b ≠ 0) :
    (sign.toInt (sign.remainder a b)).natAbs < (sign.toInt b).natAbs ∧
      (sign.toInt (sign.remainder a b) = 0 ∨
        (sign.toInt (sign.remainder a b)).sign = (sign.toInt a).sign) := by
  rw [toInt_remainder]
  constructor
  · rw [Int.natAbs_tmod]
    exact Nat.mod_lt _ (Int.natAbs_pos.mpr (toInt_ne_zero h))
  · by_cases hdvd : sign.toInt b ∣ sign.toInt a
    · exact .inl (Int.tmod_eq_zero_of_dvd hdvd)
    · exact .inr (by rw [Int.sign_tmod, if_neg hdvd])

end Signedness

open Signedness

theorem IntBinary.eval_div (sign : Signedness) : IntBinary.eval (.div sign) a b =
      if b = 0 then .error .divideByZero
      else if sign.Overflows a b then .error .integerOverflow
      else .ok (sign.quotient a b) := by
  cases sign with
  | signed => simp only [eval, Integer.divS, Overflows, true_and]; rfl
  | unsigned => simp [eval, Integer.divU, Overflows, quotient]

theorem IntBinary.eval_rem (sign : Signedness) : IntBinary.eval (.rem sign) a b =
      if b = 0 then .error .divideByZero else .ok (sign.remainder a b) := by
  cases sign with
  | signed => rfl
  | unsigned => rfl

/-- The integer that has these bits. -/
def IntWidth.value : (w : IntWidth) → BitVec w.bits → Value
  | .w32, bits => .i32 bits
  | .w64, bits => .i64 bits

theorem BinaryOp.apply_int (w : IntWidth) (op : IntBinary) (a b : BitVec w.bits) :
    (BinaryOp.int w op).apply (w.value a) (w.value b) = (op.eval a b).map w.value := by
  cases w with
  | w32 => exact congrArg (Except.map Value.i32) (op.eval32_eq a b)
  | w64 => exact congrArg (Except.map Value.i64) (op.eval64_eq a b)

/-- **Division of words is exact**: it traps for zero and for the one quotient that does not fit,
    and otherwise the dividend is quotient times divisor plus a remainder of its sign. -/
theorem BinaryOp.div_rem_exact (w : IntWidth) (sign : Signedness) (a b : BitVec w.bits) :
    let div := (BinaryOp.int w (.div sign)).apply (w.value a) (w.value b)
    let rem := (BinaryOp.int w (.rem sign)).apply (w.value a) (w.value b)
    (div = .error .divideByZero ↔ b = 0) ∧
    (rem = .error .divideByZero ↔ b = 0) ∧
    (div = .error .integerOverflow ↔ sign.Overflows a b) ∧
    (b ≠ 0 → ∃ r, rem = .ok (w.value r) ∧ (sign.toInt r).natAbs < (sign.toInt b).natAbs ∧
      (sign.toInt r = 0 ∨ (sign.toInt r).sign = (sign.toInt a).sign) ∧
      (sign.Overflows a b → r = 0) ∧
      (¬ sign.Overflows a b → ∃ q, div = .ok (w.value q) ∧
        sign.toInt a = sign.toInt q * sign.toInt b + sign.toInt r)) := by
  intro div rem
  have hover : sign.Overflows a b → b ≠ 0 ∧ sign.remainder a b = 0 := by
    rintro ⟨rfl, rfl, rfl⟩
    cases w with
    | w32 => decide
    | w64 => decide
  have hdiv : div = _ := (apply_int w (.div sign) a b).trans (congrArg _ (IntBinary.eval_div sign))
  have hrem : rem = _ := (apply_int w (.rem sign) a b).trans (congrArg _ (IntBinary.eval_rem sign))
  by_cases hb : b = 0
  · rw [if_pos hb] at hdiv hrem
    rw [hdiv, hrem]
    refine ⟨⟨fun _ => hb, fun _ => rfl⟩, ⟨fun _ => hb, fun _ => rfl⟩, ⟨fun h => ?_, fun h => ?_⟩,
      fun h => absurd hb h⟩
    · cases h
    · exact absurd hb (hover h).1
  · rw [if_neg hb] at hdiv hrem
    rw [hdiv, hrem]
    refine ⟨⟨fun h => ?_, fun h => absurd h hb⟩, ⟨fun h => ?_, fun h => absurd h hb⟩, ?_,
      fun _ => ⟨_, rfl, (toInt_remainder_lt hb).1, (toInt_remainder_lt hb).2,
        fun h => (hover h).2, fun h => ?_⟩⟩
    · split at h <;> cases h
    · cases h
    · by_cases h : sign.Overflows a b
      · rw [if_pos h]
        exact ⟨fun _ => h, fun _ => rfl⟩
      · rw [if_neg h]
        refine ⟨fun herr => ?_, fun hyes => absurd hyes h⟩
        cases herr
    · rw [if_neg h]
      refine ⟨_, rfl, ?_⟩
      rw [toInt_quotient h, toInt_remainder, Int.tdiv_mul_add_tmod]

end Wasm
