import Mathlib.Data.Rat.Floor
import Wasm.Numeric.Evaluate

/-! # Magnitudes of floats

A finite magnitude is a significand and a shift, and rounding gives it back
(`FloatFormat.Normal.round_eq`). -/

namespace Wasm

theorem roundHalfEven_mul (k : Nat) {den : Nat} (h : 0 < den) :
    roundHalfEven (k * den) den = k := by
  unfold roundHalfEven
  rw [Nat.mul_div_cancel k h, Nat.mul_mod_left]
  exact if_pos h

namespace FloatFormat

variable {fmt : FloatFormat}

/-- A significand and its shift. -/
structure Normal (fmt : FloatFormat) (significand shift : Nat) : Prop where
  lt : significand < 2 * fmt.fractionWeight
  leads : shift = 0 ∨ fmt.fractionWeight ≤ significand

theorem fractionWeight_pos (fmt : FloatFormat) : 0 < fmt.fractionWeight := by
  cases fmt <;> decide

variable {k s : Nat}

theorem Normal.scaled_eq (h : fmt.Normal k s) :
    fmt.scaled (s * fmt.fractionWeight + k) = k <<< s := by
  have hpos := fmt.fractionWeight_pos
  have hlt := h.lt
  unfold scaled
  by_cases hle : fmt.fractionWeight ≤ k
  · obtain ⟨fraction, rfl⟩ := Nat.exists_eq_add_of_le hle
    have hsum : s * fmt.fractionWeight + (fmt.fractionWeight + fraction) =
        fraction + (s + 1) * fmt.fractionWeight := by ring
    rw [hsum, Nat.add_mul_div_right _ _ hpos, Nat.add_mul_mod_self_right,
      Nat.div_eq_of_lt (by omega), Nat.mod_eq_of_lt (by omega), if_neg (by omega)]
    congr 1
    omega
  · obtain rfl : s = 0 := h.leads.resolve_right hle
    rw [Nat.zero_mul, Nat.zero_add, Nat.div_eq_of_lt (by omega), Nat.mod_eq_of_lt (by omega)]
    rfl

theorem Normal.log2_eq (h : fmt.Normal k s) : (k <<< s).log2 - fmt.fractionBits = s := by
  have hweight : fmt.fractionWeight = 2 ^ fmt.fractionBits := fmt.fractionWeight_eq
  have hlt := h.lt
  obtain rfl | hle := h.leads
  · refine Nat.sub_eq_zero_of_le (Nat.le_of_lt_succ ?_)
    obtain rfl | hne := Nat.eq_zero_or_pos k
    · exact Nat.succ_pos _
    · exact (Nat.log2_lt hne.ne').mpr (by rw [Nat.pow_succ]; omega)
  · rw [hweight] at hle
    have hpos : 0 < k := Nat.lt_of_lt_of_le (Nat.two_pow_pos _) hle
    have hlog : (k <<< s).log2 = fmt.fractionBits + s := by
      rw [Nat.shiftLeft_eq, Nat.log2_eq_iff (by positivity), Nat.add_right_comm, Nat.pow_add,
        Nat.pow_add, Nat.pow_succ]
      exact ⟨Nat.mul_le_mul_right _ hle, Nat.mul_lt_mul_of_pos_right (by omega) (by positivity)⟩
    omega

theorem Normal.round_eq (h : fmt.Normal k s) (hfinite : s * fmt.fractionWeight + k < fmt.infinity) :
    fmt.round (k <<< s) 1 = s * fmt.fractionWeight + k := by
  have hden : 0 < 1 <<< s := by rw [Nat.one_shiftLeft]; positivity
  have hwhole : k <<< s = k * 1 <<< s := by rw [Nat.one_shiftLeft, Nat.shiftLeft_eq]
  have hshift : s <<< fmt.fractionBits = s * fmt.fractionWeight := by
    rw [Nat.shiftLeft_eq, fractionWeight_eq]
    rfl
  have hround : roundHalfEven (k <<< s) (1 <<< s) = k := by rw [hwhole, roundHalfEven_mul k hden]
  simp only [round, Nat.div_one, h.log2_eq, hround, hshift]
  exact if_pos hfinite

theorem exists_parts (fmt : FloatFormat) (magnitude : Nat) :
    ∃ k s, fmt.Normal k s ∧ magnitude = s * fmt.fractionWeight + k := by
  have hpos := fmt.fractionWeight_pos
  by_cases hlt : magnitude < 2 * fmt.fractionWeight
  · exact ⟨magnitude, 0, ⟨hlt, .inl rfl⟩, by omega⟩
  · have hmod := Nat.mod_lt magnitude hpos
    obtain ⟨s, hs⟩ : ∃ s, magnitude / fmt.fractionWeight = s + 1 :=
      Nat.exists_eq_succ_of_ne_zero (Nat.div_ne_zero_iff.mpr ⟨hpos.ne', by omega⟩)
    refine ⟨fmt.fractionWeight + magnitude % fmt.fractionWeight, s, ⟨by omega, .inr (by omega)⟩, ?_⟩
    calc magnitude = fmt.fractionWeight * (s + 1) + magnitude % fmt.fractionWeight := by
          rw [← hs, Nat.div_add_mod]
      _ = s * fmt.fractionWeight + (fmt.fractionWeight + magnitude % fmt.fractionWeight) := by ring

theorem exists_normal (n e : Nat) (h : n < 2 * fmt.fractionWeight) :
    ∃ k s, fmt.Normal k s ∧ s ≤ e ∧ n <<< e = k <<< s := by
  induction e generalizing n with
  | zero => exact ⟨n, 0, ⟨h, .inl rfl⟩, Nat.le_refl 0, rfl⟩
  | succ e ih =>
    by_cases hle : fmt.fractionWeight ≤ n
    · exact ⟨n, e + 1, ⟨h, .inr hle⟩, Nat.le_refl _, rfl⟩
    · obtain ⟨k, s, hnormal, hs, heq⟩ := ih (2 * n) (by omega)
      refine ⟨k, s, hnormal, Nat.le_succ_of_le hs, ?_⟩
      rw [← heq, Nat.shiftLeft_succ, Nat.shiftLeft_eq, Nat.shiftLeft_eq]
      ring

theorem scaled_round {n e : Nat} (h : n < 2 * fmt.fractionWeight) (he : e ≤ fmt.oneExponent) :
    fmt.round (n <<< e) 1 < fmt.infinity ∧ fmt.scaled (fmt.round (n <<< e) 1) = n <<< e := by
  obtain ⟨k, s, hnormal, hs, heq⟩ := exists_normal n e h
  have hfinite : s * fmt.fractionWeight + k < fmt.infinity := by
    have hlt := hnormal.lt
    cases fmt with
    | binary32 | binary64 => simp only [fractionWeight, infinity, oneExponent] at *; omega
  rw [heq, hnormal.round_eq hfinite, hnormal.scaled_eq]
  exact ⟨hfinite, rfl⟩

/-! ## Order -/

theorem scaled_strictMono (fmt : FloatFormat) : StrictMono fmt.scaled := by
  refine strictMono_nat_of_lt_succ fun magnitude => ?_
  obtain ⟨k, s, hnormal, rfl⟩ := exists_parts fmt magnitude
  have hlt := hnormal.lt
  rw [hnormal.scaled_eq, Nat.shiftLeft_eq]
  by_cases hlast : k + 1 < 2 * fmt.fractionWeight
  · have hnext : fmt.Normal (k + 1) s := ⟨hlast, hnormal.leads.imp_right fun h => by omega⟩
    rw [Nat.add_assoc, hnext.scaled_eq, Nat.shiftLeft_eq]
    exact Nat.mul_lt_mul_of_pos_right (Nat.lt_succ_self k) (Nat.two_pow_pos s)
  · -- the last significand of a shift is followed by the first one of the next
    have hpos := fmt.fractionWeight_pos
    have hnext : fmt.Normal fmt.fractionWeight (s + 1) := ⟨by omega, .inr (Nat.le_refl _)⟩
    have hsucc : s * fmt.fractionWeight + k + 1 =
      (s + 1) * fmt.fractionWeight + fmt.fractionWeight := by
      rw [Nat.succ_mul]
      omega
    rw [hsucc, hnext.scaled_eq, Nat.shiftLeft_eq, Nat.pow_succ,
      Nat.mul_comm (2 ^ s), ← Nat.mul_assoc]
    exact Nat.mul_lt_mul_of_pos_right (by omega) (Nat.two_pow_pos s)

theorem rank_lt_iff (fmt : FloatFormat) (x y : FloatDatum) :
    rank x < rank y ↔ fmt.value x < fmt.value y := by
  have hzero : fmt.scaled 0 = 0 := by cases fmt <;> rfl
  have hx := fmt.scaled_strictMono.lt_iff_lt (a := 0) (b := x.magnitude)
  have hy := fmt.scaled_strictMono.lt_iff_lt (a := 0) (b := y.magnitude)
  have hxy := fmt.scaled_strictMono.lt_iff_lt (a := x.magnitude) (b := y.magnitude)
  have hyx := fmt.scaled_strictMono.lt_iff_lt (a := y.magnitude) (b := x.magnitude)
  unfold rank value
  cases x.negative <;> cases y.negative <;>
    simp only [Bool.false_eq_true, if_true, if_false] <;> omega

section Compare

variable {x y : FloatDatum} (hx : ¬ fmt.isNaN x) (hy : ¬ fmt.isNaN y)

include hx hy

theorem comparable_of_numbers : fmt.comparable x y = true := by
  rw [comparable, Bool.eq_false_of_not_eq_true hx, Bool.eq_false_of_not_eq_true hy]
  rfl

theorem lt_iff : fmt.lt x y = true ↔ fmt.value x < fmt.value y := by
  rw [lt, comparable_of_numbers hx hy, Bool.true_and, decide_eq_true_eq, rank_lt_iff fmt]

theorem le_iff : fmt.le x y = true ↔ fmt.value x ≤ fmt.value y := by
  rw [le, comparable_of_numbers hx hy, Bool.true_and, decide_eq_true_eq, ← Int.not_lt,
    rank_lt_iff fmt, Int.not_lt]

theorem eq_iff : fmt.eq x y = true ↔ fmt.value x = fmt.value y := by
  rw [eq, comparable_of_numbers hx hy, Bool.true_and, beq_iff_eq]
  have hxy := fmt.rank_lt_iff x y
  have hyx := fmt.rank_lt_iff y x
  omega

end Compare

/-! ## Whole numbers -/

theorem not_isNaN {x : FloatDatum} (h : x.magnitude ≤ fmt.infinity) : ¬ fmt.isNaN x := by
  rw [isNaN, decide_eq_true_eq]
  omega

theorem not_isInfinite {x : FloatDatum} (h : x.magnitude < fmt.infinity) : ¬ fmt.isInfinite x := by
  rw [isInfinite, beq_iff_eq]
  omega

theorem value_neg (x : FloatDatum) : fmt.value (neg x) = -fmt.value x := by
  unfold value neg
  cases x.negative <;> simp

abbrev Exact (fmt : FloatFormat) (n : Int) : Prop :=
  (fmt.ofInt n).magnitude < fmt.infinity ∧ fmt.value (fmt.ofInt n) = n * 2 ^ fmt.oneExponent

theorem exact_of_lt {n : Int} (h : n.natAbs < 2 * fmt.fractionWeight) : fmt.Exact n := by
  obtain ⟨hlt, hscaled⟩ := scaled_round h (Nat.le_refl fmt.oneExponent)
  refine ⟨hlt, ?_⟩
  unfold value ofInt
  rw [roundWhole, hscaled, Nat.shiftLeft_eq]
  push_cast
  by_cases hneg : n < 0
  · rw [decide_eq_true hneg, if_pos rfl, abs_of_neg hneg, neg_mul, neg_neg]
  · rw [decide_eq_false hneg, if_neg Bool.false_ne_true, abs_of_nonneg (Int.not_lt.mp hneg)]

end FloatFormat

end Wasm
