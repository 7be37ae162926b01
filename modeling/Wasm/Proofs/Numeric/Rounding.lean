import Wasm.Proofs.Numeric.Truncation

/-! # Floats rounded to the nearest integer

Below the cutoff the comparisons choose the nearest integer (`FloatFormat.nearest_eq`). -/

namespace Wasm

/-- No integer is nearer, and on a tie it is even. -/
def IsNearest (q : ℚ) (n : ℤ) : Prop :=
  ∀ m : ℤ, m ≠ n → |q - n| < |q - m| ∨ (|q - n| = |q - m| ∧ Even n)

theorem isNearest_of_half {q : ℚ} {n : ℤ} (h : |q - n| < 1 / 2 ∨ (|q - n| = 1 / 2 ∧ Even n)) :
    IsNearest q n := by
  intro m hm
  have hone : (1 : ℚ) ≤ |(n : ℚ) - m| := by
    have : (1 : ℤ) ≤ |n - m| := Int.one_le_abs (sub_ne_zero.mpr hm.symm)
    exact_mod_cast this
  have htriangle := abs_sub_le (n : ℚ) q m
  rw [abs_sub_comm (n : ℚ) q] at htriangle
  obtain hlt | ⟨heq, heven⟩ := h
  · exact .inl (by linarith)
  · obtain hlt | hle := lt_or_eq_of_le (show |q - n| ≤ |q - m| by linarith)
    · exact .inl hlt
    · exact .inr ⟨hle, heven⟩

theorem IsNearest.neg {q : ℚ} {n : ℤ} (h : IsNearest q n) : IsNearest (-q) (-n) := by
  intro m hm
  have hother := h (-m) fun heq => hm (by omega)
  have hneg : ∀ k : ℤ, |(-q) - k| = |q - (-k : ℤ)| := by
    intro k
    rw [← abs_neg]
    push_cast
    congr 1
    ring
  rw [hneg, hneg, neg_neg, even_neg]
  exact hother

theorem roundHalfEven_half {num den : Nat} (h : 0 < den) :
    2 * |(num - den * roundHalfEven num den : ℤ)| < den ∨
      (2 * |(num - den * roundHalfEven num den : ℤ)| = den ∧ Even (roundHalfEven num den)) := by
  have hlt := Nat.mod_lt num h
  have hnum := Nat.div_add_mod num den
  unfold roundHalfEven
  dsimp only
  generalize num / den = q, num % den = r at *
  -- how far the two integers around it are
  have hbelow : (num - den * q : ℤ) = r := by rw [← hnum]; push_cast; ring
  have habove : (num - den * (q + 1 : ℕ) : ℤ) = r - den := by rw [← hnum]; push_cast; ring
  split
  · rw [hbelow, abs_of_nonneg (by omega)]
    exact .inl (by omega)
  · split
    · rw [habove, abs_of_nonpos (by omega)]
      exact .inl (by omega)
    · obtain heven | hodd := Nat.even_or_odd q
      · rw [Nat.even_iff.mp heven, Nat.add_zero, hbelow, abs_of_nonneg (by omega)]
        exact .inr ⟨by omega, heven⟩
      · rw [Nat.odd_iff.mp hodd, habove, abs_of_nonpos (by omega)]
        exact .inr ⟨by omega, hodd.add_one⟩

theorem isNearest_roundHalfEven (num den : Nat) (h : 0 < den) :
    IsNearest (num / den) (roundHalfEven num den) := by
  have hden : (0 : ℚ) < den := by exact_mod_cast h
  have hdist : |(num / den : ℚ) - (roundHalfEven num den : ℤ)| =
      |(num - den * roundHalfEven num den : ℤ)| / den := by
    push_cast
    rw [← abs_of_pos hden, ← abs_div, abs_of_pos hden]
    congr 1
    field_simp
  refine isNearest_of_half ?_
  rw [hdist, div_lt_div_iff₀ hden two_pos, div_eq_div_iff hden.ne' two_ne_zero, one_mul]
  obtain hlt | ⟨heq, heven⟩ := roundHalfEven_half h
  · exact .inl (by rw [mul_comm]; exact_mod_cast hlt)
  · exact .inr ⟨by rw [mul_comm]; exact_mod_cast heq, heven.natCast⟩

theorem roundHalfEven_le (num den : Nat) : roundHalfEven num den ≤ num / den + 1 := by
  unfold roundHalfEven
  dsimp only
  split
  · omega
  · split <;> omega

namespace FloatFormat

variable {fmt : FloatFormat}

theorem roundWhole_nearest {magnitude : Nat} (h : magnitude < fmt.infinity) :
    let whole := roundHalfEven (fmt.scaled magnitude) (1 <<< fmt.oneExponent)
    fmt.roundWhole whole < fmt.infinity ∧
      fmt.scaled (fmt.roundWhole whole) = whole <<< fmt.oneExponent ∧
      (fmt.fractionWeight <<< fmt.oneExponent ≤ fmt.scaled magnitude →
        fmt.roundWhole whole = magnitude) := by
  intro whole
  have hone : 0 < 1 <<< fmt.oneExponent := by rw [Nat.one_shiftLeft]; positivity
  by_cases hlarge : fmt.fractionWeight <<< fmt.oneExponent ≤ fmt.scaled magnitude
  · obtain ⟨k, s, hnormal, rfl⟩ := exists_parts fmt magnitude
    have hscaled := hnormal.scaled_eq
    -- its last place is not below one
    have hs : fmt.oneExponent ≤ s := by
      refine Nat.le_of_not_lt fun hlt => Nat.not_lt.mpr hlarge ?_
      rw [hscaled, Nat.shiftLeft_eq, Nat.shiftLeft_eq]
      calc k * 2 ^ s < 2 * fmt.fractionWeight * 2 ^ s :=
            Nat.mul_lt_mul_of_pos_right hnormal.lt (by positivity)
        _ = fmt.fractionWeight * 2 ^ (s + 1) := by ring
        _ ≤ fmt.fractionWeight * 2 ^ fmt.oneExponent :=
            Nat.mul_le_mul_left _ (Nat.pow_le_pow_right two_pos hlt)
    obtain ⟨d, rfl⟩ := Nat.exists_eq_add_of_le' hs
    have hwhole : whole <<< fmt.oneExponent = k <<< (d + fmt.oneExponent) := by
      have hmul : k <<< (d + fmt.oneExponent) = k <<< d * 1 <<< fmt.oneExponent := by
        rw [Nat.shiftLeft_add, Nat.shiftLeft_eq (k <<< d), Nat.one_shiftLeft]
      have hwhole : whole = k <<< d := by
        show roundHalfEven _ _ = _
        rw [hscaled, hmul, roundHalfEven_mul _ hone]
      rw [hwhole, ← Nat.shiftLeft_add]
    have hround : fmt.roundWhole whole = (d + fmt.oneExponent) * fmt.fractionWeight + k := by
      rw [roundWhole, hwhole, hnormal.round_eq h]
    rw [hround]
    exact ⟨h, hscaled.trans hwhole.symm, fun _ => rfl⟩
  · have hfew : whole < 2 * fmt.fractionWeight := by
      have hle := roundHalfEven_le (fmt.scaled magnitude) (1 <<< fmt.oneExponent)
      have hpos := fmt.fractionWeight_pos
      rw [Nat.shiftLeft_eq, ← Nat.one_shiftLeft, Nat.not_le, ← Nat.div_lt_iff_lt_mul hone] at hlarge
      exact Nat.lt_of_le_of_lt hle (by omega)
    obtain ⟨hlt, hscaled⟩ := scaled_round hfew (Nat.le_refl fmt.oneExponent)
    exact ⟨hlt, hscaled, fun hle => absurd hle hlarge⟩

variable {bits : Nat}

variable {x : FloatDatum} {n w : Nat}

theorem ofBits_toBits (h : x.magnitude < fmt.signWeight) :
    fmt.toBits x < 2 * fmt.signWeight ∧ fmt.ofBits (fmt.toBits x) = x := by
  obtain ⟨negative, magnitude⟩ := x
  change magnitude < fmt.signWeight at h
  cases negative with
  | false =>
    have hbits : fmt.toBits ⟨false, magnitude⟩ = magnitude := rfl
    rw [hbits, ofBits, decide_eq_false (Nat.not_le.mpr h), Nat.mod_eq_of_lt h]
    exact ⟨by omega, rfl⟩
  | true =>
    have hbits : fmt.toBits ⟨true, magnitude⟩ = fmt.signWeight + magnitude := rfl
    rw [hbits, ofBits, decide_eq_true (Nat.le_add_right _ _), Nat.add_mod_left, Nat.mod_eq_of_lt h]
    exact ⟨by omega, rfl⟩

theorem toBits_ofBits (h : bits < 2 * fmt.signWeight) : fmt.toBits (fmt.ofBits bits) = bits := by
  unfold toBits ofBits
  dsimp only
  split
  · next hle =>
    have hle := of_decide_eq_true hle
    rw [Nat.mod_eq_sub_mod hle, Nat.mod_eq_of_lt (by omega)]
    omega
  · next hlt =>
    rw [decide_eq_true_eq, Nat.not_le] at hlt
    exact Nat.mod_eq_of_lt hlt

theorem rational_eq (h : bits < 2 * fmt.signWeight) :
    fmt.rational bits = fmt.value (fmt.ofBits bits) / (2 ^ fmt.oneExponent : ℕ) := by
  unfold rational value
  rw [negative_ofBits h, absolute_eq]
  split
  · push_cast
    rw [neg_div]
    rfl
  · push_cast
    rfl

theorem finite_iff : ¬ fmt.HoldsNaN bits ∧ ¬ fmt.HoldsInfinity bits ↔
      (fmt.ofBits bits).magnitude < fmt.infinity := by
  rw [← isNaN_ofBits, ← isInfinite_ofBits, isNaN, isInfinite, decide_eq_true_eq, beq_iff_eq]
  omega

theorem abs_rational : |fmt.rational bits| = fmt.absolute bits := by
  have hnonneg : 0 ≤ fmt.absolute bits := by rw [absolute_eq]; positivity
  unfold rational
  split
  · rw [abs_neg, abs_of_nonneg hnonneg]
  · exact abs_of_nonneg hnonneg

/-! ## The algorithm -/

def nearestEven (fmt : FloatFormat) (x : FloatDatum) : FloatDatum :=
  if fmt.infinity ≤ x.magnitude then x
  else
    { x with
      magnitude :=
        fmt.roundWhole (roundHalfEven (fmt.scaled x.magnitude) (1 <<< fmt.oneExponent)) }

theorem value_sub {y : FloatDatum} (hx : x.magnitude < fmt.infinity)
    (hy : y.magnitude < fmt.infinity) {e : Nat} (hn : n < 2 * fmt.fractionWeight)
    (he : e ≤ fmt.oneExponent) (hdiff : (fmt.value x - fmt.value y).natAbs = n <<< e) :
    (fmt.sub x y).magnitude < fmt.infinity ∧
      fmt.value (fmt.sub x y) = fmt.value x - fmt.value y := by
  have hy' : (neg y).magnitude < fmt.infinity := hy
  have hsum : fmt.value x + fmt.value (neg y) = fmt.value x - fmt.value y := by
    rw [value_neg]
    rfl
  simp only [sub, add, not_isNaN hx.le, not_isNaN hy.le, not_isNaN hy'.le, not_isInfinite hx,
    not_isInfinite hy', hsum, Bool.or_self, Bool.false_eq_true, if_false]
  split
  · next hzero =>
    have hnone : fmt.scaled 0 = 0 := by cases fmt <;> rfl
    rw [hzero, value, hnone]
    exact ⟨Nat.lt_of_le_of_lt (Nat.zero_le _) hx, by split <;> rfl⟩
  · obtain ⟨hlt, hscaled⟩ := scaled_round hn he
    rw [hdiff]
    refine ⟨hlt, ?_⟩
    rw [value, hscaled, ← hdiff]
    split
    · next hsign =>
      have := of_decide_eq_true hsign
      omega
    · next hsign =>
      have := of_decide_eq_false (Bool.eq_false_of_not_eq_true hsign)
      omega

theorem exists_remainder (fmt : FloatFormat) (magnitude : Nat) :
    ∃ n e, n < 2 * fmt.fractionWeight ∧ e ≤ fmt.oneExponent ∧
      fmt.scaled magnitude % 2 ^ fmt.oneExponent = n <<< e := by
  obtain ⟨k, s, hnormal, rfl⟩ := exists_parts fmt magnitude
  have hlt := hnormal.lt
  rw [hnormal.scaled_eq]
  obtain hle | hle := Nat.le_total s fmt.oneExponent
  · obtain ⟨d, hd⟩ := Nat.exists_eq_add_of_le' hle
    refine ⟨k % 2 ^ d, s, Nat.lt_of_le_of_lt (Nat.mod_le _ _) hlt, hle, ?_⟩
    rw [hd, Nat.pow_add, Nat.shiftLeft_eq, Nat.shiftLeft_eq, Nat.mul_mod_mul_right]
  · refine ⟨0, 0, by omega, Nat.zero_le _, ?_⟩
    rw [Nat.shiftLeft_eq, ← Nat.sub_add_cancel hle, Nat.pow_add, ← Nat.mul_assoc]
    exact Nat.mul_mod_left _ _

theorem toBits_or_sign {b c : Bool} {m : Nat} (hm : m < fmt.signWeight) (hn : n < fmt.signWeight) :
    fmt.toBits ⟨b, m⟩ ||| (fmt.toBits ⟨c, n⟩ &&& fmt.signWeight) = fmt.toBits ⟨b || c, m⟩ := by
  have hweight : fmt.signWeight = 2 ^ (fmt.exponentBits + fmt.fractionBits) := fmt.signWeight_eq
  have hlow : n &&& fmt.signWeight = 0 := by
    refine Nat.eq_of_testBit_eq fun i => ?_
    rw [hweight] at hn ⊢
    rw [Nat.testBit_and, Nat.testBit_two_pow, Nat.zero_testBit]
    by_cases hi : fmt.exponentBits + fmt.fractionBits = i
    · rw [← hi, Nat.testBit_lt_two_pow hn, Bool.false_and]
    · rw [decide_eq_false hi, Bool.and_false]
  have hadd : ∀ {k : Nat}, k < fmt.signWeight → fmt.signWeight + k = fmt.signWeight ||| k := by
    intro k hk
    rw [hweight] at hk ⊢
    simpa only [Nat.mul_one] using Nat.two_pow_add_eq_or_of_lt hk 1
  have hsign : fmt.toBits ⟨c, n⟩ &&& fmt.signWeight = if c then fmt.signWeight else 0 := by
    cases c with
    | false => exact hlow
    | true =>
      show (fmt.signWeight + n) &&& fmt.signWeight = fmt.signWeight
      rw [hadd hn, Nat.and_or_distrib_right, Nat.and_self, hlow, Nat.or_zero]
  rw [hsign]
  cases b <;> cases c <;> simp only [toBits, hadd hm, if_true, if_false, Bool.false_eq_true,
    Bool.or_false, Bool.or_true, Nat.or_zero]
  · rw [Nat.or_comm]
  · rw [Nat.or_assoc, Nat.or_comm m, ← Nat.or_assoc, Nat.or_self]

theorem ofInt_odd (hw : 0 < w) (n : ℤ) : (BitVec.ofInt w n &&& 1 != 0) = true ↔ n % 2 ≠ 0 := by
  have hdvd : (2 : ℤ) ∣ (2 ^ w : ℕ) := by
    exact_mod_cast Dvd.intro_left _ (Nat.pow_pred_mul hw)
  have hmod := Int.emod_emod_of_dvd n hdvd
  have hpos : (0 : ℤ) < (2 ^ w : ℕ) := by positivity
  have hnonneg := Int.emod_nonneg n hpos.ne'
  have hand : (BitVec.ofInt w n &&& 1).toNat = (n % (2 ^ w : ℕ)).toNat % 2 := by
    show (BitVec.ofInt w n &&& 1#w).toNat = _
    rw [BitVec.toNat_and, BitVec.toNat_ofInt, BitVec.toNat_one hw, Nat.and_one_is_mod]
  rw [bne_iff_ne, ne_eq, ← BitVec.toNat_inj, hand]
  show ¬ _ = (0#w).toNat ↔ _
  rw [BitVec.toNat_zero]
  omega

theorem settle_eq (hw : 0 < w) (t : ℤ) (hx : x.magnitude < fmt.infinity) :
    fmt.settle (BitVec.ofInt w t) x = BitVec.ofInt w (if 2 ^ fmt.oneExponent < 2 * fmt.value x ∨
        (2 * fmt.value x = 2 ^ fmt.oneExponent ∧ t % 2 ≠ 0)
        then t + 1
      else if 2 * fmt.value x < -2 ^ fmt.oneExponent ∨
          (2 * fmt.value x = -2 ^ fmt.oneExponent ∧ t % 2 ≠ 0)
        then t - 1
      else t) := by
  have hhalf : fmt.half.magnitude < fmt.infinity := by cases fmt <;> decide
  have hhalf' : (neg fmt.half).magnitude < fmt.infinity := hhalf
  have htwice : 2 * fmt.value fmt.half = 2 ^ fmt.oneExponent := by cases fmt <;> decide +kernel
  have hadd : BitVec.ofInt w t + 1 = BitVec.ofInt w (t + 1) := by
    rw [BitVec.ofInt_add]
    rfl
  have hsub : BitVec.ofInt w t - 1 = BitVec.ofInt w (t - 1) := by
    rw [Int.sub_eq_add_neg, BitVec.ofInt_add, BitVec.ofInt_neg, BitVec.sub_eq_add_neg]
    rfl
  simp only [settle, Bool.or_eq_true, Bool.and_eq_true, ofInt_odd hw, hadd, hsub, value_neg,
    lt_iff (not_isNaN hhalf.le) (not_isNaN hx.le), eq_iff (not_isNaN hx.le) (not_isNaN hhalf.le),
    lt_iff (not_isNaN hx.le) (not_isNaN hhalf'.le), eq_iff (not_isNaN hx.le) (not_isNaN hhalf'.le)]
  rw [← htwice]
  split_ifs <;> first | rfl | omega

section Small

variable {x : FloatDatum}
  (hsmall : fmt.scaled x.magnitude < fmt.fractionWeight * 2 ^ fmt.oneExponent)

include hsmall

theorem finite_of_small : x.magnitude < fmt.infinity := by
  have hinf : fmt.fractionWeight * 2 ^ fmt.oneExponent ≤ fmt.scaled fmt.infinity := by
    cases fmt <;> decide +kernel
  exact fmt.scaled_strictMono.lt_iff_lt.mp (Nat.lt_of_lt_of_le hsmall hinf)

theorem natAbs_truncInt_lt : (fmt.truncInt x).natAbs < fmt.fractionWeight := by
  have hwhole : fmt.wholePart x.magnitude < fmt.fractionWeight := by
    rw [wholePart, Nat.shiftRight_eq_div_pow]
    exact (Nat.div_lt_iff_lt_mul (Nat.two_pow_pos _)).mpr hsmall
  unfold truncInt
  split <;> omega

theorem toInt_near {n : Int} (h : (n - fmt.truncInt x).natAbs ≤ 1) :
    (BitVec.ofInt fmt.bits n).toInt = n := by
  have hlt := natAbs_truncInt_lt hsmall
  refine BitVec.toInt_ofInt_eq_self (by cases fmt <;> decide) ?_ ?_ <;>
    cases fmt <;> simp only [bits, fractionWeight] at * <;> omega

theorem truncateSat_of_small :
    Signedness.signed.truncateSat fmt fmt.bits x = BitVec.ofInt fmt.bits (fmt.truncInt x) := by
  have hlt := natAbs_truncInt_lt hsmall
  have hfinite := finite_of_small hsmall
  have hin : Signedness.signed.least fmt.bits ≤ fmt.truncInt x ∧
      fmt.truncInt x ≤ Signedness.signed.greatest fmt.bits := by
    cases fmt <;> simp only [fractionWeight] at hlt
    · show (-2147483648 : ℤ) ≤ _ ∧ _ ≤ (2147483647 : ℤ)
      omega
    · show (-9223372036854775808 : ℤ) ≤ _ ∧ _ ≤ (9223372036854775807 : ℤ)
      omega
  rw [Signedness.truncateSat, toIntSat, if_neg (not_isNaN hfinite.le),
    if_neg (not_isInfinite hfinite)]
  dsimp only
  rw [if_neg (by omega), if_neg (by omega)]

theorem fraction_of_small {r : Nat} (hr : fmt.scaled x.magnitude % 2 ^ fmt.oneExponent = r) :
    (fmt.sub x (fmt.ofInt (fmt.truncInt x))).magnitude < fmt.infinity ∧
      fmt.value (fmt.sub x (fmt.ofInt (fmt.truncInt x))) = if x.negative then -(r : ℤ) else r := by
  have hexact : fmt.Exact (fmt.truncInt x) :=
    exact_of_lt (Nat.lt_of_lt_of_le (natAbs_truncInt_lt hsmall) (by omega))
  have hdiff : fmt.value x - fmt.value (fmt.ofInt (fmt.truncInt x)) =
      if x.negative then -(r : ℤ) else r := by
    have hdiv := Nat.div_add_mod' (fmt.scaled x.magnitude) (2 ^ fmt.oneExponent)
    rw [hr, ← Nat.shiftRight_eq_div_pow] at hdiv
    rw [hexact.2, value, truncInt, ← hdiv, ← wholePart]
    push_cast
    split <;> ring
  obtain ⟨n, e, hn, he, hrem⟩ := fmt.exists_remainder x.magnitude
  have habs : (if x.negative then -(r : ℤ) else r).natAbs = r := by split <;> omega
  obtain ⟨hlt, hvalue⟩ := value_sub (finite_of_small hsmall) hexact.1 hn he
    (by rw [hdiff, habs, ← hr, hrem])
  exact ⟨hlt, hvalue.trans hdiff⟩

theorem settle_of_small : let t := Signedness.signed.truncateSat fmt fmt.bits x
    let whole := roundHalfEven (fmt.scaled x.magnitude) (2 ^ fmt.oneExponent)
    (fmt.settle t (fmt.sub x (fmt.ofInt t.toInt))).toInt =
      if x.negative then -(whole : ℤ) else whole := by
  intro t whole
  have ht : t = BitVec.ofInt fmt.bits (fmt.truncInt x) := truncateSat_of_small hsmall
  have hint : t.toInt = fmt.truncInt x := by rw [ht, toInt_near hsmall (by omega)]
  obtain ⟨hfinite, hvalue⟩ := fraction_of_small hsmall rfl
  rw [hint, ht, settle_eq (by cases fmt <;> decide) _ hfinite, hvalue,
    toInt_near hsmall (by split_ifs <;> omega)]
  show _ = if x.negative then -(roundHalfEven _ _ : ℤ) else roundHalfEven _ _
  have hone : (2 : ℤ) ^ fmt.oneExponent = (2 ^ fmt.oneExponent : ℕ) := by push_cast; rfl
  rw [truncInt, wholePart, Nat.shiftRight_eq_div_pow, hone]
  unfold roundHalfEven
  dsimp only
  have hpos := Nat.two_pow_pos fmt.oneExponent
  generalize fmt.scaled x.magnitude / 2 ^ fmt.oneExponent = q
  generalize fmt.scaled x.magnitude % 2 ^ fmt.oneExponent = r
  cases x.negative with
  | false =>
    simp only [Bool.false_eq_true, if_false]
    split_ifs <;> omega
  | true =>
    simp only [if_true]
    split_ifs <;> omega

end Small

theorem between_iff (hx : ¬ fmt.isNaN x) :
    (fmt.lt (fmt.ofInt (-fmt.fractionWeight)) x && fmt.lt x (fmt.ofInt fmt.fractionWeight)) = true ↔
      fmt.scaled x.magnitude < fmt.fractionWeight * 2 ^ fmt.oneExponent := by
  have hpos := fmt.fractionWeight_pos
  have hhigh : fmt.Exact fmt.fractionWeight := exact_of_lt (by omega)
  have hlow : fmt.Exact (-fmt.fractionWeight) := exact_of_lt (by omega)
  have hcast : (fmt.fractionWeight : ℤ) * 2 ^ fmt.oneExponent =
      (fmt.fractionWeight * 2 ^ fmt.oneExponent : ℕ) := by push_cast; rfl
  rw [Bool.and_eq_true, lt_iff (not_isNaN hlow.1.le) hx, lt_iff hx (not_isNaN hhigh.1.le), hhigh.2,
    hlow.2, Int.neg_mul, hcast, value]
  split <;> omega

theorem ofInt_signed (fmt : FloatFormat) (negative : Bool) (whole : Nat) :
    fmt.ofInt (if negative then -(whole : ℤ) else whole) =
      ⟨negative && decide (0 < whole), fmt.roundWhole whole⟩ := by
  cases negative with
  | false => simp [ofInt]
  | true => simp [ofInt]

theorem nearest_of_small (hx : x.magnitude < fmt.signWeight)
    (hsmall : fmt.scaled x.magnitude < fmt.fractionWeight * 2 ^ fmt.oneExponent) :
    fmt.nearest x = fmt.nearestEven x := by
  have hfinite := finite_of_small hsmall
  have hnan : fmt.isNaN x = false := Bool.eq_false_of_not_eq_true (not_isNaN hfinite.le)
  have hbetween := (between_iff (not_isNaN hfinite.le)).mpr hsmall
  obtain ⟨hlt, -, -⟩ := roundWhole_nearest hfinite
  have hsettle := settle_of_small hsmall
  rw [Nat.one_shiftLeft] at hlt
  unfold nearest nearestEven
  simp only [hnan, hbetween, hsettle, Bool.not_true, Bool.or_self, Bool.false_eq_true, if_false,
    if_neg (Nat.not_le.mpr hfinite), Nat.one_shiftLeft]
  generalize roundHalfEven _ _ = whole at hlt
  have hfits : fmt.roundWhole whole < fmt.signWeight :=
    Nat.lt_trans hlt (by cases fmt <;> decide)
  -- the integer has lost its sign only if it is zero
  have habsorb : ((x.negative && decide (0 < whole)) || x.negative) = x.negative := by
    cases x.negative <;> simp
  rw [ofInt_signed, toBits_or_sign hfits hx, habsorb]
  exact (ofBits_toBits hfits).2

/-- **The algorithm rounds half to even.** -/
theorem nearest_eq (hx : x.magnitude < fmt.signWeight) : fmt.nearest x = fmt.nearestEven x := by
  by_cases hsmall : fmt.scaled x.magnitude < fmt.fractionWeight * 2 ^ fmt.oneExponent
  · exact nearest_of_small hx hsmall
  · have hsame : fmt.nearest x = x := by
      refine if_pos ?_
      by_cases hnan : fmt.isNaN x = true
      · rw [hnan, Bool.true_or]
      · rw [Bool.eq_false_of_not_eq_true (mt (between_iff hnan).mp hsmall), Bool.not_false,
          Bool.or_true]
    rw [hsame, nearestEven]
    split
    · rfl
    · next hfinite =>
      obtain ⟨-, -, hround⟩ := roundWhole_nearest (Nat.not_le.mp hfinite)
      rw [hround (by rw [Nat.shiftLeft_eq]; exact Nat.not_lt.mp hsmall)]

theorem magnitude_ofBits_lt (fmt : FloatFormat) (bits : Nat) :
    (fmt.ofBits bits).magnitude < fmt.signWeight :=
  Nat.mod_lt bits (by cases fmt <;> decide)

theorem nearest_of_finite (h : bits < 2 * fmt.signWeight)
    (hfinite : (fmt.ofBits bits).magnitude < fmt.infinity) :
    let out := fmt.toBits (fmt.nearest (fmt.ofBits bits))
    out < 2 * fmt.signWeight ∧ (2 ^ fmt.fractionBits ≤ |fmt.rational bits| → out = bits) ∧
      (fmt.ofBits out).magnitude < fmt.infinity ∧ fmt.signField out = fmt.signField bits ∧
      ∃ n : ℤ, fmt.rational out = n ∧ IsNearest (fmt.rational bits) n := by
  intro out
  obtain ⟨hlt, hscaled, hsame⟩ := roundWhole_nearest hfinite
  have hnearest : fmt.nearest (fmt.ofBits bits) = ⟨(fmt.ofBits bits).negative, _⟩ :=
    (nearest_eq (fmt.magnitude_ofBits_lt bits)).trans (if_neg (Nat.not_le.mpr hfinite))
  have hone : (0 : ℚ) < (2 ^ fmt.oneExponent : ℕ) := by positivity
  generalize hwhole : roundHalfEven _ _ = whole at hlt hscaled hsame hnearest
  have hinf : fmt.infinity < fmt.signWeight := by cases fmt <;> decide
  obtain ⟨hout, hback⟩ : out < 2 * fmt.signWeight ∧ fmt.ofBits out = _ :=
    ofBits_toBits (by rw [hnearest]; exact Nat.lt_trans hlt hinf)
  have hnear := isNearest_roundHalfEven (fmt.scaled (fmt.ofBits bits).magnitude)
    (2 ^ fmt.oneExponent) (by positivity)
  rw [← Nat.one_shiftLeft, hwhole, Nat.one_shiftLeft] at hnear
  rw [hnearest] at hback
  refine ⟨hout, fun hlarge => ?_, by rw [hback]; exact hlt, ?_, ?_⟩
  · have hsame := hsame ?_
    · rw [hsame] at hnearest
      show fmt.toBits _ = _
      rw [hnearest]
      exact toBits_ofBits h
    · rw [abs_rational, absolute_eq, le_div_iff₀ hone] at hlarge
      rw [Nat.shiftLeft_eq, fractionWeight_eq]
      exact_mod_cast hlarge
  · rw [← negative_ofBits hout, hback, negative_ofBits h]
  · rw [rational_eq hout, rational_eq h, hback]
    unfold value
    rw [hscaled, Nat.shiftLeft_eq]
    cases (fmt.ofBits bits).negative with
    | false =>
      refine ⟨whole, ?_, ?_⟩
      · simp
      · simpa using hnear
    | true =>
      refine ⟨-whole, ?_, ?_⟩
      · simp [neg_div]
      · simpa [neg_div] using hnear.neg

end FloatFormat

theorem UnaryOp.apply_nearest (w : FloatWidth) (vec : BitVec w.bits) :
    (UnaryOp.float w .nearest).apply (w.value vec) = .ok (w.value
      (BitVec.ofNat w.bits (w.format.toBits (w.format.nearest (w.format.ofBits vec.toNat))))) := by
  cases w <;> rfl

/-- **`nearest` rounds half to even** and keeps the sign; NaNs, infinities and large values keep
    their bits. -/
theorem UnaryOp.nearest_exact (w : FloatWidth) (vec : BitVec w.bits) : let fmt := w.format
    let bits := vec.toNat
    ∃ out : BitVec w.bits, (UnaryOp.float w .nearest).apply (w.value vec) = .ok (w.value out) ∧
      (fmt.HoldsNaN bits ∨ fmt.HoldsInfinity bits ∨ 2 ^ fmt.fractionBits ≤ |fmt.rational bits| →
        out = vec) ∧
      (¬ fmt.HoldsNaN bits → ¬ fmt.HoldsInfinity bits →
        ¬ fmt.HoldsNaN out.toNat ∧ ¬ fmt.HoldsInfinity out.toNat ∧
        fmt.signField out.toNat = fmt.signField bits ∧
        ∃ n : ℤ, fmt.rational out.toNat = n ∧ IsNearest (fmt.rational bits) n) := by
  intro fmt bits
  have hsize : 2 ^ w.bits = 2 * fmt.signWeight := by cases w <;> rfl
  have hbits : bits < 2 * fmt.signWeight := hsize ▸ vec.isLt
  refine ⟨_, apply_nearest w vec, ?_⟩
  by_cases hfinite : (fmt.ofBits bits).magnitude < fmt.infinity
  · obtain ⟨hlt, hlarge, hmag, hsign, hnear⟩ := FloatFormat.nearest_of_finite hbits hfinite
    have hout : (BitVec.ofNat w.bits (fmt.toBits (fmt.nearest (fmt.ofBits bits)))).toNat =
        fmt.toBits (fmt.nearest (fmt.ofBits bits)) := by
      rw [BitVec.toNat_ofNat, hsize, Nat.mod_eq_of_lt hlt]
    obtain ⟨hnan, hinf⟩ := FloatFormat.finite_iff.mpr hfinite
    rw [hout]
    obtain ⟨hnan', hinf'⟩ := FloatFormat.finite_iff.mpr hmag
    refine ⟨?_, fun _ _ => ⟨hnan', hinf', hsign, hnear⟩⟩
    rintro (h | h | h)
    · exact absurd h hnan
    · exact absurd h hinf
    · exact BitVec.eq_of_toNat_eq (hout.trans (hlarge h))
  · have hsame : fmt.nearest (fmt.ofBits bits) = fmt.ofBits bits :=
      (FloatFormat.nearest_eq (fmt.magnitude_ofBits_lt bits)).trans (if_pos (Nat.not_lt.mp hfinite))
    have hback := FloatFormat.toBits_ofBits hbits
    refine ⟨fun _ => ?_, fun hnan hinf => absurd (FloatFormat.finite_iff.mp ⟨hnan, hinf⟩) hfinite⟩
    show BitVec.ofNat w.bits (fmt.toBits (fmt.nearest (fmt.ofBits bits))) = vec
    rw [hsame, hback, BitVec.ofNat_toNat, BitVec.setWidth_eq]

end Wasm
