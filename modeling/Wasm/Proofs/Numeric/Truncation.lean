import Wasm.Proofs.Machine.Accesses
import Wasm.Proofs.Numeric.Magnitudes

/-! # Floats cut to integers

The guards reject exactly the floats out of range once cut (`Signedness.overflows_iff`). -/

namespace Wasm

variable {x : FloatDatum}

namespace FloatFormat

variable (fmt : FloatFormat)

def signField (bits : Nat) : Bool := bits.testBit (fmt.exponentBits + fmt.fractionBits)

def exponentField (bits : Nat) : Nat := bits / 2 ^ fmt.fractionBits % 2 ^ fmt.exponentBits

def fractionField (bits : Nat) : Nat := bits % 2 ^ fmt.fractionBits

/-- The exponent field of one. -/
def bias : Nat := 2 ^ (fmt.exponentBits - 1) - 1

/-- A full exponent field and some fraction. -/
abbrev HoldsNaN (bits : Nat) : Prop :=
  fmt.exponentField bits = 2 ^ fmt.exponentBits - 1 ∧ fmt.fractionField bits ≠ 0

/-- A full exponent field and no fraction. -/
abbrev HoldsInfinity (bits : Nat) : Prop :=
  fmt.exponentField bits = 2 ^ fmt.exponentBits - 1 ∧ fmt.fractionField bits = 0

/-- The magnitude of a finite float. -/
def absolute (bits : Nat) : ℚ :=
  if fmt.exponentField bits = 0 then
    fmt.fractionField bits / 2 ^ fmt.fractionBits * 2 ^ (1 - fmt.bias : ℤ)
  else
    (1 + fmt.fractionField bits / 2 ^ fmt.fractionBits) *
      2 ^ (fmt.exponentField bits - fmt.bias : ℤ)

/-- The value of a finite float. -/
def rational (bits : Nat) : ℚ :=
  if fmt.signField bits then -fmt.absolute bits else fmt.absolute bits

end FloatFormat

/-- A rational without its fraction. -/
def cut (q : ℚ) : ℤ := if q < 0 then ⌈q⌉ else ⌊q⌋

theorem cut_of_nonneg {q : ℚ} (h : 0 ≤ q) : cut q = ⌊q⌋ := if_neg (not_lt.mpr h)

theorem cut_neg_of_nonneg {q : ℚ} (h : 0 ≤ q) : cut (-q) = -⌊q⌋ := by
  unfold cut
  obtain hzero | hpos := h.eq_or_lt
  · rw [← hzero, neg_zero, if_neg (lt_irrefl 0), Int.floor_zero, neg_zero]
  · rw [if_pos (neg_neg_of_pos hpos), Int.ceil_neg]

namespace FloatFormat

variable {fmt : FloatFormat} {bits : Nat}

theorem exponentField_eq : fmt.exponentField bits = bits % fmt.signWeight / fmt.fractionWeight := by
  rw [signWeight_eq, fractionWeight_eq, Nat.pow_eq, Nat.pow_eq, Nat.pow_add, Nat.mul_comm,
    Nat.mod_mul_right_div_self]
  rfl

theorem fractionField_eq : fmt.fractionField bits = bits % fmt.signWeight % fmt.fractionWeight := by
  rw [signWeight_eq, fractionWeight_eq, Nat.pow_eq, Nat.pow_eq, Nat.pow_add, Nat.mul_comm,
    Nat.mod_mul_right_mod]
  rfl

theorem negative_ofBits (h : bits < 2 * fmt.signWeight) :
    (fmt.ofBits bits).negative = fmt.signField bits := by
  rw [signField, Nat.testBit_eq_decide_div_mod_eq, ← Nat.pow_eq, ← signWeight_eq]
  show decide _ = decide _
  congr 1
  apply propext
  cases fmt with
  | binary32 | binary64 => simp only [signWeight] at *; omega

theorem isNaN_ofBits : fmt.isNaN (fmt.ofBits bits) = true ↔ fmt.HoldsNaN bits := by
  rw [HoldsNaN, exponentField_eq, fractionField_eq, isNaN, decide_eq_true_eq]
  show fmt.infinity < bits % fmt.signWeight ↔ _
  cases fmt with
  | binary32 | binary64 => simp only [signWeight, fractionWeight, infinity, exponentBits]; omega

theorem isInfinite_ofBits : fmt.isInfinite (fmt.ofBits bits) = true ↔ fmt.HoldsInfinity bits := by
  rw [HoldsInfinity, exponentField_eq, fractionField_eq, isInfinite, beq_iff_eq]
  show bits % fmt.signWeight = fmt.infinity ↔ _
  cases fmt with
  | binary32 | binary64 => simp only [signWeight, fractionWeight, infinity, exponentBits]; omega

theorem zpow_sub_bias (fmt : FloatFormat) (exponent : Nat) :
    (2 : ℚ) ^ ((exponent + 1 : ℕ) - fmt.bias : ℤ) =
      2 ^ exponent * 2 ^ fmt.fractionBits / 2 ^ fmt.oneExponent := by
  have hexp : ((exponent + 1 : ℕ) - fmt.bias : ℤ) =
    exponent + fmt.fractionBits - fmt.oneExponent := by
    cases fmt with
    | binary32 | binary64 => simp only [bias, exponentBits, fractionBits, oneExponent]; omega
  rw [hexp, zpow_sub₀ two_ne_zero, zpow_add₀ two_ne_zero, zpow_natCast, zpow_natCast, zpow_natCast]

theorem absolute_eq :
    fmt.absolute bits = (fmt.scaled (bits % fmt.signWeight) : ℕ) / (2 ^ fmt.oneExponent : ℕ) := by
  have hweight : (fmt.fractionWeight : ℚ) = 2 ^ fmt.fractionBits := by
    rw [fractionWeight_eq, Nat.pow_eq, Nat.cast_pow, Nat.cast_two]
  unfold absolute scaled
  rw [← exponentField_eq, ← fractionField_eq]
  by_cases hsub : fmt.exponentField bits = 0
  · have hleast := fmt.zpow_sub_bias 0
    rw [Nat.zero_add, Nat.cast_one, pow_zero, one_mul] at hleast
    rw [if_pos hsub, if_pos hsub, hleast]
    push_cast
    field_simp
  · obtain ⟨exponent, hexp⟩ := Nat.exists_eq_succ_of_ne_zero hsub
    rw [if_neg hsub, if_neg hsub, hexp, fmt.zpow_sub_bias, Nat.shiftLeft_eq, Nat.succ_sub_one]
    push_cast
    rw [hweight]
    field_simp

theorem truncInt_eq (h : bits < 2 * fmt.signWeight) :
    fmt.truncInt (fmt.ofBits bits) = cut (fmt.rational bits) := by
  have hnonneg : 0 ≤ fmt.absolute bits := by rw [absolute_eq]; positivity
  have hwhole : (fmt.wholePart (bits % fmt.signWeight) : ℤ) = ⌊fmt.absolute bits⌋ := by
    rw [absolute_eq, Rat.floor_natCast_div_natCast, wholePart, Nat.shiftRight_eq_div_pow]
    rfl
  unfold truncInt rational
  rw [negative_ofBits h]
  by_cases hsign : fmt.signField bits = true
  · rw [if_pos hsign, if_pos hsign, cut_neg_of_nonneg hnonneg, ← hwhole]
    rfl
  · rw [if_neg hsign, if_neg hsign, cut_of_nonneg hnonneg, ← hwhole]
    rfl

/-! ## Guards -/

theorem le_truncInt_iff {c : ℤ} (hc : 0 < c) :
    c ≤ fmt.truncInt x ↔ c * 2 ^ fmt.oneExponent ≤ fmt.value x := by
  have hone : (0 : ℤ) < 2 ^ fmt.oneExponent := by positivity
  have hpos : 0 < c * 2 ^ fmt.oneExponent := Int.mul_pos hc hone
  unfold truncInt value
  cases x.negative with
  | false =>
    simp only [Bool.false_eq_true, if_false, wholePart, Nat.shiftRight_eq_div_pow]
    push_cast
    exact Int.le_ediv_iff_mul_le hone
  | true =>
    simp only [if_true]
    omega

theorem truncInt_neg (x : FloatDatum) : fmt.truncInt (neg x) = -fmt.truncInt x := by
  unfold truncInt neg
  cases x.negative <;> simp

theorem truncInt_le_iff {d : ℤ} (hd : d < 0) :
    fmt.truncInt x ≤ d ↔ fmt.value x ≤ d * 2 ^ fmt.oneExponent := by
  have hneg : -d ≤ fmt.truncInt (neg x) ↔ -d * 2 ^ fmt.oneExponent ≤ fmt.value (neg x) :=
    le_truncInt_iff (by omega)
  rw [truncInt_neg, value_neg, Int.neg_mul] at hneg
  omega

section Guards

variable (hx : ¬ fmt.isNaN x) {n low high least greatest : ℤ}

include hx

theorem le_ofInt_iff (hn : 0 < n) (hexact : fmt.Exact n) :
    fmt.le (fmt.ofInt n) x = true ↔ n ≤ fmt.truncInt x := by
  rw [le_iff (not_isNaN hexact.1.le) hx, hexact.2, le_truncInt_iff hn]

theorem ofInt_le_iff (hn : n < 0) (hexact : fmt.Exact n) :
    fmt.le x (fmt.ofInt n) = true ↔ fmt.truncInt x ≤ n := by
  rw [le_iff hx (not_isNaN hexact.1.le), hexact.2, truncInt_le_iff hn]

theorem ofInt_lt_iff (hn : n < 0) (hexact : fmt.Exact n)
    (hgap : fmt.value ⟨true, (fmt.ofInt n).magnitude + 1⟩ ≤ (n - 1) * 2 ^ fmt.oneExponent) :
    fmt.lt x (fmt.ofInt n) = true ↔ fmt.truncInt x < n := by
  have hone : (0 : ℤ) < 2 ^ fmt.oneExponent := by positivity
  have hsub : (n - 1) * 2 ^ fmt.oneExponent =
    n * 2 ^ fmt.oneExponent - 2 ^ fmt.oneExponent := by ring
  have hcut : fmt.truncInt x < n ↔ fmt.value x ≤ (n - 1) * 2 ^ fmt.oneExponent := by
    rw [← truncInt_le_iff (by omega), Int.le_sub_one_iff]
  rw [lt_iff hx (not_isNaN hexact.1.le), hcut]
  refine ⟨fun hlt => Int.le_trans (Int.not_lt.mp fun hbetween => ?_) hgap, fun hle => ?_⟩
  · -- no pattern is between two that follow each other
    rw [← rank_lt_iff] at hlt hbetween
    have hsign : (fmt.ofInt n).negative = true := decide_eq_true hn
    cases hneg : x.negative <;>
      simp only [rank, hsign, hneg, if_true, Bool.false_eq_true, if_false] at hlt hbetween <;> omega
  · rw [hexact.2]
    omega

theorem outside_iff (hhigh : 0 < high ∧ high = greatest + 1 ∧ fmt.Exact high)
    (hlow : low < 0 ∧ low = least - 1 ∧ fmt.Exact low) :
    (fmt.le (fmt.ofInt high) x || fmt.le x (fmt.ofInt low)) = true ↔
      fmt.truncInt x < least ∨ greatest < fmt.truncInt x := by
  obtain ⟨hpos, hgreatest, hexact⟩ := hhigh
  obtain ⟨hneg, hleast, hexact'⟩ := hlow
  rw [Bool.or_eq_true, le_ofInt_iff hx hpos hexact, ofInt_le_iff hx hneg hexact']
  omega

theorem outside_iff_of_gap (hhigh : 0 < high ∧ high = greatest + 1 ∧ fmt.Exact high)
    (hlow : low < 0 ∧ low = least ∧ fmt.Exact low)
    (hgap : fmt.value ⟨true, (fmt.ofInt low).magnitude + 1⟩ ≤ (low - 1) * 2 ^ fmt.oneExponent) :
    (fmt.le (fmt.ofInt high) x || fmt.lt x (fmt.ofInt low)) = true ↔
      fmt.truncInt x < least ∨ greatest < fmt.truncInt x := by
  obtain ⟨hpos, hgreatest, hexact⟩ := hhigh
  obtain ⟨hneg, hleast, hexact'⟩ := hlow
  rw [Bool.or_eq_true, le_ofInt_iff hx hpos hexact, ofInt_lt_iff hx hneg hexact' hgap]
  omega

end Guards

def toInt (fmt : FloatFormat) (least greatest : ℤ) (x : FloatDatum) : Except Trap ℤ :=
  if fmt.isNaN x then .error .invalidConversionToInteger
  else if fmt.isInfinite x then .error .integerOverflow
  else
    let n := fmt.truncInt x
    if least ≤ n ∧ n ≤ greatest then .ok n else .error .integerOverflow

theorem toInt_ofBits (h : bits < 2 * fmt.signWeight) (least greatest : ℤ) :
    fmt.toInt least greatest (fmt.ofBits bits) =
      if fmt.HoldsNaN bits then .error .invalidConversionToInteger
      else if fmt.HoldsInfinity bits ∨ cut (fmt.rational bits) < least ∨
        greatest < cut (fmt.rational bits) then .error .integerOverflow
      else .ok (cut (fmt.rational bits)) := by
  simp only [toInt, isNaN_ofBits, isInfinite_ofBits, truncInt_eq h]
  by_cases hnan : fmt.HoldsNaN bits
  · rw [if_pos hnan, if_pos hnan]
  · rw [if_neg hnan, if_neg hnan]
    by_cases hinf : fmt.HoldsInfinity bits
    · rw [if_pos hinf, if_pos (.inl hinf)]
    · rw [if_neg hinf]
      by_cases hin : least ≤ cut (fmt.rational bits) ∧ cut (fmt.rational bits) ≤ greatest
      · rw [if_pos hin, if_neg (by simp only [hinf, false_or]; omega)]
      · rw [if_neg hin, if_pos (.inr (by omega))]

theorem toIntSat_ofBits (h : bits < 2 * fmt.signWeight) (least greatest : ℤ) :
    fmt.toIntSat least greatest (fmt.ofBits bits) =
      if fmt.HoldsNaN bits then 0
      else if fmt.HoldsInfinity bits then if fmt.signField bits then least else greatest
      else if cut (fmt.rational bits) < least then least
      else if greatest < cut (fmt.rational bits) then greatest else cut (fmt.rational bits) := by
  simp only [toIntSat, isNaN_ofBits, isInfinite_ofBits, truncInt_eq h, negative_ofBits h]

theorem toIntSat_of_toInt {least greatest n : ℤ} (h : fmt.toInt least greatest x = .ok n) :
    fmt.toIntSat least greatest x = n := by
  simp only [toInt] at h
  simp only [toIntSat]
  split at h
  · cases h
  · split at h
    · cases h
    · split at h
      · next hnan hinf hin =>
        cases h
        rw [if_neg hnan, if_neg hinf, if_neg (by omega), if_neg (by omega)]
      · cases h

end FloatFormat

theorem Signedness.overflows_iff (sign : Signedness) (target : IntWidth) (source : FloatWidth)
    (hx : ¬ source.format.isNaN x) :
    sign.overflows target source x = true ↔ source.format.truncInt x < sign.least target.bits ∨
        sign.greatest target.bits < source.format.truncInt x := by
  unfold overflows
  cases target <;> cases source <;> cases sign
  -- A bound that the format cannot hold has a gap to the next float.
  case w32.w32.signed | w64.w32.signed | w64.w64.signed =>
    exact FloatFormat.outside_iff_of_gap hx (by decide +kernel) (by decide +kernel)
      (by decide +kernel)
  all_goals exact FloatFormat.outside_iff hx (by decide +kernel) (by decide +kernel)

theorem FloatFormat.outside_of_isInfinite {fmt : FloatFormat} (h : fmt.isInfinite x = true)
    (sign : Signedness) (target : IntWidth) :
    fmt.truncInt x < sign.least target.bits ∨ sign.greatest target.bits < fmt.truncInt x := by
  have hmag : x.magnitude = fmt.infinity := beq_iff_eq.mp h
  unfold FloatFormat.truncInt
  rw [hmag]
  cases x.negative <;> cases fmt <;> cases target <;> cases sign <;> decide +kernel

theorem Signedness.truncate_eq (sign : Signedness) (target : IntWidth) (source : FloatWidth)
    (x : FloatDatum) :
    sign.truncate target source x =
      (source.format.toInt (sign.least target.bits) (sign.greatest target.bits) x).map
        (BitVec.ofInt target.bits) := by
  unfold truncate FloatFormat.toInt
  by_cases hnan : source.format.isNaN x = true
  · rw [if_pos hnan, if_pos hnan]
    rfl
  · rw [if_neg hnan, if_neg hnan]
    by_cases hinf : source.format.isInfinite x = true
    · rw [if_pos ((overflows_iff sign target source hnan).mpr
        (FloatFormat.outside_of_isInfinite hinf sign target)), if_pos hinf]
      rfl
    · by_cases hout : sign.overflows target source x = true
      · have houtside := (overflows_iff sign target source hnan).mp hout
        rw [if_pos hout, if_neg hinf]
        dsimp only
        rw [if_neg (by omega)]
        rfl
      · have hin := (overflows_iff sign target source hnan).not.mp hout
        rw [if_neg hout, if_neg hinf, truncateSat, FloatFormat.toIntSat, if_neg hnan, if_neg hinf]
        dsimp only
        rw [if_neg (by omega), if_neg (by omega), if_pos (by omega)]
        rfl

/-- The float that has these bits. -/
def FloatWidth.value : (w : FloatWidth) → BitVec w.bits → Value
  | .w32, bits => .f32 bits
  | .w64, bits => .f64 bits

theorem UnaryOp.apply_trunc (target : IntWidth) (source : FloatWidth) (sign : Signedness)
    (vec : BitVec source.bits) :
    (UnaryOp.trunc target source sign).apply (source.value vec) =
      (source.format.toInt (sign.least target.bits) (sign.greatest target.bits)
        (source.format.ofBits vec.toNat)).map (Value.ofInt · target.type) := by
  have htruncate := sign.truncate_eq target source (source.format.ofBits vec.toNat)
  cases hint : source.format.toInt (sign.least target.bits) (sign.greatest target.bits)
      (source.format.ofBits vec.toNat) with
  | error _ | ok _ =>
    rw [hint] at htruncate
    cases target <;> cases source <;> exact congrArg (Except.map _) htruncate

theorem UnaryOp.apply_truncSat (target : IntWidth) (source : FloatWidth) (sign : Signedness)
    (vec : BitVec source.bits) :
    (UnaryOp.truncSat target source sign).apply (source.value vec) =
      .ok (.ofInt (source.format.toIntSat (sign.least target.bits) (sign.greatest target.bits)
        (source.format.ofBits vec.toNat)) target.type) := by
  cases target <;> cases source <;> rfl

/-- **Conversions to integers are exact at every boundary**: the value cut to a whole number if that
    is in range, and otherwise the trap or the nearest bound. -/
theorem UnaryOp.trunc_exact (target : IntWidth) (source : FloatWidth) (sign : Signedness)
    (vec : BitVec source.bits) :
    let fmt := source.format
    let bits := vec.toNat
    let n := cut (fmt.rational bits)
    let least := sign.least target.bits
    let greatest := sign.greatest target.bits
    ((UnaryOp.trunc target source sign).apply (source.value vec) =
      if fmt.HoldsNaN bits then .error .invalidConversionToInteger
      else if fmt.HoldsInfinity bits ∨ n < least ∨ greatest < n then .error .integerOverflow
      else .ok (.ofInt n target.type)) ∧
    ((UnaryOp.truncSat target source sign).apply (source.value vec) = .ok (.ofInt
        (if fmt.HoldsNaN bits then 0
        else if fmt.HoldsInfinity bits then if fmt.signField bits then least else greatest
        else if n < least then least else if greatest < n then greatest else n) target.type)) ∧
    ∀ v, (UnaryOp.trunc target source sign).apply (source.value vec) = .ok v →
      (UnaryOp.truncSat target source sign).apply (source.value vec) = .ok v := by
  intro fmt bits n least greatest
  have hbits : bits < 2 * fmt.signWeight := by
    cases source with
    | w32 | w64 => exact vec.isLt
  rw [apply_trunc, apply_truncSat]
  refine ⟨?_, ?_, fun v hv => ?_⟩
  · rw [FloatFormat.toInt_ofBits hbits]
    split
    · rfl
    · split
      · rfl
      · rfl
  · rw [FloatFormat.toIntSat_ofBits hbits]
  · cases hint : fmt.toInt least greatest (fmt.ofBits bits) with
    | error trap =>
      rw [hint] at hv
      cases hv
    | ok n =>
      rw [hint] at hv
      cases hv
      rw [FloatFormat.toIntSat_of_toInt hint]

end Wasm
