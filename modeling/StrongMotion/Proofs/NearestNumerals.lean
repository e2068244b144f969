import Mathlib.Algebra.Order.Field.Power
import Mathlib.Tactic.FieldSimp
import Mathlib.Tactic.Positivity
import Mathlib.Tactic.Ring
import StrongMotion.Number.Dyadic
import StrongMotion.Proofs.FloatNumerals
import StrongMotion.Proofs.NearestFloats

/-!
# The floats nearest to numerals

Products and quotients of exact floats are rounded once, so each is the float nearest to the exact
result.  Whole numbers of 53 bits and the small powers of ten are exact.  A numeral of other parts
is multiplied out or divided without rounding first, and what is too small for that is rounded to
zero.  So the float of a numeral is the one nearest to its number (`Numeral.isNearest_of_toFloat?`).
-/

namespace StrongMotion

theorem cast_twoTo (n : Nat) : (twoTo n : ℚ) = 2 ^ n := Nat.cast_pow 2 n

theorem cast_tenTo (n : Nat) : (tenTo n : ℚ) = 10 ^ n := Nat.cast_pow 10 n

theorem Dyadic.value_eq_div (d : Dyadic) :
    d.value = (if d.negative then -1 else 1) * (d.num / d.den : ℚ) := by
  have hexponent : d.exponent = (d.exponent.toNat : ℤ) - ((-d.exponent).toNat : ℤ) := by omega
  rw [value, num, den, Nat.cast_mul, cast_twoTo, cast_twoTo, mul_assoc, mul_div_assoc]
  nth_rewrite 1 [hexponent]
  rw [zpow_sub₀ two_ne_zero, zpow_natCast, zpow_natCast]

namespace Binary64

open Float.Model Float.Model.UnpackedFloat

/-! ## Products and quotients -/

/-- The float is a number greater than zero, exactly this one. -/
def IsExactly (x : Float) (q : ℚ) : Prop :=
  ∃ (m : Nat) (e : Int) (hm : 0 < m), x.toModel.unpack = .finite .positive m e hm ∧ m * 2 ^ e = q

theorem HasOrder.isExactly {x : Float} {low high : Int} (hx : HasOrder x .positive low high)
    {d : Dyadic} (hd : Dyadic.ofFloat? x = some d) : IsExactly x d.value := by
  obtain ⟨m, e, hm, hunpack, -⟩ := hx
  rw [ofFloat?_eq, hunpack] at hd
  obtain rfl := Option.some.inj hd
  refine ⟨m, e, hm, hunpack, ?_⟩
  show (m : ℚ) * 2 ^ e = 1 * m * 2 ^ e
  rw [one_mul]

theorem dividend_mul {m n : Nat} {e f : Int} :
    (dividend m e n f : ℚ) * 2 ^ quotientExponent m e n f = m * 2 ^ (e - f) := by
  have hle : quotientExponent m e n f ≤ e - f := Int.min_le_left _ _
  have hcount : ((e - f - quotientExponent m e n f).toNat : ℤ) = e - f - quotientExponent m e n f :=
    Int.toNat_of_nonneg (by omega)
  rw [dividend, Nat.shiftLeft_eq, Nat.cast_mul, Nat.cast_pow, Nat.cast_ofNat, ← zpow_natCast,
    hcount, mul_assoc, ← zpow_add₀ two_ne_zero, sub_add_cancel]

/-- The float of a quotient is the nearest one to it. -/
theorem isNearest_quotient {m n : Nat} {e f : Int} (hm : m ≠ 0) (hn : n ≠ 0)
    (hfinite : (nearest .positive (quotient m e n f) (quotientExponent m e n f)
      (quotientAccuracy m e n f)).isFinite = true) :
    IsNearest (nearest .positive (quotient m e n f) (quotientExponent m e n f)
      (quotientAccuracy m e n f)) (m * 2 ^ e / (n * 2 ^ f)) := by
  have hvalue : (m : ℚ) * 2 ^ e / (n * 2 ^ f) =
      dividend m e n f / n * 2 ^ quotientExponent m e n f := by
    rw [div_mul_eq_mul_div, dividend_mul, zpow_sub₀ two_ne_zero]
    field_simp
  rw [hvalue]
  exact isNearest_nearest (quotientExponent_le_target hm hn e f) hfinite
    (locates_quotient (Nat.pos_of_ne_zero hn) _)

section Exact

variable {x y : Float} {a b : ℚ} (hx : IsExactly x a) (hy : IsExactly y b)
include hx hy

theorem IsExactly.mul (hfinite : (x * y).isFinite = true) : IsNearest (x * y) (a * b) := by
  obtain ⟨m, e, hm, hunpack, rfl⟩ := hx
  obtain ⟨n, f, hn, hunpack', rfl⟩ := hy
  have htarget := (isCanonical_of_unpack hunpack).1.add_le_target (isCanonical_of_unpack hunpack').1
  rw [mul_eq_nearest hunpack hunpack'] at hfinite ⊢
  have hnearest := isNearest_nearest htarget hfinite (locates_exact (m * n))
  have hvalue : (m : ℚ) * 2 ^ e * (n * 2 ^ f) = (m * n : ℕ) * 2 ^ (e + f) := by
    rw [zpow_add₀ two_ne_zero]
    push_cast
    ring
  rw [hvalue]
  exact hnearest

theorem IsExactly.div (hfinite : (x / y).isFinite = true) : IsNearest (x / y) (a / b) := by
  obtain ⟨m, e, hm, hunpack, rfl⟩ := hx
  obtain ⟨n, f, hn, hunpack', rfl⟩ := hy
  rw [div_eq_nearest hunpack hunpack'] at hfinite ⊢
  exact isNearest_quotient (Nat.ne_of_gt hm) (Nat.ne_of_gt hn) hfinite

end Exact

/-! ## Whole numbers and powers of ten -/

/-- The room that a whole number is given for 53 bits is all it needs. -/
theorem isExactly_toFloat {m : Nat} (hm : m ≠ 0) (hlt : m < 2 ^ 53) :
    IsExactly m.toUInt64.toFloat m := by
  have horder := hasOrder_toFloat hm hlt
  have hfinite := horder.isFinite
  rw [toFloat_eq_nearestOfNat hm hlt] at horder hfinite ⊢
  obtain ⟨count, hcount⟩ : ∃ count, (0 - target (totalExponent m 0)).toNat = count := ⟨_, rfl⟩
  have htarget : target (totalExponent m 0) = -count := by
    have hlog := (Nat.log2_lt hm).2 hlt
    unfold target totalExponent at *
    omega
  have hshift : target (totalExponent (m <<< count) (0 - count)) = 0 - count := by
    rw [totalExponent_shiftLeft hm, htarget, zero_sub]
  have hsurplus : surplus (m <<< count) (0 - count) = 0 := by
    rw [surplus, hshift, sub_self, Int.toNat_zero]
  unfold nearestOfNat at horder hfinite ⊢
  rw [hcount] at horder hfinite ⊢
  obtain ⟨d, hd, hvalue, -⟩ := exists_ofFloat?_nearest hshift.ge hfinite
  have hexactly := horder.isExactly hd
  have hrounded : (shifted (m <<< count) (0 - count) .exact).roundedMantissa = m <<< count := by
    rw [shifted, hsurplus]
    rfl
  rw [hvalue, hshift, hrounded, Nat.shiftLeft_eq, zero_sub, zpow_neg, zpow_natCast] at hexactly
  push_cast at hexactly
  rw [mul_inv_cancel_right₀ (by positivity)] at hexactly
  exact hexactly

theorem isExactly_powerOfTen (k) : IsExactly (powerOfTen k) (10 ^ (k : Nat)) := by
  have hparts : ∀ k, (Dyadic.ofFloat? (powerOfTen k)).any
      (fun d => !d.negative && d.num == tenTo k * d.den) = true := by decide +kernel
  obtain ⟨d, hd, hpower⟩ := (Option.any_eq_true _ _).1 (hparts k)
  rw [Bool.and_eq_true, Bool.not_eq_true', beq_iff_eq] at hpower
  have hden : (d.den : ℚ) ≠ 0 := by exact_mod_cast (twoTo_pos _).ne'
  have hvalue : d.value = 10 ^ (k : Nat) := by
    rw [d.value_eq_div, hpower.1, hpower.2, Nat.cast_mul, cast_tenTo, mul_div_cancel_right₀ _ hden]
    simp
  rw [← hvalue]
  exact (hasOrder_powerOfTen k).isExactly hd

/-! ## Decimals -/

/-- So small a decimal is less than half the least float. -/
theorem mul_zpow_le {m : Nat} {e : ℤ} (he : e < -(400 + m.log2 : ℤ)) :
    (m : ℚ) * 10 ^ e ≤ 2 ^ (-1075 : ℤ) := by
  have hmantissa : (m : ℚ) ≤ 10 ^ (m.log2 + 1) := by
    have hten : 2 ^ (m.log2 + 1) ≤ 10 ^ (m.log2 + 1) := Nat.pow_le_pow_left (by decide) _
    exact_mod_cast (Nat.lt_log2_self.trans_le hten).le
  have htwo : (2 : ℚ) ^ 1075 ≤ 10 ^ 400 := by
    calc (2 : ℚ) ^ 1075 ≤ 2 ^ (3 * 400) := pow_le_pow_right₀ one_le_two (by norm_num)
      _ = (2 ^ 3) ^ 400 := pow_mul _ _ _
      _ ≤ 10 ^ 400 := pow_le_pow_left₀ (by norm_num) (by norm_num) _
  calc (m : ℚ) * 10 ^ e ≤ 10 ^ (m.log2 + 1) * 10 ^ e := by gcongr
    _ = 10 ^ (((m.log2 + 1 : ℕ) : ℤ) + e) := by
      rw [zpow_add₀ (by norm_num), zpow_natCast]
    _ ≤ 10 ^ (-(400 : ℕ) : ℤ) := zpow_le_zpow_right₀ (by norm_num) (by push_cast; omega)
    _ = ((10 : ℚ) ^ 400)⁻¹ := by rw [zpow_neg, zpow_natCast]
    _ ≤ ((2 : ℚ) ^ 1075)⁻¹ := inv_anti₀ (by positivity) htwo
    _ = 2 ^ (-1075 : ℤ) := by
      rw [zpow_neg]
      rfl

section OfScientific

variable {m e : Nat} (hm : m ≠ 0)
include hm

theorem isNearest_ofScientific_false (he : e ≤ 400) (hlt : m * 10 ^ e < Numeral.overflowBound) :
    IsNearest (Float.ofScientific m false e) (m * 10 ^ e) := by
  have hfinite := (hasOrder_ofScientific hm he hlt).isFinite
  by_cases hexact : m < 2 ^ 53 ∧ e ≤ 22
  · obtain ⟨k, rfl, hmul, -⟩ := ofScientific_of_exact hexact
    rw [hmul] at hfinite ⊢
    exact (isExactly_toFloat hm hexact.1).mul (isExactly_powerOfTen k) hfinite
  · rw [ofScientific_false_eq hexact, ofScientific_eq_nearest hm (by omega)] at hfinite ⊢
    have hnearest := isNearest_nearest (whole_le_target hm).1 hfinite (locates_exact _)
    have hvalue : ((m <<< 53 * 10 ^ e : ℕ) : ℚ) * 2 ^ (-((53 : ℕ) : ℤ)) = m * 10 ^ e := by
      rw [Nat.shiftLeft_eq, Nat.mul_right_comm, Nat.cast_mul, Nat.cast_pow, Nat.cast_ofNat,
        zpow_neg, zpow_natCast, mul_inv_cancel_right₀ (by positivity), Nat.cast_mul,
        Nat.cast_pow, Nat.cast_ofNat]
    rw [hvalue] at hnearest
    exact hnearest

theorem isNearest_ofScientific_true (hpos : 0 < e) (hlt : m < Numeral.overflowBound * 10 ^ e) :
    IsNearest (Float.ofScientific m true e) (m / 10 ^ e) := by
  have hfinite := isFinite_of_zero_or_hasOrder (zero_or_hasOrder_ofScientific hm hpos hlt)
  by_cases hexact : m < 2 ^ 53 ∧ e ≤ 22
  · obtain ⟨k, rfl, -, hdiv⟩ := ofScientific_of_exact hexact
    rw [hdiv] at hfinite ⊢
    exact (isExactly_toFloat hm hexact.1).div (isExactly_powerOfTen k) hfinite
  rw [ofScientific_true_eq hexact] at hfinite ⊢
  by_cases hsmall : e ≤ 2048 + m.log2
  · have hpower : 10 ^ e ≠ 0 := Nat.ne_of_gt (Nat.pow_pos (by decide))
    rw [ofScientific_neg_eq_nearest hm hpos hsmall] at hfinite ⊢
    have hnearest := isNearest_quotient hm hpower hfinite
    simpa using hnearest
  · refine isNearest_of_zero (unpack_ofScientific_of_small hm (by omega)) ?_
    have hle := mul_zpow_le (m := m) (e := -(e : ℤ)) (by omega)
    rw [zpow_neg, zpow_natCast, ← div_eq_mul_inv] at hle
    rw [abs_of_nonneg (by positivity)]
    exact hle

end OfScientific

end Binary64

/-! ## Numerals -/

namespace Numeral

/-- The number that the numeral stands for. -/
def value (n : Numeral) : ℚ := (if n.negative then -1 else 1) * n.mantissa * 10 ^ n.exponent

theorem abs_value (n : Numeral) : |n.value| = n.mantissa * 10 ^ n.exponent := by
  have hpower : (0 : ℚ) < 10 ^ n.exponent := by positivity
  rw [value, abs_mul, abs_mul, abs_of_pos hpower, Nat.abs_cast]
  split
  · rw [abs_neg, abs_one, one_mul]
  · rw [abs_one, one_mul]

theorem abs_value_le_of_vanishes {n : Numeral} (h : n.vanishes = true) :
    |n.value| ≤ 2 ^ (-1075 : ℤ) := by
  rw [abs_value]
  rw [vanishes, decide_eq_true_eq] at h
  rcases h with hzero | hsmall
  · rw [hzero, Nat.cast_zero, zero_mul]
    positivity
  · exact Binary64.mul_zpow_le hsmall

theorem isNearest_signed {n : Numeral} {x : Float}
    (hx : IsNearest x (n.mantissa * 10 ^ n.exponent)) :
    IsNearest (Binary64.signed n x) n.value := by
  unfold Binary64.signed
  rw [value, mul_assoc]
  split
  · rw [neg_one_mul]
    exact hx.neg
  · rw [one_mul]
    exact hx

/-- The float of a numeral is the one nearest to its number. -/
theorem isNearest_of_toFloat? {n : Numeral} {x : Float} (h : n.toFloat? = some x) :
    IsNearest x n.value := by
  rcases Binary64.toFloat?_eq_some h with ⟨hvanishes, rfl⟩ | ⟨hm, he, hsmall, rfl⟩
  · exact Binary64.isNearest_of_zero (Binary64.unpack_signed_of_zero Binary64.unpack_zero)
      (abs_value_le_of_vanishes hvanishes)
  · refine isNearest_signed ?_
    by_cases hneg : n.exponent < 0
    · have hexponent : n.exponent = -(n.exponent.natAbs : ℤ) := by omega
      have hvalue : (n.mantissa : ℚ) * 10 ^ n.exponent = n.mantissa / 10 ^ n.exponent.natAbs := by
        nth_rewrite 1 [hexponent]
        rw [zpow_neg, zpow_natCast, div_eq_mul_inv]
      rw [decide_eq_true hneg, hvalue]
      exact Binary64.isNearest_ofScientific_true hm (by omega)
        (Binary64.lt_overflowBound_mul hneg hsmall)
    · have hexponent : n.exponent = (n.exponent.natAbs : ℤ) := by omega
      have hvalue : (n.mantissa : ℚ) * 10 ^ n.exponent = n.mantissa * 10 ^ n.exponent.natAbs := by
        nth_rewrite 1 [hexponent]
        rw [zpow_natCast]
      rw [decide_eq_false hneg, hvalue]
      exact Binary64.isNearest_ofScientific_false hm (by omega)
        (Binary64.mul_lt_overflowBound (by omega) hsmall)

/-- The float of a numeral has the sign of the numeral, a zero too. -/
theorem exists_negative_of_toFloat? {n : Numeral} {x : Float} (h : n.toFloat? = some x) :
    ∃ d, Dyadic.ofFloat? x = some d ∧ d.negative = n.negative := by
  have hsign : (Binary64.signOf n == .negative) = n.negative := by
    unfold Binary64.signOf
    cases n.negative <;> rfl
  rw [Binary64.ofFloat?_eq]
  rcases Binary64.zero_or_hasOrder_of_toFloat? h with hzero | ⟨m, e, hm, hfinite, -⟩
  · rw [hzero]
    exact ⟨_, rfl, hsign⟩
  · rw [hfinite]
    exact ⟨_, rfl, hsign⟩

end Numeral
end StrongMotion
