import StrongMotion.Proofs.Magnitudes

/-!
# The floats of written numbers

A decimal is a whole number times or divided by a power of ten.  Up to the bound that the reader
sets, its float is a number with the sign that is written; it may be a zero, but not where a whole
number other than zero is written (`Binary64.zero_or_hasOrder_of_toFloat?`,
`Binary64.hasOrder_of_toFloat?_whole`).
-/

namespace StrongMotion
namespace Binary64

open Float.Model Float.Model.UnpackedFloat

theorem unpack_zero : (0 : Float).toModel.unpack = .zero .positive := rfl

/-! ## Whole numbers and powers of ten -/

theorem shiftLeft_ne_zero {m : Nat} (hm : m ≠ 0) (count : Nat) : m <<< count ≠ 0 := by
  rw [Nat.shiftLeft_eq]
  exact Nat.mul_ne_zero hm (Nat.ne_of_gt (Nat.two_pow_pos _))

theorem totalExponent_shiftLeft {m : Nat} (hm : m ≠ 0) (e : Int) (count : Nat) :
    totalExponent (m <<< count) (e - count) = totalExponent m e := by
  unfold totalExponent
  rw [log2_shiftLeft hm]
  omega

/-- A whole number is first given room for 53 bits. -/
def nearestOfNat (m : Nat) : Float :=
  let count := (0 - target (totalExponent m 0)).toNat
  nearest .positive (m <<< count) (0 - count) .exact

theorem toFloat_eq_nearestOfNat {m : Nat} (hm : m ≠ 0) (hlt : m < 2 ^ 53) :
    m.toUInt64.toFloat = nearestOfNat m := by
  have hword : m.toUInt64.toNat = m := by
    rw [Nat.toUInt64_eq, UInt64.toNat_ofNat']
    omega
  show Float.ofModel (Float.Model.pack
    (UnpackedFloat.normalize .binary64 (m.toUInt64.toNat : Int) 0 .positive)) = nearestOfNat m
  rw [hword, UnpackedFloat.normalize, Int.compare_eq_gt.2 (by omega)]
  rfl

/-- Numbers of at most 53 bits are floats. -/
theorem hasOrder_toFloat {m : Nat} (hm : m ≠ 0) (hlt : m < 2 ^ 53) :
    HasOrder m.toUInt64.toFloat .positive 1 54 := by
  have hlog := (Nat.log2_lt hm).2 hlt
  have horder : totalExponent m 0 = m.log2 + 1 := by
    unfold totalExponent
    omega
  have hshift := totalExponent_shiftLeft hm 0 (0 - target (totalExponent m 0)).toNat
  have hne := shiftLeft_ne_zero hm (0 - target (totalExponent m 0)).toNat
  have hnearest : HasOrder (nearestOfNat m) .positive _ _ :=
    hasOrder_nearest_of_order _ (by rw [hshift]; omega) hne (by omega) (by omega)
  rw [toFloat_eq_nearestOfNat hm hlt]
  exact hnearest.mono (by omega) (by omega)

/-- The powers of ten that are floats. -/
def powerOfTen (e : Fin Float.exactlyRepresentablePowersOfTen.size) : Float :=
  Float.exactlyRepresentablePowersOfTen[e]

theorem hasOrder_powerOfTen : ∀ e, HasOrder (powerOfTen e) .positive 1 74 := by decide +kernel

/-! ## Decimals -/

section OfScientific

variable {m e : Nat} (hm : m ≠ 0)
include hm

theorem ofScientific_eq_nearest (he : e ≤ 2048) :
    Float.ofModel (Float.Model.ofScientific m e) =
      nearest .positive (m <<< 53 * 10 ^ e) (-(53 : Nat)) .exact := by
  unfold Float.Model.ofScientific UnpackedFloat.ofScientific
  dsimp only
  rw [dif_neg hm, if_neg (by omega), if_neg (by omega), if_pos (by omega)]
  rfl

theorem ofScientific_neg_eq_nearest (hpos : 0 < e) (he : e ≤ 2048 + m.log2) :
    Float.ofModel (Float.Model.ofScientific m (-(e : Int))) =
      nearest .positive (quotient m 0 (10 ^ e) 0) (quotientExponent m 0 (10 ^ e) 0)
        (quotientAccuracy m 0 (10 ^ e) 0) := by
  unfold Float.Model.ofScientific UnpackedFloat.ofScientific
  simp only [Int.neg_neg]
  rw [dif_neg hm, if_neg (by omega), if_neg (by omega), if_neg (by omega)]
  rfl

/-- Powers of ten that are too long to compute with are not computed. -/
theorem unpack_ofScientific_of_small (he : 2048 + m.log2 < e) :
    (Float.Model.ofScientific m (-(e : Int))).unpack = .zero .positive := by
  unfold Float.Model.ofScientific UnpackedFloat.ofScientific
  dsimp only
  rw [dif_neg hm, if_neg (by omega), if_pos (by omega)]
  exact unpack_pack_zero

omit hm in
/-- A decimal of two exact parts is multiplied or divided as floats. -/
theorem ofScientific_of_exact (hexact : m < 2 ^ 53 ∧ e ≤ 22) :
    ∃ k : Fin Float.exactlyRepresentablePowersOfTen.size, k = e ∧
      Float.ofScientific m false e = m.toUInt64.toFloat * powerOfTen k ∧
        Float.ofScientific m true e = m.toUInt64.toFloat / powerOfTen k := by
  unfold Float.ofScientific
  rw [dif_pos hexact, dif_pos hexact]
  exact ⟨⟨e, Nat.lt_succ_of_le hexact.2⟩, rfl, rfl, rfl⟩

omit hm in
theorem ofScientific_true_eq (hinexact : ¬(m < 2 ^ 53 ∧ e ≤ 22)) :
    Float.ofScientific m true e = Float.ofModel (Float.Model.ofScientific m (-(e : Int))) := by
  unfold Float.ofScientific
  rw [dif_neg hinexact]
  exact congrArg (fun k => Float.ofModel (Float.Model.ofScientific m k)) Int.negOfNat_eq

omit hm in
theorem ofScientific_false_eq (hinexact : ¬(m < 2 ^ 53 ∧ e ≤ 22)) :
    Float.ofScientific m false e = Float.ofModel (Float.Model.ofScientific m e) := by
  unfold Float.ofScientific
  rw [dif_neg hinexact]
  rfl

/-- With 53 bits below its point, a whole number has bits enough. -/
theorem whole_le_target :
    -((53 : Nat) : Int) ≤ target (totalExponent (m <<< 53 * 10 ^ e) (-(53 : Nat))) ∧
      1 ≤ totalExponent (m <<< 53 * 10 ^ e) (-(53 : Nat)) := by
  have hpower : 10 ^ e ≠ 0 := Nat.ne_of_gt (Nat.pow_pos (by decide))
  have hlog := log2_mul_bounds (shiftLeft_ne_zero hm 53) hpower
  rw [log2_shiftLeft hm] at hlog
  unfold target totalExponent
  omega

/-- A whole number below the bound of all floats is one of them. -/
theorem hasOrder_ofScientific (he : e ≤ 400) (hlt : m * 10 ^ e < Numeral.overflowBound) :
    HasOrder (Float.ofScientific m false e) .positive 1 1024 := by
  by_cases hexact : m < 2 ^ 53 ∧ e ≤ 22
  · obtain ⟨k, -, hmul, -⟩ := ofScientific_of_exact hexact
    have hproduct :=
      (hasOrder_toFloat hm hexact.1).mul (hasOrder_powerOfTen k) (by decide) (by decide)
    rw [hmul]
    exact hproduct.mono (by decide) (by decide)
  · have hpower : 10 ^ e ≠ 0 := Nat.ne_of_gt (Nat.pow_pos (by decide))
    obtain ⟨htarget, horder⟩ := whole_le_target (e := e) hm
    have hcomm : m <<< 53 * 10 ^ e = m * 10 ^ e * 2 ^ 53 := by
      rw [Nat.shiftLeft_eq, Nat.mul_right_comm]
    have hbelow : IsBelowOverflow (m <<< 53 * 10 ^ e) 53 := by
      rw [hcomm]
      exact isBelowOverflow_mul hlt 53
    have hle := exponent_rounded_le htarget hbelow .exact
    have hnearest :
        HasOrder (nearest .positive (m <<< 53 * 10 ^ e) (-(53 : Nat)) .exact) .positive _ _ :=
      hasOrder_nearest _ htarget (Nat.mul_ne_zero (shiftLeft_ne_zero hm 53) hpower) (by omega) hle
    rw [ofScientific_false_eq hexact, ofScientific_eq_nearest hm (by omega)]
    exact hnearest.within.mono (by omega) (Int.min_le_right _ _)

/-- A decimal below the bound of all floats may be so small that its float is zero. -/
theorem zero_or_hasOrder_ofScientific (hpos : 0 < e) (hlt : m < Numeral.overflowBound * 10 ^ e) :
    (Float.ofScientific m true e).toModel.unpack = .zero .positive ∨
      HasOrder (Float.ofScientific m true e) .positive (-1073) 1024 := by
  by_cases hexact : m < 2 ^ 53 ∧ e ≤ 22
  · obtain ⟨k, -, -, hdiv⟩ := ofScientific_of_exact hexact
    have hquotient :=
      (hasOrder_toFloat hm hexact.1).div (hasOrder_powerOfTen k) (by decide) (by decide)
    rw [hdiv]
    exact Or.inr (hquotient.mono (by decide) (by decide))
  rw [ofScientific_true_eq hexact]
  by_cases hsmall : e ≤ 2048 + m.log2
  · have hpower : 10 ^ e ≠ 0 := Nat.ne_of_gt (Nat.pow_pos (by decide))
    obtain ⟨j, hj⟩ : ∃ j : Nat, quotientExponent m 0 (10 ^ e) 0 = -(j : Int) := by
      refine ⟨(-quotientExponent m 0 (10 ^ e) 0).toNat, ?_⟩
      unfold quotientExponent
      omega
    have hquotient : quotient m 0 (10 ^ e) 0 = m * 2 ^ j / 10 ^ e := by
      have hcount : ((0 : Int) - 0 - -(j : Int)).toNat = j := by omega
      rw [quotient, dividend, hj, hcount, Nat.shiftLeft_eq]
    have htarget := quotientExponent_le_target hm hpower 0 0
    rw [hquotient, hj] at htarget
    have hbelow := isBelowOverflow_div (Nat.pos_of_ne_zero hpower) hlt j
    rw [ofScientific_neg_eq_nearest hm hpos hsmall, hquotient, hj]
    exact zero_or_hasOrder_nearest _ htarget (exponent_rounded_le htarget hbelow _)
  · exact Or.inl (unpack_ofScientific_of_small hm (by omega))

end OfScientific

/-! ## Numerals -/

/-- The sign of a written number, which zero has too. -/
def signOf (n : Numeral) : Sign := if n.negative then .negative else .positive

/-- The number with its sign put in front. -/
def signed (n : Numeral) (x : Float) : Float := if n.negative then -x else x

section Signed

variable {n : Numeral} {x : Float}

theorem unpack_signed_of_zero (hx : x.toModel.unpack = .zero .positive) :
    (signed n x).toModel.unpack = .zero (signOf n) := by
  unfold signed signOf
  split
  · show (Float.Model.pack x.toModel.unpack.neg).unpack = .zero .negative
    rw [hx]
    exact unpack_pack_zero
  · exact hx

theorem HasOrder.signed {low high : Int} (hx : HasOrder x .positive low high) :
    HasOrder (signed n x) (signOf n) low high := by
  unfold Binary64.signed signOf
  split
  · exact hx.neg
  · exact hx

theorem zero_or_hasOrder_signed
    (hx : x.toModel.unpack = .zero .positive ∨ HasOrder x .positive (-1073) 1024) :
    (signed n x).toModel.unpack = .zero (signOf n) ∨
      HasOrder (signed n x) (signOf n) (-1073) 1024 :=
  hx.imp unpack_signed_of_zero HasOrder.signed

end Signed

theorem toFloat?_eq_some {n : Numeral} {x : Float} (h : n.toFloat? = some x) :
    (n.vanishes = true ∧ x = signed n 0) ∨
      n.mantissa ≠ 0 ∧ n.exponent ≤ 400 ∧ n.overflows = false ∧
        x = signed n (Float.ofScientific n.mantissa (n.exponent < 0) n.exponent.natAbs) := by
  unfold Numeral.toFloat? at h
  dsimp only at h
  split at h
  · next hvanishes => exact Or.inl ⟨hvanishes, (Option.some.inj h).symm⟩
  split at h
  · cases h
  · next hvanishes hlarge =>
    rw [Bool.or_eq_true, not_or, decide_eq_true_eq, Bool.not_eq_true] at hlarge
    refine Or.inr ⟨fun hzero => hvanishes ?_, by omega, hlarge.2, (Option.some.inj h).symm⟩
    rw [Numeral.vanishes, decide_eq_true_eq]
    exact Or.inl hzero

theorem mul_lt_overflowBound {n : Numeral} (hnonneg : 0 ≤ n.exponent) (h : n.overflows = false) :
    n.mantissa * 10 ^ n.exponent.natAbs < Numeral.overflowBound := by
  unfold Numeral.overflows at h
  rw [if_pos hnonneg, decide_eq_false_iff_not, Nat.not_le] at h
  have habs : n.exponent.natAbs = n.exponent.toNat := by omega
  rw [habs]
  exact h

theorem lt_overflowBound_mul {n : Numeral} (hneg : n.exponent < 0) (h : n.overflows = false) :
    n.mantissa < Numeral.overflowBound * 10 ^ n.exponent.natAbs := by
  unfold Numeral.overflows at h
  rw [if_neg (Int.not_le.2 hneg), decide_eq_false_iff_not, Nat.not_le] at h
  have habs : n.exponent.natAbs = (-n.exponent).toNat := by omega
  rw [habs]
  exact h

/-- The float of a numeral has the numeral's sign, and is neither an infinity nor undefined. -/
theorem zero_or_hasOrder_of_toFloat? {n : Numeral} {x : Float} (h : n.toFloat? = some x) :
    x.toModel.unpack = .zero (signOf n) ∨ HasOrder x (signOf n) (-1073) 1024 := by
  rcases toFloat?_eq_some h with ⟨-, rfl⟩ | ⟨hm, he, hsmall, rfl⟩
  · exact Or.inl (unpack_signed_of_zero unpack_zero)
  · refine zero_or_hasOrder_signed ?_
    by_cases hneg : n.exponent < 0
    · rw [decide_eq_true hneg]
      exact zero_or_hasOrder_ofScientific hm (by omega) (lt_overflowBound_mul hneg hsmall)
    · rw [decide_eq_false hneg]
      have horder := hasOrder_ofScientific hm (by omega) (mul_lt_overflowBound (by omega) hsmall)
      exact Or.inr (horder.mono (by decide) (by decide))

/-- The float of a whole number is zero only if the number is. -/
theorem hasOrder_of_toFloat?_whole {n : Numeral} {x : Float} (h : n.toFloat? = some x)
    (he : n.exponent = 0) (hm : n.mantissa ≠ 0) : HasOrder x (signOf n) 1 1024 := by
  rcases toFloat?_eq_some h with ⟨hvanishes, -⟩ | ⟨-, -, hsmall, rfl⟩
  · rw [Numeral.vanishes, decide_eq_true_eq] at hvanishes
    omega
  · have hlt := mul_lt_overflowBound (by omega) hsmall
    rw [decide_eq_false (by omega)]
    exact (hasOrder_ofScientific hm (by omega) hlt).signed

theorem unpack_of_toFloat?_zero {n : Numeral} {x : Float} (h : n.toFloat? = some x)
    (hm : n.mantissa = 0) : x.toModel.unpack = .zero (signOf n) := by
  rcases toFloat?_eq_some h with ⟨-, rfl⟩ | ⟨hne, -⟩
  · exact unpack_signed_of_zero unpack_zero
  · exact absurd hm hne

end Binary64
end StrongMotion
