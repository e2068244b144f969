import Mathlib.Algebra.Order.Field.Power
import Mathlib.Data.Rat.Cast.Order
import Mathlib.Tactic.FieldSimp
import Mathlib.Tactic.Linarith
import Mathlib.Tactic.Positivity
import Mathlib.Tactic.Ring
import StrongMotion.Number.Dyadic
import StrongMotion.Proofs.Magnitudes

/-!
# The floats nearest to numbers

The bits that are shifted out of a significand are not lost.  The last of them and whether there is
any other tell on which side of a half the number lies (`Binary64.Locates`).  What is rounded is
therefore the whole number nearest to the one that is meant, in units of the last bit that fits, and
no float lies between two such units where the number is (`Binary64.isNearest_nearest`).  But for
the sign of zero there is only one float nearest to a number (`IsNearest.value_eq`).
-/

namespace StrongMotion

/-- The number that the significand stands for. -/
def Dyadic.value (d : Dyadic) : ℚ := (if d.negative then -1 else 1) * d.significand * 2 ^ d.exponent

/-- The float is the one that the number is rounded to.  No finite float is nearer to the number,
and if another one is as near, it is the one with the even significand. -/
def IsNearest (x : Float) (q : ℚ) : Prop :=
  ∃ d, Dyadic.ofFloat? x = some d ∧ ∀ y d', Dyadic.ofFloat? y = some d' →
    |d.value - q| ≤ |d'.value - q| ∧
      (|d.value - q| = |d'.value - q| → d'.value = d.value ∨ d.significand % 2 = 0)

/-- The whole number is the nearest one, and an even one if another is as near. -/
structure RoundsEven (r : Nat) (q : ℚ) : Prop where
  dist_le : |(r : ℚ) - q| ≤ 1 / 2
  even : |(r : ℚ) - q| = 1 / 2 → r % 2 = 0

namespace RoundsEven

variable {r : Nat} {q : ℚ}

theorem of_lt (h : |(r : ℚ) - q| < 1 / 2) : RoundsEven r q :=
  ⟨h.le, fun hhalf => absurd hhalf h.ne⟩

/-- Two whole numbers are one apart at least, so another one is not within a half. -/
theorem half_le {k : ℤ} (h : RoundsEven r q) (hne : k ≠ r) : 1 / 2 ≤ |(k : ℚ) - q| := by
  have hone : (1 : ℚ) ≤ |(k : ℚ) - r| := by
    exact_mod_cast Int.one_le_abs (sub_ne_zero.2 hne)
  have htriangle := abs_sub_le (k : ℚ) q r
  rw [abs_sub_comm q] at htriangle
  have hle := h.dist_le
  linarith

theorem le_dist (h : RoundsEven r q) (k : ℤ) : |(r : ℚ) - q| ≤ |(k : ℚ) - q| := by
  by_cases hk : k = r
  · rw [hk, Int.cast_natCast]
  · exact h.dist_le.trans (h.half_le hk)

theorem eq_or_even_of_dist_eq (h : RoundsEven r q) {k : ℤ}
    (hdist : |(r : ℚ) - q| = |(k : ℚ) - q|) : k = r ∨ r % 2 = 0 := by
  by_cases hk : k = r
  · exact Or.inl hk
  · exact Or.inr (h.even (le_antisymm h.dist_le (hdist ▸ h.half_le hk)))

/-- Where a number has all bits of a significand, the floats with a lower last place are further
off. -/
theorem dist_lt (h : RoundsEven r q) (hfull : 2 ^ 52 ≤ q) {k place : ℤ}
    (hk : k.natAbs < 2 ^ 53) (hplace : place < 0) : |(r : ℚ) - q| < |(k : ℚ) * 2 ^ place - q| := by
  have hlower : (2 : ℚ) ^ place ≤ 2 ^ (-1 : ℤ) := zpow_le_zpow_right₀ one_le_two (by omega)
  have hsmall : (k : ℚ) * 2 ^ place < 2 ^ 52 := by
    have hk' : k < 2 ^ 53 := by omega
    calc (k : ℚ) * 2 ^ place < 2 ^ 53 * 2 ^ place := by
          gcongr
          exact_mod_cast hk'
      _ ≤ 2 ^ 53 * 2 ^ (-1 : ℤ) := by gcongr
      _ = 2 ^ 52 := by norm_num
  refine (h.le_dist (2 ^ 52)).trans_lt ?_
  rw [Int.cast_pow, Int.cast_ofNat, abs_sub_comm, abs_sub_comm _ q, abs_of_nonneg (by linarith),
    abs_of_pos (by linarith)]
  linarith

/-- The whole number times the last place is a nearest float where no float is in between: at the
least exponent, or with all bits of the significand. -/
theorem nearest {t : ℤ} (h : RoundsEven r q) (hfull : t = -1074 ∨ 2 ^ 52 ≤ q) {k f : ℤ}
    (hk : k.natAbs < 2 ^ 53) (hf : -1074 ≤ f) :
    |(r : ℚ) * 2 ^ t - q * 2 ^ t| ≤ |(k : ℚ) * 2 ^ f - q * 2 ^ t| ∧
      (|(r : ℚ) * 2 ^ t - q * 2 ^ t| = |(k : ℚ) * 2 ^ f - q * 2 ^ t| →
        (k : ℚ) * 2 ^ f = r * 2 ^ t ∨ r % 2 = 0) := by
  have hplace : (0 : ℚ) < 2 ^ t := by positivity
  have hunits : (k : ℚ) * 2 ^ f = k * 2 ^ (f - t) * 2 ^ t := by
    rw [mul_assoc, ← zpow_add₀ two_ne_zero, sub_add_cancel]
  rw [hunits, ← sub_mul, ← sub_mul, abs_mul, abs_mul, abs_of_pos hplace]
  rw [mul_le_mul_iff_left₀ hplace, mul_left_inj' hplace.ne', mul_left_inj' hplace.ne']
  by_cases hle : t ≤ f
  · -- The other float is a whole multiple of the last place too.
    obtain ⟨count, hcount⟩ := Int.eq_ofNat_of_zero_le (sub_nonneg.2 hle)
    have hwhole : (k : ℚ) * 2 ^ (f - t) = (k * 2 ^ count : ℤ) := by
      rw [hcount]
      push_cast
      rfl
    rw [hwhole]
    refine ⟨h.le_dist _, fun hdist => (h.eq_or_even_of_dist_eq hdist).imp_left fun heq => ?_⟩
    rw [heq, Int.cast_natCast]
  · have hlt : |(r : ℚ) - q| < |(k : ℚ) * 2 ^ (f - t) - q| :=
      h.dist_lt (hfull.resolve_left (by omega)) hk (by omega)
    exact ⟨hlt.le, fun hdist => absurd hdist hlt.ne⟩

end RoundsEven

namespace Dyadic

/-- The significand with its sign. -/
def signed (d : Dyadic) : ℤ := Numeral.applySign d.negative d.significand

theorem natAbs_signed (d : Dyadic) : d.signed.natAbs = d.significand := by
  rw [signed, Numeral.applySign]
  split <;> omega

theorem value_eq (d : Dyadic) : d.value = d.signed * 2 ^ d.exponent := by
  rw [value, signed, Numeral.applySign]
  split <;> simp

end Dyadic

namespace Binary64

open Float.Model Float.Model.UnpackedFloat

/-! ## Where the number lies -/

/-- The significand with the round bit as its first digit behind the point. -/
def lowEnd (em : ExtendedMantissa) : ℚ := em.mantissa + if em.roundBit then 1 / 2 else 0

/-- The number is the one that the significand and the round bit write or, with the sticky bit, one
of those between it and the next of them. -/
def Locates (em : ExtendedMantissa) (q : ℚ) : Prop :=
  if em.stickyBit then lowEnd em < q ∧ q < lowEnd em + 1 / 2 else q = lowEnd em

theorem locates_exact (m : Nat) :
    Locates (ExtendedMantissa.ofMantissaAndAccuracy m .exact) m := by
  show (m : ℚ) = m + 0
  rw [add_zero]

/-- What a division leaves tells where the quotient lies. -/
theorem locates_quotient {b : Nat} (hb : 0 < b) (a : Nat) :
    Locates (ExtendedMantissa.ofMantissaAndAccuracy (a / b) (accuracyOfFraction (a % b) b))
      (a / b : ℚ) := by
  have hb' : (0 : ℚ) < b := by exact_mod_cast hb
  have hsum : (a / b : ℚ) = (a / b : ℕ) + (a % b : ℕ) / b := by
    rw [div_eq_iff hb'.ne', add_mul, div_mul_cancel₀ _ hb'.ne']
    exact_mod_cast (Nat.div_add_mod' a b).symm
  have hlt : ((a % b : ℕ) : ℚ) / b < 1 := by
    rw [div_lt_one hb']
    exact_mod_cast Nat.mod_lt a hb
  rw [hsum]
  unfold accuracyOfFraction
  split
  · next hzero =>
    rw [hzero, Nat.cast_zero, zero_div, add_zero]
    exact locates_exact _
  · next hne =>
    have hpos : (0 : ℚ) < (a % b : ℕ) / b :=
      div_pos (by exact_mod_cast Nat.pos_of_ne_zero hne) hb'
    cases hhalf : compare (2 * (a % b)) b with
    | lt =>
      have hless : ((a % b : ℕ) : ℚ) / b < 1 / 2 := by
        rw [div_lt_div_iff₀ hb' two_pos]
        exact_mod_cast (by rw [Nat.compare_eq_lt] at hhalf; omega)
      show ((a / b : ℕ) : ℚ) + 0 < _ ∧ _ < ((a / b : ℕ) : ℚ) + 0 + 1 / 2
      constructor <;> linarith
    | eq =>
      have hequal : ((a % b : ℕ) : ℚ) / b = 1 / 2 := by
        rw [div_eq_div_iff hb'.ne' two_ne_zero]
        exact_mod_cast (by rw [Nat.compare_eq_eq] at hhalf; omega)
      rw [hequal]
      rfl
    | gt =>
      have hmore : 1 / 2 < ((a % b : ℕ) : ℚ) / b := by
        rw [div_lt_div_iff₀ two_pos hb']
        exact_mod_cast (by rw [Nat.compare_eq_gt] at hhalf; omega)
      show ((a / b : ℕ) : ℚ) + 1 / 2 < _ ∧ _ < ((a / b : ℕ) : ℚ) + 1 / 2 + 1 / 2
      constructor <;> linarith

namespace Locates

variable {em : ExtendedMantissa} {q : ℚ}

theorem bounds (h : Locates em q) : (em.mantissa : ℚ) ≤ q ∧ q < em.mantissa + 1 := by
  have hround : (0 : ℚ) ≤ (if em.roundBit then 1 / 2 else 0) ∧
      (if em.roundBit then 1 / 2 else 0 : ℚ) ≤ 1 / 2 := by
    split <;> norm_num
  unfold Locates lowEnd at h
  split at h
  · constructor <;> linarith
  · constructor <;> linarith

theorem lowEnd_shiftRightOne (em : ExtendedMantissa) :
    lowEnd em.shiftRightOne = em.mantissa / 2 := by
  show (em.mantissa / 2 : ℕ) + (if em.mantissa % 2 != 0 then 1 / 2 else 0 : ℚ) = em.mantissa / 2
  obtain ⟨k, hk | hk⟩ := em.mantissa.even_or_odd'
  · simp [hk]
  · have hhalf : (2 * k + 1) / 2 = k := by omega
    rw [hk, hhalf]
    simp
    ring

/-- The last bit of the significand becomes the round bit, and the round bit is not forgotten. -/
theorem shiftRightOne (h : Locates em q) : Locates em.shiftRightOne (q / 2) := by
  obtain ⟨hle, hlt⟩ := h.bounds
  have hlow := lowEnd_shiftRightOne em
  have hsticky : em.shiftRightOne.stickyBit = (em.roundBit || em.stickyBit) := rfl
  unfold Locates lowEnd at h
  unfold Locates
  rw [hlow, hsticky]
  cases hround : em.roundBit <;> cases hbehind : em.stickyBit <;>
    simp only [hround, hbehind, Bool.or_true, Bool.or_false, if_true, if_false,
      Bool.false_eq_true] at h ⊢
  · linarith
  · constructor <;> linarith
  · constructor <;> linarith
  · constructor <;> linarith

theorem shiftRight (h : Locates em q) (count : Nat) :
    Locates (em >>> count) (q / 2 ^ count) := by
  induction count with
  | zero =>
    rw [pow_zero, div_one]
    exact h
  | succ count ih =>
    rw [shiftRight_succ, pow_succ, ← div_div]
    exact ih.shiftRightOne

theorem roundsEven (h : Locates em q) : RoundsEven em.roundedMantissa q := by
  obtain ⟨m, roundBit, stickyBit⟩ := em
  cases roundBit <;> cases stickyBit
  · have hq : q = m + 0 := h
    refine .of_lt (abs_sub_lt_iff.2 ?_)
    show (m : ℚ) - q < 1 / 2 ∧ q - m < 1 / 2
    constructor <;> linarith
  · have hq : (m : ℚ) + 0 < q ∧ q < m + 0 + 1 / 2 := h
    refine .of_lt (abs_sub_lt_iff.2 ?_)
    show (m : ℚ) - q < 1 / 2 ∧ q - m < 1 / 2
    constructor <;> linarith
  · have hq : q = m + 1 / 2 := h
    show RoundsEven (m + m % 2) q
    refine ⟨?_, fun _ => by omega⟩
    rcases Nat.mod_two_eq_zero_or_one m with hm | hm
    · rw [hm, hq]
      norm_num
    · rw [hm, hq]
      norm_num
  · have hq : (m : ℚ) + 1 / 2 < q ∧ q < m + 1 / 2 + 1 / 2 := h
    refine .of_lt (abs_sub_lt_iff.2 ?_)
    show ((m + 1 : ℕ) : ℚ) - q < 1 / 2 ∧ q - (m + 1 : ℕ) < 1 / 2
    rw [Nat.cast_succ]
    constructor <;> linarith

end Locates

/-! ## What a number is rounded to -/

theorem value_carry (r : Nat) (t : Int) :
    ((carry r t).1 : ℚ) * 2 ^ (carry r t).2 = r * 2 ^ t := by
  unfold carry
  split
  · next hcarry =>
    rw [hcarry, zpow_add_one₀ two_ne_zero]
    push_cast
    ring
  · rfl

theorem even_carry {r : Nat} (hr : r % 2 = 0) (t : Int) : (carry r t).1 % 2 = 0 := by
  unfold carry
  split
  · norm_num
  · exact hr

theorem ofFloat?_cases {x : Float} {d : Dyadic} (h : Dyadic.ofFloat? x = some d) :
    (∃ (s : Sign) (m : Nat) (e : Int) (hm : 0 < m),
      x.toModel.unpack = .finite s m e hm ∧ d = ⟨s == .negative, m, e⟩) ∨
    ∃ s : Sign, x.toModel.unpack = .zero s ∧ d = ⟨s == .negative, 0, -1074⟩ := by
  rw [ofFloat?_eq] at h
  cases hunpack : x.toModel.unpack with
  | finite s m e hm =>
    rw [hunpack] at h
    exact Or.inl ⟨s, m, e, hm, rfl, (Option.some.inj h).symm⟩
  | zero s =>
    rw [hunpack] at h
    exact Or.inr ⟨s, rfl, (Option.some.inj h).symm⟩
  | infinity s =>
    rw [hunpack] at h
    cases h
  | notANumber =>
    rw [hunpack] at h
    cases h

/-- A float has 53 bits at most, and its exponent is one of those that floats have. -/
theorem bounds_of_ofFloat? {x : Float} {d : Dyadic} (h : Dyadic.ofFloat? x = some d) :
    d.significand < 2 ^ 53 ∧ -1074 ≤ d.exponent ∧ d.exponent ≤ 971 := by
  rcases ofFloat?_cases h with ⟨s, m, e, hm, hunpack, rfl⟩ | ⟨s, -, rfl⟩
  · obtain ⟨hcanonical, hgreat⟩ := isCanonical_of_unpack hunpack
    exact ⟨hcanonical.lt, hcanonical.least_le, hgreat⟩
  · exact ⟨Nat.two_pow_pos 53, Int.le_refl _, by show (-1074 : ℤ) ≤ 971; decide⟩

section Nearest

variable {m : Nat} {e : Int} (he : e ≤ target (totalExponent m e)) {acc : Accuracy}
  (hfinite : (nearest .positive m e acc).isFinite = true)
include he hfinite

theorem exists_ofFloat?_nearest :
    ∃ d, Dyadic.ofFloat? (nearest .positive m e acc) = some d ∧
      d.value = (shifted m e acc).roundedMantissa * 2 ^ target (totalExponent m e) ∧
      ((shifted m e acc).roundedMantissa % 2 = 0 → d.significand % 2 = 0) := by
  rw [ofFloat?_eq]
  by_cases hzero : (shifted m e acc).roundedMantissa = 0
  · rw [unpack_nearest_of_eq_zero _ he hzero, hzero]
    exact ⟨⟨false, 0, -1074⟩, rfl, by simp [Dyadic.value], fun _ => rfl⟩
  · have hunpack := unpack_nearest .positive he hzero
    split at hunpack
    · rw [hunpack]
      refine ⟨⟨false, (rounded m e acc).1, (rounded m e acc).2⟩, rfl, ?_, fun heven => ?_⟩
      · show 1 * ((rounded m e acc).1 : ℚ) * 2 ^ (rounded m e acc).2 = _
        rw [one_mul]
        exact value_carry _ _
      · exact even_carry heven _
    · have hunpack' : (nearest .positive m e acc).toModel.unpack.isFinite = true := hfinite
      rw [hunpack] at hunpack'
      cases hunpack'

/-- What a number is rounded to is the float nearest to it. -/
theorem isNearest_nearest {q : ℚ}
    (hq : Locates (ExtendedMantissa.ofMantissaAndAccuracy m acc) q) :
    IsNearest (nearest .positive m e acc) (q * 2 ^ e) := by
  obtain ⟨d, hd, hvalue, heven⟩ := exists_ofFloat?_nearest he hfinite
  have hshifted : Locates (shifted m e acc) (q / 2 ^ surplus m e) := hq.shiftRight _
  have hplace : q * 2 ^ e = q / 2 ^ surplus m e * 2 ^ target (totalExponent m e) := by
    rw [← add_surplus he, zpow_add₀ two_ne_zero, zpow_natCast]
    field_simp
  have hfull : target (totalExponent m e) = -1074 ∨ 2 ^ 52 ≤ q / 2 ^ surplus m e := by
    rcases (Int.le_max_right _ _ : -1074 ≤ target (totalExponent m e)).eq_or_lt with heq | hlt
    · exact Or.inl heq.symm
    · have hquotient := two_pow_le_quotient he hlt
      rw [← mantissa_shifted m e acc] at hquotient
      exact Or.inr (le_trans (by exact_mod_cast hquotient) hshifted.bounds.1)
  refine ⟨d, hd, fun y d' hd' => ?_⟩
  obtain ⟨hlt, hleast, -⟩ := bounds_of_ofFloat? hd'
  rw [← d'.natAbs_signed] at hlt
  have hnearest := hshifted.roundsEven.nearest hfull hlt hleast
  rw [hvalue, hplace, d'.value_eq]
  exact ⟨hnearest.1, fun hdist => (hnearest.2 hdist).imp_right heven⟩

end Nearest

/-- No float other than zero is less than the least one. -/
theorem le_abs_value_of_ofFloat? {x : Float} {d : Dyadic} (hd : Dyadic.ofFloat? x = some d)
    (hne : d.signed ≠ 0) : (2 : ℚ) ^ (-1074 : ℤ) ≤ |d.value| := by
  have hone : (1 : ℚ) ≤ |(d.signed : ℚ)| := by
    exact_mod_cast Int.one_le_abs hne
  rw [d.value_eq, abs_mul, abs_of_pos (by positivity : (0 : ℚ) < 2 ^ d.exponent)]
  calc (2 : ℚ) ^ (-1074 : ℤ) ≤ 2 ^ d.exponent :=
        zpow_le_zpow_right₀ one_le_two (bounds_of_ofFloat? hd).2.1
    _ ≤ _ := le_mul_of_one_le_left (by positivity) hone

/-- What is no further from zero than half the least float is rounded to zero. -/
theorem isNearest_of_zero {x : Float} {s : Sign} (hx : x.toModel.unpack = .zero s) {q : ℚ}
    (hq : |q| ≤ 2 ^ (-1075 : ℤ)) : IsNearest x q := by
  have hvalue : Dyadic.value ⟨s == .negative, 0, -1074⟩ = 0 := by simp [Dyadic.value]
  refine ⟨⟨s == .negative, 0, -1074⟩, by rw [ofFloat?_eq, hx]; rfl, fun y d hd => ⟨?_, fun _ =>
    Or.inr rfl⟩⟩
  rw [hvalue, zero_sub, abs_neg]
  by_cases hzero : d.signed = 0
  · rw [d.value_eq, hzero, Int.cast_zero, zero_mul, zero_sub, abs_neg]
  · have hleast := le_abs_value_of_ofFloat? hd hzero
    have htwice : (2 : ℚ) ^ (-1074 : ℤ) = 2 ^ (-1075 : ℤ) * 2 := by
      rw [← zpow_add_one₀ two_ne_zero]
      rfl
    have htriangle := abs_sub_abs_le_abs_sub d.value q
    linarith

theorem ofFloat?_neg {x : Float} {d : Dyadic} (h : Dyadic.ofFloat? x = some d) :
    Dyadic.ofFloat? (-x) = some { d with negative := !d.negative } := by
  have hneg : (-x).toModel.unpack = (Float.Model.pack x.toModel.unpack.neg).unpack := rfl
  rw [ofFloat?_eq, hneg]
  rcases ofFloat?_cases h with ⟨s, m, e, hm, hunpack, rfl⟩ | ⟨s, hunpack, rfl⟩
  · obtain ⟨hcanonical, he⟩ := isCanonical_of_unpack hunpack
    have hback : (Float.Model.pack (UnpackedFloat.finite s m e hm).neg).unpack =
        .finite (-s) m e hm := unpack_pack hcanonical he
    rw [hunpack, hback]
    cases s <;> rfl
  · have hback : (Float.Model.pack (UnpackedFloat.zero s).neg).unpack = .zero (-s) :=
      unpack_pack_zero
    rw [hunpack, hback]
    cases s <;> rfl

/-! ## Floats between floats -/

theorem IsCanonical.exists_float {j f : ℤ} (h : IsCanonical j.natAbs f) (hgreat : f ≤ 971) :
    ∃ x d, Dyadic.ofFloat? x = some d ∧ d.value = j * 2 ^ f := by
  obtain ⟨s, hs⟩ : ∃ s : Sign, Numeral.applySign (s == .negative) j.natAbs = j := by
    rcases le_or_gt 0 j with hpos | hneg
    · exact ⟨.positive, Int.natAbs_of_nonneg hpos⟩
    · exact ⟨.negative, by show -(j.natAbs : ℤ) = j; omega⟩
  refine ⟨⟨Float.Model.pack (.finite s j.natAbs f h.pos)⟩, ⟨s == .negative, j.natAbs, f⟩, ?_, ?_⟩
  · rw [ofFloat?_eq, unpack_pack h hgreat]
    rfl
  · rw [Dyadic.value_eq, Dyadic.signed, hs]

/-- Whole multiples of a place are floats if they need no more than 53 bits. -/
theorem exists_float {j f : ℤ} (hj : j.natAbs < 2 ^ 53) (hleast : -1074 ≤ f) (hgreat : f ≤ 971) :
    ∃ x d, Dyadic.ofFloat? x = some d ∧ d.value = j * 2 ^ f := by
  by_cases hzero : j = 0
  · refine ⟨0, ⟨false, 0, -1074⟩, rfl, ?_⟩
    rw [hzero]
    simp [Dyadic.value]
  obtain ⟨count, hcount⟩ := Int.eq_ofNat_of_zero_le (sub_nonneg.2 hleast)
  induction count generalizing j f with
  | zero =>
    exact IsCanonical.exists_float ⟨by omega, hj, hleast, Or.inr (by omega)⟩ hgreat
  | succ count ih =>
    by_cases hfull : 2 ^ 52 ≤ j.natAbs
    · exact IsCanonical.exists_float ⟨by omega, hj, hleast, Or.inl hfull⟩ hgreat
    · -- There is room for one more bit, so the place below is as good.
      obtain ⟨x, d, hd, hvalue⟩ := ih (j := 2 * j) (f := f - 1) (by omega) (by omega) (by omega)
        (by omega) (by omega)
      refine ⟨x, d, hd, ?_⟩
      rw [hvalue, zpow_sub_one₀ two_ne_zero]
      push_cast
      ring

/-- An even significand is even in units of a lower place too. -/
theorem exists_value_eq_of_even {d : Dyadic} (heven : d.significand % 2 = 0) {place : ℤ}
    (hle : place ≤ d.exponent) : ∃ k : ℤ, d.value = (2 * k : ℤ) * 2 ^ place := by
  have habs := d.natAbs_signed
  obtain ⟨half, hhalf⟩ : ∃ half, d.signed = 2 * half := ⟨d.signed / 2, by omega⟩
  obtain ⟨count, hcount⟩ := Int.eq_ofNat_of_zero_le (sub_nonneg.2 hle)
  have hexponent : d.exponent = count + place := by omega
  refine ⟨half * 2 ^ count, ?_⟩
  rw [d.value_eq, hhalf, hexponent, zpow_add₀ two_ne_zero, zpow_natCast]
  push_cast
  ring

/-- Two floats with even significands have another one between them. -/
theorem exists_between {x : Float} {d d' : Dyadic} (hd : Dyadic.ofFloat? x = some d)
    (heven : d.significand % 2 = 0) (heven' : d'.significand % 2 = 0)
    (hle : d.exponent ≤ d'.exponent) (hne : d.value ≠ d'.value) :
    ∃ z c, Dyadic.ofFloat? z = some c ∧ (d.value < c.value ∧ c.value < d'.value ∨
      d'.value < c.value ∧ c.value < d.value) := by
  obtain ⟨hlt, hleast, hgreat⟩ := bounds_of_ofFloat? hd
  have hplace : (0 : ℚ) < 2 ^ d.exponent := by positivity
  have habs := d.natAbs_signed
  obtain ⟨k, hk⟩ := exists_value_eq_of_even heven' hle
  rw [d.value_eq, hk] at hne ⊢
  have hne' : d.signed ≠ 2 * k := fun h => hne (by rw [h])
  have hbetween : ∀ j : ℤ, d.signed < j ∧ j < 2 * k ∨ 2 * k < j ∧ j < d.signed →
      j.natAbs < 2 ^ 53 → ∃ z c, Dyadic.ofFloat? z = some c ∧
        ((d.signed : ℚ) * 2 ^ d.exponent < c.value ∧ c.value < (2 * k : ℤ) * 2 ^ d.exponent ∨
          (2 * k : ℤ) * 2 ^ d.exponent < c.value ∧ c.value < d.signed * 2 ^ d.exponent) := by
    intro j hj hbits
    obtain ⟨z, c, hc, hvalue⟩ := exists_float hbits hleast hgreat
    refine ⟨z, c, hc, ?_⟩
    rw [hvalue]
    simp only [mul_lt_mul_iff_left₀ hplace, Int.cast_lt]
    exact hj
  rcases lt_or_gt_of_ne hne' with hbelow | habove
  · exact hbetween (d.signed + 1) (Or.inl ⟨by omega, by omega⟩) (by omega)
  · exact hbetween (d.signed - 1) (Or.inr ⟨by omega, by omega⟩) (by omega)

end Binary64

theorem Dyadic.value_neg (d : Dyadic) : value { d with negative := !d.negative } = -d.value := by
  rw [value, value]
  cases d.negative <;> simp

theorem IsNearest.neg {x : Float} {q : ℚ} (h : IsNearest x q) : IsNearest (-x) (-q) := by
  obtain ⟨d, hd, hnearest⟩ := h
  refine ⟨_, Binary64.ofFloat?_neg hd, fun y d' hd' => ?_⟩
  have hmirror := hnearest (-y) _ (Binary64.ofFloat?_neg hd')
  have hdist : ∀ v : ℚ, |-v - -q| = |v - q| := fun v => by rw [← neg_sub', abs_neg]
  have hdist' : |-d'.value - q| = |d'.value - -q| := by
    rw [← abs_neg]
    congr 1
    ring
  rw [Dyadic.value_neg] at hmirror ⊢
  rw [hdist, ← hdist']
  refine ⟨hmirror.1, fun heq => (hmirror.2 heq).imp_left fun h => ?_⟩
  rw [← h, neg_neg]

theorem abs_sub_lt_of_between {a b c q : ℚ} (hdist : |a - q| = |b - q|) (hac : a < c)
    (hcb : c < b) : |c - q| < |a - q| := by
  have hmiddle : a - q = -(b - q) := (abs_eq_abs.1 hdist).resolve_left fun h => by linarith
  have hbelow : a - q < 0 := by linarith
  rw [abs_of_neg hbelow, abs_lt]
  constructor <;> linarith

/-- A number is rounded to one float only, but for the sign of zero: between two that are as near to
it and have even significands there would be a nearer one. -/
theorem IsNearest.value_eq {x y : Float} {q : ℚ} (hx : IsNearest x q) (hy : IsNearest y q)
    {d d' : Dyadic} (hd : Dyadic.ofFloat? x = some d) (hd' : Dyadic.ofFloat? y = some d') :
    d.value = d'.value := by
  obtain ⟨c, hc, hnearest⟩ := hx
  obtain rfl := Option.some.inj (hd.symm.trans hc)
  obtain ⟨c', hc', hnearest'⟩ := hy
  obtain rfl := Option.some.inj (hd'.symm.trans hc')
  by_contra hne
  have hdist := le_antisymm (hnearest y d' hd').1 (hnearest' x d hd).1
  have heven := ((hnearest y d' hd').2 hdist).resolve_left (Ne.symm hne)
  have heven' := ((hnearest' x d hd).2 hdist.symm).resolve_left hne
  have hnone : ∀ z c, Dyadic.ofFloat? z = some c → ¬(d.value < c.value ∧ c.value < d'.value) ∧
      ¬(d'.value < c.value ∧ c.value < d.value) := by
    intro z c hc
    refine ⟨fun ⟨hlow, hhigh⟩ => ?_, fun ⟨hlow, hhigh⟩ => ?_⟩
    · exact absurd (hnearest z c hc).1 (not_le.2 (abs_sub_lt_of_between hdist hlow hhigh))
    · exact absurd (hnearest' z c hc).1 (not_le.2 (abs_sub_lt_of_between hdist.symm hlow hhigh))
  rcases le_total d.exponent d'.exponent with hle | hle
  · obtain ⟨z, c, hc, hbetween⟩ := Binary64.exists_between hd heven heven' hle hne
    exact hbetween.elim (hnone z c hc).1 (hnone z c hc).2
  · obtain ⟨z, c, hc, hbetween⟩ := Binary64.exists_between hd' heven' heven hle (Ne.symm hne)
    exact hbetween.elim (hnone z c hc).2 (hnone z c hc).1

end StrongMotion
