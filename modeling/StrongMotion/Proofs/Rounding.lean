import Mathlib
import StrongMotion.Number.Numeral

/-!
# Rounding to 64-bit floats

A float is a significand of at most 53 bits times a power of two.  To round is to shift the bits
that do not fit behind the last one that does, and to look at what is left of them; a carry makes
one more shift necessary.  What comes out has the same order of magnitude or the next
(`Binary64.order_rounded`), and below the bound of all floats its exponent is one that floats have
(`Binary64.exponent_rounded_le`).
-/

namespace StrongMotion
namespace Binary64

open Float.Model Float.Model.UnpackedFloat

/-- The significand and the exponent of a finite float other than zero. -/
structure IsCanonical (m : Nat) (e : Int) : Prop where
  pos : 0 < m
  lt : m < 2 ^ 53
  least_le : -1074 ≤ e
  full : 2 ^ 52 ≤ m ∨ e = -1074

/-! ## Shifting -/

section Shift

variable (em : ExtendedMantissa)

theorem shiftRight_succ (count : Nat) : em >>> (count + 1) = (em >>> count).shiftRightOne := rfl

theorem mantissa_shiftRight (count : Nat) : (em >>> count).mantissa = em.mantissa / 2 ^ count := by
  induction count with
  | zero => exact (Nat.div_one _).symm
  | succ count ih =>
    show (em >>> count).mantissa / 2 = em.mantissa / 2 ^ (count + 1)
    rw [ih, Nat.div_div_eq_div_mul, Nat.pow_succ]

/-- The round bit is the last bit that was shifted out. -/
theorem roundBit_shiftRight (count : Nat) :
    (em >>> (count + 1)).roundBit = (em.mantissa / 2 ^ count % 2 != 0) := by
  rw [shiftRight_succ, ← mantissa_shiftRight]
  rfl

/-- Only where the last bit that was shifted out is set, the significand is rounded up. -/
theorem roundedMantissa_cases :
    em.roundedMantissa = em.mantissa ∨
      (em.roundedMantissa = em.mantissa + 1 ∧ em.roundBit = true) := by
  obtain ⟨m, roundBit, stickyBit⟩ := em
  cases roundBit
  · cases stickyBit <;> exact Or.inl rfl
  cases stickyBit
  · show m + m % 2 = m ∨ (m + m % 2 = m + 1 ∧ true = true)
    rcases Nat.mod_two_eq_zero_or_one m with hm | hm
    · exact Or.inl (by rw [hm]; rfl)
    · exact Or.inr ⟨by rw [hm], rfl⟩
  · exact Or.inr ⟨rfl, rfl⟩

theorem mantissa_ofMantissaAndAccuracy (m : Nat) (acc : Accuracy) :
    (ExtendedMantissa.ofMantissaAndAccuracy m acc).mantissa = m := by
  obtain _ | (_ | _ | _) := acc <;> rfl

end Shift

/-! ## Rounding -/

/-- The exponent for a number of this order: 53 bits stand above it, or fewer at the least
exponent. -/
def target (order : Int) : Int := max (order - 53) (-1074)

/-- The number of bits that do not fit. -/
def surplus (m : Nat) (e : Int) : Nat := (target (totalExponent m e) - e).toNat

/-- The significand with the bits that do not fit shifted behind it. -/
def shifted (m : Nat) (e : Int) (acc : Accuracy) : ExtendedMantissa :=
  ExtendedMantissa.ofMantissaAndAccuracy m acc >>> surplus m e

/-- A carry out of 53 bits leaves one bit of the significand and goes into the exponent. -/
def carry (r : Nat) (t : Int) : Nat × Int := if r = 2 ^ 53 then (2 ^ 52, t + 1) else (r, t)

/-- The rounded significand and its exponent. -/
def rounded (m : Nat) (e : Int) (acc : Accuracy) : Nat × Int :=
  carry (shifted m e acc).roundedMantissa (target (totalExponent m e))

/-- The float with this significand, which is a zero if there is none. -/
def ofParts (s : Sign) (m : Nat) (e : Int) : UnpackedFloat :=
  if h : m = 0 then .zero s else .finite s m e (Nat.pos_of_ne_zero h)

theorem mantissa_shifted (m : Nat) (e : Int) (acc : Accuracy) :
    (shifted m e acc).mantissa = m / 2 ^ surplus m e := by
  rw [shifted, mantissa_shiftRight, mantissa_ofMantissaAndAccuracy]

theorem log2_div_two_pow (m count : Nat) : (m / 2 ^ count).log2 = m.log2 - count := by
  rw [Nat.log2_eq_log_two, Nat.log2_eq_log_two, Nat.log_div_base_pow]

theorem log2_mono {m n : Nat} (h : m ≤ n) : m.log2 ≤ n.log2 := by
  rw [Nat.log2_eq_log_two, Nat.log2_eq_log_two]
  exact Nat.log_mono_right h

theorem log2_succ_le (n : Nat) : (n + 1).log2 ≤ n.log2 + 1 := by
  have hlt : n + 1 ≤ 2 ^ (n.log2 + 1) := Nat.lt_log2_self
  have hdouble : 2 ^ (n.log2 + 2) = 2 * 2 ^ (n.log2 + 1) := Nat.pow_succ'
  exact Nat.le_of_lt_succ ((Nat.log2_lt n.succ_ne_zero).2 (by omega))

/-- The second shift is by no bit, or by the one that a carry needs. -/
theorem shift_again {r : Nat} {t : Int} (hr : r ≤ 2 ^ 53) (ht : -1074 ≤ t) :
    (r / 2 ^ surplus r t, t + surplus r t) = carry r t := by
  unfold carry
  split
  · next h =>
    have hsurplus : surplus r t = 1 := by
      have hlog : r.log2 = 53 := h ▸ Nat.log2_two_pow
      unfold surplus target totalExponent
      omega
    rw [hsurplus, h]
    rfl
  · next h =>
    have hsurplus : surplus r t = 0 := by
      have hlog : r.log2 ≤ 52 := by
        by_cases hzero : r = 0
        · rw [hzero]
          decide
        · exact Nat.le_of_lt_succ ((Nat.log2_lt hzero).2 (by omega))
      unfold surplus target totalExponent
      omega
    rw [hsurplus, Nat.pow_zero, Nat.div_one, Int.natCast_zero, Int.add_zero]

theorem isCanonical_carry {r : Nat} {t : Int} (hr : r ≤ 2 ^ 53) (ht : -1074 ≤ t) (hne : r ≠ 0)
    (hfull : -1074 < t → 2 ^ 52 ≤ r) : IsCanonical (carry r t).1 (carry r t).2 := by
  unfold carry
  split
  · exact ⟨Nat.two_pow_pos 52, Nat.pow_lt_pow_right (by decide) (by decide), Int.le_add_one ht,
      Or.inl (Nat.le_refl _)⟩
  · next hcarry =>
    refine ⟨Nat.pos_of_ne_zero hne, Nat.lt_of_le_of_ne hr hcarry, ht, ?_⟩
    rcases Int.lt_or_eq_of_le ht with hlt | heq
    · exact Or.inl (hfull hlt)
    · exact Or.inr heq.symm

/-- A carry does not change the order. -/
theorem totalExponent_carry (r : Nat) (t : Int) :
    totalExponent (carry r t).1 (carry r t).2 = totalExponent r t := by
  unfold carry
  split
  · next hcarry =>
    have hlog : (2 ^ 52).log2 = 52 := Nat.log2_two_pow
    have hlog' : (2 ^ 53).log2 = 53 := Nat.log2_two_pow
    rw [hcarry]
    unfold totalExponent
    dsimp only
    omega
  · rfl

section

variable {m : Nat} {e : Int} (he : e ≤ target (totalExponent m e))
include he

theorem add_surplus : e + surplus m e = target (totalExponent m e) := by
  unfold surplus
  omega

theorem quotient_lt : m / 2 ^ surplus m e < 2 ^ 53 := by
  have hadd := add_surplus he
  have hlog : m.log2 + 1 ≤ 53 + surplus m e := by
    unfold target totalExponent at hadd
    omega
  rw [Nat.div_lt_iff_lt_mul (Nat.two_pow_pos _), ← Nat.pow_add]
  exact Nat.lt_of_lt_of_le Nat.lt_log2_self (Nat.pow_le_pow_right (by decide) hlog)

theorem roundedMantissa_le (acc : Accuracy) : (shifted m e acc).roundedMantissa ≤ 2 ^ 53 := by
  have hlt := quotient_lt he
  have hcases := roundedMantissa_cases (shifted m e acc)
  rw [mantissa_shifted] at hcases
  omega

theorem roundWithAccuracy_eq (s : Sign) (acc : Accuracy) :
    roundWithAccuracy .binary64 s m e acc = ofParts s (rounded m e acc).1 (rounded m e acc).2 := by
  have hleast : -1074 ≤ target (totalExponent m e) := Int.le_max_right _ _
  have hagain := shift_again (roundedMantissa_le he acc) hleast
  have hstages : ∀ r, r = (shifted m e acc).roundedMantissa → ∀ t, t = e + surplus m e →
      roundWithAccuracy .binary64 s m e acc =
        ofParts s (r / 2 ^ surplus r t) (t + surplus r t) := by
    rintro r rfl t rfl
    rw [← mantissa_shifted _ _ .exact]
    rfl
  rw [hstages _ rfl _ (add_surplus he).symm, rounded, ← hagain]

/-! ### What comes out -/

theorem two_pow_le_quotient (hfull : -1074 < target (totalExponent m e)) :
    2 ^ 52 ≤ m / 2 ^ surplus m e := by
  have hadd := add_surplus he
  have hlog : (m / 2 ^ surplus m e).log2 = 52 := by
    rw [log2_div_two_pow]
    unfold target totalExponent at hadd hfull
    omega
  have hne : m / 2 ^ surplus m e ≠ 0 := by
    intro hzero
    rw [hzero] at hlog
    exact absurd hlog (by decide)
  rw [← hlog]
  exact Nat.log2_self_le hne

theorem isCanonical_rounded {acc : Accuracy} (hne : (shifted m e acc).roundedMantissa ≠ 0) :
    IsCanonical (rounded m e acc).1 (rounded m e acc).2 := by
  refine isCanonical_carry (roundedMantissa_le he acc) (Int.le_max_right _ _) hne fun hfull => ?_
  have hquotient := two_pow_le_quotient he hfull
  have hcases := roundedMantissa_cases (shifted m e acc)
  rw [mantissa_shifted] at hcases
  omega

/-- A number that is not smaller than all floats is not rounded to zero, and its order becomes the
next at most. -/
theorem order_rounded (hm : m ≠ 0) (hlow : -1073 ≤ totalExponent m e) (acc : Accuracy) :
    (shifted m e acc).roundedMantissa ≠ 0 ∧
      totalExponent m e ≤ totalExponent (rounded m e acc).1 (rounded m e acc).2 ∧
      totalExponent (rounded m e acc).1 (rounded m e acc).2 ≤ totalExponent m e + 1 := by
  have hadd := add_surplus he
  have hsurplus : surplus m e ≤ m.log2 := by
    unfold target totalExponent at *
    omega
  have hlog := log2_div_two_pow m (surplus m e)
  have hpos : 0 < m / 2 ^ surplus m e :=
    Nat.div_pos (Nat.le_trans (Nat.pow_le_pow_right (by decide) hsurplus) (Nat.log2_self_le hm))
      (Nat.two_pow_pos _)
  have hcases := roundedMantissa_cases (shifted m e acc)
  rw [mantissa_shifted] at hcases
  have hne : (shifted m e acc).roundedMantissa ≠ 0 := by omega
  have horder : (m / 2 ^ surplus m e).log2 ≤ (shifted m e acc).roundedMantissa.log2 ∧
      (shifted m e acc).roundedMantissa.log2 ≤ (m / 2 ^ surplus m e).log2 + 1 := by
    have hsucc := log2_succ_le (m / 2 ^ surplus m e)
    exact ⟨log2_mono (by omega), Nat.le_trans (log2_mono (by omega)) hsucc⟩
  rw [rounded, totalExponent_carry]
  refine ⟨hne, ?_⟩
  unfold totalExponent at *
  omega

end

theorem mul_twoTo (n k j : Nat) : n * twoTo k * 2 ^ j = n * 2 ^ (k + j) := by
  rw [Nat.pow_add, Nat.mul_assoc]
  rfl

/-- The number `m / 2 ^ j` is less than the bound of all floats. -/
def IsBelowOverflow (m j : Nat) : Prop := m < Numeral.overflowBound * 2 ^ j

theorem isBelowOverflow_iff {m j : Nat} :
    IsBelowOverflow m j ↔ m < (2 ^ 54 - 1) * 2 ^ (970 + j) := by
  have hbound : Numeral.overflowBound * 2 ^ j = (2 ^ 54 - 1) * 2 ^ (970 + j) := mul_twoTo _ _ _
  rw [IsBelowOverflow, hbound]

theorem isBelowOverflow_mul {n : Nat} (hn : n < Numeral.overflowBound) (j : Nat) :
    IsBelowOverflow (n * 2 ^ j) j :=
  Nat.mul_lt_mul_of_pos_right hn (Nat.two_pow_pos j)

theorem isBelowOverflow_div {n d : Nat} (hd : 0 < d) (hn : n < Numeral.overflowBound * d)
    (j : Nat) : IsBelowOverflow (n * 2 ^ j / d) j := by
  rw [IsBelowOverflow, Nat.div_lt_iff_lt_mul hd, Nat.mul_right_comm]
  exact Nat.mul_lt_mul_of_pos_right hn (Nat.two_pow_pos j)

theorem IsBelowOverflow.order_le {m j : Nat} (hm : IsBelowOverflow m j) :
    totalExponent m (-j) ≤ 1024 := by
  rw [isBelowOverflow_iff] at hm
  unfold totalExponent
  by_cases hzero : m = 0
  · have hlog : Nat.log2 0 = 0 := rfl
    rw [hzero, hlog]
    omega
  · have hpow : 2 ^ (1024 + j) = 2 ^ 54 * 2 ^ (970 + j) := by
      rw [← Nat.pow_add]
      congr 1
      omega
    have hlog : m.log2 < 1024 + j := (Nat.log2_lt hzero).2 (by omega)
    omega

/-- After a carry all bits that fit were set, and so was the first that does not. -/
theorem ones_le_of_carry {m : Nat} {e : Int} (he : e ≤ target (totalExponent m e)) {acc : Accuracy}
    (hcarry : (shifted m e acc).roundedMantissa = 2 ^ 53) {count : Nat}
    (hcount : surplus m e = count + 1) : (2 ^ 54 - 1) * 2 ^ count ≤ m := by
  have hhalves : m / 2 ^ surplus m e = m / 2 ^ count / 2 := by
    rw [hcount, Nat.pow_succ, Nat.div_div_eq_div_mul]
  have hlt := quotient_lt he
  have hcases := roundedMantissa_cases (shifted m e acc)
  rw [mantissa_shifted, hcarry] at hcases
  rw [hhalves] at hlt hcases
  rw [shifted, hcount, roundBit_shiftRight, mantissa_ofMantissaAndAccuracy, bne_iff_ne] at hcases
  obtain ⟨hquotient, hbit⟩ := hcases.resolve_left (by omega)
  exact Nat.mul_le_of_le_div _ _ _ (by omega)

/-- The bound of all floats lies halfway between the greatest one and the next power of two: what is
less is not rounded up to that power. -/
theorem exponent_rounded_le {m j : Nat} (he : -(j : Int) ≤ target (totalExponent m (-j)))
    (hm : IsBelowOverflow m j) (acc : Accuracy) : (rounded m (-j) acc).2 ≤ 971 := by
  have horder := hm.order_le
  have hadd := add_surplus he
  have htarget : target (totalExponent m (-j)) ≤ 971 := by
    unfold target
    omega
  unfold rounded carry
  split
  · next hcarry =>
    show target (totalExponent m (-j)) + 1 ≤ 971
    by_contra hgreat
    have hones := ones_le_of_carry he hcarry (by omega : surplus m (-j) = 970 + j + 1)
    exact absurd (isBelowOverflow_iff.1 hm) (Nat.not_lt.2 hones)
  · exact htarget

end Binary64
end StrongMotion
