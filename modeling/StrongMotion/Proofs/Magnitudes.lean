import StrongMotion.Proofs.FloatParts

/-!
# The magnitudes of floats

The order of a number is the number of bits before its binary point.  A product has the sum of the
orders of its factors, or one less, and a quotient their difference, or one more; rounding may add
one.  Orders therefore tell where a product or a quotient is neither zero nor an infinity, and so
keeps its sign (`Binary64.HasOrder.mul`, `Binary64.HasOrder.div`).
-/

namespace StrongMotion
namespace Binary64

open Float.Model Float.Model.UnpackedFloat

/-- The float is a number other than zero, of this sign and of an order between the two. -/
def HasOrder (x : Float) (s : Sign) (low high : Int) : Prop :=
  ∃ (m : Nat) (e : Int) (hm : 0 < m), x.toModel.unpack = .finite s m e hm ∧
    low ≤ totalExponent m e ∧ totalExponent m e ≤ high

/-- The float is a number other than zero or an infinity, of this sign. -/
def HasSign (x : Float) (s : Sign) : Prop :=
  x.toModel.unpack = .infinity s ∨ ∃ low high, HasOrder x s low high

instance (x : Float) (s : Sign) (low high : Int) : Decidable (HasOrder x s low high) :=
  match hx : x.toModel.unpack with
  | .finite t m e hm =>
    if h : (t == s) = true ∧ low ≤ totalExponent m e ∧ totalExponent m e ≤ high then
      .isTrue ⟨m, e, hm, eq_of_beq h.1 ▸ hx, h.2⟩
    else
      .isFalse fun ⟨m', e', hm', hunpack, horder⟩ => by
        rw [hx, UnpackedFloat.finite.injEq] at hunpack
        obtain ⟨rfl, rfl, rfl⟩ := hunpack
        exact h ⟨beq_self_eq_true t, horder⟩
  | .infinity _ | .notANumber | .zero _ =>
    .isFalse fun ⟨_, _, _, hunpack, _⟩ => by rw [hx] at hunpack; cases hunpack

theorem HasOrder.mono {x : Float} {s : Sign} {low high low' high' : Int}
    (hx : HasOrder x s low high) (hlow : low' ≤ low) (hhigh : high ≤ high') :
    HasOrder x s low' high' := by
  obtain ⟨m, e, hm, hunpack, horder⟩ := hx
  exact ⟨m, e, hm, hunpack, by omega⟩

theorem isFinite_of_zero_or_hasOrder {x : Float} {s t : Sign} {low high : Int}
    (hx : x.toModel.unpack = .zero t ∨ HasOrder x s low high) : x.isFinite = true := by
  show x.toModel.unpack.isFinite = true
  rcases hx with hzero | ⟨m, e, hm, hunpack, -⟩
  · rw [hzero]
    rfl
  · rw [hunpack]
    rfl

theorem HasOrder.isFinite {x : Float} {s : Sign} {low high : Int} (hx : HasOrder x s low high) :
    x.isFinite = true :=
  isFinite_of_zero_or_hasOrder (t := s) (Or.inr hx)

theorem HasOrder.neg {x : Float} {s : Sign} {low high : Int} (hx : HasOrder x s low high) :
    HasOrder (-x) (-s) low high := by
  obtain ⟨m, e, hm, hunpack, horder⟩ := hx
  obtain ⟨hcanonical, he⟩ := isCanonical_of_unpack hunpack
  refine ⟨m, e, hm, ?_, horder⟩
  show (Float.Model.pack x.toModel.unpack.neg).unpack = _
  rw [hunpack]
  exact unpack_pack hcanonical he

theorem IsCanonical.order_bounds {m : Nat} {e : Int} (h : IsCanonical m e) :
    -1073 ≤ totalExponent m e ∧ (e ≤ 971 ↔ totalExponent m e ≤ 1024) := by
  obtain ⟨hpos, hlt, hleast, hfull⟩ := h
  have hlog := (Nat.log2_lt (Nat.ne_of_gt hpos)).2 hlt
  have hlog' : 2 ^ 52 ≤ m → 52 ≤ m.log2 := (Nat.le_log2 (Nat.ne_of_gt hpos)).2
  unfold totalExponent
  refine ⟨by omega, fun he => by omega, fun horder => ?_⟩
  rcases hfull with hfull | hfull
  · have hbits := hlog' hfull
    omega
  · omega

/-- All floats have orders between -1073 and 1024. -/
theorem HasOrder.within {x : Float} {s : Sign} {low high : Int} (hx : HasOrder x s low high) :
    HasOrder x s (max low (-1073)) (min high 1024) := by
  obtain ⟨m, e, hm, hunpack, horder⟩ := hx
  obtain ⟨hcanonical, he⟩ := isCanonical_of_unpack hunpack
  obtain ⟨hlow, hhigh⟩ := hcanonical.order_bounds
  have hhigh := hhigh.1 he
  exact ⟨m, e, hm, hunpack, by omega⟩

/-! ## Rounded results -/

/-- The float that a significand and an exponent are rounded to. -/
def nearest (s : Sign) (m : Nat) (e : Int) (acc : Accuracy) : Float :=
  ⟨Float.Model.pack (roundWithAccuracy .binary64 s m e acc)⟩

section Nearest

variable (s : Sign) {m : Nat} {e : Int} (he : e ≤ target (totalExponent m e)) {acc : Accuracy}
include he

theorem unpack_nearest (hne : (shifted m e acc).roundedMantissa ≠ 0) :
    (nearest s m e acc).toModel.unpack =
      if (rounded m e acc).2 ≤ 971 then
        .finite s (rounded m e acc).1 (rounded m e acc).2 (isCanonical_rounded he hne).pos
      else .infinity s := by
  have hcanonical := isCanonical_rounded he hne
  unfold nearest
  rw [roundWithAccuracy_eq he, ofParts, dif_neg (Nat.ne_of_gt hcanonical.pos)]
  split
  · next hle => exact unpack_pack hcanonical hle
  · next hgreat => exact unpack_pack_of_great (Int.not_le.1 hgreat) hcanonical.pos

theorem unpack_nearest_of_eq_zero (hzero : (shifted m e acc).roundedMantissa = 0) :
    (nearest s m e acc).toModel.unpack = .zero s := by
  unfold nearest
  rw [roundWithAccuracy_eq he, rounded, hzero]
  exact unpack_pack_zero

/-- What is less than the bound of all floats is rounded to zero or to a number. -/
theorem zero_or_hasOrder_nearest (hle : (rounded m e acc).2 ≤ 971) :
    (nearest s m e acc).toModel.unpack = .zero s ∨ HasOrder (nearest s m e acc) s (-1073) 1024 := by
  by_cases hzero : (shifted m e acc).roundedMantissa = 0
  · exact Or.inl (unpack_nearest_of_eq_zero s he hzero)
  · have hunpack := unpack_nearest s he hzero
    rw [if_pos hle] at hunpack
    have horder : HasOrder (nearest s m e acc) s _ _ :=
      ⟨_, _, _, hunpack, Int.le_refl _, Int.le_refl _⟩
    exact Or.inr (horder.within.mono (Int.le_max_right _ _) (Int.min_le_right _ _))

variable (hm : m ≠ 0) (hlow : -1073 ≤ totalExponent m e)
include hm hlow

theorem hasSign_nearest : HasSign (nearest s m e acc) s := by
  have hunpack := unpack_nearest s he (order_rounded he hm hlow acc).1
  split at hunpack
  · exact Or.inr ⟨_, _, _, _, _, hunpack, Int.le_refl _, Int.le_refl _⟩
  · exact Or.inl hunpack

theorem hasOrder_nearest (hle : (rounded m e acc).2 ≤ 971) :
    HasOrder (nearest s m e acc) s (totalExponent m e) (totalExponent m e + 1) := by
  obtain ⟨hne, horder⟩ := order_rounded he hm hlow acc
  have hunpack := unpack_nearest s he hne
  rw [if_pos hle] at hunpack
  exact ⟨_, _, _, hunpack, horder⟩

theorem hasOrder_nearest_of_order (hhigh : totalExponent m e ≤ 1023) :
    HasOrder (nearest s m e acc) s (totalExponent m e) (totalExponent m e + 1) := by
  obtain ⟨hne, -, horder⟩ := order_rounded he hm hlow acc
  have hle := (isCanonical_rounded he hne).order_bounds.2.2 (by omega)
  exact hasOrder_nearest s he hm hlow hle

end Nearest

/-! ## Products -/

theorem log2_mul_bounds {m n : Nat} (hm : m ≠ 0) (hn : n ≠ 0) :
    m.log2 + n.log2 ≤ (m * n).log2 ∧ (m * n).log2 ≤ m.log2 + n.log2 + 1 := by
  have hmn : m * n ≠ 0 := Nat.mul_ne_zero hm hn
  constructor
  · rw [Nat.le_log2 hmn, Nat.pow_add]
    exact Nat.mul_le_mul (Nat.log2_self_le hm) (Nat.log2_self_le hn)
  · have hlt : m * n < 2 ^ (m.log2 + 1) * 2 ^ (n.log2 + 1) :=
      Nat.mul_lt_mul'' Nat.lt_log2_self Nat.lt_log2_self
    rw [← Nat.pow_add] at hlt
    have hlog := (Nat.log2_lt hmn).2 hlt
    omega

/-- The product of significands has bits enough. -/
theorem IsCanonical.add_le_target {m n : Nat} {e f : Int} (hm : IsCanonical m e)
    (hn : IsCanonical n f) : e + f ≤ target (totalExponent (m * n) (e + f)) := by
  have hlog := log2_mul_bounds (Nat.ne_of_gt hm.pos) (Nat.ne_of_gt hn.pos)
  have hfull : ∀ {k : Nat} {g : Int}, IsCanonical k g → 52 ≤ k.log2 ∨ g = -1074 := fun hk =>
    hk.full.imp_left (Nat.le_log2 (Nat.ne_of_gt hk.pos)).2
  have hm' := hfull hm
  have hn' := hfull hn
  unfold target totalExponent
  omega

theorem mul_eq_nearest {x y : Float} {s t : Sign} {m n : Nat} {e f : Int} {hm : 0 < m} {hn : 0 < n}
    (hx : x.toModel.unpack = .finite s m e hm) (hy : y.toModel.unpack = .finite t n f hn) :
    x * y = nearest (s * t) (m * n) (e + f) .exact := by
  show Float.ofModel (Float.Model.pack
    (UnpackedFloat.mul .binary64 x.toModel.unpack y.toModel.unpack)) = _
  rw [hx, hy]
  rfl

theorem HasOrder.mul {x y : Float} {s t : Sign} {low high low' high' : Int}
    (hx : HasOrder x s low high) (hy : HasOrder y t low' high') (hsmall : -1072 ≤ low + low')
    (hgreat : high + high' ≤ 1023) :
    HasOrder (x * y) (s * t) (low + low' - 1) (high + high' + 1) := by
  obtain ⟨m, e, hm, hunpack, horder⟩ := hx
  obtain ⟨n, f, hn, hunpack', horder'⟩ := hy
  have htarget := (isCanonical_of_unpack hunpack).1.add_le_target (isCanonical_of_unpack hunpack').1
  have hproduct : totalExponent m e + totalExponent n f - 1 ≤ totalExponent (m * n) (e + f) ∧
      totalExponent (m * n) (e + f) ≤ totalExponent m e + totalExponent n f := by
    have hlog := log2_mul_bounds (Nat.ne_of_gt hm) (Nat.ne_of_gt hn)
    unfold totalExponent
    omega
  rw [mul_eq_nearest hunpack hunpack']
  have hnearest : HasOrder (nearest (s * t) (m * n) (e + f) .exact) (s * t) _ _ :=
    hasOrder_nearest_of_order _ htarget (Nat.mul_ne_zero (by omega) (by omega)) (by omega)
      (by omega)
  exact hnearest.mono (by omega) (by omega)

/-! ## Quotients -/

theorem log2_shiftLeft {m : Nat} (hm : m ≠ 0) (count : Nat) :
    (m <<< count).log2 = m.log2 + count := by
  rw [Nat.shiftLeft_eq]
  refine (Nat.log2_eq_iff (Nat.mul_ne_zero hm (Nat.ne_of_gt (Nat.two_pow_pos _)))).2 ⟨?_, ?_⟩
  · rw [Nat.pow_add]
    exact Nat.mul_le_mul_right _ (Nat.log2_self_le hm)
  · rw [Nat.add_right_comm, Nat.pow_add]
    exact Nat.mul_lt_mul_of_pos_right Nat.lt_log2_self (Nat.two_pow_pos _)

theorem log2_div_bounds {m n : Nat} (hn : n ≠ 0) (h : n.log2 < m.log2) :
    m / n ≠ 0 ∧ m.log2 ≤ (m / n).log2 + n.log2 + 1 ∧ (m / n).log2 + n.log2 ≤ m.log2 := by
  have hm : m ≠ 0 := by
    rintro rfl
    exact absurd h (Nat.not_lt_zero _)
  have hlow : 2 ^ (m.log2 - (n.log2 + 1)) ≤ m / n := by
    rw [Nat.le_div_iff_mul_le (Nat.pos_of_ne_zero hn)]
    calc 2 ^ (m.log2 - (n.log2 + 1)) * n
        ≤ 2 ^ (m.log2 - (n.log2 + 1)) * 2 ^ (n.log2 + 1) :=
          Nat.mul_le_mul_left _ (Nat.le_of_lt Nat.lt_log2_self)
      _ = 2 ^ m.log2 := by rw [← Nat.pow_add, Nat.sub_add_cancel h]
      _ ≤ m := Nat.log2_self_le hm
  have hhigh : m / n < 2 ^ (m.log2 + 1 - n.log2) := by
    rw [Nat.div_lt_iff_lt_mul (Nat.pos_of_ne_zero hn)]
    calc m < 2 ^ (m.log2 + 1) := Nat.lt_log2_self
      _ = 2 ^ (m.log2 + 1 - n.log2) * 2 ^ n.log2 := by
          rw [← Nat.pow_add, Nat.sub_add_cancel (by omega)]
      _ ≤ 2 ^ (m.log2 + 1 - n.log2) * n := Nat.mul_le_mul_left _ (Nat.log2_self_le hn)
  have hne : m / n ≠ 0 := Nat.ne_of_gt (Nat.lt_of_lt_of_le (Nat.two_pow_pos _) hlow)
  have hlog := (Nat.le_log2 hne).2 hlow
  have hlog' := (Nat.log2_lt hne).2 hhigh
  exact ⟨hne, by omega, by omega⟩

/-- The exponent of a quotient before it is rounded, low enough for it to have all bits of a
float. -/
def quotientExponent (m : Nat) (e : Int) (n : Nat) (f : Int) : Int :=
  min (e - f) (target (totalExponent m e - totalExponent n f))

/-- The dividend at this exponent. -/
def dividend (m : Nat) (e : Int) (n : Nat) (f : Int) : Nat :=
  m <<< (e - f - quotientExponent m e n f).toNat

/-- The whole quotient at this exponent. -/
def quotient (m : Nat) (e : Int) (n : Nat) (f : Int) : Nat := dividend m e n f / n

/-- What the whole quotient leaves of the dividend. -/
def quotientAccuracy (m : Nat) (e : Int) (n : Nat) (f : Int) : Accuracy :=
  accuracyOfFraction (dividend m e n f % n) n

section Quotient

variable {m n : Nat} {e f : Int}

theorem order_quotient (hm : m ≠ 0) (hn : n ≠ 0)
    (hlow : -1073 ≤ totalExponent m e - totalExponent n f) :
    quotient m e n f ≠ 0 ∧
      totalExponent m e - totalExponent n f ≤
        totalExponent (quotient m e n f) (quotientExponent m e n f) ∧
      totalExponent (quotient m e n f) (quotientExponent m e n f) ≤
        totalExponent m e - totalExponent n f + 1 := by
  have hexponent : quotientExponent m e n f < totalExponent m e - totalExponent n f ∧
      quotientExponent m e n f ≤ e - f := by
    unfold quotientExponent target
    omega
  have hshift := log2_shiftLeft hm (e - f - quotientExponent m e n f).toNat
  unfold totalExponent at hlow hexponent
  have hlt : n.log2 < (m <<< (e - f - quotientExponent m e n f).toNat).log2 := by omega
  obtain ⟨hne, hlog⟩ := log2_div_bounds hn hlt
  refine ⟨hne, ?_⟩
  unfold quotient dividend totalExponent
  omega

theorem quotientExponent_le_target (hm : m ≠ 0) (hn : n ≠ 0) (e f : Int) :
    quotientExponent m e n f ≤
      target (totalExponent (quotient m e n f) (quotientExponent m e n f)) := by
  by_cases hlow : -1073 ≤ totalExponent m e - totalExponent n f
  · obtain ⟨-, horder, -⟩ := order_quotient hm hn hlow
    have hle : quotientExponent m e n f ≤ target (totalExponent m e - totalExponent n f) :=
      Int.min_le_right _ _
    unfold target at *
    omega
  · have hle : quotientExponent m e n f ≤ -1074 := by
      unfold quotientExponent target
      omega
    exact Int.le_trans hle (Int.le_max_right _ _)

end Quotient

theorem div_eq_nearest {x y : Float} {s t : Sign} {m n : Nat} {e f : Int} {hm : 0 < m} {hn : 0 < n}
    (hx : x.toModel.unpack = .finite s m e hm) (hy : y.toModel.unpack = .finite t n f hn) :
    x / y = nearest (s / t) (quotient m e n f) (quotientExponent m e n f)
      (quotientAccuracy m e n f) := by
  show Float.ofModel (Float.Model.pack
    (UnpackedFloat.div .binary64 x.toModel.unpack y.toModel.unpack)) = _
  rw [hx, hy]
  rfl

section Div

variable {x y : Float} {s t : Sign} {low high low' high' : Int} (hx : HasOrder x s low high)
  (hy : HasOrder y t low' high') (hsmall : -1073 ≤ low - high')
include hx hy hsmall

theorem HasOrder.exists_quotient :
    ∃ (q : Nat) (g : Int) (acc : Accuracy), x / y = nearest (s / t) q g acc ∧ q ≠ 0 ∧
      g ≤ target (totalExponent q g) ∧ low - high' ≤ totalExponent q g ∧
        totalExponent q g ≤ high - low' + 1 := by
  obtain ⟨m, e, hm, hunpack, horder⟩ := hx
  obtain ⟨n, f, hn, hunpack', horder'⟩ := hy
  have hm := Nat.ne_of_gt hm
  have hn := Nat.ne_of_gt hn
  obtain ⟨hne, hlow, hhigh⟩ :=
    order_quotient hm hn (by omega : -1073 ≤ totalExponent m e - totalExponent n f)
  exact ⟨_, _, _, div_eq_nearest hunpack hunpack', hne, quotientExponent_le_target hm hn e f,
    by omega, by omega⟩

/-- What is not too small for a float keeps its sign, though it may be too great. -/
theorem HasOrder.hasSign_div : HasSign (x / y) (s / t) := by
  obtain ⟨q, g, acc, hdiv, hne, htarget, hlow, -⟩ := hx.exists_quotient hy hsmall
  rw [hdiv]
  exact hasSign_nearest _ htarget hne (by omega)

theorem HasOrder.div (hgreat : high - low' ≤ 1022) :
    HasOrder (x / y) (s / t) (low - high') (high - low' + 2) := by
  obtain ⟨q, g, acc, hdiv, hne, htarget, hlow, hhigh⟩ := hx.exists_quotient hy hsmall
  have hnearest : HasOrder (nearest (s / t) q g acc) (s / t) _ _ :=
    hasOrder_nearest_of_order _ htarget hne (by omega) (by omega)
  rw [hdiv]
  exact hnearest.mono (by omega) (by omega)

end Div

end Binary64
end StrongMotion
