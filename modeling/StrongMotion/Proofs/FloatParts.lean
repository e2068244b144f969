import StrongMotion.Proofs.Rounding

/-!
# The parts of a float

The sixty-four bits of a float hold its sign, its exponent and its significand without the leading
one.  What is canonical goes into the bits and comes back, unless its exponent is too great: then
the float is an infinity (`Binary64.unpack_pack`, `Binary64.unpack_pack_of_great`).  The number that
is read off the bits as they stand is the one that the parts make up (`Binary64.ofFloat?_eq`).
-/

namespace StrongMotion
namespace Binary64

open Float.Model Float.Model.UnpackedFloat

theorem unpack_model_pack (u : UnpackedFloat) :
    (Float.Model.pack u).unpack =
      UnpackedFloat.unpack .binary64 (UnpackedFloat.pack .binary64 u) := rfl

/-! ## The fields -/

theorem toNat_implicit (m : BitVec 52) : (1#1 ++ m).toNat = 2 ^ 52 + m.toNat := by
  rw [BitVec.toNat_append, ← Nat.shiftLeft_add_eq_or_of_lt m.isLt, Nat.shiftLeft_eq]
  rfl

/-- A field of this size holds the number. -/
theorem toNat_ofNat_of_lt {width n : Nat} (hn : n < 2 ^ width) :
    (BitVec.ofNat width n).toNat = n := by
  rw [BitVec.toNat_ofNat, Nat.mod_eq_of_lt hn]

theorem ofNat_ne {width n k : Nat} (hn : n < 2 ^ width) (hk : k < 2 ^ width) (hne : n ≠ k) :
    BitVec.ofNat width n ≠ BitVec.ofNat width k := by
  intro h
  have htoNat := congrArg BitVec.toNat h
  rw [toNat_ofNat_of_lt hn, toNat_ofNat_of_lt hk] at htoNat
  exact hne htoNat

section Unpack

variable (s : Sign) {f m : Nat}

theorem unpack_normal (hf : 0 < f) (hf' : f < 2047) (hm : m < 2 ^ 52) :
    UnpackedFloat.unpack .binary64
        (packComponents .binary64 s (BitVec.ofNat 11 f) (BitVec.ofNat 52 m)) =
      .finite s (2 ^ 52 + m) (f - 1075) (by omega) := by
  have hones : BitVec.ofNat 11 f ≠ -1#11 := by
    show BitVec.ofNat 11 f ≠ BitVec.ofNat 11 2047
    exact ofNat_ne (by omega) (by decide) (by omega)
  have hzero : BitVec.ofNat 11 f ≠ 0#11 := ofNat_ne (by omega) (by decide) (by omega)
  have hfield : (BitVec.ofNat 11 f).toNat = f := toNat_ofNat_of_lt (by omega)
  rw [UnpackedFloat.unpack]
  simp only [unpackMantissa_packComponents, unpackExponent_packComponents,
    unpackSign_packComponents, Sign.ofBitVec_toBitVec]
  rw [if_neg hones, if_neg hzero]
  simp only [hfield, toNat_implicit, toNat_ofNat_of_lt hm]
  rfl

theorem unpack_subnormal (hm : 0 < m) (hm' : m < 2 ^ 52) :
    UnpackedFloat.unpack .binary64 (packComponents .binary64 s 0#11 (BitVec.ofNat 52 m)) =
      .finite s m (-1074) hm := by
  have hne : BitVec.ofNat 52 m ≠ 0#52 := ofNat_ne hm' (by decide) (by omega)
  rw [UnpackedFloat.unpack]
  simp only [unpackMantissa_packComponents, unpackExponent_packComponents,
    unpackSign_packComponents, Sign.ofBitVec_toBitVec]
  rw [if_neg (by decide), if_pos trivial, dif_neg hne]
  simp only [toNat_ofNat_of_lt hm']
  rfl

end Unpack

/-! ## There and back -/

section Pack

variable {s : Sign} {m : Nat} {e : Int}

/-- The implicit bit is cut off the significand. -/
theorem ofNat_sub_implicit (hlow : 2 ^ 52 ≤ m) (hhigh : m < 2 ^ 53) :
    BitVec.ofNat 52 m = BitVec.ofNat 52 (m - 2 ^ 52) := by
  apply BitVec.eq_of_toNat_eq
  rw [BitVec.toNat_ofNat, BitVec.toNat_ofNat]
  omega

theorem pack_finite (hm : 0 < m) :
    UnpackedFloat.pack .binary64 (.finite s m e hm) =
      if 971 < e then packedInfinity .binary64 s
      else if m.log2 = 52 then
        packComponents .binary64 s (BitVec.ofNat 11 (e + 1075).toNat) (BitVec.ofNat 52 m)
      else packComponents .binary64 s 0#11 (BitVec.ofNat 52 m) := by
  have hbias : Format.binary64.exponentBias = 1023 := rfl
  have hbits : Format.binary64.mantissaBits = 53 := rfl
  have hfield : e + ((1023 : Nat) : Int) + ((52 : Nat) : Int) = e + 1075 := by omega
  have hgreat : 2 ^ 11 ≤ (e + 1075).toNat + 1 ↔ 971 < e := by omega
  rw [UnpackedFloat.pack]
  simp only [hbias, hbits, hfield, hgreat, Nat.reduceEqDiff]

theorem unpack_pack (h : IsCanonical m e) (he : e ≤ 971) :
    (Float.Model.pack (.finite s m e h.pos)).unpack = .finite s m e h.pos := by
  obtain ⟨hpos, hlt, hleast, hfull⟩ := h
  rw [unpack_model_pack, pack_finite, if_neg (by omega)]
  by_cases hnormal : 2 ^ 52 ≤ m
  · have hlog : m.log2 = 52 := (Nat.log2_eq_iff (Nat.ne_of_gt hpos)).2 ⟨hnormal, hlt⟩
    rw [if_pos hlog, ofNat_sub_implicit hnormal hlt,
      unpack_normal s (by omega) (by omega) (by omega), UnpackedFloat.finite.injEq]
    exact ⟨rfl, by omega, by omega⟩
  · have hlog : m.log2 < 52 := (Nat.log2_lt (Nat.ne_of_gt hpos)).2 (by omega)
    obtain rfl : e = -1074 := hfull.resolve_left hnormal
    rw [if_neg (by omega)]
    exact unpack_subnormal s hpos (by omega)

theorem unpack_pack_zero : (Float.Model.pack (.zero s)).unpack = .zero s := by
  cases s <;> rfl

theorem unpack_pack_infinity : (Float.Model.pack (.infinity s)).unpack = .infinity s := by
  cases s <;> rfl

theorem unpack_pack_of_great (he : 971 < e) (hm : 0 < m) :
    (Float.Model.pack (.finite s m e hm)).unpack = .infinity s := by
  rw [unpack_model_pack, pack_finite, if_pos he]
  exact unpack_pack_infinity

end Pack

/-- The bits of a float hold no other parts. -/
theorem isCanonical_of_unpack {x : Float.Model} {s : Sign} {m : Nat} {e : Int} {hm : 0 < m}
    (h : x.unpack = .finite s m e hm) : IsCanonical m e ∧ e ≤ 971 := by
  unfold Float.Model.unpack UnpackedFloat.unpack at h
  dsimp only at h
  have hbias : (Format.binary64.exponentBias : Int) = 1023 := rfl
  have hbits : (Format.binary64.mantissaBitsWithoutImplicit : Int) = 52 := rfl
  have hfraction : (@unpackMantissa .binary64 x.toBits.toBitVec).toNat < 2 ^ 52 :=
    BitVec.isLt _
  have hfield : (@unpackExponent .binary64 x.toBits.toBitVec).toNat < 2 ^ 11 :=
    BitVec.isLt _
  rw [hbias, hbits] at h
  split at h
  · split at h <;> cases h
  split at h
  · next hzero =>
    split at h
    · cases h
    rw [hzero, UnpackedFloat.finite.injEq] at h
    obtain ⟨-, rfl, rfl⟩ := h
    exact ⟨⟨hm, Nat.lt_trans hfraction (by decide), by decide, Or.inr rfl⟩, by decide⟩
  · next hones hzero =>
    rw [UnpackedFloat.finite.injEq, toNat_implicit] at h
    obtain ⟨-, rfl, rfl⟩ := h
    have hlow : 0 < (@unpackExponent .binary64 x.toBits.toBitVec).toNat :=
      Nat.pos_of_ne_zero fun h => hzero (BitVec.eq_of_toNat_eq h)
    have hhigh : (@unpackExponent .binary64 x.toBits.toBitVec).toNat ≠ 2047 :=
      fun h => hones (BitVec.eq_of_toNat_eq h)
    exact ⟨⟨hm, by omega, by omega, Or.inl (Nat.le_add_right _ _)⟩, by omega⟩

/-! ## The number of a float -/

section Fields

variable (x : Float)

theorem toNat_unpackMantissa :
    (@unpackMantissa .binary64 x.toModel.toBits.toBitVec).toNat = x.toBits.toNat % twoTo 52 := by
  unfold unpackMantissa
  rw [BitVec.toNat_cast, BitVec.extractLsb_toNat, Nat.shiftRight_zero]
  rfl

theorem toNat_unpackExponent :
    (@unpackExponent .binary64 x.toModel.toBits.toBitVec).toNat =
      x.toBits.toNat / twoTo 52 % twoTo 11 := by
  unfold unpackExponent
  rw [BitVec.toNat_cast, BitVec.extractLsb_toNat, Nat.shiftRight_eq_div_pow]
  rfl

theorem unpackSign_eq_iff :
    @unpackSign .binary64 x.toModel.toBits.toBitVec = 0#1 ↔ x.toBits.toNat < twoTo 63 := by
  have hsign : (@unpackSign .binary64 x.toModel.toBits.toBitVec).toNat =
      x.toBits.toNat / 2 ^ 63 % 2 := by
    unfold unpackSign
    rw [BitVec.toNat_cast, BitVec.extractLsb_toNat, Nat.shiftRight_eq_div_pow]
    rfl
  have hlt : x.toBits.toNat < 2 ^ 64 := UInt64.toNat_lt _
  rw [← BitVec.toNat_inj, hsign]
  show x.toBits.toNat / 2 ^ 63 % 2 = 0 ↔ x.toBits.toNat < 2 ^ 63
  omega

end Fields

/-- The parts that make up a number. -/
def dyadic? : UnpackedFloat → Option Dyadic
  | .finite s m e _ => some ⟨s == .negative, m, e⟩
  | .zero s => some ⟨s == .negative, 0, -1074⟩
  | .infinity _ | .notANumber => none

theorem signOfBit_eq (x : Float) :
    (Sign.ofBitVec (@unpackSign .binary64 x.toModel.toBits.toBitVec) == .negative) =
      decide (twoTo 63 ≤ x.toBits.toNat) := by
  have hbit := unpackSign_eq_iff x
  rw [Bool.eq_iff_iff, decide_eq_true_eq, ← Nat.not_lt, ← hbit, Sign.ofBitVec]
  split
  · next hzero => simp [hzero]
  · next hone => simp [hone]

theorem ofFloat?_eq (x : Float) : Dyadic.ofFloat? x = dyadic? x.toModel.unpack := by
  have hones : x.toBits.toNat / twoTo 52 % twoTo 11 = 2047 ↔
      @unpackExponent .binary64 x.toModel.toBits.toBitVec = -1#11 := by
    rw [← toNat_unpackExponent, ← BitVec.toNat_inj]
    rfl
  have hzero : x.toBits.toNat / twoTo 52 % twoTo 11 = 0 ↔
      @unpackExponent .binary64 x.toModel.toBits.toBitVec = 0#11 := by
    rw [← toNat_unpackExponent, ← BitVec.toNat_inj]
    rfl
  unfold Dyadic.ofFloat? Float.Model.unpack UnpackedFloat.unpack
  dsimp only
  rw [← signOfBit_eq, ← toNat_unpackMantissa]
  split
  · next h =>
    rw [if_pos (hones.1 h)]
    split <;> rfl
  · next h =>
    rw [if_neg (mt hones.2 h)]
    split
    · next hfield =>
      rw [if_pos (hzero.1 hfield)]
      split
      · next hfraction =>
        rw [hfraction]
        rfl
      · rw [dyadic?, hzero.1 hfield]
        rfl
    · next hfield =>
      rw [if_neg (mt hzero.2 hfield), dyadic?, toNat_implicit, toNat_unpackExponent]
      rfl

end Binary64
end StrongMotion
