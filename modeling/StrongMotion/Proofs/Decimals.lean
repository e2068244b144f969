import Mathlib.Data.List.Induction
import StrongMotion.Number.Dyadic
import StrongMotion.Text.Basic

/-!
# Numbers in decimal

A run of digits denotes a number, and every number is written by such a run: what `Bytes.ofNat` and
`Bytes.padded` write is read back by `Bytes.natValue`.  So no two numbers are written alike,
whatever their signs and however far they are padded (`Bytes.padded_inj`).  Numbers that are filled
up to one width are in the order of their texts (`Bytes.padded_append_lt`).
-/

namespace StrongMotion

theorem Byte.digitValue_lt {b : UInt8} (hb : Byte.isDigit b = true) : Byte.digitValue b < 10 := by
  unfold isDigit at hb
  rw [Bool.and_eq_true, decide_eq_true_eq, decide_eq_true_eq] at hb
  have hle : b.toNat ≤ 57 := UInt8.le_iff_toNat_le.1 hb.2
  unfold digitValue
  omega

theorem Byte.toNat_eq_of_isDigit {b : UInt8} (hb : Byte.isDigit b = true) :
    b.toNat = Byte.digitValue b + 48 := by
  unfold isDigit at hb
  rw [Bool.and_eq_true, decide_eq_true_eq, decide_eq_true_eq] at hb
  have hle : 48 ≤ b.toNat := UInt8.le_iff_toNat_le.1 hb.1
  unfold digitValue
  omega

theorem Byte.lt_of_digitValue_lt {b c : UInt8} (hb : Byte.isDigit b = true)
    (h : Byte.digitValue b < Byte.digitValue c) : b < c := by
  have hbyte := toNat_eq_of_isDigit hb
  rw [UInt8.lt_iff_toNat_lt]
  unfold digitValue at hbyte h
  omega

theorem Byte.digitValue_inj {b c : UInt8} (hb : Byte.isDigit b = true) (hc : Byte.isDigit c = true)
    (h : Byte.digitValue b = Byte.digitValue c) : b = c := by
  rw [← UInt8.toNat_inj, toNat_eq_of_isDigit hb, toNat_eq_of_isDigit hc, h]

theorem tenTo_mono {m n : Nat} (h : m ≤ n) : tenTo m ≤ tenTo n := Nat.pow_le_pow_right (by decide) h

namespace Bytes

/-! ## Reading -/

theorem natValue_lt {s : Bytes} (hs : ∀ b ∈ s, Byte.isDigit b = true) :
    natValue s < tenTo s.length := by
  induction s using List.reverseRecOn with
  | nil => decide
  | append_singleton s b ih =>
    have hs' := ih fun c hc => hs c (List.mem_append_left _ hc)
    have hb := Byte.digitValue_lt (hs b (by simp))
    rw [natValue_append_singleton, List.length_append, List.length_singleton, tenTo_succ]
    omega

/-- Zeros in front do not count. -/
theorem natValue_zeros_append (count : Nat) (s : Bytes) :
    natValue (zeros count ++ s) = natValue s := by
  induction s using List.reverseRecOn with
  | nil =>
    induction count with
    | zero => rfl
    | succ count ih =>
      rw [List.append_nil] at ih ⊢
      rw [zeros, List.replicate_succ', natValue_append_singleton]
      show 10 * natValue (zeros count) + 0 = 0
      rw [ih]
      rfl
  | append_singleton s b ih =>
    rw [← List.append_assoc, natValue_append_singleton, ih, natValue_append_singleton]

/-- The text is the number `n` in decimal, in `least` to `most` digits. -/
structure IsNumber (s : Bytes) (least most : Nat) (n : Int) : Prop where
  isDigit_of_mem : ∀ b ∈ s, Byte.isDigit b = true
  least_le : least ≤ s.length
  le_most : s.length ≤ most
  eq_natValue : n = natValue s

-- `all` goes through the text; a quantifier could be decided over all bytes there are.
instance (s : Bytes) (least most : Nat) (n : Int) : Decidable (s.IsNumber least most n) :=
  decidable_of_iff
    (s.all Byte.isDigit = true ∧ least ≤ s.length ∧ s.length ≤ most ∧ n = natValue s)
    ⟨fun ⟨hs, hleast, hmost, hn⟩ => ⟨List.all_eq_true.1 hs, hleast, hmost, hn⟩,
      fun ⟨hs, hleast, hmost, hn⟩ => ⟨List.all_eq_true.2 hs, hleast, hmost, hn⟩⟩

namespace IsNumber

variable {s : Bytes} {least most : Nat} {n : Int}

theorem bounds (hs : s.IsNumber least most n) : 0 ≤ n ∧ n < tenTo most := by
  have hvalue := natValue_lt hs.isDigit_of_mem
  have hpower := tenTo_mono hs.le_most
  rw [hs.eq_natValue]
  exact ⟨Int.natCast_nonneg _, Int.ofNat_lt.2 (by omega)⟩

theorem isBlank_of_mem (hs : s.IsNumber least most n) : ∀ b ∈ s, Byte.isBlank b = false := by
  intro b hb
  have hdigit := hs.isDigit_of_mem b hb
  simp only [Byte.isDigit, Byte.isBlank, Bool.and_eq_true, decide_eq_true_eq, Bool.or_eq_false_iff,
    UInt8.le_iff_toNat_le, ← UInt8.toNat_inj, beq_eq_false_iff_ne, ne_eq, Bool.and_eq_false_iff,
    decide_eq_false_iff_not, UInt8.reduceToNat] at hdigit ⊢
  omega

end IsNumber

/-! ## Writing -/

theorem digitChar_isDigit_and_value {d : Nat} (hd : d < 10) :
    Byte.isDigit (Nat.digitChar d).toUInt8 = true ∧
      Byte.digitValue (Nat.digitChar d).toUInt8 = d := by
  revert d
  decide

/-- The last digit is what is left of a number that is divided by ten. -/
theorem ofNat_eq (n : Nat) :
    ofNat n = (if n < 10 then [] else ofNat (n / 10)) ++ [(Nat.digitChar (n % 10)).toUInt8] := by
  unfold ofNat
  rw [Nat.toDigits_eq_if (by decide)]
  split
  · next hn => rw [Nat.mod_eq_of_lt hn, List.nil_append, List.map_singleton]
  · rw [List.map_append, List.map_singleton]

theorem isDigit_of_mem_ofNat (n : Nat) : ∀ b ∈ ofNat n, Byte.isDigit b = true := by
  induction n using Nat.strongRecOn with
  | ind n ih =>
    intro b hb
    rw [ofNat_eq, List.mem_append, List.mem_singleton] at hb
    rcases hb with hb | rfl
    · split at hb
      · cases hb
      · exact ih (n / 10) (by omega) b hb
    · exact (digitChar_isDigit_and_value (Nat.mod_lt n (by decide))).1

theorem natValue_ofNat (n : Nat) : natValue (ofNat n) = n := by
  induction n using Nat.strongRecOn with
  | ind n ih =>
    have hlast := (digitChar_isDigit_and_value (Nat.mod_lt n (by decide : 10 > 0))).2
    rw [ofNat_eq, natValue_append_singleton, hlast]
    split
    · next hn =>
      show 10 * 0 + n % 10 = n
      omega
    · rw [ih (n / 10) (by omega)]
      omega

theorem length_ofNat_le {n width : Nat} (hwidth : 0 < width) (hn : n < tenTo width) :
    (ofNat n).length ≤ width := by
  rw [ofNat, List.length_map]
  exact (Nat.length_toDigits_le_iff (by decide) hwidth).2 hn

theorem natValue_zeroFill_ofNat (width n : Nat) : natValue (zeroFill width (ofNat n)) = n := by
  rw [zeroFill, natValue_zeros_append, natValue_ofNat]

theorem isDigit_of_mem_zeroFill_ofNat (width n : Nat) :
    ∀ b ∈ zeroFill width (ofNat n), Byte.isDigit b = true := by
  intro b hb
  rcases List.mem_append.1 hb with hb | hb
  · rw [List.eq_of_mem_replicate hb]
    rfl
  · exact isDigit_of_mem_ofNat n b hb

theorem padded_of_nonneg {width : Nat} {n : Int} (hn : 0 ≤ n) :
    padded width n = zeroFill width (ofNat n.natAbs) :=
  if_neg (Int.not_lt.2 hn)

theorem padded_of_neg {width : Nat} {n : Int} (hn : n < 0) :
    padded width n = '-'.toUInt8 :: zeroFill (width - 1) (ofNat n.natAbs) :=
  if_pos hn

/-- The number has no sign and no more digits than the width. -/
def Fits (width : Nat) (n : Int) : Prop := 0 < width ∧ 0 ≤ n ∧ n < tenTo width

/-- Filled up or not, a number has no more digits than it may have. -/
theorem isNumber_padded {width most : Nat} {n : Int} (hwidth : 0 < width) (hmost : width ≤ most)
    (hlow : 0 ≤ n) (hhigh : n < tenTo most) : (padded width n).IsNumber width most n := by
  have hlength : (ofNat n.natAbs).length ≤ most := length_ofNat_le (by omega) (by omega)
  rw [padded_of_nonneg hlow]
  refine ⟨isDigit_of_mem_zeroFill_ofNat _ _, ?_, ?_, ?_⟩
  · rw [length_zeroFill]
    omega
  · rw [length_zeroFill]
    omega
  · rw [natValue_zeroFill_ofNat]
    omega

/-- A number that fits its width is filled up to just that many digits. -/
theorem Fits.isNumber_padded {width : Nat} {n : Int} (hn : Fits width n) :
    (padded width n).IsNumber width width n :=
  Bytes.isNumber_padded hn.1 (Nat.le_refl width) hn.2.1 hn.2.2

theorem Fits.length_padded {width : Nat} {n : Int} (hn : Fits width n) :
    (padded width n).length = width :=
  Nat.le_antisymm hn.isNumber_padded.le_most hn.isNumber_padded.least_le

theorem length_padded_le {width most : Nat} {n : Int} (hmost : 0 < most) (hwidth : width ≤ most + 1)
    (hn : n.natAbs < tenTo most) : (padded width n).length ≤ most + 1 := by
  have hlength := length_ofNat_le hmost hn
  by_cases hneg : n < 0
  · rw [padded_of_neg hneg, List.length_cons, length_zeroFill]
    omega
  · rw [padded_of_nonneg (Int.not_lt.1 hneg), length_zeroFill]
    omega

theorem not_mem_padded {b : UInt8} (hdigit : Byte.isDigit b = false) (hsign : b ≠ '-'.toUInt8)
    (width : Nat) (n : Int) : b ∉ padded width n := by
  have hfilled : ∀ width, b ∉ zeroFill width (ofNat n.natAbs) := fun width hmem => by
    rw [isDigit_of_mem_zeroFill_ofNat width n.natAbs b hmem] at hdigit
    cases hdigit
  by_cases hneg : n < 0
  · rw [padded_of_neg hneg, List.mem_cons, not_or]
    exact ⟨hsign, hfilled _⟩
  · rw [padded_of_nonneg (Int.not_lt.1 hneg)]
    exact hfilled _

/-- A sign is told from a digit, so a negative number is written like no other. -/
theorem ne_padded_of_neg {width : Nat} {m n : Int} (hm : m < 0) (hn : 0 ≤ n) :
    padded width m ≠ padded width n := by
  intro h
  rw [padded_of_neg hm, padded_of_nonneg hn] at h
  have hsign := isDigit_of_mem_zeroFill_ofNat width n.natAbs '-'.toUInt8 (h ▸ List.mem_cons_self)
  cases hsign

theorem padded_inj {width : Nat} {m n : Int} : padded width m = padded width n ↔ m = n := by
  refine ⟨fun h => ?_, fun h => h ▸ rfl⟩
  by_cases hm : m < 0 <;> by_cases hn : n < 0
  · rw [padded_of_neg hm, padded_of_neg hn] at h
    have hvalue := congrArg natValue (List.cons.inj h).2
    rw [natValue_zeroFill_ofNat, natValue_zeroFill_ofNat] at hvalue
    omega
  · exact absurd h (ne_padded_of_neg hm (Int.not_lt.1 hn))
  · exact absurd h.symm (ne_padded_of_neg hn (Int.not_lt.1 hm))
  · rw [padded_of_nonneg (Int.not_lt.1 hm), padded_of_nonneg (Int.not_lt.1 hn)] at h
    have hvalue := congrArg natValue h
    rw [natValue_zeroFill_ofNat, natValue_zeroFill_ofNat] at hvalue
    omega

section Fits

variable {width : Nat} {m n : Int} (hm : Fits width m) (hn : Fits width n) {s s' : Bytes}
include hm hn

/-- A number that fits its width comes off the front of a text. -/
theorem padded_append_inj : padded width m ++ s = padded width n ++ s' ↔ m = n ∧ s = s' := by
  constructor
  · intro h
    obtain ⟨hnumber, hrest⟩ := List.append_inj h (hm.length_padded.trans hn.length_padded.symm)
    exact ⟨padded_inj.1 hnumber, hrest⟩
  · rintro ⟨rfl, rfl⟩
    rfl

/-- A number that fits its width comes off the end of a text. -/
theorem append_padded_inj : s ++ padded width m = s' ++ padded width n ↔ s = s' ∧ m = n := by
  constructor
  · intro h
    obtain ⟨hrest, hnumber⟩ := List.append_inj' h (hm.length_padded.trans hn.length_padded.symm)
    exact ⟨hrest, padded_inj.1 hnumber⟩
  · rintro ⟨rfl, rfl⟩
    rfl

end Fits

/-! ## Order -/

theorem natValue_cons (b : UInt8) (s : Bytes) :
    natValue (b :: s) = Byte.digitValue b * tenTo s.length + natValue s := by
  induction s using List.reverseRecOn with
  | nil =>
    show 10 * 0 + Byte.digitValue b = Byte.digitValue b * 1 + 0
    omega
  | append_singleton s c ih =>
    rw [← List.cons_append, natValue_append_singleton, ih, natValue_append_singleton,
      List.length_append, List.length_singleton, tenTo_succ, ← Nat.mul_assoc]
    omega

/-- Of two runs of digits that are equally long the one with the smaller number comes first. -/
theorem lt_of_natValue_lt {s s' : Bytes} (hs : ∀ b ∈ s, Byte.isDigit b = true)
    (hs' : ∀ b ∈ s', Byte.isDigit b = true) (hlength : s.length = s'.length)
    (h : natValue s < natValue s') : s < s' := by
  induction s generalizing s' with
  | nil =>
    rw [List.length_nil, eq_comm, List.length_eq_zero_iff] at hlength
    rw [hlength] at h
    exact absurd h (Nat.lt_irrefl _)
  | cons b s ih =>
    cases s' with
    | nil => cases hlength
    | cons b' s' =>
      obtain ⟨hb, hs⟩ := List.forall_mem_cons.1 hs
      obtain ⟨hb', hs'⟩ := List.forall_mem_cons.1 hs'
      have hlengths : s.length = s'.length := Nat.succ.inj hlength
      have hvalue := natValue_lt hs
      have hvalue' := natValue_lt hs'
      rw [natValue_cons, natValue_cons, hlengths] at h
      rw [hlengths] at hvalue
      rw [List.cons_lt_cons_iff]
      rcases Nat.lt_trichotomy (Byte.digitValue b) (Byte.digitValue b') with hlt | heq | hgt
      · exact Or.inl (Byte.lt_of_digitValue_lt hb hlt)
      · rw [heq] at h
        exact Or.inr ⟨Byte.digitValue_inj hb hb' heq, ih hs hs' hlengths (by omega)⟩
      · -- The rest is worth less than one of a digit before it.
        have hdigit := Nat.mul_le_mul_right (tenTo s'.length) hgt
        rw [Nat.succ_mul] at hdigit
        omega

theorem append_lt_append_of_lt {s s' rest rest' : Bytes} (hlength : s.length = s'.length)
    (h : s < s') : s ++ rest < s' ++ rest' := by
  induction s generalizing s' with
  | nil =>
    rw [List.length_nil, eq_comm, List.length_eq_zero_iff] at hlength
    rw [hlength] at h
    exact absurd h (List.not_lt_nil _)
  | cons b s ih =>
    cases s' with
    | nil => cases hlength
    | cons b' s' =>
      rw [List.cons_append, List.cons_append, List.cons_lt_cons_iff]
      exact (List.cons_lt_cons_iff.1 h).imp_right fun ⟨heq, hlt⟩ =>
        ⟨heq, ih (Nat.succ.inj hlength) hlt⟩

/-- Texts that begin with numbers of one width are in the order of the numbers, and those with the
same number in the order of what follows. -/
theorem padded_append_lt {width : Nat} {m n : Int} (hm : Fits width m) (hn : Fits width n)
    {s s' : Bytes} (h : m < n ∨ m = n ∧ s < s') : padded width m ++ s < padded width n ++ s' := by
  rcases h with hlt | ⟨rfl, hlt⟩
  · obtain ⟨hdigits, -, -, hvalue⟩ := hm.isNumber_padded
    obtain ⟨hdigits', -, -, hvalue'⟩ := hn.isNumber_padded
    have hlength := hm.length_padded.trans hn.length_padded.symm
    exact append_lt_append_of_lt hlength (lt_of_natValue_lt hdigits hdigits' hlength (by omega))
  · exact List.append_left_lt hlt

/-- The same when the numbers are ended by one mark. -/
theorem field_lt {width : Nat} {m n : Int} (hm : Fits width m) (hn : Fits width n) {b : UInt8}
    {s s' : Bytes} (h : m < n ∨ m = n ∧ s < s') :
    padded width m ++ b :: s < padded width n ++ b :: s' :=
  padded_append_lt hm hn
    (h.imp_right (And.imp_right fun hlt => List.cons_lt_cons_iff.2 (Or.inr ⟨rfl, hlt⟩)))

end Bytes
end StrongMotion
