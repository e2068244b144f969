import StrongMotion.Number.Numeral
import StrongMotion.Proofs.Words

/-!
# The bytes of numbers

A number is written with digits, signs, a point and the letter of an exponent
(`Bytes.isNumberByte_of_float?`).  Samples therefore hold no byte but these and blanks.
-/

namespace StrongMotion

/-- A byte that can stand in a number. -/
def Byte.IsNumberByte (b : UInt8) : Prop :=
  isDigit b = true ∨
    b ∈ ['+'.toUInt8, '-'.toUInt8, '.'.toUInt8, 'e'.toUInt8, 'E'.toUInt8]

/-- The bytes of numbers are visible ASCII characters. -/
theorem Byte.IsNumberByte.toNat_bounds {b : UInt8} (hb : IsNumberByte b) :
    0x20 < b.toNat ∧ b.toNat < 0x80 := by
  rcases hb with hdigit | hmem
  · unfold isDigit at hdigit
    rw [Bool.and_eq_true, decide_eq_true_eq, decide_eq_true_eq] at hdigit
    have hlow : 48 ≤ b.toNat := UInt8.le_iff_toNat_le.1 hdigit.1
    have hhigh : b.toNat ≤ 57 := UInt8.le_iff_toNat_le.1 hdigit.2
    omega
  · have hall : ∀ c ∈ ['+'.toUInt8, '-'.toUInt8, '.'.toUInt8, 'e'.toUInt8, 'E'.toUInt8],
        0x20 < c.toNat ∧ c.toNat < 0x80 := by decide +kernel
    exact hall b hmem

namespace Numeral

open Byte

theorem isNumberByte_of_mem_takeSign {s : Bytes}
    (hs : ∀ b ∈ (takeSign s).2, IsNumberByte b) : ∀ b ∈ s, IsNumberByte b := by
  cases s with
  | nil => simp
  | cons b s =>
    rw [takeSign] at hs
    split at hs
    · next hb => exact List.forall_mem_cons.2 ⟨Or.inr (by simp [hb]), hs⟩
    split at hs
    · next hb => exact List.forall_mem_cons.2 ⟨Or.inr (by simp [hb]), hs⟩
    · exact hs

theorem isNumberByte_of_digits {s : Bytes} (hs : ∀ b ∈ s.dropWhile isDigit, IsNumberByte b) :
    ∀ b ∈ s, IsNumberByte b := by
  rw [← Bytes.takeDigits_append_dropWhile s, List.forall_mem_append]
  exact ⟨fun b hb => Or.inl (Bytes.isDigit_of_mem_takeDigits s b hb), hs⟩

theorem isNumberByte_of_int? {s : Bytes} {n : Int} (h : int? s = some n) :
    ∀ b ∈ s, IsNumberByte b := by
  unfold int? at h
  dsimp only at h
  split at h
  · next hdigits =>
    exact isNumberByte_of_mem_takeSign fun b hb => Or.inl (List.all_eq_true.1 hdigits.2 b hb)
  · cases h

theorem isNumberByte_of_exponent? {s : Bytes} {n : Int} (h : exponent? s = some n) :
    ∀ b ∈ s, IsNumberByte b := by
  cases s with
  | nil => simp
  | cons b s =>
    rw [exponent?] at h
    split at h
    · next hb =>
      have hbyte : IsNumberByte b := by
        rcases hb with rfl | rfl
        · exact Or.inr (by simp)
        · exact Or.inr (by simp)
      exact List.forall_mem_cons.2 ⟨hbyte, isNumberByte_of_int? h⟩
    · cases h

theorem isNumberByte_of_mem_takeFraction {s : Bytes}
    (hs : ∀ b ∈ (takeFraction s).2, IsNumberByte b) : ∀ b ∈ s, IsNumberByte b := by
  cases s with
  | nil => simp
  | cons b s =>
    rw [takeFraction] at hs
    split at hs
    · next hb => exact List.forall_mem_cons.2 ⟨Or.inr (by simp [hb]), isNumberByte_of_digits hs⟩
    · exact hs

theorem isNumberByte_of_read? {s : Bytes} {n : Numeral} (h : read? s = some n) :
    ∀ b ∈ s, IsNumberByte b := by
  unfold read? at h
  dsimp only at h
  split at h
  · cases h
  · obtain ⟨e, hexponent, -⟩ := Option.map_eq_some_iff.1 h
    exact isNumberByte_of_mem_takeSign (isNumberByte_of_digits
      (isNumberByte_of_mem_takeFraction (isNumberByte_of_exponent? hexponent)))

end Numeral

namespace Bytes

/-- A run of digits has no sign, so the number that it writes is not negative. -/
theorem takeSign_of_digits {s : Bytes} (hs : ∀ b ∈ s, Byte.isDigit b = true) :
    Numeral.takeSign s = (false, s) := by
  cases s with
  | nil => rfl
  | cons b s =>
    have hb := hs b List.mem_cons_self
    have hminus : b ≠ '-'.toUInt8 := by
      rintro rfl
      exact absurd hb (by decide)
    have hplus : b ≠ '+'.toUInt8 := by
      rintro rfl
      exact absurd hb (by decide)
    rw [Numeral.takeSign, if_neg hminus, if_neg hplus]

theorem isNumberByte_of_float? {s : Bytes} {x : Float} (h : s.float? = some x) :
    ∀ b ∈ s, Byte.IsNumberByte b := by
  rw [float?_eq] at h
  obtain ⟨n, hn, -⟩ := Option.bind_eq_some_iff.1 h
  exact Numeral.isNumberByte_of_read? hn

end Bytes
end StrongMotion
