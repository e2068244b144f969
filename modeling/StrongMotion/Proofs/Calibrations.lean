import StrongMotion.Proofs.FieldValues
import StrongMotion.Proofs.FloatNumerals
import StrongMotion.Proofs.HeaderReading
import StrongMotion.Proofs.Numerals

/-!
# The sign of a calibration

A scale factor is a whole number of gals over the counts that stand for it.  The digits in front of
the slash have no sign, but what is behind it may have one, and no quotient of the two is so small
that it rounds to zero.  So a calibration is negative just where the sign is written
(`Header.calibration_of_scaleFactor`).
-/

namespace StrongMotion

/-! ## The two numbers -/

namespace Numeral

/-- A numeral is negative if a minus sign is its first byte. -/
theorem takeSign_fst (s : Bytes) : (takeSign s).1 = true ↔ s.head? = some '-'.toUInt8 := by
  cases s with
  | nil => simp [takeSign]
  | cons b s =>
    rw [takeSign, List.head?_cons, Option.some.injEq]
    split
    · next hminus => exact ⟨fun _ => hminus, fun _ => rfl⟩
    · next hminus => split <;> simp [hminus]

theorem negative_of_read? {s : Bytes} {n : Numeral} (h : read? s = some n) :
    n.negative = (takeSign s).1 := by
  unfold read? at h
  dsimp only at h
  split at h
  · cases h
  · obtain ⟨e, -, rfl⟩ := Option.map_eq_some_iff.1 h
    rfl

/-- Digits write a whole number. -/
theorem read?_digits {s : Bytes} (hs : ∀ b ∈ s, Byte.isDigit b = true) {n : Numeral}
    (h : read? s = some n) :
    n = { negative := false, mantissa := Bytes.natValue s, exponent := 0 } := by
  have htake : Bytes.takeDigits s = s := List.takeWhile_eq_self_iff.2 hs
  have hdrop : s.dropWhile Byte.isDigit = [] := List.dropWhile_eq_nil_iff.2 hs
  unfold read? at h
  rw [Bytes.takeSign_of_digits hs] at h
  dsimp only at h
  rw [htake, hdrop] at h
  split at h
  · cases h
  · obtain ⟨e, hexponent, rfl⟩ := Option.map_eq_some_iff.1 h
    obtain rfl := Option.some.inj hexponent
    show Numeral.mk false (Bytes.natValue (s ++ [])) 0 = _
    rw [List.append_nil]

end Numeral

namespace Bytes

/-- The digits in front of the slash, without the unit. -/
def scaleNumerator (text : Bytes) : Bytes := takeDigits (text.takeWhile (· ≠ '/'.toUInt8))

/-- All that is behind the slash. -/
def scaleDenominator (text : Bytes) : Bytes := (text.dropWhile (· ≠ '/'.toUInt8)).tail

/-- A number other than zero is divided by one with a minus sign. -/
def IsNegativeScale (text : Bytes) : Prop :=
  natValue text.scaleNumerator ≠ 0 ∧ text.scaleDenominator.head? = some '-'.toUInt8

instance (text : Bytes) : Decidable text.IsNegativeScale := by
  unfold IsNegativeScale
  infer_instance

end Bytes

/-- With no slash in the denominator there is one in the text. -/
theorem Bytes.count_slash {text denominator : Bytes} {b : UInt8}
    (hdrop : text.dropWhile (· ≠ '/'.toUInt8) = b :: denominator)
    (hslash : '/'.toUInt8 ∉ denominator) : text.count '/'.toUInt8 = 1 := by
  have hfront : '/'.toUInt8 ∉ text.takeWhile (· ≠ '/'.toUInt8) := by
    intro hmem
    have hne := List.mem_takeWhile_imp hmem
    rw [decide_eq_true_eq] at hne
    exact hne rfl
  have hb : b = '/'.toUInt8 := by
    have hhead := List.head?_dropWhile_not (fun c : UInt8 => decide (c ≠ '/'.toUInt8)) text
    rw [hdrop, List.head?_cons] at hhead
    exact Decidable.not_not.1 (of_decide_eq_false hhead)
  rw [← List.takeWhile_append_dropWhile (p := (· ≠ '/'.toUInt8)) (l := text), hdrop, hb,
    List.count_append, List.count_eq_zero.2 hfront, List.count_cons_self,
    List.count_eq_zero.2 hslash]

/-- A scale factor is refused, or else has one slash and two numbers, of which the second is not
zero. -/
theorem calibration_cases (text : Bytes) :
    (∃ flaw, calibration text = .error (.scaleFactor flaw text)) ∨
      text.count '/'.toUInt8 = 1 ∧ ∃ n d : Float, text.scaleNumerator.float? = some n ∧
        text.scaleDenominator.float? = some d ∧ (d == 0) = false ∧
          calibration text = .ok (gal * n / d) := by
  generalize hresult : calibration text = result
  unfold calibration at hresult
  dsimp only at hresult
  split at hresult
  · exact Or.inl ⟨_, hresult.symm⟩
  next b denominator hdrop =>
  split at hresult
  · exact Or.inl ⟨_, hresult.symm⟩
  next hslash =>
  split at hresult
  · exact Or.inl ⟨_, hresult.symm⟩
  next n hn =>
  split at hresult
  · exact Or.inl ⟨_, hresult.symm⟩
  next d hd =>
  split at hresult
  · exact Or.inl ⟨_, hresult.symm⟩
  next hzero =>
  have hdenominator : text.scaleDenominator = denominator := by
    rw [Bytes.scaleDenominator, hdrop, List.tail_cons]
  rw [← hdenominator] at hd
  exact Or.inr ⟨Bytes.count_slash hdrop hslash, n, d, hn, hd, eq_false_of_ne_true hzero,
    hresult.symm⟩

/-! ## Signs -/

namespace Binary64

open Float.Model Float.Model.UnpackedFloat

theorem signOf_eq_positive_iff {n : Numeral} : signOf n = .positive ↔ n.negative = false := by
  unfold signOf
  split
  · next h => simp [h]
  · next h => simp [h]

theorem zero_le_iff {x : Float} :
    0 ≤ x ↔ UnpackedFloat.le (.zero .positive) x.toModel.unpack = true := by
  show decide ((0 : Float).toModel ≤ x.toModel) = true ↔ _
  rw [decide_eq_true_eq, ← unpack_zero]
  rfl

theorem zero_le_of_unpack_zero {x : Float} {s : Sign} (hx : x.toModel.unpack = .zero s) :
    0 ≤ x := by
  rw [zero_le_iff, hx]
  rfl

theorem HasSign.zero_le_iff {x : Float} {s : Sign} (hx : HasSign x s) : 0 ≤ x ↔ s = .positive := by
  rw [Binary64.zero_le_iff]
  rcases hx with hx | ⟨_, _, m, e, hm, hx, -⟩
  · rw [hx]
    cases s <;> simp [UnpackedFloat.le, UnpackedFloat.compare]
  · rw [hx]
    cases s <;> simp [UnpackedFloat.le, UnpackedFloat.compare]

/-- A zero of either sign equals zero. -/
theorem beq_zero_of_unpack_zero {x : Float} {s : Sign} (hx : x.toModel.unpack = .zero s) :
    (x == 0) = true := by
  show UnpackedFloat.beq x.toModel.unpack (0 : Float).toModel.unpack = true
  rw [hx, unpack_zero]
  rfl

theorem hasOrder_gal : HasOrder gal .positive (-6) (-6) := by decide +kernel

/-- No number of gals is rounded to zero or to an infinity, and no quotient to zero. -/
theorem hasSign_calibration {n d : Float} {s : Sign} (hn : HasOrder n .positive 1 1024)
    (hd : HasOrder d s (-1073) 1024) : HasSign (gal * n / d) s := by
  have hgal := hasOrder_gal.mul hn (by decide) (by decide)
  have hquotient := hgal.hasSign_div hd (by decide)
  have hsign : (.positive * .positive / s : Sign) = s := by cases s <;> rfl
  rwa [hsign] at hquotient

theorem zero_le_calibration {n d : Float} {s t : Sign} {low high : Int}
    (hn : n.toModel.unpack = .zero t) (hd : HasOrder d s low high) : 0 ≤ gal * n / d := by
  obtain ⟨m, e, hm, hunpack, -⟩ := hd
  obtain ⟨k, f, hk, hgal, -⟩ := hasOrder_gal
  have hproduct : (gal * n).toModel.unpack = .zero (.positive * t) := by
    show (Float.Model.pack
      (UnpackedFloat.mul .binary64 gal.toModel.unpack n.toModel.unpack)).unpack = _
    rw [hgal, hn]
    exact unpack_pack_zero
  have hquotient : (gal * n / d).toModel.unpack = .zero (.positive * t / s) := by
    show (Float.Model.pack
      (UnpackedFloat.div .binary64 (gal * n).toModel.unpack d.toModel.unpack)).unpack = _
    rw [hproduct, hunpack]
    exact unpack_pack_zero
  exact zero_le_of_unpack_zero hquotient

end Binary64

section

variable {text : Bytes} {n d : Float}

theorem hasOrder_denominator (hd : text.scaleDenominator.float? = some d)
    (hzero : (d == 0) = false) :
    ∃ s, Binary64.HasOrder d s (-1073) 1024 ∧
      (s = .positive ↔ text.scaleDenominator.head? ≠ some '-'.toUInt8) := by
  rw [Bytes.float?_eq] at hd
  obtain ⟨numeral, hread, hfloat⟩ := Option.bind_eq_some_iff.1 hd
  rcases Binary64.zero_or_hasOrder_of_toFloat? hfloat with hunpack | horder
  · rw [Binary64.beq_zero_of_unpack_zero hunpack] at hzero
    cases hzero
  · refine ⟨_, horder, ?_⟩
    rw [Binary64.signOf_eq_positive_iff, Numeral.negative_of_read? hread, ne_eq,
      ← Numeral.takeSign_fst, Bool.not_eq_true]

theorem calibration_nonneg_iff (hn : text.scaleNumerator.float? = some n)
    (hd : text.scaleDenominator.float? = some d) (hzero : (d == 0) = false) :
    0 ≤ gal * n / d ↔ ¬text.IsNegativeScale := by
  rw [Bytes.float?_eq] at hn
  obtain ⟨numeral, hread, hfloat⟩ := Option.bind_eq_some_iff.1 hn
  obtain rfl := Numeral.read?_digits (Bytes.isDigit_of_mem_takeDigits _) hread
  obtain ⟨s, hdenominator, hs⟩ := hasOrder_denominator hd hzero
  by_cases hnumerator : Bytes.natValue text.scaleNumerator = 0
  · have hunpack := Binary64.unpack_of_toFloat?_zero hfloat hnumerator
    exact ⟨fun _ hnegative => hnegative.1 hnumerator,
      fun _ => Binary64.zero_le_calibration hunpack hdenominator⟩
  · have horder := Binary64.hasOrder_of_toFloat?_whole hfloat rfl hnumerator
    have hsign : Binary64.HasSign (gal * n / d) s :=
      Binary64.hasSign_calibration horder hdenominator
    rw [hsign.zero_le_iff, hs, Bytes.IsNegativeScale, not_and]
    exact ⟨fun hhead _ => hhead, fun h => h hnumerator⟩

end

theorem nonneg_iff_of_calibration {text : Bytes} {x : Float} (hx : calibration text = .ok x) :
    0 ≤ x ↔ ¬text.IsNegativeScale := by
  rcases calibration_cases text with ⟨flaw, herror⟩ | ⟨-, n, d, hn, hd, hzero, hok⟩
  · rw [herror] at hx
    cases hx
  · obtain rfl := Except.ok.inj (hok.symm.trans hx)
    exact calibration_nonneg_iff hn hd hzero

namespace Header

theorem calibration_of_read {o : ReadOptions} {lines : List Bytes} {h : Header}
    (hread : read o lines = .ok h) :
    ∃ line text : Bytes, lines[13]? = some line ∧ Bytes.ofString "Scale Factor" <+: line ∧
      line.words[2]? = some text ∧ calibration text = .ok h.recording.calibration := by
  obtain ⟨i, line, hitem, hline, hlabel, text, htext, hcalibration⟩ :=
    exists_line_of_read hread .scaleFactor
  have hplace : i = 13 := by
    have hlt := (List.getElem?_eq_some_iff.1 hitem).1
    exact (List.getElem?_inj hlt nodup_inOrder).1 hitem
  subst hplace
  exact ⟨line, text, hline, hlabel, htext, hcalibration⟩

/-- A scale factor is refused, or it has one slash, the digits before it write the numerator and all
that is behind it the denominator, which is not zero; the quotient is negative only where a
numerator other than zero is divided by a number with a minus sign.  The calibration of a header is
that of its own line. -/
theorem calibration_of_scaleFactor (text : Bytes) (o : ReadOptions) (lines : List Bytes) :
    ((∃ flaw, calibration text = .error (.scaleFactor flaw text)) ∨
      text.count '/'.toUInt8 = 1 ∧ ∃ n d : Float, text.scaleNumerator.float? = some n ∧
        text.scaleDenominator.float? = some d ∧ (d == 0) = false ∧
          calibration text = .ok (gal * n / d) ∧ (0 ≤ gal * n / d ↔ ¬text.IsNegativeScale)) ∧
    ∀ h : Header, read o lines = .ok h →
      ∃ line field : Bytes, lines[13]? = some line ∧ Bytes.ofString "Scale Factor" <+: line ∧
        line.words[2]? = some field ∧ calibration field = .ok h.recording.calibration ∧
          (0 ≤ h.recording.calibration ↔ ¬field.IsNegativeScale) := by
  refine ⟨?_, fun h hread => ?_⟩
  · refine (calibration_cases text).imp_right fun ⟨hcount, n, d, hn, hd, hzero, hok⟩ => ?_
    exact ⟨hcount, n, d, hn, hd, hzero, hok, calibration_nonneg_iff hn hd hzero⟩
  · obtain ⟨line, field, hline, hlabel, hfield, hok⟩ := calibration_of_read hread
    exact ⟨line, field, hline, hlabel, hfield, hok, nonneg_iff_of_calibration hok⟩

theorem calibration_of_scaleFactor_leapDayHeader :
    ∃ h, read {} leapDayHeader = .ok h ∧ 0 ≤ h.recording.calibration := by
  obtain ⟨h, hread⟩ := exists_read_leapDayHeader
  obtain ⟨line, field, hline, -, hword, -, hsign⟩ :=
    (calibration_of_scaleFactor [] {} leapDayHeader).2 h hread
  have hplace : leapDayHeader[13]? = some (Bytes.ofString "Scale Factor 3920(gal)/6182761") := rfl
  obtain rfl := Option.some.inj (hplace.symm.trans hline)
  have hfield : (Bytes.ofString "Scale Factor 3920(gal)/6182761").words[2]? =
      some (Bytes.ofString "3920(gal)/6182761") := by decide +kernel
  obtain rfl := Option.some.inj (hfield.symm.trans hword)
  exact ⟨h, hread, hsign.2 (by decide +kernel)⟩

/-- The counts may be written with a minus sign, and then the calibration has it too. -/
theorem calibration_of_read_negative :
    ∃ h, read {} (leapDayHeader.set 13 "Scale Factor 3920(gal)/-6182761") = .ok h ∧
      h.recording.calibration < 0 := by
  have hnegative : ((read {} (leapDayHeader.set 13 "Scale Factor 3920(gal)/-6182761")).toOption.any
      fun h => decide (h.recording.calibration < 0)) = true := by decide +kernel
  cases hread : read {} (leapDayHeader.set 13 "Scale Factor 3920(gal)/-6182761") with
  | ok h =>
    rw [hread] at hnegative
    exact ⟨h, rfl, of_decide_eq_true hnegative⟩
  | error f =>
    rw [hread] at hnegative
    cases hnegative

end Header
end StrongMotion
