import Mathlib.Algebra.Order.Field.Power
import Mathlib.Tactic.FieldSimp
import Mathlib.Tactic.Linarith
import Mathlib.Tactic.Positivity
import Mathlib.Tactic.Ring
import StrongMotion.Proofs.NearestNumerals
import StrongMotion.Proofs.WrittenTimes

/-!
# The grammar of written decimals

A decimal is an optional sign, digits with at most one point among or around them and, optionally,
an exponent.  `WrittenDecimal` holds its parts, `WrittenDecimal.text` puts them together, and
`WrittenDecimal.value` is the number that they denote.  A text is read as a float exactly when it is
the text of a decimal whose number rounds to a finite float (`Bytes.exists_float?_iff`).
-/

namespace StrongMotion

/-! ## The parts of a decimal -/

/-- Digits, of which there may be none. -/
structure Digits where
  text : Bytes
  isDigit_of_mem : ∀ b ∈ text, Byte.isDigit b = true

namespace Digits

def value (d : Digits) : Nat := d.text.natValue

def length (d : Digits) : Nat := d.text.length

/-- The digits that a text begins with. -/
def front (s : Bytes) : Digits := ⟨s.takeDigits, Bytes.isDigit_of_mem_takeDigits s⟩

end Digits

/-- What may stand in front of digits. -/
inductive WrittenSign
  | none
  | plus
  | minus
deriving DecidableEq, Repr

namespace WrittenSign

def text : WrittenSign → Bytes
  | none => []
  | plus => "+"
  | minus => "-"

def isMinus (s : WrittenSign) : Bool := s == minus

/-- The number one with the sign. -/
def unit (s : WrittenSign) : Int := if s.isMinus then -1 else 1

end WrittenSign

/-- A whole number as it is written, an optional sign and at least one digit. -/
structure WrittenInteger where
  sign : WrittenSign
  digits : Digits
  ne_nil : digits.text ≠ []

namespace WrittenInteger

def text (w : WrittenInteger) : Bytes := w.sign.text ++ w.digits.text

/-- The number that the whole number denotes. -/
def value (w : WrittenInteger) : Int := w.sign.unit * w.digits.value

end WrittenInteger

/-- The letter of an exponent and the whole number behind it. -/
structure WrittenExponent where
  capital : Bool
  sign : WrittenSign
  digits : Digits
  ne_nil : digits.text ≠ []

namespace WrittenExponent

def text (e : WrittenExponent) : Bytes :=
  (if e.capital then "E" else "e") ++ (e.sign.text ++ e.digits.text)

def value (e : WrittenExponent) : Int := e.sign.unit * e.digits.value

def letter (e : WrittenExponent) : UInt8 := if e.capital then 'E'.toUInt8 else 'e'.toUInt8

theorem text_eq_cons (e : WrittenExponent) :
    e.text = e.letter :: (e.sign.text ++ e.digits.text) := by
  rw [text, letter]
  cases e.capital <;> rfl

theorem exists_letter {b : UInt8} (hb : b = 'e'.toUInt8 ∨ b = 'E'.toUInt8) :
    ∃ capital : Bool, (if capital then 'E'.toUInt8 else 'e'.toUInt8) = b := by
  rcases hb with rfl | rfl
  · exact ⟨false, rfl⟩
  · exact ⟨true, rfl⟩

theorem letter_eq (e : WrittenExponent) : e.letter = 'e'.toUInt8 ∨ e.letter = 'E'.toUInt8 := by
  rw [letter]
  cases e.capital with
  | false => exact Or.inl rfl
  | true => exact Or.inr rfl

end WrittenExponent

/-- A decimal as it is written: there is a digit before or behind the point. -/
structure WrittenDecimal where
  sign : WrittenSign
  whole : Digits
  /-- The digits behind the point, if there is a point. -/
  fraction : Option Digits
  exponent : Option WrittenExponent
  has_digit : whole.text ≠ [] ∨ ∃ digits, fraction = some digits ∧ digits.text ≠ []

namespace WrittenDecimal

def pointText : Option Digits → Bytes
  | none => []
  | some digits => "." ++ digits.text

def exponentText : Option WrittenExponent → Bytes
  | none => []
  | some e => e.text

def text (d : WrittenDecimal) : Bytes :=
  d.sign.text ++ (d.whole.text ++ (pointText d.fraction ++ exponentText d.exponent))

/-- What the digits behind the point are worth. -/
def fractionValue : Option Digits → ℚ
  | none => 0
  | some digits => digits.value / 10 ^ digits.length

def exponentValue : Option WrittenExponent → Int
  | none => 0
  | some e => e.value

/-- The number that the decimal denotes. -/
def value (d : WrittenDecimal) : ℚ :=
  d.sign.unit * (d.whole.value + fractionValue d.fraction) * 10 ^ exponentValue d.exponent

end WrittenDecimal

/-! ## Reading digits and signs -/

namespace Bytes

/-- What follows a run of digits is left when the run is taken off. -/
theorem dropDigits_append {s rest : Bytes} (hs : ∀ b ∈ s, Byte.isDigit b = true)
    (hrest : ∀ b, rest.head? = some b → Byte.isDigit b = false) :
    (s ++ rest).dropWhile Byte.isDigit = rest := by
  have htake := takeDigits_append hs hrest
  have hsplit := takeDigits_append_dropWhile (s ++ rest)
  rw [htake] at hsplit
  exact List.append_cancel_left hsplit

theorem natValue_append (s t : Bytes) :
    natValue (s ++ t) = natValue s * tenTo t.length + natValue t := by
  induction s with
  | nil =>
    show natValue t = 0 * tenTo t.length + natValue t
    rw [Nat.zero_mul, Nat.zero_add]
  | cons b s ih =>
    have hpower : tenTo (s ++ t).length = tenTo s.length * tenTo t.length := by
      rw [List.length_append]
      exact Nat.pow_add 10 s.length t.length
    rw [List.cons_append, natValue_cons, natValue_cons, ih, hpower]
    ring

/-- A sign stands in front, which digits do not have behind their own. -/
def IsSigned (s : Bytes) : Prop := s.head? = some '+'.toUInt8 ∨ s.head? = some '-'.toUInt8

theorem not_isSigned_of_isDigit {s : Bytes} (hne : s ≠ [])
    (hs : ∀ b ∈ s, Byte.isDigit b = true) (rest : Bytes) : ¬IsSigned (s ++ rest) := by
  obtain ⟨b, s, rfl⟩ := List.exists_cons_of_ne_nil hne
  have hb := hs b List.mem_cons_self
  intro hsign
  rw [IsSigned, List.cons_append, List.head?_cons, Option.some.injEq, Option.some.injEq] at hsign
  rcases hsign with rfl | rfl
  · exact absurd hb (by decide)
  · exact absurd hb (by decide)

end Bytes

namespace Numeral

theorem takeSign_append (sign : WrittenSign) {s : Bytes} (hs : ¬s.IsSigned) :
    takeSign (sign.text ++ s) = (sign.isMinus, s) := by
  cases sign with
  | plus | minus => rfl
  | none =>
    show takeSign s = (false, s)
    cases s with
    | nil => rfl
    | cons b s =>
      rw [Bytes.IsSigned, List.head?_cons, Option.some.injEq, Option.some.injEq, not_or] at hs
      rw [takeSign, if_neg hs.2, if_neg hs.1]

theorem exists_sign (s : Bytes) :
    ∃ sign : WrittenSign, s = sign.text ++ (takeSign s).2 ∧ (takeSign s).1 = sign.isMinus := by
  cases s with
  | nil => exact ⟨.none, rfl, rfl⟩
  | cons b s =>
    rw [takeSign]
    split
    · next hminus => exact ⟨.minus, by rw [hminus]; rfl, rfl⟩
    split
    · next hplus => exact ⟨.plus, by rw [hplus]; rfl, rfl⟩
    · exact ⟨.none, rfl, rfl⟩

theorem applySign_isMinus (sign : WrittenSign) (n : Nat) :
    applySign sign.isMinus n = sign.unit * n := by
  cases sign with
  | none | plus => exact (Int.one_mul n).symm
  | minus => exact Int.neg_eq_neg_one_mul n

/-! ## Reading whole numbers, exponents and fractions -/

/-- A whole number is read if the text is that of one. -/
theorem int?_eq_some_iff {s : Bytes} {n : Int} :
    int? s = some n ↔ ∃ w : WrittenInteger, w.text = s ∧ w.value = n := by
  constructor
  · intro h
    obtain ⟨sign, hs, hminus⟩ := exists_sign s
    unfold int? at h
    dsimp only at h
    split at h
    · next hdigits =>
      refine ⟨⟨sign, ⟨_, List.all_eq_true.1 hdigits.2⟩, hdigits.1⟩, hs.symm, ?_⟩
      rw [← Option.some.inj h, hminus, applySign_isMinus]
      rfl
    · cases h
  · rintro ⟨w, rfl, rfl⟩
    have hsigned := Bytes.not_isSigned_of_isDigit w.ne_nil w.digits.isDigit_of_mem []
    rw [List.append_nil] at hsigned
    unfold int? WrittenInteger.text
    rw [takeSign_append w.sign hsigned]
    dsimp only
    rw [if_pos ⟨w.ne_nil, List.all_eq_true.2 w.digits.isDigit_of_mem⟩, applySign_isMinus]
    rfl

/-- An exponent is read if it is written as one, or is not there at all. -/
theorem exponent?_eq_some_iff {s : Bytes} {n : Int} :
    exponent? s = some n ↔
      ∃ e, WrittenDecimal.exponentText e = s ∧ WrittenDecimal.exponentValue e = n := by
  constructor
  · intro h
    cases s with
    | nil => exact ⟨none, rfl, Option.some.inj h⟩
    | cons b s =>
      rw [exponent?] at h
      split at h
      · next hb =>
        obtain ⟨w, htext, hvalue⟩ := int?_eq_some_iff.1 h
        obtain ⟨capital, hcapital⟩ := WrittenExponent.exists_letter hb
        refine ⟨some ⟨capital, w.sign, w.digits, w.ne_nil⟩, ?_, hvalue⟩
        rw [WrittenDecimal.exponentText, WrittenExponent.text_eq_cons]
        exact congrArg₂ List.cons hcapital htext
      · cases h
  · rintro ⟨e, rfl, rfl⟩
    cases e with
    | none => rfl
    | some e =>
      show exponent? e.text = some e.value
      rw [e.text_eq_cons, exponent?, if_pos e.letter_eq]
      exact int?_eq_some_iff.2 ⟨⟨e.sign, e.digits, e.ne_nil⟩, rfl, rfl⟩

/-- No digit and no point comes behind the digits of a decimal. -/
theorem head?_exponentText {e : Option WrittenExponent} {b : UInt8}
    (h : (WrittenDecimal.exponentText e).head? = some b) :
    Byte.isDigit b = false ∧ b ≠ '.'.toUInt8 := by
  cases e with
  | none => cases h
  | some e =>
    have hb : e.letter = b := by
      rw [WrittenDecimal.exponentText, e.text_eq_cons] at h
      exact Option.some.inj h
    rw [← hb]
    rcases e.letter_eq with hletter | hletter
    · rw [hletter]
      decide
    · rw [hletter]
      decide

/-- The digits behind a point, of which there are none without one. -/
def fractionDigits : Option Digits → Bytes
  | none => []
  | some digits => digits.text

theorem takeFraction_append (fraction : Option Digits) (e : Option WrittenExponent) :
    takeFraction (WrittenDecimal.pointText fraction ++ WrittenDecimal.exponentText e) =
      (fractionDigits fraction, WrittenDecimal.exponentText e) := by
  cases fraction with
  | some digits =>
    have hbehind := fun b hb => (head?_exponentText (e := e) (b := b) hb).1
    show takeFraction ('.'.toUInt8 :: (digits.text ++ WrittenDecimal.exponentText e)) = _
    rw [takeFraction, if_pos rfl, Bytes.takeDigits_append digits.isDigit_of_mem hbehind,
      Bytes.dropDigits_append digits.isDigit_of_mem hbehind]
    rfl
  | none =>
    show takeFraction (WrittenDecimal.exponentText e) = ([], WrittenDecimal.exponentText e)
    cases htext : WrittenDecimal.exponentText e with
    | nil => rfl
    | cons b s =>
      have hb : b ≠ '.'.toUInt8 :=
        (head?_exponentText (e := e) (by rw [htext, List.head?_cons])).2
      rw [takeFraction, if_neg hb]

theorem exists_fraction (s : Bytes) :
    ∃ fraction : Option Digits, s = WrittenDecimal.pointText fraction ++ (takeFraction s).2 ∧
      (takeFraction s).1 = fractionDigits fraction := by
  cases s with
  | nil => exact ⟨none, rfl, rfl⟩
  | cons b s =>
    rw [takeFraction]
    split
    · next hpoint =>
      refine ⟨some (Digits.front s), ?_, rfl⟩
      show b :: s = '.'.toUInt8 :: (Bytes.takeDigits s ++ s.dropWhile Byte.isDigit)
      rw [hpoint, Bytes.takeDigits_append_dropWhile]
    · exact ⟨none, rfl, rfl⟩

end Numeral

/-! ## Reading decimals -/

namespace WrittenDecimal

open Numeral

/-- The number of the decimal with the point moved behind the last digit. -/
def numeral (d : WrittenDecimal) : Numeral where
  negative := d.sign.isMinus
  mantissa := Bytes.natValue (d.whole.text ++ fractionDigits d.fraction)
  exponent := exponentValue d.exponent - (fractionDigits d.fraction).length

theorem has_digit_iff {whole : Digits} {fraction : Option Digits} :
    (whole.text ≠ [] ∨ ∃ digits, fraction = some digits ∧ digits.text ≠ []) ↔
      ¬(whole.text = [] ∧ fractionDigits fraction = []) := by
  rw [not_and_or]
  refine or_congr_right ?_
  cases fraction <;> simp [fractionDigits]

/-- The digits of a decimal end at its point, its exponent or its end. -/
theorem head?_behind_whole {fraction : Option Digits} {e : Option WrittenExponent} {b : UInt8}
    (h : (pointText fraction ++ exponentText e).head? = some b) : Byte.isDigit b = false := by
  cases fraction with
  | some digits =>
    obtain rfl : '.'.toUInt8 = b := Option.some.inj h
    rfl
  | none => exact (head?_exponentText h).1

theorem not_isSigned (d : WrittenDecimal) :
    ¬Bytes.IsSigned (d.whole.text ++ (pointText d.fraction ++ exponentText d.exponent)) := by
  by_cases hwhole : d.whole.text = []
  · -- Without a digit in front there is a point.
    obtain ⟨digits, hfraction, -⟩ := d.has_digit.resolve_left (not_not_intro hwhole)
    rw [hwhole, hfraction, List.nil_append, pointText]
    rintro (hsign | hsign)
    · exact absurd (Option.some.inj hsign) (by decide)
    · exact absurd (Option.some.inj hsign) (by decide)
  · exact Bytes.not_isSigned_of_isDigit hwhole d.whole.isDigit_of_mem _

theorem read?_text (d : WrittenDecimal) : Numeral.read? d.text = some d.numeral := by
  have hwhole : ∀ b, (pointText d.fraction ++ exponentText d.exponent).head? = some b →
      Byte.isDigit b = false := fun b hb => head?_behind_whole hb
  unfold Numeral.read? text
  rw [takeSign_append d.sign d.not_isSigned]
  dsimp only
  rw [Bytes.takeDigits_append d.whole.isDigit_of_mem hwhole,
    Bytes.dropDigits_append d.whole.isDigit_of_mem hwhole, takeFraction_append]
  dsimp only
  rw [if_neg (has_digit_iff.1 d.has_digit), exponent?_eq_some_iff.2 ⟨d.exponent, rfl, rfl⟩]
  rfl

theorem exists_of_read? {s : Bytes} {n : Numeral} (h : Numeral.read? s = some n) :
    ∃ d : WrittenDecimal, d.text = s ∧ d.numeral = n := by
  obtain ⟨sign, hsign, hminus⟩ := exists_sign s
  obtain ⟨fraction, hfraction, hdigits⟩ :=
    exists_fraction ((takeSign s).2.dropWhile Byte.isDigit)
  unfold Numeral.read? at h
  dsimp only at h
  split at h
  · cases h
  · next hnone =>
    obtain ⟨value, hvalue, hn⟩ := Option.map_eq_some_iff.1 h
    obtain ⟨e, hexponent, he⟩ := exponent?_eq_some_iff.1 hvalue
    rw [hdigits] at hnone
    refine ⟨⟨sign, Digits.front (takeSign s).2, fraction, e, has_digit_iff.2 hnone⟩, ?_, ?_⟩
    · show sign.text ++ (Bytes.takeDigits (takeSign s).2 ++
        (pointText fraction ++ exponentText e)) = s
      rw [hexponent, ← hfraction, Bytes.takeDigits_append_dropWhile, ← hsign]
    · rw [← hn, hminus, hdigits, ← he]
      rfl

/-- The texts that are read are those of decimals. -/
theorem read?_eq_some_iff {s : Bytes} {n : Numeral} :
    Numeral.read? s = some n ↔ ∃ d : WrittenDecimal, d.text = s ∧ d.numeral = n := by
  refine ⟨exists_of_read?, ?_⟩
  rintro ⟨d, rfl, rfl⟩
  exact d.read?_text

end WrittenDecimal

theorem WrittenDecimal.value_numeral (d : WrittenDecimal) : d.numeral.value = d.value := by
  have hten : (10 : ℚ) ≠ 0 := by norm_num
  have hdigits : ((Bytes.natValue (d.whole.text ++ Numeral.fractionDigits d.fraction) : ℕ) : ℚ) =
      (d.whole.value + fractionValue d.fraction) *
        10 ^ (Numeral.fractionDigits d.fraction).length := by
    cases d.fraction with
    | none =>
      show ((Bytes.natValue (d.whole.text ++ []) : ℕ) : ℚ) = (d.whole.value + 0) * 10 ^ 0
      rw [List.append_nil, add_zero, pow_zero, mul_one]
      rfl
    | some digits =>
      show ((Bytes.natValue (d.whole.text ++ digits.text) : ℕ) : ℚ) =
        (d.whole.value + digits.value / 10 ^ digits.text.length) * 10 ^ digits.text.length
      rw [Bytes.natValue_append, Nat.cast_add, Nat.cast_mul, cast_tenTo, add_mul,
        div_mul_cancel₀ _ (pow_ne_zero _ hten)]
      rfl
  have hsign : (if d.sign.isMinus then -1 else 1 : ℚ) = d.sign.unit := by
    rw [WrittenSign.unit]
    split <;> norm_num
  show (if d.sign.isMinus then -1 else 1 : ℚ) *
      (Bytes.natValue (d.whole.text ++ Numeral.fractionDigits d.fraction) : ℕ) *
      10 ^ (exponentValue d.exponent - ((Numeral.fractionDigits d.fraction).length : ℤ)) = d.value
  rw [hdigits, hsign, zpow_sub₀ hten, zpow_natCast, value]
  field_simp

/-- A text denotes one number only. -/
theorem WrittenDecimal.value_eq_of_text_eq {d d' : WrittenDecimal} (h : d.text = d'.text) :
    d.value = d'.value := by
  have hread := d.read?_text
  rw [h, d'.read?_text, Option.some.injEq] at hread
  rw [← d.value_numeral, ← d'.value_numeral, hread]

/-! ## Finite floats -/

/-- The largest finite float. -/
def largestFloat : ℚ := (2 ^ 53 - 1) * 2 ^ 971

example : Dyadic.ofFloat? (Float.ofBits 0x7FEFFFFFFFFFFFFF) = some ⟨false, 2 ^ 53 - 1, 971⟩ := by
  decide +kernel

/-- The number is nearer to the largest finite float than to the next power of two.  Halfway between
them it is rounded to the power of two, whose significand is even, and which is not finite. -/
def RoundsToFinite (q : ℚ) : Prop := |q| - largestFloat < 2 ^ 1024 - |q|

theorem roundsToFinite_iff {q : ℚ} : RoundsToFinite q ↔ |q| < (Numeral.overflowBound : ℚ) := by
  have hbound : (Numeral.overflowBound : ℚ) = (2 ^ 54 - 1) * 2 ^ 970 := by
    rw [Numeral.overflowBound, Nat.cast_mul, Nat.cast_pred (twoTo_pos 54), cast_twoTo, cast_twoTo]
  have hlargest : largestFloat = (2 ^ 53 - 1) * (2 * 2 ^ 970) := by
    rw [largestFloat, ← pow_succ']
  have hpower : (2 : ℚ) ^ 1024 = 2 ^ 54 * 2 ^ 970 := by rw [← pow_add]
  rw [RoundsToFinite, hbound, hlargest, hpower]
  generalize (2 : ℚ) ^ 970 = scale
  constructor
  · intro h
    linarith
  · intro h
    linarith

namespace Numeral

theorem overflows_eq_false_iff {n : Numeral} : n.overflows = false ↔ RoundsToFinite n.value := by
  rw [roundsToFinite_iff, abs_value]
  unfold overflows
  split
  · next hnonneg =>
    obtain ⟨e, he⟩ := Int.eq_ofNat_of_zero_le hnonneg
    rw [he, Int.toNat_natCast, zpow_natCast, decide_eq_false_iff_not, Nat.not_le,
      ← Nat.cast_lt (α := ℚ), Nat.cast_mul, cast_tenTo]
  · next hneg =>
    obtain ⟨e, he⟩ := Int.eq_ofNat_of_zero_le (show 0 ≤ -n.exponent by omega)
    have hexponent : n.exponent = -(e : ℤ) := by omega
    have hpower : (0 : ℚ) < 10 ^ e := by positivity
    rw [he, Int.toNat_natCast, hexponent, zpow_neg, zpow_natCast, decide_eq_false_iff_not,
      Nat.not_le, ← Nat.cast_lt (α := ℚ), Nat.cast_mul, cast_tenTo, ← div_eq_mul_inv,
      div_lt_iff₀ hpower]

/-- Beyond the exponent at which a numeral is refused unread, its number is too large. -/
theorem overflows_of_exponent {n : Numeral} (hm : n.mantissa ≠ 0) (he : 400 < n.exponent) :
    n.overflows = true := by
  have hbound : overflowBound ≤ tenTo 400 := by decide +kernel
  have hpower : tenTo 400 ≤ tenTo n.exponent.toNat := tenTo_mono (by omega)
  have hmantissa : tenTo n.exponent.toNat ≤ n.mantissa * tenTo n.exponent.toNat :=
    Nat.le_mul_of_pos_left _ (Nat.pos_of_ne_zero hm)
  rw [overflows, if_pos (by omega), decide_eq_true_eq]
  omega

theorem exists_toFloat?_iff {n : Numeral} :
    (∃ x, n.toFloat? = some x) ↔ RoundsToFinite n.value := by
  unfold toFloat?
  dsimp only
  split
  · next hvanishes =>
    have hone : (1 : ℚ) ≤ (overflowBound : ℚ) := by
      exact_mod_cast (by decide +kernel : 1 ≤ overflowBound)
    have hsmall : |n.value| < 1 :=
      (abs_value_le_of_vanishes hvanishes).trans_lt (zpow_lt_one_of_neg₀ one_lt_two (by decide))
    exact iff_of_true ⟨_, rfl⟩ (roundsToFinite_iff.2 (hsmall.trans_le hone))
  · next hvanishes =>
    have hmantissa : n.mantissa ≠ 0 := by
      intro hzero
      rw [vanishes, decide_eq_true_eq, not_or] at hvanishes
      exact hvanishes.1 hzero
    rw [← overflows_eq_false_iff]
    split
    · next hlarge =>
      rw [Bool.or_eq_true, decide_eq_true_eq] at hlarge
      have hoverflows : n.overflows = true :=
        hlarge.elim (overflows_of_exponent hmantissa) id
      rw [hoverflows]
      refine iff_of_false ?_ (by decide)
      rintro ⟨x, hx⟩
      cases hx
    · next hsmall =>
      rw [Bool.or_eq_true, not_or, Bool.not_eq_true n.overflows] at hsmall
      exact iff_of_true ⟨_, rfl⟩ hsmall.2

/-- The float of a numeral is neither an infinity nor undefined. -/
theorem isFinite_of_toFloat? {n : Numeral} {x : Float} (h : n.toFloat? = some x) :
    x.isFinite = true :=
  Binary64.isFinite_of_zero_or_hasOrder (Binary64.zero_or_hasOrder_of_toFloat? h)

end Numeral

namespace Bytes

/-- The text of a decimal is read as the float of its number, if it has one. -/
theorem float?_text (d : WrittenDecimal) : float? d.text = d.numeral.toFloat? := by
  rw [float?_eq, d.read?_text]
  rfl

theorem exists_decimal_of_float? {s : Bytes} {x : Float} (h : s.float? = some x) :
    ∃ d : WrittenDecimal, d.text = s ∧ d.numeral.toFloat? = some x := by
  rw [float?_eq] at h
  obtain ⟨n, hread, hx⟩ := Option.bind_eq_some_iff.1 h
  obtain ⟨d, htext, rfl⟩ := WrittenDecimal.read?_eq_some_iff.1 hread
  exact ⟨d, htext, hx⟩

theorem isNearest_of_float? {d : WrittenDecimal} {x : Float} (h : float? d.text = some x) :
    IsNearest x d.value := by
  rw [float?_text] at h
  rw [← d.value_numeral]
  exact Numeral.isNearest_of_toFloat? h

theorem exists_float?_iff_exists_decimal {s : Bytes} :
    (∃ x, s.float? = some x) ↔ ∃ d : WrittenDecimal, d.text = s ∧ RoundsToFinite d.value := by
  constructor
  · rintro ⟨x, hx⟩
    obtain ⟨d, htext, hfloat⟩ := exists_decimal_of_float? hx
    refine ⟨d, htext, ?_⟩
    rw [← d.value_numeral]
    exact Numeral.exists_toFloat?_iff.1 ⟨x, hfloat⟩
  · rintro ⟨d, rfl, hvalue⟩
    rw [← d.value_numeral] at hvalue
    rw [float?_text]
    exact Numeral.exists_toFloat?_iff.2 hvalue

/-- A text is read as a float if it is the text of a decimal whose number rounds to a finite float,
and is not read otherwise.  There is one number that it denotes, and the float is finite, the
nearest one to that number and of the sign that is written.  Read into a variable, it is what the
variable holds then; where nothing is read, the variable holds what it held before. -/
theorem exists_float?_iff (s : Bytes) :
    ((∃ x, s.float? = some x) ↔ ∃ d : WrittenDecimal, d.text = s ∧ RoundsToFinite d.value) ∧
    (∀ d d' : WrittenDecimal, d.text = s → d'.text = s → d.value = d'.value) ∧
    (∀ x, s.float? = some x → x.isFinite = true ∧ ∀ d : WrittenDecimal, d.text = s →
      IsNearest x d.value ∧ ∃ y, Dyadic.ofFloat? x = some y ∧ y.negative = d.sign.isMinus) ∧
    ∀ before : Float,
      (∀ x, s.float? = some x ↔ s.parseFloat before = ⟨true, x⟩) ∧
      ((¬∃ d : WrittenDecimal, d.text = s ∧ RoundsToFinite d.value) →
        s.parseFloat before = ⟨false, before⟩) := by
  refine ⟨exists_float?_iff_exists_decimal, fun d d' htext htext' => ?_, fun x hx => ⟨?_, ?_⟩,
    fun before => ⟨fun x => ?_, fun hnone => ?_⟩⟩
  · exact WrittenDecimal.value_eq_of_text_eq (htext.trans htext'.symm)
  · obtain ⟨d, -, hfloat⟩ := exists_decimal_of_float? hx
    exact Numeral.isFinite_of_toFloat? hfloat
  · rintro d rfl
    refine ⟨isNearest_of_float? hx, ?_⟩
    rw [float?_text] at hx
    exact Numeral.exists_negative_of_toFloat? hx
  · rw [parseFloat_eq, Parse.store_eq_true_iff]
  · cases hfloat : s.float? with
    | none => rw [parseFloat_eq, hfloat, Parse.store]
    | some x => exact absurd (exists_float?_iff_exists_decimal.1 ⟨x, hfloat⟩) hnone

-- Each of these is within a byte or two of a decimal.
example : (["", ".", "-", "1e", "1e+", ".e1", "1.2.3", "0x10", "inf", "nan", " 1", "1 "] :
    List Bytes).all (·.float?.isNone) = true := by decide +kernel

example : (["+.5", "1.e5", "-0", "007", "0e999999999999", "1E-999999999999"] :
    List Bytes).all (·.float?.isSome) = true := by decide +kernel

end Bytes
end StrongMotion
