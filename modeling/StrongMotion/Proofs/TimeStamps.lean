import StrongMotion.Proofs.Decimals
import StrongMotion.Proofs.WallClocks
import StrongMotion.Proofs.Words
import StrongMotion.Time.Timestamp

/-!
# Stamps of time

What a clock shows is written field by field.  All fields but the year have a width that valid
clocks keep to, so a stamp can be taken apart from both ends and no two clocks have the same one
(`WallClock.dateTime_inj`); neither do two instants (`Instant.compact_inj`).
-/

namespace StrongMotion

theorem Date.IsValid.fits {d : Date} (hd : d.IsValid) :
    Bytes.Fits 2 d.month ∧ Bytes.Fits 2 d.day := by
  have hwidth : tenTo 2 = 100 := rfl
  obtain ⟨hmonth, hmonth', hday, hday'⟩ := hd
  have hlength := monthLength_le d.year d.month
  exact ⟨⟨by decide, by omega, by omega⟩, ⟨by decide, by omega, by omega⟩⟩

namespace WallClock

theorem IsValid.fits {c : WallClock} (hc : c.IsValid) :
    Bytes.Fits 2 c.hour ∧ Bytes.Fits 2 c.minute ∧ Bytes.Fits 2 c.second ∧ Bytes.Fits 3 c.milli := by
  have hwidth : tenTo 2 = 100 := rfl
  have hwidth' : tenTo 3 = 1000 := rfl
  obtain ⟨-, hhour, hminute, hsecond, hmilli⟩ := hc
  refine ⟨⟨by decide, ?_⟩, ⟨by decide, ?_⟩, ⟨by decide, ?_⟩, by decide, ?_⟩
  all_goals omega

/-- The year is what is left of a date when the other fields are taken off its end. -/
theorem datePart_inj {separator : Bytes} {d e : Date} (hd : d.IsValid) (he : e.IsValid) :
    datePart separator d = datePart separator e ↔ d = e := by
  constructor
  · intro h
    unfold datePart at h
    obtain ⟨h, hday⟩ := (Bytes.append_padded_inj hd.fits.2 he.fits.2).1 h
    have h := List.append_cancel_right h
    obtain ⟨h, hmonth⟩ := (Bytes.append_padded_inj hd.fits.1 he.fits.1).1 h
    have hyear := Bytes.padded_inj.1 (List.append_cancel_right h)
    obtain ⟨year, month, day⟩ := d
    obtain ⟨year', month', day'⟩ := e
    rw [Date.mk.injEq]
    exact ⟨hyear, hmonth, hday⟩
  · intro h
    rw [h]

/-- A clock without a fraction of a second is told from one with a fraction by the point. -/
theorem fraction_inj {c c' : WallClock} : c.fraction = c'.fraction ↔ c.milli = c'.milli := by
  have hpoint : ∀ s : Bytes, Bytes.ofString "." ++ s ≠ [] := fun s h => nomatch h
  unfold fraction
  constructor
  · intro h
    split at h <;> split at h
    · next hzero hzero' => rw [hzero, hzero']
    · exact absurd h.symm (hpoint _)
    · exact absurd h (hpoint _)
    · exact Bytes.padded_inj.1 (List.append_cancel_left h)
  · intro h
    rw [h]

theorem timePart_inj {separator : Bytes} {c c' : WallClock} (hc : c.IsValid) (hc' : c'.IsValid)
    (hdate : c.date = c'.date) : timePart separator c = timePart separator c' ↔ c = c' := by
  constructor
  · intro h
    obtain ⟨hhour, hminute, hsecond, -⟩ := hc.fits
    obtain ⟨hhour', hminute', hsecond', -⟩ := hc'.fits
    unfold timePart at h
    simp only [List.append_assoc] at h
    obtain ⟨hhours, h⟩ := (Bytes.padded_append_inj hhour hhour').1 h
    obtain ⟨hminutes, h⟩ := (Bytes.padded_append_inj hminute hminute').1 (List.append_cancel_left h)
    obtain ⟨hseconds, h⟩ := (Bytes.padded_append_inj hsecond hsecond').1 (List.append_cancel_left h)
    have hmillis := fraction_inj.1 h
    obtain ⟨date, hour, minute, second, milli⟩ := c
    obtain ⟨date', hour', minute', second', milli'⟩ := c'
    rw [WallClock.mk.injEq]
    exact ⟨hdate, hhours, hminutes, hseconds, hmillis⟩
  · intro h
    rw [h]

section NotMem

variable {b : UInt8} {separator : Bytes} (hdigit : Byte.isDigit b = false) (hsign : b ≠ '-'.toUInt8)
  (hseparator : b ∉ separator)
include hdigit hsign hseparator

theorem not_mem_datePart (d : Date) : b ∉ datePart separator d := by
  have hnumber := Bytes.not_mem_padded hdigit hsign
  unfold datePart
  simp only [List.mem_append, not_or]
  exact ⟨⟨⟨⟨hnumber _ _, hseparator⟩, hnumber _ _⟩, hseparator⟩, hnumber _ _⟩

theorem not_mem_timePart (hpoint : b ≠ '.'.toUInt8) (c : WallClock) :
    b ∉ timePart separator c := by
  have hnumber := Bytes.not_mem_padded hdigit hsign
  have hfraction : b ∉ c.fraction := by
    unfold fraction
    split
    · exact List.not_mem_nil
    · rw [List.mem_append, not_or]
      exact ⟨fun hmem => hpoint (List.mem_singleton.1 hmem), hnumber _ _⟩
  unfold timePart
  simp only [List.mem_append, not_or]
  exact ⟨⟨⟨⟨⟨hnumber _ _, hseparator⟩, hnumber _ _⟩, hseparator⟩, hnumber _ _⟩, hfraction⟩

end NotMem

/-- The letter stands nowhere in a date, so it ends the date. -/
theorem dateTime_inj {separator separator' : Bytes} (hseparator : 'T'.toUInt8 ∉ separator)
    {c c' : WallClock} (hc : c.IsValid) (hc' : c'.IsValid) :
    datePart separator c.date ++ "T" ++ timePart separator' c =
      datePart separator c'.date ++ "T" ++ timePart separator' c' ↔ c = c' := by
  constructor
  · intro h
    have hletter : ∀ d, 'T'.toUInt8 ∉ datePart separator d :=
      not_mem_datePart rfl (by decide) hseparator
    have hsplit : ∀ date time : Bytes, date ++ "T" ++ time = date ++ 'T'.toUInt8 :: time :=
      fun date time => List.append_assoc date _ time
    rw [hsplit, hsplit] at h
    obtain ⟨hdates, htimes⟩ := Bytes.append_cons_inj (hletter _) (hletter _) h
    exact (timePart_inj hc hc' ((datePart_inj hc.1 hc'.1).1 hdates)).1 htimes
  · intro h
    rw [h]

theorem length_datePart_le (separator : Bytes) {d : Date} (hd : d.IsValid) (hyear : d.HasWordYear) :
    (datePart separator d).length ≤ 15 + 2 * separator.length := by
  have hwidth : tenTo 10 = 10000000000 := rfl
  obtain ⟨hlow, hhigh⟩ := hyear
  -- Ten digits and a sign hold every year of 32 bits.
  have hlength : (Bytes.padded 4 d.year).length ≤ 10 + 1 :=
    Bytes.length_padded_le (by decide) (by decide) (by omega)
  unfold datePart
  simp only [List.length_append, hd.fits.1.length_padded, hd.fits.2.length_padded]
  omega

theorem length_timePart_le (separator : Bytes) {c : WallClock} (hc : c.IsValid) :
    (timePart separator c).length ≤ 10 + 2 * separator.length := by
  obtain ⟨hhour, hminute, hsecond, hmilli⟩ := hc.fits
  have hfraction : c.fraction.length ≤ 4 := by
    unfold fraction
    split
    · exact Nat.zero_le 4
    · rw [List.length_append, hmilli.length_padded]
      decide
  unfold timePart
  simp only [List.length_append, hhour.length_padded, hminute.length_padded, hsecond.length_padded]
  omega

end WallClock

namespace Instant

open WallClock

theorem compact_inj {t u : Instant} : t.compact = u.compact ↔ t = u := by
  rw [← ofInstant_inj]
  exact dateTime_inj List.not_mem_nil (isValid_ofInstant t) (isValid_ofInstant u)

theorem not_mem_compact {b : UInt8} (hdigit : Byte.isDigit b = false)
    (hb : b ∉ Bytes.ofString "-.T") (t : Instant) : b ∉ t.compact := by
  have hmarks : b ∉ ['-'.toUInt8, '.'.toUInt8, 'T'.toUInt8] := hb
  simp only [List.mem_cons, List.not_mem_nil, or_false, not_or] at hmarks
  obtain ⟨hsign, hpoint, hletter⟩ := hmarks
  unfold compact
  simp only [List.mem_append, not_or]
  exact ⟨⟨not_mem_datePart hdigit hsign List.not_mem_nil _,
    fun hmem => hletter (List.mem_singleton.1 hmem)⟩,
    not_mem_timePart hdigit hsign List.not_mem_nil hpoint _⟩

/-- Every year that an instant can be in leaves room for all the rest. -/
theorem length_dateTime_le (t : Instant) (separator separator' : Bytes) :
    (datePart separator (ofInstant t).date ++ "T" ++ timePart separator' (ofInstant t)).length ≤
      26 + 2 * separator.length + 2 * separator'.length := by
  obtain ⟨d, hd, hword, hday⟩ := t.exists_date
  have hdate := length_datePart_le separator hd hword
  have htime := length_timePart_le separator' (isValid_ofInstant t)
  have hletter : (Bytes.ofString "T").length = 1 := rfl
  rw [date_ofInstant hd hword hday, List.length_append, List.length_append]
  omega

/-- The compact form has room in 32 bytes, the closing zero included. -/
theorem length_compact_lt (t : Instant) : t.compact.length < 32 :=
  Nat.lt_of_le_of_lt (t.length_dateTime_le [] []) (by decide)

end Instant
end StrongMotion
