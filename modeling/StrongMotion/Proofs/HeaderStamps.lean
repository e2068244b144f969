import StrongMotion.Proofs.HeaderClocks
import StrongMotion.Proofs.Iso8601

/-!
# The stamps of a header's times

The clocks of a header go back by nine hours, and the recorder's by fifteen seconds more.  So the
first clocks of the year 0 mean instants of the year before, whose number has a sign: their stamps
are as long as all others and have another shape (`Header.iso8601_of_read`).
-/

namespace StrongMotion

namespace Instant

open WallClock

/-- The milliseconds at which a year begins. -/
def newYear (year : Int) : Int := (Date.mk year 1 1).dayNumber * millisPerDay

theorem year_lt_iff {t : Instant} {year : Int} :
    (ofInstant t).date.year < year ↔ t.toMillis < newYear year := by
  have hvalid := isValid_ofInstant t
  have hfirst : (Date.mk year 1 1).IsValid :=
    ⟨Int.le_refl 1, (by decide : (1 : Int) ≤ 12), Int.le_refl 1, Date.monthLength_pos year 1⟩
  have hdays := hvalid.1.dayNumber_lt_iff hfirst
  have htime := hvalid.timeOfDay_bounds
  have hbefore : (ofInstant t).date.lt ⟨year, 1, 1⟩ ↔ (ofInstant t).date.year < year := by
    obtain ⟨hmonth, -, hday, -⟩ := hvalid.1
    unfold Date.lt
    dsimp only
    omega
  rw [← hbefore, ← hdays, ← dayNumber_ofInstant t]
  unfold newYear millisPerDay at *
  omega

theorem hasFourDigitYear_iff {t : Instant} :
    t.HasFourDigitYear ↔ newYear 0 ≤ t.toMillis ∧ t.toMillis < newYear 10000 := by
  have hlow : (ofInstant t).date.year < 0 ↔ t.toMillis < newYear 0 := year_lt_iff
  have hhigh : (ofInstant t).date.year < 10000 ↔ t.toMillis < newYear 10000 := year_lt_iff
  unfold HasFourDigitYear Date.HasFourDigitYear
  omega

end Instant

/-- A sign stands where a digit should be. -/
theorem WallClock.not_hasShape_stamp {c : WallClock} (hyear : c.date.year < 0) {pattern : Bytes} :
    ¬Bytes.HasShape (48 :: pattern) c.stamp := by
  intro hshape
  rw [stamp_eq, Bytes.padded_of_neg hyear, List.cons_append] at hshape
  obtain ⟨hsign, -⟩ := List.forall₂_cons.1 hshape
  exact absurd hsign (by decide)

namespace HeaderTime

/-- The first clock that does not go back behind the year 0. -/
def earliest : HeaderTime → WallClock
  | origin | lastCorrection => ⟨⟨0, 1, 1⟩, 9, 0, 0, 0⟩
  | start => ⟨⟨0, 1, 1⟩, 9, 0, 15, 0⟩

theorem isValid_earliest (time : HeaderTime) : time.earliest.IsValid := by
  cases time <;> decide

theorem toMillis_earliest (time : HeaderTime) :
    time.earliest.toInstant.toMillis = Instant.newYear 0 + time.ahead := by
  cases time <;> decide +kernel

namespace Keeps

variable {time : HeaderTime} {h : Header} {c : WallClock} (hc : time.Keeps h c)
include hc

theorem toMillis_bounds :
    Instant.newYear (-1) ≤ (time.instant h).toMillis ∧
      (time.instant h).toMillis < Instant.newYear 10000 := by
  have hclock : c.toInstant.HasFourDigitYear := by
    unfold Instant.HasFourDigitYear
    rw [WallClock.ofInstant_toInstant hc.isValid hc.year.hasReachableYear]
    exact hc.year
  obtain ⟨hlow, hhigh⟩ := Instant.hasFourDigitYear_iff.1 hclock
  have hahead : 0 ≤ time.ahead ∧ Instant.newYear (-1) ≤ Instant.newYear 0 - time.ahead := by
    cases time <;> decide +kernel
  rw [hc.toMillis_eq]
  omega

theorem hasFourDigitYear_iff : (time.instant h).HasFourDigitYear ↔ ¬c.lt time.earliest := by
  have hearliest : time.earliest.HasReachableYear := by cases time <;> decide
  have horder := WallClock.toMillis_toInstant_lt_iff hc.isValid time.isValid_earliest
    hc.year.hasReachableYear hearliest
  have hbounds := hc.toMillis_bounds
  rw [Instant.hasFourDigitYear_iff, ← horder, time.toMillis_earliest]
  have hmillis := hc.toMillis_eq
  omega

theorem year_eq_of_not_hasFourDigitYear (hyear : ¬(time.instant h).HasFourDigitYear) :
    (WallClock.ofInstant (time.instant h)).date.year = -1 := by
  have hbounds := hc.toMillis_bounds
  have hlow : ¬(WallClock.ofInstant (time.instant h)).date.year < -1 := by
    rw [Instant.year_lt_iff]
    omega
  have hhigh : (WallClock.ofInstant (time.instant h)).date.year < 10000 := by
    rw [Instant.year_lt_iff]
    omega
  unfold Instant.HasFourDigitYear Date.HasFourDigitYear at hyear
  omega

/-- The year before the year 0 has three digits behind its sign. -/
theorem length_year :
    (Bytes.padded 4 (WallClock.ofInstant (time.instant h)).date.year).length = 4 := by
  by_cases hyear : (time.instant h).HasFourDigitYear
  · exact (Date.HasFourDigitYear.fits hyear).length_padded
  · rw [hc.year_eq_of_not_hasFourDigitYear hyear]
    decide

theorem isWholeSecond (hmilli : c.milli = 0) : (time.instant h).IsWholeSecond := by
  have hwhole := WallClock.isWholeSecond_toInstant hc.isValid hc.year hmilli
  have hahead : time.ahead % 1000 = 0 := by cases time <;> rfl
  unfold Instant.IsWholeSecond at hwhole ⊢
  rw [hc.toMillis_eq]
  omega

end Keeps
end HeaderTime

namespace Header

/-- The stamp of each time of a header has 20 bytes.  It has the shape of the standard just when the
written clock does not go back behind the year 0, and then the time is read back from its
columns. -/
theorem iso8601_of_read {o : ReadOptions} {lines : List Bytes} {h : Header}
    (hread : read o lines = .ok h) (time : HeaderTime) :
    ∃ c, time.WrittenIn lines c ∧ (time.instant h).iso8601.length = 20 ∧
      (Bytes.HasShape "0000-00-00T00:00:00Z" (time.instant h).iso8601 ↔ ¬c.lt time.earliest) ∧
      (¬c.lt time.earliest →
        (WallClock.ofColumns (time.instant h).iso8601).toInstant = time.instant h) := by
  obtain ⟨c, hwritten, hkeeps⟩ := HeaderTime.exists_keeps_of_read hread time
  have hvalid := WallClock.isValid_ofInstant (time.instant h)
  have hmilli := Instant.milli_ofInstant_eq_zero_iff.2 (hkeeps.isWholeSecond hwritten.milli)
  refine ⟨c, hwritten, ?_, ?_, fun hc => ?_⟩
  · rw [Instant.iso8601_eq, WallClock.length_stamp hvalid hkeeps.length_year, if_pos hmilli]
  · rw [← hkeeps.hasFourDigitYear_iff, Instant.iso8601_eq]
    constructor
    · intro hshape
      by_contra hyear
      have hneg := hkeeps.year_eq_of_not_hasFourDigitYear hyear
      exact WallClock.not_hasShape_stamp (by omega) hshape
    · intro hyear
      have hshape := WallClock.hasShape_stamp hvalid hyear
      rwa [WallClock.stampShape, if_pos hmilli] at hshape
  · have hyear := hkeeps.hasFourDigitYear_iff.2 hc
    rw [Instant.iso8601_eq, WallClock.ofColumns_stamp hvalid hyear, WallClock.toInstant_ofInstant]

/-- A recording that began on the leap day of 2012, and the last second that a header can write. -/
theorem iso8601_of_read_leapDayHeader :
    ∃ h, read {} leapDayHeader = .ok h ∧
      Bytes.HasShape "0000-00-00T00:00:00Z" h.recording.start.iso8601 ∧
      (WallClock.ofColumns h.recording.start.iso8601).toInstant = h.recording.start ∧
      h.recording.lastCorrection.iso8601.length = 20 := by
  obtain ⟨h, hread⟩ := exists_read_leapDayHeader
  obtain ⟨c, hwritten, -, hshape, hback⟩ := iso8601_of_read hread .start
  obtain ⟨-, -, hlength, -⟩ := iso8601_of_read hread .lastCorrection
  obtain rfl := hwritten.unique start_writtenIn_leapDayHeader
  have hlate : ¬(WallClock.mk ⟨2012, 3, 1⟩ 0 0 5 0).lt HeaderTime.start.earliest := by
    simp [WallClock.lt, Date.lt, HeaderTime.earliest]
  exact ⟨h, hread, hshape.2 hlate, hback hlate, hlength⟩

/-- Midnight in Japan at the beginning of the year 0 lies in the year before. -/
theorem iso8601_of_read_not_hasShape :
    ∃ h, read {} leapDayHeader = .ok h ∧ h.event.origin.iso8601 = "-001-12-31T15:00:00Z" ∧
      ¬Bytes.HasShape "0000-00-00T00:00:00Z" h.event.origin.iso8601 := by
  have horigin : (read {} leapDayHeader).map (fun h => h.event.origin.iso8601) =
      .ok "-001-12-31T15:00:00Z" := by decide +kernel
  obtain ⟨h, hread⟩ := exists_read_leapDayHeader
  rw [hread] at horigin
  have hstamp : h.event.origin.iso8601 = "-001-12-31T15:00:00Z" := Except.ok.inj horigin
  refine ⟨h, hread, hstamp, fun hshape => ?_⟩
  rw [hstamp] at hshape
  obtain ⟨hsign, -⟩ := List.forall₂_cons.1 hshape
  exact absurd hsign (by decide)

end Header
end StrongMotion
