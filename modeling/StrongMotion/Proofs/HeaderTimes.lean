import StrongMotion.Proofs.HeaderRules
import StrongMotion.Proofs.WallClocks
import StrongMotion.Proofs.WrittenTimes

/-!
# The times of a header

A header writes the years 0 to 9999 and no fractions of a second.  Instants in that range are far
from the ends of the count of milliseconds, so nothing wraps on the way from Japan to UTC, and every
time of a header is a whole second (`Instant.isWholeSecond_ofJapanTime`).
-/

namespace StrongMotion

/-! ## Instants within the range of dates -/

namespace Instant

/-- Milliseconds that no time of a header reaches, though the count of them goes on. -/
def farOff : Int := 1000000000000000

/-- The instant is near enough for the offsets of a header not to wrap. -/
def IsNear (t : Instant) : Prop := -farOff ≤ t.toMillis ∧ t.toMillis ≤ farOff

def IsWholeSecond (t : Instant) : Prop := t.toMillis % 1000 = 0

instance (t : Instant) : Decidable t.IsWholeSecond := by unfold IsWholeSecond; infer_instance

theorem toMillis_ofMillis {n : Int} (hlow : -2 * farOff ≤ n) (hhigh : n ≤ 2 * farOff) :
    (ofMillis n).toMillis = n := by
  unfold farOff at hlow hhigh
  exact toMillis_ofMillis_of_holds (Word.holds64_iff.2 ⟨by omega, by omega⟩)

theorem toMillis_plus {t : Instant} (ht : t.IsNear) {n : Int} (hlow : -farOff ≤ n)
    (hhigh : n ≤ farOff) : (t.plus n).toMillis = t.toMillis + n := by
  obtain ⟨hnear, hnear'⟩ := ht
  exact toMillis_ofMillis (by omega) (by omega)

theorem toMillis_ofJapanTime {t : Instant} (ht : t.IsNear) :
    t.ofJapanTime.toMillis = t.toMillis - 32400000 :=
  toMillis_plus ht (by decide) (by decide)

/-- The record time goes back twice, which no more wraps than going back once. -/
theorem toMillis_beforeTrigger_ofJapanTime {t : Instant} (ht : t.IsNear) :
    t.beforeTrigger.ofJapanTime.toMillis = t.toMillis - 15000 - 32400000 := by
  have htrigger : t.beforeTrigger.toMillis = t.toMillis - 15000 :=
    toMillis_plus ht (by decide) (by decide)
  obtain ⟨hnear, hnear'⟩ := ht
  unfold farOff at hnear hnear'
  have h : (t.beforeTrigger.plus (-japanOffset)).toMillis =
      t.beforeTrigger.toMillis + -japanOffset :=
    toMillis_ofMillis (by rw [htrigger]; unfold farOff japanOffset; omega)
      (by rw [htrigger]; unfold farOff japanOffset; omega)
  unfold ofJapanTime
  rw [h, htrigger]
  rfl

end Instant

/-! ## Written times -/

theorem Date.HasFourDigitYear.hasReachableYear {c : WallClock} (hyear : c.date.HasFourDigitYear) :
    c.HasReachableYear := by
  obtain ⟨hlow, hhigh⟩ := hyear
  exact ⟨by omega, by omega⟩

namespace WallClock

theorem toMillis_toInstant {c : WallClock} (hvalid : c.IsValid)
    (hyear : c.date.HasFourDigitYear) :
    c.toInstant.toMillis = c.date.dayNumber * millisPerDay + c.timeOfDay ∧ c.toInstant.IsNear := by
  have hdays := hvalid.1.dayNumber_bounds hyear.1 hyear.2
  have htime := hvalid.timeOfDay_bounds
  obtain ⟨hlow, hhigh⟩ := hyear
  have hmillis := toMillis_toInstant_of_reachable hvalid ⟨by omega, by omega⟩
  refine ⟨hmillis, ?_⟩
  unfold Date.daysBeforeYear Date.epochDay at hdays
  unfold millisPerDay at htime
  unfold Instant.IsNear
  rw [hmillis]
  unfold Instant.farOff millisPerDay
  omega

theorem isWholeSecond_toInstant {c : WallClock} (hvalid : c.IsValid)
    (hyear : c.date.HasFourDigitYear) (hmilli : c.milli = 0) : c.toInstant.IsWholeSecond := by
  unfold Instant.IsWholeSecond
  rw [(toMillis_toInstant hvalid hyear).1]
  unfold millisPerDay timeOfDay
  omega

/-- A time that a header writes exists, has a year of four digits and no fraction. -/
theorem read?_bounds {s : Bytes} {c : WallClock} (h : read? s = some c) :
    c.IsValid ∧ c.date.HasFourDigitYear ∧ c.milli = 0 := by
  obtain ⟨hvalid, date, time, -, hwritten⟩ := read?_eq_some_iff.1 h
  exact ⟨hvalid, hwritten.date.hasFourDigitYear, hwritten.milli⟩

end WallClock

/-! ## The times of a header -/

theorem HeaderItem.TimeAt.near_and_whole {words : List Bytes} {t : Instant}
    (ht : TimeAt words t) : t.IsNear ∧ t.IsWholeSecond := by
  obtain ⟨date, clock, c, -, -, hread, rfl⟩ := ht
  obtain ⟨hvalid, hyear, hmilli⟩ := WallClock.read?_bounds hread
  exact ⟨(WallClock.toMillis_toInstant hvalid hyear).2,
    WallClock.isWholeSecond_toInstant hvalid hyear hmilli⟩

theorem Instant.isWholeSecond_ofJapanTime {t : Instant} (hnear : t.IsNear)
    (ht : t.IsWholeSecond) : t.ofJapanTime.IsWholeSecond := by
  unfold IsWholeSecond at ht ⊢
  rw [toMillis_ofJapanTime hnear]
  omega

theorem Instant.isWholeSecond_beforeTrigger_ofJapanTime {t : Instant} (hnear : t.IsNear)
    (ht : t.IsWholeSecond) : t.beforeTrigger.ofJapanTime.IsWholeSecond := by
  unfold IsWholeSecond at ht ⊢
  rw [toMillis_beforeTrigger_ofJapanTime hnear]
  omega

end StrongMotion
