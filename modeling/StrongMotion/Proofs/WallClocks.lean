import StrongMotion.Proofs.CheckedTime

/-!
# Instants and what clocks show

Every instant is one that a clock shows, and the clock gives it back.  Clocks whose years no instant
falls short of come back from their instants, which are ordered as they are.  On the way in either
direction no machine word overflows, save within the first day of all
(`WallClock.ofInstant_inverse`).
-/

namespace StrongMotion

/-- The date of every instant is one with a year of 32 bits. -/
theorem Instant.exists_date (t : Instant) :
    ∃ d : Date, d.IsValid ∧ d.HasWordYear ∧ t.toMillis / millisPerDay = d.dayNumber := by
  have hfirst : Date.firstDate.dayNumber = -784353015833 := by decide
  have hlast : Date.lastDate.dayNumber = 784351576776 := by decide
  have hbounds := t.toMillis_bounds
  obtain ⟨d, hd, hday⟩ := Date.exists_dayNumber_eq (t.toMillis / millisPerDay)
  unfold millisPerDay at hday ⊢
  exact ⟨d, hd, hd.hasWordYear (by omega) (by omega), hday.symm⟩

theorem Instant.toMillis_ofMillis_of_holds {n : Int} (hn : Word.bits64.Holds n) :
    (ofMillis n).toMillis = n := by
  obtain ⟨hlow, hhigh⟩ := Word.holds64_iff.1 hn
  exact Int64.toInt_ofInt_of_le (by omega) (by omega)

theorem Instant.ofMillis_toMillis (t : Instant) : ofMillis t.toMillis = t :=
  congrArg Instant.mk (Int64.ofInt_toInt t.millis)

theorem Instant.toMillis_inj {s t : Instant} : s.toMillis = t.toMillis ↔ s = t := by
  constructor
  · intro h
    rw [← s.ofMillis_toMillis, h, t.ofMillis_toMillis]
  · intro h
    rw [h]

namespace WallClock

/-- The order of clocks: by the date, then by the hour, the minute, the second and the
millisecond. -/
def lt (a b : WallClock) : Prop :=
  a.date.lt b.date ∨
    (a.date = b.date ∧ (a.hour < b.hour ∨
      (a.hour = b.hour ∧ (a.minute < b.minute ∨
        (a.minute = b.minute ∧ (a.second < b.second ∨
          (a.second = b.second ∧ a.milli < b.milli)))))))

/-! ## From an instant -/

theorem date_ofInstant {t : Instant} {d : Date} (hd : d.IsValid) (hword : d.HasWordYear)
    (hday : t.toMillis / millisPerDay = d.dayNumber) : (ofInstant t).date = d := by
  show Date.ofDayNumber (t.toMillis / millisPerDay) = d
  rw [hday, hd.ofDayNumber_dayNumber hword]

theorem timeOfDay_ofInstant (t : Instant) :
    (ofInstant t).timeOfDay = t.toMillis % millisPerDay := by
  have hlow : 0 ≤ t.toMillis % millisPerDay := Int.emod_nonneg _ (by decide)
  unfold timeOfDay ofInstant
  dsimp only
  omega

theorem isValid_ofInstant (t : Instant) : (ofInstant t).IsValid := by
  obtain ⟨d, hd, hword, hday⟩ := t.exists_date
  have hlow : 0 ≤ t.toMillis % millisPerDay := Int.emod_nonneg _ (by decide)
  have hhigh : t.toMillis % millisPerDay < 86400000 := Int.emod_lt_of_pos _ (by decide)
  have hdate : (ofInstant t).date.IsValid := by
    rw [date_ofInstant hd hword hday]
    exact hd
  refine ⟨hdate, ?_⟩
  unfold ofInstant
  dsimp only
  omega

/-- The days before and the time of day make up the instant. -/
theorem dayNumber_ofInstant (t : Instant) :
    (ofInstant t).date.dayNumber * millisPerDay + (ofInstant t).timeOfDay = t.toMillis := by
  obtain ⟨d, hd, hword, hday⟩ := t.exists_date
  rw [date_ofInstant hd hword hday, timeOfDay_ofInstant, ← hday]
  exact Int.ediv_mul_add_emod _ _

theorem toInstant_ofInstant (t : Instant) : (ofInstant t).toInstant = t := by
  unfold toInstant
  rw [dayNumber_ofInstant, Instant.ofMillis_toMillis]

theorem ofInstant_inj {t u : Instant} : ofInstant t = ofInstant u ↔ t = u := by
  constructor
  · intro h
    rw [← toInstant_ofInstant t, h, toInstant_ofInstant u]
  · intro h
    rw [h]

/-- In the first day of all, midnight is no instant. -/
theorem ofInstant_toInstant?_eq {t : Instant}
    (ht : -9223372036854775808 + millisPerDay ≤ t.toMillis) :
    ofInstant? t = some (ofInstant t) ∧ toInstant? (ofInstant t) = some t := by
  obtain ⟨d, hd, hword, hday⟩ := t.exists_date
  have hvalid := isValid_ofInstant t
  have hbounds := t.toMillis_bounds
  have htime := hvalid.timeOfDay_bounds
  have hsum := dayNumber_ofInstant t
  refine ⟨ofInstant?_eq hd hword hday, ?_⟩
  rw [hvalid.toInstant?_eq (by rw [date_ofInstant hd hword hday]; exact hword) (by omega)
    (by omega), toInstant_ofInstant]

/-! ## From a clock -/

/-- The year is one that instants reach, with some to spare. -/
def HasReachableYear (c : WallClock) : Prop := -290000000 ≤ c.date.year ∧ c.date.year ≤ 290000000

instance (c : WallClock) : Decidable c.HasReachableYear := by
  unfold HasReachableYear
  infer_instance

theorem HasReachableYear.hasWordYear {c : WallClock} (hyear : c.HasReachableYear) :
    c.date.HasWordYear := by
  obtain ⟨hlow, hhigh⟩ := hyear
  exact ⟨by omega, by omega⟩

section

variable {c : WallClock} (hc : c.IsValid) (hyear : c.HasReachableYear)
include hc hyear

theorem dayNumber_bounds_of_reachable :
    -106000000000 ≤ c.date.dayNumber ∧ c.date.dayNumber ≤ 106000000000 := by
  have hdays := hc.1.dayNumber_bounds hyear.1 hyear.2
  unfold Date.daysBeforeYear Date.epochDay at hdays
  omega

theorem toMillis_toInstant_of_reachable :
    c.toInstant.toMillis = c.date.dayNumber * millisPerDay + c.timeOfDay := by
  have hdays := dayNumber_bounds_of_reachable hc hyear
  have htime := hc.timeOfDay_bounds
  unfold millisPerDay at htime
  refine Instant.toMillis_ofMillis_of_holds (Word.holds64_iff.2 ?_)
  unfold millisPerDay
  omega

theorem toInstant?_eq_of_reachable : c.toInstant? = some c.toInstant := by
  have hdays := dayNumber_bounds_of_reachable hc hyear
  have htime := hc.timeOfDay_bounds
  unfold millisPerDay at htime
  exact hc.toInstant?_eq hyear.hasWordYear (by unfold millisPerDay; omega)
    (by unfold millisPerDay; omega)

theorem ofInstant_toInstant : ofInstant c.toInstant = c := by
  have hmillis := toMillis_toInstant_of_reachable hc hyear
  obtain ⟨htime, htime'⟩ := hc.timeOfDay_bounds
  have hday : c.toInstant.toMillis / millisPerDay = c.date.dayNumber := by
    unfold millisPerDay at *
    omega
  have hrest : c.toInstant.toMillis % millisPerDay = c.timeOfDay := by
    unfold millisPerDay at *
    omega
  have hdate : (ofInstant c.toInstant).date = c.date :=
    date_ofInstant hc.1 hyear.hasWordYear hday
  have hclock : ofInstant c.toInstant =
      { date := (ofInstant c.toInstant).date
        hour := c.timeOfDay / 3600000
        minute := c.timeOfDay / 60000 % 60
        second := c.timeOfDay / 1000 % 60
        milli := c.timeOfDay % 1000 } := by
    rw [← hrest]
    rfl
  obtain ⟨-, hhour, hminute, hsecond, hmilli⟩ := hc
  rw [hclock, hdate]
  obtain ⟨date, hour, minute, second, milli⟩ := c
  dsimp only at hhour hminute hsecond hmilli
  simp only [timeOfDay, WallClock.mk.injEq]
  exact ⟨trivial, by omega⟩

end

theorem timeOfDay_lt_iff {a b : WallClock} (ha : a.IsValid) (hb : b.IsValid) :
    a.timeOfDay < b.timeOfDay ↔
      a.hour < b.hour ∨ a.hour = b.hour ∧ (a.minute < b.minute ∨
        a.minute = b.minute ∧ (a.second < b.second ∨ a.second = b.second ∧ a.milli < b.milli)) := by
  obtain ⟨-, hhour, hminute, hsecond, hmilli⟩ := ha
  obtain ⟨-, hhour', hminute', hsecond', hmilli'⟩ := hb
  unfold timeOfDay
  omega

/-- Clocks are ordered as their instants are. -/
theorem toMillis_toInstant_lt_iff {a b : WallClock} (ha : a.IsValid) (hb : b.IsValid)
    (hyear : a.HasReachableYear) (hyear' : b.HasReachableYear) :
    a.toInstant.toMillis < b.toInstant.toMillis ↔ a.lt b := by
  have hdays := ha.1.dayNumber_lt_iff hb.1
  have hdays' := hb.1.dayNumber_lt_iff ha.1
  have htime := ha.timeOfDay_bounds
  have htime' := hb.timeOfDay_bounds
  rw [toMillis_toInstant_of_reachable ha hyear, toMillis_toInstant_of_reachable hb hyear']
  unfold millisPerDay at *
  rcases Date.lt_or_eq_or_lt a.date b.date with hlt | heq | hgt
  · have hday := hdays.2 hlt
    exact ⟨fun _ => Or.inl hlt, fun _ => by omega⟩
  · -- On one day the times of day decide.
    have hsame : a.date.dayNumber = b.date.dayNumber := by rw [heq]
    have hnot : ¬a.date.lt b.date := by
      rw [← hdays]
      omega
    rw [lt, or_iff_right hnot, ← timeOfDay_lt_iff ha hb, and_iff_right heq]
    omega
  · have hday := hdays'.2 hgt
    have hnot : ¬a.lt b := by
      rintro (hlt | ⟨heq, -⟩)
      · exact absurd (hdays.2 hlt) (by omega)
      · rw [heq] at hday
        exact Int.lt_irrefl _ hday
    exact ⟨fun _ => by omega, fun h => absurd h hnot⟩

/-- Every instant from the second day of all on comes back from the clock that shows it, and every
clock with a reachable year from its instant.  Nothing overflows on the way, and the instants are in
the order of the clocks. -/
theorem ofInstant_inverse :
    (∀ t : Instant, -9223372036854775808 + 86400000 ≤ t.toMillis →
      (ofInstant t).IsValid ∧ (ofInstant t).toInstant = t ∧
        ofInstant? t = some (ofInstant t) ∧ toInstant? (ofInstant t) = some t) ∧
    (∀ c : WallClock, c.IsValid → c.HasReachableYear →
      ofInstant c.toInstant = c ∧ toInstant? c = some c.toInstant) ∧
    ∀ a b : WallClock, a.IsValid → b.IsValid → a.HasReachableYear → b.HasReachableYear →
      (a.toInstant.toMillis < b.toInstant.toMillis ↔ a.lt b) := by
  refine ⟨fun t ht => ?_, fun c hc hyear => ?_, fun a b ha hb hyear hyear' => ?_⟩
  · exact ⟨isValid_ofInstant t, toInstant_ofInstant t, ofInstant_toInstant?_eq ht⟩
  · exact ⟨ofInstant_toInstant hc hyear, toInstant?_eq_of_reachable hc hyear⟩
  · exact toMillis_toInstant_lt_iff ha hb hyear hyear'

/-- The millisecond before 1970, a clock before the year 0 and the two milliseconds around a leap
day's end. -/
theorem ofInstant_inverse_early :
    (ofInstant (.ofMillis (-1))).toInstant = .ofMillis (-1) ∧
      toInstant? (ofInstant (.ofMillis (-1))) = some (.ofMillis (-1)) ∧
      ofInstant (WallClock.mk ⟨-400, 2, 29⟩ 23 59 59 999).toInstant =
        ⟨⟨-400, 2, 29⟩, 23, 59, 59, 999⟩ ∧
      ((WallClock.mk ⟨2000, 2, 29⟩ 23 59 59 999).toInstant.toMillis <
          (WallClock.mk ⟨2000, 3, 1⟩ 0 0 0 0).toInstant.toMillis ↔
        (WallClock.mk ⟨2000, 2, 29⟩ 23 59 59 999).lt ⟨⟨2000, 3, 1⟩, 0, 0, 0, 0⟩) := by
  obtain ⟨hinstant, hclock, horder⟩ := ofInstant_inverse
  have hbefore := hinstant (.ofMillis (-1)) (by decide)
  exact ⟨hbefore.2.1, hbefore.2.2.2, (hclock _ (by decide) (by decide)).1,
    horder _ _ (by decide) (by decide) (by decide) (by decide)⟩

/-- In the first day of all the way back from a clock overflows. -/
example : toInstant? (ofInstant (.ofMillis (-9223372036854775808))) = none := by decide +kernel

end WallClock
end StrongMotion
