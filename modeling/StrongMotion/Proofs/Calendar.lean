import StrongMotion.Time.Date

/-!
# Dates and the numbers of days

Counted from the first of March on, a date is a year, the days before it and the day in that year,
and an era is four centuries of 25 times four years.  Dates and day numbers are then two sides of
one count: each is computed back from the other (`Date.IsValid.ofDayNumber_dayNumber`,
`Date.isValid_ofDayNumber`), later dates have greater numbers (`Date.IsValid.dayNumber_lt_iff`), and
the next day has the next number (`Date.IsValid.dayNumber_next`).
-/

namespace StrongMotion
namespace Date

/-! ## Years that begin in March -/

/-- The days from the first of March of the year 0 to the first of March of `year`. -/
def daysBeforeYear (year : Int) : Int := 365 * year + year / 4 - year / 100 + year / 400

/-- The days from the first of March of `year` to the last of February. -/
def yearLength (year : Int) : Int := daysBeforeYear (year + 1) - daysBeforeYear year

theorem isLeap_iff {year : Int} :
    isLeap year = true ↔ year % 4 = 0 ∧ year % 100 ≠ 0 ∨ year % 400 = 0 := by
  simp [isLeap]

/-- The leap day is the last day of its year. -/
theorem yearLength_eq (year : Int) :
    yearLength year = if isLeap (year + 1) then 366 else 365 := by
  unfold yearLength daysBeforeYear
  split
  · next hleap =>
    rw [isLeap_iff] at hleap
    omega
  · next hleap =>
    rw [isLeap_iff] at hleap
    omega

theorem yearLength_bounds (year : Int) : 365 ≤ yearLength year ∧ yearLength year ≤ 366 := by
  rw [yearLength_eq]
  split <;> omega

theorem daysBeforeYear_add_yearLength_le {a b : Int} (h : a < b) :
    daysBeforeYear a + yearLength a ≤ daysBeforeYear b := by
  unfold yearLength daysBeforeYear
  omega

/-! ## Days of an era -/

/-- A day of an era by the century, the four years, the year and the day in it, each counted from
zero.  The last of four years has a day 365, save at the end of a century that is not the last. -/
structure IsPlace (century four year day : Int) : Prop where
  century_bounds : 0 ≤ century ∧ century ≤ 3
  four_bounds : 0 ≤ four ∧ four ≤ 24
  year_bounds : 0 ≤ year ∧ year ≤ 3
  day_bounds : 0 ≤ day ∧ day ≤ 365
  leap : day = 365 → year = 3 ∧ (four = 24 → century = 3)

theorem exists_place {dayOfEra : Int} (hlow : 0 ≤ dayOfEra) (hhigh : dayOfEra < daysPerEra) :
    ∃ century four year day, IsPlace century four year day ∧
      dayOfEra = 36524 * century + 1461 * four + 365 * year + day := by
  unfold daysPerEra at hhigh
  -- Only a last part is a day longer than the others, so that day alone is not found by division.
  obtain ⟨c, z, hc, hc', hz, hz', hcentury⟩ : ∃ c z, 0 ≤ c ∧ c ≤ 3 ∧ 0 ≤ z ∧
      (z < 36524 ∨ z = 36524 ∧ c = 3) ∧ dayOfEra = 36524 * c + z := by
    by_cases hlast : dayOfEra = 146096
    · exact ⟨3, 36524, by omega⟩
    · exact ⟨dayOfEra / 36524, dayOfEra % 36524, by omega⟩
  obtain ⟨k, r, hk, hk', hr, hr', hyear⟩ : ∃ k r, 0 ≤ k ∧ k ≤ 3 ∧ 0 ≤ r ∧
      (r < 365 ∨ r = 365 ∧ k = 3) ∧ z % 1461 = 365 * k + r := by
    by_cases hlast : z % 1461 = 1460
    · exact ⟨3, 365, by omega⟩
    · exact ⟨z % 1461 / 365, z % 1461 % 365, by omega⟩
  exact ⟨c, z / 1461, k, r, ⟨by omega, by omega, by omega, by omega, by omega⟩, by omega⟩

theorem isPlace_of_lt_yearLength {year day : Int} (hlow : 0 ≤ day) (hhigh : day < yearLength year) :
    IsPlace (year % 400 / 100) (year % 100 / 4) (year % 4) day := by
  rw [yearLength_eq] at hhigh
  refine ⟨by omega, by omega, by omega, ?_, ?_⟩
  · split at hhigh <;> omega
  · intro hday
    split at hhigh
    · next hleap =>
      rw [isLeap_iff] at hleap
      omega
    · omega

namespace IsPlace

variable {century four year day : Int}

theorem daysBeforeYear_eq (h : IsPlace century four year day) (era : Int) :
    daysBeforeYear (400 * era + 100 * century + 4 * four + year) =
      daysPerEra * era + 36524 * century + 1461 * four + 365 * year := by
  obtain ⟨hcentury, hfour, hyear, -, -⟩ := h
  unfold daysBeforeYear daysPerEra
  omega

theorem lt_yearLength (h : IsPlace century four year day) (era : Int) :
    day < yearLength (400 * era + 100 * century + 4 * four + year) := by
  obtain ⟨hcentury, hfour, hyear, hday, hleap⟩ := h
  unfold yearLength daysBeforeYear
  omega

end IsPlace

/-- The year of an era in which a day of it lies. -/
def yearOfEra (dayOfEra : Int) : Int :=
  (dayOfEra - dayOfEra / 1460 + dayOfEra / 36524 - dayOfEra / 146096) / 365

theorem IsPlace.yearOfEra_eq {century four year day : Int} (h : IsPlace century four year day) :
    yearOfEra (36524 * century + 1461 * four + 365 * year + day) =
      100 * century + 4 * four + year := by
  obtain ⟨hcentury, hfour, hyear, hday, hleap⟩ := h
  generalize hn : 36524 * century + 1461 * four + 365 * year + day = n
  unfold yearOfEra
  -- The century is counted once too often on the last day of an era, and only there.
  have hcenturies : n / 36524 - n / 146096 = century := by
    have hwithin : n < 36524 * (century + 1) ∨ n = 146096 ∧ century = 3 := by omega
    rcases hwithin with hwithin | ⟨rfl, rfl⟩
    · have hcount : n / 36524 = century := by omega
      have hnone : n / 146096 = 0 := by omega
      omega
    · rfl
  -- Every four years have 1460 days and a leap day, which the quotient takes away.
  have hleapDays : n / 1460 = 25 * century + four ∨
      n / 1460 = 25 * century + four + 1 ∧ year = 3 ∧ 1 ≤ day := by omega
  have hlast : day = 365 → n / 1460 = 25 * century + four + 1 := by omega
  omega

theorem exists_year (n : Int) :
    ∃ year day, 0 ≤ day ∧ day < yearLength year ∧ n = daysBeforeYear year + day := by
  obtain ⟨c, q, k, r, hplace, hday⟩ :=
    exists_place (Int.emod_nonneg n (by decide)) (Int.emod_lt_of_pos n (by decide : 0 < daysPerEra))
  refine ⟨400 * (n / daysPerEra) + 100 * c + 4 * q + k, r, hplace.day_bounds.1,
    hplace.lt_yearLength _, ?_⟩
  have hsum := Int.mul_ediv_add_emod n daysPerEra
  rw [hplace.daysBeforeYear_eq]
  omega

/-- The days of an era before a year of it. -/
def daysInEra (yearOfEra : Int) : Int := 365 * yearOfEra + yearOfEra / 4 - yearOfEra / 100

theorem daysBeforeYear_eq (year : Int) :
    daysBeforeYear year = daysInEra (year % 400) + daysPerEra * (year / 400) := by
  unfold daysBeforeYear daysInEra daysPerEra
  omega

section

variable {year dayOfYear : Int} (hlow : 0 ≤ dayOfYear) (hhigh : dayOfYear < yearLength year)
include hlow hhigh

theorem dayOfEra_bounds :
    0 ≤ daysInEra (year % 400) + dayOfYear ∧ daysInEra (year % 400) + dayOfYear < daysPerEra := by
  rw [yearLength_eq] at hhigh
  unfold daysInEra daysPerEra
  split at hhigh
  · omega
  · omega

theorem yearOfEra_daysInEra_add : yearOfEra (daysInEra (year % 400) + dayOfYear) = year % 400 := by
  have hplace := isPlace_of_lt_yearLength hlow hhigh
  have hyear : 100 * (year % 400 / 100) + 4 * (year % 100 / 4) + year % 4 = year % 400 := by omega
  have hdays : daysInEra (year % 400) =
      36524 * (year % 400 / 100) + 1461 * (year % 100 / 4) + 365 * (year % 4) := by
    unfold daysInEra
    omega
  rw [hdays, hplace.yearOfEra_eq, hyear]

theorem ediv_daysPerEra : (daysBeforeYear year + dayOfYear) / daysPerEra = year / 400 := by
  obtain ⟨hfirst, hlast⟩ := dayOfEra_bounds hlow hhigh
  rw [daysBeforeYear_eq, Int.add_right_comm, Int.add_mul_ediv_left _ _ (by decide),
    Int.ediv_eq_zero_of_lt hfirst hlast, Int.zero_add]

theorem emod_daysPerEra :
    (daysBeforeYear year + dayOfYear) % daysPerEra = daysInEra (year % 400) + dayOfYear := by
  obtain ⟨hfirst, hlast⟩ := dayOfEra_bounds hlow hhigh
  rw [daysBeforeYear_eq, Int.add_right_comm, Int.add_mul_emod_self_left,
    Int.emod_eq_of_lt hfirst hlast]

end

/-! ## Months -/

/-- The number of a month, counted from March on. -/
def monthsAfterMarch (month : Int) : Int := if month > 2 then month - 3 else month + 9

theorem daysBeforeMonth_eq {m : Int} (hm : 0 ≤ m) : daysBeforeMonth m = (153 * m + 2) / 5 :=
  Int.tdiv_eq_ediv_of_nonneg (by omega)

theorem monthsAfterMarch_bounds {month : Int} (hlow : 1 ≤ month) (hhigh : month ≤ 12) :
    0 ≤ monthsAfterMarch month ∧ monthsAfterMarch month ≤ 11 := by
  unfold monthsAfterMarch
  split <;> omega

/-- A month ends where the next one begins, and February with its year. -/
theorem daysBeforeMonth_add_monthLength {month : Int} (hlow : 1 ≤ month) (hhigh : month ≤ 12)
    (year : Int) :
    daysBeforeMonth (monthsAfterMarch month) + monthLength year month =
      if month = 2 then yearLength (year - 1)
      else daysBeforeMonth (monthsAfterMarch month + 1) := by
  by_cases hfebruary : month = 2
  · subst hfebruary
    have hbefore : daysBeforeMonth (monthsAfterMarch 2) = 337 := rfl
    rw [if_pos rfl, yearLength_eq, Int.sub_add_cancel, hbefore, monthLength, if_pos rfl]
    split <;> rfl
  · rw [if_neg hfebruary, monthLength, if_neg hfebruary]
    have hmonth : month = 1 ∨ month = 3 ∨ month = 4 ∨ month = 5 ∨ month = 6 ∨ month = 7 ∨
        month = 8 ∨ month = 9 ∨ month = 10 ∨ month = 11 ∨ month = 12 := by omega
    rcases hmonth with rfl | rfl | rfl | rfl | rfl | rfl | rfl | rfl | rfl | rfl | rfl <;> rfl

/-- The month is the one in which a day of the year lies. -/
theorem month_of_dayOfYear {m dayOfYear : Int} (hm : 0 ≤ m) (hlow : daysBeforeMonth m ≤ dayOfYear)
    (hhigh : dayOfYear < daysBeforeMonth (m + 1)) : (5 * dayOfYear + 2) / 153 = m := by
  rw [daysBeforeMonth_eq hm] at hlow
  rw [daysBeforeMonth_eq (by omega)] at hhigh
  omega

/-! ## Dates -/

/-- The year, counted from March on, in which the date lies. -/
def marchYear (d : Date) : Int := if d.month ≤ 2 then d.year - 1 else d.year

/-- The days from the first of March before the date. -/
def dayOfYear (d : Date) : Int := daysBeforeMonth (monthsAfterMarch d.month) + d.day - 1

theorem dayNumber_eq (d : Date) :
    d.dayNumber = daysBeforeYear d.marchYear + d.dayOfYear - epochDay := by
  unfold dayNumber dayOfYear monthsAfterMarch daysBeforeYear daysPerEra marchYear
  dsimp only
  omega

theorem IsValid.dayOfYear_bounds {d : Date} (hd : d.IsValid) :
    daysBeforeMonth (monthsAfterMarch d.month) ≤ d.dayOfYear ∧
      d.dayOfYear < daysBeforeMonth (monthsAfterMarch d.month + 1) ∧
      0 ≤ d.dayOfYear ∧ d.dayOfYear < yearLength d.marchYear := by
  obtain ⟨hmonth, hmonth', hday, hday'⟩ := hd
  have hend := daysBeforeMonth_add_monthLength hmonth hmonth' d.year
  obtain ⟨hm, hm'⟩ := monthsAfterMarch_bounds hmonth hmonth'
  have hlength := yearLength_bounds d.marchYear
  have hbefore := daysBeforeMonth_eq hm
  have hafter := daysBeforeMonth_eq (m := monthsAfterMarch d.month + 1) (by omega)
  unfold dayOfYear
  by_cases hfebruary : d.month = 2
  · have hyear : d.marchYear = d.year - 1 := if_pos (by omega)
    have heleven : monthsAfterMarch d.month = 11 := by rw [hfebruary]; rfl
    rw [if_pos hfebruary, ← hyear] at hend
    omega
  · have hten : monthsAfterMarch d.month ≤ 10 := by
      unfold monthsAfterMarch
      split <;> omega
    rw [if_neg hfebruary] at hend
    omega

theorem marchYear_bounds (d : Date) : d.year - 1 ≤ d.marchYear ∧ d.marchYear ≤ d.year := by
  unfold marchYear
  split <;> omega

/-- The days of some years are those from the March before them to the March after. -/
theorem IsValid.dayNumber_bounds {d : Date} (hd : d.IsValid) {first last : Int}
    (hfirst : first ≤ d.year) (hlast : d.year ≤ last) :
    daysBeforeYear (first - 1) - epochDay ≤ d.dayNumber ∧
      d.dayNumber < daysBeforeYear (last + 1) - epochDay := by
  obtain ⟨-, -, hday, hday'⟩ := hd.dayOfYear_bounds
  have hyear := d.marchYear_bounds
  have hend := daysBeforeYear_add_yearLength_le (Int.lt_add_one_of_le (Int.le_trans hyear.2 hlast))
  have hbegin : daysBeforeYear (first - 1) ≤ daysBeforeYear d.marchYear := by
    unfold daysBeforeYear
    omega
  rw [dayNumber_eq]
  omega

/-- The month with a number that is counted from March on. -/
def monthOfYear (monthsAfterMarch : Int) : Int :=
  if monthsAfterMarch < 10 then monthsAfterMarch + 3 else monthsAfterMarch - 9

theorem monthOfYear_monthsAfterMarch {month : Int} (hlow : 1 ≤ month) (hhigh : month ≤ 12) :
    monthOfYear (monthsAfterMarch month) = month := by
  unfold monthOfYear monthsAfterMarch
  omega

theorem monthsAfterMarch_monthOfYear {m : Int} (hlow : 0 ≤ m) (hhigh : m ≤ 11) :
    monthsAfterMarch (monthOfYear m) = m := by
  unfold monthOfYear monthsAfterMarch
  omega

/-- The date of a day of the year that begins in March of `year`. -/
def ofDayOfYear (year dayOfYear : Int) : Date :=
  let monthsAfterMarch := (5 * dayOfYear + 2) / 153
  { year := year + if monthOfYear monthsAfterMarch ≤ 2 then 1 else 0
    month := monthOfYear monthsAfterMarch
    day := dayOfYear - daysBeforeMonth monthsAfterMarch + 1 }

theorem IsValid.ofDayOfYear_eq {d : Date} (hd : d.IsValid) :
    ofDayOfYear d.marchYear d.dayOfYear = d := by
  obtain ⟨hlow, hhigh, -, -⟩ := hd.dayOfYear_bounds
  obtain ⟨hmonth, hmonth', -, -⟩ := hd
  have hm := monthsAfterMarch_bounds hmonth hmonth'
  unfold ofDayOfYear
  dsimp only
  rw [month_of_dayOfYear hm.1 hlow hhigh, monthOfYear_monthsAfterMarch hmonth hmonth']
  obtain ⟨year, month, day⟩ := d
  simp only [marchYear, dayOfYear, Date.mk.injEq]
  refine ⟨?_, trivial, by omega⟩
  split <;> omega

theorem ofDayOfYear_isValid {year dayOfYear : Int} (hlow : 0 ≤ dayOfYear)
    (hhigh : dayOfYear < yearLength year) :
    (ofDayOfYear year dayOfYear).IsValid ∧ (ofDayOfYear year dayOfYear).marchYear = year ∧
      (ofDayOfYear year dayOfYear).dayOfYear = dayOfYear := by
  have hlength := yearLength_bounds year
  generalize hm : (5 * dayOfYear + 2) / 153 = m
  have hm' : 0 ≤ m ∧ m ≤ 11 := by omega
  have hbefore := daysBeforeMonth_eq hm'.1
  have hafter := daysBeforeMonth_eq (m := m + 1) (by omega)
  have hmonth : 1 ≤ monthOfYear m ∧ monthOfYear m ≤ 12 := by
    unfold monthOfYear
    omega
  have hback := monthsAfterMarch_monthOfYear hm'.1 hm'.2
  have hend := daysBeforeMonth_add_monthLength hmonth.1 hmonth.2
    (year + if monthOfYear m ≤ 2 then 1 else 0)
  rw [hback] at hend
  have hyear : (ofDayOfYear year dayOfYear).marchYear = year := by
    unfold ofDayOfYear marchYear
    dsimp only
    rw [hm]
    split <;> omega
  have hday : (ofDayOfYear year dayOfYear).dayOfYear = dayOfYear := by
    unfold ofDayOfYear Date.dayOfYear
    dsimp only
    rw [hm, hback]
    omega
  refine ⟨?_, hyear, hday⟩
  unfold ofDayOfYear IsValid
  dsimp only
  rw [hm]
  refine ⟨hmonth.1, hmonth.2, by omega, ?_⟩
  by_cases hfebruary : monthOfYear m = 2
  · have hsame : year + (if monthOfYear m ≤ 2 then 1 else 0) - 1 = year := by
      rw [if_pos (by omega)]
      omega
    rw [if_pos hfebruary, hsame] at hend
    omega
  · rw [if_neg hfebruary] at hend
    omega

theorem dayNumber_ofDayOfYear {year dayOfYear : Int} (hlow : 0 ≤ dayOfYear)
    (hhigh : dayOfYear < yearLength year) :
    (ofDayOfYear year dayOfYear).dayNumber = daysBeforeYear year + dayOfYear - epochDay := by
  obtain ⟨-, hyear, hday⟩ := ofDayOfYear_isValid hlow hhigh
  rw [dayNumber_eq, hyear, hday]

/-! ## There and back -/

/-- The year of the date is kept in 32 bits. -/
def wrapYear (d : Date) : Date := { d with year := d.year.bmod 4294967296 }

theorem ofDayNumber_eq {year dayOfYear : Int} (hlow : 0 ≤ dayOfYear)
    (hhigh : dayOfYear < yearLength year) :
    ofDayNumber (daysBeforeYear year + dayOfYear - epochDay) =
      (ofDayOfYear year dayOfYear).wrapYear := by
  generalize hz : daysBeforeYear year + dayOfYear = z
  have hparts : ofDayNumber (z - epochDay) =
      (ofDayOfYear
        (yearOfEra ((z - epochDay + epochDay) % daysPerEra) +
          (z - epochDay + epochDay) / daysPerEra * 400)
        ((z - epochDay + epochDay) % daysPerEra -
          daysInEra (yearOfEra ((z - epochDay + epochDay) % daysPerEra)))).wrapYear := rfl
  have hyear : year % 400 + year / 400 * 400 = year := by omega
  have hday : daysInEra (year % 400) + dayOfYear - daysInEra (year % 400) = dayOfYear := by omega
  rw [hparts, Int.sub_add_cancel, ← hz, ediv_daysPerEra hlow hhigh, emod_daysPerEra hlow hhigh,
    yearOfEra_daysInEra_add hlow hhigh, hyear, hday]

/-- The year is one that 32 bits hold. -/
def HasWordYear (d : Date) : Prop := -2147483648 ≤ d.year ∧ d.year ≤ 2147483647

instance (d : Date) : Decidable d.HasWordYear := by unfold HasWordYear; infer_instance

theorem HasWordYear.wrapYear_eq {d : Date} (hd : d.HasWordYear) : d.wrapYear = d := by
  obtain ⟨hlow, hhigh⟩ := hd
  have hyear : d.year.bmod 4294967296 = d.year :=
    Int.bmod_eq_of_le (by omega) (by omega)
  unfold wrapYear
  rw [hyear]

theorem IsValid.ofDayNumber_dayNumber {d : Date} (hd : d.IsValid) (hyear : d.HasWordYear) :
    ofDayNumber d.dayNumber = d := by
  obtain ⟨-, -, hlow, hhigh⟩ := hd.dayOfYear_bounds
  rw [dayNumber_eq, ofDayNumber_eq hlow hhigh, hd.ofDayOfYear_eq, hyear.wrapYear_eq]

/-- Every day has a date, though not every year fits. -/
theorem exists_dayNumber_eq (n : Int) : ∃ d : Date, d.IsValid ∧ d.dayNumber = n := by
  obtain ⟨year, day, hlow, hhigh, hn⟩ := exists_year (n + epochDay)
  refine ⟨ofDayOfYear year day, (ofDayOfYear_isValid hlow hhigh).1, ?_⟩
  rw [dayNumber_ofDayOfYear hlow hhigh]
  omega

/-! ## The order of dates -/

theorem lt_or_eq_or_lt (a b : Date) : a.lt b ∨ a = b ∨ b.lt a := by
  obtain ⟨year, month, day⟩ := a
  obtain ⟨year', month', day'⟩ := b
  simp only [lt, Date.mk.injEq]
  omega

/-- The order is the same when years begin in March. -/
theorem marchYear_lt_or_dayOfYear_lt {a b : Date} (ha : a.IsValid) (hb : b.IsValid) (h : a.lt b) :
    a.marchYear < b.marchYear ∨ a.marchYear = b.marchYear ∧ a.dayOfYear < b.dayOfYear := by
  obtain ⟨-, hend, -, -⟩ := ha.dayOfYear_bounds
  obtain ⟨hbegin, -, -, -⟩ := hb.dayOfYear_bounds
  obtain ⟨hmonth, hmonth', -, -⟩ := ha
  obtain ⟨hmonthB, hmonthB', -, -⟩ := hb
  have hmonths : a.marchYear < b.marchYear ∨ a.marchYear = b.marchYear ∧
      (monthsAfterMarch a.month < monthsAfterMarch b.month ∨
        a.month = b.month ∧ a.day < b.day) := by
    unfold lt at h
    unfold marchYear monthsAfterMarch
    omega
  rcases hmonths with hyear | ⟨hyear, hlater | ⟨hsame, hday⟩⟩
  · exact Or.inl hyear
  · have hm := monthsAfterMarch_bounds hmonth hmonth'
    have hm' := monthsAfterMarch_bounds hmonthB hmonthB'
    rw [daysBeforeMonth_eq (by omega)] at hend hbegin
    exact Or.inr ⟨hyear, by omega⟩
  · refine Or.inr ⟨hyear, ?_⟩
    unfold dayOfYear
    rw [hsame]
    omega

theorem IsValid.dayNumber_lt {a b : Date} (ha : a.IsValid) (hb : b.IsValid) (h : a.lt b) :
    a.dayNumber < b.dayNumber := by
  obtain ⟨-, -, -, hinYear⟩ := ha.dayOfYear_bounds
  obtain ⟨-, -, hnonneg, -⟩ := hb.dayOfYear_bounds
  rw [dayNumber_eq, dayNumber_eq]
  rcases marchYear_lt_or_dayOfYear_lt ha hb h with hyear | ⟨hyear, hday⟩
  · have hlater := daysBeforeYear_add_yearLength_le hyear
    omega
  · rw [hyear]
    omega

theorem IsValid.dayNumber_lt_iff {a b : Date} (ha : a.IsValid) (hb : b.IsValid) :
    a.dayNumber < b.dayNumber ↔ a.lt b := by
  refine ⟨fun h => ?_, ha.dayNumber_lt hb⟩
  rcases lt_or_eq_or_lt a b with hlt | rfl | hgt
  · exact hlt
  · exact absurd h (Int.lt_irrefl _)
  · exact absurd (hb.dayNumber_lt ha hgt) (by omega)

/-- The date after it. -/
def next (d : Date) : Date :=
  if d.day < monthLength d.year d.month then { d with day := d.day + 1 }
  else if d.month < 12 then { d with month := d.month + 1, day := 1 }
  else { year := d.year + 1, month := 1, day := 1 }

theorem monthLength_pos (year month : Int) : 1 ≤ monthLength year month := by
  unfold monthLength
  split
  · split <;> omega
  · split <;> omega

theorem monthLength_le (year month : Int) : monthLength year month ≤ 31 := by
  unfold monthLength
  split
  · split <;> decide
  · split <;> decide

theorem IsValid.next_cases {d : Date} (hd : d.IsValid) :
    (d.day < monthLength d.year d.month ∧ d.next = ⟨d.year, d.month, d.day + 1⟩) ∨
      (d.day = monthLength d.year d.month ∧ d.month < 12 ∧ d.next = ⟨d.year, d.month + 1, 1⟩) ∨
      d.day = monthLength d.year d.month ∧ d.month = 12 ∧ d.next = ⟨d.year + 1, 1, 1⟩ := by
  obtain ⟨-, hmonth, -, hday⟩ := hd
  unfold next
  by_cases hwithin : d.day < monthLength d.year d.month
  · exact Or.inl ⟨hwithin, if_pos hwithin⟩
  · rw [if_neg hwithin]
    by_cases hlast : d.month < 12
    · exact Or.inr (Or.inl ⟨by omega, hlast, if_pos hlast⟩)
    · exact Or.inr (Or.inr ⟨by omega, by omega, if_neg hlast⟩)

theorem IsValid.isValid_next {d : Date} (hd : d.IsValid) : d.next.IsValid := by
  have hcases := hd.next_cases
  obtain ⟨hmonth, hmonth', hday, hday'⟩ := hd
  rcases hcases with ⟨hwithin, hnext⟩ | ⟨-, hmonths, hnext⟩ | ⟨-, -, hnext⟩ <;> rw [hnext]
  · exact ⟨hmonth, hmonth', Int.le_add_one hday, hwithin⟩
  · exact ⟨Int.le_add_one hmonth, hmonths, Int.le_refl 1, monthLength_pos _ _⟩
  · exact ⟨Int.le_refl 1, (by decide : (1 : Int) ≤ 12), Int.le_refl 1, monthLength_pos _ _⟩

theorem dayNumber_eq_first (year month day : Int) :
    (Date.mk year month day).dayNumber = (Date.mk year month 1).dayNumber + day - 1 := by
  simp only [dayNumber_eq, marchYear, dayOfYear]
  omega

/-- Within a year the first of a month comes after all days of the month before. -/
theorem dayNumber_first_of_next {month : Int} (hlow : 1 ≤ month) (hhigh : month < 12) (year : Int) :
    (Date.mk year (month + 1) 1).dayNumber =
      (Date.mk year month 1).dayNumber + monthLength year month := by
  have hend := daysBeforeMonth_add_monthLength hlow (by omega) year
  simp only [dayNumber_eq, marchYear, dayOfYear]
  by_cases hfebruary : month = 2
  · subst hfebruary
    have hmarch : daysBeforeMonth (monthsAfterMarch (2 + 1)) = 0 := rfl
    have hyear : daysBeforeYear year = daysBeforeYear (year - 1) + yearLength (year - 1) := by
      unfold yearLength
      rw [Int.sub_add_cancel]
      omega
    rw [if_pos rfl] at hend
    rw [hmarch, if_neg (by omega), if_pos (by omega)]
    omega
  · have hmonths : monthsAfterMarch (month + 1) = monthsAfterMarch month + 1 := by
      unfold monthsAfterMarch
      omega
    rw [if_neg hfebruary, ← hmonths] at hend
    by_cases hjanuary : month = 1
    · rw [if_pos (by omega), if_pos (by omega)]
      omega
    · rw [if_neg (by omega), if_neg (by omega)]
      omega

theorem dayNumber_newYear (year : Int) :
    (Date.mk (year + 1) 1 1).dayNumber = (Date.mk year 12 1).dayNumber + monthLength year 12 := by
  have hend := daysBeforeMonth_add_monthLength (by decide : (1 : Int) ≤ 12) (Int.le_refl 12) year
  have hjanuary : monthsAfterMarch 1 = monthsAfterMarch 12 + 1 := rfl
  rw [if_neg (by decide), ← hjanuary] at hend
  simp only [dayNumber_eq, marchYear, dayOfYear]
  rw [if_pos (by decide), if_neg (by decide), Int.add_sub_cancel]
  omega

theorem IsValid.dayNumber_next {d : Date} (hd : d.IsValid) :
    d.next.dayNumber = d.dayNumber + 1 := by
  have hday : d.dayNumber = (Date.mk d.year d.month 1).dayNumber + d.day - 1 :=
    dayNumber_eq_first d.year d.month d.day
  rcases hd.next_cases with ⟨-, hnext⟩ | ⟨hlast, hmonths, hnext⟩ | ⟨hlast, hmonths, hnext⟩ <;>
    rw [hnext]
  · rw [dayNumber_eq_first, hday]
    omega
  · rw [dayNumber_first_of_next hd.1 hmonths, hday]
    omega
  · rw [hmonths] at hlast hday
    rw [dayNumber_newYear, ← hlast]
    omega

/-! ## Dates with a year of 32 bits -/

/-- The first day of the least year that 32 bits hold. -/
def firstDate : Date := ⟨-2147483648, 1, 1⟩

/-- The last day of the greatest year that 32 bits hold. -/
def lastDate : Date := ⟨2147483647, 12, 31⟩

theorem IsValid.hasWordYear {d : Date} (hd : d.IsValid) (hlow : firstDate.dayNumber ≤ d.dayNumber)
    (hhigh : d.dayNumber ≤ lastDate.dayNumber) : d.HasWordYear := by
  refine ⟨?_, ?_⟩
  · refine Classical.byContradiction fun hearly => ?_
    have hlt := hd.dayNumber_lt (b := firstDate) (by decide) (Or.inl (Int.not_le.1 hearly))
    omega
  · refine Classical.byContradiction fun hlate => ?_
    have hvalid : lastDate.IsValid := by decide
    have hlt := hvalid.dayNumber_lt hd (Or.inl (Int.not_le.1 hlate))
    omega

theorem isValid_ofDayNumber {n : Int} (hlow : firstDate.dayNumber ≤ n)
    (hhigh : n ≤ lastDate.dayNumber) :
    (ofDayNumber n).IsValid ∧ (ofDayNumber n).HasWordYear ∧ (ofDayNumber n).dayNumber = n := by
  obtain ⟨d, hd, rfl⟩ := exists_dayNumber_eq n
  have hyear := hd.hasWordYear hlow hhigh
  rw [hd.ofDayNumber_dayNumber hyear]
  exact ⟨hd, hyear, rfl⟩

end Date
end StrongMotion
