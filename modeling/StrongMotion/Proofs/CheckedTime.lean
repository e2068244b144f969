import StrongMotion.Proofs.Calendar
import StrongMotion.Time.Instant

/-!
# Times computed in machine words

A machine computes with words of 32 and 64 bits, divides toward zero and has no result where a word
overflows.  Dates and times are computed here operation by operation in that way.  For years of 32
bits and within the range of an instant no operation overflows, and the results are those of exact
arithmetic (`Date.dayNumber_inverse_and_order`, `WallClock.IsValid.toInstant?_eq`,
`WallClock.ofInstant?_eq`).
-/

namespace StrongMotion

/-- A signed word of a machine. -/
inductive Word
  | bits32
  | bits64
deriving DecidableEq, Repr

namespace Word

/-- The least number that is too large for the word. -/
def limit : Word → Int
  | bits32 => 2147483648
  | bits64 => 9223372036854775808

def Holds (w : Word) (n : Int) : Prop := -w.limit ≤ n ∧ n < w.limit

instance (w : Word) (n : Int) : Decidable (w.Holds n) := by unfold Holds; infer_instance

/-- The number, unless it overflows the word. -/
def keep (w : Word) (n : Int) : Option Int := if w.Holds n then some n else none

def add (w : Word) (a b : Int) : Option Int := w.keep (a + b)

def sub (w : Word) (a b : Int) : Option Int := w.keep (a - b)

def mul (w : Word) (a b : Int) : Option Int := w.keep (a * b)

/-- The quotient rounded toward zero. -/
def div (w : Word) (a b : Int) : Option Int := if b = 0 then none else w.keep (a.tdiv b)

/-- The remainder of that division, which has the sign of the dividend. -/
def rem (w : Word) (a b : Int) : Option Int := (w.div a b).map fun _ => a.tmod b

/-- The quotient rounded down, for a positive divisor: a negative dividend is moved down first. -/
def floorDiv (w : Word) (a b : Int) : Option Int := do
  let dividend ← if 0 ≤ a then some a else w.sub a (b - 1)
  w.div dividend b

variable {w : Word} {a b c : Int}

theorem holds32_iff : bits32.Holds a ↔ -2147483648 ≤ a ∧ a ≤ 2147483647 :=
  ⟨fun h => ⟨h.1, Int.le_of_lt_add_one h.2⟩, fun h => ⟨h.1, Int.lt_add_one_of_le h.2⟩⟩

theorem holds64_iff : bits64.Holds a ↔ -9223372036854775808 ≤ a ∧ a ≤ 9223372036854775807 :=
  ⟨fun h => ⟨h.1, Int.le_of_lt_add_one h.2⟩, fun h => ⟨h.1, Int.lt_add_one_of_le h.2⟩⟩

theorem keep_eq (h : w.Holds a) : w.keep a = some a := if_pos h

theorem add_eq (hc : a + b = c) (h : w.Holds c) : w.add a b = some c := by
  rw [add, hc, keep_eq h]

theorem sub_eq (hc : a - b = c) (h : w.Holds c) : w.sub a b = some c := by
  rw [sub, hc, keep_eq h]

theorem mul_eq (hc : a * b = c) (h : w.Holds c) : w.mul a b = some c := by
  rw [mul, hc, keep_eq h]

theorem div_eq (hb : 0 < b) (hc : a.tdiv b = c) (h : w.Holds c) : w.div a b = some c := by
  rw [div, if_neg (Int.ne_of_gt hb), hc, keep_eq h]

theorem div_eq_of_nonneg (hb : 0 < b) (ha : 0 ≤ a) (hc : a / b = c) (h : w.Holds c) :
    w.div a b = some c :=
  div_eq hb (by rw [Int.tdiv_eq_ediv_of_nonneg ha, hc]) h

theorem rem_eq (hb : 0 < b) (hc : a.tmod b = c) (h : w.Holds (a.tdiv b)) :
    w.rem a b = some c := by
  rw [rem, div_eq hb rfl h, Option.map_some, hc]

theorem rem_eq_of_nonneg (hb : 0 < b) (ha : 0 ≤ a) (hc : a % b = c) (h : w.Holds (a / b)) :
    w.rem a b = some c :=
  rem_eq hb (by rw [Int.tmod_eq_emod_of_nonneg ha, hc])
    (by rw [Int.tdiv_eq_ediv_of_nonneg ha]; exact h)

theorem floorDiv_eq (hb : 0 < b) (hc : a / b = c) (hshift : a < 0 → w.Holds (a - (b - 1)))
    (h : w.Holds c) : w.floorDiv a b = some c := by
  unfold floorDiv
  by_cases ha : 0 ≤ a
  · rw [if_pos ha]
    exact div_eq_of_nonneg hb ha hc h
  · have hquotient : (a - (b - 1)).tdiv b = c := by
      rw [← Int.neg_sub, Int.neg_tdiv, Int.tdiv_eq_ediv_of_nonneg (by omega)]
      have hsum := Int.mul_ediv_add_emod a b
      have hrest := Int.emod_nonneg a (Int.ne_of_gt hb)
      have hrest' := Int.emod_lt_of_pos a hb
      have hup : b - 1 - a = b - 1 - a % b + b * -c := by
        rw [hc] at hsum
        rw [Int.mul_neg]
        omega
      rw [hup, Int.add_mul_ediv_left _ _ (Int.ne_of_gt hb),
        Int.ediv_eq_zero_of_lt (by omega) (by omega)]
      omega
    rw [if_neg ha, sub_eq rfl (hshift (Int.not_le.1 ha))]
    exact div_eq hb hquotient h

end Word

namespace Date

open Word

/-! ## Day numbers -/

def daysBeforeMonth? (w : Word) (monthsAfterMarch : Int) : Option Int := do
  w.div (← w.add (← w.mul 153 monthsAfterMarch) 2) 5

def daysInEra? (yearOfEra : Int) : Option Int := do
  let days ← bits64.add (← bits64.mul 365 yearOfEra) (← bits64.div yearOfEra 4)
  bits64.sub days (← bits64.div yearOfEra 100)

def yearOfEra? (dayOfEra : Int) : Option Int := do
  let days ← bits64.sub dayOfEra (← bits64.div dayOfEra 1460)
  let days ← bits64.add days (← bits64.div dayOfEra 36524)
  let days ← bits64.sub days (← bits64.div dayOfEra 146096)
  bits64.div days 365

def monthOfYear? (monthsAfterMarch : Int) : Option Int :=
  if monthsAfterMarch < 10 then bits64.add monthsAfterMarch 3 else bits64.sub monthsAfterMarch 9

/-- The days from the first of March, in the shorter word. -/
def dayOfYear? (month day : Int) : Option Int := do
  let monthsAfterMarch ← bits32.add month (if month > 2 then -3 else 9)
  bits32.sub (← bits32.add (← daysBeforeMonth? bits32 monthsAfterMarch) day) 1

/-- The number of the day. -/
def dayNumber? (d : Date) : Option Int := do
  let year ← bits64.sub d.year (if d.month ≤ 2 then 1 else 0)
  let era ← bits64.floorDiv year 400
  let yearOfEra ← bits64.sub year (← bits64.mul era 400)
  let dayOfYear ← dayOfYear? d.month d.day
  let dayOfEra ← bits64.add (← daysInEra? yearOfEra) dayOfYear
  bits64.sub (← bits64.add (← bits64.mul era 146097) dayOfEra) 719468

/-- The date of a day of the year that begins in March of `year`.  Its year, month and day must fit
the shorter word. -/
def ofDayOfYear? (year dayOfYear : Int) : Option Date := do
  let monthsAfterMarch ← bits64.div (← bits64.add (← bits64.mul 5 dayOfYear) 2) 153
  let day ← bits64.add (← bits64.sub dayOfYear (← daysBeforeMonth? bits64 monthsAfterMarch)) 1
  let month ← monthOfYear? monthsAfterMarch
  let year ← bits64.add year (if month ≤ 2 then 1 else 0)
  return { year := ← bits32.keep year, month := ← bits32.keep month, day := ← bits32.keep day }

/-- The date of a numbered day. -/
def ofDayNumber? (n : Int) : Option Date := do
  let z ← bits64.add n 719468
  let era ← bits64.floorDiv z 146097
  let dayOfEra ← bits64.sub z (← bits64.mul era 146097)
  let yearOfEra ← yearOfEra? dayOfEra
  let dayOfYear ← bits64.sub dayOfEra (← daysInEra? yearOfEra)
  ofDayOfYear? (← bits64.add yearOfEra (← bits64.mul era 400)) dayOfYear

theorem daysBeforeMonth?_eq {w : Word} {m : Int} (hlow : 0 ≤ m) (hhigh : m ≤ 11) :
    daysBeforeMonth? w m = some (daysBeforeMonth m) := by
  have hlimit : 2147483648 ≤ w.limit := by cases w <;> decide
  have hholds : ∀ n : Int, 0 ≤ n → n ≤ 2000 → w.Holds n := fun n hn hn' =>
    ⟨by omega, by omega⟩
  have hmul : w.mul 153 m = some (153 * m) := mul_eq rfl (hholds _ (by omega) (by omega))
  have hadd : w.add (153 * m) 2 = some (153 * m + 2) := add_eq rfl (hholds _ (by omega) (by omega))
  have hdiv : w.div (153 * m + 2) 5 = some (daysBeforeMonth m) :=
    div_eq (by decide) rfl (by
      have hbounds := daysBeforeMonth_eq hlow
      exact hholds _ (by omega) (by omega))
  simp only [daysBeforeMonth?, hmul, hadd, hdiv, Option.bind_eq_bind, Option.bind_some]

theorem monthOfYear?_eq {m : Int} (hlow : 0 ≤ m) (hhigh : m ≤ 11) :
    monthOfYear? m = some (monthOfYear m) := by
  unfold monthOfYear? monthOfYear
  split
  · exact add_eq rfl (holds64_iff.2 (by omega))
  · exact sub_eq rfl (holds64_iff.2 (by omega))

theorem daysInEra?_eq {y : Int} (hlow : 0 ≤ y) (hhigh : y < 400) :
    daysInEra? y = some (daysInEra y) := by
  have hmul : bits64.mul 365 y = some (365 * y) := mul_eq rfl (holds64_iff.2 (by omega))
  have hfour : bits64.div y 4 = some (y / 4) :=
    div_eq_of_nonneg (by decide) hlow rfl (holds64_iff.2 (by omega))
  have hadd : bits64.add (365 * y) (y / 4) = some (365 * y + y / 4) :=
    add_eq rfl (holds64_iff.2 (by omega))
  have hcentury : bits64.div y 100 = some (y / 100) :=
    div_eq_of_nonneg (by decide) hlow rfl (holds64_iff.2 (by omega))
  have hsub : bits64.sub (365 * y + y / 4) (y / 100) = some (daysInEra y) :=
    sub_eq rfl (holds64_iff.2 (by unfold daysInEra; omega))
  simp only [daysInEra?, hmul, hfour, hadd, hcentury, hsub, Option.bind_eq_bind, Option.bind_some]

theorem yearOfEra?_eq {n : Int} (hlow : 0 ≤ n) (hhigh : n < daysPerEra) :
    yearOfEra? n = some (yearOfEra n) := by
  unfold daysPerEra at hhigh
  have hfour : bits64.div n 1460 = some (n / 1460) :=
    div_eq_of_nonneg (by decide) hlow rfl (holds64_iff.2 (by omega))
  have hsub : bits64.sub n (n / 1460) = some (n - n / 1460) :=
    sub_eq rfl (holds64_iff.2 (by omega))
  have hcentury : bits64.div n 36524 = some (n / 36524) :=
    div_eq_of_nonneg (by decide) hlow rfl (holds64_iff.2 (by omega))
  have hadd : bits64.add (n - n / 1460) (n / 36524) = some (n - n / 1460 + n / 36524) :=
    add_eq rfl (holds64_iff.2 (by omega))
  have hlast : bits64.div n 146096 = some (n / 146096) :=
    div_eq_of_nonneg (by decide) hlow rfl (holds64_iff.2 (by omega))
  have hsub' : bits64.sub (n - n / 1460 + n / 36524) (n / 146096) =
      some (n - n / 1460 + n / 36524 - n / 146096) := sub_eq rfl (holds64_iff.2 (by omega))
  have hyear : bits64.div (n - n / 1460 + n / 36524 - n / 146096) 365 = some (yearOfEra n) :=
    div_eq_of_nonneg (by decide) (by omega) rfl (holds64_iff.2 (by unfold yearOfEra; omega))
  simp only [yearOfEra?, hfour, hsub, hcentury, hadd, hlast, hsub', hyear, Option.bind_eq_bind,
    Option.bind_some]

theorem IsValid.dayOfYear?_eq {d : Date} (hd : d.IsValid) :
    dayOfYear? d.month d.day = some d.dayOfYear := by
  obtain ⟨-, -, hdays, hdays'⟩ := hd.dayOfYear_bounds
  have hlength := yearLength_bounds d.marchYear
  obtain ⟨hmonth, hmonth', hday, -⟩ := hd
  have hmonths := monthsAfterMarch_bounds hmonth hmonth'
  have hbefore := daysBeforeMonth_eq hmonths.1
  have hsum : d.dayOfYear = daysBeforeMonth (monthsAfterMarch d.month) + d.day - 1 := rfl
  have hmonthsAfter : bits32.add d.month (if d.month > 2 then -3 else 9) =
      some (monthsAfterMarch d.month) :=
    add_eq (by unfold monthsAfterMarch; split <;> omega) (holds32_iff.2 (by omega))
  have hthrough : bits32.add (daysBeforeMonth (monthsAfterMarch d.month)) d.day =
      some (d.dayOfYear + 1) := add_eq (by omega) (holds32_iff.2 (by omega))
  have hresult : bits32.sub (d.dayOfYear + 1) 1 = some d.dayOfYear :=
    sub_eq (by omega) (holds32_iff.2 (by omega))
  simp only [dayOfYear?, hmonthsAfter, daysBeforeMonth?_eq hmonths.1 hmonths.2, hthrough, hresult,
    Option.bind_eq_bind, Option.bind_some]

theorem IsValid.dayNumber?_eq {d : Date} (hd : d.IsValid) (hword : d.HasWordYear) :
    d.dayNumber? = some d.dayNumber := by
  have hmarchYear := d.marchYear_bounds
  have hdayOfYear := hd.dayOfYear?_eq
  have hnumber := dayNumber_eq d
  have heras := daysBeforeYear_eq d.marchYear
  obtain ⟨-, -, hdays, hdays'⟩ := hd.dayOfYear_bounds
  have hrest := dayOfEra_bounds hdays hdays'
  obtain ⟨hlow, hhigh⟩ := hword
  have hmarch : d.marchYear = d.year - if d.month ≤ 2 then 1 else 0 := by
    unfold marchYear
    split <;> omega
  unfold daysPerEra at heras hrest
  unfold epochDay at hnumber
  generalize d.marchYear = y at *
  have hyear : bits64.sub d.year (if d.month ≤ 2 then 1 else 0) = some y :=
    sub_eq hmarch.symm (holds64_iff.2 (by omega))
  have hera : bits64.floorDiv y 400 = some (y / 400) :=
    floorDiv_eq (by decide) rfl (fun _ => holds64_iff.2 (by omega)) (holds64_iff.2 (by omega))
  have hyears : bits64.mul (y / 400) 400 = some (y / 400 * 400) :=
    mul_eq rfl (holds64_iff.2 (by omega))
  have hyearOfEra : bits64.sub y (y / 400 * 400) = some (y % 400) :=
    sub_eq (by omega) (holds64_iff.2 (by omega))
  have hdayOfEra : bits64.add (daysInEra (y % 400)) d.dayOfYear =
      some (daysInEra (y % 400) + d.dayOfYear) := add_eq rfl (holds64_iff.2 (by omega))
  have hdaysOfEras : bits64.mul (y / 400) 146097 = some (y / 400 * 146097) :=
    mul_eq rfl (holds64_iff.2 (by omega))
  have hall : bits64.add (y / 400 * 146097) (daysInEra (y % 400) + d.dayOfYear) =
      some (d.dayNumber + 719468) := add_eq (by omega) (holds64_iff.2 (by omega))
  have hresult : bits64.sub (d.dayNumber + 719468) 719468 = some d.dayNumber :=
    sub_eq (by omega) (holds64_iff.2 (by omega))
  simp only [dayNumber?, hyear, hera, hyears, hyearOfEra, hdayOfYear,
    daysInEra?_eq (Int.emod_nonneg y (by decide)) (Int.emod_lt_of_pos y (by decide)), hdayOfEra,
    hdaysOfEras, hall, hresult, Option.bind_eq_bind, Option.bind_some]

theorem IsValid.ofDayOfYear?_eq {d : Date} (hd : d.IsValid) (hword : d.HasWordYear) :
    ofDayOfYear? d.marchYear d.dayOfYear = some d := by
  obtain ⟨hinMonth, hinMonth', hdays, hdays'⟩ := hd.dayOfYear_bounds
  have hlength := yearLength_bounds d.marchYear
  obtain ⟨hmonth, hmonth', hday, -⟩ := hd
  obtain ⟨hlow, hhigh⟩ := hword
  have hmonths := monthsAfterMarch_bounds hmonth hmonth'
  have hbefore := daysBeforeMonth_eq hmonths.1
  have hsum : d.dayOfYear = daysBeforeMonth (monthsAfterMarch d.month) + d.day - 1 := rfl
  have hinYear := month_of_dayOfYear hmonths.1 hinMonth hinMonth'
  have hmarch : d.marchYear + (if d.month ≤ 2 then 1 else 0) = d.year := by
    unfold marchYear
    split <;> omega
  have hfive : bits64.mul 5 d.dayOfYear = some (5 * d.dayOfYear) :=
    mul_eq rfl (holds64_iff.2 (by omega))
  have htwo : bits64.add (5 * d.dayOfYear) 2 = some (5 * d.dayOfYear + 2) :=
    add_eq rfl (holds64_iff.2 (by omega))
  have hmonthsAfter : bits64.div (5 * d.dayOfYear + 2) 153 = some (monthsAfterMarch d.month) :=
    div_eq_of_nonneg (by decide) (by omega) hinYear (holds64_iff.2 (by omega))
  have hinside : bits64.sub d.dayOfYear (daysBeforeMonth (monthsAfterMarch d.month)) =
      some (d.day - 1) := sub_eq (by omega) (holds64_iff.2 (by omega))
  have hdayBack : bits64.add (d.day - 1) 1 = some d.day :=
    add_eq (by omega) (holds64_iff.2 (by omega))
  have hmonthBack : monthOfYear? (monthsAfterMarch d.month) = some d.month := by
    rw [monthOfYear?_eq hmonths.1 hmonths.2, monthOfYear_monthsAfterMarch hmonth hmonth']
  have hyearBack : bits64.add d.marchYear (if d.month ≤ 2 then 1 else 0) = some d.year :=
    add_eq hmarch (holds64_iff.2 (by omega))
  have hyearShort : bits32.keep d.year = some d.year := keep_eq (holds32_iff.2 ⟨hlow, hhigh⟩)
  have hmonthShort : bits32.keep d.month = some d.month := keep_eq (holds32_iff.2 (by omega))
  have hdayShort : bits32.keep d.day = some d.day := keep_eq (holds32_iff.2 (by omega))
  simp only [ofDayOfYear?, hfive, htwo, hmonthsAfter, daysBeforeMonth?_eq hmonths.1 hmonths.2,
    hinside, hdayBack, hmonthBack, hyearBack, hyearShort, hmonthShort, hdayShort,
    Option.bind_eq_bind, Option.bind_some, Option.pure_def]

theorem IsValid.ofDayNumber?_eq {d : Date} (hd : d.IsValid) (hword : d.HasWordYear) :
    ofDayNumber? d.dayNumber = some d := by
  have hresult := hd.ofDayOfYear?_eq hword
  have hmarchYear := d.marchYear_bounds
  obtain ⟨hlow, hhigh⟩ := hword
  have hnumber := dayNumber_eq d
  have heras := daysBeforeYear_eq d.marchYear
  obtain ⟨-, -, hdays, hdays'⟩ := hd.dayOfYear_bounds
  have hrest := dayOfEra_bounds hdays hdays'
  have hquotient := ediv_daysPerEra hdays hdays'
  have hyearOfEra := yearOfEra_daysInEra_add hdays hdays'
  have hlength := yearLength_bounds d.marchYear
  unfold daysPerEra at heras hrest hquotient
  unfold epochDay at hnumber
  generalize d.marchYear = y at *
  have hz : bits64.add d.dayNumber 719468 = some (daysBeforeYear y + d.dayOfYear) :=
    add_eq (by omega) (holds64_iff.2 (by omega))
  have hera : bits64.floorDiv (daysBeforeYear y + d.dayOfYear) 146097 = some (y / 400) :=
    floorDiv_eq (by decide) hquotient (fun _ => holds64_iff.2 (by omega)) (holds64_iff.2 (by omega))
  have hdaysOfEras : bits64.mul (y / 400) 146097 = some (y / 400 * 146097) :=
    mul_eq rfl (holds64_iff.2 (by omega))
  have hdayOfEra : bits64.sub (daysBeforeYear y + d.dayOfYear) (y / 400 * 146097) =
      some (daysInEra (y % 400) + d.dayOfYear) := sub_eq (by omega) (holds64_iff.2 (by omega))
  have hdayOfYear : bits64.sub (daysInEra (y % 400) + d.dayOfYear) (daysInEra (y % 400)) =
      some d.dayOfYear := sub_eq (by omega) (holds64_iff.2 (by omega))
  have hyearsOfEras : bits64.mul (y / 400) 400 = some (y / 400 * 400) :=
    mul_eq rfl (holds64_iff.2 (by omega))
  have hyear : bits64.add (y % 400) (y / 400 * 400) = some y :=
    add_eq (by omega) (holds64_iff.2 (by omega))
  unfold ofDayNumber?
  simp only [Option.bind_eq_bind]
  rw [hz, Option.bind_some, hera, Option.bind_some, hdaysOfEras, Option.bind_some, hdayOfEra,
    Option.bind_some, yearOfEra?_eq hrest.1 hrest.2, hyearOfEra, Option.bind_some,
    daysInEra?_eq (Int.emod_nonneg y (by decide)) (Int.emod_lt_of_pos y (by decide)),
    Option.bind_some, hdayOfYear, Option.bind_some, hyearsOfEras, Option.bind_some, hyear,
    Option.bind_some, hresult]

/-- Dates and day numbers are computed from each other without loss, in both directions and in their
order, and the next date has the next number.  Nothing overflows on the way, and computed in words
the results are the same. -/
theorem dayNumber_inverse_and_order :
    (∀ d : Date, d.IsValid → d.HasWordYear →
      ofDayNumber d.dayNumber = d ∧
        dayNumber? d = some d.dayNumber ∧ ofDayNumber? d.dayNumber = some d) ∧
    (∀ n, firstDate.dayNumber ≤ n → n ≤ lastDate.dayNumber →
      (ofDayNumber n).IsValid ∧ (ofDayNumber n).HasWordYear ∧ (ofDayNumber n).dayNumber = n ∧
        ofDayNumber? n = some (ofDayNumber n) ∧ dayNumber? (ofDayNumber n) = some n) ∧
    (∀ a b : Date, a.IsValid → b.IsValid → (a.dayNumber < b.dayNumber ↔ a.lt b)) ∧
    ∀ d : Date, d.IsValid → d.next.IsValid ∧ d.next.dayNumber = d.dayNumber + 1 := by
  refine ⟨fun d hd hyear => ?_, fun n hlow hhigh => ?_, fun a b ha hb => ha.dayNumber_lt_iff hb,
    fun d hd => ⟨hd.isValid_next, hd.dayNumber_next⟩⟩
  · exact ⟨hd.ofDayNumber_dayNumber hyear, hd.dayNumber?_eq hyear, hd.ofDayNumber?_eq hyear⟩
  · obtain ⟨hvalid, hyear, hnumber⟩ := isValid_ofDayNumber hlow hhigh
    have hback := hvalid.ofDayNumber?_eq hyear
    have hagain := hvalid.dayNumber?_eq hyear
    rw [hnumber] at hback hagain
    exact ⟨hvalid, hyear, hnumber, hback, hagain⟩

/-- The leap day of a year before the year 0, the day before an era, and two days around a century's
end. -/
theorem dayNumber_inverse_and_order_leapDays :
    ofDayNumber (Date.mk (-400) 2 29).dayNumber = ⟨-400, 2, 29⟩ ∧
      ofDayNumber? (Date.mk (-400) 2 29).dayNumber = some ⟨-400, 2, 29⟩ ∧
      (ofDayNumber (-719469)).IsValid ∧ (ofDayNumber (-719469)).dayNumber = -719469 ∧
      dayNumber? (ofDayNumber (-719469)) = some (-719469) ∧
      ((Date.mk 1900 2 28).dayNumber < (Date.mk 1900 3 1).dayNumber ↔
        (Date.mk 1900 2 28).lt ⟨1900, 3, 1⟩) ∧
      (Date.mk 1900 2 28).next.dayNumber = (Date.mk 1900 2 28).dayNumber + 1 := by
  obtain ⟨hdate, hnumber, horder, hnext⟩ := dayNumber_inverse_and_order
  obtain ⟨hleap, -, hleapWord⟩ := hdate (Date.mk (-400) 2 29) (by decide) (by decide)
  obtain ⟨hvalid, -, hback, -, hbackWord⟩ := hnumber (-719469) (by decide) (by decide)
  exact ⟨hleap, hleapWord, hvalid, hback, hbackWord, horder _ _ (by decide) (by decide),
    (hnext _ (by decide)).2⟩

end Date

/-! ## Instants and wall clocks -/

theorem Instant.toMillis_bounds (t : Instant) :
    -9223372036854775808 ≤ t.toMillis ∧ t.toMillis ≤ 9223372036854775807 :=
  ⟨t.millis.le_toInt, t.millis.toInt_le⟩

namespace WallClock

open Word

def secondOfDay? (c : WallClock) : Option Int := do
  let seconds ← bits64.add (← bits64.mul c.hour 3600) (← bits64.mul c.minute 60)
  bits64.add seconds c.second

/-- The instant at which a clock that keeps UTC shows `c`. -/
def toInstant? (c : WallClock) : Option Instant := do
  let days ← c.date.dayNumber?
  let millis ← bits64.add (← bits64.mul days 86400000) (← bits64.mul (← c.secondOfDay?) 1000)
  return .ofMillis (← bits64.add millis c.milli)

/-- The number of the day and the milliseconds since midnight.  Before 1970 the remainder may be
negative, and then the day before is meant. -/
def dayAndRest? (millis : Int) : Option (Int × Int) := do
  let days ← bits64.div millis 86400000
  let rest ← bits64.rem millis 86400000
  if rest < 0 then
    let rest ← bits64.add rest 86400000
    return (← bits64.sub days 1, rest)
  else return (days, rest)

/-- What a clock that keeps UTC shows at `t`. -/
def ofInstant? (t : Instant) : Option WallClock := do
  let (days, rest) ← dayAndRest? t.toMillis
  let date ← Date.ofDayNumber? days
  let hour ← bits32.keep (← bits64.div rest 3600000)
  let minute ← bits32.keep (← bits64.rem (← bits64.div rest 60000) 60)
  let second ← bits32.keep (← bits64.rem (← bits64.div rest 1000) 60)
  let milli ← bits32.keep (← bits64.rem rest 1000)
  return { date, hour, minute, second, milli }

theorem IsValid.timeOfDay_bounds {c : WallClock} (hc : c.IsValid) :
    0 ≤ c.timeOfDay ∧ c.timeOfDay < millisPerDay := by
  obtain ⟨-, hhour, hminute, hsecond, hmilli⟩ := hc
  unfold timeOfDay millisPerDay
  omega

theorem IsValid.secondOfDay?_eq {c : WallClock} (hc : c.IsValid) :
    c.secondOfDay? = some (c.hour * 3600 + c.minute * 60 + c.second) := by
  obtain ⟨-, hhour, hminute, hsecond, -⟩ := hc
  have hhours : bits64.mul c.hour 3600 = some (c.hour * 3600) :=
    mul_eq rfl (holds64_iff.2 (by omega))
  have hminutes : bits64.mul c.minute 60 = some (c.minute * 60) :=
    mul_eq rfl (holds64_iff.2 (by omega))
  have hboth : bits64.add (c.hour * 3600) (c.minute * 60) = some (c.hour * 3600 + c.minute * 60) :=
    add_eq rfl (holds64_iff.2 (by omega))
  have hseconds : bits64.add (c.hour * 3600 + c.minute * 60) c.second =
      some (c.hour * 3600 + c.minute * 60 + c.second) := add_eq rfl (holds64_iff.2 (by omega))
  simp only [secondOfDay?, hhours, hminutes, hboth, hseconds, Option.bind_eq_bind, Option.bind_some]

theorem IsValid.toInstant?_eq {c : WallClock} (hc : c.IsValid) (hword : c.date.HasWordYear)
    (hlow : -9223372036854775808 ≤ c.date.dayNumber * millisPerDay)
    (hhigh : c.date.dayNumber * millisPerDay + c.timeOfDay ≤ 9223372036854775807) :
    c.toInstant? = some c.toInstant := by
  have hseconds := hc.secondOfDay?_eq
  have hbounds := hc.timeOfDay_bounds
  obtain ⟨hdate, -, -, -, hmilli⟩ := hc
  have htime : c.timeOfDay = (c.hour * 3600 + c.minute * 60 + c.second) * 1000 + c.milli := rfl
  unfold millisPerDay at hlow hhigh hbounds
  generalize c.hour * 3600 + c.minute * 60 + c.second = seconds at *
  have hmidnight : bits64.mul c.date.dayNumber 86400000 = some (c.date.dayNumber * 86400000) :=
    mul_eq rfl (holds64_iff.2 (by omega))
  have hthousands : bits64.mul seconds 1000 = some (seconds * 1000) :=
    mul_eq rfl (holds64_iff.2 (by omega))
  have hsum : bits64.add (c.date.dayNumber * 86400000) (seconds * 1000) =
      some (c.date.dayNumber * 86400000 + seconds * 1000) := add_eq rfl (holds64_iff.2 (by omega))
  have hall : bits64.add (c.date.dayNumber * 86400000 + seconds * 1000) c.milli =
      some (c.date.dayNumber * millisPerDay + c.timeOfDay) :=
    add_eq (by unfold millisPerDay; omega) (holds64_iff.2 (by unfold millisPerDay; omega))
  unfold toInstant?
  simp only [Option.bind_eq_bind]
  rw [hdate.dayNumber?_eq hword, Option.bind_some, hmidnight, Option.bind_some, hseconds,
    Option.bind_some, hthousands, Option.bind_some, hsum, Option.bind_some, hall, Option.bind_some]
  rfl

theorem dayAndRest?_eq {n : Int} (hn : bits64.Holds n) :
    dayAndRest? n = some (n / millisPerDay, n % millisPerDay) := by
  rw [holds64_iff] at hn
  have hparts := Int.mul_tdiv_add_tmod n 86400000
  have hupper := Int.tmod_lt_of_pos n (by decide : (0 : Int) < 86400000)
  have hlower := Int.lt_tmod_of_pos n (by decide : (0 : Int) < 86400000)
  have hdays : bits64.div n 86400000 = some (n.tdiv 86400000) :=
    div_eq (by decide) rfl (holds64_iff.2 (by omega))
  have hrest : bits64.rem n 86400000 = some (n.tmod 86400000) :=
    rem_eq (by decide) rfl (holds64_iff.2 (by omega))
  unfold dayAndRest? millisPerDay
  simp only [Option.bind_eq_bind]
  rw [hdays, Option.bind_some, hrest, Option.bind_some]
  generalize n.tdiv 86400000 = q at *
  generalize n.tmod 86400000 = r at *
  by_cases hr : r < 0
  · have hup : bits64.add r 86400000 = some (n % 86400000) :=
      add_eq (by omega) (holds64_iff.2 (by omega))
    have hdown : bits64.sub q 1 = some (n / 86400000) :=
      sub_eq (by omega) (holds64_iff.2 (by omega))
    rw [if_pos hr, hup, Option.bind_some, hdown, Option.bind_some]
    rfl
  · have hq : q = n / 86400000 := by omega
    have hr' : r = n % 86400000 := by omega
    rw [if_neg hr, hq, hr']
    rfl

theorem ofInstant?_eq {t : Instant} {d : Date} (hd : d.IsValid) (hword : d.HasWordYear)
    (hday : t.toMillis / millisPerDay = d.dayNumber) : ofInstant? t = some (ofInstant t) := by
  have hresult : ofInstant t =
      { date := d
        hour := t.toMillis % millisPerDay / 3600000
        minute := t.toMillis % millisPerDay / 60000 % 60
        second := t.toMillis % millisPerDay / 1000 % 60
        milli := t.toMillis % millisPerDay % 1000 } := by
    unfold ofInstant
    rw [hday, hd.ofDayNumber_dayNumber hword]
  have hparts := dayAndRest?_eq (holds64_iff.2 t.toMillis_bounds)
  have hlow : 0 ≤ t.toMillis % millisPerDay := Int.emod_nonneg _ (by decide)
  have hhigh : t.toMillis % millisPerDay < 86400000 := Int.emod_lt_of_pos _ (by decide)
  rw [hresult]
  rw [hday] at hparts
  generalize t.toMillis % millisPerDay = r at *
  have hhour : bits64.div r 3600000 = some (r / 3600000) :=
    div_eq_of_nonneg (by decide) hlow rfl (holds64_iff.2 (by omega))
  have hminutes : bits64.div r 60000 = some (r / 60000) :=
    div_eq_of_nonneg (by decide) hlow rfl (holds64_iff.2 (by omega))
  have hminute : bits64.rem (r / 60000) 60 = some (r / 60000 % 60) :=
    rem_eq_of_nonneg (by decide) (by omega) rfl (holds64_iff.2 (by omega))
  have hseconds : bits64.div r 1000 = some (r / 1000) :=
    div_eq_of_nonneg (by decide) hlow rfl (holds64_iff.2 (by omega))
  have hsecond : bits64.rem (r / 1000) 60 = some (r / 1000 % 60) :=
    rem_eq_of_nonneg (by decide) (by omega) rfl (holds64_iff.2 (by omega))
  have hmilli : bits64.rem r 1000 = some (r % 1000) :=
    rem_eq_of_nonneg (by decide) hlow rfl (holds64_iff.2 (by omega))
  unfold ofInstant?
  simp only [Option.bind_eq_bind]
  rw [hparts, Option.bind_some, hd.ofDayNumber?_eq hword, Option.bind_some, hhour, Option.bind_some,
    keep_eq (holds32_iff.2 (by omega)), Option.bind_some, hminutes, Option.bind_some, hminute,
    Option.bind_some, keep_eq (holds32_iff.2 (by omega)), Option.bind_some, hseconds,
    Option.bind_some, hsecond, Option.bind_some, keep_eq (holds32_iff.2 (by omega)),
    Option.bind_some, hmilli, Option.bind_some, keep_eq (holds32_iff.2 (by omega)),
    Option.bind_some]
  rfl

end WallClock
end StrongMotion
