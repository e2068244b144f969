/-!
# Calendar dates

Days are numbered from 1970-01-01 in the proleptic Gregorian calendar.  Both directions count in
eras of 400 years that begin on the first of March, so that the leap day is the last day of its
year and the lengths of the other months follow one linear rule.
-/

namespace StrongMotion

/-- A year, a month and a day of the month, which need not name an existing day. -/
structure Date where
  year : Int := 1970
  month : Int := 1
  day : Int := 1
deriving DecidableEq, Repr

namespace Date

def isLeap (year : Int) : Bool := (year % 4 == 0 && year % 100 != 0) || year % 400 == 0

def monthLength (year month : Int) : Int :=
  if month = 2 then
    if isLeap year then 29 else 28
  else if month = 4 ∨ month = 6 ∨ month = 9 ∨ month = 11 then 30
  else 31

def IsValid (d : Date) : Prop :=
  1 ≤ d.month ∧ d.month ≤ 12 ∧ 1 ≤ d.day ∧ d.day ≤ monthLength d.year d.month

instance (d : Date) : Decidable d.IsValid := by unfold IsValid; infer_instance

def daysPerEra : Int := 146097

/-- The number of 1970-01-01 counted from 0000-03-01, the first day of an era. -/
def epochDay : Int := 719468

/-- The days from the first of March to the first of a month, which is counted from March on: the
months from March to July are 31, 30, 31, 30 and 31 days long, and so are the five after them. -/
def daysBeforeMonth (monthsAfterMarch : Int) : Int := (153 * monthsAfterMarch + 2).tdiv 5

/-- The number of the day, counted from 1970-01-01.  A day that lies outside its month counts on
from the first of the month. -/
def dayNumber (d : Date) : Int :=
  let year := if d.month ≤ 2 then d.year - 1 else d.year
  let monthsAfterMarch := if d.month > 2 then d.month - 3 else d.month + 9
  let era := year / 400
  let yearOfEra := year % 400
  let dayOfYear := daysBeforeMonth monthsAfterMarch + d.day - 1
  let dayOfEra := yearOfEra * 365 + yearOfEra / 4 - yearOfEra / 100 + dayOfYear
  era * daysPerEra + dayOfEra - epochDay

/-- The date of a numbered day.  Years are kept in 32 bits, which hold every year that a time in
milliseconds can reach. -/
def ofDayNumber (n : Int) : Date :=
  let z := n + epochDay
  let era := z / daysPerEra
  let dayOfEra := z % daysPerEra
  let yearOfEra := (dayOfEra - dayOfEra / 1460 + dayOfEra / 36524 - dayOfEra / 146096) / 365
  let dayOfYear := dayOfEra - (365 * yearOfEra + yearOfEra / 4 - yearOfEra / 100)
  let monthsAfterMarch := (5 * dayOfYear + 2) / 153
  let month := if monthsAfterMarch < 10 then monthsAfterMarch + 3 else monthsAfterMarch - 9
  let year := yearOfEra + era * 400 + if month ≤ 2 then 1 else 0
  { year := year.bmod 4294967296
    month
    day := dayOfYear - daysBeforeMonth monthsAfterMarch + 1 }

/-- The order of the calendar: by year, then by month, then by day. -/
def lt (a b : Date) : Prop :=
  a.year < b.year ∨ (a.year = b.year ∧ (a.month < b.month ∨ (a.month = b.month ∧ a.day < b.day)))

end Date
end StrongMotion
