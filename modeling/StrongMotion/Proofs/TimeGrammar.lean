import StrongMotion.Proofs.Calendar
import StrongMotion.Proofs.WrittenTimes

/-!
# The times that a header can write

A time in a header is a date of the Gregorian calendar and a time of day, each number in as many
digits as its place allows.  All texts of that form are read, and no others
(`WallClock.read?_eq_some_iff_form`); whether a number below ten has a zero before it makes no
difference.
-/

namespace StrongMotion

/-! ## The Gregorian calendar -/

/-- The calendar has the date: thirty days are in April, June, September and November, 28 in
February and one more in a leap year, which is every fourth year but of the centuries only every
fourth. -/
def Date.IsGregorian (d : Date) : Prop :=
  1 ≤ d.day ∧
    (d.month ∈ ([1, 3, 5, 7, 8, 10, 12] : List Int) ∧ d.day ≤ 31 ∨
      d.month ∈ ([4, 6, 9, 11] : List Int) ∧ d.day ≤ 30 ∨
      d.month = 2 ∧ (d.day ≤ 28 ∨ d.day = 29 ∧ 4 ∣ d.year ∧ (¬100 ∣ d.year ∨ 400 ∣ d.year)))

instance (d : Date) : Decidable d.IsGregorian := by unfold Date.IsGregorian; infer_instance

theorem Date.isLeap_iff_dvd {year : Int} :
    isLeap year = true ↔ 4 ∣ year ∧ (¬100 ∣ year ∨ 400 ∣ year) := by
  rw [isLeap_iff]
  omega

theorem Date.isValid_iff_isGregorian {d : Date} : d.IsValid ↔ d.IsGregorian := by
  unfold IsValid IsGregorian monthLength
  simp only [List.mem_cons, List.not_mem_nil, or_false, ← isLeap_iff_dvd]
  by_cases hleap : isLeap d.year = true
  · rw [if_pos hleap]
    simp only [hleap, and_true]
    omega
  · rw [if_neg hleap]
    simp only [hleap, Bool.false_eq_true, and_false, or_false]
    omega

/-! ## Texts of one time -/

/-- Which numbers below ten have a zero before them. -/
structure Padding where
  month : Bool
  day : Bool
  hour : Bool
  minute : Bool
  second : Bool

/-- One digit or two, filled up to two if asked for. -/
def Padding.number (filled : Bool) (n : Int) : Bytes := Bytes.padded (if filled then 2 else 1) n

theorem Padding.isNumber_number {filled : Bool} {n : Int} (hlow : 0 ≤ n) (hhigh : n < 100) :
    (number filled n).IsNumber 1 2 n := by
  have hwidth : tenTo 2 = 100 := rfl
  have hnumber : ∀ width, 1 ≤ width → width ≤ 2 → (Bytes.padded width n).IsNumber 1 2 n := by
    intro width hone htwo
    obtain ⟨hdigits, hleast, hmost, hvalue⟩ :=
      Bytes.isNumber_padded hone htwo hlow (by omega : n < tenTo 2)
    exact ⟨hdigits, Nat.le_trans hone hleast, hmost, hvalue⟩
  unfold number
  split
  · exact hnumber 2 (by decide) (by decide)
  · exact hnumber 1 (by decide) (by decide)

namespace WallClock

/-- The form of a time in a header. -/
def HasForm (c : WallClock) (s : Bytes) : Prop :=
  ∃ year month day hour minute second : Bytes,
    s = year ++ "/" ++ month ++ "/" ++ day ++ " " ++ hour ++ ":" ++ minute ++ ":" ++ second ∧
      year.IsNumber 4 4 c.date.year ∧ month.IsNumber 1 2 c.date.month ∧
      day.IsNumber 1 2 c.date.day ∧ hour.IsNumber 1 2 c.hour ∧
      minute.IsNumber 1 2 c.minute ∧ second.IsNumber 1 2 c.second

/-- The time as a header writes it. -/
def headerText (p : Padding) (c : WallClock) : Bytes :=
  Bytes.padded 4 c.date.year ++ "/" ++ Padding.number p.month c.date.month ++ "/" ++
    Padding.number p.day c.date.day ++ " " ++ Padding.number p.hour c.hour ++ ":" ++
    Padding.number p.minute c.minute ++ ":" ++ Padding.number p.second c.second

theorem hasForm_iff_written {c : WallClock} {s : Bytes} :
    c.HasForm s ∧ c.milli = 0 ↔
      ∃ date time : Bytes, s = date ++ " " ++ time ∧ c.WrittenAs date time := by
  constructor
  · rintro ⟨⟨year, month, day, hour, minute, second, rfl, hyear, hmonth, hday, hhour, hminute,
      hsecond⟩, hmilli⟩
    refine ⟨_, hour ++ ":" ++ minute ++ ":" ++ second, ?_,
      ⟨year, month, day, rfl, hyear, hmonth, hday⟩,
      ⟨hour, minute, second, rfl, hhour, hminute, hsecond⟩, hmilli⟩
    simp only [List.append_assoc]
  · rintro ⟨_, _, rfl, ⟨year, month, day, rfl, hyear, hmonth, hday⟩,
      ⟨hour, minute, second, rfl, hhour, hminute, hsecond⟩, hmilli⟩
    refine ⟨⟨year, month, day, hour, minute, second, ?_, hyear, hmonth, hday, hhour, hminute,
      hsecond⟩, hmilli⟩
    simp only [List.append_assoc]

theorem hasForm_headerText {c : WallClock} (hc : c.IsValid) (hyear : c.date.HasFourDigitYear)
    (p : Padding) : c.HasForm (headerText p c) := by
  have hfour : tenTo 4 = 10000 := rfl
  obtain ⟨⟨hmonth, hmonth', hday, hday'⟩, hhour, hminute, hsecond, -⟩ := hc
  have hlength := Date.monthLength_le c.date.year c.date.month
  exact ⟨_, _, _, _, _, _, rfl,
    Bytes.isNumber_padded (by decide) (Nat.le_refl 4) hyear.1
      (by obtain ⟨-, hlast⟩ := hyear; omega),
    Padding.isNumber_number (by omega) (by omega), Padding.isNumber_number (by omega) (by omega),
    Padding.isNumber_number hhour.1 (by omega), Padding.isNumber_number hminute.1 (by omega),
    Padding.isNumber_number hsecond.1 (by omega)⟩

/-- A text is read as a time exactly if it has the form of one, from the first byte to the last, and
the six numbers in it are a date of the calendar and a time of day; those numbers are what is read,
with no fraction of a second.  So every text of a time that exists is read as that time, whichever
of its numbers are filled up. -/
theorem read?_eq_some_iff_form :
    (∀ (s : Bytes) (c : WallClock), read? s = some c ↔
      c.HasForm s ∧ c.milli = 0 ∧ c.date.IsGregorian ∧
        c.hour ≤ 23 ∧ c.minute ≤ 59 ∧ c.second ≤ 59) ∧
    ∀ (c : WallClock) (p : Padding), c.IsValid → c.date.HasFourDigitYear → c.milli = 0 →
      read? (headerText p c) = some c := by
  have hvalid : ∀ (s : Bytes) (c : WallClock), read? s = some c ↔
      c.IsValid ∧ c.HasForm s ∧ c.milli = 0 := fun s c => by
    rw [read?_eq_some_iff, hasForm_iff_written]
  refine ⟨fun s c => ?_, fun c p hc hyear hmilli => ?_⟩
  · rw [hvalid]
    constructor
    · rintro ⟨⟨hdate, ⟨-, hhour⟩, ⟨-, hminute⟩, ⟨-, hsecond⟩, -⟩, hform, hmilli⟩
      exact ⟨hform, hmilli, Date.isValid_iff_isGregorian.1 hdate, hhour, hminute, hsecond⟩
    · rintro ⟨hform, hmilli, hdate, hhour, hminute, hsecond⟩
      obtain ⟨_, _, _, _, _, _, -, -, -, -, hhours, hminutes, hseconds⟩ := id hform
      exact ⟨⟨Date.isValid_iff_isGregorian.2 hdate, ⟨hhours.bounds.1, hhour⟩,
        ⟨hminutes.bounds.1, hminute⟩, ⟨hseconds.bounds.1, hsecond⟩, by omega⟩, hform, hmilli⟩
  · exact (hvalid _ c).2 ⟨hc, hasForm_headerText hc hyear p, hmilli⟩

/-- The leap day of a year that is a whole number of centuries, with some numbers filled up. -/
theorem read?_eq_some_iff_form_leapDay :
    headerText ⟨false, true, true, false, true⟩ ⟨⟨2000, 2, 29⟩, 3, 4, 5, 0⟩ = "2000/2/29 03:4:05" ∧
      read? (headerText ⟨false, true, true, false, true⟩ ⟨⟨2000, 2, 29⟩, 3, 4, 5, 0⟩) =
        some ⟨⟨2000, 2, 29⟩, 3, 4, 5, 0⟩ :=
  ⟨by decide +kernel, read?_eq_some_iff_form.2 _ _ (by decide) (by decide) rfl⟩

end WallClock
end StrongMotion
