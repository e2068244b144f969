import StrongMotion.Proofs.Decimals
import StrongMotion.Time.Timestamp

/-!
# The grammar of written times

A date is written as a year of four digits, a month and a day, with slashes between them, and a time
of day as an hour, a minute and a second with colons.  A text is read as a time exactly when it is a
date, a space and a time of day; what is read are the numbers that stand there
(`WallClock.scan?_eq_some_iff`).
-/

namespace StrongMotion

namespace Bytes

/-- A run of digits ends where no digit follows. -/
theorem takeDigits_append {s rest : Bytes} (hs : ∀ b ∈ s, Byte.isDigit b = true)
    (hrest : ∀ b, rest.head? = some b → Byte.isDigit b = false) : takeDigits (s ++ rest) = s := by
  show (s ++ rest).takeWhile Byte.isDigit = s
  rw [List.takeWhile_append_of_pos hs]
  cases rest with
  | nil => exact List.append_nil s
  | cons b rest =>
    rw [List.takeWhile_cons_of_neg (by rw [hrest b rfl]; exact Bool.false_ne_true), List.append_nil]

end Bytes

namespace WallClock

/-! ## Numbers and separators -/

theorem takeNumber?_append {s rest : Bytes} {least most : Nat} {n : Int}
    (hs : s.IsNumber least most n)
    (hrest : ∀ b, rest.head? = some b → Byte.isDigit b = false) :
    takeNumber? least most (s ++ rest) = some (n, rest) := by
  have hdigits : Bytes.takeDigits ((s ++ rest).take most) = s := by
    rw [List.take_append, List.take_of_length_le hs.le_most]
    refine Bytes.takeDigits_append hs.isDigit_of_mem fun b hb => hrest b ?_
    rw [List.head?_take] at hb
    split at hb
    · cases hb
    · exact hb
  unfold takeNumber?
  rw [hdigits, if_neg (Nat.not_lt.2 hs.least_le), List.drop_left, hs.eq_natValue]
  rfl

theorem exists_of_takeNumber? {s rest : Bytes} {least most : Nat} {n : Int}
    (h : takeNumber? least most s = some (n, rest)) :
    ∃ number : Bytes, s = number ++ rest ∧ number.IsNumber least most n := by
  have hprefix : Bytes.takeDigits (s.take most) <+: s.take most := List.takeWhile_prefix _
  have hlength := hprefix.length_le
  rw [List.length_take] at hlength
  obtain ⟨after, hafter⟩ := hprefix.trans (List.take_prefix most s)
  have hdigits := Bytes.isDigit_of_mem_takeDigits (s.take most)
  unfold takeNumber? at h
  generalize Bytes.takeDigits (s.take most) = digits at *
  dsimp only at h
  split at h
  · cases h
  · next hleast =>
    obtain ⟨rfl, rfl⟩ := Prod.mk.inj (Option.some.inj h)
    refine ⟨digits, ?_, hdigits, Nat.not_lt.1 hleast, by omega, rfl⟩
    rw [← hafter, List.drop_left]

/-- What is read before a separator is a number that stands there. -/
theorem takeNumber?_eq_some_iff {s rest : Bytes} {least most : Nat} {n : Int} {b : UInt8}
    (hb : Byte.isDigit b = false) :
    takeNumber? least most s = some (n, b :: rest) ↔
      ∃ number : Bytes, s = number ++ b :: rest ∧ number.IsNumber least most n := by
  constructor
  · exact exists_of_takeNumber?
  · intro ⟨number, hs, hnumber⟩
    rw [hs]
    refine takeNumber?_append hnumber fun c hc => ?_
    rw [← Option.some.inj hc, hb]

theorem takeNumber?_eq_some_nil_iff {s : Bytes} {least most : Nat} {n : Int} :
    takeNumber? least most s = some (n, []) ↔ s.IsNumber least most n := by
  constructor
  · intro h
    obtain ⟨number, rfl, hnumber⟩ := exists_of_takeNumber? h
    rw [List.append_nil]
    exact hnumber
  · intro hs
    have hread : takeNumber? least most (s ++ []) = some (n, []) :=
      takeNumber?_append hs fun b hb => nomatch hb
    rwa [List.append_nil] at hread

theorem takeByte?_eq_some_iff {b : Char} {s rest : Bytes} :
    takeByte? b s = some rest ↔ s = b.toUInt8 :: rest := by
  cases s with
  | nil => simp [takeByte?]
  | cons c s =>
    rw [takeByte?]
    by_cases hc : c = b.toUInt8
    · rw [if_pos hc, Option.some.injEq, hc, List.cons.injEq, and_iff_right rfl]
    · rw [if_neg hc, List.cons.injEq]
      constructor
      · intro h
        cases h
      · intro h
        exact absurd h.1 hc

end WallClock

/-! ## Dates and times of day -/

/-- The text writes the year, the month and the day of the date. -/
def Date.WrittenAs (d : Date) (s : Bytes) : Prop :=
  ∃ year month day : Bytes, s = year ++ "/" ++ month ++ "/" ++ day ∧
    year.IsNumber 4 4 d.year ∧ month.IsNumber 1 2 d.month ∧ day.IsNumber 1 2 d.day

/-- The text writes the hour, the minute and the second of the clock. -/
def WallClock.TimeWrittenAs (c : WallClock) (s : Bytes) : Prop :=
  ∃ hour minute second : Bytes, s = hour ++ ":" ++ minute ++ ":" ++ second ∧
    hour.IsNumber 1 2 c.hour ∧ minute.IsNumber 1 2 c.minute ∧ second.IsNumber 1 2 c.second

/-- The two texts write all numbers of the clock, which shows no fraction of a second. -/
structure WallClock.WrittenAs (c : WallClock) (date time : Bytes) : Prop where
  date : c.date.WrittenAs date
  time : c.TimeWrittenAs time
  milli : c.milli = 0

/-- A date can be written in a header. -/
def Date.HasFourDigitYear (d : Date) : Prop := 0 ≤ d.year ∧ d.year ≤ 9999

instance (d : Date) : Decidable d.HasFourDigitYear := by
  unfold Date.HasFourDigitYear
  infer_instance

theorem Date.WrittenAs.hasFourDigitYear {d : Date} {s : Bytes} (hd : d.WrittenAs s) :
    d.HasFourDigitYear := by
  obtain ⟨year, month, day, -, hyear, -⟩ := hd
  have hfour : tenTo 4 = 10000 := rfl
  have hbounds := hyear.bounds
  exact ⟨hbounds.1, by omega⟩

namespace WallClock

/-- What is read from a text are the numbers that stand in it, and a text is read if it has the form
of a time. -/
theorem scan?_eq_some_iff {s : Bytes} {c : WallClock} :
    scan? s = some c ↔ ∃ date time : Bytes, s = date ++ " " ++ time ∧ c.WrittenAs date time := by
  have hslash : Byte.isDigit '/'.toUInt8 = false := rfl
  have hspace : Byte.isDigit ' '.toUInt8 = false := rfl
  have hcolon : Byte.isDigit ':'.toUInt8 = false := rfl
  have htexts : ∀ year month day hour minute second : Bytes,
      year ++ "/" ++ month ++ "/" ++ day ++ " " ++ (hour ++ ":" ++ minute ++ ":" ++ second) =
        year ++ '/'.toUInt8 :: (month ++ '/'.toUInt8 :: (day ++ ' '.toUInt8 ::
          (hour ++ ':'.toUInt8 :: (minute ++ ':'.toUInt8 :: second)))) := by
    intro year month day hour minute second
    simp only [List.append_assoc]
    rfl
  constructor
  · intro h
    unfold scan? at h
    simp only [Option.bind_eq_bind, Option.bind_eq_some_iff, takeByte?_eq_some_iff] at h
    obtain ⟨⟨year, _⟩, hyear, _, rfl, ⟨month, _⟩, hmonth, _, rfl, ⟨day, _⟩, hday, _, rfl,
      ⟨hour, _⟩, hhour, _, rfl, ⟨minute, _⟩, hminute, _, rfl, ⟨second, rest⟩, hsecond, h⟩ := h
    obtain ⟨yearText, rfl, hyearText⟩ := (takeNumber?_eq_some_iff hslash).1 hyear
    obtain ⟨monthText, rfl, hmonthText⟩ := (takeNumber?_eq_some_iff hslash).1 hmonth
    obtain ⟨dayText, rfl, hdayText⟩ := (takeNumber?_eq_some_iff hspace).1 hday
    obtain ⟨hourText, rfl, hhourText⟩ := (takeNumber?_eq_some_iff hcolon).1 hhour
    obtain ⟨minuteText, rfl, hminuteText⟩ := (takeNumber?_eq_some_iff hcolon).1 hminute
    split at h
    · next hend =>
      obtain rfl := Option.some.inj h
      obtain rfl : rest = [] := List.isEmpty_iff.1 hend
      have hsecondText := takeNumber?_eq_some_nil_iff.1 hsecond
      exact ⟨_, _, (htexts _ _ _ _ _ _).symm, ⟨_, _, _, rfl, hyearText, hmonthText, hdayText⟩,
        ⟨_, _, _, rfl, hhourText, hminuteText, hsecondText⟩, rfl⟩
    · cases h
  · intro h
    obtain ⟨_, _, rfl, ⟨year, month, day, rfl, hyear, hmonth, hday⟩,
      ⟨hour, minute, second, rfl, hhour, hminute, hsecond⟩, hmilli⟩ := h
    have hbyte : ∀ (b : Char) (rest : Bytes), takeByte? b (b.toUInt8 :: rest) = some rest :=
      fun _ _ => takeByte?_eq_some_iff.2 rfl
    rw [htexts]
    unfold scan?
    simp only [Option.bind_eq_bind]
    rw [(takeNumber?_eq_some_iff hslash).2 ⟨year, rfl, hyear⟩, Option.bind_some, hbyte,
      Option.bind_some, (takeNumber?_eq_some_iff hslash).2 ⟨month, rfl, hmonth⟩, Option.bind_some,
      hbyte, Option.bind_some, (takeNumber?_eq_some_iff hspace).2 ⟨day, rfl, hday⟩,
      Option.bind_some, hbyte, Option.bind_some,
      (takeNumber?_eq_some_iff hcolon).2 ⟨hour, rfl, hhour⟩, Option.bind_some, hbyte,
      Option.bind_some, (takeNumber?_eq_some_iff hcolon).2 ⟨minute, rfl, hminute⟩,
      Option.bind_some, hbyte, Option.bind_some, takeNumber?_eq_some_nil_iff.2 hsecond,
      Option.bind_some]
    obtain ⟨date, hour', minute', second', milli⟩ := c
    obtain rfl : milli = 0 := hmilli
    rfl

theorem read?_eq_some_iff {s : Bytes} {c : WallClock} :
    read? s = some c ↔
      c.IsValid ∧ ∃ date time : Bytes, s = date ++ " " ++ time ∧ c.WrittenAs date time := by
  rw [← scan?_eq_some_iff]
  unfold read?
  cases scan? s with
  | none => simp
  | some c' =>
    dsimp only
    rw [Option.some.injEq]
    constructor
    · intro h
      split at h
      · next hvalid =>
        obtain rfl := Option.some.inj h
        exact ⟨hvalid, rfl⟩
      · cases h
    · intro ⟨hvalid, heq⟩
      rw [heq, if_pos hvalid]

/-- Two texts write one clock at most. -/
theorem WrittenAs.unique {c c' : WallClock} {date time : Bytes} (hc : c.WrittenAs date time)
    (hc' : c'.WrittenAs date time) : c = c' := by
  have hscan := scan?_eq_some_iff.2 ⟨date, time, rfl, hc⟩
  have hscan' := scan?_eq_some_iff.2 ⟨date, time, rfl, hc'⟩
  exact Option.some.inj (hscan.symm.trans hscan')

end WallClock
end StrongMotion
