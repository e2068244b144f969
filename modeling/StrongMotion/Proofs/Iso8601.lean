import Mathlib.Data.List.Forall2
import StrongMotion.Proofs.HeaderTimes
import StrongMotion.Proofs.TimeStamps

/-!
# Times by ISO 8601

In the years 0 to 9999 every number of a stamp has its columns, and what stands there is what the
clock shows; so the stamps of whole seconds are in the order of their instants, byte by byte.
Outside those years the stamp still tells the instant, but it has another shape
(`Instant.iso8601_tells_instant`).
-/

namespace StrongMotion

namespace Bytes

/-- The number in some columns of a text; columns behind its end are empty. -/
def numberAt (s : Bytes) (first count : Nat) : Int := natValue ((s.drop first).take count)

section

variable {width : Nat} {n : Int} (hn : Fits width n)
include hn

theorem numberAt_field (s : Bytes) : (padded width n ++ s).numberAt 0 width = n := by
  unfold numberAt
  rw [List.drop_zero, List.take_left' hn.length_padded]
  exact hn.isNumber_padded.eq_natValue.symm

/-- The columns behind a number and the mark that ends it. -/
theorem numberAt_behind (b : UInt8) (s : Bytes) (first count : Nat) :
    (padded width n ++ b :: s).numberAt (width + 1 + first) count = s.numberAt first count := by
  have hlength : (padded width n ++ [b]).length = width + 1 := by
    rw [List.length_append, hn.length_padded, List.length_singleton]
  unfold numberAt
  rw [← List.singleton_append, ← List.append_assoc, ← List.drop_drop, List.drop_left' hlength]

end

/-- The text looks like the pattern, where a zero stands for any digit. -/
def HasShape (pattern s : Bytes) : Prop :=
  List.Forall₂ (fun p b => if p = 48 then Byte.isDigit b = true else b = p) pattern s

theorem HasShape.append {pattern pattern' s s' : Bytes} (hs : HasShape pattern s)
    (hs' : HasShape pattern' s') : HasShape (pattern ++ pattern') (s ++ s') :=
  List.rel_append hs hs'

theorem hasShape_zeros {s : Bytes} (hs : ∀ b ∈ s, Byte.isDigit b = true) :
    HasShape (zeros s.length) s := by
  induction s with
  | nil => exact List.Forall₂.nil
  | cons b s ih =>
    obtain ⟨hb, hs⟩ := List.forall_mem_cons.1 hs
    exact List.Forall₂.cons hb (ih hs)

theorem Fits.hasShape_padded {width : Nat} {n : Int} (hn : Fits width n) :
    HasShape (zeros width) (padded width n) := by
  have hshape := hasShape_zeros hn.isNumber_padded.isDigit_of_mem
  rwa [hn.length_padded] at hshape

theorem hasShape_mark {b : UInt8} (hb : b ≠ 48) : HasShape [b] [b] :=
  List.Forall₂.cons (by rw [if_neg hb]) List.Forall₂.nil

/-- A further number is put behind a mark. -/
theorem HasShape.append_field {pattern s : Bytes} (hs : HasShape pattern s) {b : UInt8}
    (hb : b ≠ 48) {width : Nat} {n : Int} (hn : Fits width n) :
    HasShape (pattern ++ [b] ++ zeros width) (s ++ [b] ++ padded width n) :=
  (hs.append (hasShape_mark hb)).append hn.hasShape_padded

end Bytes

/-! ## What a stamp shows -/

theorem Date.HasFourDigitYear.fits {d : Date} (hd : d.HasFourDigitYear) : Bytes.Fits 4 d.year := by
  have hwidth : tenTo 4 = 10000 := rfl
  exact ⟨by decide, hd.1, by have := hd.2; omega⟩

namespace WallClock

/-- The stamp of what a clock shows in UTC. -/
def stamp (c : WallClock) : Bytes := datePart "-" c.date ++ "T" ++ timePart ":" c ++ "Z"

theorem stamp_eq (c : WallClock) :
    c.stamp = Bytes.padded 4 c.date.year ++ '-'.toUInt8 ::
      (Bytes.padded 2 c.date.month ++ '-'.toUInt8 ::
        (Bytes.padded 2 c.date.day ++ 'T'.toUInt8 ::
          (Bytes.padded 2 c.hour ++ ':'.toUInt8 ::
            (Bytes.padded 2 c.minute ++ ':'.toUInt8 ::
              (Bytes.padded 2 c.second ++ (c.fraction ++ "Z")))))) := by
  unfold stamp datePart timePart
  simp only [List.append_assoc]
  rfl

/-- The clock whose numbers stand in the columns of a stamp. -/
def ofColumns (s : Bytes) : WallClock where
  date := { year := s.numberAt 0 4, month := s.numberAt 5 2, day := s.numberAt 8 2 }
  hour := s.numberAt 11 2
  minute := s.numberAt 14 2
  second := s.numberAt 17 2
  milli := s.numberAt 20 3

/-- The shape of a stamp, which is longer where there is a fraction of a second. -/
def stampShape (c : WallClock) : Bytes :=
  if c.milli = 0 then "0000-00-00T00:00:00Z" else "0000-00-00T00:00:00.000Z"

section

variable {c : WallClock} (hc : c.IsValid)
include hc

theorem hasShape_timePart :
    Bytes.HasShape (Bytes.ofString "00:00:00" ++ if c.milli = 0 then [] else Bytes.ofString ".000")
      (timePart ":" c) := by
  obtain ⟨hhour, hminute, hsecond, hmilli⟩ := hc.fits
  have hcolon : ':'.toUInt8 ≠ 48 := by decide
  have hclock := (hhour.hasShape_padded.append_field hcolon hminute).append_field hcolon hsecond
  refine hclock.append ?_
  unfold fraction
  split
  · exact List.Forall₂.nil
  · exact (Bytes.hasShape_mark (by decide)).append hmilli.hasShape_padded

variable (hyear : c.date.HasFourDigitYear)
include hyear

theorem hasShape_datePart : Bytes.HasShape "0000-00-00" (datePart "-" c.date) := by
  obtain ⟨hmonth, hday⟩ := hc.1.fits
  have hdash : '-'.toUInt8 ≠ 48 := by decide
  exact (hyear.fits.hasShape_padded.append_field hdash hmonth).append_field hdash hday

theorem hasShape_stamp : Bytes.HasShape c.stampShape c.stamp := by
  have hshape : c.stampShape =
      Bytes.ofString "0000-00-00" ++ "T" ++
        (Bytes.ofString "00:00:00" ++ if c.milli = 0 then [] else Bytes.ofString ".000") ++
          "Z" := by
    unfold stampShape
    split <;> rfl
  rw [hshape]
  exact (((hasShape_datePart hc hyear).append (Bytes.hasShape_mark (by decide))).append
    (hasShape_timePart hc)).append (Bytes.hasShape_mark (by decide))

/-- The columns are the places of the numbers. -/
theorem ofColumns_stamp : ofColumns c.stamp = c := by
  have hyears := hyear.fits
  obtain ⟨hmonth, hday⟩ := hc.1.fits
  obtain ⟨hhour, hminute, hsecond, hmilli⟩ := hc.fits
  -- Behind the second stands the point of a fraction, or else the end of the stamp.
  obtain ⟨b, rest, hend, hmillis⟩ : ∃ (b : UInt8) (rest : Bytes),
      c.fraction ++ Bytes.ofString "Z" = b :: rest ∧ rest.numberAt 0 3 = c.milli := by
    unfold fraction
    split
    · next hzero => exact ⟨'Z'.toUInt8, [], rfl, hzero.symm⟩
    · exact ⟨'.'.toUInt8, Bytes.padded 3 c.milli ++ Bytes.ofString "Z", rfl,
        Bytes.numberAt_field hmilli _⟩
  have hbehindDate : ∀ (s : Bytes) (first count : Nat),
      (Bytes.padded 4 c.date.year ++ '-'.toUInt8 :: (Bytes.padded 2 c.date.month ++ '-'.toUInt8 ::
        (Bytes.padded 2 c.date.day ++ 'T'.toUInt8 :: s))).numberAt (11 + first) count =
          s.numberAt first count := by
    intro s first count
    have hcolumns : 11 + first = 4 + 1 + (2 + 1 + (2 + 1 + first)) := by omega
    rw [hcolumns, Bytes.numberAt_behind hyears, Bytes.numberAt_behind hmonth,
      Bytes.numberAt_behind hday]
  unfold ofColumns
  rw [stamp_eq, hend]
  obtain ⟨⟨year, month, day⟩, hour, minute, second, milli⟩ := c
  simp only [WallClock.mk.injEq, Date.mk.injEq]
  refine ⟨⟨?_, ?_, ?_⟩, ?_, ?_, ?_, ?_⟩
  · exact Bytes.numberAt_field hyears _
  · exact (Bytes.numberAt_behind hyears _ _ 0 2).trans (Bytes.numberAt_field hmonth _)
  · exact (Bytes.numberAt_behind hyears _ _ 3 2).trans
      ((Bytes.numberAt_behind hmonth _ _ 0 2).trans (Bytes.numberAt_field hday _))
  · exact (hbehindDate _ 0 2).trans (Bytes.numberAt_field hhour _)
  · exact (hbehindDate _ 3 2).trans
      ((Bytes.numberAt_behind hhour _ _ 0 2).trans (Bytes.numberAt_field hminute _))
  · exact (hbehindDate _ 6 2).trans ((Bytes.numberAt_behind hhour _ _ 3 2).trans
      ((Bytes.numberAt_behind hminute _ _ 0 2).trans (Bytes.numberAt_field hsecond _)))
  · exact (hbehindDate _ 9 3).trans ((Bytes.numberAt_behind hhour _ _ 6 3).trans
      ((Bytes.numberAt_behind hminute _ _ 3 3).trans
        ((Bytes.numberAt_behind hsecond _ _ 0 3).trans hmillis)))

end

/-- Only the year of a stamp can be of another length. -/
theorem length_stamp {c : WallClock} (hc : c.IsValid)
    (hyear : (Bytes.padded 4 c.date.year).length = 4) :
    c.stamp.length = if c.milli = 0 then 20 else 24 := by
  obtain ⟨hmonth, hday⟩ := hc.1.fits
  obtain ⟨hhour, hminute, hsecond, hmilli⟩ := hc.fits
  have hfraction : (c.fraction ++ Bytes.ofString "Z").length = if c.milli = 0 then 1 else 5 := by
    unfold fraction
    split
    · rfl
    · rw [List.length_append, List.length_append, hmilli.length_padded]
      rfl
  rw [stamp_eq]
  simp only [List.length_append, List.length_cons, hyear, hmonth.length_padded, hday.length_padded,
    hhour.length_padded, hminute.length_padded, hsecond.length_padded] at hfraction ⊢
  rw [hfraction]
  split <;> rfl

/-- The order of clocks as one chain of fields, from the year to the millisecond. -/
theorem lt_iff_fields {c c' : WallClock} :
    c.lt c' ↔ c.date.year < c'.date.year ∨ c.date.year = c'.date.year ∧
      (c.date.month < c'.date.month ∨ c.date.month = c'.date.month ∧
        (c.date.day < c'.date.day ∨ c.date.day = c'.date.day ∧
          (c.hour < c'.hour ∨ c.hour = c'.hour ∧
            (c.minute < c'.minute ∨ c.minute = c'.minute ∧
              (c.second < c'.second ∨ c.second = c'.second ∧ c.milli < c'.milli))))) := by
  obtain ⟨⟨year, month, day⟩, hour, minute, second, milli⟩ := c
  obtain ⟨⟨year', month', day'⟩, hour', minute', second', milli'⟩ := c'
  simp only [lt, Date.lt, Date.mk.injEq]
  omega

/-- Fields are compared from the year on, and the first that differs decides. -/
theorem stamp_lt_of_lt {c c' : WallClock} (hc : c.IsValid) (hc' : c'.IsValid)
    (hyear : c.date.HasFourDigitYear) (hyear' : c'.date.HasFourDigitYear) (hmilli : c.milli = 0)
    (hmilli' : c'.milli = 0) (h : c.lt c') : c.stamp < c'.stamp := by
  obtain ⟨hmonth, hday⟩ := hc.1.fits
  obtain ⟨hmonth', hday'⟩ := hc'.1.fits
  obtain ⟨hhour, hminute, hsecond, -⟩ := hc.fits
  obtain ⟨hhour', hminute', hsecond', -⟩ := hc'.fits
  have hfraction : c.fraction = c'.fraction := fraction_inj.2 (hmilli.trans hmilli'.symm)
  rw [lt_iff_fields] at h
  rw [stamp_eq, stamp_eq, hfraction]
  refine Bytes.field_lt hyear.fits hyear'.fits (h.imp_right (And.imp_right fun h => ?_))
  refine Bytes.field_lt hmonth hmonth' (h.imp_right (And.imp_right fun h => ?_))
  refine Bytes.field_lt hday hday' (h.imp_right (And.imp_right fun h => ?_))
  refine Bytes.field_lt hhour hhour' (h.imp_right (And.imp_right fun h => ?_))
  refine Bytes.field_lt hminute hminute' (h.imp_right (And.imp_right fun h => ?_))
  refine Bytes.padded_append_lt hsecond hsecond' (Or.inl ?_)
  omega

end WallClock

namespace Instant

open WallClock

theorem iso8601_eq (t : Instant) : t.iso8601 = (ofInstant t).stamp := rfl

theorem iso8601_inj {t u : Instant} : t.iso8601 = u.iso8601 ↔ t = u := by
  constructor
  · intro h
    rw [iso8601_eq, iso8601_eq, stamp, stamp] at h
    exact ofInstant_inj.1 ((dateTime_inj (by decide) (isValid_ofInstant t) (isValid_ofInstant u)).1
      (List.append_cancel_right h))
  · intro h
    rw [h]

/-- The stamp has room in 40 bytes, the closing zero included. -/
theorem length_iso8601_lt (t : Instant) : t.iso8601.length < 40 := by
  have hlength := t.length_dateTime_le "-" ":"
  have hdash : (Bytes.ofString "-").length = 1 := rfl
  have hcolon : (Bytes.ofString ":").length = 1 := rfl
  have hzone : (Bytes.ofString "Z").length = 1 := rfl
  rw [iso8601_eq, stamp, List.length_append]
  omega

/-- The clock shows a year of at most four digits and no sign. -/
def HasFourDigitYear (t : Instant) : Prop := (ofInstant t).date.HasFourDigitYear

instance (t : Instant) : Decidable t.HasFourDigitYear := by
  unfold HasFourDigitYear
  infer_instance

theorem milli_ofInstant_eq_zero_iff {t : Instant} : (ofInstant t).milli = 0 ↔ t.IsWholeSecond := by
  show t.toMillis % millisPerDay % 1000 = 0 ↔ t.toMillis % 1000 = 0
  unfold millisPerDay
  omega

theorem toMillis_lt_iff_ofInstant_lt {t u : Instant} (ht : t.HasFourDigitYear)
    (hu : u.HasFourDigitYear) : t.toMillis < u.toMillis ↔ (ofInstant t).lt (ofInstant u) := by
  have horder := toMillis_toInstant_lt_iff (isValid_ofInstant t) (isValid_ofInstant u)
    (Date.HasFourDigitYear.hasReachableYear ht) (Date.HasFourDigitYear.hasReachableYear hu)
  rwa [toInstant_ofInstant, toInstant_ofInstant] at horder

theorem iso8601_lt_of_lt {t u : Instant} (ht : t.HasFourDigitYear) (hu : u.HasFourDigitYear)
    (hwhole : t.IsWholeSecond) (hwhole' : u.IsWholeSecond) (h : t.toMillis < u.toMillis) :
    t.iso8601 < u.iso8601 :=
  stamp_lt_of_lt (isValid_ofInstant t) (isValid_ofInstant u) ht hu
    (milli_ofInstant_eq_zero_iff.2 hwhole) (milli_ofInstant_eq_zero_iff.2 hwhole')
    ((toMillis_lt_iff_ofInstant_lt ht hu).1 h)

theorem iso8601_lt_iff {t u : Instant} (ht : t.HasFourDigitYear) (hu : u.HasFourDigitYear)
    (hwhole : t.IsWholeSecond) (hwhole' : u.IsWholeSecond) :
    t.iso8601 < u.iso8601 ↔ t.toMillis < u.toMillis := by
  refine ⟨fun h => ?_, iso8601_lt_of_lt ht hu hwhole hwhole'⟩
  rcases Int.lt_trichotomy t.toMillis u.toMillis with hlt | heq | hgt
  · exact hlt
  · rw [toMillis_inj.1 heq] at h
    exact absurd h (List.lt_irrefl _)
  · exact absurd (iso8601_lt_of_lt hu ht hwhole' hwhole hgt) (List.lt_asymm h)

/-- No two instants have the same stamp, and every stamp has room in 40 bytes.  In the years 0 to
9999 it is 20 bytes long, or 24 with a fraction of a second, and its columns hold what the clock
shows; the stamps of whole seconds in those years are in the order of the instants. -/
theorem iso8601_tells_instant :
    (∀ t u : Instant, t.iso8601 = u.iso8601 ↔ t = u) ∧
    (∀ t : Instant, t.iso8601.length < 40) ∧
    (∀ t : Instant, t.HasFourDigitYear →
      t.iso8601.length = (if (ofInstant t).milli = 0 then 20 else 24) ∧
        Bytes.HasShape (ofInstant t).stampShape t.iso8601 ∧
        ofColumns t.iso8601 = ofInstant t) ∧
    ∀ t u : Instant, t.HasFourDigitYear → u.HasFourDigitYear → t.IsWholeSecond → u.IsWholeSecond →
      (t.iso8601 < u.iso8601 ↔ t.toMillis < u.toMillis) := by
  refine ⟨fun t u => iso8601_inj, length_iso8601_lt, fun t ht => ?_, fun t u => iso8601_lt_iff⟩
  have hvalid := isValid_ofInstant t
  exact ⟨length_stamp hvalid ht.fits.length_padded, hasShape_stamp hvalid ht,
    ofColumns_stamp hvalid ht⟩

/-- A fraction of a second before 1970, and the first and the last second of the years with four
digits. -/
theorem iso8601_tells_instant_of_early :
    (ofMillis (-1)).iso8601.length = 24 ∧
      ofColumns (ofMillis (-1)).iso8601 = ⟨⟨1969, 12, 31⟩, 23, 59, 59, 999⟩ ∧
      ((ofMillis (-62167219200000)).iso8601 < (ofMillis 253402300799000).iso8601 ↔
        (ofMillis (-62167219200000)).toMillis < (ofMillis 253402300799000).toMillis) := by
  obtain ⟨-, -, hcolumns, horder⟩ := iso8601_tells_instant
  obtain ⟨hlength, -, hclock⟩ := hcolumns (ofMillis (-1)) (by decide +kernel)
  exact ⟨hlength, hclock, horder _ _ (by decide +kernel) (by decide +kernel) (by decide +kernel)
    (by decide +kernel)⟩

end Instant
end StrongMotion
