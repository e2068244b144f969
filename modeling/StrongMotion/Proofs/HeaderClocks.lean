import StrongMotion.Proofs.HeaderReading
import StrongMotion.Proofs.HeaderTimes
import StrongMotion.Proofs.Words

/-!
# The clocks that a header was written by

A header is written by clocks in Japan, and the recorder's clock is read fifteen seconds late.  From
the three times that are kept, those clocks come back with the very numbers that the lines hold, and
the times of two headers are in the order of their clocks (`Header.clocks_of_read`).
-/

namespace StrongMotion

/-- The times that a header keeps. -/
inductive HeaderTime
  | origin
  | start
  | lastCorrection
deriving DecidableEq, Repr

namespace HeaderTime

/-- The item whose line writes the time. -/
def item : HeaderTime → HeaderItem
  | origin => .originTime
  | start => .recordTime
  | lastCorrection => .lastCorrection

def instant : HeaderTime → Header → Instant
  | origin, h => h.event.origin
  | start, h => h.recording.start
  | lastCorrection, h => h.recording.lastCorrection

/-- The milliseconds by which the written clock is ahead: nine hours, and fifteen seconds more for
the recorder. -/
def ahead : HeaderTime → Int
  | origin | lastCorrection => 32400000
  | start => 32400000 + 15000

/-- The time's line writes the clock in its fields 2 and 3. -/
def WrittenIn (time : HeaderTime) (lines : List Bytes) (c : WallClock) : Prop :=
  ∃ (i : Nat) (line date clock : Bytes), HeaderItem.inOrder[i]? = some time.item ∧
    lines[i]? = some line ∧ line.words[2]? = some date ∧ line.words[3]? = some clock ∧
      c.WrittenAs date clock

/-- The clock shows a time that exists, and the header keeps the instant at which it did so. -/
structure Keeps (time : HeaderTime) (h : Header) (c : WallClock) : Prop where
  isValid : c.IsValid
  year : c.date.HasFourDigitYear
  toMillis_eq : (time.instant h).toMillis = c.toInstant.toMillis - time.ahead

theorem WrittenIn.unique {time : HeaderTime} {lines : List Bytes} {c c' : WallClock}
    (hc : time.WrittenIn lines c) (hc' : time.WrittenIn lines c') : c = c' := by
  obtain ⟨i, line, date, clock, hitem, hline, hdate, hclock, hwritten⟩ := hc
  obtain ⟨i', line', date', clock', hitem', hline', hdate', hclock', hwritten'⟩ := hc'
  obtain rfl := Header.line_unique hitem hline hitem' hline'
  obtain rfl := Option.some.inj (hdate.symm.trans hdate')
  obtain rfl := Option.some.inj (hclock.symm.trans hclock')
  exact hwritten.unique hwritten'

theorem WrittenIn.milli {time : HeaderTime} {lines : List Bytes} {c : WallClock}
    (hc : time.WrittenIn lines c) : c.milli = 0 := by
  obtain ⟨_, _, _, _, -, -, -, -, hwritten⟩ := hc
  exact hwritten.milli

end HeaderTime

/-! ## From the fields of a line -/

theorem Date.WrittenAs.isBlank_of_mem {d : Date} {s : Bytes} (hd : d.WrittenAs s) :
    ∀ b ∈ s, Byte.isBlank b = false := by
  obtain ⟨year, month, day, rfl, hyear, hmonth, hday⟩ := hd
  have hslash : ∀ b ∈ Bytes.ofString "/", Byte.isBlank b = false :=
    fun b hb => List.mem_singleton.1 hb ▸ rfl
  intro b hb
  simp only [List.mem_append] at hb
  rcases hb with (((hb | hb) | hb) | hb) | hb
  · exact hyear.isBlank_of_mem b hb
  · exact hslash b hb
  · exact hmonth.isBlank_of_mem b hb
  · exact hslash b hb
  · exact hday.isBlank_of_mem b hb

/-- Fields hold no blanks, so the space that joins them is the one between a date and a time of
day. -/
theorem WallClock.writtenAs_of_read? {line date clock : Bytes} {index : Nat} {c : WallClock}
    (hdate : line.words[index]? = some date) (hread : read? (date ++ " " ++ clock) = some c) :
    c.WrittenAs date clock := by
  obtain ⟨-, date', clock', htext, hwritten⟩ := read?_eq_some_iff.1 hread
  have hnotBlank : ∀ s : Bytes, (∀ b ∈ s, Byte.isBlank b = false) → ' '.toUInt8 ∉ s :=
    fun s hs hmem => absurd (hs _ hmem) (by decide)
  have hspace : ∀ s rest : Bytes, s ++ " " ++ rest = s ++ ' '.toUInt8 :: rest :=
    fun s rest => List.append_assoc s _ rest
  rw [hspace, hspace] at htext
  have hfield := hnotBlank date (Bytes.isBlank_of_mem_words (List.mem_of_getElem? hdate))
  obtain ⟨rfl, rfl⟩ :=
    Bytes.append_cons_inj hfield (hnotBlank date' hwritten.date.isBlank_of_mem) htext
  exact hwritten

namespace HeaderTime

variable {o : ReadOptions} {lines : List Bytes} {h h' : Header} {c c' : WallClock}

theorem toMillis_instant_of_writes (time : HeaderTime) {words : List Bytes}
    (hwrites : time.item.Writes o words h) :
    ∃ t, HeaderItem.TimeAt words t ∧ (time.instant h).toMillis = t.toMillis - time.ahead := by
  cases time with
  | origin | lastCorrection =>
    obtain ⟨t, ht, hinstant⟩ := hwrites
    have hmillis := Instant.toMillis_ofJapanTime ht.near_and_whole.1
    exact ⟨t, ht, (congrArg Instant.toMillis hinstant).trans hmillis⟩
  | start =>
    obtain ⟨t, ht, hinstant⟩ := hwrites
    have hmillis := Instant.toMillis_beforeTrigger_ofJapanTime ht.near_and_whole.1
    refine ⟨t, ht, ?_⟩
    show h.recording.start.toMillis = t.toMillis - (32400000 + 15000)
    rw [hinstant, hmillis]
    omega

theorem exists_keeps_of_read (hread : Header.read o lines = .ok h) (time : HeaderTime) :
    ∃ c, time.WrittenIn lines c ∧ time.Keeps h c := by
  obtain ⟨i, line, hitem, hline, -, hwrites⟩ := Header.exists_line_of_read hread time.item
  obtain ⟨t, ⟨date, clock, c, hdate, hclock, hc, rfl⟩, hmillis⟩ :=
    time.toMillis_instant_of_writes hwrites
  have hwritten := WallClock.writtenAs_of_read? hdate hc
  exact ⟨c, ⟨i, line, date, clock, hitem, hline, hdate, hclock, hwritten⟩,
    (WallClock.read?_bounds hc).1, hwritten.date.hasFourDigitYear, hmillis⟩

namespace Keeps

variable {time : HeaderTime}

theorem plus_ahead (hc : time.Keeps h c) : (time.instant h).plus time.ahead = c.toInstant := by
  show Instant.ofMillis ((time.instant h).toMillis + time.ahead) = c.toInstant
  rw [hc.toMillis_eq, Int.sub_add_cancel, Instant.ofMillis_toMillis]

theorem ofInstant_eq (hc : time.Keeps h c) :
    WallClock.ofInstant ((time.instant h).plus time.ahead) = c := by
  rw [hc.plus_ahead]
  exact WallClock.ofInstant_toInstant hc.isValid hc.year.hasReachableYear

theorem toMillis_lt_iff (hc : time.Keeps h c) (hc' : time.Keeps h' c') :
    (time.instant h).toMillis < (time.instant h').toMillis ↔ c.lt c' := by
  have horder := WallClock.toMillis_toInstant_lt_iff hc.isValid hc'.isValid
    hc.year.hasReachableYear hc'.year.hasReachableYear
  rw [← horder, hc.toMillis_eq, hc'.toMillis_eq]
  omega

theorem instant_eq_iff (hc : time.Keeps h c) (hc' : time.Keeps h' c') :
    time.instant h = time.instant h' ↔ c = c' := by
  constructor
  · intro heq
    rw [← hc.ofInstant_eq, heq, hc'.ofInstant_eq]
  · intro heq
    rw [← Instant.toMillis_inj, hc.toMillis_eq, hc'.toMillis_eq, heq]

end Keeps
end HeaderTime

namespace Header

/-- Set ahead again, each time of a header is what its line writes and nothing else, without a
fraction of a second; the sum does not wrap.  Two headers keep the same time if they write the same
clock, and else their times are in the order of the clocks. -/
theorem clocks_of_read {o : ReadOptions} {lines : List Bytes} {h : Header}
    (hread : read o lines = .ok h) (time : HeaderTime) :
    (∀ c, time.WrittenIn lines c ↔ c = WallClock.ofInstant ((time.instant h).plus time.ahead)) ∧
    (WallClock.ofInstant ((time.instant h).plus time.ahead)).milli = 0 ∧
    ((time.instant h).plus time.ahead).toMillis = (time.instant h).toMillis + time.ahead ∧
    ∀ (o' : ReadOptions) (lines' : List Bytes) (h' : Header), read o' lines' = .ok h' →
      ∀ c c', time.WrittenIn lines c → time.WrittenIn lines' c' →
        ((time.instant h).toMillis < (time.instant h').toMillis ↔ c.lt c') ∧
        (time.instant h = time.instant h' ↔ c = c') := by
  obtain ⟨c, hwritten, hkeeps⟩ := HeaderTime.exists_keeps_of_read hread time
  rw [hkeeps.ofInstant_eq]
  refine ⟨fun d => ⟨fun hd => hd.unique hwritten, fun hd => hd ▸ hwritten⟩, hwritten.milli, ?_, ?_⟩
  · rw [hkeeps.plus_ahead, hkeeps.toMillis_eq, Int.sub_add_cancel]
  · intro o' lines' h' hread' d d' hd hd'
    obtain ⟨c', hwritten', hkeeps'⟩ := HeaderTime.exists_keeps_of_read hread' time
    rw [hd.unique hwritten, hd'.unique hwritten']
    exact ⟨hkeeps.toMillis_lt_iff hkeeps', hkeeps.instant_eq_iff hkeeps'⟩

theorem origin_writtenIn_leapDayHeader :
    HeaderTime.origin.WrittenIn leapDayHeader ⟨⟨0, 1, 1⟩, 0, 0, 0, 0⟩ :=
  ⟨0, _, "0000/1/1", "0:00:00", rfl, rfl, by decide +kernel, by decide +kernel,
    ⟨"0000", "1", "1", by decide⟩, ⟨"0", "00", "00", by decide⟩, rfl⟩

theorem start_writtenIn_leapDayHeader :
    HeaderTime.start.WrittenIn leapDayHeader ⟨⟨2012, 3, 1⟩, 0, 0, 5, 0⟩ :=
  ⟨9, _, "2012/3/1", "0:0:5", rfl, rfl, by decide +kernel, by decide +kernel,
    ⟨"2012", "3", "1", by decide⟩, ⟨"0", "0", "5", by decide⟩, rfl⟩

/-- The instant at which the recording began, on a leap day in UTC, goes with the clock that the
recorder wrote, which was on the next day. -/
theorem clocks_of_read_leapDayHeader :
    ∃ h, read {} leapDayHeader = .ok h ∧
      WallClock.ofInstant (h.recording.start.plus (32400000 + 15000)) =
        ⟨⟨2012, 3, 1⟩, 0, 0, 5, 0⟩ ∧
      WallClock.ofInstant (h.event.origin.plus 32400000) = ⟨⟨0, 1, 1⟩, 0, 0, 0, 0⟩ := by
  obtain ⟨h, hread⟩ := exists_read_leapDayHeader
  exact ⟨h, hread, (((clocks_of_read hread .start).1 _).1 start_writtenIn_leapDayHeader).symm,
    (((clocks_of_read hread .origin).1 _).1 origin_writtenIn_leapDayHeader).symm⟩

end Header
end StrongMotion
