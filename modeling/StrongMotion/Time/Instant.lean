import StrongMotion.Time.Date

/-!
# Instants and wall clocks

An instant is a 64-bit count of milliseconds from the beginning of 1970 in UTC, without leap
seconds.  A wall clock shows a date and a time of day.  Arithmetic on instants is modulo `2 ^ 64`,
so an instant is always in range.
-/

namespace StrongMotion

structure Instant where
  millis : Int64
deriving DecidableEq, Repr

namespace Instant

/-- The instant `millis` milliseconds after the beginning of 1970, modulo `2 ^ 64`. -/
def ofMillis (millis : Int) : Instant := ⟨Int64.ofInt millis⟩

instance : Inhabited Instant := ⟨ofMillis 0⟩

def toMillis (t : Instant) : Int := t.millis.toInt

/-- The instant `millis` milliseconds later. -/
def plus (t : Instant) (millis : Int) : Instant := ofMillis (t.toMillis + millis)

/-- Japan Standard Time is nine hours ahead of UTC. -/
def japanOffset : Int := 32400000

/-- What was read off a clock in Japan, as if it were UTC, turned into the instant it means. -/
def ofJapanTime (t : Instant) : Instant := t.plus (-japanOffset)

/-- A recorder writes a record time fifteen seconds after the time of its first sample. -/
def triggerDelay : Int := 15000

def beforeTrigger (t : Instant) : Instant := t.plus (-triggerDelay)

end Instant

def millisPerDay : Int := 86400000

/-- A date and a time of day, which need not exist. -/
structure WallClock where
  date : Date := {}
  hour : Int := 0
  minute : Int := 0
  second : Int := 0
  milli : Int := 0
deriving DecidableEq, Repr

namespace WallClock

/-- The date exists and so does the time of day. -/
def IsValid (c : WallClock) : Prop :=
  c.date.IsValid ∧ (0 ≤ c.hour ∧ c.hour ≤ 23) ∧ (0 ≤ c.minute ∧ c.minute ≤ 59) ∧
    (0 ≤ c.second ∧ c.second ≤ 59) ∧ 0 ≤ c.milli ∧ c.milli ≤ 999

instance (c : WallClock) : Decidable c.IsValid := by unfold IsValid; infer_instance

def timeOfDay (c : WallClock) : Int :=
  (c.hour * 3600 + c.minute * 60 + c.second) * 1000 + c.milli

/-- The instant at which a clock that keeps UTC shows `c`. -/
def toInstant (c : WallClock) : Instant :=
  .ofMillis (c.date.dayNumber * millisPerDay + c.timeOfDay)

/-- What a clock that keeps UTC shows at `t`. -/
def ofInstant (t : Instant) : WallClock :=
  let rest := t.toMillis % millisPerDay
  { date := .ofDayNumber (t.toMillis / millisPerDay)
    hour := rest / 3600000
    minute := rest / 60000 % 60
    second := rest / 1000 % 60
    milli := rest % 1000 }

end WallClock
end StrongMotion
