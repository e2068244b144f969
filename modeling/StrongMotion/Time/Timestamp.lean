import StrongMotion.Text.Basic
import StrongMotion.Time.Instant

/-!
# Written times

A header writes a time as `2011/03/11 14:46:00`; only the year has a fixed number of digits.
Reports write it by ISO 8601 and archive names by the compact form of the same standard.
-/

namespace StrongMotion
namespace WallClock

/-- A number of `least` to `most` digits at the front of the text, and what follows it. -/
def takeNumber? (least most : Nat) (s : Bytes) : Option (Int × Bytes) :=
  let digits := Bytes.takeDigits (s.take most)
  if digits.length < least then none
  else some (Int.ofNat (Bytes.natValue digits), s.drop digits.length)

/-- What follows the byte `b` at the front of the text. -/
def takeByte? (b : Char) : Bytes → Option Bytes
  | [] => none
  | c :: rest => if c = b.toUInt8 then some rest else none

/-- Six numbers with their separators and nothing else, whether or not they name a time. -/
def scan? (s : Bytes) : Option WallClock := do
  let (year, s) ← takeNumber? 4 4 s
  let s ← takeByte? '/' s
  let (month, s) ← takeNumber? 1 2 s
  let s ← takeByte? '/' s
  let (day, s) ← takeNumber? 1 2 s
  let s ← takeByte? ' ' s
  let (hour, s) ← takeNumber? 1 2 s
  let s ← takeByte? ':' s
  let (minute, s) ← takeNumber? 1 2 s
  let s ← takeByte? ':' s
  let (second, s) ← takeNumber? 1 2 s
  if s.isEmpty then some { date := { year, month, day }, hour, minute, second } else none

/-- The time that a header writes, if there is one. -/
def read? (s : Bytes) : Option WallClock :=
  match scan? s with
  | some c => if c.IsValid then some c else none
  | none => none

/-- The fraction of a second, written only where there is one. -/
def fraction (c : WallClock) : Bytes :=
  if c.milli = 0 then [] else "." ++ Bytes.padded 3 c.milli

/-- Year, month and day with `separator` between them. -/
def datePart (separator : Bytes) (d : Date) : Bytes :=
  Bytes.padded 4 d.year ++ separator ++ Bytes.padded 2 d.month ++ separator ++
    Bytes.padded 2 d.day

/-- Hour, minute and second with `separator` between them, then the fraction. -/
def timePart (separator : Bytes) (c : WallClock) : Bytes :=
  Bytes.padded 2 c.hour ++ separator ++ Bytes.padded 2 c.minute ++ separator ++
    Bytes.padded 2 c.second ++ c.fraction

end WallClock

namespace Instant

/-- The extended form, in UTC. -/
def iso8601 (t : Instant) : Bytes :=
  let c := WallClock.ofInstant t
  WallClock.datePart "-" c.date ++ "T" ++ WallClock.timePart ":" c ++ "Z"

/-- The compact form, without a zone. -/
def compact (t : Instant) : Bytes :=
  let c := WallClock.ofInstant t
  WallClock.datePart [] c.date ++ "T" ++ WallClock.timePart [] c

end Instant
end StrongMotion
