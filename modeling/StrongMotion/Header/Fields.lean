import StrongMotion.Fault
import StrongMotion.Number.Numeral
import StrongMotion.Text.Words
import StrongMotion.Time.Timestamp

/-!
# The fields of a header line

A header line is a label and some fields, all separated by blanks.  Fields are numbered from the
beginning of the line, so those of the label count.
-/

namespace StrongMotion

/-- A line together with the label it is read under, which messages repeat. -/
structure HeaderLine where
  label : Bytes
  line : Bytes
deriving DecidableEq, Repr

namespace HeaderLine

def fields (l : HeaderLine) : List Bytes := l.line.words

def field (l : HeaderLine) (index : Nat) : Except Fault Bytes :=
  match l.fields[index]? with
  | some field => .ok field
  | none => .error (.missingField l.label index l.line)

/-- The number that the whole field writes. -/
def number (l : HeaderLine) (index : Nat) : Except Fault Float := do
  let field ← l.field index
  match field.float? with
  | some x => .ok x
  | none => .error (.notNumber l.label field)

/-- The whole number that the field begins with: `100Hz` gives 100. -/
def leadingInt (l : HeaderLine) (index : Nat) : Except Fault Int := do
  let field ← l.field index
  match field.takeDigits.int32? with
  | some n => .ok n
  | none => .error (.noLeadingInteger l.label field)

/-- The time that the third and fourth fields write, as if it were UTC.  The fourth is looked for
first. -/
def time (l : HeaderLine) : Except Fault Instant := do
  let clock ← l.field 3
  let date ← l.field 2
  let text := date ++ " " ++ clock
  match WallClock.read? text with
  | some c => .ok c.toInstant
  | none => .error (.notTimestamp l.label text)

/-- The fields from the second on with one space between neighbours, if there are any. -/
def comment (l : HeaderLine) : Option Bytes :=
  match l.fields.drop 1 with
  | [] => none
  | field :: rest => some (Bytes.join " " (field :: rest))

end HeaderLine
end StrongMotion
