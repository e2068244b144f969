import StrongMotion.Fault
import StrongMotion.Number.Numeral

/-!
# Values with rules of their own

Channel codes, station codes and scale factors are not written in a header the way they are kept.
-/

namespace StrongMotion

/-- The channels of a station with a sensor in a borehole, which a header gives as numbers. -/
def boreholeChannels : List (Bytes × Bytes) :=
  [("1", "NS1"), ("2", "EW1"), ("3", "UD1"), ("4", "NS2"), ("5", "EW2"), ("6", "UD2")]

/-- The channel code for a direction: `N-S` becomes `NS`, and a number its channel.  The dashes go
first, so that a blank behind one is trimmed too. -/
def channelCode (direction : Bytes) : Bytes :=
  let bare := Bytes.trim (direction.filter (· ≠ '-'.toUInt8))
  (boreholeChannels.lookup bare).getD bare

structure StationId where
  code : Bytes
  location : Bytes
deriving DecidableEq, Repr

namespace StationId

/-- The longest station code that an archive can hold. -/
def maxLength : Nat := 7

/-- The longest code that is never split. -/
def maxUnsplit : Nat := 5

/-- The name before its length is checked: when codes are split, the last two bytes of a long one
are the location. -/
def cut (split : Bool) (text : Bytes) : StationId :=
  if split ∧ maxUnsplit < text.length then
    ⟨text.take (text.length - 2), text.drop (text.length - 2)⟩
  else ⟨text, []⟩

def read (split : Bool) (text : Bytes) : Except Fault StationId :=
  let name := cut split text
  if maxLength < name.code.length then .error (.stationTooLong name.code) else .ok name

theorem cut_append (split : Bool) (text : Bytes) :
    (cut split text).code ++ (cut split text).location = text := by
  unfold cut
  split
  · exact List.take_append_drop _ _
  · simp

end StationId

/-- The number of metres per second squared in a gal. -/
def gal : Float := 0.01

/-- The calibration that a scale factor such as `2000(gal)/8388608` gives.  What follows the
digits of the numerator is its unit. -/
def calibration (text : Bytes) : Except Fault Float :=
  let slash := '/'.toUInt8
  let numerator := text.takeWhile (· ≠ slash)
  match text.dropWhile (· ≠ slash) with
  | [] => .error (.scaleFactor .shape text)
  | _ :: denominator =>
    if slash ∈ denominator then .error (.scaleFactor .shape text)
    else
      match Bytes.float? (Bytes.takeDigits numerator) with
      | none => .error (.scaleFactor .numerator text)
      | some n =>
        match Bytes.float? denominator with
        | none => .error (.scaleFactor .denominator text)
        | some d =>
          if d == 0 then .error (.scaleFactor .zeroDenominator text) else .ok (gal * n / d)

end StrongMotion
