import StrongMotion.Encoding.Scan
import StrongMotion.Text.Basic

/-!
# Faults

Every way in which a file can fail to be a record, as its cause.  A message names the kind of the
fault first; the detail that follows quotes the text at fault.
-/

namespace StrongMotion

inductive FaultKind
  | encoding
  | headerLabel
  | headerLineCount
  | stationName
  | number
  | calibration
  | sample
  | headerEnd
  | timestamp
  | missingField
  | io
deriving DecidableEq, Repr

namespace FaultKind

def name : FaultKind → Bytes
  | encoding => "EncodingError"
  | headerLabel => "HeaderLabelMismatch"
  | headerLineCount => "HeaderLineCountMismatch"
  | stationName => "StationNameTooLong"
  | number => "MalformedNumericField"
  | calibration => "MalformedCalibrationField"
  | sample => "MalformedSampleValue"
  | headerEnd => "PrematureEndOfHeader"
  | timestamp => "MalformedTimestampField"
  | missingField => "MissingHeaderField"
  | io => "IoError"

/-- The kinds in the order of their numbers, from zero. -/
def all : List FaultKind :=
  [encoding, headerLabel, headerLineCount, stationName, number, calibration, sample, headerEnd,
   timestamp, missingField, io]

/-- The kind with a number; a number that none has is taken for trouble with the file. -/
def ofNumber (n : Int) : FaultKind :=
  if n < 0 then io else (all[n.toNat]?).getD io

/-- The whole text of a fault of this kind, which is shown only up to a zero byte within it. -/
def message (k : FaultKind) (detail : Bytes) : Bytes := Bytes.untilNul (k.name ++ ": " ++ detail)

end FaultKind

namespace Flaw

/-- The words of the operating system for it. -/
def words : Flaw → Bytes
  | invalid => "Invalid or incomplete multibyte or wide character"
  | cut => "Invalid argument"

end Flaw

inductive ScaleFlaw
  | shape
  | numerator
  | denominator
  | zeroDenominator
deriving DecidableEq, Repr

inductive Fault
  | unknownEncoding (name : Bytes)
  | undecodable (encoding : Bytes) (flaw : Flaw)
  /-- The file ended before the line that closes its header. -/
  | headerUnclosed (lines : Nat)
  /-- The header ended where a line with this label belongs. -/
  | headerEnded (lines : Nat) (label : Bytes)
  | wrongLabel (label line : Bytes)
  | lineCount (expected lines : Nat)
  | missingField (label : Bytes) (index : Nat) (line : Bytes)
  | notNumber (label field : Bytes)
  | noLeadingInteger (label field : Bytes)
  | notTimestamp (label text : Bytes)
  | stationTooLong (station : Bytes)
  | scaleFactor (flaw : ScaleFlaw) (text : Bytes)
  | notSample (line word : Nat) (text : Bytes)
  | cannotOpen (path : Bytes)
deriving DecidableEq, Repr

namespace Fault

def kind : Fault → FaultKind
  | unknownEncoding _ | undecodable _ _ => .encoding
  | headerUnclosed _ | headerEnded _ _ => .headerEnd
  | wrongLabel _ _ => .headerLabel
  | lineCount _ _ => .headerLineCount
  | missingField _ _ _ => .missingField
  | notNumber _ _ | noLeadingInteger _ _ => .number
  | notTimestamp _ _ => .timestamp
  | stationTooLong _ => .stationName
  | scaleFactor _ _ => .calibration
  | notSample _ _ _ => .sample
  | cannotOpen _ => .io

def detail : Fault → Bytes
  | unknownEncoding name => "Unsupported text encoding: " ++ name
  | undecodable encoding flaw => "Cannot decode line as " ++ encoding ++ ": " ++ flaw.words
  | headerUnclosed lines =>
    "Stream ended after " ++ Bytes.ofNat lines ++ " header lines without a 'Memo.' line"
  | headerEnded lines label =>
    "Header ended after " ++ Bytes.ofNat lines ++ " lines; expected a line starting with " ++
      label.quoted
  | wrongLabel label line =>
    "Expected line to start with " ++ label.quoted ++ " but got " ++ line.quoted
  | lineCount expected lines =>
    "Expected " ++ Bytes.ofNat expected ++ " header lines but got " ++ Bytes.ofNat lines
  | missingField label index line =>
    label.quoted ++ " line has no field " ++ Bytes.ofNat index ++ ": " ++ line.quoted
  | notNumber label field => label.quoted ++ " value is not a number: " ++ field.quoted
  | noLeadingInteger label field =>
    label.quoted ++ " value has no leading integer: " ++ field.quoted
  | notTimestamp label text =>
    label.quoted ++ " is not a YYYY/MM/DD HH:MM:SS timestamp: " ++ text.quoted
  | stationTooLong station =>
    "Station name can't be more than 7 characters long: " ++ station.quoted
  | scaleFactor .shape text => "Expected '<numerator>/<denominator>' but got " ++ text.quoted
  | scaleFactor .numerator text =>
    "Scale factor numerator is not numeric in " ++ text.quoted
  | scaleFactor .denominator text =>
    "Scale factor denominator is not numeric in " ++ text.quoted
  | scaleFactor .zeroDenominator text => "Scale factor denominator is zero in " ++ text.quoted
  | notSample line word text =>
    "Line " ++ Bytes.ofNat line ++ ", token " ++ Bytes.ofNat word ++ ": " ++ text.quoted ++
      " is not a number"
  | cannotOpen path => "Cannot open file: " ++ path

def message (f : Fault) : Bytes := f.kind.message f.detail

end Fault
end StrongMotion
