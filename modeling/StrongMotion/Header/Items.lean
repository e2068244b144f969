import StrongMotion.Header.Basic
import StrongMotion.Header.Fields
import StrongMotion.Header.Values

/-!
# The layout of a header

A header is a fixed sequence of items, one a line.  Each line begins with the label of its item,
and each item fills its own part of the header from its own line.
-/

namespace StrongMotion

inductive HeaderItem
  | originTime
  | eventLatitude
  | eventLongitude
  | eventDepth
  | magnitude
  | stationCode
  | stationLatitude
  | stationLongitude
  | stationHeight
  | recordTime
  | samplingRate
  | duration
  | direction
  | scaleFactor
  | peakAcceleration
  | lastCorrection
  | memo
deriving DecidableEq, Repr

namespace HeaderItem

/-- The order of the lines. -/
def inOrder : List HeaderItem :=
  [originTime, eventLatitude, eventLongitude, eventDepth, magnitude, stationCode,
   stationLatitude, stationLongitude, stationHeight, recordTime, samplingRate, duration,
   direction, scaleFactor, peakAcceleration, lastCorrection, memo]

def label : HeaderItem → Bytes
  | originTime => "Origin Time"
  | eventLatitude => "Lat."
  | eventLongitude => "Long."
  | eventDepth => "Depth. (km)"
  | magnitude => "Mag."
  | stationCode => "Station Code"
  | stationLatitude => "Station Lat."
  | stationLongitude => "Station Long."
  | stationHeight => "Station Height(m)"
  | recordTime => "Record Time"
  | samplingRate => "Sampling Freq(Hz)"
  | duration => "Duration Time(s)"
  | direction => "Dir."
  | scaleFactor => "Scale Factor"
  | peakAcceleration => "Max. Acc. (gal)"
  | lastCorrection => "Last Correction"
  | memo => "Memo."

/-- What the item's line changes in a header. -/
def fill (o : ReadOptions) (item : HeaderItem) (l : HeaderLine) :
    Except Fault (Header → Header) :=
  match item with
  | originTime => do
    let t ← l.time
    return fun h => { h with event.origin := t.ofJapanTime }
  | eventLatitude => do
    let x ← l.number 1
    return fun h => { h with event.latitude := x }
  | eventLongitude => do
    let x ← l.number 1
    return fun h => { h with event.longitude := x }
  | eventDepth => do
    let x ← l.number 2
    return fun h => { h with event.depthKm := x }
  | magnitude => do
    let x ← l.number 1
    return fun h => { h with event.magnitude := x }
  | stationCode => do
    let name ← StationId.read o.splitStation (← l.field 2)
    return fun h => { h with station.code := name.code, station.location := name.location }
  | stationLatitude => do
    let x ← l.number 2
    return fun h => { h with station.latitude := x }
  | stationLongitude => do
    let x ← l.number 2
    return fun h => { h with station.longitude := x }
  | stationHeight => do
    let x ← l.number 2
    return fun h => { h with station.elevationM := x }
  | recordTime => do
    let t ← l.time
    return fun h => { h with recording.start := t.beforeTrigger.ofJapanTime }
  | samplingRate => do
    let n ← l.leadingInt 2
    return fun h => { h with recording.rate := n }
  | duration => do
    let x ← l.number 2
    return fun h => { h with recording.durationS := x }
  | direction => do
    let direction ← l.field 1
    return fun h => { h with recording.channel := channelCode direction }
  | scaleFactor => do
    let x ← calibration (← l.field 2)
    return fun h => { h with recording.calibration := x }
  | peakAcceleration => do
    let x ← l.number 3
    return fun h => { h with recording.peak := x }
  | lastCorrection => do
    let t ← l.time
    return fun h => { h with recording.lastCorrection := t.ofJapanTime }
  | memo => .ok fun h => { h with recording.comment := l.comment }

end HeaderItem

namespace Header

/-- Reads the lines that belong to `items` into a header.  `total` is the number of lines there
are, which is what a message about a missing line gives. -/
def readItems (o : ReadOptions) (total : Nat) :
    List HeaderItem → List Bytes → Header → Except Fault Header
  | [], _, h => .ok h
  | item :: _, [], _ => .error (.headerEnded total item.label)
  | item :: items, line :: lines, h =>
    if item.label.isPrefixOf line then do
      let set ← item.fill o { label := item.label, line }
      readItems o total items lines (set h)
    else .error (.wrongLabel item.label line)

/-- The header that these lines write, if they are as many as the layout has and each one is
right. -/
def read (o : ReadOptions) (lines : List Bytes) : Except Fault Header := do
  let h ← readItems o lines.length HeaderItem.inOrder lines {}
  if lines.length = HeaderItem.inOrder.length then return h
  else throw (.lineCount HeaderItem.inOrder.length lines.length)

end Header
end StrongMotion
