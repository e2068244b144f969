import StrongMotion.Number.Places
import StrongMotion.Record.Reader
import StrongMotion.Time.Timestamp

/-!
# Reports

What is printed about a record: a summary, the details of its header and how long it took to read.
-/

namespace StrongMotion
namespace Report

/-- Quantities have six significant digits; an exponent is written below `10 ^ (-4)` and from
`10 ^ 6` on, and has at least two digits. -/
def quantity : GeneralStyle := { digits := 6, lowest := -4, exponentDigits := 2 }

def calibrationPlaces : Nat := 10

/-- Lines with a line feed between neighbours and none at the end. -/
def unlines (lines : List Bytes) : Bytes := Bytes.join "\n" lines

def number (x : Float) : Bytes := Places.general quantity x

def summary (r : Record) : Bytes :=
  unlines
    ["Record summary:",
     "  Stream id        : " ++ r.streamName,
     "  Start time       : " ++ r.header.recording.start.iso8601,
     "  End time         : " ++ r.lastSampleTime.iso8601,
     "  Sampling rate    : " ++ Bytes.ofInt r.header.recording.rate ++ " Hz",
     "  Sample count     : " ++ Bytes.ofNat r.sampleCount,
     "  Calibration      : " ++ Places.fixed calibrationPlaces r.header.recording.calibration]

def eventLines (e : Event) : List Bytes :=
  ["Event:",
   "  Origin time      : " ++ e.origin.iso8601,
   "  Latitude         : " ++ number e.latitude,
   "  Longitude        : " ++ number e.longitude,
   "  Depth (km)       : " ++ number e.depthKm,
   "  Magnitude        : " ++ number e.magnitude]

def stationLines (s : Station) : List Bytes :=
  ["Station:",
   "  Network          : " ++ s.network,
   "  Station          : " ++ s.code,
   "  Location         : " ++ s.location,
   "  Latitude         : " ++ number s.latitude,
   "  Longitude        : " ++ number s.longitude,
   "  Elevation (m)    : " ++ number s.elevationM]

def recordingLines (r : Recording) : List Bytes :=
  ["Recording:",
   "  Channel          : " ++ r.channel,
   "  Duration (s)     : " ++ number r.durationS,
   "  Max. acc. (gal)  : " ++ number r.peak,
   "  Last correction  : " ++ r.lastCorrection.iso8601]

def commentLines : Option Bytes → List Bytes
  | none => []
  | some comment => ["  Comment          : " ++ comment]

def details (h : Header) : Bytes :=
  unlines
    (eventLines h.event ++ stationLines h.station ++ recordingLines h.recording ++
      commentLines h.recording.comment)

/-- The line about a file that was read in `elapsed` milliseconds. -/
def timing (path elapsed : Bytes) (r : Record) : Bytes :=
  "[PROFILE][KnetReader] file=" ++ path.quoted ++ " total=" ++ elapsed ++ " ms, samples=" ++
    Bytes.ofNat r.sampleCount ++ "\n"

end Report
end StrongMotion
