import StrongMotion.Text.Basic
import StrongMotion.Time.Instant

/-!
# Headers

The seventeen lines before the samples describe the earthquake, the station that recorded it and
the recording.  All times are in UTC.
-/

namespace StrongMotion

structure Event where
  origin : Instant := default
  latitude : Float := 0
  longitude : Float := 0
  depthKm : Float := 0
  magnitude : Float := 0

structure Station where
  network : Bytes := []
  code : Bytes := []
  location : Bytes := []
  latitude : Float := 0
  longitude : Float := 0
  elevationM : Float := 0

structure Recording where
  start : Instant := default
  /-- In samples per second. -/
  rate : Int := 0
  durationS : Float := 0
  channel : Bytes := []
  /-- Metres per second squared for each count of a sample. -/
  calibration : Float := 0
  /-- In gal, which are centimetres per second squared. -/
  peak : Float := 0
  lastCorrection : Instant := default
  comment : Option Bytes := none

structure Header where
  event : Event := {}
  station : Station := {}
  recording : Recording := {}

namespace Header

/-- Network, station, location and channel, the usual name of a stream of samples. -/
def streamName (h : Header) : Bytes :=
  h.station.network ++ "." ++ h.station.code ++ "." ++ h.station.location ++ "." ++
    h.recording.channel

end Header

/-- How a file is read. -/
structure ReadOptions where
  /-- The encoding of the header; without one, the default. -/
  encoding : Option Bytes := none
  /-- Whether the end of a long station code is a location code. -/
  splitStation : Bool := false
deriving DecidableEq, Repr

end StrongMotion
