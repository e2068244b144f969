import StrongMotion.Encoding.Decoder
import StrongMotion.Header.Items
import StrongMotion.Number.Dyadic
import StrongMotion.Text.Line

/-!
# Records

A record is a header and the samples that follow it.

A file is read line by line.  Header lines are decoded one at a time until one begins with the
word that closes a header; the lines after it hold samples, which are ASCII in every encoding and
are not decoded.  A reading says where it stopped, so that another one can go on from there.
-/

namespace StrongMotion

structure Record where
  header : Header := {}
  /-- The number of samples the record claims to have. -/
  sampleCount : Nat := 0
  samples : List Float := []

namespace Record

/-- The seconds from one sample to the next, or zero when the rate is unknown. -/
def interval (r : Record) : Float :=
  if r.header.recording.rate ≤ 0 then 0 else 1 / Float.ofInt r.header.recording.rate

/-- The time of the last sample, to the nearest millisecond. -/
def lastSampleTime (r : Record) : Instant :=
  let start := r.header.recording.start
  if r.sampleCount = 0 then start
  else start.plus (roundToInt64 (Float.ofNat (r.sampleCount - 1) * r.interval * 1000))

def streamName (r : Record) : Bytes := r.header.streamName

end Record

/-! ## Reading -/

/-- The end of a reading, whatever it was for. -/
structure Reading (α : Type) where
  result : Except Fault α
  /-- The lines that were not read. -/
  rest : List Line
  /-- A further line was asked for when there was none. -/
  ranOut : Bool

namespace Reading

def map {α β : Type} (f : α → β) (r : Reading α) : Reading β := { r with result := r.result.map f }

/-- The reading came to nothing after it had read what `r` read. -/
def fail {α β : Type} (r : Reading α) (fault : Fault) : Reading β :=
  { r with result := .error fault }

/-- Goes on with the value read, unless there is none. -/
def bind {α β : Type} (r : Reading α) (f : α → Reading β) : Reading β :=
  match r.result with
  | .ok a => f a
  | .error fault => r.fail fault

end Reading

structure HeaderText where
  lines : List Bytes
  /-- The last one closes the header. -/
  closed : Bool
deriving DecidableEq, Repr

namespace HeaderText

/-- The front of the line that closes a header. -/
def closing : Bytes := "Memo"

/-- Decodes lines up to and including the first that closes a header. -/
def read : Decoder → List Line → Reading HeaderText
  | _, [] => { result := .ok ⟨[], false⟩, rest := [], ranOut := true }
  | d, line :: rest =>
    match d.decode line.bare with
    | .error fault => { result := .error fault, rest, ranOut := false }
    | .ok text =>
      if closing.isPrefixOf text then { result := .ok ⟨[text], true⟩, rest, ranOut := false }
      else
        (read (d.after line.bare) rest).map fun block =>
          { block with lines := text :: block.lines }

/-- The header that the block writes; a block that is not closed writes none. -/
def header (o : ReadOptions) (b : HeaderText) : Except Fault Header :=
  if b.closed then Header.read o b.lines else .error (.headerUnclosed b.lines.length)

end HeaderText

namespace Samples

/-- The numbers that words write, where the first is word `word` of line `line`. -/
def ofWords (line : Nat) : Nat → List Bytes → Except Fault (List Float)
  | _, [] => .ok []
  | word, text :: texts =>
    match text.float? with
    | none => .error (.notSample line word text)
    | some x => (ofWords line (word + 1) texts).map (x :: ·)

/-- All samples of the lines, of which the first has number `number`. -/
def read (number : Nat) : List Line → Reading (List Float)
  | [] => { result := .ok [], rest := [], ranOut := true }
  | line :: rest =>
    match ofWords number 1 line.text.words with
    | .error fault => { result := .error fault, rest, ranOut := false }
    | .ok samples => (read (number + 1) rest).map (samples ++ ·)

end Samples

namespace Record

/-- The network of every record: the strong-motion networks of Japan share one code. -/
def networkCode : Bytes := "BO"

def assemble (h : Header) (samples : List Float) : Record :=
  { header := { h with station.network := networkCode }
    sampleCount := samples.length
    samples }

def readLines (o : ReadOptions) (lines : List Line) : Reading Record :=
  match Decoder.ofChoice o.encoding with
  | .error fault => { result := .error fault, rest := lines, ranOut := false }
  | .ok decoder =>
    let head := HeaderText.read decoder lines
    head.bind fun block =>
      match block.header o with
      | .error fault => head.fail fault
      | .ok h => (Samples.read (block.lines.length + 1) head.rest).map (assemble h)

def read (o : ReadOptions) (content : Bytes) : Except Fault Record :=
  (readLines o content.lines).result

end Record
end StrongMotion
