import StrongMotion.FileKind
import StrongMotion.Record.Reader

/-!
# Sources

A source is a file in the middle of being read.  It remembers that it was read to its end and
that a reading failed; after either it gives nothing more until it is moved.
-/

namespace StrongMotion

structure Source where
  content : Bytes
  position : Nat := 0
  /-- The end was met. -/
  ended : Bool := false
  /-- Less was there than was asked for. -/
  failed : Bool := false
deriving DecidableEq, Repr

namespace Source

def isGood (s : Source) : Bool := !s.ended && !s.failed

def lines (s : Source) : List Line :=
  if s.isGood then Bytes.lines (s.content.drop s.position) else []

/-- Moves to a byte of the content or to its end.  There is no place beyond, and trying to get to
one is a failure. -/
def moveTo (s : Source) (position : Int) : Source :=
  if 0 ≤ position ∧ position ≤ s.content.length then
    { s with position := position.toNat, ended := false, failed := false }
  else { s with ended := false, failed := true }

/-- The source after a reading of its lines.  A last line that nothing closes is known to be whole
only because the end was met. -/
def after {α : Type} (s : Source) (r : Reading α) : Source :=
  if s.isGood then
    { content := s.content
      position := s.content.length - (r.rest.flatMap Line.raw).length
      ended := r.ranOut || (r.rest.isEmpty && s.lines.getLast?.any (!·.closed))
      failed := r.ranOut }
  else { s with failed := s.failed || r.ranOut }

def readWith {α : Type} (f : List Line → Reading α) (s : Source) : Except Fault α × Source :=
  let r := f s.lines
  (r.result, s.after r)

def take (s : Source) (count : Nat) : Bytes × Source :=
  if s.isGood then
    let bytes := (s.content.drop s.position).take count
    let short := bytes.length < count
    (bytes, { s with position := s.position + bytes.length, ended := short, failed := short })
  else ([], { s with failed := true })

/-- Looks at the next bytes for the signature of a record file.  A strict source gives up when it
fails, so that fewer bytes than were asked for count as none. -/
def sniff (strict : Bool) (encoding : Option Bytes) (s : Source) : Bool × Source :=
  let (opening, s) := s.take Signature.window
  (!(strict && s.failed) && Signature.opens encoding opening, s)

/-- A source that nothing was taken from gives the front of its content. -/
theorem take_fresh (content : Bytes) (count : Nat) :
    ({ content } : Source).take count =
      (content.take count, ⟨content, (content.take count).length,
        decide (content.length < count), decide (content.length < count)⟩) := by
  have hshort : (content.take count).length < count ↔ content.length < count := by
    rw [List.length_take]
    omega
  simp only [take, isGood, Bool.not_false, Bool.and_self, if_true, List.drop_zero, Nat.zero_add,
    hshort]

theorem sniff_fresh (strict : Bool) (encoding : Option Bytes) (content : Bytes) :
    (sniff strict encoding { content }).1 =
      (!(strict && decide (content.length < Signature.window)) &&
        Signature.marks encoding content) := by
  unfold sniff
  rw [take_fresh]
  rfl

end Source
end StrongMotion
