import StrongMotion.FileSystem.Basic
import StrongMotion.Time.Timestamp

/-!
# Archives

An archive holds one record in a file that is named for its stream and its start, so that records
of one channel never share an archive.  This module names archives and decides what can be seen to
be wrong before one is opened.
-/

namespace StrongMotion
namespace Archive

def fileName (r : Record) : Bytes :=
  r.streamName ++ "." ++ r.header.recording.start.compact ++ ".h5"

def separator : UInt8 := '/'.toUInt8

/-- A name below a directory.  A name that is absolute leads away from the directory. -/
def below (directory name : Bytes) : Bytes :=
  if name.head? = some separator then name
  else if directory = [] ∨ directory.getLast? = some separator then directory ++ name
  else directory ++ separator :: name

def path (directory : Bytes) (r : Record) : Bytes := below directory (fileName r)

def dropTrailingSeparators (path : Bytes) : Bytes := path.dropEndWhile (· = separator)

/-- The directory that a path puts its last name in, or nothing for a name alone. -/
def parent (path : Bytes) : Bytes :=
  let directory := path.dropEndWhile (· ≠ separator)
  if directory = [] then []
  else if dropTrailingSeparators directory = [] then [separator]
  else dropTrailingSeparators directory

/-- Why an archive is not written or read. -/
inductive Refusal
  | noDirectory (path : Bytes)
  | countMismatch (claimed present : Nat)
  | noFile (path : Bytes)
deriving DecidableEq, Repr

namespace Refusal

def message : Refusal → Bytes
  | noDirectory path => "Directory does not exist: " ++ path
  | countMismatch claimed present =>
    "sample_count (" ++ Bytes.ofNat claimed ++ ") does not match number of samples (" ++
      Bytes.ofNat present ++ ")"
  | noFile path => "File does not exist: " ++ path

end Refusal

/-- What keeps a record from being written to a path.  The directory is looked at first. -/
def writeRefusal (fs : FileSystem) (path : Bytes) (r : Record) :
    Except NameTooLong (Option Refusal) := do
  let directory := parent path
  let placed ← if directory = [] then pure true else fs.isPresent directory
  if !placed then return some (.noDirectory directory)
  else if r.sampleCount ≠ r.samples.length then
    return some (.countMismatch r.sampleCount r.samples.length)
  else return none

/-- What keeps an archive from being read. -/
def readRefusal (fs : FileSystem) (path : Bytes) : Except NameTooLong (Option Refusal) := do
  if ← fs.isPresent path then return none else return some (.noFile path)

end Archive

/-- One who writes and reads archives, and keeps the message of the last refusal. -/
structure Archivist where
  lastRefusal : Bytes := []
deriving DecidableEq, Repr

namespace Archivist

/-- Whether nothing was refused, and the archivist afterwards. -/
def settle (a : Archivist) : Option Archive.Refusal → Bool × Archivist
  | none => (true, a)
  | some refusal => (false, { lastRefusal := refusal.message })

/-- Writes an archive.  A write that is not refused beforehand is taken to succeed: what the disk or
the library for the archive's format may still refuse is left out. -/
def write (a : Archivist) (fs : FileSystem) (path : Bytes) (r : Record) :
    Except NameTooLong (Bool × Archivist) :=
  (Archive.writeRefusal fs path r).map a.settle

/-- Reads an archive, where one that is there is taken to be readable. -/
def read (a : Archivist) (fs : FileSystem) (path : Bytes) :
    Except NameTooLong (Bool × Archivist) :=
  (Archive.readRefusal fs path).map a.settle

end Archivist

namespace Archive

/-- Writes a record, adding to a message why that was refused.  Without a path there is nothing to
say. -/
def save (fs : FileSystem) (path : Bytes) (r : Record) (message : Bytes) :
    Except NameTooLong (Bool × Bytes) := do
  if path = [] then return (false, message)
  let (saved, archivist) ← Archivist.write {} fs path r
  if saved then return (true, message)
  let separator : Bytes := if message = [] then [] else "; "
  return (false, message ++ separator ++ "HDF5 write failed: " ++ archivist.lastRefusal)

end Archive
end StrongMotion
