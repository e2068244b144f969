import StrongMotion.Archive
import StrongMotion.Conversion.Settings
import StrongMotion.FailureLog

/-!
# Conversions

A conversion reads one file and, if asked to, archives its record.  A batch converts every input;
a file that cannot be converted is noted and does not stop the others.
-/

namespace StrongMotion

inductive ConversionFailure
  | wrongFormat
  | unreadable (fault : Fault)
  /-- The record was read, but writing its archive was refused. -/
  | notArchived (record : Record) (message : Bytes)

namespace ConversionFailure

def message : ConversionFailure → Bytes
  | wrongFormat => "not a K-NET ASCII file"
  | unreadable fault => fault.message
  | notArchived _ message => message

end ConversionFailure

/-- A record that was read from a file, and the path of its archive if one was asked for. -/
structure Converted where
  input : Bytes
  archive : Option Bytes
  record : Record

namespace Settings

def convert (s : Settings) (fs : FileSystem) (input : Bytes) :
    Except NameTooLong (Except ConversionFailure Converted) := do
  let accepted ←
    if s.checkFormat then
      (fs.kindByContent s.readOptions.encoding input).map FileKind.isReadable
    else pure true
  if !accepted then return .error .wrongFormat
  match fs.readRecord s.readOptions input with
  | .error fault => return .error (.unreadable fault)
  | .ok record =>
    if !s.saveArchive then return .ok { input, archive := none, record }
    let path := Archive.path s.archiveDirectory record
    let (saved, message) ← Archive.save fs path record []
    if saved then return .ok { input, archive := some path, record }
    else return .error (.notArchived record message)

end Settings

structure Attempt where
  input : Bytes
  result : Except ConversionFailure Converted

namespace Attempt

def converted? (a : Attempt) : Option Converted := a.result.toOption

/-- The log with the failure added, if it was one. -/
def logTo (a : Attempt) (log : FailureLog) : FailureLog :=
  match a.result with
  | .ok _ => log
  | .error failure => log.noteFrom a.input failure.message

end Attempt

structure Batch where
  attempts : List Attempt

namespace Batch

/-- Converts all inputs.  A question about a path that cannot be answered ends the batch. -/
def run (s : Settings) (fs : FileSystem) : Except NameTooLong Batch := do
  let attempts ← s.inputs.mapM fun input => (s.convert fs input).map (Attempt.mk input)
  return { attempts }

def converted (b : Batch) : List Converted := b.attempts.filterMap Attempt.converted?

def failures (b : Batch) : FailureLog := b.attempts.foldl (fun log a => a.logTo log) .empty

end Batch
end StrongMotion
