import StrongMotion.FileSystem.Basic

/-!
# Settings of a batch

What a batch of conversions is told, and what can be found wrong with it beforehand.
-/

namespace StrongMotion

structure Settings where
  inputs : List Bytes := []
  /-- The encoding of all inputs; an empty name leaves it to the default. -/
  encoding : Bytes := []
  splitStation : Bool := false
  checkFormat : Bool := true
  saveArchive : Bool := false
  archiveDirectory : Bytes := []
  printSummary : Bool := true
deriving DecidableEq, Repr

namespace Settings

def readOptions (s : Settings) : ReadOptions :=
  { encoding := if s.encoding = [] then none else some s.encoding
    splitStation := s.splitStation }

inductive Problem
  | noInputs
  | emptyInput
  | inputMissing (path : Bytes)
  | noArchiveDirectory
  | notDirectory (path : Bytes)
deriving DecidableEq, Repr

namespace Problem

def message : Problem → Bytes
  | noInputs => "input_files is empty"
  | emptyInput => "input_files contains an empty path"
  | inputMissing path => "input file does not exist: " ++ path
  | noArchiveDirectory => "hdf5_output_dir must be set when save_hdf5 is true"
  | notDirectory path => "hdf5_output_dir is not a directory: " ++ path

end Problem

/-- The problem with one input.  Whether it exists is asked only when there are files to look
at. -/
def inputProblem (files : Option FileSystem) (input : Bytes) :
    Except NameTooLong (Option Problem) := do
  if input = [] then return some .emptyInput
  match files with
  | none => return none
  | some fs => if ← fs.isPresent input then return none else return some (.inputMissing input)

def archiveProblem (s : Settings) (files : Option FileSystem) :
    Except NameTooLong (Option Problem) := do
  if !s.saveArchive then return none
  if s.archiveDirectory = [] then return some .noArchiveDirectory
  match files with
  | none => return none
  | some fs =>
    if ← fs.isDirectory s.archiveDirectory then return none
    else return some (.notDirectory s.archiveDirectory)

/-- All problems, those with inputs first. -/
def problems (s : Settings) (files : Option FileSystem) : Except NameTooLong (List Problem) := do
  let general := if s.inputs = [] then [Problem.noInputs] else []
  let inputs ← s.inputs.mapM (inputProblem files)
  let archive ← s.archiveProblem files
  return general ++ inputs.filterMap id ++ archive.toList

end Settings
end StrongMotion
