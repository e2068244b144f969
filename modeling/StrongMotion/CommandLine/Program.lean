import StrongMotion.CommandLine.Arguments
import StrongMotion.Conversion.Basic
import StrongMotion.Report

/-!
# The program

What a command prints and how it ends, for given files.  Printing itself is left to the caller, as
are the clock and the reading of configurations.
-/

namespace StrongMotion

structure Outcome where
  exitCode : Nat
  out : Bytes := []
  err : Bytes := []
deriving DecidableEq, Repr

structure Environment where
  /-- The name the program was started by. -/
  program : Bytes
  files : FileSystem
  /-- The milliseconds that reading a file took, as text. -/
  elapsed : Bytes
  /-- The settings in a configuration file, or why there are none. -/
  configuration : Bytes → Except Bytes Settings

namespace Program

def line (text : Bytes) : Bytes := text ++ "\n"

def usage (program : Bytes) : Bytes :=
  ([ "Usage: " ++ program ++ " <command> [options]",
     "",
     "Commands:",
     "  detect <file>... [--encoding ENC]         - Report whether each file is K-NET ASCII",
     "  info <file> [--convert-station-name] [--encoding ENC]",
     "                                            - Decode one file and print its header",
     "  convert <config.yaml>                     - Convert files using YAML configuration"
   ] : List Bytes).flatMap line

/-- How a command ends whose arguments are wrong. -/
def misused (env : Environment) (message : Bytes) : Outcome :=
  { exitCode := 1, out := usage env.program, err := line message }

/-- How a command ends that had printed `out` when a path could not be looked up. -/
def stopped (out : Bytes) (e : NameTooLong) : Outcome :=
  { exitCode := 1, out, err := line ("Error: " ++ e.message) }

/-- Tells the kinds of files, after `out` was printed about earlier ones, of which all could be
read or not. -/
def detectFiles (env : Environment) (encoding : Option Bytes) (out : Bytes) (allReadable : Bool) :
    List Bytes → Outcome
  | [] => { exitCode := if allReadable then 0 else 2, out }
  | path :: paths =>
    match env.files.kindByContent encoding path with
    | .error e => stopped out e
    | .ok kind =>
      detectFiles env encoding (out ++ line (path ++ ": " ++ kind.name))
        (allReadable && kind.isReadable) paths

def detect (env : Environment) (arguments : List Bytes) : Outcome :=
  match DetectCommand.read arguments with
  | .error fault => misused env fault.message
  | .ok request => detectFiles env request.encoding [] true request.inputs

def info (env : Environment) (arguments : List Bytes) : Outcome :=
  match InfoCommand.read arguments with
  | .error fault => misused env fault.message
  | .ok request =>
    match env.files.readRecord request.options request.input with
    | .error fault => { exitCode := 1, err := line ("Decode failed: " ++ fault.message) }
    | .ok record =>
      { exitCode := 0
        out :=
          Report.timing request.input env.elapsed record ++ line (Report.summary record) ++
            line (Report.details record.header) }

def conversionText (s : Settings) (c : Converted) : Bytes :=
  (if s.printSummary then line (Report.summary c.record) else []) ++
    match c.archive with
    | some path => line ("  Output archive   : " ++ path)
    | none => line "Decoding successful. No archive was saved (save_hdf5=false)."

/-- What is printed about an attempt: nothing when no record was read. -/
def attemptText (env : Environment) (s : Settings) (a : Attempt) : Bytes :=
  match a.result with
  | .ok c => Report.timing a.input env.elapsed c.record ++ conversionText s c
  | .error (.notArchived record _) => Report.timing a.input env.elapsed record
  | .error _ => []

def convertAll (env : Environment) (s : Settings) : Outcome :=
  match Batch.run s env.files with
  | .error e => stopped [] e
  | .ok batch =>
    let converted := batch.converted.length
    { exitCode := if converted = s.inputs.length then 0 else 1
      out :=
        batch.attempts.flatMap (attemptText env s) ++
          line ("Converted " ++ Bytes.ofNat converted ++ " of " ++ Bytes.ofNat s.inputs.length ++
            " files")
      err :=
        if batch.failures.isEmpty then []
        else line ("Conversion failed: " ++ batch.failures.text) }

def convert (env : Environment) (arguments : List Bytes) : Outcome :=
  match configurationPath arguments with
  | .error fault => misused env fault.message
  | .ok path =>
    match env.configuration path with
    | .error message => { exitCode := 1, err := line ("Failed to load config: " ++ message) }
    | .ok s =>
      match s.problems (some env.files) with
      | .error e => stopped [] e
      | .ok [] => convertAll env s
      | .ok problems =>
        { exitCode := 1, err := problems.flatMap fun p => line ("Config error: " ++ p.message) }

/-- Runs the command that the first argument names. -/
def run (env : Environment) : List Bytes → Outcome
  | [] => { exitCode := 1, out := usage env.program }
  | command :: arguments =>
    if command = "detect" then detect env arguments
    else if command = "info" then info env arguments
    else if command = "convert" then convert env arguments
    else misused env ("Error: Unknown command " ++ command.quoted)

end Program
end StrongMotion
