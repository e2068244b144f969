import StrongMotion.CommandLine.Program

/-!
# The command line

Looks up the files that the arguments may name, runs the command on them and prints what it came
to.
-/

namespace StrongMotion
namespace CommandLine

/-- What a path leads to on disk.  A directory opens like a file and fails only when it is read.
Where the lookup fails for a reason that no entry stands for, such as a directory without permission
or a loop of links, the path is taken to lead nowhere. -/
def lookUp (path : String) : IO Entry := do
  try
    let content ← IO.FS.readBinFile path
    return .file content.data.toList
  catch
    | .inappropriateType _ 21 _ => return .directory
    | .invalidArgument .. => return .nameTooLong
    | _ => return .missing

/-- The part of the disk that some arguments may name. -/
def lookUpAll (arguments : List String) : IO FileSystem := do
  let known ← arguments.mapM fun path => return (Bytes.ofString path, ← lookUp path)
  return { entry := fun path => (known.lookup path).getD .missing }

/-- A span of time in milliseconds. -/
def elapsedText (nanoseconds : Nat) : Bytes :=
  Places.general Report.quantity (Float.ofNat (nanoseconds / 1000) / 1000)

def print (stream : IO.FS.Stream) (text : Bytes) : IO Unit := do
  stream.write (ByteArray.mk text.toArray)
  stream.flush

end CommandLine
end StrongMotion

open StrongMotion in
def main (arguments : List String) : IO UInt32 := do
  let begun ← IO.monoNanosNow
  let files ← CommandLine.lookUpAll (arguments.drop 1)
  let ended ← IO.monoNanosNow
  let outcome :=
    Program.run
      { program := "knet_tool"
        files
        elapsed := CommandLine.elapsedText (ended - begun)
        configuration := fun path => .error ("no reader for configuration files: " ++ path) }
      (arguments.map Bytes.ofString)
  CommandLine.print (← IO.getStdout) outcome.out
  CommandLine.print (← IO.getStderr) outcome.err
  return outcome.exitCode.toUInt32
