import StrongMotion.Header.Basic

/-!
# Arguments

Options and files may be mixed.  The argument after `--encoding` is its value even when it looks
like an option.
-/

namespace StrongMotion

inductive ArgumentFault
  | encodingWithoutValue
  | unknownOption (option : Bytes)
  | severalFiles
  | noFile
  | noFiles
  | configurationCount
  | emptyConfiguration
deriving DecidableEq, Repr

namespace ArgumentFault

/-- Shown only up to a zero byte within it. -/
def message : ArgumentFault → Bytes
  | encodingWithoutValue => "--encoding requires a value"
  | unknownOption option => Bytes.untilNul ("Unknown option: " ++ option)
  | severalFiles => "Expected exactly one input file"
  | noFile => "Input file path must not be empty"
  | noFiles => "Expected at least one file"
  | configurationCount => "Expected exactly one configuration path argument"
  | emptyConfiguration => "Configuration path must not be empty"

end ArgumentFault

namespace Arguments

def encodingFlag : Bytes := "--encoding"

def splitStationFlag : Bytes := "--convert-station-name"

def isOption (argument : Bytes) : Bool := (Bytes.ofString "--").isPrefixOf argument

end Arguments

/-- The one path that names a configuration. -/
def configurationPath : List Bytes → Except ArgumentFault Bytes
  | [path] => if path = [] then .error .emptyConfiguration else .ok path
  | _ => .error .configurationCount

structure InfoCommand where
  input : Bytes := []
  options : ReadOptions := {}
deriving DecidableEq, Repr

namespace InfoCommand

open Arguments

/-- Adds the remaining arguments to a request.  An empty file counts as none given yet. -/
def readFrom (r : InfoCommand) : List Bytes → Except ArgumentFault InfoCommand
  | [] => if r.input = [] then .error .noFile else .ok r
  | argument :: rest =>
    if argument = splitStationFlag then readFrom { r with options.splitStation := true } rest
    else if argument = encodingFlag then
      match rest with
      | [] => .error .encodingWithoutValue
      | value :: rest =>
        if value = [] then .error .encodingWithoutValue
        else readFrom { r with options.encoding := some value } rest
    else if isOption argument then .error (.unknownOption argument)
    else if r.input = [] then readFrom { r with input := argument } rest
    else .error .severalFiles

def read (arguments : List Bytes) : Except ArgumentFault InfoCommand :=
  readFrom {} arguments

end InfoCommand

/-- Files to tell the kinds of. -/
structure DetectCommand where
  inputs : List Bytes := []
  encoding : Option Bytes := none
deriving DecidableEq, Repr

namespace DetectCommand

open Arguments

/-- Adds the remaining arguments to a request.  Empty files are passed over. -/
def readFrom (r : DetectCommand) : List Bytes → Except ArgumentFault DetectCommand
  | [] => if r.inputs = [] then .error .noFiles else .ok r
  | argument :: rest =>
    if argument = encodingFlag then
      match rest with
      | [] => .error .encodingWithoutValue
      | value :: rest =>
        if value = [] then .error .encodingWithoutValue
        else readFrom { r with encoding := some value } rest
    else if isOption argument then .error (.unknownOption argument)
    else if argument = [] then readFrom r rest
    else readFrom { r with inputs := r.inputs ++ [argument] } rest

def read (arguments : List Bytes) : Except ArgumentFault DetectCommand :=
  readFrom {} arguments

end DetectCommand
end StrongMotion
