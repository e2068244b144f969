import StrongMotion.Encoding.Decoder

/-!
# Kinds of files

A file either holds a record in the ASCII format of the strong-motion networks or is of no kind
that can be read.  Its name promises a kind, for the extension of a record file is the code of its
channel; its opening shows one, for a record file begins with the label of its first header line, in
whatever encoding it is.
-/

namespace StrongMotion

inductive FileKind
  | record
  | unknown
deriving DecidableEq, Repr

namespace FileKind

def name : FileKind → Bytes
  | record => "K-NET ASCII"
  | unknown => "UNKNOWN"

def isReadable (k : FileKind) : Bool := k == record

end FileKind

namespace FileName

def isSeparator (b : UInt8) : Bool := b == '/'.toUInt8 || b == '\\'.toUInt8

/-- What follows the last separator of either kind. -/
def lastComponent (path : Bytes) : Bytes := (path.reverse.takeWhile (!isSeparator ·)).reverse

/-- What follows the last dot of a text, or the whole text if it has none. -/
def afterLastDot (s : Bytes) : Bytes := (s.reverse.takeWhile (· ≠ '.'.toUInt8)).reverse

/-- The end of the last component from its last dot on.  A dot at the front marks a hidden file
and one at the end begins nothing, so neither begins an extension. -/
def extension (path : Bytes) : Bytes :=
  let component := lastComponent path
  let tail := afterLastDot component
  if tail = [] ∨ component.length ≤ tail.length + 1 then [] else "." ++ tail

/-- The extensions of record files: channels of a single sensor, then those of two. -/
def recordExtensions : List Bytes :=
  [".NS", ".EW", ".UD", ".NS1", ".EW1", ".UD1", ".NS2", ".EW2", ".UD2"]

/-- The kind that a name promises, whatever the case of its letters. -/
def kind (path : Bytes) : FileKind :=
  if (extension path).upper ∈ recordExtensions then .record else .unknown

end FileName

namespace Signature

def text : Bytes := "Origin Time"

/-- The number of bytes looked at, enough for the signature in every encoding and a byte order
mark before it. -/
def window : Nat := 64

/-- Whether a file with this opening can be a record.  Bytes that write no character rule it out
wherever they stand in the opening. -/
def opens (encoding : Option Bytes) (opening : Bytes) : Bool :=
  match Decoder.ofChoice encoding with
  | .error _ => false
  | .ok decoder =>
    let excerpt := decoder.excerpt text.length opening
    !excerpt.invalid && excerpt.characters == text.length && excerpt.text == text

def marks (encoding : Option Bytes) (content : Bytes) : Bool := opens encoding (content.take window)

end Signature
end StrongMotion
