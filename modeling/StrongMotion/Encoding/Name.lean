import StrongMotion.Text.Basic

/-!
# Names of encodings

One name has many spellings.  The case of its letters does not matter, bytes that no name is made
of are passed over, and behind a second slash there may be wishes about characters that cannot be
written, which are no matter for reading a text.  `Name.plain` is the spelling without all this.
-/

namespace StrongMotion
namespace Encoding
namespace Name

def slash : UInt8 := '/'.toUInt8

def comma : UInt8 := ','.toUInt8

/-- Names are made of letters, digits and the marks that standards put between them. -/
def isNameByte (b : UInt8) : Bool :=
  Byte.isDigit b || (65 ≤ Byte.upper b && Byte.upper b ≤ 90) || b == slash || b == comma
    || b == '-'.toUInt8 || b == '_'.toUInt8 || b == '.'.toUInt8 || b == ':'.toUInt8

/-- A name does not end with a blank or with a mark that sets wishes apart. -/
def isTrailing (b : UInt8) : Bool := Byte.isBlank b || b == slash || b == comma

/-- The text before its slash number `count + 1`, or all of it. -/
def untilSlash : Nat → Bytes → Bytes
  | _, [] => []
  | 0, b :: rest => if b = slash then [] else b :: untilSlash 0 rest
  | count + 1, b :: rest =>
    b :: (if b = slash then untilSlash count rest else untilSlash (count + 1) rest)

/-- The spelling in capitals, without wishes and without bytes to pass over.  The end of the name is
cut off before those bytes are, so that a comma in front of them stays; a slash there goes. -/
def plain (name : Bytes) : Bytes :=
  let written := (untilSlash 1 name.untilNul).dropEndWhile isTrailing
  (Bytes.dropEndWhile (· == slash) (written.filter isNameByte)).upper

end Name
end Encoding
end StrongMotion
