import StrongMotion.Encoding.Name
import StrongMotion.Encoding.Utf8
import StrongMotion.Encoding.Wide
import StrongMotion.Encoding.Japanese

/-!
# Encodings

The encodings a file can be read in, the names they go by, and the characters of a text in each
of them.  One text can settle how the next is read: a byte order mark at its front may turn the
bytes of all that follow, so `Encoding.after` gives the encoding that a text leaves behind.
-/

namespace StrongMotion

inductive Encoding
  | utf8
  | ascii
  | latin1
  /-- UTF-16 that may begin with a byte order mark, in the order settled so far. -/
  | utf16 (settled : ByteOrder)
  /-- UTF-16 in one order, where no mark is looked for. -/
  | utf16In (order : ByteOrder)
  | utf32In (order : ByteOrder)
  | shiftJis
  | eucJp
deriving DecidableEq, Repr

namespace Encoding

/-- The names in their plain spelling; nothing at all names ASCII.  A converter knows hundreds of
other encodings and other names for these; they are left out, and count as unknown. -/
def names : List (Bytes × Encoding) :=
  [("UTF-8", utf8), ("UTF8", utf8), ("US-ASCII", ascii), ("ASCII", ascii), ("", ascii),
   ("ISO-8859-1", latin1), ("LATIN1", latin1),
   ("UTF-16", utf16 .littleEndian), ("UTF-16LE", utf16In .littleEndian),
   ("UTF-16BE", utf16In .bigEndian),
   ("UTF-32LE", utf32In .littleEndian), ("UTF-32BE", utf32In .bigEndian),
   ("SHIFT_JIS", shiftJis), ("EUC-JP", eucJp)]

def named? (name : Bytes) : Option Encoding := names.lookup (Name.plain name)

/-- One byte, one character, with the codes from `limit` up unused. -/
def singleByte (limit : Nat) : Bytes → Step
  | [] => .flawed .cut
  | b :: _ => if b.toNat < limit then .char b.toNat 1 else .flawed .invalid

/-- What stands at the front of a text, for the part of a text after any byte order mark. -/
def step : Encoding → Bytes → Step
  | utf8 => Utf8.step
  | ascii => singleByte 0x80
  | latin1 => singleByte 0x100
  | utf16 order => Utf16.step order
  | utf16In order => Utf16.step order
  | utf32In order => Utf32.step order
  | shiftJis => ShiftJis.step
  | eucJp => EucJp.step

/-- The encoding that holds for the rest of this text and for the texts after it.  The mark FE FF
puts the high byte first for good; the mark FF FE changes nothing and undoes nothing. -/
def after : Encoding → Bytes → Encoding
  | utf16 _, 0xFE :: 0xFF :: _ => utf16 .bigEndian
  | e, _ => e

/-- A text without the byte order mark at its front. -/
def unmarked : Encoding → Bytes → Bytes
  | utf16 _, 0xFF :: 0xFE :: rest => rest
  | utf16 _, 0xFE :: 0xFF :: rest => rest
  | _, s => s

def decode (e : Encoding) (s : Bytes) : Decoded := scan (e.after s).step 0 (e.unmarked s)

end Encoding
end StrongMotion
