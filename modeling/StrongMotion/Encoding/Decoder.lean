import StrongMotion.Encoding.Basic
import StrongMotion.Fault

/-!
# Decoders

A decoder turns text of one encoding into UTF-8.  It keeps the name under which the encoding was
asked for, because messages repeat it.  Texts that belong together are decoded one after the other,
each with the decoder that the one before left behind.
-/

namespace StrongMotion

structure Decoder where
  name : Bytes
  encoding : Encoding
deriving DecidableEq, Repr

/-- The front of a text. -/
structure Excerpt where
  text : Bytes
  characters : Nat
  /-- Reading stopped at bytes that write no character, at or after the end of the excerpt. -/
  invalid : Bool
deriving DecidableEq, Repr

namespace Decoder

/-- The encoding of a text for which none was chosen.  It is the one that the locale prefers, and
the locale is taken to be `C` or one of UTF-8, which both come to this name. -/
def defaultName : Bytes := "UTF-8"

def ofName (name : Bytes) : Except Fault Decoder :=
  match Encoding.named? name with
  | some encoding => .ok { name, encoding }
  | none => .error (.unknownEncoding name)

/-- The decoder for a chosen encoding, or for the default one. -/
def ofChoice (choice : Option Bytes) : Except Fault Decoder := ofName (choice.getD defaultName)

/-- The decoder for the text after this one, whether or not this one could be read. -/
def after (d : Decoder) (s : Bytes) : Decoder := { d with encoding := d.encoding.after s }

/-- The whole text in UTF-8. -/
def decode (d : Decoder) (s : Bytes) : Except Fault Bytes :=
  let decoded := d.encoding.decode s
  match decoded.flaw with
  | none => .ok (Utf8.text decoded.codes)
  | some flaw => .error (.undecodable d.name flaw)

/-- At most `limit` characters from the front of a text.  A character that the text breaks off is
not a reason to call it invalid, since the text may go on elsewhere. -/
def excerpt (d : Decoder) (limit : Nat) (s : Bytes) : Excerpt :=
  let decoded := d.encoding.decode s
  let codes := decoded.codes.take limit
  { text := Utf8.text codes
    characters := codes.length
    invalid := decoded.flaw == some .invalid }

end Decoder
end StrongMotion
