import StrongMotion.Encoding.Scan

/-!
# UTF-8 without an upper limit

A character is a lead byte and up to five continuation bytes, which reach codes of 31 bits.  The
shortest form is required and surrogates are refused, but no other code is, so that text above
the end of Unicode passes through unchanged.
-/

namespace StrongMotion
namespace Utf8

def isContinuation (b : UInt8) : Bool := b &&& 0xC0 == 0x80

/-- The number of characters in a text: every byte but a continuation byte begins one. -/
def count (s : Bytes) : Nat := s.countP fun b => !isContinuation b

/-- Reads `count` continuation bytes after the part of the code that is already known.  A code
below `least` has a shorter form, and `length` bytes write it in all. -/
def follow (least length : Nat) : Nat → Nat → Bytes → Step
  | 0, code, _ =>
    if code < least || isSurrogate code then .flawed .invalid else .char code length
  | _ + 1, _, [] => .flawed .cut
  | count + 1, code, b :: rest =>
    if isContinuation b then follow least length count (code * 64 + b.toNat % 64) rest
    else .flawed .invalid

/-- The lead byte fixes the number of bytes and holds the first bits of the code. -/
def step : Bytes → Step
  | [] => .flawed .cut
  | b :: rest =>
    let lead := b.toNat
    if lead < 0x80 then .char lead 1
    else if lead < 0xC2 then .flawed .invalid
    else if lead < 0xE0 then follow 0x80 2 1 (lead - 0xC0) rest
    else if lead < 0xF0 then follow 0x800 3 2 (lead - 0xE0) rest
    else if lead < 0xF8 then follow 0x10000 4 3 (lead - 0xF0) rest
    else if lead < 0xFC then follow 0x200000 5 4 (lead - 0xF8) rest
    else if lead < 0xFE then follow 0x4000000 6 5 (lead - 0xFC) rest
    else .flawed .invalid

/-- The continuation byte for the last six bits of a code. -/
def continuation (code : Nat) : UInt8 := UInt8.ofNat (0x80 + code % 64)

/-- The shortest form of a code of at most 31 bits. -/
def encode (code : Nat) : Bytes :=
  if code < 0x80 then [UInt8.ofNat code]
  else if code < 0x800 then [UInt8.ofNat (0xC0 + code / 64), continuation code]
  else if code < 0x10000 then
    [UInt8.ofNat (0xE0 + code / 4096), continuation (code / 64), continuation code]
  else if code < 0x200000 then
    [UInt8.ofNat (0xF0 + code / 262144), continuation (code / 4096), continuation (code / 64),
     continuation code]
  else if code < 0x4000000 then
    [UInt8.ofNat (0xF8 + code / 16777216), continuation (code / 262144),
     continuation (code / 4096), continuation (code / 64), continuation code]
  else
    [UInt8.ofNat (0xFC + code / 1073741824), continuation (code / 16777216),
     continuation (code / 262144), continuation (code / 4096), continuation (code / 64),
     continuation code]

def text (codes : List Nat) : Bytes := codes.flatMap encode

theorem text_append (a b : List Nat) : text (a ++ b) = text a ++ text b := by
  simp [text]

theorem count_append (a b : Bytes) : count (a ++ b) = count a + count b := by
  simp [count]

end Utf8
end StrongMotion
