import StrongMotion.Encoding.Scan

/-!
# UTF-16 and UTF-32

Units of two or four bytes in either byte order.  A byte order mark is a character like any other
here; only `Encoding.utf16` gives it a meaning.
-/

namespace StrongMotion

inductive ByteOrder
  | littleEndian
  | bigEndian
deriving DecidableEq, Repr

namespace ByteOrder

def pair (order : ByteOrder) (a b : UInt8) : Nat :=
  match order with
  | .littleEndian => b.toNat * 256 + a.toNat
  | .bigEndian => a.toNat * 256 + b.toNat

def quad (order : ByteOrder) (a b c d : UInt8) : Nat :=
  match order with
  | .littleEndian => order.pair c d * 65536 + order.pair a b
  | .bigEndian => order.pair a b * 65536 + order.pair c d

end ByteOrder

namespace Utf16

def isHighSurrogate (u : Nat) : Bool := 0xD800 ≤ u && u < 0xDC00

def isLowSurrogate (u : Nat) : Bool := 0xDC00 ≤ u && u < 0xE000

/-- A high surrogate and the low one after it write one character; each alone writes none. -/
def step (order : ByteOrder) : Bytes → Step
  | a :: b :: rest =>
    let unit := order.pair a b
    if isLowSurrogate unit then .flawed .invalid
    else if isHighSurrogate unit then
      match rest with
      | c :: d :: _ =>
        let low := order.pair c d
        if isLowSurrogate low then .char (0x10000 + (unit - 0xD800) * 1024 + (low - 0xDC00)) 4
        else .flawed .invalid
      | _ => .flawed .cut
    else .char unit 2
  | _ => .flawed .cut

end Utf16

namespace Utf32

def step (order : ByteOrder) : Bytes → Step
  | a :: b :: c :: d :: _ =>
    let unit := order.quad a b c d
    if isSurrogate unit || 0x10FFFF < unit then .flawed .invalid else .char unit 4
  | _ => .flawed .cut

end Utf32
end StrongMotion
