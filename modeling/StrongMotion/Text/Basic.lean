/-!
# Byte strings

A record file has no encoding of its own until one is chosen for it, so text is kept as bytes
from the file to the terminal.  The character classes are the ASCII ones: a byte from 128 up is
neither blank nor a digit, and has no case.

Numbers are written in decimal.  `Bytes.ofNat` and `Bytes.ofInt` write a number with as few digits
as it needs; `Bytes.padded` is the form of calendar fields, where zeros fill it up to a width that
counts the sign.
-/

namespace StrongMotion

/-- Text as it stands in a file or on a terminal. -/
abbrev Bytes := List UInt8

namespace Byte

/-- The space and the five control characters from tab to carriage return. -/
def isBlank (b : UInt8) : Bool := b == 32 || (9 ≤ b && b ≤ 13)

def isDigit (b : UInt8) : Bool := 48 ≤ b && b ≤ 57

def digitValue (b : UInt8) : Nat := b.toNat - 48

/-- The capital of an ASCII letter; every other byte is its own capital. -/
def upper (b : UInt8) : UInt8 := if 97 ≤ b && b ≤ 122 then b - 32 else b

end Byte

namespace Bytes

def ofString (s : String) : Bytes := s.toByteArray.data.toList

instance : Coe String Bytes := ⟨ofString⟩

def upper (s : Bytes) : Bytes := s.map Byte.upper

/-- The text without the longest run of such bytes at its end. -/
def dropEndWhile (p : UInt8 → Bool) (s : Bytes) : Bytes := (s.reverse.dropWhile p).reverse

def trim (s : Bytes) : Bytes :=
  Bytes.dropEndWhile Byte.isBlank (s.dropWhile Byte.isBlank)

def takeDigits (s : Bytes) : Bytes := s.takeWhile Byte.isDigit

/-- The number a run of digits denotes, most significant first. -/
def natValue (digits : Bytes) : Nat :=
  digits.foldl (fun n b => 10 * n + Byte.digitValue b) 0

/-- The text up to its first zero byte, which is how much of it a system call or an error
message sees. -/
def untilNul (s : Bytes) : Bytes := s.takeWhile (· ≠ 0)

/-- Quoted the way messages quote: between single quotes, with nothing escaped. -/
def quoted (s : Bytes) : Bytes := "'" ++ s ++ "'"

/-- The items one after another with `separator` between neighbours. -/
def join (separator : Bytes) (items : List Bytes) : Bytes := separator.intercalate items

def ofNat (n : Nat) : Bytes := (Nat.toDigits 10 n).map Char.toUInt8

def zeros (count : Nat) : Bytes := List.replicate count 48

/-- Zeros put before `s` until it is `width` long; a longer text stays whole. -/
def zeroFill (width : Nat) (s : Bytes) : Bytes := zeros (width - s.length) ++ s

def ofInt (n : Int) : Bytes := if n < 0 then "-" ++ ofNat n.natAbs else ofNat n.natAbs

/-- At least `width` bytes, a minus sign included: `-1` in four bytes is `-001`. -/
def padded (width : Nat) (n : Int) : Bytes :=
  if n < 0 then "-" ++ zeroFill (width - 1) (ofNat n.natAbs) else zeroFill width (ofNat n.natAbs)

theorem join_singleton (separator s : Bytes) : join separator [s] = s :=
  List.intercalate_singleton

theorem join_cons_cons (separator s s' : Bytes) (rest : List Bytes) :
    join separator (s :: s' :: rest) = s ++ separator ++ join separator (s' :: rest) :=
  List.intercalate_cons_cons

theorem isDigit_of_mem_takeDigits (s : Bytes) : ∀ b ∈ takeDigits s, Byte.isDigit b = true :=
  List.all_eq_true.1 List.all_takeWhile

/-- The run of digits and what follows it make up the whole text. -/
theorem takeDigits_append_dropWhile (s : Bytes) :
    takeDigits s ++ s.dropWhile Byte.isDigit = s :=
  List.takeWhile_append_dropWhile

theorem natValue_append_singleton (s : Bytes) (b : UInt8) :
    natValue (s ++ [b]) = 10 * natValue s + Byte.digitValue b := by
  simp [natValue, List.foldl_append]

theorem length_zeroFill (width : Nat) (s : Bytes) :
    (zeroFill width s).length = max width s.length := by
  simp only [zeroFill, zeros, List.length_append, List.length_replicate]
  omega

end Bytes
end StrongMotion
