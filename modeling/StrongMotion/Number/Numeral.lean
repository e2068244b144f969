import StrongMotion.Number.Dyadic
import StrongMotion.Text.Basic

/-!
# Written numbers

A number is an optional sign, digits with at most one point among or around them, and optionally
an exponent: `e` or `E`, an optional sign and digits.  Nothing may stand before or after it, and
there are no other spellings (no hexadecimal, no infinity).  Whole numbers have neither point nor
exponent.
-/

namespace StrongMotion

/-- The number `mantissa * 10 ^ exponent`, with a sign that zero has too. -/
structure Numeral where
  negative : Bool
  mantissa : Nat
  exponent : Int
deriving DecidableEq, Repr

namespace Numeral

/-- The sign at the front, and what follows it; a number without a sign is not negative. -/
def takeSign : Bytes → Bool × Bytes
  | [] => (false, [])
  | b :: rest =>
    if b = '-'.toUInt8 then (true, rest)
    else if b = '+'.toUInt8 then (false, rest)
    else (false, b :: rest)

def applySign (negative : Bool) (n : Nat) : Int := if negative then -n else n

/-- An optional sign and digits, at least one. -/
def int? (s : Bytes) : Option Int :=
  let (negative, digits) := takeSign s
  if digits ≠ [] ∧ digits.all Byte.isDigit then
    some (applySign negative (Bytes.natValue digits))
  else none

/-- What may follow the digits of a number: nothing, or an exponent. -/
def exponent? : Bytes → Option Int
  | [] => some 0
  | b :: rest => if b = 'e'.toUInt8 ∨ b = 'E'.toUInt8 then int? rest else none

/-- The digits after a point at the front, and what follows them; no point, no digits. -/
def takeFraction : Bytes → Bytes × Bytes
  | [] => ([], [])
  | b :: rest =>
    if b = '.'.toUInt8 then (Bytes.takeDigits rest, rest.dropWhile Byte.isDigit)
    else ([], b :: rest)

def read? (s : Bytes) : Option Numeral :=
  let (negative, s) := takeSign s
  let whole := Bytes.takeDigits s
  let (fraction, s) := takeFraction (s.dropWhile Byte.isDigit)
  if whole = [] ∧ fraction = [] then none
  else
    (exponent? s).map fun e =>
      { negative, mantissa := Bytes.natValue (whole ++ fraction), exponent := e - fraction.length }

/-- Halfway from the largest finite float to the power of two after it: the least magnitude that
does not round to a finite float. -/
def overflowBound : Nat := (twoTo 54 - 1) * twoTo 970

/-- The magnitude reaches `overflowBound`. -/
def overflows (n : Numeral) : Bool :=
  if 0 ≤ n.exponent then overflowBound ≤ n.mantissa * tenTo n.exponent.toNat
  else overflowBound * tenTo (-n.exponent).toNat ≤ n.mantissa

/-- The magnitude is so small that it rounds to zero.  Some numbers that round to zero are left to
`Float.ofScientific`; this finds those whose power of ten is too long to compute with. -/
def vanishes (n : Numeral) : Bool := n.mantissa = 0 ∨ n.exponent < -(400 + n.mantissa.log2 : Int)

/-- The float nearest to the number, unless it is too large to have one. -/
def toFloat? (n : Numeral) : Option Float :=
  let signed (x : Float) : Float := if n.negative then -x else x
  if n.vanishes then some (signed 0)
  else if 400 < n.exponent || n.overflows then none
  else some (signed (Float.ofScientific n.mantissa (n.exponent < 0) n.exponent.natAbs))

end Numeral

/-- What comes of reading a text into a variable. -/
structure Parse (α : Type) where
  /-- The text was read. -/
  ok : Bool
  /-- What the variable holds afterwards. -/
  value : α

namespace Parse

/-- A variable that holds `before` is only changed if there is something to put there. -/
def store {α : Type} (before : α) : Option α → Parse α
  | some x => ⟨true, x⟩
  | none => ⟨false, before⟩

/-- What was read, if anything was. -/
def result? {α : Type} (p : Parse α) : Option α := if p.ok then some p.value else none

theorem result?_store {α : Type} (before : α) (read : Option α) :
    (store before read).result? = read := by
  cases read <;> rfl

theorem store_eq_true_iff {α : Type} {before x : α} {read : Option α} :
    store before read = ⟨true, x⟩ ↔ read = some x := by
  cases read <;> simp [store]

end Parse

namespace Bytes

/-- Reads the float that the whole text writes. -/
def parseFloat (s : Bytes) (before : Float) : Parse Float :=
  .store before ((Numeral.read? s).bind Numeral.toFloat?)

/-- Reads the whole number that the whole text writes, if it fits in 32 bits. -/
def parseInt32 (s : Bytes) (before : Int) : Parse Int :=
  .store before ((Numeral.int? s).filter fun n => -2147483648 ≤ n ∧ n ≤ 2147483647)

/-- The float that the whole text writes.  Whoever asks for it has a variable that holds zero. -/
def float? (s : Bytes) : Option Float := (s.parseFloat 0).result?

/-- The whole number that the whole text writes, if it fits in 32 bits. -/
def int32? (s : Bytes) : Option Int := (s.parseInt32 0).result?

theorem float?_eq (s : Bytes) : s.float? = (Numeral.read? s).bind Numeral.toFloat? :=
  Parse.result?_store _ _

theorem int32?_eq (s : Bytes) :
    s.int32? = (Numeral.int? s).filter fun n => -2147483648 ≤ n ∧ n ≤ 2147483647 :=
  Parse.result?_store _ _

/-- What is in the variable before does not matter for what is read. -/
theorem parseFloat_eq (s : Bytes) (before : Float) :
    s.parseFloat before = .store before s.float? := by
  rw [float?_eq]
  rfl

theorem parseInt32_eq (s : Bytes) (before : Int) :
    s.parseInt32 before = .store before s.int32? := by
  rw [int32?_eq]
  rfl

end Bytes
end StrongMotion
