import StrongMotion.Number.Dyadic
import StrongMotion.Text.Basic

/-!
# Floats in decimal

A float is written either with a fixed number of places or with a fixed number of significant
digits, rounded from its exact value with a half going to the even neighbour.
-/

namespace StrongMotion

/-- How a number with a fixed count of significant digits is laid out. -/
structure GeneralStyle where
  /-- The count of significant digits; zeros at the end of a fraction are not written. -/
  digits : Nat
  /-- The least power of ten of a first digit for which no exponent is written.  The greatest is
  the one below `digits`, so that no digit written is a filler. -/
  lowest : Int
  /-- The least count of digits in an exponent. -/
  exponentDigits : Nat

namespace Places

/-- The text of a float that has no exact value. -/
def special (x : Float) : Bytes :=
  if x.isNaN then "nan" else if x < 0 then "-inf" else "inf"

def signText (negative : Bool) : Bytes := if negative then "-" else []

/-- Written with `places` digits after the point, of which there is at least one. -/
def fixed (places : Nat) (x : Float) : Bytes :=
  match Dyadic.ofFloat? x with
  | none => special x
  | some d =>
    let scaled := roundEven (d.num * tenTo places) d.den
    signText d.negative ++ Bytes.ofNat (scaled / tenTo places) ++ "." ++
      Bytes.zeroFill places (Bytes.ofNat (scaled % tenTo places))

/-- The power of ten of the first digit of `num / den`, which is at least `10 ^ (-400)`. -/
def leadingPower (num den : Nat) : Int :=
  (Nat.toDigits 10 (num * tenTo 400 / den)).length - 401

/-- The whole multiple of `10 ^ power` nearest to `num / den`, divided by that power. -/
def roundAt (num den : Nat) (power : Int) : Nat :=
  roundEven (num * tenTo (-power).toNat) (den * tenTo power.toNat)

/-- The first `count` digits of `num / den` as one number, and the power of ten of the first of
them.  Rounding up to a further digit moves the power. -/
def significant (count : Nat) (num den : Nat) : Nat × Int :=
  let power := leadingPower num den
  let n := roundAt num den (power - (count - 1))
  if n < tenTo count then (n, power) else (n / 10, power + 1)

def dropTrailingZeros (digits : Bytes) : Bytes := digits.dropEndWhile (· == 48)

/-- The digits with a point after the first `count` of them; zeros stand for missing digits. -/
def withPoint (digits : Bytes) (count : Nat) : Bytes :=
  let whole := digits.take count ++ Bytes.zeros (count - digits.length)
  let fraction := digits.drop count
  if fraction.isEmpty then whole else whole ++ "." ++ fraction

/-- Digits whose first one stands for `10 ^ power`. -/
def layOut (style : GeneralStyle) (digits : Bytes) (power : Int) : Bytes :=
  if power < style.lowest ∨ style.digits ≤ power then
    withPoint digits 1 ++ "e" ++ (if power < 0 then "-" else "+") ++
      Bytes.zeroFill style.exponentDigits (Bytes.ofNat power.natAbs)
  else if power < 0 then "0." ++ Bytes.zeros (power.natAbs - 1) ++ digits
  else withPoint digits (power.toNat + 1)

def general (style : GeneralStyle) (x : Float) : Bytes :=
  match Dyadic.ofFloat? x with
  | none => special x
  | some d =>
    if d.significand = 0 then signText d.negative ++ "0"
    else
      let (n, power) := significant style.digits d.num d.den
      signText d.negative ++ layOut style (dropTrailingZeros (Bytes.ofNat n)) power

end Places
end StrongMotion
