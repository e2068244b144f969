/-!
# Floats as exact numbers

A finite float is a whole number times a power of two.  Rounding it or writing it in decimal is
then arithmetic on natural numbers, with the quotient of two of them in between.  The powers that
binary and decimal notation are built on are natural numbers too.
-/

namespace StrongMotion

def tenTo (n : Nat) : Nat := Nat.pow 10 n

def twoTo (n : Nat) : Nat := Nat.pow 2 n

theorem tenTo_succ (n : Nat) : tenTo (n + 1) = tenTo n * 10 := rfl

theorem twoTo_succ (n : Nat) : twoTo (n + 1) = twoTo n * 2 := rfl

theorem twoTo_pos (n : Nat) : 0 < twoTo n := by
  induction n with
  | zero => decide
  | succ n ih => rw [twoTo_succ]; omega

/-- The number `significand * 2 ^ exponent`, with a sign that zero has too. -/
structure Dyadic where
  negative : Bool
  significand : Nat
  exponent : Int
deriving DecidableEq, Repr

/-- The whole number nearest to `num / den`; a half goes to the even neighbour. -/
def roundEven (num den : Nat) : Nat :=
  let low := num / den
  let rest := num % den
  if 2 * rest < den ∨ (2 * rest = den ∧ low % 2 = 0) then low else low + 1

/-- The whole number nearest to `num / den`; a half goes up. -/
def roundUp (num den : Nat) : Nat := (2 * num + den) / (2 * den)

namespace Dyadic

/-- The exact value of a float, which infinities and not-a-numbers lack.  Fifty-two bits of
fraction stand below eleven of exponent; a zero exponent field marks the floats without a leading
one. -/
def ofFloat? (x : Float) : Option Dyadic :=
  let bits : Nat := x.toBits.toNat
  let field : Nat := bits / twoTo 52 % twoTo 11
  let fraction : Nat := bits % twoTo 52
  if field = 2047 then none
  else some
    { negative := twoTo 63 ≤ bits
      significand := if field = 0 then fraction else twoTo 52 + fraction
      exponent := (if field = 0 then 1 else (field : Int)) - 1075 }

/-- The magnitude is `num / den`. -/
def num (d : Dyadic) : Nat := d.significand * twoTo d.exponent.toNat

def den (d : Dyadic) : Nat := twoTo (-d.exponent).toNat

/-- The nearest whole number; a half goes away from zero. -/
def round (d : Dyadic) : Int :=
  let n : Int := roundUp d.num d.den
  if d.negative then -n else n

end Dyadic

def leastInt64 : Int := -9223372036854775808

def greatestInt64 : Int := 9223372036854775807

/-- The nearest whole number in 64 bits.  A float that has none there gives the least 64-bit
number, as the processor's conversion does. -/
def roundToInt64 (x : Float) : Int :=
  match Dyadic.ofFloat? x with
  | none => leastInt64
  | some d => if leastInt64 ≤ d.round ∧ d.round ≤ greatestInt64 then d.round else leastInt64

end StrongMotion
