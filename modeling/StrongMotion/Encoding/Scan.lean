import StrongMotion.Text.Basic

/-!
# Reading characters

An encoding says what stands at the front of a text: a character and the number of bytes that
write it, a sequence that no character has, or the beginning of one that the text breaks off.
`scan` reads a text with such a rule from left to right and stops at the first flaw.
-/

namespace StrongMotion

inductive Flaw
  | invalid
  /-- The text ends within a character. -/
  | cut
deriving DecidableEq, Repr

/-- What stands at the front of a text. -/
inductive Step
  /-- The character with this code, written with this many bytes. -/
  | char (code length : Nat)
  | flawed (flaw : Flaw)
deriving DecidableEq, Repr

/-- The characters up to the first flaw, or all of them. -/
structure Decoded where
  codes : List Nat
  flaw : Option Flaw
deriving DecidableEq, Repr

/-- Reads all characters of a text of which the first `skip` bytes belong to a character already
read. -/
def scan (step : Bytes → Step) : Nat → Bytes → Decoded
  | _, [] => ⟨[], none⟩
  | skip + 1, _ :: rest => scan step skip rest
  | 0, b :: rest =>
    match step (b :: rest) with
    | .char code length =>
      let after := scan step (length - 1) rest
      { after with codes := code :: after.codes }
    | .flawed flaw => ⟨[], some flaw⟩

/-- The codes that UTF-16 uses in pairs and that stand for no character of their own. -/
def isSurrogate (code : Nat) : Bool := 0xD800 ≤ code && code ≤ 0xDFFF

end StrongMotion
