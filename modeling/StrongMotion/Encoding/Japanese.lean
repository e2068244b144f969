import StrongMotion.Encoding.Scan

/-!
# Shift JIS and EUC-JP

Both encodings write ASCII with one byte, half-width katakana in a row of their own, and the
characters of one national set with two bytes.  Of the thousands in that set the ones kept are those
that occur in the comments of record files.
-/

namespace StrongMotion
namespace Japanese

/-- A character with the two bytes that write it in either encoding. -/
structure Glyph where
  code : Nat
  shiftJis : UInt8 × UInt8
  eucJp : UInt8 × UInt8

/-- The characters of two bytes that are kept.  A converter knows thousands more, and the rows of
three bytes that EUC-JP has; all these are left out, and their bytes are taken for invalid. -/
def table : List Glyph :=
  [⟨0x5730, (0x92, 0x6E), (0xC3, 0xCF)⟩,  -- earth
   ⟨0x9707, (0x90, 0x6B), (0xBF, 0xCC)⟩,  -- quake
   ⟨0x89B3, (0x8A, 0xCF), (0xB4, 0xD1)⟩,  -- view
   ⟨0x6E2C, (0x91, 0xAA), (0xC2, 0xAC)⟩,  -- measure
   ⟨0x6771, (0x93, 0x8C), (0xC5, 0xEC)⟩,  -- east
   ⟨0x4EAC, (0x8B, 0x9E), (0xB5, 0xFE)⟩,  -- capital
   ⟨0x3042, (0x82, 0xA0), (0xA4, 0xA2)⟩,  -- hiragana a
   ⟨0x30A2, (0x83, 0x41), (0xA5, 0xA2)⟩,  -- katakana a
   ⟨0x4E0A, (0x8F, 0xE3), (0xBE, 0xE5)⟩,  -- above
   ⟨0x4E0B, (0x89, 0xBA), (0xB2, 0xBC)⟩]  -- below

def halfWidth (b : UInt8) : Nat := 0xFF61 + (b.toNat - 0xA1)

def isHalfWidth (b : UInt8) : Bool := 0xA1 ≤ b && b ≤ 0xDF

/-- The character that the two bytes write, where `pair` picks the encoding. -/
def lookup (pair : Glyph → UInt8 × UInt8) (bytes : UInt8 × UInt8) : Step :=
  match table.find? fun k => pair k == bytes with
  | some k => .char k.code 2
  | none => .flawed .invalid

end Japanese

namespace ShiftJis

open Japanese

/-- Shift JIS has a yen sign and an overline where ASCII has a backslash and a tilde. -/
def single (b : UInt8) : Nat :=
  if b = 0x5C then 0xA5 else if b = 0x7E then 0x203E else b.toNat

def step : Bytes → Step
  | [] => .flawed .cut
  | b :: rest =>
    if b < 0x80 then .char (single b) 1
    else if isHalfWidth b then .char (halfWidth b) 1
    else if b = 0x80 ∨ b = 0xA0 ∨ 0xEA < b then .flawed .invalid
    else
      match rest with
      | [] => .flawed .cut
      | c :: _ => lookup Glyph.shiftJis (b, c)

end ShiftJis

namespace EucJp

open Japanese

/-- A byte of the control ranges stands for itself; `8E` introduces a half-width katakana. -/
def step : Bytes → Step
  | [] => .flawed .cut
  | b :: rest =>
    if b < 0x8E ∨ (0x90 ≤ b ∧ b < 0xA0) then .char b.toNat 1
    else if b = 0xFF then .flawed .invalid
    else
      match rest with
      | [] => .flawed .cut
      | c :: _ =>
        if b = 0x8E then
          if isHalfWidth c then .char (halfWidth c) 2 else .flawed .invalid
        else lookup Glyph.eucJp (b, c)

end EucJp
end StrongMotion
