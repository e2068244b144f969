import StrongMotion.Text.Basic

/-!
# Lines

A line feed closes a line.  Bytes after the last line feed make an open last line; no bytes after
it make none.  A line remembers whether it was closed, so that its lines give a text back exactly
(`flatMap_raw_lines`).
-/

namespace StrongMotion

structure Line where
  text : Bytes
  closed : Bool
deriving DecidableEq, Repr

namespace Line

def lineFeed : UInt8 := 10

def carriageReturn : UInt8 := 13

/-- The line as it stands in its file. -/
def raw (l : Line) : Bytes := if l.closed then l.text ++ [lineFeed] else l.text

/-- The text less one carriage return at its end, which files written on some systems have. -/
def bare (l : Line) : Bytes :=
  if l.text.getLast? = some carriageReturn then l.text.dropLast else l.text

end Line

namespace Bytes

/-- The lines of `s` when `begun`, read backwards, is the part of the first one already seen. -/
def linesFrom (begun : Bytes) : Bytes → List Line
  | [] => if begun.isEmpty then [] else [⟨begun.reverse, false⟩]
  | b :: rest =>
    if b = Line.lineFeed then ⟨begun.reverse, true⟩ :: linesFrom [] rest
    else linesFrom (b :: begun) rest

def lines (s : Bytes) : List Line := linesFrom [] s

theorem flatMap_raw_linesFrom (begun s : Bytes) :
    (linesFrom begun s).flatMap Line.raw = begun.reverse ++ s := by
  induction s generalizing begun with
  | nil =>
    unfold linesFrom
    split
    · simp_all
    · simp [Line.raw]
  | cons b rest ih =>
    unfold linesFrom
    split
    · next hb => simp [ih, Line.raw, hb]
    · simp [ih]

/-- Cutting into lines loses nothing. -/
theorem flatMap_raw_lines (s : Bytes) : (lines s).flatMap Line.raw = s := by
  simp [lines, flatMap_raw_linesFrom]

end Bytes
end StrongMotion
