import StrongMotion.Proofs.ChangedLines

/-!
# Line ends of two bytes

Some systems end a line with a carriage return and a line feed.  The reader strips the return from a
line of the header, and in a line of samples it is a blank.  So a text in which no line ends that
way yet is read the same when all its lines do (`Record.read_withReturns`).
-/

namespace StrongMotion

namespace Bytes

/-- A line feed as it is written, with a carriage return before it. -/
def withReturn (b : UInt8) : Bytes :=
  if b = Line.lineFeed then [Line.carriageReturn, Line.lineFeed] else [b]

/-- The text with a carriage return before each line feed. -/
def withReturns (s : Bytes) : Bytes := s.flatMap withReturn

end Bytes

/-- The line with the carriage return that the line feed after it now has before it. -/
def Line.withReturn (l : Line) : Line :=
  if l.closed then { l with text := l.text ++ [carriageReturn] } else l

namespace Bytes

/-- No line of the text ends with a carriage return and a line feed. -/
def EndsPlain (s : Bytes) : Prop := ¬[Line.carriageReturn, Line.lineFeed] <:+: s

theorem linesFrom_withReturns (begun s : Bytes) :
    linesFrom begun (withReturns s) = (linesFrom begun s).map Line.withReturn := by
  induction s generalizing begun with
  | nil =>
    show linesFrom begun [] = _
    rw [linesFrom]
    split <;> rfl
  | cons b s ih =>
    rw [withReturns, List.flatMap_cons, ← withReturns]
    by_cases hb : b = Line.lineFeed
    · have hplain : linesFrom begun (b :: s) = ⟨begun.reverse, true⟩ :: linesFrom [] s := if_pos hb
      rw [withReturn, if_pos hb, hplain, List.map_cons, ← ih []]
      show linesFrom begun (Line.carriageReturn :: Line.lineFeed :: withReturns s) = _
      rw [linesFrom, if_neg (by decide), linesFrom, if_pos rfl, List.reverse_cons]
      rfl
    · rw [withReturn, if_neg hb, List.singleton_append, linesFrom, if_neg hb, linesFrom, if_neg hb,
        ih (b :: begun)]

theorem lines_withReturns (s : Bytes) : (withReturns s).lines = s.lines.map Line.withReturn :=
  linesFrom_withReturns [] s

/-- A closed line of a text is followed by its line feed there. -/
theorem infix_of_mem_lines {s : Bytes} {l : Line} (hl : l ∈ lines s) (hclosed : l.closed = true) :
    l.text ++ [Line.lineFeed] <:+: s := by
  obtain ⟨before, after, hlines⟩ := List.append_of_mem hl
  have hs := flatMap_raw_lines s
  rw [hlines, List.flatMap_append, List.flatMap_cons, raw_of_closed hclosed] at hs
  exact ⟨_, _, by rw [← hs, List.append_assoc]⟩

theorem EndsPlain.getLast?_ne {s : Bytes} (hs : s.EndsPlain) {l : Line} (hl : l ∈ lines s)
    (hclosed : l.closed = true) : l.text.getLast? ≠ some Line.carriageReturn := by
  intro hlast
  obtain ⟨front, htext⟩ := List.getLast?_eq_some_iff.1 hlast
  have hinfix := infix_of_mem_lines hl hclosed
  rw [htext, List.append_assoc] at hinfix
  exact hs ((List.suffix_append front _).isInfix.trans hinfix)

theorem words_concat_carriageReturn (s : Bytes) : words (s ++ [Line.carriageReturn]) = words s := by
  rw [words_append_of_isBlank (by decide) s [], words_nil, List.append_nil]

end Bytes

namespace Line

theorem bare_withReturn {l : Line}
    (hl : l.closed = true → l.text.getLast? ≠ some carriageReturn) :
    l.withReturn.bare = l.bare := by
  unfold withReturn
  split
  · next hclosed => rw [bare_concat_carriageReturn, bare_eq_text (hl hclosed)]
  · rfl

theorem words_withReturn (l : Line) : l.withReturn.text.words = l.text.words := by
  unfold withReturn
  split
  · exact Bytes.words_concat_carriageReturn l.text
  · rfl

end Line

namespace Record

/-- Whether lines end with a line feed alone or with a carriage return before it makes no difference
to a record or to the fault of a text that is none. -/
theorem read_withReturns (o : ReadOptions) {s : Bytes} (hs : s.EndsPlain) :
    read o s.withReturns = read o s := by
  unfold read
  rw [Bytes.lines_withReturns]
  cases hd : Decoder.ofChoice o.encoding with
  | error f =>
    unfold readLines
    rw [hd]
  | ok d =>
    have hhead : HeaderText.read d (s.lines.map Line.withReturn) =
        { HeaderText.read d s.lines with
          rest := (HeaderText.read d s.lines).rest.map Line.withReturn } := by
      refine HeaderText.read_map (R := Eq) (fun l hl d d' hsame => ?_) rfl
      rw [Line.bare_withReturn (hs.getLast?_ne hl), hsame]
      exact ⟨rfl, rfl⟩
    have hwords : ∀ number (l : Line), Samples.ofWords number 1 l.withReturn.text.words =
        (Samples.ofWords number 1 l.text.words).mapError id := by
      intro number l
      rw [l.words_withReturn]
      cases Samples.ofWords number 1 l.text.words <;> rfl
    rw [result_readLines_map hd hd rfl hhead hwords (fun _ _ => rfl)]
    cases (readLines o s.lines).result <;> rfl

theorem read_withReturns_shortFile :
    shortFile.EndsPlain ∧ read {} shortFile.withReturns = read {} shortFile ∧
      ∃ r, read {} shortFile.withReturns = .ok r := by
  have hplain : shortFile.EndsPlain := by
    unfold Bytes.EndsPlain
    decide +kernel
  have hread := read_withReturns {} hplain
  obtain ⟨r, hr⟩ := exists_read_shortFile
  exact ⟨hplain, hread, r, hread.trans hr⟩

end Record
end StrongMotion
