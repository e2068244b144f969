import StrongMotion.Proofs.Words
import StrongMotion.Text.Line

/-!
# Cutting a text into lines

`Bytes.Cut s lines rest` says that `s` begins with these lines and goes on with `rest`.  It is
stated about bytes: where the line feeds are and that nothing is lost.  `Bytes.lines` is the one
way to cut a text to its end (`lines_eq_of_cut`, `cut_lines`).
-/

namespace StrongMotion

/-- The line can stand before `rest`: no line feed is within it, and it is closed unless it ends the
text, where it is open and not empty. -/
structure Line.Precedes (l : Line) (rest : Bytes) : Prop where
  lineFeed_not_mem : Line.lineFeed ∉ l.text
  ends : l.closed = true ∨ l.text ≠ [] ∧ rest = []

theorem Line.bare_concat_carriageReturn (s : Bytes) (closed : Bool) :
    (Line.mk (s ++ [carriageReturn]) closed).bare = s := by
  simp [bare]

theorem Line.bare_eq_text {l : Line} (hlast : l.text.getLast? ≠ some carriageReturn) :
    l.bare = l.text := if_neg hlast

theorem Line.prefix_bare {l : Line} {p : Bytes} (hp : p <+: l.text) (hreturn : carriageReturn ∉ p) :
    p <+: l.bare := by
  by_cases hlast : l.text.getLast? = some carriageReturn
  · obtain ⟨s, hs⟩ := List.getLast?_eq_some_iff.1 hlast
    rw [bare, if_pos hlast, hs, List.dropLast_concat]
    rw [hs] at hp
    rcases List.prefix_concat_iff.1 hp with rfl | h
    · exact absurd (by simp) hreturn
    · exact h
  · rw [bare_eq_text hlast]
    exact hp

theorem Line.mem_of_mem_bare {l : Line} {b : UInt8} (hb : b ∈ l.bare) : b ∈ l.text := by
  unfold bare at hb
  split at hb
  · exact List.dropLast_subset _ hb
  · exact hb

namespace Bytes

/-- The text `s` is cut at line feeds into `lines` and what follows them. -/
inductive Cut : Bytes → List Line → Bytes → Prop
  | nil (s : Bytes) : Cut s [] s
  | cons {l : Line} {s : Bytes} {lines : List Line} {rest : Bytes} :
      l.Precedes s → Cut s lines rest → Cut (l.raw ++ s) (l :: lines) rest

/-! ## Lines and cuts -/

theorem linesFrom_append (begun : Bytes) : ∀ {text : Bytes}, Line.lineFeed ∉ text →
    ∀ rest : Bytes, linesFrom begun (text ++ rest) = linesFrom (text.reverse ++ begun) rest := by
  intro text
  induction text generalizing begun with
  | nil => intro _ rest; rfl
  | cons b text ih =>
    intro hfeed rest
    rw [List.mem_cons, not_or] at hfeed
    rw [List.cons_append, linesFrom, if_neg (Ne.symm hfeed.1), ih (b :: begun) hfeed.2,
      List.reverse_cons, List.append_assoc, List.singleton_append]

/-- A line that can stand before a text is the first line of both together. -/
theorem lines_raw_append {l : Line} {s : Bytes} (hl : l.Precedes s) :
    lines (l.raw ++ s) = l :: lines s := by
  obtain ⟨text, closed⟩ := l
  obtain ⟨hfeed, hends⟩ := hl
  cases closed with
  | true =>
    show linesFrom [] ((text ++ [Line.lineFeed]) ++ s) = _
    rw [List.append_assoc, linesFrom_append [] hfeed, List.append_nil, List.singleton_append,
      linesFrom, if_pos rfl, List.reverse_reverse, ← lines]
  | false =>
    obtain ⟨hne, rfl⟩ : text ≠ [] ∧ s = [] := by simpa using hends
    show linesFrom [] (text ++ []) = _
    rw [linesFrom_append [] hfeed, List.append_nil, linesFrom, List.reverse_reverse,
      if_neg (by simpa using hne)]
    rfl

theorem Cut.lines_eq {s rest : Bytes} {ls : List Line} (hcut : Cut s ls rest) :
    lines s = ls ++ lines rest := by
  induction hcut with
  | nil s => rfl
  | cons hl _ ih => rw [lines_raw_append hl, ih, List.cons_append]

/-- Lines that are cut from a text give it back. -/
theorem Cut.eq_append {s rest : Bytes} {ls : List Line} (hcut : Cut s ls rest) :
    s = ls.flatMap Line.raw ++ rest := by
  induction hcut with
  | nil s => rfl
  | cons _ _ ih => rw [List.flatMap_cons, List.append_assoc, ← ih]

theorem cut_linesFrom (s : Bytes) : ∀ begun : Bytes, Line.lineFeed ∉ begun →
    Cut (begun.reverse ++ s) (linesFrom begun s) [] := by
  induction s with
  | nil =>
    intro begun hfeed
    rw [linesFrom, List.append_nil]
    by_cases hbegun : begun = []
    · subst hbegun
      exact Cut.nil []
    · rw [if_neg (by simpa using hbegun)]
      have hopen : Line.Precedes ⟨begun.reverse, false⟩ [] :=
        ⟨by simpa using hfeed, Or.inr ⟨by simpa using hbegun, rfl⟩⟩
      simpa [Line.raw] using Cut.cons hopen (Cut.nil [])
  | cons b s ih =>
    intro begun hfeed
    rw [linesFrom]
    by_cases hb : b = Line.lineFeed
    · subst hb
      have hclosed : Line.Precedes ⟨begun.reverse, true⟩ s := ⟨by simpa using hfeed, Or.inl rfl⟩
      have hcut : Cut s (linesFrom [] s) [] := ih [] List.not_mem_nil
      simpa [Line.raw] using Cut.cons hclosed hcut
    · have hfeed' : Line.lineFeed ∉ b :: begun := by
        rw [List.mem_cons, not_or]
        exact ⟨Ne.symm hb, hfeed⟩
      simpa [hb] using ih (b :: begun) hfeed'

theorem cut_lines (s : Bytes) : Cut s (lines s) [] :=
  cut_linesFrom s [] List.not_mem_nil

theorem Cut.append {s middle rest : Bytes} {a b : List Line} (ha : Cut s a middle)
    (hb : Cut middle b rest) : Cut s (a ++ b) rest := by
  induction ha with
  | nil s => exact hb
  | cons hl _ ih => exact .cons hl (ih hb)

theorem Cut.exists_append {s rest : Bytes} {a b : List Line} (hcut : Cut s (a ++ b) rest) :
    ∃ middle, Cut s a middle ∧ Cut middle b rest := by
  induction a generalizing s with
  | nil => exact ⟨s, Cut.nil s, hcut⟩
  | cons l a ih =>
    cases hcut with
    | cons hl hcut =>
      obtain ⟨middle, ha, hb⟩ := ih hcut
      exact ⟨middle, Cut.cons hl ha, hb⟩

/-- The first lines of a text are cut from it. -/
theorem exists_cut_of_lines_eq {s : Bytes} {a b : List Line} (hlines : lines s = a ++ b) :
    ∃ rest, Cut s a rest ∧ lines rest = b := by
  have hcut := cut_lines s
  rw [hlines] at hcut
  obtain ⟨rest, ha, hb⟩ := hcut.exists_append
  exact ⟨rest, ha, by rw [hb.lines_eq]; exact List.append_nil b⟩

theorem raw_of_closed {l : Line} (hclosed : l.closed = true) :
    l.raw = l.text ++ [Line.lineFeed] := if_pos hclosed

/-- A line feed of a text that is cut is behind all lines, or it closes one of them. -/
theorem Cut.at_lineFeed {x z rest : Bytes} {ls : List Line}
    (hcut : Cut (x ++ Line.lineFeed :: z) ls rest) :
    (∃ x', rest = x' ++ Line.lineFeed :: z) ∨
      ∃ before after, ls = before ++ after ∧ Cut (x ++ [Line.lineFeed]) before [] ∧
        Cut z after rest := by
  generalize hs : x ++ Line.lineFeed :: z = s at hcut
  induction hcut generalizing x with
  | nil s => exact Or.inl ⟨x, hs.symm⟩
  | @cons l s ls rest hl hcut ih =>
    have hclosed : l.closed = true := by
      refine Classical.byContradiction fun hopen => ?_
      have hraw : l.raw = l.text := if_neg hopen
      rw [(hl.ends.resolve_left hopen).2, List.append_nil, hraw] at hs
      exact hl.lineFeed_not_mem (by rw [← hs]; simp)
    rw [raw_of_closed hclosed, List.append_assoc, List.singleton_append] at hs
    have hfirst : Cut (l.text ++ [Line.lineFeed]) [l] [] := by
      rw [← raw_of_closed hclosed, ← List.append_nil l.raw]
      exact .cons ⟨hl.lineFeed_not_mem, Or.inl hclosed⟩ (.nil [])
    -- The line feed is the one that closes this line, or it is behind that one.
    rcases List.append_eq_append_iff.1 hs with ⟨t, htext, hz⟩ | ⟨t, rfl, hz⟩
    · cases t with
      | nil =>
        rw [List.append_nil] at htext
        obtain rfl : z = s := (List.cons.inj hz).2
        rw [htext] at hfirst
        exact Or.inr ⟨[l], ls, rfl, hfirst, hcut⟩
      | cons b t =>
        have hb : Line.lineFeed = b := (List.cons.inj hz).1
        exact absurd (by rw [htext, hb]; simp) hl.lineFeed_not_mem
    · cases t with
      | nil =>
        obtain rfl : s = z := (List.cons.inj hz).2
        rw [← List.append_nil l.text] at hfirst
        exact Or.inr ⟨[l], ls, rfl, hfirst, hcut⟩
      | cons b t =>
        obtain ⟨rfl, hrest⟩ := List.cons.inj hz
        refine (ih hrest.symm).imp_right ?_
        rintro ⟨before, after, rfl, hbefore, hafter⟩
        refine ⟨l :: before, after, rfl, ?_, hafter⟩
        have hcut' := Cut.cons (l := l) ⟨hl.lineFeed_not_mem, Or.inl hclosed⟩ hbefore
        rw [raw_of_closed hclosed] at hcut'
        simpa using hcut'

theorem Cut.text_of_singleton {x : Bytes} {l : Line} (hcut : Cut (x ++ [Line.lineFeed]) [l] []) :
    l.text = x := by
  generalize hs : x ++ [Line.lineFeed] = s at hcut
  cases hcut with
  | cons hl hcut =>
    cases hcut
    rw [List.append_nil] at hs
    by_cases hclosed : l.closed = true
    · rw [raw_of_closed hclosed] at hs
      exact (List.append_cancel_right hs).symm
    · rw [Line.raw, if_neg hclosed] at hs
      exact absurd (by rw [← hs]; simp) hl.lineFeed_not_mem

theorem Cut.exists_text_append {z rest : Bytes} {l : Line} {ls : List Line}
    (hcut : Cut z (l :: ls) rest) :
    ∃ s, z = l.text ++ s ∧ ∀ b, s.head? = some b → b = Line.lineFeed := by
  cases hcut with
  | @cons _ s _ _ hl _ =>
    by_cases hclosed : l.closed = true
    · refine ⟨Line.lineFeed :: s, by rw [raw_of_closed hclosed]; simp, ?_⟩
      simp [eq_comm]
    · obtain ⟨-, rfl⟩ := hl.ends.resolve_left hclosed
      exact ⟨[], by rw [Line.raw, if_neg hclosed], by simp⟩

/-- The front of a text, up to any line feed, is the front of its first line. -/
theorem Cut.prefix_text {z rest p : Bytes} {l : Line} {ls : List Line}
    (hcut : Cut z (l :: ls) rest) (hp : p <+: z) (hfeed : Line.lineFeed ∉ p) : p <+: l.text := by
  obtain ⟨s, rfl, hs⟩ := hcut.exists_text_append
  rcases List.prefix_or_prefix_of_prefix hp (List.prefix_append l.text s) with h | ⟨q, rfl⟩
  · exact h
  · obtain ⟨t, hq⟩ := (List.prefix_append_right_inj l.text).1 hp
    cases q with
    | nil => simp
    | cons b q =>
      obtain rfl := hs b (by rw [← hq]; rfl)
      exact absurd (by simp) hfeed

theorem Cut.prefix_bare {z rest p : Bytes} {l : Line} {ls : List Line}
    (hcut : Cut z (l :: ls) rest) (hp : p <+: z) (hfeed : Line.lineFeed ∉ p)
    (hreturn : Line.carriageReturn ∉ p) : p <+: l.bare :=
  Line.prefix_bare (hcut.prefix_text hp hfeed) hreturn

theorem mem_of_mem_lines {s : Bytes} {l : Line} (hl : l ∈ lines s) {b : UInt8}
    (hb : b ∈ l.text) : b ∈ s := by
  rw [← flatMap_raw_lines s, List.mem_flatMap]
  refine ⟨l, hl, ?_⟩
  unfold Line.raw
  split
  · exact List.mem_append_left _ hb
  · exact hb

/-! ## Words of lines -/

theorem words_raw_append {l : Line} {s : Bytes} (hl : l.Precedes s) :
    words (l.raw ++ s) = words l.text ++ words s := by
  obtain ⟨text, closed⟩ := l
  obtain ⟨_, hends⟩ := hl
  cases closed with
  | true =>
    show words ((text ++ [Line.lineFeed]) ++ s) = _
    rw [List.append_assoc]
    exact words_append_of_isBlank (by decide) text s
  | false =>
    obtain ⟨-, rfl⟩ : text ≠ [] ∧ s = [] := by simpa using hends
    show words (text ++ []) = words text ++ words []
    rw [words_nil, List.append_nil, List.append_nil]

/-- A line feed is a blank, so the words of lines that are cut from a text are words of it. -/
theorem Cut.words_eq {s rest : Bytes} {ls : List Line} (hcut : Cut s ls rest) :
    words s = (ls.flatMap fun l => words l.text) ++ words rest := by
  induction hcut with
  | nil s => rfl
  | cons hl _ ih => rw [words_raw_append hl, ih, List.flatMap_cons, List.append_assoc]

theorem words_eq_flatMap_lines (s : Bytes) : words s = (lines s).flatMap fun l => words l.text := by
  rw [(cut_lines s).words_eq, words_nil, List.append_nil]

end Bytes
end StrongMotion
