import Mathlib.Data.List.DropRight
import StrongMotion.Proofs.Lines

/-!
# Where words stand

A word stands in a text between two others, each of which is empty or has a blank next to it.  The
words of the text are then those of the part before, the word, and those of the part after
(`Bytes.StandsBetween.words_eq`), and each word of a text stands somewhere
(`Bytes.exists_standsBetween`).

What comes before a place in a text makes whole lines and the front of the line that the place is
in.  There are as many whole lines as line feeds before it (`Bytes.exists_cut_append`), so the line
of a word and what stands before it there can be read off the bytes.
-/

namespace StrongMotion
namespace Bytes

/-! ## Words in texts -/

/-- The word is neither a part of a longer one that begins before it nor of one that goes on after
it. -/
structure StandsBetween (before w after : Bytes) : Prop where
  isWord : w.IsWord
  blank_before : ∀ b, before.getLast? = some b → Byte.isBlank b = true
  blank_after : ∀ b, after.head? = some b → Byte.isBlank b = true

theorem words_singleton {w : Bytes} (hw : w.IsWord) : words w = [w] := by
  have hscan := wordsFrom_append hw.isBlank_of_mem [] []
  rw [List.append_nil, List.append_nil, wordsFrom, List.reverse_reverse] at hscan
  rw [words, hscan, if_neg (by simpa using hw.ne_nil)]

theorem words_append_of_blank_end {s : Bytes}
    (hs : ∀ b, s.getLast? = some b → Byte.isBlank b = true) (rest : Bytes) :
    words (s ++ rest) = words s ++ words rest := by
  cases s using List.reverseRecOn with
  | nil => rfl
  | append_singleton s b =>
    have hb : Byte.isBlank b = true := hs b List.getLast?_concat
    rw [List.append_assoc, List.singleton_append, words_append_of_isBlank hb,
      words_append_of_isBlank hb, words_nil, List.append_nil]

theorem words_append_of_blank_head {rest : Bytes}
    (hrest : ∀ b, rest.head? = some b → Byte.isBlank b = true) (s : Bytes) :
    words (s ++ rest) = words s ++ words rest := by
  cases rest with
  | nil => rw [words_nil, List.append_nil, List.append_nil]
  | cons b rest =>
    have hb : Byte.isBlank b = true := hrest b rfl
    rw [words_append_of_isBlank hb, words_cons_of_isBlank hb]

theorem words_eq_nil_iff {s : Bytes} : words s = [] ↔ ∀ b ∈ s, Byte.isBlank b = true := by
  constructor
  · intro hwords b hb
    by_contra hblank
    obtain ⟨w, hw, -⟩ := exists_mem_words hb (eq_false_of_ne_true hblank)
    rw [hwords] at hw
    cases hw
  · intro hblank
    refine List.eq_nil_iff_forall_not_mem.2 fun w hw => ?_
    obtain ⟨b, hb⟩ := List.exists_mem_of_ne_nil w (ne_nil_of_mem_words hw)
    have hmem : b ∈ (words s).flatten := List.mem_flatten.2 ⟨w, hw, hb⟩
    rw [flatten_words, List.mem_filter] at hmem
    have hword := isBlank_of_mem_words hw b hb
    rw [hblank b hmem.1] at hword
    cases hword

namespace StandsBetween

variable {before w after : Bytes}

theorem words_eq (h : StandsBetween before w after) :
    words (before ++ (w ++ after)) = words before ++ w :: words after := by
  rw [words_append_of_blank_end h.blank_before, words_append_of_blank_head h.blank_after,
    words_singleton h.isWord, List.singleton_append]

theorem append_cons (h : StandsBetween before w after) {b : UInt8} (hb : Byte.isBlank b = true)
    (s : Bytes) : StandsBetween (s ++ b :: before) w after where
  isWord := h.isWord
  blank_before c hc := by
    cases before using List.reverseRecOn with
    | nil =>
      rw [List.getLast?_concat, Option.some.injEq] at hc
      rw [← hc]
      exact hb
    | append_singleton before c' =>
      refine h.blank_before c ?_
      rw [← List.cons_append, ← List.append_assoc, List.getLast?_concat] at hc
      rw [List.getLast?_concat, hc]
  blank_after := h.blank_after

end StandsBetween

/-- The scan for words finds each of them where it stands. -/
theorem exists_standsBetween_of_wordsFrom (s : Bytes) :
    ∀ (begun w : Bytes) (front back : List Bytes),
    (∀ b ∈ begun, Byte.isBlank b = false) → wordsFrom begun s = front ++ w :: back →
    ∃ before after, begun.reverse ++ s = before ++ (w ++ after) ∧ StandsBetween before w after ∧
      words before = front ∧ words after = back := by
  induction s with
  | nil =>
    intro begun w front back hbegun hwords
    rw [wordsFrom] at hwords
    by_cases hempty : begun.isEmpty = true
    · rw [if_pos hempty] at hwords
      exact absurd hwords.symm (by simp)
    · rw [if_neg hempty] at hwords
      obtain ⟨rfl, hcons⟩ : front = [] ∧ [begun.reverse] = w :: back := by
        cases front <;> simp_all
      obtain ⟨rfl, rfl⟩ := List.cons.inj hcons
      have hword : IsWord begun.reverse := ⟨by simpa using hempty, by simpa using hbegun⟩
      exact ⟨[], [], rfl, ⟨hword, by simp, by simp⟩, rfl, rfl⟩
  | cons b s ih =>
    intro begun w front back hbegun hwords
    rw [wordsFrom] at hwords
    by_cases hb : Byte.isBlank b = true
    · rw [if_pos hb] at hwords
      by_cases hempty : begun.isEmpty = true
      · -- No word is open: the blank goes to what stands before.
        rw [if_pos hempty] at hwords
        obtain rfl := List.isEmpty_iff.1 hempty
        obtain ⟨before, after, hs, hstands, hfront, hback⟩ := ih [] w front back (by simp) hwords
        refine ⟨b :: before, after, ?_, hstands.append_cons hb [], ?_, hback⟩
        · exact congrArg (b :: ·) hs
        · rw [words_cons_of_isBlank hb, hfront]
      · rw [if_neg hempty] at hwords
        have hword : IsWord begun.reverse := ⟨by simpa using hempty, by simpa using hbegun⟩
        cases front with
        | nil =>
          -- The blank closes the word itself.
          obtain ⟨rfl, rfl⟩ := List.cons.inj hwords
          refine ⟨[], b :: s, rfl, ⟨hword, by simp, ?_⟩, rfl, words_cons_of_isBlank hb s⟩
          simpa using hb
        | cons v front =>
          -- The blank closes an earlier word.
          obtain ⟨rfl, hrest⟩ := List.cons.inj hwords
          obtain ⟨before, after, hs, hstands, hfront, hback⟩ := ih [] w front back (by simp) hrest
          refine ⟨begun.reverse ++ b :: before, after, ?_, hstands.append_cons hb _, ?_, hback⟩
          · rw [List.append_assoc, List.cons_append, ← hs]
            rfl
          · rw [words_append_of_isBlank hb, words_singleton hword, hfront, List.singleton_append]
    · rw [if_neg hb] at hwords
      have hbegun' : ∀ c ∈ b :: begun, Byte.isBlank c = false :=
        List.forall_mem_cons.2 ⟨by simpa using hb, hbegun⟩
      obtain ⟨before, after, hs, hplace⟩ := ih (b :: begun) w front back hbegun' hwords
      refine ⟨before, after, ?_, hplace⟩
      rw [← hs, List.reverse_cons, List.append_assoc, List.singleton_append]

/-- Each word of a text stands in it, with the words before it before it and those after it after
it. -/
theorem exists_standsBetween {s w : Bytes} {front back : List Bytes}
    (hwords : words s = front ++ w :: back) :
    ∃ before after, s = before ++ (w ++ after) ∧ StandsBetween before w after ∧
      words before = front ∧ words after = back :=
  exists_standsBetween_of_wordsFrom s [] w front back (by simp) hwords

/-! ## Lines around words -/

/-- What stands behind the last line feed of the text. -/
def sinceLineFeed (s : Bytes) : Bytes := s.rtakeWhile (· ≠ Line.lineFeed)

theorem sinceLineFeed_concat_lineFeed (s : Bytes) : sinceLineFeed (s ++ [Line.lineFeed]) = [] :=
  List.rtakeWhile_concat_neg _ _ _ (by simp)

theorem sinceLineFeed_concat {b : UInt8} (hb : b ≠ Line.lineFeed) (s : Bytes) :
    sinceLineFeed (s ++ [b]) = sinceLineFeed s ++ [b] :=
  List.rtakeWhile_concat_pos _ _ _ (by simpa using hb)

theorem lineFeed_not_mem_sinceLineFeed (s : Bytes) : Line.lineFeed ∉ sinceLineFeed s := by
  intro hmem
  simpa using List.mem_rtakeWhile_imp hmem

/-- What stands before the last line feed makes no difference. -/
theorem sinceLineFeed_append (s t : Bytes) :
    sinceLineFeed ((s ++ [Line.lineFeed]) ++ t) = sinceLineFeed t := by
  induction t using List.reverseRecOn with
  | nil => rw [List.append_nil, sinceLineFeed_concat_lineFeed]; rfl
  | append_singleton t b ih =>
    rw [← List.append_assoc]
    by_cases hb : b = Line.lineFeed
    · rw [hb, sinceLineFeed_concat_lineFeed, sinceLineFeed_concat_lineFeed]
    · rw [sinceLineFeed_concat hb, sinceLineFeed_concat hb, ih]

/-- The line feeds of a text close as many lines, and the next line begins with what stands behind
the last of them. -/
theorem exists_cut_append (before : Bytes) : ∃ ls : List Line,
    ls.length = before.count Line.lineFeed ∧
      ∀ s, Cut (before ++ s) ls (sinceLineFeed before ++ s) := by
  induction before using List.reverseRecOn with
  | nil => exact ⟨[], rfl, Cut.nil⟩
  | append_singleton before b ih =>
    obtain ⟨ls, hlength, hcut⟩ := ih
    by_cases hb : b = Line.lineFeed
    · subst hb
      refine ⟨ls ++ [⟨sinceLineFeed before, true⟩], ?_, fun s => ?_⟩
      · rw [List.length_append, hlength, List.count_append]
        rfl
      · rw [List.append_assoc, sinceLineFeed_concat_lineFeed]
        refine (hcut _).append ?_
        have hclosed : Line.Precedes ⟨sinceLineFeed before, true⟩ s :=
          ⟨lineFeed_not_mem_sinceLineFeed before, Or.inl rfl⟩
        simpa [Line.raw] using Cut.cons hclosed (Cut.nil s)
    · refine ⟨ls, ?_, fun s => ?_⟩
      · rw [List.count_append, List.count_singleton, hlength]
        simp [hb]
      · rw [sinceLineFeed_concat hb, List.append_assoc, List.append_assoc]
        exact hcut _

theorem IsWord.lineFeed_not_mem {w : Bytes} (hw : w.IsWord) : Line.lineFeed ∉ w := fun hmem =>
  absurd (hw.isBlank_of_mem _ hmem) (by decide)

/-- A word stands in its line as it stands in the text. -/
theorem StandsBetween.sinceLineFeed {before w t s : Bytes} (h : StandsBetween before w (t ++ s)) :
    StandsBetween (sinceLineFeed before) w t where
  isWord := h.isWord
  blank_before b hb := by
    obtain ⟨x, hx⟩ := List.rtakeWhile_suffix (· ≠ Line.lineFeed) before
    apply h.blank_before b
    rw [← hx, List.getLast?_append]
    exact Option.or_eq_some_iff.2 (Or.inl hb)
  blank_after b hb := by
    apply h.blank_after b
    rw [List.head?_append]
    exact Option.or_eq_some_iff.2 (Or.inl hb)

/-- The words before a word are those of the lines before its own and those before it there. -/
theorem StandsBetween.exists_line {before w after : Bytes} (h : StandsBetween before w after) :
    ∃ ls l more back, lines (before ++ (w ++ after)) = ls ++ l :: more ∧
      ls.length = before.count Line.lineFeed ∧
      words before = (ls.flatMap fun l => words l.text) ++ words before.sinceLineFeed ∧
      words l.text = words before.sinceLineFeed ++ w :: back := by
  obtain ⟨ls, hlength, hcut⟩ := exists_cut_append before
  have hbefore := (hcut []).words_eq
  rw [List.append_nil, List.append_nil] at hbefore
  have hlines := (hcut (w ++ after)).lines_eq
  have hrest := cut_lines (before.sinceLineFeed ++ (w ++ after))
  cases hfirst : lines (before.sinceLineFeed ++ (w ++ after)) with
  | nil =>
    rw [hfirst] at hrest
    exact absurd hrest.eq_append (by simp [h.isWord.ne_nil])
  | cons l more =>
    rw [hfirst] at hlines hrest
    -- No line feed comes before the end of the word, so its line goes at least as far.
    have hfeed : Line.lineFeed ∉ before.sinceLineFeed ++ w := by
      rw [List.mem_append, not_or]
      exact ⟨lineFeed_not_mem_sinceLineFeed before, h.isWord.lineFeed_not_mem⟩
    have hkept : before.sinceLineFeed ++ w <+: before.sinceLineFeed ++ (w ++ after) := by
      rw [← List.append_assoc]
      exact List.prefix_append _ _
    obtain ⟨t, ht⟩ := hrest.prefix_text hkept hfeed
    obtain ⟨s, hs, -⟩ := hrest.exists_text_append
    obtain rfl : after = t ++ s := by
      rw [← ht, ← List.append_assoc, List.append_assoc _ t s] at hs
      exact List.append_cancel_left hs
    refine ⟨ls, l, more, words t, hlines, hlength, hbefore, ?_⟩
    rw [← ht, List.append_assoc, h.sinceLineFeed.words_eq]

/-! ## Whole lines before a place -/

/-- The lines that have anything behind them are closed. -/
theorem Cut.closed_of_mem {s rest : Bytes} {ls : List Line} (hcut : Cut s ls rest)
    (hrest : rest ≠ []) : ∀ l ∈ ls, l.closed = true ∧ Line.lineFeed ∉ l.text := by
  induction hcut with
  | nil s => simp
  | @cons l s ls rest hl hcut ih =>
    refine List.forall_mem_cons.2 ⟨⟨hl.ends.resolve_right ?_, hl.lineFeed_not_mem⟩, ih hrest⟩
    rintro ⟨-, rfl⟩
    exact hrest (List.append_eq_nil_iff.1 hcut.eq_append.symm).2

theorem count_lineFeed_flatMap_raw {ls : List Line}
    (hls : ∀ l ∈ ls, l.closed = true ∧ Line.lineFeed ∉ l.text) :
    (ls.flatMap Line.raw).count Line.lineFeed = ls.length := by
  induction ls with
  | nil => rfl
  | cons l ls ih =>
    obtain ⟨⟨hclosed, hfeed⟩, hls⟩ := List.forall_mem_cons.1 hls
    rw [List.flatMap_cons, List.count_append, raw_of_closed hclosed, List.count_append,
      List.count_eq_zero.2 hfeed, ih hls, List.length_cons, List.count_singleton_self]
    omega

theorem sinceLineFeed_flatMap_raw_append {ls : List Line} (hls : ∀ l ∈ ls, l.closed = true)
    (s : Bytes) : sinceLineFeed (ls.flatMap Line.raw ++ s) = sinceLineFeed s := by
  induction ls with
  | nil => rfl
  | cons l ls ih =>
    obtain ⟨hclosed, hls⟩ := List.forall_mem_cons.1 hls
    rw [List.flatMap_cons, List.append_assoc, raw_of_closed hclosed, sinceLineFeed_append, ih hls]

end Bytes
end StrongMotion
