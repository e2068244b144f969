import StrongMotion.Text.Words

/-!
# Words and blanks

A blank closes the word before it, so the words of a text are those before any blank and those
after it, and there is no blank within a word.
-/

namespace StrongMotion

theorem Byte.toNat_lt_of_isBlank {b : UInt8} (hb : isBlank b = true) : b.toNat < 0x80 := by
  unfold isBlank at hb
  rw [Bool.or_eq_true, Bool.and_eq_true, beq_iff_eq, decide_eq_true_eq, decide_eq_true_eq] at hb
  rcases hb with rfl | ⟨-, hle⟩
  · decide
  · exact Nat.lt_of_le_of_lt (UInt8.le_iff_toNat_le.1 hle) (by decide)

namespace Bytes

/-- Bytes that are not blank go on with the word begun. -/
theorem wordsFrom_append {text : Bytes} (htext : ∀ b ∈ text, Byte.isBlank b = false)
    (begun rest : Bytes) :
    wordsFrom begun (text ++ rest) = wordsFrom (text.reverse ++ begun) rest := by
  induction text generalizing begun with
  | nil => rfl
  | cons b text ih =>
    obtain ⟨hb, htext⟩ := List.forall_mem_cons.1 htext
    rw [List.cons_append, wordsFrom, hb, if_neg Bool.false_ne_true, ih htext, List.reverse_cons,
      List.append_assoc, List.singleton_append]

theorem wordsFrom_append_of_isBlank {b : UInt8} (hb : Byte.isBlank b = true) (rest : Bytes) :
    ∀ s begun : Bytes, wordsFrom begun (s ++ b :: rest) = wordsFrom begun s ++ words rest := by
  intro s
  induction s with
  | nil =>
    intro begun
    simp only [List.nil_append, wordsFrom, words, hb, if_true]
    by_cases hbegun : begun.isEmpty
    · rw [if_pos hbegun, if_pos hbegun, List.nil_append]
    · rw [if_neg hbegun, if_neg hbegun, List.singleton_append]
  | cons c s ih =>
    intro begun
    rw [List.cons_append, wordsFrom, wordsFrom]
    by_cases hc : Byte.isBlank c = true
    · rw [if_pos hc, if_pos hc, ih []]
      by_cases hbegun : begun.isEmpty
      · rw [if_pos hbegun, if_pos hbegun]
      · rw [if_neg hbegun, if_neg hbegun, List.cons_append]
    · rw [if_neg hc, if_neg hc, ih (c :: begun)]

/-- No word goes across a blank. -/
theorem words_append_of_isBlank {b : UInt8} (hb : Byte.isBlank b = true) (s rest : Bytes) :
    words (s ++ b :: rest) = words s ++ words rest :=
  wordsFrom_append_of_isBlank hb rest s []

theorem flatten_wordsFrom (begun s : Bytes) :
    (wordsFrom begun s).flatten = begun.reverse ++ s.filter (!Byte.isBlank ·) := by
  induction s generalizing begun with
  | nil =>
    rw [wordsFrom]
    split
    · next hempty => simp [List.isEmpty_iff.1 hempty]
    · simp
  | cons b s ih =>
    rw [wordsFrom]
    by_cases hb : Byte.isBlank b = true
    · rw [if_pos hb, List.filter_cons_of_neg (by simp [hb])]
      split
      · next hempty => rw [ih, List.isEmpty_iff.1 hempty]
      · rw [List.flatten_cons, ih, List.reverse_nil, List.nil_append]
    · rw [if_neg hb, ih, List.filter_cons_of_pos (by simp [hb]), List.reverse_cons,
        List.append_assoc, List.singleton_append]

/-- The words of a text are all of it but its blanks. -/
theorem flatten_words (s : Bytes) : (words s).flatten = s.filter (!Byte.isBlank ·) :=
  flatten_wordsFrom [] s

/-- A word holds no blank. -/
theorem isBlank_of_mem_words {s w : Bytes} (hw : w ∈ words s) :
    ∀ b ∈ w, Byte.isBlank b = false := by
  intro b hb
  have hmem : b ∈ (words s).flatten := List.mem_flatten.2 ⟨w, hw, hb⟩
  rw [flatten_words, List.mem_filter] at hmem
  simpa using hmem.2

/-- The text is a word of some line. -/
structure IsWord (w : Bytes) : Prop where
  ne_nil : w ≠ []
  isBlank_of_mem : ∀ b ∈ w, Byte.isBlank b = false

theorem isWord_of_mem_words {s w : Bytes} (hw : w ∈ words s) : w.IsWord :=
  ⟨ne_nil_of_mem_words hw, isBlank_of_mem_words hw⟩

/-- A text is divided in one way at the first place of a byte. -/
theorem append_cons_inj {b : UInt8} {s s' rest rest' : Bytes} (hs : b ∉ s) (hs' : b ∉ s')
    (h : s ++ b :: rest = s' ++ b :: rest') : s = s' ∧ rest = rest' := by
  induction s generalizing s' with
  | nil =>
    cases s' with
    | nil => exact ⟨rfl, (List.cons.inj h).2⟩
    | cons c s' => exact absurd ((List.cons.inj h).1 ▸ List.mem_cons_self) hs'
  | cons c s ih =>
    cases s' with
    | nil => exact absurd ((List.cons.inj h).1 ▸ List.mem_cons_self) hs
    | cons c' s' =>
      obtain ⟨hc, htail⟩ := List.cons.inj h
      obtain ⟨rfl, hrest⟩ := ih (fun hmem => hs (List.mem_cons_of_mem c hmem))
        (fun hmem => hs' (List.mem_cons_of_mem c' hmem)) htail
      exact ⟨by rw [hc], hrest⟩

/-- A byte that is in a text has a last place there. -/
theorem exists_last_of_mem {b : UInt8} {s : Bytes} (hb : b ∈ s) :
    ∃ front rest : Bytes, s = front ++ b :: rest ∧ b ∉ rest := by
  obtain ⟨rest, front, hreverse, hrest⟩ := List.eq_append_cons_of_mem (List.mem_reverse.2 hb)
  refine ⟨front.reverse, rest.reverse, ?_, fun hmem => hrest (List.mem_reverse.1 hmem)⟩
  rw [← s.reverse_reverse, hreverse]
  simp

/-- Every byte that is no blank stands in a word. -/
theorem exists_mem_words {s : Bytes} {b : UInt8} (hb : b ∈ s) (hblank : Byte.isBlank b = false) :
    ∃ w ∈ words s, b ∈ w := by
  refine List.mem_flatten.1 ?_
  rw [flatten_words, List.mem_filter]
  exact ⟨hb, by simpa using hblank⟩

end Bytes
end StrongMotion
