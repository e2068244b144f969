import StrongMotion.Proofs.WordPlaces

/-!
# Cutting texts into words

The words of a text are its longest runs of bytes that are not blank, and no other list is
(`Bytes.splitsInto_iff`).  Two loops that look for the ends of a run by their places in the text
find the same words (`Bytes.wordsByPlaces_eq`).  A text may be cut at any blank, so it has the words
of its parts and of its lines (`Bytes.words_unique_split`).
-/

namespace StrongMotion

theorem Byte.isBlank_iff {b : UInt8} :
    isBlank b = true ↔ b ∈ ([9, 10, 11, 12, 13, 32] : Bytes) := by
  unfold isBlank
  simp only [List.mem_cons, List.not_mem_nil, or_false]
  grind

namespace Bytes

/-! ## Runs -/

/-- The text is made of these words, with blanks around them.  No word goes on behind its end. -/
inductive SplitsInto : Bytes → List Bytes → Prop
  | blanks {s : Bytes} (hs : ∀ b ∈ s, Byte.isBlank b = true) : SplitsInto s []
  | word {blanks w rest : Bytes} {ws : List Bytes} (hblanks : ∀ b ∈ blanks, Byte.isBlank b = true)
      (hw : w.IsWord) (hrest : ∀ b, rest.head? = some b → Byte.isBlank b = true)
      (hsplit : SplitsInto rest ws) : SplitsInto (blanks ++ (w ++ rest)) (w :: ws)

theorem words_append_of_blanks {blanks : Bytes} (hblanks : ∀ b ∈ blanks, Byte.isBlank b = true)
    (s : Bytes) : words (blanks ++ s) = words s := by
  induction blanks with
  | nil => rfl
  | cons b blanks ih =>
    obtain ⟨hb, hblanks⟩ := List.forall_mem_cons.1 hblanks
    rw [List.cons_append, words_cons_of_isBlank hb, ih hblanks]

theorem words_append_of_isWord {w rest : Bytes} (hw : w.IsWord)
    (hrest : ∀ b, rest.head? = some b → Byte.isBlank b = true) :
    words (w ++ rest) = w :: words rest := by
  rw [words_append_of_blank_head hrest, words_singleton hw, List.singleton_append]

theorem SplitsInto.words_eq {s : Bytes} {ws : List Bytes} (h : SplitsInto s ws) : words s = ws := by
  induction h with
  | blanks hs => exact words_eq_nil_iff.2 hs
  | word hblanks hw hrest _ ih =>
    rw [words_append_of_blanks hblanks, words_append_of_isWord hw hrest, ih]

theorem splitsInto_of_words_eq {ws : List Bytes} :
    ∀ {s : Bytes}, words s = ws → SplitsInto s ws := by
  induction ws with
  | nil => exact fun hwords => .blanks (words_eq_nil_iff.1 hwords)
  | cons w ws ih =>
    intro s hwords
    -- The first word stands behind a part without words and before a part with all the others.
    obtain ⟨before, after, rfl, hstands, hbefore, hafter⟩ :=
      exists_standsBetween (show words s = [] ++ w :: ws from hwords)
    exact .word (words_eq_nil_iff.1 hbefore) hstands.isWord hstands.blank_after (ih hafter)

/-- There is one way to split a text. -/
theorem splitsInto_iff {s : Bytes} {ws : List Bytes} : SplitsInto s ws ↔ ws = words s :=
  ⟨fun h => h.words_eq.symm, fun h => splitsInto_of_words_eq h.symm⟩

/-! ## By places in the text -/

/-- The first place, from a place on, of a byte outside the class, or the end of the text. -/
def placePast (p : UInt8 → Bool) (s : Bytes) (place : Nat) : Nat :=
  if h : place < s.length then
    if p s[place] then placePast p s (place + 1) else place
  else place
termination_by s.length - place

section Places

variable (p : UInt8 → Bool) (s : Bytes)

theorem placePast_eq (place : Nat) :
    placePast p s place = place + ((s.drop place).takeWhile p).length := by
  fun_induction placePast p s place with
  | case1 place hplace hp ih =>
    rw [ih, List.drop_eq_getElem_cons hplace, List.takeWhile_cons_of_pos hp, List.length_cons]
    omega
  | case2 place hplace hp =>
    rw [List.drop_eq_getElem_cons hplace, List.takeWhile_cons_of_neg hp]
    rfl
  | case3 place hplace =>
    rw [List.drop_eq_nil_of_le (Nat.le_of_not_lt hplace)]
    rfl

theorem le_placePast (place : Nat) : place ≤ placePast p s place := by
  rw [placePast_eq]
  exact Nat.le_add_right _ _

theorem take_placePast (place : Nat) :
    (s.drop place).take (placePast p s place - place) = (s.drop place).takeWhile p := by
  rw [placePast_eq, Nat.add_sub_cancel_left]
  exact (List.prefix_iff_eq_take.1 (List.takeWhile_prefix p)).symm

theorem drop_placePast (place : Nat) :
    s.drop (placePast p s place) = (s.drop place).dropWhile p := by
  have hdrop : ((s.drop place).takeWhile p ++ (s.drop place).dropWhile p).drop
      ((s.drop place).takeWhile p).length = (s.drop place).dropWhile p := List.drop_left
  rw [List.takeWhile_append_dropWhile] at hdrop
  rw [placePast_eq, ← List.drop_drop, hdrop]

end Places

/-- Passing the blanks and the run behind them goes on in the text, whichever kind of byte comes
first. -/
theorem lt_placePast {s : Bytes} {place : Nat} (hplace : place < s.length) :
    place < placePast (!Byte.isBlank ·) s (placePast Byte.isBlank s place) := by
  by_cases hblank : Byte.isBlank s[place] = true
  · have hstart : place + 1 ≤ placePast Byte.isBlank s place := by
      rw [placePast, dif_pos hplace, if_pos hblank]
      exact le_placePast _ _ _
    exact Nat.lt_of_lt_of_le hstart (le_placePast _ _ _)
  · have hstart : placePast Byte.isBlank s place = place := by
      rw [placePast, dif_pos hplace, if_neg hblank]
    rw [hstart, placePast, dif_pos hplace, if_pos (by simpa using hblank)]
    exact le_placePast _ _ _

/-- The words behind a place: each turn passes the blanks there and the run behind them, and cuts
the run out if it is not empty. -/
def wordsBehind (s : Bytes) (place : Nat) : List Bytes :=
  if _hplace : place < s.length then
    let start := placePast Byte.isBlank s place
    let stop := placePast (!Byte.isBlank ·) s start
    if start < stop then (s.drop start).take (stop - start) :: wordsBehind s stop
    else wordsBehind s stop
  else []
termination_by s.length - place
decreasing_by all_goals exact Nat.sub_lt_sub_left _hplace (lt_placePast _hplace)

def wordsByPlaces (s : Bytes) : List Bytes := wordsBehind s 0

/-- The blanks at a place change nothing. -/
theorem words_drop_placePast (s : Bytes) (place : Nat) :
    words (s.drop (placePast Byte.isBlank s place)) = words (s.drop place) := by
  have hblanks : ∀ b ∈ (s.drop place).takeWhile Byte.isBlank, Byte.isBlank b = true :=
    fun b hb => List.mem_takeWhile_imp hb
  rw [drop_placePast, ← words_append_of_blanks hblanks, List.takeWhile_append_dropWhile]

/-- The longest run at the front of a text is its first word, unless it is empty. -/
theorem words_of_run {s : Bytes} (hrun : s.takeWhile (!Byte.isBlank ·) ≠ []) :
    words s = s.takeWhile (!Byte.isBlank ·) :: words (s.dropWhile (!Byte.isBlank ·)) := by
  have hword : IsWord (s.takeWhile (!Byte.isBlank ·)) :=
    ⟨hrun, fun b hb => by simpa using List.mem_takeWhile_imp hb⟩
  have hrest : ∀ b, (s.dropWhile (!Byte.isBlank ·)).head? = some b → Byte.isBlank b = true := by
    intro b hb
    have hstop := List.head?_dropWhile_not (!Byte.isBlank ·) s
    rw [hb] at hstop
    simpa using hstop
  rw [← words_append_of_isWord hword hrest, List.takeWhile_append_dropWhile]

theorem wordsBehind_eq (s : Bytes) (place : Nat) : wordsBehind s place = words (s.drop place) := by
  fun_induction wordsBehind s place with
  | case1 place hplace start stop hrun ih =>
    have hne : (s.drop start).takeWhile (!Byte.isBlank ·) ≠ [] := by
      have hstop : stop = start + _ := placePast_eq _ s start
      rw [← List.length_pos_iff]
      omega
    have htaken : (s.drop start).take (stop - start) = (s.drop start).takeWhile (!Byte.isBlank ·) :=
      take_placePast _ s start
    have hbehind : s.drop stop = (s.drop start).dropWhile (!Byte.isBlank ·) :=
      drop_placePast _ s start
    rw [ih, htaken, hbehind, ← words_of_run hne]
    exact words_drop_placePast s place
  | case2 place hplace start stop hrun ih =>
    have hsame : s.drop stop = s.drop start := by
      rw [Nat.le_antisymm (Nat.le_of_not_lt hrun) (le_placePast _ s start)]
    rw [ih, hsame, words_drop_placePast]
  | case3 place hplace =>
    rw [List.drop_eq_nil_of_le (Nat.le_of_not_lt hplace), words_nil]

/-- Both ways to look for words find the same. -/
theorem wordsByPlaces_eq (s : Bytes) : wordsByPlaces s = words s := wordsBehind_eq s 0

/-! ## Parts of texts -/

theorem words_join {b : UInt8} (hb : Byte.isBlank b = true) (texts : List Bytes) :
    words (join [b] texts) = texts.flatMap words := by
  induction texts with
  | nil => rfl
  | cons s rest ih =>
    cases rest with
    | nil => rw [join_singleton, List.flatMap_singleton]
    | cons s' rest =>
      rw [List.flatMap_cons, join_cons_cons, List.append_assoc, List.singleton_append,
        words_append_of_isBlank hb, ih]

/-- The words of a text are the one list that it splits into, and are found by places as well.  No
word is empty, and none of the six blanks is in it; all the other bytes are.  A blank parts the
words before it from those behind it, so texts joined by a blank have the words of each, and a text
those of its lines. -/
theorem words_unique_split (s : Bytes) :
    (∀ b, Byte.isBlank b = true ↔ b ∈ ([9, 10, 11, 12, 13, 32] : Bytes)) ∧
    (∀ ws, SplitsInto s ws ↔ ws = words s) ∧ wordsByPlaces s = words s ∧
    (∀ w ∈ words s, w ≠ [] ∧ ∀ b ∈ w, Byte.isBlank b = false) ∧
    (words s).flatten = s.filter (!Byte.isBlank ·) ∧
    (∀ (t : Bytes) (b : UInt8), Byte.isBlank b = true → words (s ++ b :: t) = words s ++ words t) ∧
    (∀ (texts : List Bytes) (b : UInt8), Byte.isBlank b = true →
      words (join [b] texts) = texts.flatMap words) ∧
    words s = (lines s).flatMap fun l => words l.text := by
  refine ⟨fun b => Byte.isBlank_iff, fun ws => splitsInto_iff, wordsByPlaces_eq s, fun w hw => ?_,
    flatten_words s, fun t b hb => words_append_of_isBlank hb s t,
    fun texts b hb => words_join hb texts, words_eq_flatMap_lines s⟩
  have hword := isWord_of_mem_words hw
  exact ⟨hword.ne_nil, hword.isBlank_of_mem⟩

/-- Two lines of samples, one with a tab in it and one with a blank at its end. -/
theorem words_unique_split_twoLines :
    ("-13" : Bytes) ∈ words "12\t-13" ∧ (∀ b ∈ ("-13" : Bytes), Byte.isBlank b = false) ∧
      Byte.isBlank Line.lineFeed = true ∧
      words ("12\t-13" ++ Line.lineFeed :: "7 ") = words "12\t-13" ++ words "7 " ∧
      words (join [Line.lineFeed] ["12\t-13", "7 "]) = ["12", "-13", "7"] := by
  have hmem : ("-13" : Bytes) ∈ words "12\t-13" := by decide +kernel
  have hfeed : Byte.isBlank Line.lineFeed = true := by decide
  obtain ⟨-, -, -, hword, -, happend, hjoin, -⟩ := words_unique_split "12\t-13"
  refine ⟨hmem, (hword _ hmem).2, hfeed, happend "7 " Line.lineFeed hfeed, ?_⟩
  rw [hjoin ["12\t-13", "7 "] Line.lineFeed hfeed]
  decide +kernel

end Bytes
end StrongMotion
