import StrongMotion.Proofs.FieldValues
import StrongMotion.Proofs.HeaderReading
import StrongMotion.Proofs.WordPlaces

/-!
# Labels and the words of a line

A label is looked for at the front of a line, and a field is a word of the whole line.  The two
agree on a line that has a blank behind its label or ends there.  Text that is glued to the label,
such as `borehole` in `Memo.borehole sensor`, goes on with the last word of the label: it is in no
field, and the fields are the words behind it (`Header.fields_behind_label_of_read`).
-/

namespace StrongMotion

namespace Bytes

/-- A text that has no blank at its end ends in a word. -/
theorem exists_eq_append_isWord {s : Bytes} (hne : s ≠ [])
    (hlast : ∀ b, s.getLast? = some b → Byte.isBlank b = false) :
    ∃ front w : Bytes, s = front ++ w ∧ w.IsWord ∧
      ∀ b, front.getLast? = some b → Byte.isBlank b = true := by
  refine ⟨s.rdropWhile (!Byte.isBlank ·), s.rtakeWhile (!Byte.isBlank ·),
    List.rdropWhile_append_rtakeWhile.symm, ⟨fun hnil => ?_, fun b hb => ?_⟩, fun b hb => ?_⟩
  · have hend := List.rtakeWhile_eq_nil_iff.1 hnil hne
    rw [hlast _ (List.getLast?_eq_some_getLast hne)] at hend
    exact hend rfl
  · simpa using List.mem_rtakeWhile_imp hb
  · by_cases hfront : s.rdropWhile (!Byte.isBlank ·) = []
    · rw [hfront] at hb
      cases hb
    · rw [List.getLast?_eq_some_getLast hfront, Option.some.injEq] at hb
      rw [← hb]
      simpa using List.rdropWhile_last_not _ _ hfront

/-- Text without blanks goes on with the last word of a text that has no blank at its end. -/
theorem exists_words_append {s t : Bytes} (hne : s ≠ [])
    (hlast : ∀ b, s.getLast? = some b → Byte.isBlank b = false)
    (ht : ∀ b ∈ t, Byte.isBlank b = false) :
    ∃ front w, words s = front ++ [w] ∧ words (s ++ t) = front ++ [w ++ t] := by
  obtain ⟨front, w, rfl, hword, hblank⟩ := exists_eq_append_isWord hne hlast
  have hword' : IsWord (w ++ t) :=
    ⟨List.append_ne_nil_of_left_ne_nil hword.ne_nil _,
      List.forall_mem_append.2 ⟨hword.isBlank_of_mem, ht⟩⟩
  refine ⟨words front, w, ?_, ?_⟩
  · rw [words_append_of_blank_end hblank, words_singleton hword]
  · rw [List.append_assoc, words_append_of_blank_end hblank, words_singleton hword']

/-- Words with single spaces between them are, but for the spaces, one after another. -/
theorem filter_join_space {items : List Bytes} (hitems : ∀ w ∈ items, w.IsWord) :
    (join " " items).filter (· ≠ ' '.toUInt8) = items.flatten := by
  have hkept : ∀ w : Bytes, w.IsWord → w.filter (· ≠ ' '.toUInt8) = w := by
    intro w hw
    refine List.filter_eq_self.2 fun b hb => ?_
    have hblank := hw.isBlank_of_mem b hb
    refine decide_eq_true fun hspace => ?_
    rw [hspace] at hblank
    cases hblank
  induction items with
  | nil => rfl
  | cons w rest ih =>
    obtain ⟨hw, hrest⟩ := List.forall_mem_cons.1 hitems
    cases rest with
    | nil => rw [join_singleton, hkept w hw, List.flatten_singleton]
    | cons w' rest =>
      have hspace : (ofString " ").filter (· ≠ ' '.toUInt8) = [] := by decide
      rw [join_cons_cons, List.filter_append, List.filter_append, hkept w hw, hspace,
        List.append_nil, List.flatten_cons, ← ih hrest]

end Bytes

namespace HeaderLine

/-- The text that follows the label up to the next blank. -/
def glued (l : HeaderLine) : Bytes :=
  (l.line.drop l.label.length).takeWhile (!Byte.isBlank ·)

/-- The line from the first blank behind its label on. -/
def behind (l : HeaderLine) : Bytes :=
  (l.line.drop l.label.length).dropWhile (!Byte.isBlank ·)

/-- The line without the text that is glued to its label. -/
def unglued (l : HeaderLine) : Bytes := l.label ++ l.behind

variable {l : HeaderLine}

theorem glued_append_behind (l : HeaderLine) :
    l.glued ++ l.behind = l.line.drop l.label.length :=
  List.takeWhile_append_dropWhile

theorem line_eq (hlabel : l.label <+: l.line) : l.line = l.label ++ (l.glued ++ l.behind) := by
  obtain ⟨rest, hrest⟩ := hlabel
  rw [glued_append_behind, ← hrest, List.drop_left]

theorem isBlank_of_mem_glued (l : HeaderLine) : ∀ b ∈ l.glued, Byte.isBlank b = false := by
  intro b hb
  simpa using List.mem_takeWhile_imp hb

theorem isBlank_of_head?_behind (l : HeaderLine) :
    ∀ b, l.behind.head? = some b → Byte.isBlank b = true := by
  intro b hb
  have hhead := List.head?_dropWhile_not (!Byte.isBlank ·) (l.line.drop l.label.length)
  rw [behind] at hb
  rw [hb] at hhead
  simpa using hhead

end HeaderLine

namespace HeaderItem

variable {o : ReadOptions} {item : HeaderItem} {line : Bytes} {h : Header}

theorem label_ne_nil (item : HeaderItem) : item.label ≠ [] := by
  cases item <;> decide

theorem isBlank_of_getLast?_label (item : HeaderItem) :
    ∀ b, item.label.getLast? = some b → Byte.isBlank b = false := by
  have hlast : (item.label.getLast?.all (!Byte.isBlank ·)) = true := by cases item <;> decide
  intro b hb
  rw [hb] at hlast
  simpa using hlast

/-- The words of a line are those of its label, the last one with what is glued to it, and those
behind. -/
theorem exists_words_eq (hlabel : item.label <+: line) :
    ∃ front w, item.label.words = front ++ [w] ∧
      line.words = front ++ (w ++ HeaderLine.glued ⟨item.label, line⟩) ::
        (HeaderLine.behind ⟨item.label, line⟩).words := by
  obtain ⟨front, w, hfront, hglued⟩ := Bytes.exists_words_append item.label_ne_nil
    item.isBlank_of_getLast?_label (HeaderLine.isBlank_of_mem_glued ⟨item.label, line⟩)
  refine ⟨front, w, hfront, ?_⟩
  have hline : line = _ := HeaderLine.line_eq (l := ⟨item.label, line⟩) hlabel
  conv_lhs => rw [hline]
  rw [← List.append_assoc, Bytes.words_append_of_blank_head (HeaderLine.isBlank_of_head?_behind _),
    hglued, List.append_assoc]
  rfl

/-- What a line writes is written behind the words of its label. -/
theorem writes_congr {words words' : List Bytes} (hlength : words.length = words'.length)
    (hdrop : words.drop item.label.words.length = words'.drop item.label.words.length) :
    item.Writes o words h ↔ item.Writes o words' h := by
  have hget : ∀ k, item.label.words.length ≤ k → words[k]? = words'[k]? := by
    intro k hk
    have hsum : item.label.words.length + (k - item.label.words.length) = k := by omega
    rw [← hsum, ← List.getElem?_drop, ← List.getElem?_drop, hdrop]
  cases item with
  | originTime | recordTime | lastCorrection =>
    simp only [Writes, TimeAt, hget 2 (by decide), hget 3 (by decide)]
  | eventLatitude | eventLongitude | magnitude | direction =>
    simp only [Writes, NumberAt, hget 1 (by decide)]
  | peakAcceleration => simp only [Writes, NumberAt, hget 3 (by decide)]
  | memo =>
    have hfields : words.drop 1 = words'.drop 1 := hdrop
    simp only [Writes, hlength, hfields]
  | _ => simp only [Writes, NumberAt, hget 2 (by decide)]

theorem words_unglued (item : HeaderItem) (line : Bytes) :
    (HeaderLine.unglued ⟨item.label, line⟩).words =
      item.label.words ++ (HeaderLine.behind ⟨item.label, line⟩).words :=
  Bytes.words_append_of_blank_head (HeaderLine.isBlank_of_head?_behind _) _

/-- The label is followed by a blank or the end of the line exactly if its words are the first words
of the line. -/
theorem label_words_prefix_iff (hlabel : item.label <+: line) :
    item.label.words <+: line.words ↔ HeaderLine.glued ⟨item.label, line⟩ = [] := by
  obtain ⟨front, w, hfront, hline⟩ := exists_words_eq hlabel
  rw [hfront, hline, List.prefix_append_right_inj, List.cons_prefix_cons]
  constructor
  · intro ⟨hw, _⟩
    exact List.append_right_eq_self.1 hw.symm
  · intro hglued
    rw [hglued, List.append_nil]
    exact ⟨rfl, List.nil_prefix⟩

theorem drop_words (hlabel : item.label <+: line) :
    line.words.drop item.label.words.length =
      (HeaderLine.behind ⟨item.label, line⟩).words := by
  obtain ⟨front, w, hfront, hline⟩ := exists_words_eq hlabel
  rw [hfront, hline, List.length_append, List.drop_length_add_append]
  rfl

theorem length_words (hlabel : item.label <+: line) :
    line.words.length =
      item.label.words.length + (HeaderLine.behind ⟨item.label, line⟩).words.length := by
  obtain ⟨front, w, hfront, hline⟩ := exists_words_eq hlabel
  rw [hfront, hline, List.length_append, List.length_append, List.length_cons,
    List.length_singleton]
  omega

theorem writes_unglued_iff (hlabel : item.label <+: line) :
    item.Writes o (HeaderLine.unglued ⟨item.label, line⟩).words h ↔ item.Writes o line.words h := by
  rw [words_unglued]
  refine writes_congr ?_ ?_
  · rw [length_words hlabel, List.length_append]
  · rw [drop_words hlabel, List.drop_left]

/-- The comment has the words behind the label of the memo line. -/
theorem comment_of_writes_memo (hlabel : memo.label <+: line)
    (hwrites : memo.Writes o line.words h) :
    h.recording.comment = if (HeaderLine.behind ⟨memo.label, line⟩).words = [] then none
      else some (Bytes.join " " (HeaderLine.behind ⟨memo.label, line⟩).words) := by
  have hfields : line.words.drop 1 = (HeaderLine.behind ⟨memo.label, line⟩).words :=
    drop_words hlabel
  have hcomment : h.recording.comment =
      if line.words.length ≤ 1 then none else some (Bytes.join " " (line.words.drop 1)) := hwrites
  rw [hcomment, hfields]
  refine if_congr ?_ rfl rfl
  rw [← hfields, List.drop_eq_nil_iff]

/-- A memo line has no comment if nothing but blanks is behind its label.  Otherwise the text glued
to the label and the comment make all that follows the label, without the blanks. -/
theorem comment_and_glued_of_writes_memo (hlabel : memo.label <+: line)
    (hwrites : memo.Writes o line.words h) :
    (h.recording.comment = none ↔
      ∀ b ∈ HeaderLine.behind ⟨memo.label, line⟩, Byte.isBlank b = true) ∧
    ∀ comment, h.recording.comment = some comment →
      HeaderLine.glued ⟨memo.label, line⟩ ++ comment.filter (· ≠ ' '.toUInt8) =
        (line.drop memo.label.length).filter (!Byte.isBlank ·) := by
  have hcomment := comment_of_writes_memo hlabel hwrites
  have hsplit := HeaderLine.glued_append_behind ⟨memo.label, line⟩
  generalize HeaderLine.behind ⟨memo.label, line⟩ = behind at hcomment hsplit ⊢
  rw [hcomment, ← Bytes.words_eq_nil_iff]
  by_cases hnil : behind.words = []
  · rw [if_pos hnil]
    exact ⟨iff_of_true rfl hnil, fun comment hsome => by cases hsome⟩
  · rw [if_neg hnil]
    refine ⟨iff_of_false (by simp) hnil, fun comment hsome => ?_⟩
    obtain rfl := Option.some.inj hsome
    have hglued : (HeaderLine.glued ⟨memo.label, line⟩).filter (!Byte.isBlank ·) =
        HeaderLine.glued ⟨memo.label, line⟩ :=
      List.filter_eq_self.2 fun b hb => by simp [HeaderLine.isBlank_of_mem_glued _ b hb]
    have hrest : line.drop memo.label.length = _ := hsplit.symm
    rw [hrest, List.filter_append, hglued, ← Bytes.flatten_words behind,
      Bytes.filter_join_space fun w hw => Bytes.isWord_of_mem_words hw]

end HeaderItem

namespace Header

variable {o : ReadOptions} {lines : List Bytes} {h : Header}

/-- The lines of a header without the texts that are glued to their labels. -/
def unglue (lines : List Bytes) : List Bytes :=
  List.zipWith (fun item line => HeaderLine.unglued ⟨item.label, line⟩) HeaderItem.inOrder lines

theorem read_unglue (hread : read o lines = .ok h) : read o (unglue lines) = .ok h := by
  obtain ⟨hlength, hnetwork, hwrites⟩ := read_eq_ok_iff.1 hread
  refine read_eq_ok_iff.2 ⟨?_, hnetwork, fun i item line' hitem hline' => ?_⟩
  · rw [unglue, List.length_zipWith, hlength]
    rfl
  · obtain ⟨item', line, hitem', hline, rfl⟩ := List.getElem?_zipWith_eq_some.1 hline'
    rw [hitem, Option.some.injEq] at hitem'
    subst hitem'
    obtain ⟨hlabel, hwrites⟩ := hwrites i item line hitem hline
    exact ⟨List.prefix_append _ _, (HeaderItem.writes_unglued_iff hlabel).2 hwrites⟩

/-- In every line of a header that is read, the label is followed by a text without blanks, which
may be empty, and that by a blank or the end of the line.  The line's words are those of the label,
the last one with the text glued to it, and those behind; so they begin with the words of the label
exactly if nothing is glued to it.  The item is written by the words behind and the header is the
one that the lines write without what is glued to their labels.  The comment has all that follows
its label but the blanks and the glued text. -/
theorem fields_behind_label_of_read (hread : read o lines = .ok h) :
    (∀ (i : Nat) (item : HeaderItem) (line : Bytes),
      HeaderItem.inOrder[i]? = some item → lines[i]? = some line →
        ∃ glued behind : Bytes, line = item.label ++ (glued ++ behind) ∧
          (∀ b ∈ glued, Byte.isBlank b = false) ∧
          (∀ b, behind.head? = some b → Byte.isBlank b = true) ∧
          (∃ front w, item.label.words = front ++ [w] ∧
            line.words = front ++ (w ++ glued) :: behind.words) ∧
          (item.label.words <+: line.words ↔ glued = []) ∧
          item.Writes o (item.label.words ++ behind.words) h ∧
          (item = .memo →
            (h.recording.comment = none ↔ ∀ b ∈ behind, Byte.isBlank b = true) ∧
            ∀ comment, h.recording.comment = some comment →
              glued ++ comment.filter (· ≠ ' '.toUInt8) =
                (line.drop item.label.length).filter (!Byte.isBlank ·))) ∧
    read o (unglue lines) = .ok h := by
  refine ⟨fun i item line hitem hline => ?_, read_unglue hread⟩
  obtain ⟨hlabel, hwrites⟩ := (read_eq_ok_iff.1 hread).2.2 i item line hitem hline
  refine ⟨HeaderLine.glued ⟨item.label, line⟩, HeaderLine.behind ⟨item.label, line⟩,
    HeaderLine.line_eq (l := ⟨item.label, line⟩) hlabel, HeaderLine.isBlank_of_mem_glued _,
    HeaderLine.isBlank_of_head?_behind _, HeaderItem.exists_words_eq hlabel,
    HeaderItem.label_words_prefix_iff hlabel, ?_, ?_⟩
  · rw [← HeaderItem.words_unglued]
    exact (HeaderItem.writes_unglued_iff hlabel).2 hwrites
  · rintro rfl
    exact HeaderItem.comment_and_glued_of_writes_memo hlabel hwrites

/-- The leap day header with a word glued to its last label. -/
def gluedHeader : List Bytes := leapDayHeader.set 16 "Memo.borehole sensor"

theorem exists_read_gluedHeader :
    ∃ h, read {} gluedHeader = .ok h ∧ h.recording.comment = some (Bytes.ofString "sensor") := by
  have hcomment : (read {} gluedHeader).toOption.map (fun h => h.recording.comment) =
      some (some (Bytes.ofString "sensor")) := by decide +kernel
  exact exists_eq_ok_of_toOption hcomment

theorem fields_behind_label_of_read_gluedHeader :
    ∃ h, read {} gluedHeader = .ok h ∧ read {} (unglue gluedHeader) = .ok h := by
  obtain ⟨h, hread, -⟩ := exists_read_gluedHeader
  exact ⟨h, hread, (fields_behind_label_of_read hread).2⟩

/-- The word glued to the label is in no word of the comment, and the label is no word of the
line. -/
theorem glued_word_of_read_gluedHeader :
    ∃ h line comment, read {} gluedHeader = .ok h ∧
      HeaderItem.inOrder[16]? = some .memo ∧ gluedHeader[16]? = some line ∧
      ¬HeaderItem.memo.label.words <+: line.words ∧
      h.recording.comment = some comment ∧
      comment.filter (· ≠ ' '.toUInt8) ≠
        (line.drop HeaderItem.memo.label.length).filter (!Byte.isBlank ·) := by
  obtain ⟨h, hread, hcomment⟩ := exists_read_gluedHeader
  exact ⟨h, Bytes.ofString "Memo.borehole sensor", Bytes.ofString "sensor", hread, rfl, rfl,
    by decide, hcomment, by decide⟩

end Header
end StrongMotion
