import StrongMotion.Proofs.HeaderBlock
import StrongMotion.Proofs.HeaderReading

/-!
# Reading a record

The samples are read line by line, but since no word goes across a line feed they are the words of
everything behind the header block.  A record is read exactly when the block writes a header and
all these words are numbers (`read_block_then_words`).
-/

namespace StrongMotion

theorem map_eq_ok_iff {ε α β : Type} {f : α → β} {x : Except ε α} {b : β} :
    x.map f = .ok b ↔ ∃ a, x = .ok a ∧ b = f a := by
  cases x with
  | error e =>
    constructor
    · intro h
      cases h
    · intro ⟨a, ha, _⟩
      cases ha
  | ok a =>
    constructor
    · intro h
      cases h
      exact ⟨a, rfl, rfl⟩
    · intro ⟨a', ha, hb⟩
      cases ha
      rw [hb]
      rfl

theorem map_eq_error_iff {ε α β : Type} {f : α → β} {x : Except ε α} {e : ε} :
    x.map f = .error e ↔ x = .error e := by
  cases x <;> simp [Except.map]

namespace Samples

theorem ofWords_eq_ok_iff {line word : Nat} {words : List Bytes} {xs : List Float} :
    ofWords line word words = .ok xs ↔ words.map Bytes.float? = xs.map some := by
  induction words generalizing word xs with
  | nil => cases xs <;> simp [ofWords]
  | cons w words ih =>
    rw [ofWords]
    cases hw : w.float? with
    | none => cases xs <;> simp [hw]
    | some y =>
      show ((ofWords line (word + 1) words).map (y :: ·)) = .ok xs ↔ _
      simp only [map_eq_ok_iff, ih]
      cases xs with
      | nil => simp
      | cons x xs =>
        simp only [List.cons.injEq, List.map_cons, hw, Option.some.injEq]
        constructor
        · intro ⟨ys, hys, hx, hxs⟩
          rw [hx, hxs]
          exact ⟨rfl, hys⟩
        · intro ⟨hx, hxs⟩
          exact ⟨xs, hxs, hx.symm, rfl⟩

/-- The samples are the numbers that all words of the lines write, in order. -/
theorem result_read_eq_ok_iff {number : Nat} {lines : List Line} {xs : List Float} :
    (read number lines).result = .ok xs ↔
      (lines.flatMap fun l => l.text.words).map Bytes.float? = xs.map some := by
  induction lines generalizing number xs with
  | nil => cases xs <;> simp [read]
  | cons line lines ih =>
    rw [List.flatMap_cons, List.map_append, read]
    cases hwords : ofWords number 1 line.text.words with
    | error f =>
      constructor
      · intro h
        cases h
      · intro h
        obtain ⟨front, rest, _, hfront, _⟩ := List.append_eq_map_iff.1 h
        have hok : ofWords number 1 line.text.words = .ok front := ofWords_eq_ok_iff.2 hfront.symm
        rw [hwords] at hok
        cases hok
    | ok front =>
      have hfront := ofWords_eq_ok_iff.1 hwords
      show (Except.map (front ++ ·) (read (number + 1) lines).result) = .ok xs ↔ _
      rw [map_eq_ok_iff, hfront]
      constructor
      · intro ⟨rest, hrest, hxs⟩
        rw [hxs, List.map_append, ih.1 hrest]
      · intro h
        obtain ⟨a, rest, rfl, ha, hrest⟩ := List.append_eq_map_iff.1 h
        have hinj := (List.map_inj_right fun _ _ => Option.some.inj).1 ha
        exact ⟨rest, ih.2 hrest.symm, by rw [hinj]⟩

end Samples

namespace Record

variable {o : ReadOptions} {d : Decoder} {content : Bytes}

/-- Behind a header block the samples are read from the rest. -/
theorem read_of_block (hd : Decoder.ofChoice o.encoding = .ok d) {texts : List Bytes}
    {rest : Bytes} (hblock : HeaderText.Block d content texts rest) :
    read o content = Header.read o texts >>= fun h =>
      (Samples.read (texts.length + 1) rest.lines).result.map (assemble h) := by
  unfold read readLines
  rw [hd]
  dsimp only
  rw [hblock.read_eq]
  simp only [Reading.bind, HeaderText.header, if_true]
  cases Header.read o texts <;> rfl

theorem read_of_unclosed (hd : Decoder.ofChoice o.encoding = .ok d) {texts : List Bytes}
    (hunclosed : HeaderText.Unclosed d content texts) :
    read o content = .error (.headerUnclosed texts.length) := by
  unfold read readLines
  rw [hd]
  dsimp only
  rw [hunclosed.read_eq]
  rfl

theorem read_of_undecodable (hd : Decoder.ofChoice o.encoding = .ok d) {f : Fault}
    (hundecodable : HeaderText.Undecodable d content f) : read o content = .error f := by
  unfold read readLines
  rw [hd]
  dsimp only
  simp only [Reading.bind, hundecodable.result_eq]
  rfl

theorem read_eq_ok_iff_of_block (hd : Decoder.ofChoice o.encoding = .ok d) {texts : List Bytes}
    {rest : Bytes} (hblock : HeaderText.Block d content texts rest) {r : Record} :
    read o content = .ok r ↔
      ∃ h xs, Header.read o texts = .ok h ∧ rest.words.map Bytes.float? = xs.map some ∧
        r = assemble h xs := by
  rw [read_of_block hd hblock, bind_eq_ok_iff]
  simp only [map_eq_ok_iff, Samples.result_read_eq_ok_iff, ← Bytes.words_eq_flatMap_lines]
  constructor
  · intro ⟨h, hh, xs, hxs, hr⟩
    exact ⟨h, xs, hh, hxs, hr⟩
  · intro ⟨h, xs, hh, hxs, hr⟩
    exact ⟨h, hh, xs, hxs, hr⟩

theorem exists_block_of_read (hd : Decoder.ofChoice o.encoding = .ok d) {r : Record}
    (hread : read o content = .ok r) : ∃ texts rest, HeaderText.Block d content texts rest := by
  rcases HeaderText.block_or_unclosed_or_undecodable d content with
    hblock | ⟨texts, hunclosed⟩ | ⟨f, hundecodable⟩
  · exact hblock
  · rw [read_of_unclosed hd hunclosed] at hread
    cases hread
  · rw [read_of_undecodable hd hundecodable] at hread
    cases hread

/-- All that a record comes from: a decoder, a header block, the header that the block writes and
the numbers behind it. -/
theorem exists_block_of_read_eq_ok {r : Record} (hread : read o content = .ok r) :
    ∃ d texts rest h xs, Decoder.ofChoice o.encoding = .ok d ∧
      HeaderText.Block d content texts rest ∧ Header.read o texts = .ok h ∧
        rest.words.map Bytes.float? = xs.map some ∧ r = assemble h xs := by
  cases hd : Decoder.ofChoice o.encoding with
  | error f =>
    unfold read readLines at hread
    rw [hd] at hread
    cases hread
  | ok d =>
    obtain ⟨texts, rest, hblock⟩ := exists_block_of_read hd hread
    obtain ⟨h, xs, hh, hxs, hr⟩ := (read_eq_ok_iff_of_block hd hblock).1 hread
    exact ⟨d, texts, rest, h, xs, rfl, hblock, hh, hxs, hr⟩

theorem exists_numbers_iff {words : List Bytes} :
    (∃ xs : List Float, words.map Bytes.float? = xs.map some) ↔
      ∀ w ∈ words, ∃ x, w.float? = some x := by
  induction words with
  | nil => exact ⟨fun _ w hw => (List.not_mem_nil hw).elim, fun _ => ⟨[], rfl⟩⟩
  | cons w words ih =>
    rw [List.forall_mem_cons, ← ih]
    constructor
    · intro ⟨xs, hxs⟩
      cases xs with
      | nil => cases hxs
      | cons x xs =>
        rw [List.map_cons, List.map_cons, List.cons.injEq] at hxs
        exact ⟨⟨x, hxs.1⟩, xs, hxs.2⟩
    · intro ⟨⟨x, hx⟩, xs, hxs⟩
      exact ⟨x :: xs, by rw [List.map_cons, List.map_cons, hx, hxs]⟩

/-- A record is read from a header block and the words behind it.  It is read if the block writes
a header and all the words are numbers, which are then its samples.  A text has at most one such
block, and one that has none, or another fault, gives no record. -/
theorem read_block_then_words (hd : Decoder.ofChoice o.encoding = .ok d) (content : Bytes) :
    (∀ texts rest, HeaderText.Block d content texts rest →
      ((∃ r, read o content = .ok r) ↔
        (∃ h, Header.read o texts = .ok h) ∧ ∀ w ∈ rest.words, ∃ x, w.float? = some x) ∧
      ∀ r, read o content = .ok r ↔
        ∃ h xs, Header.read o texts = .ok h ∧ rest.words.map Bytes.float? = xs.map some ∧
          r = { header := { h with station.network := "BO" }
                sampleCount := xs.length
                samples := xs }) ∧
    (∀ texts texts' rest rest', HeaderText.Block d content texts rest →
      HeaderText.Block d content texts' rest' → texts = texts' ∧ rest = rest') ∧
    ((¬∃ (texts : List Bytes) (rest : Bytes) (h : Header) (xs : List Float),
        HeaderText.Block d content texts rest ∧ Header.read o texts = .ok h ∧
          rest.words.map Bytes.float? = xs.map some) →
      ∃ f, read o content = .error f) := by
  refine ⟨fun texts rest hblock => ⟨?_, fun r => read_eq_ok_iff_of_block hd hblock⟩,
    fun _ _ _ _ h h' => h.unique h', fun hnone => ?_⟩
  · simp only [read_eq_ok_iff_of_block hd hblock, ← exists_numbers_iff]
    constructor
    · intro ⟨r, h, xs, hh, hxs, _⟩
      exact ⟨⟨h, hh⟩, xs, hxs⟩
    · intro ⟨⟨h, hh⟩, xs, hxs⟩
      exact ⟨assemble h xs, h, xs, hh, hxs, rfl⟩
  · cases hread : read o content with
    | error f => exact ⟨f, rfl⟩
    | ok r =>
      obtain ⟨texts, rest, hblock⟩ := exists_block_of_read hd hread
      obtain ⟨h, xs, hh, hxs, -⟩ := (read_eq_ok_iff_of_block hd hblock).1 hread
      exact absurd ⟨texts, rest, h, xs, hblock, hh, hxs⟩ hnone

/-- A record file with three samples. -/
def shortFile : Bytes := Bytes.ofString
  "Origin Time 2011/03/11 14:46:00
Lat. 38.1
Long. 142
Depth. (km) 24
Mag. 9.0
Station Code IWTH27
Station Lat. 39
Station Long. 141
Station Height(m) 405
Record Time 2011/03/11 14:46:45
Sampling Freq(Hz) 200Hz
Duration Time(s) 0.05
Dir. 3
Scale Factor 3920(gal)/6182761
Max. Acc. (gal) 12.5
Last Correction 2011/03/11 14:46:30
Memo.
12 -13
7"

theorem isSome_read_shortFile : (read {} shortFile).toOption.isSome = true := by decide +kernel

theorem exists_read_shortFile : ∃ r, read {} shortFile = .ok r :=
  exists_eq_ok_of_isSome isSome_read_shortFile

theorem read_block_then_words_shortFile :
    Decoder.ofChoice ({} : ReadOptions).encoding = .ok ⟨"UTF-8", .utf8⟩ ∧
      ∃ (texts : List Bytes) (rest : Bytes) (h : Header) (xs : List Float),
        HeaderText.Block ⟨"UTF-8", .utf8⟩ shortFile texts rest ∧ Header.read {} texts = .ok h ∧
          rest.words.map Bytes.float? = xs.map some := by
  have hd : Decoder.ofChoice ({} : ReadOptions).encoding = .ok ⟨"UTF-8", .utf8⟩ := rfl
  refine ⟨hd, Classical.byContradiction fun hnone => ?_⟩
  obtain ⟨f, hf⟩ := (read_block_then_words hd shortFile).2.2 hnone
  have hsome := isSome_read_shortFile
  rw [hf] at hsome
  cases hsome

end Record
end StrongMotion
