import StrongMotion.Proofs.ReadingFaults
import StrongMotion.Proofs.WordPlaces

/-!
# Words that are no samples

Behind an accepted header every word is a sample.  The first one that is no number is the fault of
the whole file, and the fault names its place: the number of its line in the file and its number
within that line.  Lines are counted through the header and the samples alike, so the place can be
read off the bytes before the word (`Record.read_of_bad_word`).
-/

namespace StrongMotion

namespace Samples

theorem ofWords_of_not_number {line word : Nat} {front back : List Bytes} {w : Bytes}
    (hfront : ∀ v ∈ front, ∃ x, v.float? = some x) (hw : w.float? = none) :
    ofWords line word (front ++ w :: back) = .error (.notSample line (word + front.length) w) := by
  induction front generalizing word with
  | nil => simp [ofWords, hw]
  | cons v front ih =>
    obtain ⟨⟨x, hx⟩, hfront⟩ := List.forall_mem_cons.1 hfront
    have hplace : word + 1 + front.length = word + (v :: front).length := by
      simp only [List.length_cons]
      omega
    rw [List.cons_append, ofWords, hx]
    show (ofWords line (word + 1) (front ++ w :: back)).map (x :: ·) = _
    rw [ih hfront, hplace]
    rfl

/-- The first line with a fault is at fault, under its own number. -/
theorem read_append_of_error {number : Nat} {ls more : List Line} {l : Line} {f : Fault}
    (hls : ∀ l ∈ ls, ∀ v ∈ l.text.words, ∃ x, v.float? = some x)
    (hl : ofWords (number + ls.length) 1 l.text.words = .error f) :
    (read number (ls ++ l :: more)).result = .error f := by
  induction ls generalizing number with
  | nil =>
    have hl' : ofWords number 1 l.text.words = .error f := hl
    simp only [List.nil_append, read, hl']
  | cons l' ls ih =>
    obtain ⟨hwords, hls⟩ := List.forall_mem_cons.1 hls
    obtain ⟨xs, hxs⟩ := Record.exists_numbers_iff.2 hwords
    have hplace : number + (l' :: ls).length = number + 1 + ls.length := by
      simp only [List.length_cons]
      omega
    rw [hplace] at hl
    rw [List.cons_append, read, ofWords_eq_ok_iff.2 hxs]
    show ((read (number + 1) (ls ++ l :: more)).result).map (xs ++ ·) = _
    rw [ih hls hl]
    rfl

/-- The text ends with `rest`, and `w` is the first word of that end which is no number.  It stands
in the text between `before` and `after`. -/
structure FirstFault (content rest before w after : Bytes) : Prop where
  content_eq : content = before ++ (w ++ after)
  exists_front : ∃ front, rest = front ++ (w ++ after) ∧ Bytes.StandsBetween front w after ∧
    ∀ v ∈ front.words, ∃ x, v.float? = some x
  not_number : w.float? = none

theorem exists_firstFault {head rest : Bytes} (hbad : ∃ w ∈ rest.words, w.float? = none) :
    ∃ before w after, FirstFault (head ++ rest) rest before w after := by
  have hsome : (rest.words.find? (·.float?.isNone)).isSome = true := by
    simpa [List.find?_isSome] using hbad
  obtain ⟨w, hw⟩ := Option.isSome_iff_exists.1 hsome
  obtain ⟨hnone, vs, us, hwords, hvs⟩ := List.find?_eq_some_iff_append.1 hw
  obtain ⟨front, after, hrest, hstands, hfront, -⟩ := Bytes.exists_standsBetween hwords
  refine ⟨head ++ front, w, after, ?_, ⟨front, hrest, hstands, fun v hv => ?_⟩, ?_⟩
  · rw [List.append_assoc, ← hrest]
  · rw [hfront] at hv
    exact Option.isSome_iff_exists.1 (by simpa using hvs v hv)
  · simpa using hnone

/-- Lines are numbered from the first one that is read, words from one. -/
theorem result_read_of_standsBetween {front w after : Bytes}
    (hstands : Bytes.StandsBetween front w after)
    (hfront : ∀ v ∈ front.words, ∃ x, v.float? = some x) (hw : w.float? = none) (number : Nat) :
    (read number (front ++ (w ++ after)).lines).result =
      .error (.notSample (number + front.count Line.lineFeed)
        (1 + front.sinceLineFeed.words.length) w) := by
  obtain ⟨ls, l, more, back, hlines, hlength, hwords, hline⟩ := hstands.exists_line
  rw [hwords, List.forall_mem_append] at hfront
  rw [hlines, ← hlength]
  refine read_append_of_error (fun l' hl' v hv => ?_) ?_
  · exact hfront.1 v (List.mem_flatMap.2 ⟨l', hl', hv⟩)
  · rw [hline]
    exact ofWords_of_not_number hfront.2 hw

end Samples

theorem Fault.detail_notSample (line word : Nat) (text : Bytes) :
    (notSample line word text).detail =
      "Line " ++ Bytes.ofNat line ++ ", token " ++ Bytes.ofNat word ++ ": '" ++ text ++
        "' is not a number" := by
  have hopening : (": '" : Bytes) = ": " ++ ("'" : Bytes) := by decide
  have hclosing : ("' is not a number" : Bytes) = "'" ++ (" is not a number" : Bytes) := by decide
  rw [hopening, hclosing]
  simp only [detail, Bytes.quoted, List.append_assoc]

namespace Record

variable {o : ReadOptions} {d : Decoder} {content rest : Bytes} {texts : List Bytes}

/-- Each line of a header that has anything behind it ends with a line feed. -/
theorem lines_before_block (hblock : HeaderText.Block d content texts rest) (hrest : rest ≠ []) :
    ∃ head, content = head ++ rest ∧ head.count Line.lineFeed = texts.length ∧
      ∀ s, Bytes.sinceLineFeed (head ++ s) = s.sinceLineFeed := by
  obtain ⟨-, ls, after, hcut, hdecodes⟩ := hblock
  have hls := hcut.closed_of_mem hrest
  refine ⟨ls.flatMap Line.raw, hcut.eq_append, ?_, ?_⟩
  · rw [Bytes.count_lineFeed_flatMap_raw hls, hdecodes.length_eq]
  · exact Bytes.sinceLineFeed_flatMap_raw_append fun l hl => (hls l hl).1

theorem read_of_firstFault (hd : Decoder.ofChoice o.encoding = .ok d)
    (hblock : HeaderText.Block d content texts rest) {h : Header}
    (hheader : Header.read o texts = .ok h) {before w after : Bytes}
    (hfirst : Samples.FirstFault content rest before w after) :
    read o content = .error (.notSample (before.count Line.lineFeed + 1)
      (before.sinceLineFeed.words.length + 1) w) := by
  obtain ⟨hcontent, ⟨front, rfl, hstands, hfront⟩, hw⟩ := hfirst
  have hrest : front ++ (w ++ after) ≠ [] := by simp [hstands.isWord.ne_nil]
  obtain ⟨head, hhead, hcount, hsince⟩ := lines_before_block hblock hrest
  obtain rfl : before = head ++ front := by
    rw [hcontent, ← List.append_assoc head] at hhead
    exact List.append_cancel_right hhead
  have hline : texts.length + 1 + front.count Line.lineFeed =
      (head ++ front).count Line.lineFeed + 1 := by
    rw [List.count_append, hcount]
    omega
  have hsamples := Samples.result_read_of_standsBetween hstands hfront hw (texts.length + 1)
  rw [hline, ← hsince front, Nat.add_comm 1] at hsamples
  rw [read_of_block hd hblock, hheader]
  show (Samples.read (texts.length + 1) _).result.map (assemble h) = _
  rw [hsamples]
  rfl

/-- If the header is accepted and a word behind it is no number, the fault is the first such word.
The number of its line is one more than the line feeds before it in the whole text, and its number
in the line is one more than the words before it there. -/
theorem read_of_bad_word (hd : Decoder.ofChoice o.encoding = .ok d)
    (hblock : HeaderText.Block d content texts rest) {h : Header}
    (hheader : Header.read o texts = .ok h) (hbad : ∃ w ∈ rest.words, w.float? = none) :
    (∃ before w after, Samples.FirstFault content rest before w after) ∧
    ∀ before w after, Samples.FirstFault content rest before w after →
      ∃ f, read o content = .error f ∧ f.kind.name = "MalformedSampleValue" ∧
        f.detail = "Line " ++ Bytes.ofNat (before.count Line.lineFeed + 1) ++ ", token " ++
          Bytes.ofNat (before.sinceLineFeed.words.length + 1) ++ ": '" ++ w ++
            "' is not a number" := by
  refine ⟨?_, fun before w after hfirst => ?_⟩
  · have hrest : rest ≠ [] := by
      rintro rfl
      obtain ⟨w, hw, -⟩ := hbad
      exact List.not_mem_nil hw
    obtain ⟨head, rfl, -⟩ := lines_before_block hblock hrest
    exact Samples.exists_firstFault hbad
  · exact ⟨_, read_of_firstFault hd hblock hheader hfirst, rfl, Fault.detail_notSample _ _ _⟩

/-- A word behind an accepted header is at fault whenever a sample is. -/
theorem exists_bad_word_of_read (hd : Decoder.ofChoice o.encoding = .ok d) {f : Fault}
    (hf : read o content = .error f) (hkind : f.kind = .sample) :
    ∃ texts rest h, HeaderText.Block d content texts rest ∧ Header.read o texts = .ok h ∧
      ∃ w ∈ rest.words, w.float? = none := by
  rcases HeaderText.block_or_unclosed_or_undecodable d content with
    ⟨texts, rest, hblock⟩ | ⟨texts, hunclosed⟩ | ⟨f', hundecodable⟩
  · cases hheader : Header.read o texts with
    | error f' =>
      rw [read_of_block hd hblock, hheader] at hf
      cases hf
      have hother : ∀ k ∈ FaultKind.headerLabel :: HeaderItem.ruleKinds, k ≠ .sample := by decide
      exact absurd hkind (hother _ (hblock.1.kind_of_read hheader))
    | ok h =>
      refine ⟨texts, rest, h, hblock, hheader, Classical.byContradiction fun hnone => ?_⟩
      have hnumbers : ∀ w ∈ rest.words, ∃ x, w.float? = some x := by
        intro w hw
        exact Option.ne_none_iff_exists'.1 fun hbad => hnone ⟨w, hw, hbad⟩
      obtain ⟨xs, hxs⟩ := exists_numbers_iff.2 hnumbers
      rw [(read_eq_ok_iff_of_block hd hblock).2 ⟨h, xs, hheader, hxs, rfl⟩] at hf
      cases hf
  · rw [read_of_unclosed hd hunclosed] at hf
    cases hf
    cases hkind
  · rw [read_of_undecodable hd hundecodable] at hf
    cases hf
    rw [hundecodable.kind_eq] at hkind
    cases hkind

/-- A record file with an empty line among its samples and a word behind it that is no number. -/
def brokenFile : Bytes := shortFile ++ Bytes.ofString "\r\n\n8\t1.5.2 9x\n"

theorem read_brokenFile : read {} brokenFile = .error (.notSample 21 2 "1.5.2") := by
  have hfault : (match read {} brokenFile with
      | .ok _ => none
      | .error f => some f) = some (.notSample 21 2 "1.5.2") := by decide +kernel
  cases hread : read {} brokenFile with
  | ok r =>
    rw [hread] at hfault
    cases hfault
  | error f =>
    rw [hread] at hfault
    exact congrArg Except.error (Option.some.inj hfault)

theorem read_of_bad_word_brokenFile :
    Decoder.ofChoice ({} : ReadOptions).encoding = .ok ⟨"UTF-8", .utf8⟩ ∧
      ∃ (texts : List Bytes) (rest : Bytes) (h : Header),
        HeaderText.Block ⟨"UTF-8", .utf8⟩ brokenFile texts rest ∧ Header.read {} texts = .ok h ∧
          (∃ w ∈ rest.words, w.float? = none) ∧
          ∃ before w after, Samples.FirstFault brokenFile rest before w after ∧
            "Line 21, token 2: '1.5.2' is not a number" =
              "Line " ++ Bytes.ofNat (before.count Line.lineFeed + 1) ++ ", token " ++
                Bytes.ofNat (before.sinceLineFeed.words.length + 1) ++ ": '" ++ w ++
                  "' is not a number" := by
  have hd : Decoder.ofChoice ({} : ReadOptions).encoding = .ok ⟨"UTF-8", .utf8⟩ := rfl
  obtain ⟨texts, rest, h, hblock, hheader, hbad⟩ := exists_bad_word_of_read hd read_brokenFile rfl
  obtain ⟨⟨before, w, after, hfirst⟩, hfault⟩ := read_of_bad_word hd hblock hheader hbad
  obtain ⟨f, hf, -, hdetail⟩ := hfault before w after hfirst
  obtain rfl : Fault.notSample 21 2 "1.5.2" = f := by
    rw [read_brokenFile] at hf
    exact Except.error.inj hf
  refine ⟨hd, texts, rest, h, hblock, hheader, hbad, before, w, after, hfirst, ?_⟩
  rw [← hdetail]
  decide

end Record
end StrongMotion
