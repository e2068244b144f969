import StrongMotion.Proofs.RecordReading

/-!
# What can go wrong in reading a record

A header block is closed by the word `Memo`, while the last item has the label `Memo.`, and no other
label begins with that word.  So the lines of a closed block can be wrong, but they cannot be too
few or too many without one of them being wrong: the first that closes is the last one.
-/

namespace StrongMotion

theorem closing_prefix_label_iff (item : HeaderItem) :
    HeaderText.closing <+: item.label ↔ item = .memo := by
  rw [← List.isPrefixOf_iff_prefix]
  cases item <;> decide

/-- Of the lines with a label, those of the memo and no others close a header. -/
theorem closes_iff_of_label {item : HeaderItem} {line : Bytes} (hlabel : item.label <+: line) :
    HeaderText.Closes line ↔ item = .memo := by
  rw [← closing_prefix_label_iff]
  have hshort : HeaderText.closing.length ≤ item.label.length := by cases item <;> decide
  constructor
  · intro hcloses
    exact List.prefix_of_prefix_length_le hcloses hlabel hshort
  · intro hprefix
    exact hprefix.trans hlabel

theorem getElem?_inOrder_eq_memo_iff {i : Nat} :
    HeaderItem.inOrder[i]? = some .memo ↔ i = 16 := by
  constructor
  · intro h
    have hall : ∀ i < 17, HeaderItem.inOrder[i]? = some .memo → i = 16 := by decide
    exact hall i (List.getElem?_eq_some_iff.1 h).1 h
  · intro h
    rw [h]
    rfl

namespace HeaderText

theorem ClosedBlock.closes_iff {texts : List Bytes} (hclosed : ClosedBlock texts) {i : Nat}
    {line : Bytes} (hline : texts[i]? = some line) : Closes line ↔ i + 1 = texts.length := by
  obtain ⟨before, last, rfl, hlast, hbefore⟩ := hclosed
  obtain ⟨hi, _⟩ := List.getElem?_eq_some_iff.1 hline
  rw [List.length_append, List.length_singleton] at hi ⊢
  by_cases h : i < before.length
  · rw [List.getElem?_append_left h] at hline
    have hopen := hbefore line (List.mem_of_getElem? hline)
    exact ⟨fun hcloses => absurd hcloses hopen, fun hlen => by omega⟩
  · have heq : i = before.length := by omega
    rw [heq, List.getElem?_concat_length, Option.some.injEq] at hline
    rw [← hline]
    exact ⟨fun _ => by omega, fun _ => hlast⟩

/-- Only the seventeenth line can both fit and close the block. -/
theorem ClosedBlock.lineFits_iff {o : ReadOptions} {texts : List Bytes}
    (hclosed : ClosedBlock texts) {i : Nat}
    (hfits : Header.LineFits o HeaderItem.inOrder texts i) : i + 1 = texts.length ↔ i = 16 := by
  obtain ⟨item, line, hitem, hline, hlabel, _⟩ := hfits
  rw [← hclosed.closes_iff hline, closes_iff_of_label hlabel, ← getElem?_inOrder_eq_memo_iff, hitem,
    Option.some.injEq]

/-- What is wrong with the header of a closed block is wrong with one of its lines. -/
theorem ClosedBlock.exists_fault {o : ReadOptions} {texts : List Bytes}
    (hclosed : ClosedBlock texts) {f : Fault} (hf : Header.read o texts = .error f) :
    ∃ (i : Nat) (item : HeaderItem) (line : Bytes),
      HeaderItem.inOrder[i]? = some item ∧ texts[i]? = some line ∧
        (f = .wrongLabel item.label line ∨
          item.label <+: line ∧ item.Refuses o ⟨item.label, line⟩ f) := by
  rcases Header.read_eq_error_iff.1 hf with ⟨i, hbefore, hfault⟩ | ⟨hfits, hlength, -⟩
  · cases hfault with
    | wrongLabel hitem hline _ => exact ⟨i, _, _, hitem, hline, Or.inl rfl⟩
    | refused hitem hline hlabel hrefuses =>
      exact ⟨i, _, _, hitem, hline, Or.inr ⟨hlabel, hrefuses⟩⟩
    | missing hitem hline =>
      -- The line before the missing one fits and is the last one, so it is the seventeenth.
      have hi := (List.getElem?_eq_some_iff.1 hitem).1
      have hlength := List.getElem?_eq_none_iff.1 hline
      have ⟨before, last, htexts, _⟩ := hclosed
      have hpos : texts.length = before.length + 1 := by rw [htexts]; simp
      have hlast := (hclosed.lineFits_iff (hbefore before.length (by omega))).1 hpos.symm
      have h17 : HeaderItem.inOrder.length = 17 := rfl
      omega
  · have hlast := (hclosed.lineFits_iff (hfits 16 (by omega))).2 rfl
    omega

/-- What is wrong with the header of a closed block is a label, or else stands before the last
line. -/
theorem ClosedBlock.label_or_earlier {o : ReadOptions} {texts : List Bytes}
    (hclosed : ClosedBlock texts) {f : Fault} (hf : Header.read o texts = .error f) :
    f.kind = .headerLabel ∨
      ∃ (i : Nat) (item : HeaderItem) (line : Bytes), i + 1 < texts.length ∧
        HeaderItem.inOrder[i]? = some item ∧ texts[i]? = some line ∧
          item.Refuses o ⟨item.label, line⟩ f := by
  obtain ⟨i, item, line, hitem, hline, hfault⟩ := hclosed.exists_fault hf
  rcases hfault with rfl | ⟨hlabel, hrefuses⟩
  · exact Or.inl rfl
  · have hi := (List.getElem?_eq_some_iff.1 hline).1
    have hnotLast : i + 1 ≠ texts.length := by
      intro hlast
      have hcloses := (hclosed.closes_iff hline).2 hlast
      rw [(closes_iff_of_label hlabel).1 hcloses] at hrefuses
      exact hrefuses
    exact Or.inr ⟨i, item, line, by omega, hitem, hline, hrefuses⟩

theorem ClosedBlock.kind_of_read {o : ReadOptions} {texts : List Bytes}
    (hclosed : ClosedBlock texts) {f : Fault} (hf : Header.read o texts = .error f) :
    f.kind ∈ .headerLabel :: HeaderItem.ruleKinds := by
  obtain ⟨i, item, line, -, -, hfault⟩ := hclosed.exists_fault hf
  rcases hfault with rfl | ⟨-, hrefuses⟩
  · simp [Fault.kind]
  · exact List.mem_cons_of_mem _ hrefuses.kind_mem

end HeaderText

namespace Samples

theorem kind_of_ofWords {line word : Nat} {words : List Bytes} {f : Fault}
    (hf : ofWords line word words = .error f) : f.kind = .sample := by
  induction words generalizing word with
  | nil => cases hf
  | cons w words ih =>
    rw [ofWords] at hf
    cases hw : w.float? with
    | none =>
      rw [hw] at hf
      cases hf
      rfl
    | some x =>
      rw [hw] at hf
      exact ih (map_eq_error_iff.1 hf)

theorem kind_of_read {number : Nat} {lines : List Line} {f : Fault}
    (hf : (read number lines).result = .error f) : f.kind = .sample := by
  induction lines generalizing number with
  | nil => cases hf
  | cons line lines ih =>
    rw [read] at hf
    cases hwords : ofWords number 1 line.text.words with
    | error f' =>
      rw [hwords] at hf
      cases hf
      exact kind_of_ofWords hwords
    | ok xs =>
      rw [hwords] at hf
      exact ih (map_eq_error_iff.1 hf)

end Samples

theorem Decoder.kind_of_decode {d : Decoder} {s : Bytes} {f : Fault}
    (hf : d.decode s = .error f) : f.kind = .encoding := by
  unfold decode at hf
  dsimp only at hf
  split at hf
  · cases hf
  · cases hf
    rfl

theorem HeaderText.Undecodable.kind_eq {d : Decoder} {content : Bytes} {f : Fault}
    (h : Undecodable d content f) : f.kind = .encoding := by
  obtain ⟨_, _, _, _, _, _, _, _, herror⟩ := h
  exact Decoder.kind_of_decode herror

namespace Record

variable {o : ReadOptions} {d : Decoder} {content : Bytes}

theorem read_eq_error_of_block (hd : Decoder.ofChoice o.encoding = .ok d) {texts : List Bytes}
    {rest : Bytes} (hblock : HeaderText.Block d content texts rest) {f : Fault}
    (hf : read o content = .error f) : Header.read o texts = .error f ∨ f.kind = .sample := by
  rw [read_of_block hd hblock, bind_eq_error_iff] at hf
  rcases hf with hf | ⟨h, -, hf⟩
  · exact Or.inl hf
  · exact Or.inr (Samples.kind_of_read (map_eq_error_iff.1 hf))

theorem kind_of_block (hd : Decoder.ofChoice o.encoding = .ok d) {texts : List Bytes}
    {rest : Bytes} (hblock : HeaderText.Block d content texts rest) {f : Fault}
    (hf : read o content = .error f) :
    f.kind ∈ .sample :: .headerLabel :: HeaderItem.ruleKinds := by
  rcases read_eq_error_of_block hd hblock hf with hf | hf
  · exact List.mem_cons_of_mem _ (hblock.1.kind_of_read hf)
  · simp [hf]

theorem read_eq_error_cases (hd : Decoder.ofChoice o.encoding = .ok d) {f : Fault}
    (hf : read o content = .error f) :
    f.kind ∈ .sample :: .headerLabel :: HeaderItem.ruleKinds ∨
      (∃ texts, HeaderText.Unclosed d content texts) ∧ f.kind = .headerEnd ∨
      f.kind = .encoding := by
  rcases HeaderText.block_or_unclosed_or_undecodable d content with
    ⟨texts, rest, hblock⟩ | ⟨texts, hunclosed⟩ | ⟨f', hundecodable⟩
  · exact Or.inl (kind_of_block hd hblock hf)
  · rw [read_of_unclosed hd hunclosed] at hf
    cases hf
    exact Or.inr (Or.inl ⟨⟨texts, hunclosed⟩, rfl⟩)
  · rw [read_of_undecodable hd hundecodable] at hf
    cases hf
    exact Or.inr (Or.inr hundecodable.kind_eq)

theorem kind_of_read (hd : Decoder.ofChoice o.encoding = .ok d) {f : Fault}
    (hf : read o content = .error f) : f.kind ≠ .headerLineCount ∧ f.kind ≠ .io := by
  rcases read_eq_error_cases hd hf with hkind | ⟨-, hkind⟩ | hkind
  · have hother : ∀ k ∈ FaultKind.sample :: .headerLabel :: HeaderItem.ruleKinds,
        k ≠ .headerLineCount ∧ k ≠ .io := by decide
    exact hother _ hkind
  · simp [hkind]
  · simp [hkind]

theorem exists_unclosed_of_read (hd : Decoder.ofChoice o.encoding = .ok d) {f : Fault}
    (hf : read o content = .error f) (hend : f.kind = .headerEnd) :
    ∃ texts, HeaderText.Unclosed d content texts := by
  rcases read_eq_error_cases hd hf with hkind | ⟨hunclosed, -⟩ | hkind
  · rw [hend] at hkind
    exact absurd hkind (by decide)
  · exact hunclosed
  · rw [hend] at hkind
    cases hkind

/-- A text without a closed header block has the one fault for that, unless a line of it cannot be
decoded; one that has a block has the fault of a line in it or of a word behind it, but never a
wrong number of lines. -/
theorem read_fault_kinds (hd : Decoder.ofChoice o.encoding = .ok d) (content : Bytes) :
    (∀ f, read o content = .error f → f.kind ≠ .headerLineCount ∧ f.kind ≠ .io) ∧
    ((∃ f, read o content = .error f ∧ f.kind = .headerEnd) ↔
      ∃ texts, HeaderText.Unclosed d content texts) ∧
    (∀ texts rest, HeaderText.Block d content texts rest →
      (∀ f, Header.read o texts = .error f → f.kind ≠ .headerEnd ∧ f.kind ≠ .headerLineCount) ∧
      (texts.length ≠ 17 → ∃ f, Header.read o texts = .error f ∧ read o content = .error f ∧
        (f.kind = .headerLabel ∨
          ∃ (i : Nat) (item : HeaderItem) (line : Bytes), i + 1 < texts.length ∧
            HeaderItem.inOrder[i]? = some item ∧ texts[i]? = some line ∧
              item.Refuses o ⟨item.label, line⟩ f))) ∧
    ∀ f, HeaderText.Undecodable d content f → read o content = .error f ∧ f.kind = .encoding := by
  refine ⟨fun f hf => kind_of_read hd hf, ⟨fun ⟨f, hf, hend⟩ => exists_unclosed_of_read hd hf hend,
      fun ⟨texts, hunclosed⟩ => ⟨_, read_of_unclosed hd hunclosed, rfl⟩⟩,
    fun texts rest hblock => ⟨fun f hf => ?_, fun hlength => ?_⟩,
    fun f hundecodable => ⟨read_of_undecodable hd hundecodable, hundecodable.kind_eq⟩⟩
  · have hother : ∀ k ∈ FaultKind.headerLabel :: HeaderItem.ruleKinds,
        k ≠ .headerEnd ∧ k ≠ .headerLineCount := by decide
    exact hother _ (hblock.1.kind_of_read hf)
  · cases hread : Header.read o texts with
    | ok h => exact absurd (Header.exists_read_iff.1 ⟨h, hread⟩).1 hlength
    | error f =>
      refine ⟨f, rfl, ?_, hblock.1.label_or_earlier hread⟩
      rw [read_of_block hd hblock, hread]
      rfl

/-- A line that closes no header, one that closes a header of one line, and a byte that writes no
character. -/
theorem read_fault_kinds_of_one_line :
    Decoder.ofChoice ({} : ReadOptions).encoding = .ok ⟨"UTF-8", .utf8⟩ ∧
      (∃ f, read {} "Origin Time" = .error f ∧ f.kind = .headerEnd) ∧
      (∃ f, read {} "Memo." = .error f ∧ f.kind = .headerLabel) ∧
      ∃ f, read {} [0xFF] = .error f ∧ f.kind = .encoding := by
  have hd : Decoder.ofChoice ({} : ReadOptions).encoding = .ok ⟨"UTF-8", .utf8⟩ := rfl
  have hunclosed : HeaderText.Unclosed ⟨"UTF-8", .utf8⟩ "Origin Time" ["Origin Time"] :=
    ⟨by decide, _, _, Bytes.cut_lines "Origin Time", .cons rfl (.nil _)⟩
  have hblock : HeaderText.Block ⟨"UTF-8", .utf8⟩ "Memo." ["Memo."] [] :=
    ⟨⟨[], "Memo.", rfl, by decide, by simp⟩, _, _, Bytes.cut_lines "Memo.", .cons rfl (.nil _)⟩
  have hundecodable : HeaderText.Undecodable ⟨"UTF-8", .utf8⟩ [0xFF]
      (.undecodable "UTF-8" .invalid) :=
    ⟨[], _, [], [], _, Bytes.cut_lines [0xFF], .nil _, by simp, rfl⟩
  refine ⟨hd, (read_fault_kinds hd "Origin Time").2.1.2 ⟨_, hunclosed⟩, ?_,
    _, (read_fault_kinds hd [0xFF]).2.2.2 _ hundecodable⟩
  obtain ⟨f, -, hf, hkind⟩ :=
    ((read_fault_kinds hd "Memo.").2.2.1 _ _ hblock).2 (by decide)
  -- Of a header with one line no line comes before the last.
  have hlabel : f.kind = .headerLabel := hkind.resolve_right fun ⟨i, _, _, hi, _⟩ =>
    absurd hi (Nat.not_lt.2 (Nat.le_add_left 1 i))
  exact ⟨f, hf, hlabel⟩

end Record
end StrongMotion
