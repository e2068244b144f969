import StrongMotion.Proofs.ReadingFaults

/-!
# Reading changed lines

The reader takes a line of a header for its bare text and a line of samples for its words.  Lines
that are changed one by one are therefore read like the lines they were, if the header comes out the
same and each line of samples does, but for the fault it may give (`Record.result_readLines_map`).
-/

namespace StrongMotion

/-- Decoders that agree on each line and its change, one line after the other, read the same
texts. -/
theorem HeaderText.read_map {R : Decoder → Decoder → Prop} {g : Line → Line} {lines : List Line}
    (hagree : ∀ l ∈ lines, ∀ d d', R d d' →
      d'.decode (g l).bare = d.decode l.bare ∧ R (d.after l.bare) (d'.after (g l).bare))
    {d d' : Decoder} (hR : R d d') :
    read d' (lines.map g) = { read d lines with rest := (read d lines).rest.map g } := by
  induction lines generalizing d d' with
  | nil => rfl
  | cons l lines ih =>
    obtain ⟨hl, hlines⟩ := List.forall_mem_cons.1 hagree
    obtain ⟨hdecode, hafter⟩ := hl d d' hR
    rw [List.map_cons]
    cases htext : d.decode l.bare with
    | error f => rw [read_cons_of_error htext, read_cons_of_error (hdecode.trans htext)]
    | ok text =>
      have htext' := hdecode.trans htext
      by_cases hcloses : Closes text
      · rw [read_cons_of_closes htext hcloses, read_cons_of_closes htext' hcloses]
      · rw [read_cons_of_not_closes htext hcloses, read_cons_of_not_closes htext' hcloses,
          ih hlines hafter]
        rfl

/-- What a change of the words of each line does to its fault, it does to the fault of them all. -/
theorem Samples.result_read_map {g : Line → Line} {φ : Fault → Fault}
    (hwords : ∀ number l, ofWords number 1 (g l).text.words =
      (ofWords number 1 l.text.words).mapError φ) (number : Nat) (lines : List Line) :
    (read number (lines.map g)).result = (read number lines).result.mapError φ := by
  induction lines generalizing number with
  | nil => rfl
  | cons l lines ih =>
    rw [List.map_cons, read, read, hwords]
    cases ofWords number 1 l.text.words with
    | error f => rfl
    | ok xs =>
      show Except.map (xs ++ ·) (read (number + 1) (lines.map g)).result =
        Except.mapError φ (Except.map (xs ++ ·) (read (number + 1) lines).result)
      rw [ih]
      cases (read (number + 1) lines).result <;> rfl

/-! ## Faults of headers -/

theorem Header.kind_of_read {o : ReadOptions} {texts : List Bytes} {f : Fault}
    (hf : read o texts = .error f) : f.kind ≠ .sample := by
  rcases read_eq_error_iff.1 hf with ⟨i, -, hfault⟩ | ⟨-, -, rfl⟩
  · cases hfault with
    | missing | wrongLabel => simp [Fault.kind]
    | refused _ _ _ hrefuses =>
      have hother : ∀ k ∈ HeaderItem.ruleKinds, k ≠ .sample := by decide
      exact hother _ hrefuses.kind_mem
  · simp [Fault.kind]

namespace HeaderText

theorem kind_of_result {d : Decoder} {lines : List Line} {f : Fault}
    (hf : (read d lines).result = .error f) : f.kind = .encoding := by
  induction lines generalizing d with
  | nil => cases hf
  | cons l lines ih =>
    cases hdecode : d.decode l.bare with
    | error f' =>
      rw [read_cons_of_error hdecode] at hf
      cases hf
      exact Decoder.kind_of_decode hdecode
    | ok text =>
      by_cases hcloses : Closes text
      · rw [read_cons_of_closes hdecode hcloses] at hf
        cases hf
      · rw [read_cons_of_not_closes hdecode hcloses] at hf
        exact ih (map_eq_error_iff.1 hf)

theorem kind_of_header {o : ReadOptions} {b : HeaderText} {f : Fault}
    (hf : b.header o = .error f) : f.kind ≠ .sample := by
  unfold header at hf
  split at hf
  · exact Header.kind_of_read hf
  · cases hf
    simp [Fault.kind]

end HeaderText

/-! ## Records -/

/-- Two readings of which the second is of changed lines, with a decoder of its own.  Only a fault
of the samples can tell them apart. -/
theorem Record.result_readLines_map {o o' : ReadOptions} {d d' : Decoder}
    (hd : Decoder.ofChoice o.encoding = .ok d) (hd' : Decoder.ofChoice o'.encoding = .ok d')
    (hsplit : o'.splitStation = o.splitStation) {g : Line → Line} {φ : Fault → Fault}
    {lines : List Line}
    (hhead : HeaderText.read d' (lines.map g) =
      { HeaderText.read d lines with rest := (HeaderText.read d lines).rest.map g })
    (hwords : ∀ number l, Samples.ofWords number 1 (g l).text.words =
      (Samples.ofWords number 1 l.text.words).mapError φ)
    (hφ : ∀ f, f.kind ≠ .sample → φ f = f) :
    (readLines o' (lines.map g)).result = (readLines o lines).result.mapError φ := by
  have hheader : ∀ b : HeaderText, b.header o' = b.header o := fun b => by
    simp only [HeaderText.header, Header.read_congr hsplit]
  unfold readLines
  rw [hd, hd']
  simp only [hhead, Reading.bind, hheader]
  cases hblock : (HeaderText.read d lines).result with
  | error f =>
    have hkind : f.kind ≠ .sample := by rw [HeaderText.kind_of_result hblock]; decide
    show Except.error f = Except.error (φ f)
    rw [hφ f hkind]
  | ok block =>
    dsimp only
    cases hh : block.header o with
    | error f =>
      show Except.error f = Except.error (φ f)
      rw [hφ f (HeaderText.kind_of_header hh)]
    | ok h =>
      dsimp only [Reading.map]
      rw [Samples.result_read_map hwords]
      cases (Samples.read (block.lines.length + 1) (HeaderText.read d lines).rest).result <;> rfl

end StrongMotion
