import StrongMotion.Proofs.Lines
import StrongMotion.Record.Reader

/-!
# The block of a header

A text begins with a closed header block, or has no line that closes one, or a line that cannot be
decoded comes first.  The three are stated about the bytes of the text, and `HeaderText.read` tells
them apart (`Block.read_eq`, `Unclosed.read_eq`, `Undecodable.read_eq`).
-/

namespace StrongMotion

/-- The lines decode to `texts`, each with the decoder that those before it leave behind.  The last
argument is the decoder that they all leave behind. -/
inductive Decoder.DecodesLines : Decoder → List Line → List Bytes → Decoder → Prop
  | nil (d : Decoder) : DecodesLines d [] [] d
  | cons {d after : Decoder} {line : Line} {lines : List Line} {text : Bytes} {texts : List Bytes} :
      d.decode line.bare = .ok text → DecodesLines (d.after line.bare) lines texts after →
      DecodesLines d (line :: lines) (text :: texts) after

theorem Decoder.DecodesLines.append {d middle after : Decoder} {a b : List Line}
    {s t : List Bytes} (ha : d.DecodesLines a s middle) (hb : middle.DecodesLines b t after) :
    d.DecodesLines (a ++ b) (s ++ t) after := by
  induction ha with
  | nil d => exact hb
  | cons htext _ ih => exact .cons htext (ih hb)

theorem Decoder.DecodesLines.length_eq {d after : Decoder} {lines : List Line} {texts : List Bytes}
    (h : d.DecodesLines lines texts after) : lines.length = texts.length := by
  induction h with
  | nil d => rfl
  | cons _ _ ih => rw [List.length_cons, List.length_cons, ih]

/-- A decoder that no text changes decodes all lines the same way. -/
theorem Decoder.DecodesLines.map_decode {d after : Decoder} (hd : ∀ s, d.after s = d)
    {lines : List Line} {texts : List Bytes} (h : d.DecodesLines lines texts after) :
    lines.map (fun l => d.decode l.bare) = texts.map .ok := by
  induction h with
  | nil d => rfl
  | cons htext _ ih =>
    rw [hd] at ih
    rw [List.map_cons, htext, ih hd, List.map_cons]

/-- Lines that decode to texts with a last one have a last line, which decodes to it. -/
theorem Decoder.DecodesLines.exists_concat {d after : Decoder} {lines : List Line}
    {before : List Bytes} {last : Bytes} (h : d.DecodesLines lines (before ++ [last]) after) :
    ∃ front line middle, lines = front ++ [line] ∧ d.DecodesLines front before middle ∧
      middle.decode line.bare = .ok last := by
  induction before generalizing d lines with
  | nil =>
    cases h with
    | cons htext hrest =>
      cases hrest
      exact ⟨[], _, d, rfl, .nil d, htext⟩
  | cons text before ih =>
    cases h with
    | cons htext hrest =>
      obtain ⟨front, line, middle, rfl, hfront, hline⟩ := ih hrest
      exact ⟨_ :: front, line, middle, rfl, .cons htext hfront, hline⟩

theorem Reading.map_map {α β γ : Type} (f : α → β) (g : β → γ) (r : Reading α) :
    (r.map f).map g = r.map fun a => g (f a) := by
  obtain ⟨result, rest, ranOut⟩ := r
  cases result <;> rfl

theorem Reading.map_eq_self {α : Type} {f : α → α} (hf : ∀ a, f a = a) (r : Reading α) :
    r.map f = r := by
  obtain ⟨result, rest, ranOut⟩ := r
  cases result with
  | error e => rfl
  | ok a => simp [Reading.map, Except.map, hf]

namespace HeaderText

/-- A decoded line that ends a header. -/
def Closes (text : Bytes) : Prop := closing <+: text

instance (text : Bytes) : Decidable (Closes text) :=
  inferInstanceAs (Decidable (closing <+: text))

/-- Decoded lines of which the last and no other ends a header. -/
def ClosedBlock (texts : List Bytes) : Prop :=
  ∃ before last, texts = before ++ [last] ∧ Closes last ∧ ∀ t ∈ before, ¬Closes t

/-- The text begins with a header: lines that decode to `texts`, of which the last one closes it,
and then `rest`. -/
def Block (d : Decoder) (content : Bytes) (texts : List Bytes) (rest : Bytes) : Prop :=
  ClosedBlock texts ∧ ∃ lines after, Bytes.Cut content lines rest ∧ d.DecodesLines lines texts after

/-- All lines of the text decode, and none of them closes a header. -/
def Unclosed (d : Decoder) (content : Bytes) (texts : List Bytes) : Prop :=
  (∀ t ∈ texts, ¬Closes t) ∧
    ∃ lines after, Bytes.Cut content lines [] ∧ d.DecodesLines lines texts after

/-- A line of the text does not decode, and none before it closes a header. -/
def Undecodable (d : Decoder) (content : Bytes) (f : Fault) : Prop :=
  ∃ lines line texts rest after, Bytes.Cut content (lines ++ [line]) rest ∧
    d.DecodesLines lines texts after ∧ (∀ t ∈ texts, ¬Closes t) ∧
    after.decode line.bare = .error f

/-! ## Reading a block -/

theorem read_cons_of_error {d : Decoder} {line : Line} {f : Fault}
    (herror : d.decode line.bare = .error f) (rest : List Line) :
    read d (line :: rest) = ⟨.error f, rest, false⟩ := by
  simp only [read, herror]

theorem read_cons_of_closes {d : Decoder} {line : Line} {text : Bytes}
    (htext : d.decode line.bare = .ok text) (hcloses : Closes text) (rest : List Line) :
    read d (line :: rest) = ⟨.ok ⟨[text], true⟩, rest, false⟩ := by
  have hprefix : closing.isPrefixOf text = true := List.isPrefixOf_iff_prefix.2 hcloses
  simp only [read, htext, hprefix, if_true]

theorem read_cons_of_not_closes {d : Decoder} {line : Line} {text : Bytes}
    (htext : d.decode line.bare = .ok text) (hopen : ¬Closes text) (rest : List Line) :
    read d (line :: rest) =
      (read (d.after line.bare) rest).map fun block =>
        { block with lines := text :: block.lines } := by
  have hprefix : ¬closing.isPrefixOf text = true :=
    fun h => hopen (List.isPrefixOf_iff_prefix.1 h)
  simp only [read, htext, if_neg hprefix]

/-- Lines that do not close a header are read into the front of the block. -/
theorem read_append {d after : Decoder} {lines : List Line} {texts : List Bytes}
    (hdecodes : d.DecodesLines lines texts after) (hopen : ∀ t ∈ texts, ¬Closes t)
    (more : List Line) :
    read d (lines ++ more) =
      (read after more).map fun block => { block with lines := texts ++ block.lines } := by
  induction hdecodes with
  | nil d => exact (Reading.map_eq_self (fun _ => rfl) _).symm
  | cons htext _ ih =>
    rw [List.forall_mem_cons] at hopen
    rw [List.cons_append, read_cons_of_not_closes htext hopen.1, ih hopen.2, Reading.map_map]
    rfl

theorem Block.read_eq {d : Decoder} {content : Bytes} {texts : List Bytes} {rest : Bytes}
    (hblock : Block d content texts rest) :
    read d content.lines = ⟨.ok ⟨texts, true⟩, rest.lines, false⟩ := by
  obtain ⟨⟨before, last, rfl, hlast, hbefore⟩, lines, after, hcut, hdecodes⟩ := hblock
  obtain ⟨front, line, middle, rfl, hfront, hline⟩ := hdecodes.exists_concat
  rw [hcut.lines_eq, List.append_assoc, read_append hfront hbefore, List.singleton_append,
    read_cons_of_closes hline hlast]
  rfl

theorem Unclosed.read_eq {d : Decoder} {content : Bytes} {texts : List Bytes}
    (hunclosed : Unclosed d content texts) :
    read d content.lines = ⟨.ok ⟨texts, false⟩, [], true⟩ := by
  obtain ⟨hopen, lines, after, hcut, hdecodes⟩ := hunclosed
  rw [hcut.lines_eq, read_append hdecodes hopen]
  simp [Bytes.lines, Bytes.linesFrom, read, Reading.map, Except.map]

theorem Undecodable.result_eq {d : Decoder} {content : Bytes} {f : Fault}
    (hundecodable : Undecodable d content f) : (read d content.lines).result = .error f := by
  obtain ⟨lines, line, texts, rest, after, hcut, hdecodes, hopen, herror⟩ := hundecodable
  rw [hcut.lines_eq, List.append_assoc, read_append hdecodes hopen, List.singleton_append,
    read_cons_of_error herror]
  rfl

/-! ## Every text is of one of the three sorts -/

/-- What reading a block stops at. -/
inductive Stops (d : Decoder) : List Line → Prop
  | ended : Stops d []
  | undecodable {line : Line} {rest : List Line} {f : Fault} :
      d.decode line.bare = .error f → Stops d (line :: rest)
  | closed {line : Line} {rest : List Line} {text : Bytes} :
      d.decode line.bare = .ok text → Closes text → Stops d (line :: rest)

theorem exists_stop (d : Decoder) (lines : List Line) :
    ∃ front texts after more, lines = front ++ more ∧ d.DecodesLines front texts after ∧
      (∀ t ∈ texts, ¬Closes t) ∧ Stops after more := by
  induction lines generalizing d with
  | nil => exact ⟨[], [], d, [], rfl, .nil d, by simp, .ended⟩
  | cons line lines ih =>
    cases htext : d.decode line.bare with
    | error f => exact ⟨[], [], d, line :: lines, rfl, .nil d, by simp, .undecodable htext⟩
    | ok text =>
      by_cases hcloses : Closes text
      · exact ⟨[], [], d, line :: lines, rfl, .nil d, by simp, .closed htext hcloses⟩
      · obtain ⟨front, texts, after, more, rfl, hdecodes, hopen, hstop⟩ := ih (d.after line.bare)
        exact ⟨line :: front, text :: texts, after, more, rfl, .cons htext hdecodes,
          List.forall_mem_cons.2 ⟨hcloses, hopen⟩, hstop⟩

theorem block_or_unclosed_or_undecodable (d : Decoder) (content : Bytes) :
    (∃ texts rest, Block d content texts rest) ∨ (∃ texts, Unclosed d content texts) ∨
      ∃ f, Undecodable d content f := by
  obtain ⟨front, texts, after, more, hlines, hdecodes, hopen, hstop⟩ :=
    exists_stop d content.lines
  cases hstop with
  | ended =>
    have hcut := Bytes.cut_lines content
    rw [hlines, List.append_nil] at hcut
    exact Or.inr (Or.inl ⟨texts, hopen, front, after, hcut, hdecodes⟩)
  | undecodable herror =>
    rw [← List.singleton_append, ← List.append_assoc] at hlines
    obtain ⟨rest, hcut, -⟩ := Bytes.exists_cut_of_lines_eq hlines
    exact Or.inr (Or.inr ⟨_, front, _, texts, rest, after, hcut, hdecodes, hopen, herror⟩)
  | closed htext hcloses =>
    rw [← List.singleton_append, ← List.append_assoc] at hlines
    obtain ⟨rest, hcut, -⟩ := Bytes.exists_cut_of_lines_eq hlines
    exact Or.inl ⟨texts ++ [_], rest, ⟨texts, _, rfl, hcloses, hopen⟩, front ++ [_], _, hcut,
      hdecodes.append (.cons htext (.nil _))⟩

theorem Block.unique {d : Decoder} {content : Bytes} {texts texts' : List Bytes}
    {rest rest' : Bytes} (h : Block d content texts rest) (h' : Block d content texts' rest') :
    texts = texts' ∧ rest = rest' := by
  have heq := h.read_eq.symm.trans h'.read_eq
  simp only [Reading.mk.injEq, Except.ok.injEq, HeaderText.mk.injEq, and_true] at heq
  refine ⟨heq.1, ?_⟩
  rw [← Bytes.flatMap_raw_lines rest, heq.2, Bytes.flatMap_raw_lines]

end HeaderText
end StrongMotion
