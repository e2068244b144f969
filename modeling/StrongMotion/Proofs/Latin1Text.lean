import StrongMotion.Proofs.ChangedLines
import StrongMotion.Proofs.Charsets
import StrongMotion.Proofs.Numerals

/-!
# One byte, one character

Where every byte is a character, a text has a form in UTF-8 that keeps its ASCII bytes and has none
that it did not have (`Latin1.toUtf8`).  Cutting into lines and words is a matter of ASCII bytes, so
it commutes with that form.  Reading either text then gives the same record, or the same fault but
for the form of a word that it quotes (`Record.read_toUtf8_eq`).
-/

namespace StrongMotion
namespace Latin1

/-- The text in UTF-8. -/
def toUtf8 (s : Bytes) : Bytes := Utf8.text (s.map UInt8.toNat)

theorem toUtf8_cons (b : UInt8) (s : Bytes) :
    toUtf8 (b :: s) = Utf8.encode b.toNat ++ toUtf8 s := rfl

theorem toUtf8_append (s t : Bytes) : toUtf8 (s ++ t) = toUtf8 s ++ toUtf8 t := by
  rw [toUtf8, List.map_append, Utf8.text_append]
  rfl

theorem toUtf8_singleton (b : UInt8) : toUtf8 [b] = Utf8.encode b.toNat := by
  rw [toUtf8_cons]
  exact List.append_nil _

theorem toUtf8_of_isAscii {s : Bytes} (hs : s.IsAscii) : toUtf8 s = s := Utf8.text_map_toNat hs

/-- A byte is written as itself or without ASCII. -/
theorem encode_byte (b : UInt8) :
    Utf8.encode b.toNat = [b] ∨ ∀ c ∈ Utf8.encode b.toNat, 0x80 ≤ c.toNat := by
  by_cases hb : b.toNat < 0x80
  · exact Or.inl (Utf8.encode_ascii hb)
  · exact Or.inr (Utf8.le_toNat_of_mem_encode (Nat.le_of_not_lt hb)
      (Nat.lt_trans b.toNat_lt (by decide)))

theorem encode_byte_ne_nil (b : UInt8) : Utf8.encode b.toNat ≠ [] := by
  obtain ⟨c, tail, hencode, -⟩ :=
    Utf8.exists_encode_eq_cons (Nat.lt_trans b.toNat_lt (by decide) : b.toNat < twoTo 31)
  rw [hencode]
  exact List.cons_ne_nil c tail

/-- A property of ASCII bytes only, that a byte lacks, is one that its form lacks. -/
theorem not_of_mem_encode {p : UInt8 → Prop} (hp : ∀ c, p c → c.toNat < 0x80) {b : UInt8}
    (hb : ¬p b) : ∀ c ∈ Utf8.encode b.toNat, ¬p c := by
  intro c hc hpc
  rcases encode_byte b with heq | hall
  · rw [heq, List.mem_singleton] at hc
    rw [hc] at hpc
    exact hb hpc
  · exact absurd (hp c hpc) (Nat.not_lt_of_le (hall c hc))

theorem toUtf8_eq_nil_iff {s : Bytes} : toUtf8 s = [] ↔ s = [] := by
  cases s with
  | nil => simp [toUtf8, Utf8.text]
  | cons b s =>
    rw [toUtf8_cons, List.append_eq_nil_iff]
    exact ⟨fun h => absurd h.1 (encode_byte_ne_nil b), fun h => absurd h (List.cons_ne_nil b s)⟩

theorem isAscii_of_isAscii_toUtf8 {s : Bytes} (hs : (toUtf8 s).IsAscii) : s.IsAscii := by
  induction s with
  | nil => exact hs
  | cons b s ih =>
    rw [toUtf8_cons] at hs
    obtain ⟨hencode, hrest⟩ := List.forall_mem_append.1 hs
    refine List.forall_mem_cons.2 ⟨?_, ih hrest⟩
    rcases encode_byte b with heq | hall
    · exact hencode b (by rw [heq]; exact List.mem_singleton_self b)
    · obtain ⟨c, hc⟩ := List.exists_mem_of_ne_nil _ (encode_byte_ne_nil b)
      exact absurd (hencode c hc) (Nat.not_lt_of_le (hall c hc))

/-! ## Lines

The scans for lines and words carry the text begun backwards, so its form stands there backwards. -/

theorem isEmpty_reverse_toUtf8 (begun : Bytes) :
    (toUtf8 begun.reverse).reverse.isEmpty = begun.isEmpty := by
  rw [Bool.eq_iff_iff, List.isEmpty_iff, List.isEmpty_iff, List.reverse_eq_nil_iff,
    toUtf8_eq_nil_iff, List.reverse_eq_nil_iff]

theorem reverse_toUtf8_cons (b : UInt8) (begun : Bytes) :
    (Utf8.encode b.toNat).reverse ++ (toUtf8 begun.reverse).reverse =
      (toUtf8 (b :: begun).reverse).reverse := by
  rw [List.reverse_cons, toUtf8_append, toUtf8_singleton, List.reverse_append]

/-- The line in UTF-8. -/
def lineToUtf8 (l : Line) : Line := { l with text := toUtf8 l.text }

theorem linesFrom_toUtf8 (begun s : Bytes) :
    Bytes.linesFrom (toUtf8 begun.reverse).reverse (toUtf8 s) =
      (Bytes.linesFrom begun s).map lineToUtf8 := by
  induction s generalizing begun with
  | nil =>
    show Bytes.linesFrom _ [] = _
    rw [Bytes.linesFrom, Bytes.linesFrom, isEmpty_reverse_toUtf8, List.reverse_reverse]
    split <;> rfl
  | cons b s ih =>
    by_cases hb : b = Line.lineFeed
    · have hencode : Utf8.encode b.toNat = [b] := by
        rw [hb]
        exact Utf8.encode_ascii (by decide)
      have hrest : Bytes.linesFrom [] (toUtf8 s) = (Bytes.linesFrom [] s).map lineToUtf8 := ih []
      rw [toUtf8_cons, hencode, List.singleton_append, Bytes.linesFrom, if_pos hb, hrest,
        List.reverse_reverse, Bytes.linesFrom, if_pos hb, List.map_cons]
      rfl
    · have hfeed : Line.lineFeed ∉ Utf8.encode b.toNat := fun hmem =>
        not_of_mem_encode (p := (· = Line.lineFeed)) (fun c hc => by rw [hc]; decide) hb _ hmem rfl
      rw [toUtf8_cons, Bytes.linesFrom_append _ hfeed, reverse_toUtf8_cons, ih (b :: begun),
        Bytes.linesFrom, if_neg hb]

theorem lines_toUtf8 (s : Bytes) : (toUtf8 s).lines = s.lines.map lineToUtf8 :=
  linesFrom_toUtf8 [] s

theorem getLast?_toUtf8_ne {s : Bytes} (hs : s.getLast? ≠ some Line.carriageReturn) :
    (toUtf8 s).getLast? ≠ some Line.carriageReturn := by
  rcases List.eq_nil_or_concat s with rfl | ⟨front, b, rfl⟩
  · simp [toUtf8, Utf8.text]
  · have hb : b ≠ Line.carriageReturn := by simpa using hs
    have hne := encode_byte_ne_nil b
    rw [List.concat_eq_append, toUtf8_append, toUtf8_singleton, List.getLast?_append,
      List.getLast?_eq_some_getLast hne, Option.some_or, ne_eq, Option.some.injEq]
    exact not_of_mem_encode (p := (· = Line.carriageReturn)) (fun c hc => by rw [hc]; decide) hb _
      (List.getLast_mem hne)

theorem bare_lineToUtf8 (l : Line) : (lineToUtf8 l).bare = toUtf8 l.bare := by
  obtain ⟨text, closed⟩ := l
  by_cases hlast : text.getLast? = some Line.carriageReturn
  · obtain ⟨s, rfl⟩ := List.getLast?_eq_some_iff.1 hlast
    have hline : lineToUtf8 ⟨s ++ [Line.carriageReturn], closed⟩ =
        ⟨toUtf8 s ++ [Line.carriageReturn], closed⟩ := by
      rw [lineToUtf8, toUtf8_append, toUtf8_singleton, Utf8.encode_ascii (by decide)]
    rw [hline, Line.bare_concat_carriageReturn, Line.bare_concat_carriageReturn]
  · have hline : (lineToUtf8 ⟨text, closed⟩).bare = toUtf8 text :=
      Line.bare_eq_text (getLast?_toUtf8_ne hlast)
    have htext : (Line.mk text closed).bare = text := Line.bare_eq_text hlast
    rw [hline, htext]

/-! ## Words and numbers -/

theorem wordsFrom_toUtf8 (begun s : Bytes) :
    Bytes.wordsFrom (toUtf8 begun.reverse).reverse (toUtf8 s) =
      (Bytes.wordsFrom begun s).map toUtf8 := by
  induction s generalizing begun with
  | nil =>
    show Bytes.wordsFrom _ [] = _
    rw [Bytes.wordsFrom, Bytes.wordsFrom, isEmpty_reverse_toUtf8, List.reverse_reverse]
    split <;> rfl
  | cons b s ih =>
    by_cases hb : Byte.isBlank b = true
    · have hrest : Bytes.wordsFrom [] (toUtf8 s) = (Bytes.wordsFrom [] s).map toUtf8 := ih []
      rw [toUtf8_cons, Utf8.encode_ascii (Byte.toNat_lt_of_isBlank hb), List.singleton_append,
        Bytes.wordsFrom, if_pos hb, isEmpty_reverse_toUtf8, hrest, List.reverse_reverse,
        Bytes.wordsFrom, if_pos hb]
      split <;> rfl
    · have hblank : ∀ c ∈ Utf8.encode b.toNat, Byte.isBlank c = false := fun c hc =>
        Bool.eq_false_iff.2 (not_of_mem_encode (p := (Byte.isBlank · = true))
          (fun _ => Byte.toNat_lt_of_isBlank) hb c hc)
      rw [toUtf8_cons, Bytes.wordsFrom_append hblank, reverse_toUtf8_cons, ih (b :: begun),
        Bytes.wordsFrom, if_neg hb]

theorem words_toUtf8 (s : Bytes) : (toUtf8 s).words = s.words.map toUtf8 := wordsFrom_toUtf8 [] s

/-- Numbers are ASCII, so a word writes the same number in either form or none in both. -/
theorem float?_toUtf8 (s : Bytes) : (toUtf8 s).float? = s.float? := by
  by_cases hs : s.IsAscii
  · rw [toUtf8_of_isAscii hs]
  · -- A byte that is not ASCII is in both, and no number has one.
    have hnone : ∀ t : Bytes, ¬t.IsAscii → t.float? = none := by
      intro t ht
      cases hx : t.float? with
      | none => rfl
      | some x =>
        exact absurd (fun b hb => (Bytes.isNumberByte_of_float? hx b hb).toNat_bounds.2) ht
    rw [hnone s hs, hnone _ fun h => hs (isAscii_of_isAscii_toUtf8 h)]

/-! ## Faults -/

/-- The fault of the text in UTF-8.  Only a word of the samples is quoted undecoded. -/
def faultToUtf8 : Fault → Fault
  | .notSample line word text => .notSample line word (toUtf8 text)
  | f => f

theorem faultToUtf8_of_kind {f : Fault} (hf : f.kind ≠ .sample) : faultToUtf8 f = f := by
  cases f with
  | notSample line word text => exact absurd rfl hf
  | _ => rfl

theorem ofWords_toUtf8 (line word : Nat) (words : List Bytes) :
    Samples.ofWords line word (words.map toUtf8) =
      (Samples.ofWords line word words).mapError faultToUtf8 := by
  induction words generalizing word with
  | nil => rfl
  | cons w words ih =>
    rw [List.map_cons, Samples.ofWords, Samples.ofWords, float?_toUtf8]
    cases w.float? with
    | none => rfl
    | some x =>
      dsimp only
      rw [ih]
      cases Samples.ofWords line (word + 1) words <;> rfl

end Latin1

/-! ## Records -/

/-- The encodings in which every character is one byte. -/
def Charset.oneByte : List Charset := [ascii, latin1]

open Latin1

theorem Charset.decode_toUtf8 (s : Bytes) :
    utf8.decoder.decode (toUtf8 s) = .ok (toUtf8 s) := by
  refine decode_eq_ok_iff.2 ⟨_, Utf8.characters_text fun code hcode => ?_, rfl⟩
  obtain ⟨b, -, rfl⟩ := List.mem_map.1 hcode
  exact Utf8.isCode_of_lt (Nat.lt_trans b.toNat_lt (by decide))

section

variable {charset : Charset} (hone : charset ∈ Charset.oneByte)
include hone

theorem Charset.step_byte {b : UInt8} (hb : b.toNat < charset.limit) (rest : Bytes) :
    charset.encoding.step (b :: rest) = .char b.toNat 1 := by
  simp only [oneByte, List.mem_cons, List.not_mem_nil, or_false] at hone
  rcases hone with rfl | rfl
  · exact if_pos hb
  · exact if_pos hb

theorem Charset.decode_of_lt_limit {s : Bytes} (hs : ∀ b ∈ s, b.toNat < charset.limit) :
    charset.decoder.decode s = .ok (toUtf8 s) := by
  refine decode_eq_ok_iff.2 ⟨s.map UInt8.toNat, ?_, rfl⟩
  induction s with
  | nil => exact .nil
  | cons b s ih =>
    obtain ⟨hb, hrest⟩ := List.forall_mem_cons.1 hs
    have hchar : Character charset.encoding.step [b] b.toNat :=
      IsLocal.character charset.encoding.isLocal_step (step_byte hone hb [])
    exact .cons hchar (ih hrest)

theorem HeaderText.read_lineToUtf8 {lines : List Line}
    (hlines : ∀ l ∈ lines, ∀ b ∈ l.text, b.toNat < charset.limit) :
    read Charset.utf8.decoder (lines.map lineToUtf8) =
      { read charset.decoder lines with
        rest := (read charset.decoder lines).rest.map lineToUtf8 } := by
  -- Neither decoder keeps anything from line to line.
  refine read_map (R := fun d d' => d = charset.decoder ∧ d' = Charset.utf8.decoder)
    (fun l hl d d' hR => ?_) ⟨rfl, rfl⟩
  obtain ⟨rfl, rfl⟩ := hR
  have hbare : ∀ b ∈ l.bare, b.toNat < charset.limit := fun b hb =>
    hlines l hl b (Line.mem_of_mem_bare hb)
  refine ⟨?_, Charset.after_decoder _ _, Charset.after_decoder _ _⟩
  rw [bare_lineToUtf8, Charset.decode_toUtf8, Charset.decode_of_lt_limit hone hbare]

/-- A text of one-byte characters and its form in UTF-8 are read alike. -/
theorem Record.read_toUtf8_eq (split : Bool) {s : Bytes} (hs : ∀ b ∈ s, b.toNat < charset.limit) :
    read (Charset.utf8.options split) (toUtf8 s) =
      (read (charset.options split) s).mapError faultToUtf8 := by
  have hlines : ∀ l ∈ s.lines, ∀ b ∈ l.text, b.toNat < charset.limit := fun l hl b hb =>
    hs b (Bytes.mem_of_mem_lines hl hb)
  have hwords : ∀ number l, Samples.ofWords number 1 (lineToUtf8 l).text.words =
      (Samples.ofWords number 1 l.text.words).mapError faultToUtf8 := by
    intro number l
    show Samples.ofWords number 1 (toUtf8 l.text).words = _
    rw [words_toUtf8, ofWords_toUtf8]
  unfold read
  rw [lines_toUtf8]
  exact result_readLines_map (charset.ofChoice_options split) (Charset.utf8.ofChoice_options split)
    rfl (HeaderText.read_lineToUtf8 hone hlines) hwords fun _ => faultToUtf8_of_kind

theorem Charset.lt_limit_of_mem_write {text : List Char} (htext : charset.Has text) :
    ∀ b ∈ charset.write text, b.toNat < charset.limit := by
  intro b hb
  obtain ⟨c, hc, hb⟩ := List.mem_flatMap.1 hb
  have hbyte : b = UInt8.ofNat c.toNat := by
    simp only [oneByte, List.mem_cons, List.not_mem_nil, or_false] at hone
    rcases hone with rfl | rfl
    · exact List.mem_singleton.1 hb
    · exact List.mem_singleton.1 hb
  rw [hbyte, UInt8.toNat_ofNat']
  exact Nat.lt_of_le_of_lt (Nat.mod_le _ _) (htext c hc)

/-- A text of one-byte characters is the same record in either encoding, or in neither. -/
theorem Record.read_write_of_oneByte (split : Bool) {text : List Char} (htext : charset.Has text)
    {r : Record} :
    read (Charset.utf8.options split) (Charset.utf8.write text) = .ok r ↔
      read (charset.options split) (charset.write text) = .ok r := by
  have hlimit := Charset.lt_limit_of_mem_write hone htext
  have hutf8 : Charset.utf8.write text = toUtf8 (charset.write text) :=
    Except.ok.inj ((charset.decode_write htext).symm.trans (Charset.decode_of_lt_limit hone hlimit))
  rw [hutf8, read_toUtf8_eq hone split hlimit]
  cases read (charset.options split) (charset.write text) with
  | ok r' => exact Iff.rfl
  | error f =>
    constructor
    · intro h
      cases h
    · intro h
      cases h

end

end StrongMotion
