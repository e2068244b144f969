import StrongMotion.Conversion.Basic
import StrongMotion.Proofs.AsciiText
import StrongMotion.Proofs.ReadingFaults
import StrongMotion.Record.Source

/-!
# The format check

The check looks at the first 64 bytes of a file at once, where reading takes one line after the
other.  In an encoding that extends ASCII the two agree: the lines of a header are made of
characters, so are the ends of the lines, and so is all of it together.  The labels alone make a
header longer than what the check looks at, so that no file that holds a record is refused.
-/

namespace StrongMotion

/-! ## The lines of a header -/

/-- A line goes on behind its text with ASCII alone. -/
theorem Line.exists_raw_eq (l : Line) : ∃ tail, l.raw = l.bare ++ tail ∧ tail.IsAscii := by
  have hbare : ∃ tail, l.text = l.bare ++ tail ∧ tail.IsAscii := by
    unfold Line.bare
    by_cases hreturn : l.text.getLast? = some carriageReturn
    · obtain ⟨front, hfront⟩ := List.getLast?_eq_some_iff.1 hreturn
      rw [if_pos hreturn, hfront, List.dropLast_concat]
      exact ⟨[carriageReturn], rfl, by decide⟩
    · rw [if_neg hreturn]
      exact ⟨[], (List.append_nil _).symm, by decide⟩
  obtain ⟨tail, htext, htail⟩ := hbare
  unfold Line.raw
  cases l.closed with
  | false => exact ⟨tail, htext, htail⟩
  | true =>
    have hfeed : Bytes.IsAscii [lineFeed] := by decide
    refine ⟨tail ++ [lineFeed], ?_, List.forall_mem_append.2 ⟨htail, hfeed⟩⟩
    rw [if_pos rfl, htext, List.append_assoc]

theorem HeaderItem.isAscii_label (item : HeaderItem) : item.label.IsAscii := by
  cases item <;> decide

section AsciiBased

variable {d : Decoder} (he : d.encoding ∈ Encoding.asciiBased)
include he

theorem Decoder.DecodesLines.exists_characters {after : Decoder} {lines : List Line}
    {texts : List Bytes} (hdecodes : d.DecodesLines lines texts after) :
    ∃ codes, Characters d.encoding.step (lines.flatMap Line.raw) codes := by
  induction hdecodes with
  | nil d => exact ⟨[], .nil⟩
  | @cons d after line lines text texts htext _ ih =>
    rw [Decoder.after_eq he] at ih
    obtain ⟨codes, hline, -⟩ := Decoder.exists_characters he htext
    obtain ⟨tail, hraw, htail⟩ := line.exists_raw_eq
    obtain ⟨more, hmore⟩ := ih he
    have hend := (Encoding.extendsAscii_step he).characters htail
    rw [List.flatMap_cons, hraw]
    exact ⟨_, (hline.append hend).append hmore⟩

/-- A label that the text of a line begins with is there in the bytes of the line. -/
theorem Line.label_prefix_raw {line : Line} {text : Bytes} {item : HeaderItem}
    (htext : d.decode line.bare = .ok text) (hlabel : item.label <+: text) :
    item.label <+: line.raw := by
  obtain ⟨codes, hline, rfl⟩ := Decoder.exists_characters he htext
  obtain ⟨tail, hraw, -⟩ := line.exists_raw_eq
  have hbare := (Encoding.extendsAscii_step he).prefix_of_text hline item.isAscii_label hlabel
  rw [hraw]
  exact hbare.trans (List.prefix_append _ _)

/-- The bytes of a header are no fewer than those of its labels. -/
theorem length_labels_le {o : ReadOptions} {total : Nat} {items : List HeaderItem}
    {after : Decoder} {lines : List Line} {texts : List Bytes} {h h' : Header}
    (hdecodes : d.DecodesLines lines texts after)
    (hread : Header.readItems o total items texts h = .ok h') :
    (items.flatMap HeaderItem.label).length ≤ (lines.flatMap Line.raw).length := by
  induction items generalizing lines texts h with
  | nil => exact Nat.zero_le _
  | cons item items ih =>
    obtain ⟨text, texts, source, rfl, hlabel, -, hrest⟩ := Header.readItems_cons_eq_ok hread
    cases hdecodes with
    | cons htext hdecodes =>
      rw [Decoder.after_eq he] at hdecodes
      have hline := (Line.label_prefix_raw he htext hlabel).length_le
      have hmore := ih hdecodes hrest
      rw [List.flatMap_cons, List.flatMap_cons, List.length_append, List.length_append]
      omega

end AsciiBased

/-! ## The front of a file -/

namespace Signature

variable {choice : Option Bytes} {d : Decoder}

/-- Text that begins with the signature keeps it however it is cut behind. -/
theorem opens_take (hd : Decoder.ofChoice choice = .ok d) (he : d.encoding ∈ Encoding.asciiBased)
    {s : Bytes} {codes : List Nat} (hs : Characters d.encoding.step s codes)
    (hfront : text <+: s) {k : Nat} (hk : text.length ≤ k) : opens choice (s.take k) = true := by
  have hflaw := (hs.scan_take k).2
  have hcodes : (scan d.encoding.step 0 (s.take k)).codes.take text.length =
      text.map UInt8.toNat := by
    obtain ⟨rest, rfl⟩ := hfront
    have htext := (Encoding.extendsAscii_step he).characters (show text.IsAscii by decide)
    rw [List.take_append, List.take_of_length_le hk, htext.scan_append]
    exact List.take_left' (List.length_map _)
  unfold opens
  rw [hd]
  simp only [Decoder.excerpt, Encoding.decode, Encoding.after_eq he, Encoding.unmarked_eq he,
    hcodes, Utf8.text_map_toNat (show text.IsAscii by decide)]
  simpa using hflaw

/-- A file that holds a record is longer than what is looked at, and is marked as one. -/
theorem marks_of_read {o : ReadOptions} (hd : Decoder.ofChoice o.encoding = .ok d)
    (he : d.encoding ∈ Encoding.asciiBased) {content : Bytes} {r : Record}
    (hread : Record.read o content = .ok r) :
    window ≤ content.length ∧ marks o.encoding content = true := by
  obtain ⟨texts, rest, hblock⟩ := Record.exists_block_of_read hd hread
  obtain ⟨h, -, hheader, -, -⟩ := (Record.read_eq_ok_iff_of_block hd hblock).1 hread
  obtain ⟨-, lines, after, hcut, hdecodes⟩ := hblock
  obtain ⟨h', hitems, -⟩ := bind_eq_ok_iff.1 hheader
  have hlong : window ≤ (lines.flatMap Line.raw).length :=
    Nat.le_trans (by decide +kernel) (length_labels_le he hdecodes hitems)
  have hfront : text <+: lines.flatMap Line.raw := by
    obtain ⟨first, texts', _, rfl, hlabel, -⟩ := Header.readItems_cons_eq_ok hitems
    cases hdecodes with
    | cons htext _ =>
      rw [List.flatMap_cons]
      exact (Line.label_prefix_raw he htext hlabel).trans (List.prefix_append _ _)
  obtain ⟨codes, hcodes⟩ := hdecodes.exists_characters he
  rw [hcut.eq_append, List.length_append]
  refine ⟨by omega, ?_⟩
  unfold marks
  rw [List.take_append_of_le_length hlong]
  exact opens_take hd he hcodes hfront (by decide)

theorem marks_nil (choice : Option Bytes) : marks choice [] = false := by
  show opens choice [] = false
  unfold opens
  cases Decoder.ofChoice choice with
  | error f => rfl
  | ok d =>
    obtain ⟨name, encoding⟩ := d
    cases encoding <;> rfl

end Signature

theorem Source.readWith_eq {α : Type} (f : List Line → Reading α) (content : Bytes) :
    (Source.readWith f { content }).1 = (f content.lines).result := rfl

/-- Looking at a source that is long enough is looking at the front of its content. -/
theorem Source.sniff_eq_marks {content : Bytes} (hlong : Signature.window ≤ content.length)
    (strict : Bool) (choice : Option Bytes) :
    (Source.sniff strict choice { content }).1 = Signature.marks choice content := by
  rw [sniff_fresh, decide_eq_false (Nat.not_lt.2 hlong), Bool.and_false]
  rfl

/-! ## Conversions with and without the check -/

namespace FileSystem

variable {fs : FileSystem} {input content : Bytes}

theorem readRecord_eq (hopens : fs.content? input = some content) (o : ReadOptions) :
    fs.readRecord o input = Record.read o content := by
  unfold readRecord
  rw [hopens]

/-- What is opened is a record by its signature; a directory is none, and has no signature. -/
theorem kindByContent_eq (hopens : fs.content? input = some content) (choice : Option Bytes) :
    fs.kindByContent choice input =
      .ok (if Signature.marks choice content then .record else .unknown) := by
  unfold content? at hopens
  unfold kindByContent status
  cases hfind : fs.find input with
  | missing | nameTooLong =>
    rw [hfind] at hopens
    cases hopens
  | directory =>
    rw [hfind] at hopens
    cases hopens
    rw [Signature.marks_nil]
    rfl
  | file found =>
    rw [hfind] at hopens
    cases hopens
    rfl

end FileSystem

namespace Settings

/-- The same settings with the check switched on or off. -/
def withCheck (s : Settings) (check : Bool) : Settings := { s with checkFormat := check }

variable {s : Settings} {fs : FileSystem} {input content : Bytes}

theorem convert_withCheck_true (hopens : fs.content? input = some content) :
    (s.withCheck true).convert fs input =
      if Signature.marks s.readOptions.encoding content then (s.withCheck false).convert fs input
      else .ok (.error .wrongFormat) := by
  have hkind : fs.kindByContent (s.withCheck true).readOptions.encoding input = _ :=
    FileSystem.kindByContent_eq hopens s.readOptions.encoding
  unfold convert
  rw [hkind]
  cases Signature.marks s.readOptions.encoding content with
  | true => rfl
  | false => rfl

theorem convert_of_read (hopens : fs.content? input = some content) (hsave : s.saveArchive = false)
    {r : Record} (hread : Record.read s.readOptions content = .ok r) :
    (s.withCheck false).convert fs input = .ok (.ok ⟨input, none, r⟩) := by
  have hrecord : fs.readRecord (s.withCheck false).readOptions input = .ok r :=
    (FileSystem.readRecord_eq hopens _).trans hread
  have hsave' : (s.withCheck false).saveArchive = false := hsave
  unfold convert
  rw [hrecord, hsave']
  rfl

theorem convert_of_unread (hopens : fs.content? input = some content) {f : Fault}
    (hread : Record.read s.readOptions content = .error f) :
    (s.withCheck false).convert fs input = .ok (.error (.unreadable f)) := by
  have hrecord : fs.readRecord (s.withCheck false).readOptions input = .error f :=
    (FileSystem.readRecord_eq hopens _).trans hread
  unfold convert
  rw [hrecord]
  rfl

/-- No choice at all is one of UTF-8. -/
def asciiBasedChoices : List (Option Bytes) :=
  [none, some "UTF-8", some "US-ASCII", some "ISO-8859-1"]

theorem encoding_of_choice {choice : Option Bytes} (hchoice : choice ∈ asciiBasedChoices) :
    ∃ d, Decoder.ofChoice choice = .ok d ∧ d.encoding ∈ Encoding.asciiBased := by
  simp only [asciiBasedChoices, List.mem_cons, List.not_mem_nil, or_false] at hchoice
  rcases hchoice with rfl | rfl | rfl | rfl
  · exact ⟨⟨"UTF-8", .utf8⟩, rfl, by decide⟩
  · exact ⟨⟨"UTF-8", .utf8⟩, rfl, by decide⟩
  · exact ⟨⟨"US-ASCII", .ascii⟩, rfl, by decide⟩
  · exact ⟨⟨"ISO-8859-1", .latin1⟩, rfl, by decide⟩

/-- A file that holds a record opens with the signature.  So the check changes nothing for a file
that can be read, and where it does change something the file could not be read.  This holds of
settings that ask for archives too, for which a write that is not refused beforehand is taken to
succeed. -/
theorem check_spares_records {choice : Option Bytes} (hchoice : choice ∈ asciiBasedChoices)
    (splitStation : Bool) (content : Bytes) :
    (∀ r, (Source.readWith (Record.readLines ⟨choice, splitStation⟩) { content }).1 = .ok r →
      ∀ strict, (Source.sniff strict choice { content }).1 = true) ∧
    ∀ (s : Settings) (fs : FileSystem) (input : Bytes),
      s.readOptions = ⟨choice, splitStation⟩ → fs.content? input = some content →
      (∀ c, (s.withCheck false).convert fs input = .ok (.ok c) →
        (s.withCheck true).convert fs input = .ok (.ok c)) ∧
      ((s.withCheck true).convert fs input ≠ (s.withCheck false).convert fs input →
        (s.withCheck true).convert fs input = .ok (.error .wrongFormat) ∧
        ConversionFailure.wrongFormat.message = "not a K-NET ASCII file" ∧
        ∃ f, (s.withCheck false).convert fs input = .ok (.error (.unreadable f)) ∧
          Record.read s.readOptions content = .error f ∧ f.kind ≠ .io) := by
  obtain ⟨d, hd, he⟩ := encoding_of_choice hchoice
  refine ⟨fun r hread strict => ?_, fun s fs input hoptions hopens => ?_⟩
  · rw [Source.readWith_eq, ← Record.read] at hread
    obtain ⟨hlong, hmarks⟩ := Signature.marks_of_read (o := ⟨choice, splitStation⟩) hd he hread
    rw [Source.sniff_eq_marks hlong]
    exact hmarks
  · have hd' : Decoder.ofChoice s.readOptions.encoding = .ok d := by rw [hoptions]; exact hd
    cases hread : Record.read s.readOptions content with
    | ok r =>
      have hsame := convert_withCheck_true (s := s) hopens
      rw [(Signature.marks_of_read hd' he hread).2, if_pos rfl] at hsame
      exact ⟨fun c hc => hsame.trans hc, fun hdiffer => absurd hsame hdiffer⟩
    | error f =>
      have hunchecked := convert_of_unread hopens hread
      refine ⟨fun c hc => ?_, fun hdiffer => ⟨?_, rfl, f, hunchecked, rfl, ?_⟩⟩
      · rw [hunchecked] at hc
        cases hc
      · rw [convert_withCheck_true hopens] at hdiffer ⊢
        split at hdiffer
        · exact absurd rfl hdiffer
        · next hmarks => exact if_neg hmarks
      · exact (Record.kind_of_read hd' hread).2

/-- A file that is converted either way, and one that the check refuses. -/
theorem check_spares_shortFile :
    none ∈ asciiBasedChoices ∧
    (Source.sniff false none { content := Record.shortFile }).1 = true ∧
    (∃ c, (({} : Settings).withCheck false).convert ⟨fun _ => .file Record.shortFile⟩
          "IWTH27.NS" = .ok (.ok c) ∧
      (({} : Settings).withCheck true).convert ⟨fun _ => .file Record.shortFile⟩
          "IWTH27.NS" = .ok (.ok c)) ∧
    (({} : Settings).withCheck true).convert ⟨fun _ => .file "Lat. 38.1"⟩
        "IWTH27.NS" = .ok (.error .wrongFormat) := by
  have hchoice : none ∈ asciiBasedChoices := by decide
  have hshort := check_spares_records hchoice false Record.shortFile
  have hother := check_spares_records hchoice false "Lat. 38.1"
  have hfs : (FileSystem.mk fun _ => .file Record.shortFile).content? "IWTH27.NS" =
      some Record.shortFile := rfl
  have hfs' : (FileSystem.mk fun _ => .file "Lat. 38.1").content? "IWTH27.NS" =
      some "Lat. 38.1" := rfl
  cases hread : Record.read {} Record.shortFile with
  | error f =>
    have hsome := Record.isSome_read_shortFile
    rw [hread] at hsome
    cases hsome
  | ok r =>
    have hconvert := convert_of_read (s := {}) hfs rfl hread
    have hfresh :
        (Source.readWith (Record.readLines {}) { content := Record.shortFile }).1 = .ok r := by
      rw [Source.readWith_eq, ← Record.read, hread]
    refine ⟨hchoice, hshort.1 r hfresh false,
      ⟨_, hconvert, (hshort.2 {} _ _ rfl hfs).1 _ hconvert⟩, ?_⟩
    have hunchecked := convert_of_unread (s := {}) (f := .headerUnclosed 1) hfs' rfl
    have hchecked := convert_withCheck_true (s := {}) hfs'
    refine ((hother.2 {} _ _ rfl hfs').2 ?_).1
    rw [hchecked, if_neg (by decide), hunchecked]
    intro h
    cases h

end Settings
end StrongMotion
