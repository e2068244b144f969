import StrongMotion.Proofs.FormatCheck
import StrongMotion.Proofs.Latin1Text

/-!
# Several bytes, one character

In UTF-16 and UTF-32 a line feed is one byte of a character, with zero bytes before or behind it.
Lines are cut at that byte before they are decoded, so the parts of a character are left at the end
of one line or at the beginning of the next.  No text that is a record in UTF-8 is one in these
encodings (`Record.exists_error_of_wide`).
-/

namespace StrongMotion

/-! ## Units -/

namespace Charset

/-- A character is written in units of so many bytes. -/
def unit : Charset → Nat
  | utf8 | ascii | latin1 => 1
  | utf16 _ => 2
  | utf32 _ => 4

theorem unit_dvd_of_step (charset : Charset) {s : Bytes} {code length : Nat}
    (h : charset.encoding.step s = .char code length) : charset.unit ∣ length := by
  cases charset with
  | utf8 | ascii | latin1 => exact Nat.one_dvd length
  | utf16 order =>
    rcases Utf16.step_eq_char h with ⟨_, _, _, -, rfl, -⟩ | ⟨_, _, _, _, _, -, rfl, -⟩
    · exact Nat.dvd_refl 2
    · exact ⟨2, rfl⟩
  | utf32 order =>
    obtain ⟨_, _, _, _, _, -, rfl, -⟩ := Utf32.step_eq_char h
    exact Nat.dvd_refl 4

theorem unit_dvd_length (charset : Charset) {s : Bytes} {codes : List Nat}
    (h : Characters charset.encoding.step s codes) : charset.unit ∣ s.length := by
  induction h with
  | nil => exact Nat.dvd_zero _
  | cons hchar _ ih =>
    rw [List.length_append]
    exact Nat.dvd_add (charset.unit_dvd_of_step (hchar.step_append [])) ih

/-- Encodings that put the zero bytes of an ASCII character behind it. -/
def littleEndian : List Charset := [utf16 .littleEndian, utf32 .littleEndian]

/-- Encodings that put the zero bytes of an ASCII character before it. -/
def bigEndian : List Charset := [utf16 .bigEndian, utf32 .bigEndian]

theorem mem_of_one_lt_unit {charset : Charset} (hwide : 1 < charset.unit) :
    charset ∈ littleEndian ∨ charset ∈ bigEndian := by
  cases charset with
  | utf8 | ascii | latin1 => exact absurd hwide (Nat.lt_irrefl 1)
  | utf16 order | utf32 order => cases order <;> simp [littleEndian, bigEndian]

theorem characters_encode_of_wide {charset : Charset} (hwide : 1 < charset.unit)
    {codes : List Nat} (hcodes : ∀ code ∈ codes, IsScalar code) :
    Characters charset.encoding.step (codes.flatMap charset.encode) codes := by
  refine charset.characters_encode hcodes fun code hcode => ?_
  cases charset with
  | utf8 | ascii | latin1 => exact absurd hwide (Nat.lt_irrefl 1)
  | utf16 order | utf32 order => exact (hcodes code hcode).1

theorem exists_lineFeed_of_littleEndian {charset : Charset} (hcharset : charset ∈ littleEndian) :
    ∃ pad, charset.encode 10 = Line.lineFeed :: 0 :: pad := by
  simp only [littleEndian, List.mem_cons, List.not_mem_nil, or_false] at hcharset
  rcases hcharset with rfl | rfl
  · exact ⟨[], rfl⟩
  · exact ⟨[0, 0], rfl⟩

theorem exists_lineFeed_of_bigEndian {charset : Charset} (hcharset : charset ∈ bigEndian) :
    ∃ pad : Bytes, charset.encode 10 = pad ++ [Line.lineFeed] ∧
      pad.length + 1 = charset.unit ∧ pad.getLast? = some 0 := by
  simp only [bigEndian, List.mem_cons, List.not_mem_nil, or_false] at hcharset
  rcases hcharset with rfl | rfl
  · exact ⟨[0], rfl, rfl, rfl⟩
  · exact ⟨[0, 0, 0], rfl, rfl, rfl⟩

/-- A character that begins with a zero byte is not one of ASCII, except for the zero itself. -/
theorem code_of_step_zero {charset : Charset} (hcharset : charset ∈ littleEndian) {s : Bytes}
    {code length : Nat} (h : charset.encoding.step (0 :: s) = .char code length) :
    code = 0 ∨ 0x80 ≤ code := by
  simp only [littleEndian, List.mem_cons, List.not_mem_nil, or_false] at hcharset
  rcases hcharset with rfl | rfl
  · rcases Utf16.step_eq_char h with ⟨a, b, rest, hs, -, hcode, -⟩ |
      ⟨_, _, _, _, _, -, -, -, -, hcode⟩
    · obtain rfl : 0 = a := (List.cons.inj hs).1
      rw [ByteOrder.pair, UInt8.toNat_zero] at hcode
      omega
    · omega
  · obtain ⟨a, b, c, d, rest, hs, -, hcode, -⟩ := Utf32.step_eq_char h
    obtain rfl : 0 = a := (List.cons.inj hs).1
    rw [ByteOrder.quad, ByteOrder.pair, ByteOrder.pair, UInt8.toNat_zero] at hcode
    omega

end Charset

/-! ## Zero bytes in a record -/

namespace Record

variable {o : ReadOptions} {d : Decoder} {r : Record}

/-- There is no zero byte among samples. -/
theorem zero_not_mem_of_numbers {rest : Bytes} {xs : List Float}
    (hnumbers : rest.words.map Bytes.float? = xs.map some) : 0 ∉ rest := by
  intro hzero
  obtain ⟨w, hw, hmem⟩ := Bytes.exists_mem_words hzero (by decide)
  obtain ⟨x, hx⟩ := exists_numbers_iff.1 ⟨xs, hnumbers⟩ w hw
  exact absurd (Bytes.isNumberByte_of_float? hx 0 hmem).toNat_bounds.1 (by decide)

/-- A line feed between `x` and `z` closes the last of the lines `before`, and the line behind it is
read as an item. -/
structure ItemBehind (d : Decoder) (x z : Bytes) (before : List Line) (line : Line)
    (item : HeaderItem) : Prop where
  cut_before : Bytes.Cut (x ++ [Line.lineFeed]) before []
  cut_behind : ∃ more rest, Bytes.Cut z (line :: more) rest
  decodes : ∀ l ∈ before, ∃ text, d.decode l.bare = .ok text
  item_eq : HeaderItem.inOrder[before.length]? = some item
  label_prefix : ∃ text, d.decode line.bare = .ok text ∧ item.label <+: text

/-- Where a zero byte follows a line feed in a record, a header line ends and the next one
begins. -/
theorem exists_itemBehind (hd : Decoder.ofChoice o.encoding = .ok d)
    (hafter : ∀ s, d.after s = d) {x z : Bytes}
    (hread : read o (x ++ Line.lineFeed :: 0 :: z) = .ok r) :
    ∃ before line item, ItemBehind d x (0 :: z) before line item := by
  obtain ⟨d', texts, rest, h, xs, hd', ⟨-, lines, after, hcut, hdecodes⟩, hheader, hnumbers, -⟩ :=
    exists_block_of_read_eq_ok hread
  rw [hd, Except.ok.injEq] at hd'
  subst hd'
  have hzero := zero_not_mem_of_numbers hnumbers
  have htexts := hdecodes.map_decode hafter
  obtain ⟨hlength, -, hwrites⟩ := Header.read_eq_ok_iff.1 hheader
  -- Behind the header the zero byte would be part of a sample, so the line feed is in the header.
  rcases hcut.at_lineFeed with ⟨x', rfl⟩ | ⟨before, behind, rfl, hbefore, hbehind⟩
  · exact absurd (by simp) hzero
  cases behind with
  | nil =>
    rw [← show 0 :: z = rest from hbehind.eq_append] at hzero
    exact absurd List.mem_cons_self hzero
  | cons l more =>
    rw [List.map_append, List.map_cons] at htexts
    have hline : (texts.map Except.ok)[before.length]? = some (d.decode l.bare) := by
      rw [← htexts, List.getElem?_append_right (by simp), List.length_map, Nat.sub_self]
      rfl
    rw [List.getElem?_map, Option.map_eq_some_iff] at hline
    obtain ⟨text, htext, hdecode⟩ := hline
    have hlt : before.length < HeaderItem.inOrder.length :=
      Nat.lt_of_lt_of_eq (List.getElem?_eq_some_iff.1 htext).1 hlength
    have hitem := List.getElem?_eq_getElem hlt
    refine ⟨before, l, _, hbefore, ⟨more, rest, hbehind⟩, fun l' hl' => ?_, hitem,
      text, hdecode.symm, (hwrites _ _ text hitem htext).1⟩
    have hmem : d.decode l'.bare ∈ texts.map Except.ok := by
      rw [← htexts]
      exact List.mem_append_left _ (List.mem_map_of_mem hl')
    obtain ⟨t, -, ht⟩ := List.mem_map.1 hmem
    exact ⟨t, ht.symm⟩

/-! ## Low byte first -/

variable {charset : Charset}

/-- A line that a label begins does not begin with the zero byte of a line feed. -/
theorem false_of_zero_line (hcharset : charset ∈ Charset.littleEndian) {s text : Bytes}
    {item : HeaderItem} (hzero : [0] <+: s) (htext : charset.decoder.decode s = .ok text)
    (hlabel : item.label <+: text) : False := by
  obtain ⟨codes, hcodes, rfl⟩ := Charset.decode_eq_ok_iff.1 htext
  have hcode := Utf8.isCode_of_characters _ hcodes
  have hfront := Utf8.prefix_of_text (fun code h => (hcode code h).1) item.isAscii_label hlabel
  obtain ⟨b, label, hitem, hb, hb'⟩ : ∃ (b : UInt8) (label : Bytes), item.label = b :: label ∧
      0 < b.toNat ∧ b.toNat < 0x80 := by
    cases item <;> exact ⟨_, _, rfl, by decide, by decide⟩
  rw [hitem, List.map_cons] at hfront
  cases hcodes with
  | nil => exact absurd hfront (by simp)
  | @cons bytes rest code codes hchar _ =>
    obtain rfl : b.toNat = code := (List.cons_prefix_cons.1 hfront).1
    obtain ⟨more, hs⟩ := hzero
    have hstep := hchar.step_append rest
    rw [← hs, List.singleton_append] at hstep
    have hascii := Charset.code_of_step_zero hcharset hstep
    omega

theorem not_read_of_littleEndian (hcharset : charset ∈ Charset.littleEndian) (split : Bool)
    (before after : List Nat) :
    read (charset.options split) ((before ++ 10 :: after).flatMap charset.encode) ≠ .ok r := by
  intro hread
  obtain ⟨pad, hfeed⟩ := Charset.exists_lineFeed_of_littleEndian hcharset
  rw [List.flatMap_append, List.flatMap_cons, hfeed, List.cons_append, List.cons_append] at hread
  obtain ⟨before, l, item, -, ⟨more, rest, hcut⟩, -, -, text, htext, hlabel⟩ :=
    exists_itemBehind (charset.ofChoice_options split) charset.after_decoder hread
  have hzero : [0] <+: l.bare := hcut.prefix_bare ⟨_, rfl⟩ (by decide) (by decide)
  exact false_of_zero_line hcharset hzero htext hlabel

/-! ## High byte first -/

/-- The codes of the label of the second line. -/
def secondLabel : List Nat := HeaderItem.eventLatitude.label.map UInt8.toNat

theorem isScalar_secondLabel : ∀ code ∈ secondLabel, IsScalar code := by decide

/-- Only the second line begins like this. -/
theorem eq_eventLatitude {s line text : Bytes} {item : HeaderItem}
    (hs : Characters charset.encoding.step s secondLabel) (hfront : s <+: line)
    (htext : charset.decoder.decode line = .ok text) (hlabel : item.label <+: text) :
    item = .eventLatitude := by
  obtain ⟨codes, hcodes, rfl⟩ := Charset.decode_eq_ok_iff.1 htext
  have hcode := Utf8.isCode_of_characters _ hcodes
  have hlabel' := Utf8.prefix_of_text (fun code h => (hcode code h).1) item.isAscii_label hlabel
  obtain ⟨tail, rfl⟩ := hfront
  obtain ⟨b, rfl, -⟩ := hs.exists_append charset.encoding.isLocal_step hcodes
  have hall : ∀ item : HeaderItem, item.label.map UInt8.toNat <+: secondLabel ∨
      secondLabel <+: item.label.map UInt8.toNat → item = .eventLatitude := by
    intro item
    cases item <;> decide
  exact hall item (List.prefix_or_prefix_of_prefix hlabel' (List.prefix_append secondLabel b))

theorem index_eventLatitude {i : Nat} (hi : HeaderItem.inOrder[i]? = some .eventLatitude) :
    i = 1 := by
  have hone : HeaderItem.inOrder[1]? = some .eventLatitude := rfl
  exact (List.getElem?_inj (List.getElem?_eq_some_iff.1 hi).1 Header.nodup_inOrder).1
    (hi.trans hone.symm)

/-- Before a line feed stand the zero bytes that belong to it, so the line does not decode. -/
theorem false_of_padded_line {s pad text : Bytes} {l : Line}
    (hs : charset.unit ∣ s.length) (hunit : pad.length + 1 = charset.unit)
    (hlast : pad.getLast? = some 0) (hline : l.text = s ++ pad)
    (htext : charset.decoder.decode l.bare = .ok text) : False := by
  have hbare : l.bare = s ++ pad := by
    rw [← hline]
    refine Line.bare_eq_text ?_
    rw [hline, List.getLast?_append, hlast, Option.some_or]
    decide
  obtain ⟨codes, hcodes, -⟩ := Charset.decode_eq_ok_iff.1 htext
  have hdvd := charset.unit_dvd_length hcodes
  rw [hbare, List.length_append] at hdvd
  have hpad := (Nat.dvd_add_right hs).1 hdvd
  have hpos : 0 < pad.length := List.length_pos_iff.2 fun hnil => by simp [hnil] at hlast
  have hle := Nat.le_of_dvd hpos hpad
  omega

theorem exists_secondLabel_of_bigEndian (hcharset : charset ∈ Charset.bigEndian) :
    ∃ z : Bytes, secondLabel.flatMap charset.encode = 0 :: z ∧ Line.lineFeed ∉ (0 :: z) ∧
      Line.carriageReturn ∉ (0 :: z) := by
  simp only [Charset.bigEndian, List.mem_cons, List.not_mem_nil, or_false] at hcharset
  rcases hcharset with rfl | rfl
  · exact ⟨_, rfl, by decide, by decide⟩
  · exact ⟨_, rfl, by decide, by decide⟩

theorem not_read_of_bigEndian (hwide : 1 < charset.unit) (hcharset : charset ∈ Charset.bigEndian)
    (split : Bool) {before after : List Nat} (hbefore : ∀ code ∈ before, IsScalar code) :
    read (charset.options split) ((before ++ 10 :: (secondLabel ++ after)).flatMap charset.encode) ≠
      .ok r := by
  intro hread
  obtain ⟨pad, hfeed, hunit, hlast⟩ := Charset.exists_lineFeed_of_bigEndian hcharset
  obtain ⟨z, hsecond, hnofeed, hnoreturn⟩ := exists_secondLabel_of_bigEndian hcharset
  have hcontent : (before ++ 10 :: (secondLabel ++ after)).flatMap charset.encode =
      (before.flatMap charset.encode ++ pad) ++
        Line.lineFeed :: 0 :: (z ++ after.flatMap charset.encode) := by
    rw [List.flatMap_append, List.flatMap_cons, List.flatMap_append, hfeed, hsecond]
    simp
  rw [hcontent] at hread
  obtain ⟨lines, l, item, hlines, ⟨more, rest, hcut⟩, hdecodes, hitem, text, htext, hlabel⟩ :=
    exists_itemBehind (charset.ofChoice_options split) charset.after_decoder hread
  -- The line behind the line feed begins with the second label, so the one before it is the first.
  have hfront : secondLabel.flatMap charset.encode <+: l.bare := by
    rw [hsecond]
    exact hcut.prefix_bare ⟨_, rfl⟩ hnofeed hnoreturn
  have hone : lines.length = 1 := by
    have hlabel' := Charset.characters_encode_of_wide hwide isScalar_secondLabel
    obtain rfl := eq_eventLatitude hlabel' hfront htext hlabel
    exact index_eventLatitude hitem
  obtain ⟨first, rfl⟩ := List.length_eq_one_iff.1 hone
  obtain ⟨text', htext'⟩ := hdecodes first (List.mem_singleton_self first)
  have hdvd := charset.unit_dvd_length (Charset.characters_encode_of_wide hwide hbefore)
  exact false_of_padded_line hdvd hunit hlast hlines.text_of_singleton htext'

/-! ## Every encoding -/

theorem cut_two_lines {content rest : Bytes} {first second : Line} {more : List Line}
    (hcut : Bytes.Cut content (first :: second :: more) rest) (hsecond : second.raw ≠ []) :
    ∃ s, content = first.text ++ Line.lineFeed :: (second.raw ++ s) := by
  cases hcut with
  | cons hfirst hcut =>
    cases hcut with
    | @cons _ s _ _ _ _ =>
      have hclosed : first.closed = true :=
        hfirst.ends.resolve_right fun h => hsecond (List.append_eq_nil_iff.1 h.2).1
      refine ⟨s, ?_⟩
      rw [Bytes.raw_of_closed hclosed]
      simp

/-- A record in UTF-8 has a second line, with a label at its front. -/
theorem exists_second_line {split : Bool} {codes : List Nat}
    (hcodes : ∀ code ∈ codes, Utf8.IsCode code)
    (hread : read (Charset.utf8.options split) (Utf8.text codes) = .ok r) :
    ∃ before after, codes = before ++ 10 :: (secondLabel ++ after) := by
  obtain ⟨d, texts, rest, h, xs, hd, ⟨-, lines, _, hcut, hdecodes⟩, hheader, -, -⟩ :=
    exists_block_of_read_eq_ok hread
  rw [Charset.ofChoice_options, Except.ok.injEq] at hd
  subst hd
  obtain ⟨hlength, -, hwrites⟩ := Header.read_eq_ok_iff.1 hheader
  match texts, hlength with
  | first :: second :: more, _ =>
  cases hdecodes with
  | @cons _ _ firstLine _ _ _ _ hdecodes =>
  cases hdecodes with
  | @cons _ _ secondLine _ _ _ htext _ =>
  rw [Charset.after_decoder] at htext
  have hlabel : HeaderItem.eventLatitude.label <+: secondLine.raw :=
    Line.label_prefix_raw (by decide) htext (hwrites 1 .eventLatitude second rfl rfl).1
  have hne : secondLine.raw ≠ [] := fun hnil => by
    rw [hnil] at hlabel
    exact absurd (List.prefix_nil.1 hlabel) (by decide)
  obtain ⟨s, hcontent⟩ := cut_two_lines hcut hne
  have hboundary : ∀ b, (Line.lineFeed :: (secondLine.raw ++ s)).head? = some b →
      Utf8.isContinuation b = false := by
    intro b hb
    obtain rfl : Line.lineFeed = b := Option.some.inj hb
    decide
  obtain ⟨before, behind, rfl, -, hbehind⟩ :=
    Utf8.exists_append_of_text_eq hcodes hboundary hcontent
  have hfront : Line.lineFeed :: HeaderItem.eventLatitude.label <+: Utf8.text behind := by
    rw [← hbehind]
    exact (List.prefix_cons_inj _).2 (hlabel.trans (List.prefix_append _ _))
  obtain ⟨after, hafter⟩ := Utf8.prefix_of_text
    (fun code hcode => (hcodes code (List.mem_append_right _ hcode)).1) (by decide) hfront
  exact ⟨before, after, by rw [← hafter]; rfl⟩

/-- No text that is a record in UTF-8 is a record in an encoding of several bytes a character. -/
theorem exists_error_of_wide (hwide : 1 < charset.unit) {split : Bool} {text : List Char}
    (hread : read (Charset.utf8.options split) (Charset.utf8.write text) = .ok r) :
    ∃ f, read (charset.options split) (charset.write text) = .error f := by
  have hscalar : ∀ code ∈ text.map Char.toNat, IsScalar code := Charset.isScalar_of_mem_map
  rw [Charset.write_eq] at hread
  obtain ⟨before, after, hcodes⟩ :=
    exists_second_line (fun code hcode => (hscalar code hcode).isCode) hread
  rw [hcodes] at hscalar
  cases hresult : read (charset.options split) (charset.write text) with
  | error f => exact ⟨f, rfl⟩
  | ok r' =>
    rw [Charset.write_eq, hcodes] at hresult
    rcases Charset.mem_of_one_lt_unit hwide with hcharset | hcharset
    · exact absurd hresult (not_read_of_littleEndian hcharset split before _)
    · exact absurd hresult (not_read_of_bigEndian hwide hcharset split
        fun code hcode => hscalar code (List.mem_append_left _ hcode))

/-- A text that is a record in UTF-8 is the same record in every encoding of single bytes that has
its characters, and no record in an encoding whose units are two or four bytes. -/
theorem read_write {split : Bool} {text : List Char} (htext : charset.Has text)
    (hread : read (Charset.utf8.options split) (Charset.utf8.write text) = .ok r) :
    (charset.unit = 1 → read (charset.options split) (charset.write text) = .ok r) ∧
    (1 < charset.unit → ∃ f, read (charset.options split) (charset.write text) = .error f) := by
  refine ⟨fun hunit => ?_, fun hwide => exists_error_of_wide hwide hread⟩
  cases charset with
  | utf8 => exact hread
  | ascii => exact (read_write_of_oneByte (by decide) split htext).1 hread
  | latin1 => exact (read_write_of_oneByte (by decide) split htext).1 hread
  | utf16 order => cases hunit
  | utf32 order => cases hunit

/-- The characters of the short file. -/
def shortText : List Char := shortFile.map fun b => Char.ofNat b.toNat

theorem has_shortText (hlimit : 0x100 ≤ charset.limit) : charset.Has shortText := by
  intro c hc
  obtain ⟨b, -, rfl⟩ := List.mem_map.1 hc
  have hall : ∀ n < 256, (Char.ofNat n).toNat < 0x100 := by decide +kernel
  exact Nat.lt_of_lt_of_le (hall b.toNat b.toNat_lt) hlimit

theorem exists_read_shortText :
    ∃ r, read (Charset.utf8.options true) (Charset.utf8.write shortText) = .ok r := by
  have hsome : (read (Charset.utf8.options true)
      (Charset.utf8.write shortText)).toOption.isSome = true := by decide +kernel
  cases hread : read (Charset.utf8.options true) (Charset.utf8.write shortText) with
  | ok r => exact ⟨r, rfl⟩
  | error f =>
    rw [hread] at hsome
    cases hsome

theorem read_write_shortText :
    Charset.latin1.Has shortText ∧
      ∃ r, read (Charset.utf8.options true) (Charset.utf8.write shortText) = .ok r ∧
        read (Charset.latin1.options true) (Charset.latin1.write shortText) = .ok r := by
  have hhas : Charset.latin1.Has shortText := has_shortText (by decide)
  obtain ⟨r, hread⟩ := exists_read_shortText
  exact ⟨hhas, r, hread, (read_write hhas hread).1 rfl⟩

/-- The same text is no record in UTF-16. -/
theorem not_read_write_shortText :
    (Charset.utf16 .littleEndian).Has shortText ∧
      (∃ r, read (Charset.utf8.options true) (Charset.utf8.write shortText) = .ok r) ∧
        ∃ f, read ((Charset.utf16 .littleEndian).options true)
          ((Charset.utf16 .littleEndian).write shortText) = .error f := by
  obtain ⟨r, hread⟩ := exists_read_shortText
  exact ⟨has_shortText (by decide), ⟨r, hread⟩, exists_error_of_wide (by decide) hread⟩

end Record
end StrongMotion
