import StrongMotion.Proofs.FieldValues
import StrongMotion.Proofs.RecordReading
import StrongMotion.Proofs.TrimmedTexts
import StrongMotion.Proofs.Utf8Text

/-!
# The characters of header fields

A decoded line is well-formed UTF-8, and so is all that is cut from it at blanks or made of such
parts with ASCII between them.  The one rule that cuts anywhere else is that for station codes: it
moves the last two bytes of a long name, which need not be whole characters.  The parts of a name
are well-formed exactly when the second does not begin within a character
(`Record.texts_of_read`).
-/

namespace StrongMotion
namespace Utf8

/-- A decoder for UTF-8 gives the text back as it is. -/
def WellFormed (s : Bytes) : Prop := Decoder.decode ⟨"UTF-8", .utf8⟩ s = .ok s

instance (s : Bytes) : Decidable (WellFormed s) :=
  inferInstanceAs (Decidable (Decoder.decode ⟨"UTF-8", .utf8⟩ s = .ok s))

/-- The text does not begin within a character. -/
def AtCharacter (s : Bytes) : Prop := ∀ b, s.head? = some b → isContinuation b = false

theorem wellFormed_text {codes : List Nat} (hcodes : ∀ code ∈ codes, IsCode code) :
    WellFormed (text codes) :=
  Decoder.decode_eq_ok_iff.2 ⟨codes, characters_text hcodes, rfl⟩

theorem wellFormed_iff {s : Bytes} :
    WellFormed s ↔ ∃ codes, (∀ code ∈ codes, IsCode code) ∧ s = text codes := by
  constructor
  · intro hs
    obtain ⟨codes, hcodes, htext⟩ := Decoder.decode_eq_ok_iff.1 hs
    exact ⟨codes, isCode_of_characters .utf8 hcodes, htext⟩
  · intro ⟨codes, hcodes, hs⟩
    rw [hs]
    exact wellFormed_text hcodes

theorem wellFormed_of_decode {d : Decoder} {s text : Bytes} (htext : d.decode s = .ok text) :
    WellFormed text := by
  obtain ⟨codes, hcodes, rfl⟩ := Decoder.decode_eq_ok_iff.1 htext
  exact wellFormed_text (isCode_of_characters _ hcodes)

theorem wellFormed_of_isAscii {s : Bytes} (hs : s.IsAscii) : WellFormed s := by
  rw [← text_map_toNat hs]
  refine wellFormed_text fun code hcode => ?_
  obtain ⟨b, hb, rfl⟩ := List.mem_map.1 hcode
  exact isCode_of_lt (Nat.lt_trans (hs b hb) (by decide))

theorem WellFormed.append {s t : Bytes} (hs : WellFormed s) (ht : WellFormed t) :
    WellFormed (s ++ t) := by
  obtain ⟨a, ha, rfl⟩ := wellFormed_iff.1 hs
  obtain ⟨b, hb, rfl⟩ := wellFormed_iff.1 ht
  rw [← text_append]
  exact wellFormed_text (List.forall_mem_append.2 ⟨ha, hb⟩)

/-! ## Cutting a text -/

theorem WellFormed.characters {s : Bytes} (hs : WellFormed s) :
    ∃ codes, Characters step s codes := by
  obtain ⟨codes, hcodes, rfl⟩ := wellFormed_iff.1 hs
  exact ⟨codes, characters_text hcodes⟩

theorem WellFormed.atCharacter {s : Bytes} (hs : WellFormed s) : AtCharacter s := by
  obtain ⟨codes, hcodes⟩ := hs.characters
  exact isContinuation_of_characters hcodes

theorem WellFormed.of_atCharacter {s t : Bytes} (hst : WellFormed (s ++ t))
    (ht : AtCharacter t) : WellFormed s ∧ WellFormed t := by
  obtain ⟨codes, hcodes, htext⟩ := wellFormed_iff.1 hst
  obtain ⟨a, b, rfl, rfl, rfl⟩ := exists_append_of_text_eq hcodes ht htext.symm
  obtain ⟨ha, hb⟩ := List.forall_mem_append.1 hcodes
  exact ⟨wellFormed_text ha, wellFormed_text hb⟩

/-- What stands behind characters at the front of a text is made of characters too. -/
theorem WellFormed.of_append_left {s t : Bytes} (hst : WellFormed (s ++ t)) (hs : WellFormed s) :
    WellFormed t := by
  obtain ⟨codes, hcodes⟩ := hst.characters
  obtain ⟨a, ha⟩ := hs.characters
  obtain ⟨b, -, hb⟩ := ha.exists_append isLocal_step hcodes
  exact (hst.of_atCharacter (isContinuation_of_characters hb)).2

/-- Both parts of a text are well-formed, or neither is. -/
theorem WellFormed.parts_iff {s t : Bytes} (hst : WellFormed (s ++ t)) :
    (WellFormed s ↔ WellFormed t) ∧ (WellFormed t ↔ AtCharacter t) :=
  ⟨⟨hst.of_append_left, fun ht => (hst.of_atCharacter ht.atCharacter).1⟩,
    WellFormed.atCharacter, fun ht => (hst.of_atCharacter ht).2⟩

theorem atCharacter_cons {b : UInt8} (hb : b.toNat < 0x80) (t : Bytes) : AtCharacter (b :: t) := by
  intro c hc
  obtain rfl : b = c := Option.some.inj hc
  rw [Bool.eq_false_iff, ne_eq, isContinuation_iff]
  omega

theorem wellFormed_singleton {b : UInt8} (hb : b.toNat < 0x80) : WellFormed [b] :=
  wellFormed_of_isAscii (by simpa [Bytes.IsAscii] using hb)

/-- An ASCII byte parts a text. -/
theorem WellFormed.around {s t : Bytes} {b : UInt8} (hb : b.toNat < 0x80)
    (h : WellFormed (s ++ b :: t)) : WellFormed s ∧ WellFormed t := by
  obtain ⟨hs, hbt⟩ := h.of_atCharacter (atCharacter_cons hb t)
  exact ⟨hs, WellFormed.of_append_left (s := [b]) hbt (wellFormed_singleton hb)⟩

/-! ## Words, and texts made of words -/

theorem WellFormed.of_mem_wordsFrom (begun : Bytes) {s w : Bytes}
    (hs : WellFormed (begun.reverse ++ s)) (hw : w ∈ Bytes.wordsFrom begun s) : WellFormed w := by
  induction s generalizing begun with
  | nil =>
    rw [Bytes.wordsFrom] at hw
    split at hw
    · cases hw
    · rw [List.mem_singleton.1 hw]
      rw [List.append_nil] at hs
      exact hs
  | cons b s ih =>
    rw [Bytes.wordsFrom] at hw
    split at hw
    · next hb =>
      obtain ⟨hbegun, hrest⟩ := hs.around (Byte.toNat_lt_of_isBlank hb)
      split at hw
      · exact ih [] hrest hw
      · rcases List.mem_cons.1 hw with rfl | hw
        · exact hbegun
        · exact ih [] hrest hw
    · exact ih (b :: begun) (by simpa using hs) hw

theorem WellFormed.of_mem_words {s w : Bytes} (hs : WellFormed s) (hw : w ∈ Bytes.words s) :
    WellFormed w :=
  WellFormed.of_mem_wordsFrom [] hs hw

/-- Leaving out ASCII bytes leaves characters whole. -/
theorem WellFormed.filter {s : Bytes} (hs : WellFormed s) {p : UInt8 → Bool}
    (hp : ∀ b : UInt8, 0x80 ≤ b.toNat → p b = true) : WellFormed (s.filter p) := by
  obtain ⟨codes, hcodes, rfl⟩ := wellFormed_iff.1 hs
  clear hs
  induction codes with
  | nil => exact wellFormed_of_isAscii (by simp [Bytes.IsAscii, text])
  | cons code codes ih =>
    obtain ⟨hcode, hrest⟩ := List.forall_mem_cons.1 hcodes
    have htext : text (code :: codes) = encode code ++ text codes := rfl
    rw [htext, List.filter_append]
    refine WellFormed.append ?_ (ih hrest)
    by_cases hascii : code < 0x80
    · refine wellFormed_of_isAscii fun b hb => ?_
      rw [encode_of_lt hascii] at hb
      rw [List.mem_singleton.1 (List.mem_of_mem_filter hb), UInt8.toNat_ofNat']
      omega
    · have hkept := List.filter_eq_self.2 fun b hb =>
        hp b (le_toNat_of_mem_encode (Nat.le_of_not_lt hascii) hcode.1 b hb)
      rw [hkept]
      have hform : WellFormed (text [code]) := wellFormed_text (by simpa using hcode)
      simpa [text] using hform

theorem wellFormed_join {separator : Bytes} (hseparator : WellFormed separator)
    {words : List Bytes} (hwords : ∀ w ∈ words, WellFormed w) :
    WellFormed (Bytes.join separator words) := by
  induction words with
  | nil => exact wellFormed_of_isAscii (by simp [Bytes.IsAscii, Bytes.join])
  | cons w rest ih =>
    obtain ⟨hw, hrest⟩ := List.forall_mem_cons.1 hwords
    cases rest with
    | nil =>
      rw [Bytes.join_singleton]
      exact hw
    | cons w' rest =>
      rw [Bytes.join_cons_cons]
      exact (hw.append hseparator).append (ih hrest)

end Utf8

open Utf8

theorem wellFormed_channelCode {direction : Bytes} (hword : direction.IsWord)
    (hdirection : WellFormed direction) : WellFormed (channelCode direction) := by
  have htable : ∀ channel ∈ boreholeChannels, channel.2.IsAscii := by decide
  rcases channelCode_cases direction with ⟨number, hmem⟩ | ⟨heq, -⟩
  · exact wellFormed_of_isAscii (htable _ hmem)
  · have hblank : ∀ b ∈ direction.filter (· ≠ dash), Byte.isBlank b = false := fun b hb =>
      hword.isBlank_of_mem b (List.mem_of_mem_filter hb)
    rw [heq, Bytes.trim_eq_self hblank]
    refine hdirection.filter fun b hb => ?_
    rw [decide_eq_true_eq]
    rintro rfl
    exact absurd hb (by decide)

theorem Decoder.DecodesLines.wellFormed {d after : Decoder} {lines : List Line}
    {texts : List Bytes} (h : d.DecodesLines lines texts after) : ∀ t ∈ texts, WellFormed t := by
  induction h with
  | nil d => simp
  | cons htext _ ih => exact List.forall_mem_cons.2 ⟨wellFormed_of_decode htext, ih⟩

namespace HeaderItem

variable (o : ReadOptions) {line : Bytes} {h : Header}

theorem wellFormed_channel_of_writes (hline : WellFormed line)
    (hwrites : direction.Writes o line.words h) : WellFormed h.recording.channel := by
  obtain ⟨w, hw, hchannel⟩ := hwrites
  rw [hchannel]
  exact wellFormed_channelCode (Bytes.isWord_of_getElem? hw)
    (hline.of_mem_words (List.mem_of_getElem? hw))

theorem wellFormed_comment_of_writes (hline : WellFormed line)
    (hwrites : memo.Writes o line.words h) {comment : Bytes}
    (hcomment : h.recording.comment = some comment) : WellFormed comment := by
  have hwrites' : h.recording.comment = if line.words.length ≤ 1 then none
      else some (Bytes.join " " (line.words.drop 1)) := hwrites
  rw [hcomment] at hwrites'
  split at hwrites'
  · cases hwrites'
  · obtain rfl := Option.some.inj hwrites'
    exact wellFormed_join (by decide) fun w hw => hline.of_mem_words (List.mem_of_mem_drop hw)

/-- The parts of a name are a well-formed text when they are together. -/
theorem wellFormed_station_of_writes (hline : WellFormed line)
    (hwrites : stationCode.Writes o line.words h) :
    WellFormed (h.station.code ++ h.station.location) ∧
      (o.splitStation = false → h.station.location = []) := by
  obtain ⟨w, hw, hread⟩ := hwrites
  have hnames := StationId.names_of_read (Bytes.isWord_of_getElem? hw).ne_nil hread
  refine ⟨?_, fun hsplit => ?_⟩
  · have happend : h.station.code ++ h.station.location = w := hnames.append_eq
    rw [happend]
    exact hline.of_mem_words (List.mem_of_getElem? hw)
  · have hlength := hnames.length_location
    rw [hsplit, if_neg (by simp)] at hlength
    exact List.length_eq_zero_iff.1 hlength

end HeaderItem

namespace Record

variable {o : ReadOptions} {content : Bytes} {r : Record}

theorem exists_line_of_read_eq_ok (hread : read o content = .ok r) (item : HeaderItem) :
    ∃ line, WellFormed line ∧ ∃ h xs, item.Writes o line.words h ∧ r = assemble h xs := by
  obtain ⟨d, texts, rest, h, xs, -, ⟨-, lines, after, -, hdecodes⟩, hheader, -, hr⟩ :=
    exists_block_of_read_eq_ok hread
  obtain ⟨i, line, -, hi, -, hwrites⟩ := Header.exists_line_of_read hheader item
  exact ⟨line, hdecodes.wellFormed line (List.mem_of_getElem? hi), h, xs, hwrites, hr⟩

theorem wellFormed_name_of_read (hread : read o content = .ok r) :
    WellFormed (r.header.station.code ++ r.header.station.location) := by
  obtain ⟨line, hline, h, xs, hwrites, rfl⟩ := exists_line_of_read_eq_ok hread .stationCode
  exact (HeaderItem.wellFormed_station_of_writes o hline hwrites).1

/-- The channel and the comment of a record are well-formed UTF-8, and so is the station code with
the location behind it.  Each of these two is well-formed by itself exactly when the location does
not begin within a character. -/
theorem texts_of_read (hread : read o content = .ok r) :
    WellFormed r.header.recording.channel ∧
    (∀ comment, r.header.recording.comment = some comment → WellFormed comment) ∧
    WellFormed (r.header.station.code ++ r.header.station.location) ∧
    (WellFormed r.header.station.code ↔ WellFormed r.header.station.location) ∧
    (WellFormed r.header.station.location ↔
      ∀ b, r.header.station.location.head? = some b → isContinuation b = false) ∧
    (o.splitStation = false → WellFormed r.header.station.code) := by
  have hname := wellFormed_name_of_read hread
  refine ⟨?_, ?_, hname, hname.parts_iff.1, hname.parts_iff.2, fun hsplit => ?_⟩
  · obtain ⟨line, hline, h, xs, hwrites, rfl⟩ := exists_line_of_read_eq_ok hread .direction
    exact HeaderItem.wellFormed_channel_of_writes o hline hwrites
  · obtain ⟨line, hline, h, xs, hwrites, rfl⟩ := exists_line_of_read_eq_ok hread .memo
    exact fun comment hcomment => HeaderItem.wellFormed_comment_of_writes o hline hwrites hcomment
  · obtain ⟨line, hline, h, xs, hwrites, rfl⟩ := exists_line_of_read_eq_ok hread .stationCode
    have hlocation : (assemble h xs).header.station.location = [] :=
      (HeaderItem.wellFormed_station_of_writes o hline hwrites).2 hsplit
    rw [hlocation, List.append_nil] at hname
    exact hname

/-- The short file with a station name that has an accented letter before its last letter. -/
def accentedFile : Bytes :=
  shortFile.lines.flatMap fun l =>
    if HeaderItem.stationCode.label.isPrefixOf l.text then "Station Code ABCDéF\n" else l.raw

/-- That file with a comment of two characters, which have three bytes each. -/
def commentedFile : Bytes :=
  accentedFile.lines.flatMap fun l =>
    if HeaderItem.memo.label.isPrefixOf l.text then "Memo. 地震\n" else l.raw

theorem exists_read_commentedFile :
    ∃ r, read {} commentedFile = .ok r ∧ r.header.station.code = "ABCDéF" ∧
      r.header.recording.comment = some (Bytes.ofString "地震") := by
  have htexts : (read {} commentedFile).toOption.map
      (fun r => (r.header.station.code, r.header.recording.comment)) =
        some (Bytes.ofString "ABCDéF", some (Bytes.ofString "地震")) := by decide +kernel
  cases hread : read {} commentedFile with
  | error f =>
    rw [hread] at htexts
    cases htexts
  | ok r =>
    rw [hread] at htexts
    obtain ⟨hcode, hcomment⟩ := Prod.mk.inj (Option.some.inj htexts)
    exact ⟨r, rfl, hcode, hcomment⟩

theorem texts_of_read_commentedFile :
    ∃ r, read {} commentedFile = .ok r ∧ r.header.station.code = "ABCDéF" ∧
      r.header.recording.comment = some (Bytes.ofString "地震") ∧
      WellFormed "ABCDéF" ∧ WellFormed "地震" := by
  obtain ⟨r, hread, hcode, hcomment⟩ := exists_read_commentedFile
  obtain ⟨-, hcomments, -, -, -, hunsplit⟩ := texts_of_read hread
  exact ⟨r, hread, hcode, hcomment, hcode ▸ hunsplit rfl, hcomments _ hcomment⟩

/-- Splitting the name of this station splits the letter. -/
theorem texts_of_read_accentedFile :
    ∃ r, read { splitStation := true } accentedFile = .ok r ∧
      ¬WellFormed r.header.station.code ∧ ¬WellFormed r.header.station.location := by
  have hsplit : (read { splitStation := true } accentedFile).toOption.map
      (fun r => r.header.station.location) = some [0xA9, 'F'.toUInt8] := by decide +kernel
  cases hread : read { splitStation := true } accentedFile with
  | error f =>
    rw [hread] at hsplit
    cases hsplit
  | ok r =>
    rw [hread] at hsplit
    have hlocation : r.header.station.location = [0xA9, 'F'.toUInt8] := Option.some.inj hsplit
    have hbroken : ¬WellFormed r.header.station.location := by
      rw [hlocation]
      decide
    exact ⟨r, rfl, fun hcode => hbroken ((wellFormed_name_of_read hread).parts_iff.1.1 hcode),
      hbroken⟩

end Record
end StrongMotion
