import Mathlib.Algebra.Group.Int.Defs
import StrongMotion.Proofs.FieldValues
import StrongMotion.Proofs.HeaderTimes
import StrongMotion.Proofs.WholeNumbers

/-!
# What holds of every record

A record is written in a file by words, and each field of its header keeps something of that.  The
names of archives, the reports and the times of samples rely on these properties
(`Record.fields_of_read`).
-/

namespace StrongMotion
namespace HeaderItem

variable (o : ReadOptions) {line : Bytes} {h : Header}

theorem station_of_writes (hwrites : stationCode.Writes o line.words h) :
    ∃ w, line.words[2]? = some w ∧
      StationId.Names o.splitStation w ⟨h.station.code, h.station.location⟩ := by
  obtain ⟨w, hw, hread⟩ := hwrites
  exact ⟨w, hw, StationId.names_of_read (Bytes.isWord_of_getElem? hw).ne_nil hread⟩

theorem channel_of_writes (hwrites : direction.Writes o line.words h) :
    dash ∉ h.recording.channel ∧ (∀ b ∈ h.recording.channel, Byte.isBlank b = false) ∧
      h.recording.channel ∉ boreholeNumbers := by
  obtain ⟨w, hw, hchannel⟩ := hwrites
  rw [hchannel]
  exact ⟨dash_not_mem_channelCode w, isBlank_of_mem_channelCode (Bytes.isWord_of_getElem? hw),
    channelCode_not_mem_boreholeNumbers w⟩

theorem rate_of_writes (hwrites : samplingRate.Writes o line.words h) :
    0 ≤ h.recording.rate ∧ h.recording.rate ≤ 2147483647 := by
  obtain ⟨w, -, hrate⟩ := hwrites
  obtain ⟨digits, -, -, hvalue, hle⟩ := Bytes.int32?_takeDigits_eq_some_iff.1 hrate
  exact ⟨by omega, by omega⟩

theorem comment_of_writes (hwrites : memo.Writes o line.words h) {comment : Bytes}
    (hcomment : h.recording.comment = some comment) : comment.IsSpaced := by
  have hwrites' : h.recording.comment = if line.words.length ≤ 1 then none
      else some (Bytes.join " " (line.words.drop 1)) := hwrites
  rw [hcomment] at hwrites'
  split at hwrites'
  · cases hwrites'
  · next hlong =>
    obtain rfl := Option.some.inj hwrites'
    refine Bytes.isSpaced_join (fun hnil => hlong (List.drop_eq_nil_iff.1 hnil)) fun w hw => ?_
    exact Bytes.isWord_of_mem_words (List.mem_of_mem_drop hw)

theorem origin_of_writes (hwrites : originTime.Writes o line.words h) :
    h.event.origin.IsWholeSecond := by
  obtain ⟨t, ht, horigin⟩ := hwrites
  rw [horigin]
  exact Instant.isWholeSecond_ofJapanTime ht.near_and_whole.1 ht.near_and_whole.2

theorem start_of_writes (hwrites : recordTime.Writes o line.words h) :
    h.recording.start.IsWholeSecond := by
  obtain ⟨t, ht, hstart⟩ := hwrites
  rw [hstart]
  exact Instant.isWholeSecond_beforeTrigger_ofJapanTime ht.near_and_whole.1 ht.near_and_whole.2

theorem lastCorrection_of_writes (hwrites : lastCorrection.Writes o line.words h) :
    h.recording.lastCorrection.IsWholeSecond := by
  obtain ⟨t, ht, hcorrection⟩ := hwrites
  rw [hcorrection]
  exact Instant.isWholeSecond_ofJapanTime ht.near_and_whole.1 ht.near_and_whole.2

end HeaderItem

namespace Record

/-- What every record that is read satisfies, whatever stands in its file. -/
theorem fields_of_read {o : ReadOptions} {content : Bytes} {r : Record}
    (hread : read o content = .ok r) :
    (r.sampleCount = r.samples.length ∧ r.header.station.network = "BO") ∧
    (∃ (d : Decoder) (texts : List Bytes) (rest : Bytes) (i : Nat) (line w : Bytes),
      Decoder.ofChoice o.encoding = .ok d ∧ HeaderText.Block d content texts rest ∧
      HeaderItem.inOrder[i]? = some .stationCode ∧ texts[i]? = some line ∧
      line.words[2]? = some w ∧
      r.header.station.code ++ r.header.station.location = w ∧
      (1 ≤ r.header.station.code.length ∧ r.header.station.code.length ≤ 7) ∧
      (r.header.station.location.length = 0 ∨ r.header.station.location.length = 2) ∧
      (r.header.station.location.length = 2 ↔ o.splitStation = true ∧ 5 < w.length)) ∧
    ('-'.toUInt8 ∉ r.header.recording.channel ∧
      (∀ b ∈ r.header.recording.channel, Byte.isBlank b = false) ∧
      r.header.recording.channel ∉ (["1", "2", "3", "4", "5", "6"] : List Bytes)) ∧
    (0 ≤ r.header.recording.rate ∧ r.header.recording.rate ≤ 2 ^ 31 - 1) ∧
    (∀ comment, r.header.recording.comment = some comment → comment.IsSpaced) ∧
    r.header.event.origin.IsWholeSecond ∧ r.header.recording.start.IsWholeSecond ∧
      r.header.recording.lastCorrection.IsWholeSecond := by
  obtain ⟨d, texts, rest, h, xs, hd, hblock, hheader, -, rfl⟩ := exists_block_of_read_eq_ok hread
  have hline := Header.exists_line_of_read hheader
  refine ⟨⟨rfl, rfl⟩, ?_, ?_, ?_, ?_, ?_, ?_, ?_⟩
  · obtain ⟨i, line, hi, hline, -, hwrites⟩ := hline .stationCode
    obtain ⟨w, hw, hnames⟩ := HeaderItem.station_of_writes o hwrites
    refine ⟨d, texts, rest, i, line, w, hd, hblock, hi, hline, hw, hnames.append_eq,
      ⟨List.length_pos_iff.2 hnames.code_ne_nil, hnames.length_code_le⟩, ?_⟩
    have hlocation : (assemble h xs).header.station.location.length =
        if o.splitStation = true ∧ 5 < w.length then 2 else 0 := hnames.length_location
    rw [hlocation]
    split
    · next hsplit => exact ⟨Or.inr rfl, fun _ => hsplit, fun _ => rfl⟩
    · next hsplit => exact ⟨Or.inl rfl, fun h => absurd h (by decide), fun h => absurd h hsplit⟩
  · obtain ⟨i, line, -, -, -, hwrites⟩ := hline .direction
    exact HeaderItem.channel_of_writes o hwrites
  · obtain ⟨i, line, -, -, -, hwrites⟩ := hline .samplingRate
    exact HeaderItem.rate_of_writes o hwrites
  · obtain ⟨i, line, -, -, -, hwrites⟩ := hline .memo
    exact fun comment hcomment => HeaderItem.comment_of_writes o hwrites hcomment
  · obtain ⟨i, line, -, -, -, hwrites⟩ := hline .originTime
    exact HeaderItem.origin_of_writes o hwrites
  · obtain ⟨i, line, -, -, -, hwrites⟩ := hline .recordTime
    exact HeaderItem.start_of_writes o hwrites
  · obtain ⟨i, line, -, -, -, hwrites⟩ := hline .lastCorrection
    exact HeaderItem.lastCorrection_of_writes o hwrites

theorem fields_of_read_shortFile :
    ∃ r, read {} shortFile = .ok r ∧ r.sampleCount = r.samples.length ∧
      1 ≤ r.header.station.code.length ∧ r.header.recording.start.toMillis % 1000 = 0 := by
  obtain ⟨r, hread⟩ := exists_read_shortFile
  obtain ⟨⟨hcount, -⟩, ⟨_, _, _, _, _, _, -, -, -, -, -, -, ⟨hcode, -⟩, -⟩, -, -, -, -,
    hstart, -⟩ := fields_of_read hread
  exact ⟨r, hread, hcount, hcode, hstart⟩

end Record
end StrongMotion
