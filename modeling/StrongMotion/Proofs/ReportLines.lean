import Mathlib.Data.List.Forall2
import StrongMotion.Proofs.Decimals
import StrongMotion.Proofs.FieldTexts
import StrongMotion.Proofs.RecordInvariants
import StrongMotion.Proofs.TimeStamps
import StrongMotion.Proofs.WordPlaces
import StrongMotion.Report

/-!
# The lines of a report

Every line of a report is a caption and a value.  The numbers and times among the values are
written without a line feed, and so is every text of a header that was read, because it is made of
words, which hold no blank, with single spaces between them.  So a report has the lines of its
captions, whatever stands in the file (`Report.lines_of_read`).
-/

namespace StrongMotion

/-- The text holds no line feed. -/
def Bytes.IsOneLine (s : Bytes) : Prop := Line.lineFeed ∉ s

namespace Bytes

instance (s : Bytes) : Decidable s.IsOneLine := inferInstanceAs (Decidable (Line.lineFeed ∉ s))

theorem isOneLine_append {s t : Bytes} : (s ++ t).IsOneLine ↔ s.IsOneLine ∧ t.IsOneLine := by
  unfold IsOneLine
  rw [List.mem_append, not_or]

theorem IsOneLine.append {s t : Bytes} (hs : s.IsOneLine) (ht : t.IsOneLine) :
    (s ++ t).IsOneLine :=
  isOneLine_append.2 ⟨hs, ht⟩

theorem IsOneLine.of_subset {s t : Bytes} (ht : t.IsOneLine) (hsub : s ⊆ t) : s.IsOneLine :=
  fun hmem => ht (hsub hmem)

/-- All bytes have a property that a line feed lacks. -/
theorem isOneLine_of_forall {P : UInt8 → Prop} {s : Bytes} (hs : ∀ b ∈ s, P b)
    (hfeed : ¬P Line.lineFeed) : s.IsOneLine :=
  fun hmem => hfeed (hs _ hmem)

theorem IsWord.isOneLine {w : Bytes} (hw : w.IsWord) : w.IsOneLine :=
  isOneLine_of_forall hw.isBlank_of_mem (by decide)

/-- The only blank of a comment is the space. -/
theorem IsSpaced.isOneLine {s : Bytes} (hs : s.IsSpaced) : s.IsOneLine :=
  isOneLine_of_forall hs.space (by decide)

theorem isOneLine_ofNat (n : Nat) : (ofNat n).IsOneLine :=
  isOneLine_of_forall (isDigit_of_mem_ofNat n) (by decide)

theorem isOneLine_zeroFill_ofNat (width n : Nat) : (zeroFill width (ofNat n)).IsOneLine :=
  isOneLine_of_forall (isDigit_of_mem_zeroFill_ofNat width n) (by decide)

theorem isOneLine_zeros (count : Nat) : (zeros count).IsOneLine :=
  isOneLine_of_forall (fun _ hb => List.eq_of_mem_replicate hb) (by decide)

theorem isOneLine_ofInt (n : Int) : (ofInt n).IsOneLine := by
  unfold ofInt
  split
  · exact .append (by decide) (isOneLine_ofNat _)
  · exact isOneLine_ofNat _

end Bytes

/-! ## Numbers and times -/

namespace Places

open Bytes

theorem isOneLine_special (x : Float) : (special x).IsOneLine := by
  unfold special
  split
  · decide
  · split <;> decide

theorem isOneLine_signText (negative : Bool) : (signText negative).IsOneLine := by
  cases negative <;> decide

theorem isOneLine_fixed (places : Nat) (x : Float) : (fixed places x).IsOneLine := by
  unfold fixed
  split
  · exact isOneLine_special x
  · exact .append (.append (.append (isOneLine_signText _) (isOneLine_ofNat _)) (by decide))
      (isOneLine_zeroFill_ofNat _ _)

theorem isOneLine_withPoint {digits : Bytes} (hdigits : digits.IsOneLine) (count : Nat) :
    (withPoint digits count).IsOneLine := by
  have hwhole : IsOneLine (digits.take count ++ zeros (count - digits.length)) :=
    (hdigits.of_subset (List.take_subset _ _)).append (isOneLine_zeros _)
  unfold withPoint
  dsimp only
  split
  · exact hwhole
  · exact (hwhole.append (by decide)).append (hdigits.of_subset (List.drop_subset _ _))

theorem isOneLine_layOut (style : GeneralStyle) {digits : Bytes} (hdigits : digits.IsOneLine)
    (power : Int) : (layOut style digits power).IsOneLine := by
  have hmark : IsOneLine "e" := by decide
  have hsign : IsOneLine (ofString (if power < 0 then "-" else "+")) := by split <;> decide
  have hpoint : IsOneLine "0." := by decide
  unfold layOut
  split
  · exact (((isOneLine_withPoint hdigits 1).append hmark).append hsign).append
      (isOneLine_zeroFill_ofNat _ _)
  split
  · exact (hpoint.append (isOneLine_zeros _)).append hdigits
  · exact isOneLine_withPoint hdigits _

theorem isOneLine_dropTrailingZeros {digits : Bytes} (hdigits : digits.IsOneLine) :
    (dropTrailingZeros digits).IsOneLine := by
  refine hdigits.of_subset fun b hb => ?_
  exact List.mem_reverse.1 ((List.dropWhile_suffix _).subset (List.mem_reverse.1 hb))

theorem isOneLine_general (style : GeneralStyle) (x : Float) : (general style x).IsOneLine := by
  unfold general
  split
  · exact isOneLine_special x
  · next d _ =>
    split
    · exact .append (isOneLine_signText _) (by decide)
    · obtain ⟨n, power⟩ := significant style.digits d.num d.den
      have hdigits := isOneLine_dropTrailingZeros (isOneLine_ofNat n)
      exact .append (isOneLine_signText _) (isOneLine_layOut style hdigits power)

end Places

theorem Instant.isOneLine_iso8601 (t : Instant) : t.iso8601.IsOneLine := by
  have hdash : Line.lineFeed ∉ Bytes.ofString "-" := by decide
  have hcolon : Line.lineFeed ∉ Bytes.ofString ":" := by decide
  have hdate : ∀ d, Bytes.IsOneLine (WallClock.datePart "-" d) :=
    WallClock.not_mem_datePart rfl (by decide) hdash
  have htime : ∀ c, Bytes.IsOneLine (WallClock.timePart ":" c) :=
    WallClock.not_mem_timePart rfl (by decide) hcolon (by decide)
  unfold iso8601
  exact (((hdate _).append (by decide)).append (htime _)).append (by decide)

/-! ## Captions and values -/

namespace Report

/-- Lines that are not empty are the lines of the text made of them. -/
theorem map_text_lines_unlines {texts : List Bytes}
    (htexts : ∀ s ∈ texts, s.IsOneLine ∧ s ≠ []) :
    (unlines texts).lines.map Line.text = texts := by
  induction texts with
  | nil => rfl
  | cons s rest ih =>
    obtain ⟨⟨hs, hne⟩, hrest⟩ := List.forall_mem_cons.1 htexts
    cases rest with
    | nil =>
      have hlast : Line.Precedes ⟨s, false⟩ [] := ⟨hs, Or.inr ⟨hne, rfl⟩⟩
      have htext : unlines [s] = Line.raw ⟨s, false⟩ ++ [] := by
        simp [unlines, Bytes.join_singleton, Line.raw]
      rw [htext, Bytes.lines_raw_append hlast]
      rfl
    | cons s' rest =>
      have hclosed : Line.Precedes ⟨s, true⟩ (unlines (s' :: rest)) := ⟨hs, Or.inl rfl⟩
      have htext : unlines (s :: s' :: rest) = Line.raw ⟨s, true⟩ ++ unlines (s' :: rest) := by
        rw [unlines, Bytes.join_cons_cons]
        rfl
      rw [htext, Bytes.lines_raw_append hclosed, List.map_cons, ih hrest]

/-- The lines of a report: each value stands behind its caption. -/
def captioned (captions values : List Bytes) : List Bytes :=
  List.zipWith (· ++ ·) captions values

section Captioned

variable {captions values : List Bytes}

theorem prefix_captioned (hlength : values.length = captions.length) :
    List.Forall₂ (· <+: ·) captions (captioned captions values) := by
  induction captions generalizing values with
  | nil => exact .nil
  | cons caption captions ih =>
    cases values with
    | nil => cases hlength
    | cons value values => exact .cons (List.prefix_append _ _) (ih (Nat.succ.inj hlength))

/-- A caption is part of every line, so none is empty. -/
theorem map_text_lines_captioned (hcaptions : ∀ s ∈ captions, s.IsOneLine ∧ s ≠ [])
    (hvalues : ∀ s ∈ values, s.IsOneLine) :
    (unlines (captioned captions values)).lines.map Line.text = captioned captions values := by
  refine map_text_lines_unlines fun s hs => ?_
  obtain ⟨caption, value, hmem, rfl⟩ : ∃ caption value, (caption, value) ∈ captions.zip values ∧
      s = caption ++ value := by
    rw [captioned, ← List.map_uncurry_zip_eq_zipWith] at hs
    obtain ⟨⟨caption, value⟩, hmem, heq⟩ := List.mem_map.1 hs
    exact ⟨caption, value, hmem, heq.symm⟩
  obtain ⟨hcaption, hvalue⟩ := List.of_mem_zip hmem
  obtain ⟨honeLine, hne⟩ := hcaptions caption hcaption
  exact ⟨honeLine.append (hvalues value hvalue), List.append_ne_nil_of_left_ne_nil hne _⟩

end Captioned

def summaryCaptions : List Bytes :=
  ["Record summary:", "  Stream id        : ", "  Start time       : ", "  End time         : ",
   "  Sampling rate    : ", "  Sample count     : ", "  Calibration      : "]

def summaryValues (r : Record) : List Bytes :=
  [[], r.streamName, r.header.recording.start.iso8601, r.lastSampleTime.iso8601,
   Bytes.ofInt r.header.recording.rate ++ " Hz", Bytes.ofNat r.sampleCount,
   Places.fixed calibrationPlaces r.header.recording.calibration]

/-- The captions of the details that every header has. -/
def headerCaptions : List Bytes :=
  ["Event:", "  Origin time      : ", "  Latitude         : ", "  Longitude        : ",
   "  Depth (km)       : ", "  Magnitude        : ",
   "Station:", "  Network          : ", "  Station          : ", "  Location         : ",
   "  Latitude         : ", "  Longitude        : ", "  Elevation (m)    : ",
   "Recording:", "  Channel          : ", "  Duration (s)     : ", "  Max. acc. (gal)  : ",
   "  Last correction  : "]

def detailCaptions (comment : Option Bytes) : List Bytes :=
  headerCaptions ++ comment.toList.map fun _ => ("  Comment          : " : Bytes)

def detailValues (h : Header) : List Bytes :=
  [[], h.event.origin.iso8601, number h.event.latitude, number h.event.longitude,
   number h.event.depthKm, number h.event.magnitude,
   [], h.station.network, h.station.code, h.station.location, number h.station.latitude,
   number h.station.longitude, number h.station.elevationM,
   [], h.recording.channel, number h.recording.durationS, number h.recording.peak,
   h.recording.lastCorrection.iso8601] ++ h.recording.comment.toList

theorem summary_eq (r : Record) :
    summary r = unlines (captioned summaryCaptions (summaryValues r)) := by
  simp only [summary, captioned, summaryCaptions, summaryValues, List.zipWith_cons_cons,
    List.zipWith_nil_left, List.append_nil, List.append_assoc]

theorem details_eq (h : Header) :
    details h = unlines (captioned (detailCaptions h.recording.comment) (detailValues h)) := by
  unfold details eventLines stationLines recordingLines detailCaptions headerCaptions detailValues
  cases h.recording.comment with
  | none => simp only [captioned, commentLines, Option.toList_none, List.map_nil,
      List.cons_append, List.nil_append, List.zipWith_cons_cons, List.zipWith_nil_left,
      List.append_nil]
  | some comment => simp only [captioned, commentLines, Option.toList_some, List.map_cons,
      List.map_nil, List.cons_append, List.nil_append, List.zipWith_cons_cons,
      List.zipWith_nil_left, List.append_nil]

end Report

/-! ## Headers that were read -/

/-- No text of the header holds a line feed. -/
structure Header.HasOneLineTexts (h : Header) : Prop where
  network : h.station.network.IsOneLine
  code : h.station.code.IsOneLine
  location : h.station.location.IsOneLine
  channel : h.recording.channel.IsOneLine
  comment : ∀ comment, h.recording.comment = some comment → comment.IsOneLine

namespace Record

variable {o : ReadOptions} {content : Bytes} {r : Record}

/-- The texts of a header are made of words, which hold no line feed in any encoding. -/
theorem hasOneLineTexts_of_read (hread : read o content = .ok r) : r.header.HasOneLineTexts := by
  obtain ⟨d, texts, rest, h, xs, -, -, hheader, -, rfl⟩ := exists_block_of_read_eq_ok hread
  obtain ⟨_, _, -, -, -, hstation⟩ := Header.exists_line_of_read hheader .stationCode
  obtain ⟨_, _, -, -, -, hdirection⟩ := Header.exists_line_of_read hheader .direction
  obtain ⟨_, _, -, -, -, hmemo⟩ := Header.exists_line_of_read hheader .memo
  obtain ⟨w, hw, hnames⟩ := HeaderItem.station_of_writes o hstation
  have hname : (h.station.code ++ h.station.location).IsOneLine := by
    have happend : h.station.code ++ h.station.location = w := hnames.append_eq
    rw [happend]
    exact (Bytes.isWord_of_getElem? hw).isOneLine
  obtain ⟨hcode, hlocation⟩ := Bytes.isOneLine_append.1 hname
  exact
    { network := show Bytes.IsOneLine networkCode by decide
      code := hcode
      location := hlocation
      channel :=
        Bytes.isOneLine_of_forall (HeaderItem.channel_of_writes o hdirection).2.1 (by decide)
      comment := fun _ hcomment => (HeaderItem.comment_of_writes o hmemo hcomment).isOneLine }

end Record

namespace Report

theorem isOneLine_of_mem_summaryValues {r : Record} (htexts : r.header.HasOneLineTexts) :
    ∀ s ∈ summaryValues r, s.IsOneLine := by
  have hdot : Bytes.IsOneLine "." := by decide
  have hstream : r.streamName.IsOneLine :=
    (((((htexts.network.append hdot).append htexts.code).append hdot).append
      htexts.location).append hdot).append htexts.channel
  have hrate : (Bytes.ofInt r.header.recording.rate ++ Bytes.ofString " Hz").IsOneLine :=
    (Bytes.isOneLine_ofInt _).append (by decide)
  simp only [summaryValues, List.forall_mem_cons, List.not_mem_nil, false_implies, implies_true,
    and_true]
  exact ⟨by decide, hstream, Instant.isOneLine_iso8601 _, Instant.isOneLine_iso8601 _, hrate,
    Bytes.isOneLine_ofNat _, Places.isOneLine_fixed _ _⟩

theorem isOneLine_of_mem_detailValues {h : Header} (htexts : h.HasOneLineTexts) :
    ∀ s ∈ detailValues h, s.IsOneLine := by
  have hnumber : ∀ x, (number x).IsOneLine := Places.isOneLine_general quantity
  have hcomment : ∀ s ∈ h.recording.comment.toList, s.IsOneLine := fun s hs =>
    htexts.comment s (Option.mem_toList.1 hs)
  simp only [detailValues, List.forall_mem_append, List.forall_mem_cons, List.not_mem_nil,
    false_implies, implies_true, and_true]
  exact ⟨⟨by decide, Instant.isOneLine_iso8601 _, hnumber _, hnumber _, hnumber _, hnumber _,
    by decide, htexts.network, htexts.code, htexts.location, hnumber _, hnumber _, hnumber _,
    by decide, htexts.channel, hnumber _, hnumber _, Instant.isOneLine_iso8601 _⟩, hcomment⟩

theorem length_summaryValues (r : Record) :
    (summaryValues r).length = summaryCaptions.length := rfl

theorem length_detailCaptions (comment : Option Bytes) :
    (detailCaptions comment).length = 18 + comment.toList.length := by
  rw [detailCaptions, List.length_append, List.length_map]
  rfl

theorem length_detailValues (h : Header) :
    (detailValues h).length = (detailCaptions h.recording.comment).length := by
  rw [length_detailCaptions, detailValues, List.length_append]
  rfl

theorem oneLine_and_ne_nil_of_mem_detailCaptions (comment : Option Bytes) :
    ∀ s ∈ detailCaptions comment, s.IsOneLine ∧ s ≠ [] := by
  have hheader : ∀ s ∈ headerCaptions, s.IsOneLine ∧ s ≠ [] := by decide
  refine List.forall_mem_append.2 ⟨hheader, fun s hs => ?_⟩
  obtain ⟨_, -, rfl⟩ := List.mem_map.1 hs
  decide

/-- The reports of a record that was read have the lines that their captions say, seven and
eighteen, and one more for a comment.  Each line is a caption with its value, so that no text of the
file ends a line or begins one. -/
theorem lines_of_read {o : ReadOptions} {content : Bytes} {r : Record}
    (hread : Record.read o content = .ok r) :
    ((summary r).lines.length = 7 ∧
      List.Forall₂ (fun caption l => caption <+: l.text) summaryCaptions (summary r).lines ∧
      (summary r).lines.map Line.text = captioned summaryCaptions (summaryValues r)) ∧
    ((details r.header).lines.length =
        (if r.header.recording.comment = none then 18 else 19) ∧
      List.Forall₂ (fun caption l => caption <+: l.text) (detailCaptions r.header.recording.comment)
        (details r.header).lines ∧
      (details r.header).lines.map Line.text =
        captioned (detailCaptions r.header.recording.comment) (detailValues r.header)) := by
  have htexts := Record.hasOneLineTexts_of_read hread
  have hsummary : (summary r).lines.map Line.text =
      captioned summaryCaptions (summaryValues r) := by
    rw [summary_eq]
    exact map_text_lines_captioned (by decide) (isOneLine_of_mem_summaryValues htexts)
  have hdetails : (details r.header).lines.map Line.text =
      captioned (detailCaptions r.header.recording.comment) (detailValues r.header) := by
    rw [details_eq]
    exact map_text_lines_captioned (oneLine_and_ne_nil_of_mem_detailCaptions _)
      (isOneLine_of_mem_detailValues htexts)
  have hsummaryLines : List.Forall₂ (fun caption l => caption <+: Line.text l) summaryCaptions
      (summary r).lines := by
    rw [← List.forall₂_map_right_iff, hsummary]
    exact prefix_captioned (length_summaryValues r)
  have hdetailLines : List.Forall₂ (fun caption l => caption <+: Line.text l)
      (detailCaptions r.header.recording.comment) (details r.header).lines := by
    rw [← List.forall₂_map_right_iff, hdetails]
    exact prefix_captioned (length_detailValues r.header)
  refine ⟨⟨hsummaryLines.length_eq.symm, hsummaryLines, hsummary⟩, ?_, hdetailLines, hdetails⟩
  rw [← hdetailLines.length_eq, length_detailCaptions]
  cases r.header.recording.comment <;> rfl

/-- A record without a comment and one with a comment. -/
theorem lines_of_read_commentedFile :
    (∃ r, Record.read {} Record.shortFile = .ok r ∧
      (summary r).lines.length = 7 ∧ (details r.header).lines.length = 18) ∧
    ∃ r, Record.read {} Record.commentedFile = .ok r ∧
      (summary r).lines.length = 7 ∧ (details r.header).lines.length = 19 := by
  have hcomment : (Record.read {} Record.shortFile).toOption.map
      (fun r => r.header.recording.comment) = some none := by decide +kernel
  obtain ⟨r, hread⟩ := Record.exists_read_shortFile
  obtain ⟨r', hread', -, hcomment'⟩ := Record.exists_read_commentedFile
  obtain ⟨⟨hsummary, -⟩, hdetails, -⟩ := lines_of_read hread
  obtain ⟨⟨hsummary', -⟩, hdetails', -⟩ := lines_of_read hread'
  rw [hread] at hcomment
  rw [if_pos (Option.some.inj hcomment)] at hdetails
  rw [hcomment', if_neg (Option.some_ne_none _)] at hdetails'
  exact ⟨⟨r, hread, hsummary, hdetails⟩, r', hread', hsummary', hdetails'⟩

end Report
end StrongMotion
