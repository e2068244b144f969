import Mathlib.Data.List.DropRight
import StrongMotion.Proofs.ArchiveNames
import StrongMotion.Proofs.FieldTexts
import StrongMotion.Proofs.RecordInvariants
import StrongMotion.Proofs.TrimmedTexts

/-!
# Where archives lie

The parent of a path below a directory is that directory if the name is a single one, and something
below it if not.  Two words of a header come into the name as they stand there, the station and the
direction, and so an archive lies in its directory exactly if no separator is in these two
(`Archive.parent_path_of_read`).
-/

namespace StrongMotion
namespace Archive

/-! ## Parents -/

section Parent

variable {directory name : Bytes}

theorem dropTrailingSeparators_eq_self (hlast : directory.getLast? ≠ some separator) :
    dropTrailingSeparators directory = directory := by
  refine Bytes.dropEndWhile_eq_self fun b hb => decide_eq_false ?_
  rintro rfl
  exact hlast hb

/-- A separator ends the parent, and so do all that stand right before it. -/
theorem parent_append_cons {before rest : Bytes} (hrest : separator ∉ rest)
    (hbefore : dropTrailingSeparators before ≠ []) :
    parent (before ++ separator :: rest) = dropTrailingSeparators before := by
  have hkept : (before ++ separator :: rest).dropEndWhile (· ≠ separator) =
      before ++ [separator] := by
    rw [Bytes.dropEndWhile_append_cons (by decide)]
    refine congrArg (before ++ separator :: ·) (List.rdropWhile_eq_nil_iff.2 fun b hb => ?_)
    rw [decide_eq_true_eq]
    rintro rfl
    exact hrest hb
  have hdropped : dropTrailingSeparators (before ++ [separator]) = dropTrailingSeparators before :=
    Bytes.dropEndWhile_append fun b hb => decide_eq_true (List.mem_singleton.1 hb)
  unfold parent
  dsimp only
  rw [hkept, hdropped, if_neg (List.append_ne_nil_of_right_ne_nil _ (List.cons_ne_nil _ _)),
    if_neg hbefore]

variable (hdirectory : directory ≠ []) (hlast : directory.getLast? ≠ some separator)
include hdirectory hlast

theorem parent_of_single_name (hname : separator ∉ name) :
    parent (directory ++ separator :: name) = directory := by
  have hself := dropTrailingSeparators_eq_self hlast
  rw [parent_append_cons hname (by rwa [hself]), hself]

omit hdirectory hlast in
/-- What stands before the last separator of a name belongs to the parent. -/
theorem parent_of_outer_name {outer inner : Bytes} (hhead : name.head? ≠ some separator)
    (hname : name = outer ++ separator :: inner) (hinner : separator ∉ inner) :
    parent (directory ++ separator :: name) =
      directory ++ separator :: dropTrailingSeparators outer := by
  cases outer with
  | nil => exact absurd (congrArg List.head? hname) hhead
  | cons b outer =>
    -- The first byte of the name is no separator, so dropping separators stops there at the latest.
    have hb : decide (b = separator) = false := by
      rw [decide_eq_false_iff_not]
      rintro rfl
      exact hhead (congrArg List.head? hname)
    have hkept : ∀ before : Bytes, dropTrailingSeparators (before ++ b :: outer) =
        before ++ b :: dropTrailingSeparators outer :=
      fun _ => Bytes.dropEndWhile_append_cons hb
    have hpath : directory ++ separator :: name =
        ((directory ++ [separator]) ++ b :: outer) ++ separator :: inner := by
      rw [hname]
      simp
    have houter := hkept []
    rw [List.nil_append, List.nil_append] at houter
    rw [hpath, parent_append_cons hinner (by rw [hkept]; simp), hkept, houter]
    simp

theorem parent_eq_directory_iff (hhead : name.head? ≠ some separator) :
    parent (directory ++ separator :: name) = directory ↔ separator ∉ name := by
  constructor
  · intro h hmem
    obtain ⟨outer, inner, hname, hinner⟩ := Bytes.exists_last_of_mem hmem
    rw [parent_of_outer_name hhead hname hinner] at h
    have hlength := congrArg List.length h
    rw [List.length_append, List.length_cons] at hlength
    omega
  · exact parent_of_single_name hdirectory hlast

end Parent

/-! ## Words of a header in a name -/

/-- Neither the marks of a name nor its stamp hold a separator. -/
theorem separator_mem_fileName_iff (r : Record) :
    separator ∈ fileName r ↔
      separator ∈ r.header.station.network ∨
        separator ∈ r.header.station.code ++ r.header.station.location ∨
          separator ∈ r.header.recording.channel := by
  have hstamp := r.header.recording.start.not_mem_compact (b := separator) rfl (by decide)
  have hdot : separator ≠ '.'.toUInt8 := by decide
  have hending : separator ∉ Bytes.ofString ".h5" := by decide
  rw [fileName_eq, streamName_append]
  simp only [List.mem_append, List.mem_cons, hstamp, hdot, hending, false_or, or_false, or_assoc]

/-- Neither the dashes that are dropped nor the numbers and codes of borehole channels hold a
separator. -/
theorem separator_mem_channelCode_iff {direction : Bytes} (hdirection : direction.IsWord) :
    separator ∈ channelCode direction ↔ separator ∈ direction := by
  have htable : ∀ channel ∈ boreholeChannels, separator ∉ channel.1 ∧ separator ∉ channel.2 := by
    decide
  have hbare : Bytes.trim (direction.filter (· ≠ dash)) = direction.filter (· ≠ dash) :=
    Bytes.trim_eq_self fun b hb => hdirection.isBlank_of_mem b (List.mem_of_mem_filter hb)
  have hkept : separator ∈ direction.filter (· ≠ dash) ↔ separator ∈ direction := by
    rw [List.mem_filter]
    exact and_iff_left (by decide)
  have hcode : channelCode direction = (boreholeChannels.lookup (direction.filter (· ≠ dash))).getD
      (direction.filter (· ≠ dash)) := by
    rw [← hbare]
    rfl
  rw [hcode, ← hkept]
  cases hlookup : boreholeChannels.lookup (direction.filter (· ≠ dash)) with
  | none => rfl
  | some code =>
    have hchannel := htable _ (mem_of_lookup_boreholeChannels hlookup)
    exact iff_of_false hchannel.2 hchannel.1

end Archive

/-- The header of the file holds the word in a field of the item's line. -/
def Record.HasField (o : ReadOptions) (content : Bytes) (item : HeaderItem) (index : Nat)
    (w : Bytes) : Prop :=
  ∃ (d : Decoder) (texts : List Bytes) (rest : Bytes) (i : Nat) (line : Bytes),
    Decoder.ofChoice o.encoding = .ok d ∧ HeaderText.Block d content texts rest ∧
      HeaderItem.inOrder[i]? = some item ∧ texts[i]? = some line ∧ line.words[index]? = some w

namespace Archive

variable {o : ReadOptions} {content : Bytes} {r : Record}

theorem fileName_not_absolute_of_read (hread : Record.read o content = .ok r) :
    (fileName r).head? ≠ some separator := by
  obtain ⟨d, texts, rest, h, xs, -, -, -, -, rfl⟩ := Record.exists_block_of_read_eq_ok hread
  apply not_absolute_of_isPlain
  show IsPlain "BO"
  decide

/-- The separators in a name come from two words of the header. -/
theorem exists_words_of_read (hread : Record.read o content = .ok r) :
    ∃ station direction : Bytes, Record.HasField o content .stationCode 2 station ∧
      Record.HasField o content .direction 1 direction ∧
      (separator ∉ fileName r ↔ separator ∉ station ∧ separator ∉ direction) := by
  obtain ⟨d, texts, rest, h, xs, hd, hblock, hheader, -, rfl⟩ :=
    Record.exists_block_of_read_eq_ok hread
  obtain ⟨i, line, hi, hline, -, hwrites⟩ := Header.exists_line_of_read hheader .stationCode
  obtain ⟨station, hstation, hnames⟩ := HeaderItem.station_of_writes o hwrites
  obtain ⟨j, line', hj, hline', -, direction, hdirection, hchannel⟩ :=
    Header.exists_line_of_read hheader .direction
  refine ⟨station, direction, ⟨d, texts, rest, i, line, hd, hblock, hi, hline, hstation⟩,
    ⟨d, texts, rest, j, line', hd, hblock, hj, hline', hdirection⟩, ?_⟩
  have happend : h.station.code ++ h.station.location = station := hnames.append_eq
  have hnetwork : separator ∉ Bytes.ofString "BO" := by decide
  rw [separator_mem_fileName_iff, not_or, not_or]
  show separator ∉ Bytes.ofString "BO" ∧ separator ∉ h.station.code ++ h.station.location ∧
    separator ∉ h.recording.channel ↔ _
  rw [happend, hchannel, separator_mem_channelCode_iff (Bytes.isWord_of_getElem? hdirection)]
  exact and_iff_right hnetwork

/-- The path of a record that was read is the directory, a separator and the name.  It lies in the
directory exactly if the station and the direction were written without a separator; otherwise what
stands before the last separator of the name is in the parent as well. -/
theorem parent_path_of_read (hread : Record.read o content = .ok r) {directory : Bytes}
    (hdirectory : directory ≠ []) (hlast : directory.getLast? ≠ some separator) :
    path directory r = directory ++ separator :: fileName r ∧
    (∃ station direction : Bytes, Record.HasField o content .stationCode 2 station ∧
      Record.HasField o content .direction 1 direction ∧
      (separator ∉ fileName r ↔ separator ∉ station ∧ separator ∉ direction) ∧
      (parent (path directory r) = directory ↔ separator ∉ station ∧ separator ∉ direction)) ∧
    ∀ outer inner : Bytes, fileName r = outer ++ separator :: inner → separator ∉ inner →
      parent (path directory r) = directory ++ separator :: dropTrailingSeparators outer := by
  have hhead := fileName_not_absolute_of_read hread
  have hpath : path directory r = directory ++ separator :: fileName r := by
    show below directory (fileName r) = _
    rw [below_of_relative hhead, if_neg (not_or.2 ⟨hdirectory, hlast⟩), List.append_assoc]
    rfl
  obtain ⟨station, direction, hstation, hdirection', hname⟩ := exists_words_of_read hread
  refine ⟨hpath, ⟨station, direction, hstation, hdirection', hname, ?_⟩, ?_⟩
  · rw [hpath, parent_eq_directory_iff hdirectory hlast hhead, hname]
  · intro outer inner houter hinner
    rw [hpath]
    exact parent_of_outer_name hhead houter hinner

theorem parent_path_of_read_shortFile :
    ∃ r, Record.read {} Record.shortFile = .ok r ∧
      parent (path "out/records" r) = "out/records" := by
  have hname : (Record.read {} Record.shortFile).toOption.map fileName =
      some "BO.IWTH27..UD1.20110311T054630.h5" := by decide +kernel
  obtain ⟨r, hread⟩ := Record.exists_read_shortFile
  rw [hread] at hname
  have hplain : separator ∉ fileName r := by
    rw [Option.some.inj hname]
    decide
  have hdirectory : Bytes.ofString "out/records" ≠ [] := by decide
  obtain ⟨-, ⟨_, _, -, -, hwords, hparent⟩, -⟩ := parent_path_of_read hread hdirectory (by decide)
  exact ⟨r, hread, hparent.2 (hwords.1 hplain)⟩

/-- The short file with a direction that is written with a slash. -/
def slashedFile : Bytes :=
  Record.shortFile.lines.flatMap fun l =>
    if HeaderItem.direction.label.isPrefixOf l.text then "Dir. N/S\n" else l.raw

/-- The parent of this record's path is not `out`, but a directory named for the front of its
name. -/
theorem parent_path_of_read_slashedFile :
    ∃ r, Record.read {} slashedFile = .ok r ∧
      fileName r = "BO.IWTH27..N/S.20110311T054630.h5" ∧
      parent (path "out" r) = "out/BO.IWTH27..N" := by
  have hname : (Record.read {} slashedFile).toOption.map fileName =
      some "BO.IWTH27..N/S.20110311T054630.h5" := by decide +kernel
  cases hread : Record.read {} slashedFile with
  | error f =>
    rw [hread] at hname
    cases hname
  | ok r =>
    rw [hread] at hname
    have hfile : fileName r = "BO.IWTH27..N/S.20110311T054630.h5" := Option.some.inj hname
    refine ⟨r, rfl, hfile, ?_⟩
    show parent (below "out" (fileName r)) = _
    rw [hfile]
    decide

end Archive
end StrongMotion
