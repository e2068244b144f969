import StrongMotion.Archive
import StrongMotion.Proofs.TimeStamps

/-!
# The names of archives

The directory stands before every name alike, so records share a path only if they share a name.  A
name ends with the stamp of the record's start, which no other start has, and codes without dots can
be read off it one by one (`Archive.path_tells_record`).
-/

namespace StrongMotion

/-- The four codes of a stream, in the order of its name. -/
def Header.codes (h : Header) : List Bytes :=
  [h.station.network, h.station.code, h.station.location, h.recording.channel]

namespace Archive

/-- A code that can neither be taken for two codes nor lead to another directory. -/
def IsPlain (code : Bytes) : Prop := '.'.toUInt8 ∉ code ∧ separator ∉ code

instance (code : Bytes) : Decidable (IsPlain code) := by unfold IsPlain; infer_instance

/-! ## Directories -/

section Below

variable {directory name name' : Bytes}

theorem below_of_absolute (hname : name.head? = some separator) : below directory name = name :=
  if_pos hname

/-- What stands before a name does not depend on the name. -/
theorem below_of_relative (hname : name.head? ≠ some separator) :
    below directory name =
      (if directory = [] ∨ directory.getLast? = some separator then directory
        else directory ++ [separator]) ++ name := by
  unfold below
  rw [if_neg hname]
  split
  · rfl
  · rw [List.append_assoc]
    rfl

theorem below_inj (hhead : name.head? = some separator ↔ name'.head? = some separator) :
    below directory name = below directory name' ↔ name = name' := by
  constructor
  · intro h
    by_cases habsolute : name.head? = some separator
    · rw [below_of_absolute habsolute, below_of_absolute (hhead.1 habsolute)] at h
      exact h
    · rw [below_of_relative habsolute, below_of_relative (fun h' => habsolute (hhead.2 h'))] at h
      exact List.append_cancel_left h
  · intro h
    rw [h]

end Below

/-! ## Names -/

theorem fileName_eq (r : Record) :
    fileName r = r.streamName ++ '.'.toUInt8 :: (r.header.recording.start.compact ++ ".h5") := by
  show r.streamName ++ Bytes.ofString "." ++ _ ++ _ = _
  rw [List.append_assoc, List.append_assoc]
  rfl

theorem streamName_append (r : Record) (rest : Bytes) :
    r.streamName ++ rest =
      r.header.station.network ++ '.'.toUInt8 :: (r.header.station.code ++ '.'.toUInt8 ::
        (r.header.station.location ++ '.'.toUInt8 :: (r.header.recording.channel ++ rest))) := by
  unfold Record.streamName Header.streamName
  simp only [List.append_assoc]
  rfl

/-- The first byte of a name belongs to the stream. -/
theorem head?_fileName (r : Record) : (fileName r).head? = r.streamName.head? := by
  have hname := streamName_append r []
  rw [List.append_nil] at hname
  have hne : r.streamName ≠ [] := by
    rw [hname]
    exact List.append_ne_nil_of_right_ne_nil _ (List.cons_ne_nil _ _)
  obtain ⟨b, rest, hstream⟩ := List.exists_cons_of_ne_nil hne
  rw [fileName_eq, hstream]
  rfl

theorem not_absolute_of_isPlain {r : Record} (hnetwork : IsPlain r.header.station.network) :
    (fileName r).head? ≠ some separator := by
  intro hhead
  have hname := streamName_append r []
  rw [List.append_nil] at hname
  rw [head?_fileName, hname] at hhead
  cases hcode : r.header.station.network with
  | nil =>
    rw [hcode] at hhead
    cases hhead
  | cons b code =>
    rw [hcode] at hhead hnetwork
    obtain rfl := Option.some.inj hhead
    exact hnetwork.2 List.mem_cons_self

variable {r r' : Record}

/-- Behind one stream only the stamps differ. -/
theorem fileName_eq_iff_of_streamName_eq (hstream : r.streamName = r'.streamName) :
    fileName r = fileName r' ↔ r.header.recording.start = r'.header.recording.start := by
  constructor
  · intro h
    rw [fileName_eq, fileName_eq, hstream] at h
    have hstamp := (List.cons.inj (List.append_cancel_left h)).2
    exact Instant.compact_inj.1 (List.append_cancel_right hstamp)
  · intro h
    rw [fileName_eq, fileName_eq, hstream, h]

/-- The first four dots of a name end its codes. -/
theorem eq_of_fileName_eq (hr : ∀ code ∈ r.header.codes, IsPlain code)
    (hr' : ∀ code ∈ r'.header.codes, IsPlain code) (h : fileName r = fileName r') :
    r.header.codes = r'.header.codes ∧
      r.header.recording.start = r'.header.recording.start := by
  unfold Header.codes at hr hr' ⊢
  simp only [List.forall_mem_cons] at hr hr'
  obtain ⟨hnetwork, hcode, hlocation, hchannel, -⟩ := hr
  obtain ⟨hnetwork', hcode', hlocation', hchannel', -⟩ := hr'
  rw [fileName_eq, fileName_eq, streamName_append, streamName_append] at h
  obtain ⟨hnetworks, h⟩ := Bytes.append_cons_inj hnetwork.1 hnetwork'.1 h
  obtain ⟨hcodes, h⟩ := Bytes.append_cons_inj hcode.1 hcode'.1 h
  obtain ⟨hlocations, h⟩ := Bytes.append_cons_inj hlocation.1 hlocation'.1 h
  obtain ⟨hchannels, h⟩ := Bytes.append_cons_inj hchannel.1 hchannel'.1 h
  have hstamps := List.append_cancel_right h
  exact ⟨by rw [hnetworks, hcodes, hlocations, hchannels], Instant.compact_inj.1 hstamps⟩

/-- Records of one stream share a path exactly if they start at the same millisecond, and plain
codes and the start can be told from the path.  No stamp is longer than the 31 bytes that are kept
of it. -/
theorem path_tells_record (directory : Bytes) (r r' : Record) :
    (r.streamName = r'.streamName →
      (path directory r = path directory r' ↔
        r.header.recording.start = r'.header.recording.start)) ∧
    ((∀ code ∈ r.header.codes, IsPlain code) → (∀ code ∈ r'.header.codes, IsPlain code) →
      path directory r = path directory r' →
        r.header.codes = r'.header.codes ∧
          r.header.recording.start = r'.header.recording.start) ∧
    r.header.recording.start.compact.length < 32 := by
  refine ⟨fun hstream => ?_, fun hr hr' h => ?_, r.header.recording.start.length_compact_lt⟩
  · have hhead : (fileName r).head? = (fileName r').head? := by
      rw [head?_fileName, head?_fileName, hstream]
    rw [← fileName_eq_iff_of_streamName_eq hstream]
    exact below_inj (by rw [hhead])
  · have hrelative := not_absolute_of_isPlain (hr _ List.mem_cons_self)
    have hrelative' := not_absolute_of_isPlain (hr' _ List.mem_cons_self)
    exact eq_of_fileName_eq hr hr' ((below_inj (iff_of_false hrelative hrelative')).1 h)

/-- The record of a stream that begins `millis` milliseconds after the beginning of 1970. -/
def recordAt (network code location channel : Bytes) (millis : Int) : Record :=
  { header :=
      { station := { network, code, location }
        recording := { start := .ofMillis millis, channel } } }

/-- The stamp tells the first millisecond of all from the next one, and the dots tell one code
`BOIWT` from the two codes `BO` and `IWT`. -/
theorem path_tells_record_shifted :
    path "out" (recordAt "BO" "IWTH2" "7" "A.B/C" (-9223372036854775808)) ≠
      path "out" (recordAt "BO" "IWTH2" "7" "A.B/C" (-9223372036854775807)) ∧
    path "/" (recordAt "" "BOIWT" "" "EW1" 0) ≠ path "/" (recordAt "BO" "IWT" "EW1" "" 0) := by
  constructor
  · intro h
    have hstart := ((path_tells_record _ _ _).1 (by rfl)).1 h
    exact absurd hstart (by decide)
  · intro h
    have hcodes := ((path_tells_record _ _ _).2.1 (by decide) (by decide) h).1
    exact absurd hcodes (by decide)

end Archive
end StrongMotion
