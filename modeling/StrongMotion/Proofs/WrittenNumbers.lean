import Mathlib.Data.List.Forall2
import StrongMotion.Proofs.Calibrations
import StrongMotion.Proofs.RecordReading
import StrongMotion.Proofs.WrittenDecimals

/-!
# The numbers of a record

Every float of a record comes from a text of its file and is the one nearest to the decimal that the
text writes.  The samples come from the words behind the header (`Record.writesFloat_of_read`), the
numbers of the header from the words of its lines (`Header.writesFloat_of_read`), and its
calibration from the two numbers of a scale factor (`exists_numbers_of_calibration`).
-/

namespace StrongMotion

/-- The text writes a decimal, and the float is the nearest one to the number of that. -/
def Bytes.WritesFloat (s : Bytes) (x : Float) : Prop :=
  ∃ d : WrittenDecimal, d.text = s ∧ IsNearest x d.value

theorem Bytes.writesFloat_of_float? {s : Bytes} {x : Float} (h : s.float? = some x) :
    s.WritesFloat x := by
  obtain ⟨d, rfl, hfloat⟩ := exists_decimal_of_float? h
  exact ⟨d, rfl, isNearest_of_float? h⟩

/-! ## Samples -/

namespace Record

/-- The samples are the floats nearest to what the words behind the header write, in order. -/
theorem writesFloat_of_read {o : ReadOptions} {content : Bytes} {r : Record}
    (hread : read o content = .ok r) :
    ∃ (d : Decoder) (texts : List Bytes) (rest : Bytes), Decoder.ofChoice o.encoding = .ok d ∧
      HeaderText.Block d content texts rest ∧
        List.Forall₂ Bytes.WritesFloat rest.words r.samples := by
  obtain ⟨d, texts, rest, h, xs, hd, hblock, -, hwords, rfl⟩ := exists_block_of_read_eq_ok hread
  have hfloats : List.Forall₂ (fun w x => Bytes.float? w = some x) rest.words xs := by
    rw [← List.forall₂_map_right_iff (f := some) (R := fun w y => Bytes.float? w = y),
      ← List.forall₂_map_left_iff (f := Bytes.float?) (R := Eq), List.forall₂_eq_eq_eq]
    exact hwords
  exact ⟨d, texts, rest, hd, hblock, hfloats.imp fun _ _ => Bytes.writesFloat_of_float?⟩

end Record

/-! ## Calibrations -/

/-- A hundredth is no float, and this is the one nearest to it. -/
theorem isNearest_gal : IsNearest gal (1 / 10 ^ 2) :=
  Binary64.isNearest_ofScientific_true one_ne_zero two_pos (by decide +kernel)

/-- A calibration is computed from the floats nearest to the two numbers of its scale factor. -/
theorem exists_numbers_of_calibration {text : Bytes} {c : Float} (h : calibration text = .ok c) :
    ∃ n d : Float, text.scaleNumerator.WritesFloat n ∧ text.scaleDenominator.WritesFloat d ∧
      c = gal * n / d := by
  rcases calibration_cases text with ⟨flaw, herror⟩ | ⟨-, n, d, hn, hd, -, hok⟩
  · rw [herror] at h
    cases h
  · rw [hok] at h
    exact ⟨n, d, Bytes.writesFloat_of_float? hn, Bytes.writesFloat_of_float? hd,
      (Except.ok.inj h).symm⟩

/-! ## Headers -/

/-- Which word of the item's line writes a number, and where the header keeps it. -/
def HeaderItem.number? : HeaderItem → Option (Nat × (Header → Float))
  | eventLatitude => some (1, (·.event.latitude))
  | eventLongitude => some (1, (·.event.longitude))
  | eventDepth => some (2, (·.event.depthKm))
  | magnitude => some (1, (·.event.magnitude))
  | stationLatitude => some (2, (·.station.latitude))
  | stationLongitude => some (2, (·.station.longitude))
  | stationHeight => some (2, (·.station.elevationM))
  | duration => some (2, (·.recording.durationS))
  | peakAcceleration => some (3, (·.recording.peak))
  | _ => none

theorem HeaderItem.Writes.numberAt {o : ReadOptions} {item : HeaderItem} {words : List Bytes}
    {h : Header} (hwrites : item.Writes o words h) {index : Nat} {get : Header → Float}
    (hnumber : item.number? = some (index, get)) : NumberAt words index (get h) := by
  cases item <;> cases hnumber <;> exact hwrites

namespace Header

/-- A number of a header is the float nearest to what its word writes. -/
theorem writesFloat_of_read {o : ReadOptions} {lines : List Bytes} {h : Header}
    (hread : read o lines = .ok h) {item : HeaderItem} {index : Nat} {get : Header → Float}
    (hnumber : item.number? = some (index, get)) :
    ∃ (i : Nat) (line w : Bytes), HeaderItem.inOrder[i]? = some item ∧ lines[i]? = some line ∧
      line.words[index]? = some w ∧ w.WritesFloat (get h) := by
  obtain ⟨i, line, hitem, hline, -, hwrites⟩ := exists_line_of_read hread item
  obtain ⟨w, hw, hfloat⟩ := hwrites.numberAt hnumber
  exact ⟨i, line, w, hitem, hline, hw, Bytes.writesFloat_of_float? hfloat⟩

theorem exists_numbers_of_read {o : ReadOptions} {lines : List Bytes} {h : Header}
    (hread : read o lines = .ok h) :
    ∃ line text : Bytes, lines[13]? = some line ∧ line.words[2]? = some text ∧
      ∃ n d : Float, text.scaleNumerator.WritesFloat n ∧ text.scaleDenominator.WritesFloat d ∧
        h.recording.calibration = gal * n / d := by
  obtain ⟨line, text, hline, -, hword, hcalibration⟩ := calibration_of_read hread
  exact ⟨line, text, hline, hword, exists_numbers_of_calibration hcalibration⟩

end Header

end StrongMotion
