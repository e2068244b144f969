import StrongMotion.Proofs.Latin1Text

/-!
# The faults of one-byte text

A text of one-byte characters and its form in UTF-8 do not only make the same record.  Where they
make none they have the same fault, since the header is decoded in both.  The samples are not, so a
word among them that is no number is quoted as it stands in each (`Record.read_latin1_or_utf8`).
-/

namespace StrongMotion

theorem Bytes.isAscii_ofNat (n : Nat) : (Bytes.ofNat n).IsAscii := by
  intro b hb
  obtain ⟨c, hc, rfl⟩ := List.mem_map.1 hb
  have hdigit := Nat.isDigit_of_mem_toDigits (by decide) (by decide) hc
  rw [Char.isDigit, Bool.and_eq_true, decide_eq_true_eq, decide_eq_true_eq] at hdigit
  have hle : c.toNat ≤ 57 := hdigit.2
  show (UInt8.ofNat c.toNat).toNat < 0x80
  rw [UInt8.toNat_ofNat']
  omega

namespace Latin1

/-- A byte that is not ASCII is written with two: its upper two bits stand in the first, the lower
six in the second. -/
theorem toUtf8_eq_flatMap (s : Bytes) :
    toUtf8 s = s.flatMap fun b =>
      if b.toNat < 0x80 then [b]
      else [UInt8.ofNat (0xC0 + b.toNat / 64), UInt8.ofNat (0x80 + b.toNat % 64)] := by
  rw [toUtf8, Utf8.text, List.flatMap_map]
  refine congrArg s.flatMap (funext fun b => ?_)
  by_cases hb : b.toNat < 0x80
  · rw [if_pos hb, Utf8.encode_ascii hb]
  · have hlong : b.toNat < 0x800 := Nat.lt_trans b.toNat_lt (by decide)
    rw [if_neg hb, Utf8.encode, if_neg hb, if_pos hlong]
    rfl

theorem detail_notSample_toUtf8 (line word : Nat) (text : Bytes) :
    (Fault.notSample line word (toUtf8 text)).detail =
      toUtf8 (Fault.notSample line word text).detail := by
  have hline : toUtf8 "Line " = "Line " := toUtf8_of_isAscii (by decide)
  have htoken : toUtf8 ", token " = ", token " := toUtf8_of_isAscii (by decide)
  have hcolon : toUtf8 ": " = ": " := toUtf8_of_isAscii (by decide)
  have hquote : toUtf8 "'" = "'" := toUtf8_of_isAscii (by decide)
  have hcomplaint : toUtf8 " is not a number" = " is not a number" :=
    toUtf8_of_isAscii (by decide)
  have hnumber : ∀ n, toUtf8 (Bytes.ofNat n) = Bytes.ofNat n := fun n =>
    toUtf8_of_isAscii (Bytes.isAscii_ofNat n)
  simp only [Fault.detail, Bytes.quoted, toUtf8_append, hline, htoken, hcolon, hquote, hcomplaint,
    hnumber]

end Latin1

open Latin1

namespace Record

/-- Read as one-byte characters or, in its UTF-8 form, as UTF-8, a text is the same record or has
the same fault.  A word of the samples that is no number is found at the same place and quoted in
the form that the text has. -/
theorem read_latin1_or_utf8 (split : Bool) (s : Bytes) :
    (toUtf8 s = s.flatMap fun b =>
      if b.toNat < 0x80 then [b]
      else [UInt8.ofNat (0xC0 + b.toNat / 64), UInt8.ofNat (0x80 + b.toNat % 64)]) ∧
    ((∃ r, read (Charset.latin1.options split) s = .ok r ∧
        read (Charset.utf8.options split) (toUtf8 s) = .ok r) ∨
      (∃ f, read (Charset.latin1.options split) s = .error f ∧
        read (Charset.utf8.options split) (toUtf8 s) = .error f ∧ f.kind ≠ .sample) ∨
      ∃ line word text,
        read (Charset.latin1.options split) s = .error (.notSample line word text) ∧
        read (Charset.utf8.options split) (toUtf8 s) = .error (.notSample line word (toUtf8 text)) ∧
        (Fault.notSample line word (toUtf8 text)).detail =
          toUtf8 (Fault.notSample line word text).detail) := by
  refine ⟨toUtf8_eq_flatMap s, ?_⟩
  have hone : Charset.latin1 ∈ Charset.oneByte := by decide
  rw [read_toUtf8_eq hone split fun b _ => b.toNat_lt]
  cases read (Charset.latin1.options split) s with
  | ok r => exact Or.inl ⟨r, rfl, rfl⟩
  | error f =>
    by_cases hf : f.kind = .sample
    · cases f with
      | notSample line word text =>
        exact Or.inr (Or.inr ⟨line, word, text, rfl, rfl, detail_notSample_toUtf8 line word text⟩)
      | _ => cases hf
    · refine Or.inr (Or.inl ⟨f, rfl, ?_, hf⟩)
      show Except.error (faultToUtf8 f) = _
      rw [faultToUtf8_of_kind hf]

end Record
end StrongMotion
