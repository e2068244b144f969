import StrongMotion.Proofs.Numerals
import StrongMotion.Proofs.RecordReading
import StrongMotion.Proofs.WrittenDecimals

/-!
# Whole numbers in 32 bits

Digits are taken into a word one after another.  The tests that come before each step keep the
arithmetic of the word, which wraps, from ever doing so: a text of any length is read as the number
that it writes, or not at all (`Bytes.int32Word?_eq`).  A header field is read as the number that
the digits at its front write, so the sampling rate of a record is the one in its file
(`Record.whole_numbers_exact`).
-/

namespace StrongMotion
namespace Bytes

/-! ## Digits in a word -/

/-- The number with one more digit behind it, unless that is more than `limit`. -/
def pushDigit? (limit total : UInt32) (b : UInt8) : Option UInt32 :=
  let digit := (b - 48).toUInt32
  if limit / 10 < total then none
  else if limit - digit < 10 * total then none
  else some (10 * total + digit)

/-- The number that digits write, unless it is more than `limit`. -/
def wordValue? (limit : UInt32) (digits : Bytes) : Option UInt32 :=
  digits.foldlM (pushDigit? limit) 0

/-- The magnitude of the least number of 32 bits is one more than the greatest. -/
def wordLimit (negative : Bool) : UInt32 := if negative then 2147483648 else 2147483647

/-- The whole number that the whole text writes, computed in a word and negated there. -/
def int32Word? (s : Bytes) : Option Int32 :=
  let (negative, digits) := Numeral.takeSign s
  if digits ≠ [] ∧ digits.all Byte.isDigit then
    (wordValue? (wordLimit negative) digits).map fun n =>
      (if negative then -n else n).toInt32
  else none

/-- What is no more than a word holds is in some word. -/
theorem exists_toNat_eq {limit : UInt32} {n : Nat} (hn : n ≤ limit.toNat) :
    ∃ word : UInt32, word.toNat = n :=
  ⟨UInt32.ofNat n, UInt32.toNat_ofNat_of_lt' (Nat.lt_of_le_of_lt hn (UInt32.toNat_lt limit))⟩

theorem toNat_digit {b : UInt8} (hb : Byte.isDigit b = true) :
    (b - 48).toUInt32.toNat = Byte.digitValue b := by
  have hle : (48 : UInt8) ≤ b := by
    rw [UInt8.le_iff_toNat_le, Byte.toNat_eq_of_isDigit hb]
    exact Nat.le_add_left 48 _
  rw [UInt8.toNat_toUInt32, UInt8.toNat_sub_of_le b 48 hle]
  rfl

/-- A step neither wraps nor gives up early. -/
theorem pushDigit?_eq_some_iff {limit total n : UInt32} {b : UInt8} (hb : Byte.isDigit b = true)
    (hlimit : 9 ≤ limit.toNat) :
    pushDigit? limit total b = some n ↔
      n.toNat = 10 * total.toNat + Byte.digitValue b ∧ n.toNat ≤ limit.toNat := by
  have hdigit := toNat_digit hb
  have hsmall := Byte.digitValue_lt hb
  have hword := UInt32.toNat_lt limit
  have hroom : (limit - (b - 48).toUInt32).toNat = limit.toNat - Byte.digitValue b := by
    rw [UInt32.toNat_sub_of_le _ _ (UInt32.le_iff_toNat_le.2 (by omega)), hdigit]
  have htenth : (limit / 10).toNat = limit.toNat / 10 := UInt32.toNat_div limit 10
  unfold pushDigit?
  dsimp only
  split
  · next hmany =>
    rw [UInt32.lt_iff_toNat_lt, htenth] at hmany
    refine iff_of_false (fun h => by cases h) ?_
    omega
  · next hfew =>
    rw [UInt32.lt_iff_toNat_lt, htenth] at hfew
    have hten : (10 * total).toNat = 10 * total.toNat := by
      rw [UInt32.toNat_mul]
      exact Nat.mod_eq_of_lt (by show 10 * total.toNat < 2 ^ 32; omega)
    split
    · next hover =>
      rw [UInt32.lt_iff_toNat_lt, hroom, hten] at hover
      refine iff_of_false (fun h => by cases h) ?_
      omega
    · next hfits =>
      rw [UInt32.lt_iff_toNat_lt, hroom, hten] at hfits
      have hsum : (10 * total + (b - 48).toUInt32).toNat =
          10 * total.toNat + Byte.digitValue b := by
        rw [UInt32.toNat_add, hten, hdigit]
        exact Nat.mod_eq_of_lt (by omega)
      rw [Option.some.injEq, ← UInt32.toNat_inj, hsum]
      omega

/-- Digits of any number are read as the number that they write, if the limit allows it. -/
theorem wordValue?_eq_some_iff {limit n : UInt32} {digits : Bytes}
    (hdigits : ∀ b ∈ digits, Byte.isDigit b = true) (hlimit : 9 ≤ limit.toNat) :
    wordValue? limit digits = some n ↔ n.toNat = natValue digits ∧ n.toNat ≤ limit.toNat := by
  induction digits using List.reverseRecOn generalizing n with
  | nil =>
    show some 0 = some n ↔ n.toNat = 0 ∧ n.toNat ≤ limit.toNat
    rw [Option.some.injEq, ← UInt32.toNat_inj]
    show 0 = n.toNat ↔ _
    omega
  | append_singleton digits b ih =>
    have hfront := fun {n} => ih (n := n) fun c hc => hdigits c (List.mem_append_left _ hc)
    have hb := hdigits b (by simp)
    have hstep : wordValue? limit (digits ++ [b]) =
        (wordValue? limit digits).bind fun total => pushDigit? limit total b := by
      rw [wordValue?, List.foldlM_append]
      simp only [List.foldlM_cons, List.foldlM_nil, bind_pure]
      rfl
    rw [hstep, Option.bind_eq_some_iff, natValue_append_singleton]
    constructor
    · rintro ⟨total, htotal, hpush⟩
      obtain ⟨hsum, hle⟩ := (pushDigit?_eq_some_iff hb hlimit).1 hpush
      rw [(hfront.1 htotal).1] at hsum
      exact ⟨hsum, hle⟩
    · rintro ⟨hsum, hle⟩
      -- What is in the word before the last digit fits, since it is less than what is there after
      -- it.
      have hfits : natValue digits ≤ limit.toNat := by omega
      obtain ⟨total, htotal⟩ := exists_toNat_eq hfits
      refine ⟨total, hfront.2 ⟨htotal, htotal ▸ hfits⟩, ?_⟩
      rw [pushDigit?_eq_some_iff hb hlimit, htotal]
      exact ⟨hsum, hle⟩

theorem nine_le_wordLimit (negative : Bool) : 9 ≤ (wordLimit negative).toNat := by
  cases negative <;> decide

theorem applySign_fits_iff (negative : Bool) (n : Nat) :
    (-2147483648 ≤ Numeral.applySign negative n ∧ Numeral.applySign negative n ≤ 2147483647) ↔
      n ≤ (wordLimit negative).toNat := by
  cases negative with
  | false =>
    show (-2147483648 ≤ (n : Int) ∧ (n : Int) ≤ 2147483647) ↔ n ≤ 2147483647
    omega
  | true =>
    show (-2147483648 ≤ -(n : Int) ∧ -(n : Int) ≤ 2147483647) ↔ n ≤ 2147483648
    omega

/-- The magnitude of the least number is its own negative in a word, and stands for that number. -/
theorem toInt_signed {negative : Bool} {n : UInt32} (hn : n.toNat ≤ (wordLimit negative).toNat) :
    (if negative then -n else n).toInt32.toInt = Numeral.applySign negative n.toNat := by
  cases negative with
  | false =>
    have hsmall : n.toNat ≤ 2147483647 := hn
    show n.toInt32.toInt = (n.toNat : Int)
    rw [Int32.toInt, UInt32.toBitVec_toInt32, BitVec.toInt_eq_toNat_cond, UInt32.toNat_toBitVec]
    omega
  | true =>
    have hsmall : n.toNat ≤ 2147483648 := hn
    have hneg : (-n).toNat = (4294967296 - n.toNat) % 4294967296 := UInt32.toNat_neg n
    show (-n).toInt32.toInt = -(n.toNat : Int)
    rw [Int32.toInt, UInt32.toBitVec_toInt32, BitVec.toInt_eq_toNat_cond, UInt32.toNat_toBitVec]
    omega

/-- Computed in a word, a whole number is the one that the text writes, or is refused with it. -/
theorem int32Word?_eq (s : Bytes) : s.int32Word?.map Int32.toInt = s.int32? := by
  rw [int32?_eq]
  unfold int32Word? Numeral.int?
  dsimp only
  generalize (Numeral.takeSign s).1 = negative
  generalize (Numeral.takeSign s).2 = digits
  split
  · next hdigits =>
    have hvalue := fun {n} =>
      wordValue?_eq_some_iff (n := n) (List.all_eq_true.1 hdigits.2) (nine_le_wordLimit negative)
    have hfits := applySign_fits_iff negative (natValue digits)
    cases hword : wordValue? (wordLimit negative) digits with
    | some n =>
      obtain ⟨hn, hle⟩ := hvalue.1 hword
      rw [Option.map_some, Option.map_some, toInt_signed hle, hn]
      rw [hn] at hle
      rw [Option.filter_some, if_pos (decide_eq_true (hfits.2 hle))]
    | none =>
      rw [Option.filter_some, if_neg]
      · rfl
      rw [decide_eq_true_eq, hfits]
      intro hle
      obtain ⟨n, hn⟩ := exists_toNat_eq hle
      have hsome := hvalue.2 ⟨hn, hn ▸ hle⟩
      rw [hword] at hsome
      cases hsome
  · rfl

/-! ## Written whole numbers -/

/-- The whole numbers that are read are those that fit in 32 bits. -/
theorem int32?_eq_some_iff {s : Bytes} {n : Int} :
    s.int32? = some n ↔
      ∃ w : WrittenInteger, w.text = s ∧ w.value = n ∧ -2 ^ 31 ≤ n ∧ n ≤ 2 ^ 31 - 1 := by
  rw [int32?_eq, Option.filter_eq_some_iff, Numeral.int?_eq_some_iff, decide_eq_true_eq]
  constructor
  · rintro ⟨⟨w, htext, hvalue⟩, hrange⟩
    exact ⟨w, htext, hvalue, hrange⟩
  · rintro ⟨w, htext, hvalue, hrange⟩
    exact ⟨⟨w, htext, hvalue⟩, hrange⟩

end Bytes

theorem WrittenInteger.value_eq_of_text_eq {w w' : WrittenInteger} (h : w.text = w'.text) :
    w.value = w'.value := by
  have hread := Numeral.int?_eq_some_iff.2 ⟨w, rfl, rfl⟩
  rw [h, Numeral.int?_eq_some_iff.2 ⟨w', rfl, rfl⟩] at hread
  exact (Option.some.inj hread).symm

/-! ## Digits at the front of a field -/

namespace Digits

/-- The digits are all those that the text begins with. -/
def IsFrontOf (digits : Digits) (s : Bytes) : Prop :=
  ∃ rest, s = digits.text ++ rest ∧ ∀ b, rest.head? = some b → Byte.isDigit b = false

variable {digits : Digits} {s : Bytes}

theorem isFrontOf_iff : digits.IsFrontOf s ↔ digits.text = s.takeDigits := by
  constructor
  · rintro ⟨rest, rfl, hrest⟩
    exact (Bytes.takeDigits_append digits.isDigit_of_mem hrest).symm
  · intro htext
    refine ⟨s.dropWhile Byte.isDigit, ?_, fun b hb => ?_⟩
    · rw [htext, Bytes.takeDigits_append_dropWhile]
    · have hhead := List.head?_dropWhile_not Byte.isDigit s
      rw [hb] at hhead
      exact hhead

end Digits

/-- The field begins with the digits of the number, which fits in 32 bits. -/
def Bytes.LeadsWith (field : Bytes) (n : Int) : Prop :=
  ∃ digits : Digits, digits.IsFrontOf field ∧ digits.text ≠ [] ∧ digits.value = n ∧ n ≤ 2 ^ 31 - 1

theorem Bytes.int32?_takeDigits_eq_some_iff {field : Bytes} {n : Int} :
    field.takeDigits.int32? = some n ↔ field.LeadsWith n := by
  rw [int32?_eq]
  unfold Numeral.int?
  rw [takeSign_of_digits (isDigit_of_mem_takeDigits field), Option.filter_eq_some_iff,
    decide_eq_true_eq]
  dsimp only
  rw [List.all_eq_true.2 (isDigit_of_mem_takeDigits field)]
  constructor
  · rintro ⟨hread, -, hle⟩
    split at hread
    · next hdigits =>
      exact ⟨Digits.front field, Digits.isFrontOf_iff.2 rfl, hdigits.1, Option.some.inj hread, hle⟩
    · cases hread
  · rintro ⟨digits, hfront, hne, rfl, hle⟩
    have htext := Digits.isFrontOf_iff.1 hfront
    rw [htext] at hne
    refine ⟨?_, by omega, hle⟩
    rw [if_pos ⟨hne, rfl⟩, ← htext]
    rfl

theorem Bytes.LeadsWith.unique {field : Bytes} {n n' : Int} (h : field.LeadsWith n)
    (h' : field.LeadsWith n') : n = n' := by
  rw [← int32?_takeDigits_eq_some_iff] at h h'
  exact Option.some.inj (h.symm.trans h')

namespace HeaderLine

/-- A field gives the number that its leading digits write.  It is at fault if it is not there, or
else if it has no such digits or too many. -/
theorem leadingInt_cases (l : HeaderLine) (index : Nat) :
    (∀ n, l.leadingInt index = .ok n ↔ ∃ field, l.fields[index]? = some field ∧ field.LeadsWith n) ∧
    (l.fields[index]? = none →
      l.leadingInt index = .error (.missingField l.label index l.line)) ∧
    (∀ field, l.fields[index]? = some field → (¬∃ n, field.LeadsWith n) →
      l.leadingInt index = .error (.noLeadingInteger l.label field)) := by
  refine ⟨fun n => ?_, fun hnone => ?_, fun field hfield hno => ?_⟩
  · rw [leadingInt_eq_ok_iff]
    exact exists_congr fun field => and_congr_right fun _ => Bytes.int32?_takeDigits_eq_some_iff
  · rw [leadingInt_eq_error_iff]
    exact Or.inl ⟨List.getElem?_eq_none_iff.1 hnone, rfl⟩
  · rw [leadingInt_eq_error_iff]
    refine Or.inr ⟨field, hfield, Option.eq_none_iff_forall_ne_some.2 fun n hn => hno ⟨n, ?_⟩, rfl⟩
    exact Bytes.int32?_takeDigits_eq_some_iff.1 hn

end HeaderLine

namespace Header

/-- The line of the sampling rate writes the number at the front of its field 2. -/
def RateWrittenIn (lines : List Bytes) (n : Int) : Prop :=
  ∃ (i : Nat) (line field : Bytes), HeaderItem.inOrder[i]? = some .samplingRate ∧
    lines[i]? = some line ∧ line.words[2]? = some field ∧ field.LeadsWith n

theorem RateWrittenIn.unique {lines : List Bytes} {n n' : Int} (h : RateWrittenIn lines n)
    (h' : RateWrittenIn lines n') : n = n' := by
  obtain ⟨i, line, field, hitem, hline, hfield, hleads⟩ := h
  obtain ⟨i', line', field', hitem', hline', hfield', hleads'⟩ := h'
  obtain rfl := line_unique hitem hline hitem' hline'
  obtain rfl := Option.some.inj (hfield.symm.trans hfield')
  exact hleads.unique hleads'

theorem rateWrittenIn_iff_of_read {o : ReadOptions} {lines : List Bytes} {h : Header}
    (hread : read o lines = .ok h) {n : Int} :
    RateWrittenIn lines n ↔ n = h.recording.rate := by
  obtain ⟨i, line, hitem, hline, -, field, hfield, hrate⟩ :=
    exists_line_of_read hread .samplingRate
  have hwritten : RateWrittenIn lines h.recording.rate :=
    ⟨i, line, field, hitem, hline, hfield, Bytes.int32?_takeDigits_eq_some_iff.1 hrate⟩
  exact ⟨fun hn => hn.unique hwritten, fun hn => hn ▸ hwritten⟩

end Header

namespace Record

/-- A text is read as a whole number if it writes one that fits in 32 bits, and then as that number,
which a variable that it is read into holds afterwards; otherwise the variable holds what it held
before.  A header field is read as the number that its leading digits write, and the sampling rate
of a record is the number in the line for it. -/
theorem whole_numbers_exact (s : Bytes) (l : HeaderLine) (index : Nat) (o : ReadOptions)
    (content : Bytes) :
    ((∀ n, s.int32? = some n ↔
        ∃ w : WrittenInteger, w.text = s ∧ w.value = n ∧ -2 ^ 31 ≤ n ∧ n ≤ 2 ^ 31 - 1) ∧
      (∀ w w' : WrittenInteger, w.text = s → w'.text = s → w.value = w'.value) ∧
      (∀ before : Int,
        (∀ n, s.int32? = some n ↔ s.parseInt32 before = ⟨true, n⟩) ∧
        ((¬∃ w : WrittenInteger, w.text = s ∧ -2 ^ 31 ≤ w.value ∧ w.value ≤ 2 ^ 31 - 1) →
          s.parseInt32 before = ⟨false, before⟩)) ∧
      s.int32Word?.map Int32.toInt = s.int32?) ∧
    ((∀ n, l.leadingInt index = .ok n ↔
        ∃ field, l.fields[index]? = some field ∧ field.LeadsWith n) ∧
      (l.fields[index]? = none →
        ∃ f, l.leadingInt index = .error f ∧ f.kind = .missingField) ∧
      (∀ field, l.fields[index]? = some field → (¬∃ n, field.LeadsWith n) →
        ∃ f, l.leadingInt index = .error f ∧ f.kind = .number)) ∧
    (∀ lines h, Header.read o lines = .ok h → ∀ n,
      Header.RateWrittenIn lines n ↔ n = h.recording.rate) ∧
    ∀ r, read o content = .ok r → ∃ (d : Decoder) (texts : List Bytes) (rest : Bytes),
      Decoder.ofChoice o.encoding = .ok d ∧ HeaderText.Block d content texts rest ∧
        ∀ n, Header.RateWrittenIn texts n ↔ n = r.header.recording.rate := by
  obtain ⟨hok, hmissing, hno⟩ := l.leadingInt_cases index
  refine ⟨⟨fun n => Bytes.int32?_eq_some_iff, fun w w' hw hw' => ?_,
    fun before => ⟨fun n => ?_, fun hnone => ?_⟩, s.int32Word?_eq⟩, ⟨hok, fun hnone =>
    ⟨_, hmissing hnone, rfl⟩, fun field hfield hleads => ⟨_, hno field hfield hleads, rfl⟩⟩,
    fun lines h hread n => Header.rateWrittenIn_iff_of_read hread, fun r hread => ?_⟩
  · exact WrittenInteger.value_eq_of_text_eq (hw.trans hw'.symm)
  · rw [Bytes.parseInt32_eq, Parse.store_eq_true_iff]
  · cases hs : s.int32? with
    | none => rw [Bytes.parseInt32_eq, hs, Parse.store]
    | some n =>
      obtain ⟨w, htext, rfl, hrange⟩ := Bytes.int32?_eq_some_iff.1 hs
      exact absurd ⟨w, htext, hrange⟩ hnone
  · obtain ⟨d, texts, rest, h, xs, hd, hblock, hheader, -, rfl⟩ := exists_block_of_read_eq_ok hread
    exact ⟨d, texts, rest, hd, hblock, fun n => Header.rateWrittenIn_iff_of_read hheader⟩

/-- The least number of 32 bits is read, a rate one too large is refused, and the short file has the
rate of its line. -/
theorem whole_numbers_exact_shortFile :
    Bytes.int32? "-2147483648" = some (-2147483648) ∧
    (∃ f,
      HeaderLine.leadingInt ⟨"Sampling Freq(Hz)", "Sampling Freq(Hz) 2147483648Hz"⟩ 2 = .error f ∧
      f.kind = .number) ∧
    ∃ (r : Record) (texts : List Bytes) (rest : Bytes), read {} shortFile = .ok r ∧
      HeaderText.Block ⟨"UTF-8", .utf8⟩ shortFile texts rest ∧
      Header.RateWrittenIn texts r.header.recording.rate := by
  obtain ⟨r, hread⟩ := exists_read_shortFile
  obtain ⟨⟨hint, -⟩, ⟨-, -, hno⟩, -, hrate⟩ := whole_numbers_exact "-2147483648"
    ⟨"Sampling Freq(Hz)", "Sampling Freq(Hz) 2147483648Hz"⟩ 2 {} shortFile
  have hlead : ¬∃ n, Bytes.LeadsWith "2147483648Hz" n := by
    rintro ⟨n, hn⟩
    have hnone : (Bytes.takeDigits "2147483648Hz").int32? = none := by decide +kernel
    rw [Bytes.int32?_takeDigits_eq_some_iff.2 hn] at hnone
    cases hnone
  obtain ⟨d, texts, rest, hd, hblock, hwritten⟩ := hrate r hread
  obtain rfl : d = ⟨"UTF-8", .utf8⟩ := (Except.ok.inj hd).symm
  refine ⟨(hint _).2 ⟨⟨.minus, ⟨"2147483648", by decide +kernel⟩, by decide +kernel⟩, rfl,
    by decide +kernel, by decide, by decide⟩, hno _ (by decide +kernel) hlead,
    r, texts, rest, hread, hblock, (hwritten _).2 rfl⟩

example : (["", "+", "-0x1", "1.0", "1 ", "2147483648", "-2147483649", "4294967297"] :
    List Bytes).all (·.int32?.isNone) = true := by decide +kernel

end Record
end StrongMotion
