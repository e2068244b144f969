import StrongMotion.Proofs.Excerpts
import StrongMotion.Record.Source

/-!
# Looking for the signature

A look at a file takes its first 64 bytes, which may end within a character.  The file is marked as
a record exactly when they begin with text that decodes and has the signature at its front, with no
more behind it than a character that is broken off (`Source.sniff_iff_decodes_to_signature`).

A strict source interrupts the look when it has fewer bytes to give.  The interruption is taken for
the verdict that the file is no record, so that a short file can be one for a lenient source and
none for a strict one (`Source.sniff_strict_eq_lenient_iff`).
-/

namespace StrongMotion

/-! ## Characters that are broken off -/

namespace Decoder

/-- Behind `front` there is the beginning of one character: however much of `rest` is looked at, the
text ends within it. -/
def BreaksOff (d : Decoder) (front rest : Bytes) : Prop :=
  rest ≠ [] ∧ ∀ part, part <+: rest → part ≠ [] →
    d.decode (front ++ part) = .error (.undecodable d.name .cut)

variable {d : Decoder} {front rest : Bytes} {codes : List Nat}

theorem breaksOff_of_haltsAt (hfront : d.encoding.decode front = ⟨codes, none⟩)
    (hrest : HaltsAt (d.encoding.after front).step rest (some .cut)) : d.BreaksOff front rest := by
  obtain ⟨hne, hcut⟩ := hrest
  refine ⟨hne, fun part hpart hpart' => ?_⟩
  obtain ⟨more, rfl⟩ := hpart
  have hhalts : HaltsAt (d.encoding.after front).step part (some .cut) :=
    ⟨hpart', Encoding.step_of_cut_append _ hcut⟩
  apply decode_eq_error_iff.2
  exact ⟨.cut, by rw [Encoding.decode_append hfront hhalts], rfl⟩

/-- The text in front of a character that is broken off is all that is read. -/
theorem BreaksOff.decode_append (hrest : d.BreaksOff front rest)
    (hfront : d.encoding.decode front = ⟨codes, none⟩) :
    d.encoding.decode (front ++ rest) = ⟨codes, some .cut⟩ := by
  obtain ⟨front', rest', hsplit, hfront', hhalts⟩ :=
    d.encoding.exists_decode_eq_append (front ++ rest)
  have hcut : (d.encoding.decode (front ++ rest)).flaw = some .cut := by
    obtain ⟨flaw, hflaw, heq⟩ :=
      decode_eq_error_iff.1 (hrest.2 rest (List.prefix_refl rest) hrest.1)
    obtain rfl := (Fault.undecodable.inj heq).2
    exact hflaw
  -- A text that decodes ends neither within the character nor before the characters in front of it.
  have heq : front' = front := by
    rcases List.append_eq_append_iff.1 hsplit with ⟨part, hpart, hrest'⟩ | ⟨part, hpart, hrest'⟩
    · by_cases hnil : part = []
      · rw [hpart, hnil, List.append_nil]
      · have herror := hrest.2 part ⟨rest', hrest'.symm⟩ hnil
        rw [← hpart, decode_eq_ok_iff_codes.2 ⟨_, hfront', rfl⟩] at herror
        cases herror
    · by_cases hnil : part = []
      · rw [hpart, hnil, List.append_nil]
      · rw [hcut] at hhalts
        have herror := (breaksOff_of_haltsAt hfront' hhalts).2 part ⟨rest, hrest'.symm⟩ hnil
        rw [← hpart, decode_eq_ok_iff_codes.2 ⟨_, hfront, rfl⟩] at herror
        cases herror
  rw [heq, hfront] at hfront'
  rw [Decoded.mk.injEq] at hfront'
  rw [hfront'.1, ← hcut]

end Decoder

/-! ## The verdict -/

namespace Signature

variable {choice : Option Bytes} {d : Decoder} {s : Bytes}

theorem isAscii_text : text.IsAscii := by decide

/-- The verdict is about the characters that are read, and about a flaw only if it is no cut. -/
theorem opens_eq_true_iff (hd : Decoder.ofChoice choice = .ok d) :
    opens choice s = true ↔
      text <+: Utf8.text (d.encoding.decode s).codes ∧
        (d.encoding.decode s).flaw ≠ some .invalid := by
  have hcodes := d.encoding.isCode_of_mem_decode s
  unfold opens
  rw [hd]
  simp only [Decoder.excerpt, Bool.and_eq_true, Bool.not_eq_true', beq_iff_eq, beq_eq_false_iff_ne]
  constructor
  · rintro ⟨⟨hvalid, -⟩, htext⟩
    obtain ⟨more, hmore, -⟩ := Utf8.isFront_text hcodes (List.take_prefix text.length _)
    rw [htext] at hmore
    exact ⟨⟨more, hmore.symm⟩, hvalid⟩
  · rintro ⟨hfront, hvalid⟩
    have hmap := Utf8.prefix_of_text (fun code hcode => (hcodes code hcode).1) isAscii_text hfront
    have htake : (d.encoding.decode s).codes.take text.length = text.map UInt8.toNat := by
      rw [List.prefix_iff_eq_take.1 hmap, List.length_map]
    rw [htake, List.length_map, Utf8.text_map_toNat isAscii_text]
    exact ⟨⟨hvalid, rfl⟩, rfl⟩

theorem opens_of_unknown {f : Fault} (hf : Decoder.ofChoice choice = .error f) (s : Bytes) :
    opens choice s = false := by
  unfold opens
  rw [hf]

theorem opens_of_invalid (hd : Decoder.ofChoice choice = .ok d)
    (hs : d.decode s = .error (.undecodable d.name .invalid)) : opens choice s = false := by
  obtain ⟨flaw, hflaw, heq⟩ := Decoder.decode_eq_error_iff.1 hs
  obtain rfl := (Fault.undecodable.inj heq).2
  rw [Bool.eq_false_iff, ne_eq, opens_eq_true_iff hd]
  exact fun h => h.2 hflaw

/-- With no more behind it than a character that is broken off, text is judged by its front. -/
theorem opens_append_iff (hd : Decoder.ofChoice choice = .ok d) {front rest t : Bytes}
    (hfront : d.decode front = .ok t) (hrest : rest = [] ∨ d.BreaksOff front rest) :
    opens choice (front ++ rest) = true ↔ text <+: t := by
  obtain ⟨codes, hcodes, rfl⟩ := Decoder.decode_eq_ok_iff_codes.1 hfront
  rw [opens_eq_true_iff hd]
  rcases hrest with rfl | hrest
  · rw [List.append_nil, hcodes]
    simp
  · rw [hrest.decode_append hcodes]
    simp

theorem exists_of_opens (hd : Decoder.ofChoice choice = .ok d) (hs : opens choice s = true) :
    ∃ front rest t, s = front ++ rest ∧ d.decode front = .ok t ∧
      (rest = [] ∨ d.BreaksOff front rest) ∧ text <+: t := by
  obtain ⟨htext, hvalid⟩ := (opens_eq_true_iff hd).1 hs
  obtain ⟨front, rest, hsplit, hfront, hhalts⟩ := d.encoding.exists_decode_eq_append s
  refine ⟨front, rest, _, hsplit, Decoder.decode_eq_ok_iff_codes.2 ⟨_, hfront, rfl⟩, ?_, htext⟩
  cases hflaw : (d.encoding.decode s).flaw with
  | none =>
    rw [hflaw] at hhalts
    exact Or.inl hhalts
  | some flaw =>
    rw [hflaw] at hhalts hvalid
    cases flaw with
    | invalid => exact absurd rfl hvalid
    | cut => exact Or.inr (Decoder.breaksOff_of_haltsAt hfront hhalts)

end Signature

/-! ## Looks that are interrupted -/

/-- What interrupts a look at a source. -/
inductive Interruption
  /-- A strict source had less to give than was asked for. -/
  | failure
  /-- No decoder could be made. -/
  | fault (f : Fault)
deriving DecidableEq, Repr

namespace Source

/-- A look at a source, which says what interrupted it. -/
def look (strict : Bool) (choice : Option Bytes) (s : Source) : Except Interruption Bool :=
  let (opening, after) := s.take Signature.window
  if strict && after.failed then .error .failure
  else
    match Decoder.ofChoice choice with
    | .error f => .error (.fault f)
    | .ok d =>
      let excerpt := d.excerpt Signature.text.length opening
      .ok (!excerpt.invalid && excerpt.characters == Signature.text.length &&
        excerpt.text == Signature.text)

/-- No interruption gets out: each of them is the verdict that there is no record. -/
theorem sniff_eq_look (strict : Bool) (choice : Option Bytes) (s : Source) :
    (s.sniff strict choice).1 = (s.look strict choice).toOption.getD false := by
  unfold sniff look Signature.opens
  dsimp only
  cases strict && (s.take Signature.window).2.failed with
  | true => rfl
  | false => cases Decoder.ofChoice choice <;> rfl

variable (choice : Option Bytes) (content : Bytes)

theorem sniff_lenient :
    (Source.sniff false choice { content }).1 = Signature.marks choice content :=
  sniff_fresh false choice content

theorem sniff_strict :
    (Source.sniff true choice { content }).1 =
      (decide (Signature.window ≤ content.length) && Signature.marks choice content) := by
  rw [sniff_fresh, Bool.true_and, ← decide_not, decide_eq_decide.2 Nat.not_lt]

/-- A lenient source of a known encoding is marked exactly when the bytes looked at are text that
decodes and begins with the signature, and behind it nothing or a character that is broken off.  So
a sequence that no character has rules a record out wherever it stands, and one that is broken off
does not. -/
theorem sniff_iff_decodes_to_signature :
    ((Source.sniff false choice { content }).1 = true ↔
      ∃ d front rest t, Decoder.ofChoice choice = .ok d ∧ content.take 64 = front ++ rest ∧
        d.decode front = .ok t ∧ (rest = [] ∨ d.BreaksOff front rest) ∧
          Bytes.ofString "Origin Time" <+: t) ∧
    (∀ d, Decoder.ofChoice choice = .ok d →
      (d.decode (content.take 64) = .error (.undecodable d.name .invalid) →
        (Source.sniff false choice { content }).1 = false) ∧
      ∀ front rest t, content.take 64 = front ++ rest → d.decode front = .ok t →
        d.BreaksOff front rest →
          ((Source.sniff false choice { content }).1 = true ↔
            Bytes.ofString "Origin Time" <+: t)) ∧
    ∀ f, Decoder.ofChoice choice = .error f →
      (Source.sniff false choice { content }).1 = false := by
  rw [sniff_lenient]
  unfold Signature.marks
  refine ⟨⟨fun hopens => ?_, ?_⟩, fun d hd => ⟨fun hinvalid => ?_, ?_⟩, fun f hf => ?_⟩
  · cases hd : Decoder.ofChoice choice with
    | error f =>
      rw [Signature.opens_of_unknown hd] at hopens
      cases hopens
    | ok d =>
      obtain ⟨front, rest, t, hsplit, hfront, hrest, htext⟩ := Signature.exists_of_opens hd hopens
      exact ⟨d, front, rest, t, rfl, hsplit, hfront, hrest, htext⟩
  · intro ⟨d, front, rest, t, hd, hsplit, hfront, hrest, htext⟩
    show Signature.opens choice (content.take 64) = true
    rw [hsplit, Signature.opens_append_iff hd hfront hrest]
    exact htext
  · exact Signature.opens_of_invalid hd hinvalid
  · intro front rest t hsplit hfront hrest
    show Signature.opens choice (content.take 64) = true ↔ _
    rw [hsplit, Signature.opens_append_iff hd hfront (Or.inr hrest)]
    exact Iff.rfl
  · exact Signature.opens_of_unknown hf _

/-- A file of more than 64 bytes, of which a letter of two bytes is the last that is looked at. -/
def accentedOpening : Bytes :=
  Bytes.ofString "Origin Time 2011/03/11 14:46:00\nLat. 38.1\nLong. 142\nMag. 9 (café)"

theorem sniff_iff_decodes_to_signature_accentedOpening :
    ∃ d front rest t, Decoder.ofChoice none = .ok d ∧
      accentedOpening.take 64 = front ++ rest ∧ d.decode front = .ok t ∧ d.BreaksOff front rest ∧
        (Source.sniff false none { content := accentedOpening }).1 = true := by
  have hd : Decoder.ofChoice none = .ok ⟨"UTF-8", .utf8⟩ := rfl
  have hsplit : accentedOpening.take 64 = accentedOpening.take 63 ++ [0xC3] := by decide +kernel
  have hfront : Decoder.decode ⟨"UTF-8", .utf8⟩ (accentedOpening.take 63) =
      .ok (accentedOpening.take 63) := by decide +kernel
  have hrest : Decoder.BreaksOff ⟨"UTF-8", .utf8⟩ (accentedOpening.take 63) [0xC3] := by
    refine ⟨List.cons_ne_nil _ _, fun part hpart hne => ?_⟩
    have hwhole : part = [0xC3] :=
      hpart.eq_of_length_le (Nat.succ_le_of_lt (List.length_pos_iff.2 hne))
    rw [hwhole]
    decide +kernel
  refine ⟨_, _, _, _, hd, hsplit, hfront, hrest, ?_⟩
  have hverdict := sniff_iff_decodes_to_signature none accentedOpening
  exact ((hverdict.2.1 _ hd).2 _ _ _ hsplit hfront hrest).2 (by decide +kernel)

/-- The verdict is that of a look that may be interrupted, and every interruption is a refusal.  For
a strict source it is the verdict for a lenient one exactly when there are 64 bytes to look at, or
when a lenient source is refused as well: with fewer bytes the look is interrupted. -/
theorem sniff_strict_eq_lenient_iff :
    (∀ strict, (Source.sniff strict choice { content }).1 =
      (look strict choice { content }).toOption.getD false) ∧
    ((Source.sniff true choice { content }).1 = (Source.sniff false choice { content }).1 ↔
      64 ≤ content.length ∨ (Source.sniff false choice { content }).1 = false) ∧
    (content.length < 64 → look true choice { content } = .error .failure) := by
  refine ⟨fun strict => sniff_eq_look strict choice _, ?_, fun hshort => ?_⟩
  · rw [sniff_strict, sniff_lenient]
    by_cases hlong : Signature.window ≤ content.length
    · have hlong' : 64 ≤ content.length := hlong
      simp only [hlong, hlong', decide_true, Bool.true_and, true_or]
    · have hlong' : ¬64 ≤ content.length := hlong
      simp only [hlong, hlong', decide_false, Bool.false_and, false_or]
      exact eq_comm
  · have hshort' : content.length < Signature.window := hshort
    unfold look
    rw [take_fresh]
    simp [hshort']

/-- The signature alone is a record for a lenient source and none for a strict one. -/
theorem sniff_strict_ne_lenient_of_signature :
    (Source.sniff false none { content := "Origin Time" }).1 = true ∧
      (Source.sniff true none { content := "Origin Time" }).1 = false := by
  decide +kernel

end Source
end StrongMotion
