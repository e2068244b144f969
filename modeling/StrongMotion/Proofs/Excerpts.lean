import StrongMotion.Proofs.CutTexts
import StrongMotion.Proofs.FieldTexts
import StrongMotion.Proofs.ReadingFaults

/-!
# Excerpts

An excerpt is made of the front of a text, which may end anywhere.  It has the first characters of
what the whole text says, it is called invalid only if the whole text is, and then the text does not
decode (`Decoder.excerpt_of_front`).
-/

namespace StrongMotion

namespace Utf8

/-- One byte of a form is no continuation byte. -/
theorem count_encode {code : Nat} (hcode : code < twoTo 31) : count (encode code) = 1 := by
  obtain ⟨lead, tail, hencode, hlead, htail⟩ := exists_encode_eq_cons hcode
  have hnone : tail.countP (fun b => !isContinuation b) = 0 := by
    apply List.countP_eq_zero.2
    intro b hb
    simp [htail b hb]
  rw [hencode, count, List.countP_cons_of_pos (by simp [hlead]), hnone]

theorem count_text {codes : List Nat} (hcodes : ∀ code ∈ codes, IsCode code) :
    count (text codes) = codes.length := by
  induction codes with
  | nil => rfl
  | cons code codes ih =>
    obtain ⟨hcode, hrest⟩ := List.forall_mem_cons.1 hcodes
    show count (encode code ++ text codes) = _
    rw [count_append, count_encode hcode.1, ih hrest, List.length_cons, Nat.add_comm]

/-- The text begins with `front`, which ends between two of its characters or with the last one. -/
def IsFront (front text : Bytes) : Prop := ∃ rest, text = front ++ rest ∧ AtCharacter rest

theorem isFront_text {a codes : List Nat} (hcodes : ∀ code ∈ codes, IsCode code)
    (ha : a <+: codes) : IsFront (text a) (text codes) := by
  obtain ⟨b, rfl⟩ := ha
  have hb := (List.forall_mem_append.1 hcodes).2
  exact ⟨text b, text_append a b, (wellFormed_text hb).atCharacter⟩

end Utf8

theorem Encoding.isCode_of_mem_decode (e : Encoding) (s : Bytes) :
    ∀ code ∈ (e.decode s).codes, Utf8.IsCode code := by
  obtain ⟨front, rest, -, hfront, -⟩ := e.exists_decode_eq_append s
  exact Utf8.isCode_of_characters _ (characters_of_scan (isLocal_step _) hfront)

namespace Decoder

variable {d : Decoder} {s t : Bytes}

theorem decode_eq_ok_iff_codes : d.decode s = .ok t ↔
    ∃ codes, d.encoding.decode s = ⟨codes, none⟩ ∧ t = Utf8.text codes := by
  unfold decode
  cases d.encoding.decode s with
  | mk codes flaw => cases flaw <;> simp [eq_comm]

theorem decode_eq_error_iff {f : Fault} : d.decode s = .error f ↔
    ∃ flaw, (d.encoding.decode s).flaw = some flaw ∧ f = .undecodable d.name flaw := by
  unfold decode
  cases d.encoding.decode s with
  | mk codes flaw => cases flaw <;> simp [eq_comm]

theorem characters_excerpt (d : Decoder) (limit : Nat) (s : Bytes) :
    (d.excerpt limit s).characters = Utf8.count (d.excerpt limit s).text := by
  have hcodes := d.encoding.isCode_of_mem_decode s
  exact (Utf8.count_text fun code hcode => hcodes code (List.mem_of_mem_take hcode)).symm

theorem characters_excerpt_le (d : Decoder) (limit : Nat) (s : Bytes) :
    (d.excerpt limit s).characters ≤ limit := List.length_take_le _ _

theorem invalid_excerpt_iff (limit : Nat) :
    (d.excerpt limit s).invalid = true ↔ (d.encoding.decode s).flaw = some .invalid := by
  show ((d.encoding.decode s).flaw == some .invalid) = true ↔ _
  rw [beq_iff_eq]

/-- The front of a text that decodes is not invalid, and an excerpt from it is one from the text. -/
theorem excerpt_of_decode {front : Bytes} (hfront : front <+: s) (hs : d.decode s = .ok t)
    (limit : Nat) :
    (d.excerpt limit front).invalid = false ∧ Utf8.IsFront (d.excerpt limit front).text t := by
  obtain ⟨codes, hcodes, rfl⟩ := decode_eq_ok_iff_codes.1 hs
  have hall := d.encoding.isCode_of_mem_decode s
  rw [hcodes] at hall
  obtain ⟨hkept, hflaw⟩ := Encoding.decode_take hcodes front.length
  rw [← List.prefix_iff_eq_take.1 hfront] at hkept hflaw
  constructor
  · rw [Bool.eq_false_iff, ne_eq, invalid_excerpt_iff]
    exact hflaw
  · exact Utf8.isFront_text hall ((List.take_prefix _ _).trans hkept)

/-- Of a text that decodes an excerpt has as many characters as there are, up to the limit. -/
theorem count_excerpt_of_decode (hs : d.decode s = .ok t) (limit : Nat) :
    Utf8.count (d.excerpt limit s).text = min limit (Utf8.count t) := by
  obtain ⟨codes, hcodes, rfl⟩ := decode_eq_ok_iff_codes.1 hs
  have hall := d.encoding.isCode_of_mem_decode s
  rw [← characters_excerpt]
  rw [hcodes] at hall
  rw [Utf8.count_text hall, excerpt, hcodes]
  exact List.length_take

/-- From the front of a text that decodes, an excerpt has the first characters of the text, all of
them up to the limit if the front is the whole.  Its characters are counted, and it is called
invalid only if no text with that front decodes.  If the text itself is not called so and does not
decode, it ends within a character.  Texts before it that have the same front make no difference. -/
theorem excerpt_of_front (d : Decoder) (s : Bytes) :
    (∀ t, d.decode s = .ok t →
      (∀ front limit, front <+: s → (d.excerpt limit front).invalid = false ∧
        Utf8.IsFront (d.excerpt limit front).text t) ∧
      ∀ limit, Utf8.count (d.excerpt limit s).text = min limit (Utf8.count t)) ∧
    (∀ front limit, front <+: s →
      (d.excerpt limit front).characters = Utf8.count (d.excerpt limit front).text ∧
      (d.excerpt limit front).characters ≤ limit ∧
      ((d.excerpt limit front).invalid = true → ∃ f, d.decode s = .error f ∧ f.kind = .encoding)) ∧
    (∀ limit f, d.decode s = .error f → (d.excerpt limit s).invalid = false →
      f = .undecodable d.name .cut ∧
        f.detail = "Cannot decode line as " ++ d.name ++ ": " ++ "Invalid argument") ∧
    ∀ front, front <+: s → (d.after front).decode s = d.decode s ∧
      ∀ limit, (d.after s).excerpt limit front = d.excerpt limit front := by
  refine ⟨fun t ht => ⟨fun front limit hfront => excerpt_of_decode hfront ht limit,
      count_excerpt_of_decode ht⟩,
    fun front limit hfront => ⟨d.characters_excerpt limit front,
      d.characters_excerpt_le limit front, fun hinvalid => ?_⟩,
    fun limit f hf hvalid => ?_, fun front hfront => ⟨?_, fun limit => ?_⟩⟩
  · cases hs : d.decode s with
    | error f => exact ⟨f, rfl, kind_of_decode hs⟩
    | ok t =>
      rw [(excerpt_of_decode hfront hs limit).1] at hinvalid
      cases hinvalid
  · obtain ⟨flaw, hflaw, rfl⟩ := decode_eq_error_iff.1 hf
    rw [Bool.eq_false_iff, ne_eq, invalid_excerpt_iff, hflaw] at hvalid
    cases flaw with
    | invalid => exact absurd rfl hvalid
    | cut => exact ⟨rfl, rfl⟩
  · show Decoder.decode ⟨d.name, d.encoding.after front⟩ s = d.decode s
    unfold decode
    dsimp only
    rw [Encoding.decode_after (Or.inr hfront)]
  · show Decoder.excerpt ⟨d.name, d.encoding.after s⟩ limit front = d.excerpt limit front
    unfold excerpt
    dsimp only
    rw [Encoding.decode_after (Or.inl hfront)]

end Decoder
end StrongMotion
