import StrongMotion.Proofs.EncodingRules

/-!
# ASCII in other encodings

Labels and numbers are ASCII, and so is the text that closes a line.  Where an encoding extends
ASCII, ASCII at the front of what a text says is at the front of its bytes
(`ExtendsAscii.prefix_of_text`).
-/

namespace StrongMotion

def Bytes.IsAscii (s : Bytes) : Prop := ∀ b ∈ s, b.toNat < 0x80

instance (s : Bytes) : Decidable s.IsAscii := List.decidableBAll _ s

/-- A rule by which an ASCII byte writes itself and nothing else writes an ASCII character. -/
structure ExtendsAscii (step : Bytes → Step) : Prop where
  isLocal : IsLocal step
  step_ascii : ∀ {b : UInt8}, b.toNat < 0x80 → ∀ rest, step (b :: rest) = .char b.toNat 1
  of_step : ∀ {b : UInt8} {rest : Bytes} {code length : Nat},
    step (b :: rest) = .char code length → code < 0x80 → b.toNat = code ∧ length = 1
  /-- UTF-8 has a form for the code. -/
  code_lt : ∀ {s : Bytes} {code length : Nat}, step s = .char code length → code < twoTo 31

theorem Utf8.extendsAscii_step : ExtendsAscii Utf8.step where
  isLocal := isLocal_step
  step_ascii := by
    intro b hb rest
    simp only [step, if_pos hb]
  of_step := by
    intro b rest code length h hcode
    cases lead b with
    | ascii _ hb =>
      rw [hb] at h
      cases h
      exact ⟨rfl, rfl⟩
    | stray hb =>
      rw [hb] at h
      cases h
    | long least count known hleast _ hb =>
      rw [hb] at h
      have hge := (follow_eq_char h).2.1
      omega
  code_lt := by
    intro s code length h
    cases s with
    | nil => cases h
    | cons b rest =>
      cases lead b with
      | ascii hlt hb =>
        rw [hb] at h
        cases h
        exact Nat.lt_trans hlt (by decide)
      | stray hb =>
        rw [hb] at h
        cases h
      | long least count known _ hbound hb =>
        rw [hb] at h
        exact Nat.lt_of_lt_of_le (follow_eq_char h).2.2.1 hbound

theorem Encoding.extendsAscii_singleByte {limit : Nat} (hlimit : 0x80 ≤ limit) :
    ExtendsAscii (singleByte limit) where
  isLocal := isLocal_singleByte limit
  step_ascii := by
    intro b hb rest
    rw [singleByte, if_pos (Nat.lt_of_lt_of_le hb hlimit)]
  of_step := by
    intro b rest code length h _
    rw [singleByte] at h
    split at h
    · cases h
      exact ⟨rfl, rfl⟩
    · cases h
  code_lt := by
    intro s code length h
    cases s with
    | nil => cases h
    | cons b rest =>
      rw [singleByte] at h
      split at h
      · cases h
        exact Nat.lt_trans b.toNat_lt (by decide)
      · cases h

/-- Encodings in which ASCII text is what it is, and which put no mark before a text. -/
def Encoding.asciiBased : List Encoding := [utf8, ascii, latin1]

section Encoding

variable {e : Encoding} (he : e ∈ Encoding.asciiBased)
include he

theorem Encoding.extendsAscii_step : ExtendsAscii e.step := by
  simp only [asciiBased, List.mem_cons, List.not_mem_nil, or_false] at he
  rcases he with rfl | rfl | rfl
  · exact Utf8.extendsAscii_step
  · exact extendsAscii_singleByte (Nat.le_refl _)
  · exact extendsAscii_singleByte (by decide)

theorem Encoding.after_eq (s : Bytes) : e.after s = e := by
  simp only [asciiBased, List.mem_cons, List.not_mem_nil, or_false] at he
  rcases he with rfl | rfl | rfl <;> rfl

theorem Encoding.unmarked_eq (s : Bytes) : e.unmarked s = s := by
  simp only [asciiBased, List.mem_cons, List.not_mem_nil, or_false] at he
  rcases he with rfl | rfl | rfl <;> rfl

end Encoding

section Decoder

variable {d : Decoder} (he : d.encoding ∈ Encoding.asciiBased)
include he

theorem Decoder.exists_characters {s text : Bytes} (htext : d.decode s = .ok text) :
    ∃ codes, Characters d.encoding.step s codes ∧ text = Utf8.text codes := by
  have h := decode_eq_ok_iff.1 htext
  rw [Encoding.after_eq he, Encoding.unmarked_eq he] at h
  exact h

theorem Decoder.after_eq (s : Bytes) : d.after s = d := by
  unfold Decoder.after
  rw [Encoding.after_eq he]

end Decoder

/-! ## The UTF-8 form of a code -/

namespace Utf8

theorem encode_ascii {b : UInt8} (hb : b.toNat < 0x80) : encode b.toNat = [b] := by
  rw [encode, if_pos hb, UInt8.ofNat_toNat]

theorem text_map_toNat {s : Bytes} (hs : s.IsAscii) : text (s.map UInt8.toNat) = s := by
  induction s with
  | nil => rfl
  | cons b s ih =>
    obtain ⟨hb, hrest⟩ := List.forall_mem_cons.1 hs
    show encode b.toNat ++ text (s.map UInt8.toNat) = b :: s
    rw [encode_ascii hb, ih hrest, List.singleton_append]

/-- The first byte of a code that is not ASCII is no ASCII byte. -/
theorem exists_lead {code : Nat} (hascii : 0x80 ≤ code) (hcode : code < twoTo 31) :
    ∃ b rest, encode code = b :: rest ∧ 0x80 ≤ b.toNat := by
  have hlead : ∀ {n : Nat}, 0x80 ≤ n → n < 0x100 → 0x80 ≤ (UInt8.ofNat n).toNat := by
    intro n hlow hhigh
    rw [UInt8.toNat_ofNat', Nat.mod_eq_of_lt hhigh]
    exact hlow
  have h31 : twoTo 31 = 0x80000000 := rfl
  unfold encode
  rw [if_neg (by omega)]
  split
  · exact ⟨_, _, rfl, hlead (by omega) (by omega)⟩
  split
  · exact ⟨_, _, rfl, hlead (by omega) (by omega)⟩
  split
  · exact ⟨_, _, rfl, hlead (by omega) (by omega)⟩
  split
  · exact ⟨_, _, rfl, hlead (by omega) (by omega)⟩
  · exact ⟨_, _, rfl, hlead (by omega) (by omega)⟩

end Utf8

/-! ## ASCII text -/

namespace ExtendsAscii

variable {step : Bytes → Step}

theorem character (hstep : ExtendsAscii step) {b : UInt8} (hb : b.toNat < 0x80) :
    Character step [b] b.toNat := by
  obtain ⟨bytes, rest, hs, hlength, hchar⟩ := hstep.isLocal (hstep.step_ascii hb [])
  have hbytes : bytes = [b] := by
    have htake := congrArg (List.take 1) hs
    rw [← hlength, List.take_left, hlength] at htake
    exact htake.symm
  rw [← hbytes]
  exact hchar

theorem characters (hstep : ExtendsAscii step) {s : Bytes} (hs : s.IsAscii) :
    Characters step s (s.map UInt8.toNat) := by
  induction s with
  | nil => exact .nil
  | cons b s ih =>
    obtain ⟨hb, hrest⟩ := List.forall_mem_cons.1 hs
    exact .cons (hstep.character hb) (ih hrest)

theorem eq_singleton (hstep : ExtendsAscii step) {bytes : Bytes} {code : Nat}
    (hchar : Character step bytes code) (hcode : code < 0x80) :
    ∃ b : UInt8, bytes = [b] ∧ b.toNat = code := by
  have h := hchar.step_append []
  rw [List.append_nil] at h
  cases bytes with
  | nil => exact absurd rfl hchar.ne_nil
  | cons b bytes =>
    obtain ⟨hb, hlength⟩ := hstep.of_step h hcode
    rw [List.length_cons, Nat.succ.injEq, List.length_eq_zero_iff] at hlength
    exact ⟨b, by rw [hlength], hb⟩

/-- ASCII at the front of what the bytes say is at the front of the bytes. -/
theorem prefix_of_text (hstep : ExtendsAscii step) {s p : Bytes} {codes : List Nat}
    (hs : Characters step s codes) (hp : p.IsAscii) (hfront : p <+: Utf8.text codes) :
    p <+: s := by
  induction hs generalizing p with
  | nil => exact hfront
  | @cons bytes rest code codes hchar hrest ih =>
    cases p with
    | nil => exact List.nil_prefix
    | cons b p =>
      obtain ⟨hb, hp⟩ := List.forall_mem_cons.1 hp
      change b :: p <+: Utf8.encode code ++ Utf8.text codes at hfront
      by_cases hcode : code < 0x80
      · obtain ⟨b', rfl, rfl⟩ := hstep.eq_singleton hchar hcode
        rw [Utf8.encode_ascii hcode, List.singleton_append, List.cons_prefix_cons] at hfront
        obtain ⟨rfl, hfront⟩ := hfront
        exact (List.prefix_cons_inj b).2 (ih hp hfront)
      · have hlt : code < twoTo 31 := hstep.code_lt (hchar.step_append [])
        obtain ⟨b', more, hencode, hlead⟩ := Utf8.exists_lead (Nat.le_of_not_lt hcode) hlt
        rw [hencode, List.cons_append, List.cons_prefix_cons] at hfront
        obtain ⟨rfl, -⟩ := hfront
        exact absurd hb (Nat.not_lt_of_le hlead)

end ExtendsAscii
end StrongMotion
