import StrongMotion.Encoding.Decoder
import StrongMotion.Number.Dyadic
import StrongMotion.Proofs.Characters

/-!
# The rules of the encodings

Every encoding reads characters by a local rule (`Encoding.isLocal_step`).  The rules of most
one-byte encodings and of UTF-8 also extend ASCII: an ASCII byte writes itself, and an ASCII
character is written in no other way.
-/

namespace StrongMotion

section Character

variable {step : Bytes → Step} {code : Nat} {a b c d : UInt8}

theorem Character.one (hnil : step [] = .flawed .cut)
    (hchar : ∀ rest, step (a :: rest) = .char code 1) : Character step [a] code where
  ne_nil := List.cons_ne_nil _ _
  step_append := hchar
  step_take := by
    intro k hk
    have hzero : k = 0 := Nat.lt_one_iff.1 hk
    rw [hzero]
    exact hnil

theorem Character.two (hnil : step [] = .flawed .cut) (hone : step [a] = .flawed .cut)
    (hchar : ∀ rest, step (a :: b :: rest) = .char code 2) : Character step [a, b] code where
  ne_nil := List.cons_ne_nil _ _
  step_append := hchar
  step_take := by
    intro k hk
    match k, hk with
    | 0, _ => exact hnil
    | 1, _ => exact hone

theorem Character.four (hnil : step [] = .flawed .cut) (hone : step [a] = .flawed .cut)
    (htwo : step [a, b] = .flawed .cut) (hthree : step [a, b, c] = .flawed .cut)
    (hchar : ∀ rest, step (a :: b :: c :: d :: rest) = .char code 4) :
    Character step [a, b, c, d] code where
  ne_nil := List.cons_ne_nil _ _
  step_append := hchar
  step_take := by
    intro k hk
    match k, hk with
    | 0, _ => exact hnil
    | 1, _ => exact hone
    | 2, _ => exact htwo
    | 3, _ => exact hthree

end Character

/-! ## UTF-8 -/

theorem twoTo_six_mul_succ (n : Nat) : twoTo (6 * (n + 1)) = 64 * twoTo (6 * n) := by
  show twoTo (6 * n + 6) = _
  simp only [twoTo_succ]
  omega

namespace Utf8

theorem follow_eq_char {least length count known : Nat} {s : Bytes} {c n : Nat}
    (h : follow least length count known s = .char c n) :
    n = length ∧ least ≤ c ∧ c < (known + 1) * twoTo (6 * count) ∧
      ∃ bytes rest, s = bytes ++ rest ∧ bytes.length = count ∧
        (∀ more, follow least length count known (bytes ++ more) = .char c length) ∧
        ∀ k < count, follow least length count known (bytes.take k) = .flawed .cut := by
  induction count generalizing known s with
  | zero =>
    rw [follow] at h
    split at h
    · cases h
    · next hknown =>
      have hleast : least ≤ known := by
        rw [Bool.or_eq_true, decide_eq_true_eq, not_or] at hknown
        exact Nat.le_of_not_lt hknown.1
      cases h
      refine ⟨rfl, hleast, ?_, [], s, rfl, rfl, fun more => ?_, fun k hk => ?_⟩
      · show c < (c + 1) * 1
        omega
      · rw [follow, if_neg hknown]
      · exact absurd hk (Nat.not_lt_zero k)
  | succ count ih =>
    cases s with
    | nil => cases h
    | cons b s =>
      rw [follow] at h
      split at h
      · next hb =>
        obtain ⟨hn, hleast, hc, bytes, rest, hs, hlength, happend, htake⟩ := ih h
        have hmod : b.toNat % 64 < 64 := Nat.mod_lt _ (by decide)
        have hbound : c < (known + 1) * twoTo (6 * (count + 1)) :=
          calc c < (known * 64 + b.toNat % 64 + 1) * twoTo (6 * count) := hc
            _ ≤ ((known + 1) * 64) * twoTo (6 * count) := Nat.mul_le_mul_right _ (by omega)
            _ = (known + 1) * twoTo (6 * (count + 1)) := by
              rw [twoTo_six_mul_succ, Nat.mul_assoc]
        refine ⟨hn, hleast, hbound, b :: bytes, rest, by rw [hs]; rfl, by simp [hlength],
          fun more => ?_, fun k hk => ?_⟩
        · rw [List.cons_append, follow, if_pos hb, happend]
        · cases k with
          | zero => rfl
          | succ k =>
            rw [List.take_succ_cons, follow, if_pos hb]
            exact htake k (Nat.lt_of_succ_lt_succ hk)
      · cases h

/-- What a byte at the front of a text can be. -/
inductive Lead (b : UInt8) : Prop
  | ascii : b.toNat < 0x80 → (∀ rest, step (b :: rest) = .char b.toNat 1) → Lead b
  | stray : (∀ rest, step (b :: rest) = .flawed .invalid) → Lead b
  | long (least count known : Nat) : 0x80 ≤ least → (known + 1) * twoTo (6 * count) ≤ twoTo 31 →
      (∀ rest, step (b :: rest) = follow least (count + 1) count known rest) → Lead b

theorem lead (b : UInt8) : Lead b := by
  have hroom : ∀ {known count : Nat} (limit : Nat), known + 1 ≤ limit →
      limit * twoTo (6 * count) ≤ twoTo 31 → (known + 1) * twoTo (6 * count) ≤ twoTo 31 := by
    intro known count limit hknown hlimit
    exact Nat.le_trans (Nat.mul_le_mul_right _ hknown) hlimit
  by_cases h1 : b.toNat < 0x80
  · exact .ascii h1 fun rest => by simp only [step, if_pos h1]
  by_cases h2 : b.toNat < 0xC2
  · exact .stray fun rest => by simp only [step, if_neg h1, if_pos h2]
  by_cases h3 : b.toNat < 0xE0
  · exact .long 0x80 1 (b.toNat - 0xC0) (by decide) (hroom 32 (by omega) (by decide)) fun rest => by
      simp only [step, if_neg h1, if_neg h2, if_pos h3]
  by_cases h4 : b.toNat < 0xF0
  · refine .long 0x800 2 (b.toNat - 0xE0) (by decide) (hroom 16 (by omega) (by decide))
      fun rest => ?_
    simp only [step, if_neg h1, if_neg h2, if_neg h3, if_pos h4]
  by_cases h5 : b.toNat < 0xF8
  · refine .long 0x10000 3 (b.toNat - 0xF0) (by decide) (hroom 8 (by omega) (by decide))
      fun rest => ?_
    simp only [step, if_neg h1, if_neg h2, if_neg h3, if_neg h4, if_pos h5]
  by_cases h6 : b.toNat < 0xFC
  · refine .long 0x200000 4 (b.toNat - 0xF8) (by decide) (hroom 4 (by omega) (by decide))
      fun rest => ?_
    simp only [step, if_neg h1, if_neg h2, if_neg h3, if_neg h4, if_neg h5, if_pos h6]
  by_cases h7 : b.toNat < 0xFE
  · refine .long 0x4000000 5 (b.toNat - 0xFC) (by decide) (hroom 2 (by omega) (by decide))
      fun rest => ?_
    simp only [step, if_neg h1, if_neg h2, if_neg h3, if_neg h4, if_neg h5, if_neg h6, if_pos h7]
  · exact .stray fun rest => by
      simp only [step, if_neg h1, if_neg h2, if_neg h3, if_neg h4, if_neg h5, if_neg h6, if_neg h7]

theorem isLocal_step : IsLocal step := by
  intro s code length h
  cases s with
  | nil => cases h
  | cons b s =>
    cases lead b with
    | ascii _ hb =>
      rw [hb] at h
      cases h
      exact ⟨[b], s, rfl, rfl, .one rfl hb⟩
    | stray hb =>
      rw [hb] at h
      cases h
    | long least count start _ _ hb =>
      rw [hb] at h
      obtain ⟨rfl, _, _, bytes, rest, hs, hlength, happend, htake⟩ := follow_eq_char h
      refine ⟨b :: bytes, rest, by rw [hs]; rfl, by simp [hlength], List.cons_ne_nil _ _,
        fun more => ?_, fun k hk => ?_⟩
      · rw [List.cons_append, hb, happend, List.length_cons, hlength]
      · cases k with
        | zero => rfl
        | succ k =>
          rw [List.length_cons, hlength] at hk
          rw [List.take_succ_cons, hb]
          exact htake k (Nat.lt_of_succ_lt_succ hk)

end Utf8

/-! ## The other rules -/

theorem Encoding.isLocal_singleByte (limit : Nat) : IsLocal (Encoding.singleByte limit) := by
  intro s code length h
  cases s with
  | nil => cases h
  | cons b s =>
    rw [Encoding.singleByte] at h
    split at h
    · next hb =>
      cases h
      exact ⟨[b], s, rfl, rfl, .one rfl fun rest => by rw [Encoding.singleByte, if_pos hb]⟩
    · cases h

theorem Utf16.isLowSurrogate_iff (u : Nat) :
    isLowSurrogate u = true ↔ 0xDC00 ≤ u ∧ u < 0xE000 := by
  rw [isLowSurrogate, Bool.and_eq_true, decide_eq_true_eq, decide_eq_true_eq]

theorem Utf16.isHighSurrogate_iff (u : Nat) :
    isHighSurrogate u = true ↔ 0xD800 ≤ u ∧ u < 0xDC00 := by
  rw [isHighSurrogate, Bool.and_eq_true, decide_eq_true_eq, decide_eq_true_eq]

/-- A character of UTF-16 is one unit that is no surrogate, or two that are a pair. -/
theorem Utf16.step_eq_char {order : ByteOrder} {s : Bytes} {code length : Nat}
    (h : step order s = .char code length) :
    (∃ a b rest, s = a :: b :: rest ∧ length = 2 ∧ code = order.pair a b ∧
      ¬isLowSurrogate code = true ∧ ¬isHighSurrogate code = true) ∨
    ∃ a b c d rest, s = a :: b :: c :: d :: rest ∧ length = 4 ∧
      isHighSurrogate (order.pair a b) = true ∧ isLowSurrogate (order.pair c d) = true ∧
      code = 0x10000 + (order.pair a b - 0xD800) * 1024 + (order.pair c d - 0xDC00) := by
  match s with
  | [] => cases h
  | [_] => cases h
  | a :: b :: s =>
    unfold step at h
    dsimp only at h
    split at h
    · cases h
    next hlow =>
    split at h
    · next hhigh =>
      match s with
      | [] => cases h
      | [_] => cases h
      | c :: d :: s =>
        dsimp only at h
        split at h
        · next hpair =>
          obtain ⟨hcode, hlength⟩ := Step.char.inj h
          exact Or.inr ⟨a, b, c, d, s, rfl, hlength.symm, hhigh, hpair, hcode.symm⟩
        · cases h
    · next hhigh =>
      obtain ⟨rfl, rfl⟩ := Step.char.inj h
      exact Or.inl ⟨a, b, s, rfl, rfl, rfl, hlow, hhigh⟩

theorem Utf16.not_isLowSurrogate {u : Nat} (hhigh : isHighSurrogate u = true) :
    ¬isLowSurrogate u = true := by
  rw [isHighSurrogate_iff] at hhigh
  rw [isLowSurrogate_iff]
  omega

theorem Utf16.isLocal_step (order : ByteOrder) : IsLocal (Utf16.step order) := by
  intro s code length h
  rcases step_eq_char h with ⟨a, b, rest, rfl, rfl, rfl, hlow, hhigh⟩ |
    ⟨a, b, c, d, rest, rfl, rfl, hhigh, hpair, hcode⟩
  · exact ⟨[a, b], rest, rfl, rfl, .two rfl rfl fun rest => by
      simp only [step, if_neg hlow, if_neg hhigh]⟩
  · have hlow := not_isLowSurrogate hhigh
    refine ⟨[a, b, c, d], rest, rfl, rfl, .four rfl rfl ?_ ?_ fun rest => ?_⟩
    · simp only [step, if_neg hlow, if_pos hhigh]
    · simp only [step, if_neg hlow, if_pos hhigh]
    · simp only [step, if_neg hlow, if_pos hhigh, if_pos hpair, hcode]

theorem Utf32.step_eq_char {order : ByteOrder} {s : Bytes} {code length : Nat}
    (h : step order s = .char code length) :
    ∃ a b c d rest, s = a :: b :: c :: d :: rest ∧ length = 4 ∧ code = order.quad a b c d ∧
      ¬(isSurrogate code || decide (0x10FFFF < code)) = true := by
  match s with
  | [] => cases h
  | [_] => cases h
  | [_, _] => cases h
  | [_, _, _] => cases h
  | a :: b :: c :: d :: s =>
    unfold step at h
    dsimp only at h
    split at h
    · cases h
    · next hunit =>
      obtain ⟨rfl, rfl⟩ := Step.char.inj h
      exact ⟨a, b, c, d, s, rfl, rfl, rfl, hunit⟩

theorem Utf32.isLocal_step (order : ByteOrder) : IsLocal (Utf32.step order) := by
  intro s code length h
  obtain ⟨a, b, c, d, rest, rfl, rfl, rfl, hunit⟩ := step_eq_char h
  exact ⟨[a, b, c, d], rest, rfl, rfl, .four rfl rfl rfl rfl fun rest => by
    simp only [step, if_neg hunit]⟩

theorem Japanese.length_of_lookup {pair : Glyph → UInt8 × UInt8} {bytes : UInt8 × UInt8}
    {code length : Nat} (h : lookup pair bytes = .char code length) : length = 2 := by
  unfold lookup at h
  split at h
  · cases h
    rfl
  · cases h

theorem ShiftJis.isLocal_step : IsLocal ShiftJis.step := by
  intro s code length h
  match s with
  | [] => cases h
  | b :: s =>
    unfold step at h
    dsimp only at h
    split at h
    · next hb =>
      cases h
      exact ⟨[b], s, rfl, rfl, .one rfl fun rest => by unfold step; exact if_pos hb⟩
    next hb =>
    split at h
    · next hkana =>
      obtain ⟨rfl, rfl⟩ := Step.char.inj h
      exact ⟨[b], s, rfl, rfl, .one rfl fun rest => by
        unfold step
        exact (if_neg hb).trans (if_pos hkana)⟩
    next hkana =>
    split at h
    · cases h
    next hused =>
    match s with
    | [] => cases h
    | c :: s =>
      have hlength := Japanese.length_of_lookup h
      subst hlength
      refine ⟨[b, c], s, rfl, rfl, .two rfl ?_ fun rest => ?_⟩
      · rw [step, if_neg hb, if_neg hkana, if_neg hused]
      · rw [step, if_neg hb, if_neg hkana, if_neg hused]
        exact h

theorem EucJp.isLocal_step : IsLocal EucJp.step := by
  intro s code length h
  match s with
  | [] => cases h
  | b :: s =>
    unfold step at h
    dsimp only at h
    split at h
    · next hb =>
      cases h
      exact ⟨[b], s, rfl, rfl, .one rfl fun rest => by unfold step; exact if_pos hb⟩
    next hb =>
    split at h
    · cases h
    next hused =>
    match s with
    | [] => cases h
    | c :: s =>
      have hlength : length = 2 := by
        dsimp only at h
        split at h
        · split at h
          · exact (Step.char.inj h).2.symm
          · cases h
        · exact Japanese.length_of_lookup h
      subst hlength
      refine ⟨[b, c], s, rfl, rfl, .two rfl ?_ fun rest => ?_⟩
      · rw [step, if_neg hb, if_neg hused]
      · rw [step, if_neg hb, if_neg hused]
        exact h

theorem Encoding.isLocal_step (e : Encoding) : IsLocal e.step := by
  cases e with
  | utf8 => exact Utf8.isLocal_step
  | ascii => exact isLocal_singleByte 0x80
  | latin1 => exact isLocal_singleByte 0x100
  | utf16 order => exact Utf16.isLocal_step order
  | utf16In order => exact Utf16.isLocal_step order
  | utf32In order => exact Utf32.isLocal_step order
  | shiftJis => exact ShiftJis.isLocal_step
  | eucJp => exact EucJp.isLocal_step

/-- A text decodes exactly when it is made of characters. -/
theorem Decoder.decode_eq_ok_iff {d : Decoder} {s text : Bytes} :
    d.decode s = .ok text ↔
      ∃ codes, Characters (d.encoding.after s).step (d.encoding.unmarked s) codes ∧
        text = Utf8.text codes := by
  simp only [← scan_eq_iff (d.encoding.after s).isLocal_step, decode, Encoding.decode]
  cases scan (d.encoding.after s).step 0 (d.encoding.unmarked s) with
  | mk codes flaw =>
    cases flaw with
    | none => simp [eq_comm]
    | some flaw => simp

end StrongMotion
