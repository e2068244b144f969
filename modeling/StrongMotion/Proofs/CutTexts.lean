import StrongMotion.Proofs.EncodingRules

/-!
# Texts that are cut or put together

A text can be cut anywhere: within a character, or within the byte order mark before the first one.
`Encoding.decode_take` says what is left of its characters.  `Encoding.exists_decode_eq_append` cuts
a text where reading it stops, and `Encoding.decode_append` puts such parts together again.
-/

namespace StrongMotion

/-! ## Characters that are broken off -/

theorem Utf8.follow_of_cut_append {least length count known : Nat} {front back : Bytes}
    (h : follow least length count known (front ++ back) = .flawed .cut) :
    follow least length count known front = .flawed .cut := by
  induction count generalizing known front with
  | zero =>
    rw [follow] at h
    split at h <;> cases h
  | succ count ih =>
    cases front with
    | nil => rfl
    | cons b front =>
      rw [List.cons_append, follow] at h
      rw [follow]
      split at h
      · next hb =>
        rw [if_pos hb]
        exact ih h
      · cases h

theorem Utf8.step_of_cut_append {front back : Bytes} (h : step (front ++ back) = .flawed .cut) :
    step front = .flawed .cut := by
  cases front with
  | nil => rfl
  | cons b front =>
    rw [List.cons_append] at h
    cases lead b with
    | ascii _ hb =>
      rw [hb] at h
      cases h
    | stray hb =>
      rw [hb] at h
      cases h
    | long least count known _ _ hb =>
      rw [hb] at h ⊢
      exact follow_of_cut_append h

theorem Encoding.singleByte_of_cut_append {limit : Nat} {front back : Bytes}
    (h : singleByte limit (front ++ back) = .flawed .cut) :
    singleByte limit front = .flawed .cut := by
  cases front with
  | nil => rfl
  | cons b front =>
    rw [List.cons_append, singleByte] at h
    split at h <;> cases h

theorem Utf16.step_of_cut_append {order : ByteOrder} {front back : Bytes}
    (h : step order (front ++ back) = .flawed .cut) : step order front = .flawed .cut := by
  match front with
  | [] | [_] => rfl
  | a :: b :: front =>
    unfold step at h ⊢
    dsimp only [List.cons_append] at h ⊢
    split at h
    · cases h
    next hlow =>
    rw [if_neg hlow]
    split at h
    · next hhigh =>
      rw [if_pos hhigh]
      match front with
      | [] | [_] => rfl
      | _ :: _ :: _ =>
        dsimp only [List.cons_append] at h
        split at h <;> cases h
    · cases h

theorem Utf16.step_of_plain {order : ByteOrder} {a b : UInt8}
    (h : ¬isLowSurrogate (order.pair a b) = true ∧ ¬isHighSurrogate (order.pair a b) = true)
    (rest : Bytes) : step order (a :: b :: rest) = .char (order.pair a b) 2 := by
  unfold step
  exact (if_neg h.1).trans (if_neg h.2)

theorem Utf32.step_of_cut_append {order : ByteOrder} {front back : Bytes}
    (h : step order (front ++ back) = .flawed .cut) : step order front = .flawed .cut := by
  match front with
  | [] | [_] | [_, _] | [_, _, _] => rfl
  | _ :: _ :: _ :: _ :: _ =>
    unfold step at h
    dsimp only [List.cons_append] at h
    split at h <;> cases h

theorem Japanese.lookup_ne_cut (pair : Glyph → UInt8 × UInt8) (bytes : UInt8 × UInt8) :
    lookup pair bytes ≠ .flawed .cut := by
  intro h
  unfold lookup at h
  split at h <;> cases h

theorem ShiftJis.step_of_cut_append {front back : Bytes}
    (h : step (front ++ back) = .flawed .cut) : step front = .flawed .cut := by
  cases front with
  | nil => rfl
  | cons b front =>
    unfold step at h ⊢
    dsimp only [List.cons_append] at h ⊢
    split at h
    · cases h
    next hb =>
    split at h
    · cases h
    next hkana =>
    split at h
    · cases h
    next hused =>
    rw [if_neg hb, if_neg hkana, if_neg hused]
    cases front with
    | nil => rfl
    | cons c front => exact absurd h (Japanese.lookup_ne_cut _ _)

theorem EucJp.step_of_cut_append {front back : Bytes}
    (h : step (front ++ back) = .flawed .cut) : step front = .flawed .cut := by
  cases front with
  | nil => rfl
  | cons b front =>
    unfold step at h ⊢
    dsimp only [List.cons_append] at h ⊢
    split at h
    · cases h
    next hb =>
    split at h
    · cases h
    next hused =>
    rw [if_neg hb, if_neg hused]
    cases front with
    | nil => rfl
    | cons c front =>
      dsimp only [List.cons_append] at h
      split at h
      · split at h <;> cases h
      · exact absurd h (Japanese.lookup_ne_cut _ _)

/-- A character that is broken off somewhere is broken off at every place before. -/
theorem Encoding.step_of_cut_append (e : Encoding) {front back : Bytes}
    (h : e.step (front ++ back) = .flawed .cut) : e.step front = .flawed .cut := by
  cases e with
  | utf8 => exact Utf8.step_of_cut_append h
  | ascii | latin1 => exact singleByte_of_cut_append h
  | utf16 order | utf16In order => exact Utf16.step_of_cut_append h
  | utf32In order => exact Utf32.step_of_cut_append h
  | shiftJis => exact ShiftJis.step_of_cut_append h
  | eucJp => exact EucJp.step_of_cut_append h

/-! ## Byte order marks -/

namespace Encoding

/-- The text begins with a byte order mark that the encoding looks for. -/
inductive Marked : Encoding → Bytes → Prop
  | low (order : ByteOrder) (rest : Bytes) : Marked (utf16 order) (0xFF :: 0xFE :: rest)
  | high (order : ByteOrder) (rest : Bytes) : Marked (utf16 order) (0xFE :: 0xFF :: rest)

variable {e : Encoding} {s : Bytes}

theorem after_of_not_marked (h : ¬e.Marked s) : e.after s = e := by
  unfold after
  split
  · exact absurd (.high _ _) h
  · rfl

theorem unmarked_of_not_marked (h : ¬e.Marked s) : e.unmarked s = s := by
  unfold unmarked
  split
  · exact absurd (.low _ _) h
  · exact absurd (.high _ _) h
  · rfl

theorem decode_of_not_marked (h : ¬e.Marked s) : e.decode s = scan e.step 0 s := by
  rw [decode, after_of_not_marked h, unmarked_of_not_marked h]

/-- A mark has the same effect whatever stands behind it. -/
theorem Marked.exists_cons_cons (h : e.Marked s) :
    ∃ a b rest, s = a :: b :: rest ∧ ∀ more, e.Marked (a :: b :: more) ∧
      e.after (a :: b :: more) = e.after s ∧
        e.decode (a :: b :: more) = scan (e.after s).step 0 more := by
  cases h with
  | low order rest => exact ⟨0xFF, 0xFE, rest, rfl, fun more => ⟨.low order more, rfl, rfl⟩⟩
  | high order rest => exact ⟨0xFE, 0xFF, rest, rfl, fun more => ⟨.high order more, rfl, rfl⟩⟩

theorem decode_nil (e : Encoding) : e.decode [] = ⟨[], none⟩ := by
  cases e <;> rfl

/-- One byte is no text where marks are looked for. -/
theorem Marked.decode_singleton (h : e.Marked s) (b : UInt8) :
    e.decode [b] = ⟨[], some .cut⟩ := by
  cases h with
  | low order rest | high order rest =>
    rw [decode_of_not_marked (by intro h; cases h)]
    rfl

/-- A mark that is not looked for would be a character. -/
theorem Marked.not_haltsAt (h : e.Marked s) {flaw : Option Flaw} : ¬HaltsAt e.step s flaw := by
  intro hhalts
  have hstep : ∃ code, e.step s = .char code 2 := by
    cases h with
    | low order rest => exact ⟨_, Utf16.step_of_plain (by cases order <;> decide) rest⟩
    | high order rest => exact ⟨_, Utf16.step_of_plain (by cases order <;> decide) rest⟩
  obtain ⟨code, hchar⟩ := hstep
  cases flaw with
  | none =>
    obtain ⟨a, b, rest, rfl, -⟩ := h.exists_cons_cons
    cases hhalts
  | some flaw =>
    have hflawed := hhalts.2
    rw [hchar] at hflawed
    cases hflawed

theorem Marked.append (h : e.Marked s) (t : Bytes) : e.Marked (s ++ t) := by
  obtain ⟨a, b, rest, rfl, hmore⟩ := h.exists_cons_cons
  exact (hmore (rest ++ t)).1

/-! ## Cutting a text -/

/-- A text that is cut loses characters at its end, and what it breaks off is nothing invalid. -/
theorem decode_take {codes : List Nat} (hs : e.decode s = ⟨codes, none⟩) (k : Nat) :
    (e.decode (s.take k)).codes <+: codes ∧ (e.decode (s.take k)).flaw ≠ some .invalid := by
  by_cases hmarked : e.Marked s
  · obtain ⟨a, b, rest, rfl, hmore⟩ := hmarked.exists_cons_cons
    rw [(hmore rest).2.2] at hs
    match k with
    | 0 =>
      rw [List.take_zero, decode_nil]
      exact ⟨List.nil_prefix, by simp⟩
    | 1 =>
      rw [show (a :: b :: rest).take 1 = [a] from rfl, hmarked.decode_singleton]
      exact ⟨List.nil_prefix, by simp⟩
    | k + 2 =>
      rw [List.take_succ_cons, List.take_succ_cons, (hmore (rest.take k)).2.2]
      exact (characters_of_scan (isLocal_step _) hs).scan_take k
  · have hfront : ¬e.Marked (s.take k) := by
      intro h
      have happend := h.append (s.drop k)
      rw [List.take_append_drop] at happend
      exact hmarked happend
    rw [decode_of_not_marked hmarked] at hs
    rw [decode_of_not_marked hfront]
    exact (characters_of_scan e.isLocal_step hs).scan_take k

/-- A text is one that decodes, and behind it what reading stops at. -/
theorem exists_decode_eq_append (e : Encoding) (s : Bytes) :
    ∃ front rest, s = front ++ rest ∧ e.decode front = ⟨(e.decode s).codes, none⟩ ∧
      HaltsAt (e.after front).step rest (e.decode s).flaw := by
  by_cases hmarked : e.Marked s
  · obtain ⟨a, b, t, rfl, hmore⟩ := hmarked.exists_cons_cons
    obtain ⟨front, rest, ht, hfront, hhalts⟩ :=
      exists_scan_eq_append (e.after (a :: b :: t)).isLocal_step t
    rw [← (hmore t).2.2] at hfront hhalts
    obtain ⟨-, hafter, hdecode⟩ := hmore front
    refine ⟨a :: b :: front, rest, by rw [ht]; rfl, ?_, ?_⟩
    · rw [hdecode, hfront.scan_eq]
    · rw [hafter]
      exact hhalts
  · obtain ⟨front, rest, hs, hfront, hhalts⟩ := exists_scan_eq_append e.isLocal_step s
    have hmarked' : ¬e.Marked front := fun h => hmarked (by rw [hs]; exact h.append rest)
    rw [← decode_of_not_marked hmarked] at hfront hhalts
    refine ⟨front, rest, hs, ?_, ?_⟩
    · rw [decode_of_not_marked hmarked', hfront.scan_eq]
    · rw [after_of_not_marked hmarked']
      exact hhalts

/-- Behind a text that decodes, reading stops at what the encoding that it leaves stops at. -/
theorem decode_append {front rest : Bytes} {codes : List Nat} {flaw : Option Flaw}
    (hfront : e.decode front = ⟨codes, none⟩) (hrest : HaltsAt (e.after front).step rest flaw) :
    e.decode (front ++ rest) = ⟨codes, flaw⟩ := by
  have hread : ∀ {step : Bytes → Step} {s : Bytes}, Characters step s codes →
      HaltsAt step rest flaw → scan step 0 (s ++ rest) = ⟨codes, flaw⟩ := by
    intro step s hs hhalts
    rw [hs.scan_append, hhalts.scan_eq, List.append_nil]
  by_cases hmarked : e.Marked front
  · obtain ⟨a, b, t, rfl, hmore⟩ := hmarked.exists_cons_cons
    rw [(hmore t).2.2] at hfront
    rw [List.cons_append, List.cons_append, (hmore (t ++ rest)).2.2]
    exact hread (characters_of_scan (isLocal_step _) hfront) hrest
  · rw [after_of_not_marked hmarked] at hrest
    have hmarked' : ¬e.Marked (front ++ rest) := by
      -- A mark of which the front has only a part would be what reading stops at.
      intro h
      obtain ⟨a, b, more, hcons, hmore⟩ := h.exists_cons_cons
      match front with
      | [] => exact h.not_haltsAt hrest
      | [c] =>
        rw [h.decode_singleton] at hfront
        cases hfront
      | c :: c' :: t =>
        obtain ⟨hc, hcons⟩ := List.cons.inj hcons
        obtain ⟨hc', -⟩ := List.cons.inj hcons
        rw [hc, hc'] at hmarked
        exact hmarked (hmore t).1
    rw [decode_of_not_marked hmarked] at hfront
    rw [decode_of_not_marked hmarked']
    exact hread (characters_of_scan e.isLocal_step hfront) hrest

/-! ## Texts one after the other -/

/-- A text that is read again, less of it or more of it, is read as it was before. -/
theorem decode_after {t : Bytes} (h : t <+: s ∨ s <+: t) : (e.after s).decode t = e.decode t := by
  by_cases hmarked : e.Marked s
  · cases hmarked with
    | low order rest => rfl
    | high order rest =>
      match t with
      | [] => rw [decode_nil, decode_nil]
      | [b] =>
        have hsettled := (Marked.high .bigEndian rest).decode_singleton b
        exact hsettled.trans ((Marked.high order rest).decode_singleton b).symm
      | a :: b :: t =>
        simp only [List.cons_prefix_cons] at h
        obtain ⟨rfl, rfl⟩ : a = 0xFE ∧ b = 0xFF := by
          rcases h with ⟨ha, hb, -⟩ | ⟨ha, hb, -⟩
          · exact ⟨ha, hb⟩
          · exact ⟨ha.symm, hb.symm⟩
        rfl
  · rw [after_of_not_marked hmarked]

end Encoding
end StrongMotion
