import StrongMotion.Encoding.Scan

/-!
# Texts made of characters

`scan` reads a text as a run of characters (`Characters`) when the rule it reads with is local: the
bytes of a character write it whatever follows them, and a text that ends within them is seen to be
cut.  A text that is cut anywhere then loses characters at its end and nothing else
(`Characters.scan_take`).
-/

namespace StrongMotion

/-- The bytes write one character, and every text that ends within them breaks it off. -/
structure Character (step : Bytes → Step) (bytes : Bytes) (code : Nat) : Prop where
  ne_nil : bytes ≠ []
  step_append : ∀ rest, step (bytes ++ rest) = .char code bytes.length
  step_take : ∀ k < bytes.length, step (bytes.take k) = .flawed .cut

/-- The text is made of the characters with these codes. -/
inductive Characters (step : Bytes → Step) : Bytes → List Nat → Prop
  | nil : Characters step [] []
  | cons {bytes rest : Bytes} {code : Nat} {codes : List Nat} :
      Character step bytes code → Characters step rest codes →
      Characters step (bytes ++ rest) (code :: codes)

/-- A rule that reads a character from the bytes that write it and from no others. -/
def IsLocal (step : Bytes → Step) : Prop :=
  ∀ {s : Bytes} {code length : Nat}, step s = .char code length →
    ∃ bytes rest, s = bytes ++ rest ∧ bytes.length = length ∧ Character step bytes code

variable {step : Bytes → Step}

/-- Bytes that are read as one character and are all used up for it write it. -/
theorem IsLocal.character (hlocal : IsLocal step) {bytes : Bytes} {code : Nat}
    (h : step bytes = .char code bytes.length) : Character step bytes code := by
  obtain ⟨front, rest, hbytes, hlength, hchar⟩ := hlocal h
  have hfront : front = bytes := by
    rw [hbytes, List.length_append] at hlength
    rw [hbytes, List.length_eq_zero_iff.1 (by omega : rest.length = 0), List.append_nil]
  rw [← hfront]
  exact hchar

theorem Characters.append {s t : Bytes} {a b : List Nat} (hs : Characters step s a)
    (ht : Characters step t b) : Characters step (s ++ t) (a ++ b) := by
  induction hs with
  | nil => exact ht
  | cons hchar _ ih =>
    rw [List.append_assoc]
    exact .cons hchar ih

/-! ## Scanning -/

theorem scan_length_append (bytes rest : Bytes) :
    scan step bytes.length (bytes ++ rest) = scan step 0 rest := by
  induction bytes with
  | nil => rfl
  | cons b bytes ih =>
    rw [List.length_cons, List.cons_append, scan]
    exact ih

theorem Character.scan_append {bytes : Bytes} {code : Nat} (hchar : Character step bytes code)
    (rest : Bytes) :
    scan step 0 (bytes ++ rest) =
      ⟨code :: (scan step 0 rest).codes, (scan step 0 rest).flaw⟩ := by
  cases bytes with
  | nil => exact absurd rfl hchar.ne_nil
  | cons b bytes =>
    have hstep := hchar.step_append rest
    rw [List.cons_append] at hstep ⊢
    rw [scan, hstep]
    dsimp only
    rw [List.length_cons, Nat.add_sub_cancel, scan_length_append]

theorem Characters.scan_append {s : Bytes} {codes : List Nat} (hs : Characters step s codes)
    (rest : Bytes) :
    scan step 0 (s ++ rest) = ⟨codes ++ (scan step 0 rest).codes, (scan step 0 rest).flaw⟩ := by
  induction hs with
  | nil => rfl
  | cons hchar _ ih => rw [List.append_assoc, hchar.scan_append, ih, List.cons_append]

theorem Characters.scan_eq {s : Bytes} {codes : List Nat} (hs : Characters step s codes) :
    scan step 0 s = ⟨codes, none⟩ := by
  have h := hs.scan_append []
  rw [List.append_nil, scan, List.append_nil] at h
  exact h

theorem characters_of_scan (hlocal : IsLocal step) {s : Bytes} {codes : List Nat}
    (h : scan step 0 s = ⟨codes, none⟩) : Characters step s codes := by
  induction codes generalizing s with
  | nil =>
    cases s with
    | nil => exact .nil
    | cons b s =>
      rw [scan] at h
      split at h <;> simp at h
  | cons code codes ih =>
    cases s with
    | nil => simp [scan] at h
    | cons b s =>
      cases hstep : step (b :: s) with
      | flawed flaw => simp [scan, hstep] at h
      | char code' length =>
        obtain ⟨bytes, rest, hs, -, hchar⟩ := hlocal hstep
        rw [hs, hchar.scan_append] at h
        obtain ⟨⟨rfl, hcodes⟩, hflaw⟩ := by simpa using h
        rw [hs]
        exact .cons hchar (ih (by rw [← hcodes, ← hflaw]))

theorem scan_eq_iff (hlocal : IsLocal step) {s : Bytes} {codes : List Nat} :
    scan step 0 s = ⟨codes, none⟩ ↔ Characters step s codes :=
  ⟨characters_of_scan hlocal, Characters.scan_eq⟩

/-- Characters at the front of a text come first when the whole text is read. -/
theorem Characters.exists_append (hlocal : IsLocal step) {s t : Bytes} {a codes : List Nat}
    (hs : Characters step s a) (hst : Characters step (s ++ t) codes) :
    ∃ b, codes = a ++ b ∧ Characters step t b := by
  have hscan := hst.scan_eq
  rw [hs.scan_append, Decoded.mk.injEq] at hscan
  exact ⟨_, hscan.1.symm, characters_of_scan hlocal (by rw [← hscan.2])⟩

/-! ## Where reading stops -/

/-- What is left when reading stops: nothing, or bytes that begin with the flaw. -/
def HaltsAt (step : Bytes → Step) (rest : Bytes) : Option Flaw → Prop
  | none => rest = []
  | some flaw => rest ≠ [] ∧ step rest = .flawed flaw

theorem HaltsAt.scan_eq {rest : Bytes} {flaw : Option Flaw} (h : HaltsAt step rest flaw) :
    scan step 0 rest = ⟨[], flaw⟩ := by
  cases flaw with
  | none =>
    rw [show rest = [] from h]
    rfl
  | some flaw =>
    obtain ⟨hne, hstep⟩ := h
    cases rest with
    | nil => exact absurd rfl hne
    | cons b rest => rw [scan, hstep]

/-- A text is the characters that are read and what reading them stops at. -/
theorem exists_scan_eq_append (hlocal : IsLocal step) (s : Bytes) :
    ∃ front rest, s = front ++ rest ∧ Characters step front (scan step 0 s).codes ∧
      HaltsAt step rest (scan step 0 s).flaw := by
  induction hlength : s.length using Nat.strongRecOn generalizing s with
  | ind length ih =>
    cases s with
    | nil => exact ⟨[], [], rfl, .nil, rfl⟩
    | cons b t =>
      cases hstep : step (b :: t) with
      | flawed flaw =>
        have hscan : scan step 0 (b :: t) = ⟨[], some flaw⟩ := by rw [scan, hstep]
        rw [hscan]
        exact ⟨[], b :: t, rfl, .nil, List.cons_ne_nil b t, hstep⟩
      | char code size =>
        obtain ⟨bytes, more, hs, -, hchar⟩ := hlocal hstep
        have hpos : 0 < bytes.length := List.length_pos_iff.2 hchar.ne_nil
        have hmore : more.length < length := by
          rw [← hlength, hs, List.length_append]
          omega
        obtain ⟨front, rest, hsplit, hfront, hhalts⟩ := ih more.length hmore more rfl
        rw [hs, hchar.scan_append]
        refine ⟨bytes ++ front, rest, ?_, .cons hchar hfront, hhalts⟩
        rw [List.append_assoc, ← hsplit]

/-! ## Texts that are cut -/

/-- A character that is cut is not read, and it is no invalid one. -/
theorem Character.scan_take {bytes : Bytes} {code k : Nat} (hchar : Character step bytes code)
    (hk : k < bytes.length) :
    (scan step 0 (bytes.take k)).codes = [] ∧
      (scan step 0 (bytes.take k)).flaw ≠ some .invalid := by
  have hstep := hchar.step_take k hk
  cases htake : bytes.take k with
  | nil => simp [scan]
  | cons b front =>
    rw [htake] at hstep
    simp [scan, hstep]

theorem Characters.scan_take {s : Bytes} {codes : List Nat} (hs : Characters step s codes)
    (k : Nat) :
    (scan step 0 (s.take k)).codes <+: codes ∧
      (scan step 0 (s.take k)).flaw ≠ some .invalid := by
  induction hs generalizing k with
  | nil => simp [scan]
  | @cons bytes rest code codes hchar hrest ih =>
    by_cases hk : k < bytes.length
    · rw [List.take_append_of_le_length (Nat.le_of_lt hk)]
      obtain ⟨hcodes, hflaw⟩ := hchar.scan_take hk
      rw [hcodes]
      exact ⟨List.nil_prefix, hflaw⟩
    · rw [List.take_append, List.take_of_length_le (Nat.le_of_not_lt hk), hchar.scan_append]
      obtain ⟨hcodes, hflaw⟩ := ih (k - bytes.length)
      exact ⟨(List.prefix_cons_inj code).2 hcodes, hflaw⟩

end StrongMotion
