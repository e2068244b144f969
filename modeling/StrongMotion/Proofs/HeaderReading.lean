import StrongMotion.Proofs.HeaderRules

/-!
# Reading the lines of a header

Lines are checked in order, each against the item of its position.  A reading therefore ends with
the fault of the first line that is wrong (`readItems_eq_error_iff`), and otherwise with a header
to which every line has contributed its item's part and nothing else (`writes_of_readItems`).
-/

namespace StrongMotion
namespace Header

/-- Line `i` begins with the label of item `i` and writes that item's part of a header. -/
def LineFits (o : ReadOptions) (items : List HeaderItem) (lines : List Bytes) (i : Nat) : Prop :=
  ∃ item line, items[i]? = some item ∧ lines[i]? = some line ∧ item.label <+: line ∧
    ∃ h, item.Writes o line.words h

/-- What is wrong with line `i`, of which there are `total`. -/
inductive LineFault (o : ReadOptions) (items : List HeaderItem) (total : Nat)
    (lines : List Bytes) : Nat → Fault → Prop
  | missing {i : Nat} {item : HeaderItem} :
      items[i]? = some item → lines[i]? = none →
      LineFault o items total lines i (.headerEnded total item.label)
  | wrongLabel {i : Nat} {item : HeaderItem} {line : Bytes} :
      items[i]? = some item → lines[i]? = some line → ¬item.label <+: line →
      LineFault o items total lines i (.wrongLabel item.label line)
  | refused {i : Nat} {item : HeaderItem} {line : Bytes} {f : Fault} :
      items[i]? = some item → lines[i]? = some line → item.label <+: line →
      item.Refuses o ⟨item.label, line⟩ f → LineFault o items total lines i f

variable {o : ReadOptions} {items : List HeaderItem} {lines : List Bytes} {total : Nat}

theorem lineFits_succ {item : HeaderItem} {line : Bytes} {i : Nat} :
    LineFits o (item :: items) (line :: lines) (i + 1) ↔ LineFits o items lines i := by
  simp only [LineFits, List.getElem?_cons_succ]

theorem lineFits_zero {item : HeaderItem} {line : Bytes} :
    LineFits o (item :: items) (line :: lines) 0 ↔
      item.label <+: line ∧ ∃ h, item.Writes o line.words h := by
  simp [LineFits]

theorem lineFault_succ {item : HeaderItem} {line : Bytes} {i : Nat} {f : Fault} :
    LineFault o (item :: items) total (line :: lines) (i + 1) f ↔
      LineFault o items total lines i f := by
  constructor
  · intro h
    cases h with
    | missing hi hl => exact .missing hi hl
    | wrongLabel hi hl hlabel => exact .wrongLabel hi hl hlabel
    | refused hi hl hlabel hf => exact .refused hi hl hlabel hf
  · intro h
    cases h with
    | missing hi hl => exact .missing hi hl
    | wrongLabel hi hl hlabel => exact .wrongLabel hi hl hlabel
    | refused hi hl hlabel hf => exact .refused hi hl hlabel hf

theorem lineFault_zero_of_label {item : HeaderItem} {line : Bytes} {f : Fault}
    (hlabel : item.label <+: line) :
    LineFault o (item :: items) total (line :: lines) 0 f ↔
      item.Refuses o ⟨item.label, line⟩ f := by
  constructor
  · intro hfault
    cases hfault with
    | missing _ hl => cases hl
    | wrongLabel hi hl hlabel' =>
      cases hi
      cases hl
      exact absurd hlabel hlabel'
    | refused hi hl _ hf =>
      cases hi
      cases hl
      exact hf
  · intro hf
    exact .refused rfl rfl hlabel hf

theorem lineFault_zero_of_not_label {item : HeaderItem} {line : Bytes} {f : Fault}
    (hlabel : ¬item.label <+: line) :
    LineFault o (item :: items) total (line :: lines) 0 f ↔ f = .wrongLabel item.label line := by
  constructor
  · intro hfault
    cases hfault with
    | missing _ hl => cases hl
    | wrongLabel hi hl _ =>
      cases hi
      cases hl
      rfl
    | refused hi hl hlabel' _ =>
      cases hi
      cases hl
      exact absurd hlabel' hlabel
  · intro hf
    rw [hf]
    exact .wrongLabel rfl rfl hlabel

theorem LineFault.lt_length {i : Nat} {f : Fault} (hfault : LineFault o items total lines i f) :
    i < items.length := by
  cases hfault with
  | missing hi _ | wrongLabel hi _ _ | refused hi _ _ _ => exact (List.getElem?_eq_some_iff.1 hi).1

/-- Nothing is wrong with a line that fits. -/
theorem LineFits.not_lineFault {i : Nat} {f : Fault} (hfits : LineFits o items lines i) :
    ¬LineFault o items total lines i f := by
  obtain ⟨item, line, hitem, hline, hlabel, h, hwrites⟩ := hfits
  intro hfault
  cases hfault with
  | missing _ hl =>
    rw [hline] at hl
    cases hl
  | wrongLabel hi hl hlabel' =>
    rw [hitem, Option.some.injEq] at hi
    rw [hline, Option.some.injEq] at hl
    subst hi hl
    exact hlabel' hlabel
  | refused hi hl _ hf =>
    rw [hitem, Option.some.injEq] at hi
    rw [hline, Option.some.injEq] at hl
    subst hi hl
    exact hf.not_writes h hwrites

theorem fits_or_lineFault {i : Nat} (hi : i < items.length) (total : Nat) :
    LineFits o items lines i ∨ ∃ f, LineFault o items total lines i f := by
  have hitem := List.getElem?_eq_getElem hi
  cases hline : lines[i]? with
  | none => exact Or.inr ⟨_, .missing hitem hline⟩
  | some line =>
    by_cases hlabel : items[i].label <+: line
    · rcases HeaderItem.writes_or_refuses o items[i] ⟨items[i].label, line⟩ with hwrites | ⟨f, hf⟩
      · exact Or.inl ⟨_, line, hitem, hline, hlabel, hwrites⟩
      · exact Or.inr ⟨f, .refused hitem hline hlabel hf⟩
    · exact Or.inr ⟨_, .wrongLabel hitem hline hlabel⟩

/-! ## One line -/

theorem readItems_of_label {item : HeaderItem} {line : Bytes} (hlabel : item.label <+: line)
    (h : Header) :
    readItems o total (item :: items) (line :: lines) h =
      item.fill o ⟨item.label, line⟩ >>= fun set => readItems o total items lines (set h) := by
  rw [readItems, if_pos (List.isPrefixOf_iff_prefix.2 hlabel)]

theorem readItems_of_not_label {item : HeaderItem} {line : Bytes} (hlabel : ¬item.label <+: line)
    (h : Header) :
    readItems o total (item :: items) (line :: lines) h = .error (.wrongLabel item.label line) := by
  rw [readItems, if_neg fun hprefix => hlabel (List.isPrefixOf_iff_prefix.1 hprefix)]

/-- All that a line does to a header that is read: it fills its item's part. -/
theorem readItems_cons_eq_ok {item : HeaderItem} {h h' : Header}
    (hread : readItems o total (item :: items) lines h = .ok h') :
    ∃ line rest source, lines = line :: rest ∧ item.label <+: line ∧
      item.Writes o line.words source ∧
      readItems o total items rest (item.transfer source h) = .ok h' := by
  cases lines with
  | nil => cases hread
  | cons line rest =>
    by_cases hlabel : item.label <+: line
    · rw [readItems_of_label hlabel, bind_eq_ok_iff] at hread
      obtain ⟨set, hset, hread⟩ := hread
      obtain ⟨source, hsource, rfl⟩ := HeaderItem.fill_eq_ok_iff.1 hset
      exact ⟨line, rest, source, rfl, hlabel, hsource, hread⟩
    · rw [readItems_of_not_label hlabel] at hread
      cases hread

/-! ## All lines -/

/-- The first line that is wrong is the first of all, or the first after it when it fits. -/
theorem exists_first_fault_cons_iff {item : HeaderItem} {line : Bytes} {f : Fault} :
    (∃ i, (∀ j < i, LineFits o (item :: items) (line :: lines) j) ∧
        LineFault o (item :: items) total (line :: lines) i f) ↔
      LineFault o (item :: items) total (line :: lines) 0 f ∨
        LineFits o (item :: items) (line :: lines) 0 ∧
          ∃ i, (∀ j < i, LineFits o items lines j) ∧ LineFault o items total lines i f := by
  constructor
  · intro ⟨i, hbefore, hfault⟩
    cases i with
    | zero => exact Or.inl hfault
    | succ i =>
      refine Or.inr ⟨hbefore 0 i.succ_pos, i, fun j hj => ?_, lineFault_succ.1 hfault⟩
      exact lineFits_succ.1 (hbefore (j + 1) (by omega))
  · intro h
    rcases h with hfault | ⟨hfits, i, hbefore, hfault⟩
    · exact ⟨0, fun j hj => absurd hj j.not_lt_zero, hfault⟩
    · refine ⟨i + 1, fun j hj => ?_, lineFault_succ.2 hfault⟩
      cases j with
      | zero => exact hfits
      | succ j => exact lineFits_succ.2 (hbefore j (by omega))

/-- Where there are no lines the first one is missing. -/
theorem exists_first_fault_nil_iff {item : HeaderItem} {f : Fault} :
    (∃ i, (∀ j < i, LineFits o (item :: items) [] j) ∧
        LineFault o (item :: items) total [] i f) ↔ f = .headerEnded total item.label := by
  constructor
  · intro ⟨i, hbefore, hfault⟩
    cases i with
    | zero =>
      cases hfault with
      | missing hi _ =>
        cases hi
        rfl
      | wrongLabel _ hl _ | refused _ hl _ _ => cases hl
    | succ i =>
      obtain ⟨_, _, _, hl, _⟩ := hbefore 0 i.succ_pos
      cases hl
  · intro hf
    rw [hf]
    exact ⟨0, fun j hj => absurd hj j.not_lt_zero, .missing rfl rfl⟩

/-- The first line that is wrong gives the fault. -/
theorem readItems_eq_error_iff {h : Header} {f : Fault} :
    readItems o total items lines h = .error f ↔
      ∃ i, (∀ j < i, LineFits o items lines j) ∧ LineFault o items total lines i f := by
  induction items generalizing lines h with
  | nil =>
    constructor
    · intro hf
      cases hf
    · intro ⟨i, _, hfault⟩
      exact absurd hfault.lt_length i.not_lt_zero
  | cons item items ih =>
    cases lines with
    | nil =>
      rw [exists_first_fault_nil_iff, readItems, Except.error.injEq]
      exact eq_comm
    | cons line lines =>
      rw [exists_first_fault_cons_iff, lineFits_zero]
      by_cases hlabel : item.label <+: line
      · rw [readItems_of_label hlabel, bind_eq_error_iff, HeaderItem.fill_eq_error_iff,
          lineFault_zero_of_label hlabel]
        refine or_congr_right ⟨?_, ?_⟩
        · intro ⟨set, hset, hf⟩
          obtain ⟨source, hsource, rfl⟩ := HeaderItem.fill_eq_ok_iff.1 hset
          exact ⟨⟨hlabel, source, hsource⟩, ih.1 hf⟩
        · intro ⟨⟨_, source, hsource⟩, hrest⟩
          exact ⟨_, HeaderItem.fill_eq_ok_iff.2 ⟨source, hsource, rfl⟩, ih.2 hrest⟩
      · rw [readItems_of_not_label hlabel, lineFault_zero_of_not_label hlabel, Except.error.injEq]
        constructor
        · intro hf
          exact Or.inl hf.symm
        · intro h
          rcases h with hf | ⟨⟨hlabel', _⟩, _⟩
          · exact hf.symm
          · exact absurd hlabel' hlabel

theorem exists_readItems_iff (total : Nat) (h : Header) :
    (∃ h', readItems o total items lines h = .ok h') ↔
      ∀ i < items.length, LineFits o items lines i := by
  constructor
  · intro ⟨h', hread⟩ i
    induction i using Nat.strongRecOn with
    | ind i ih =>
      intro hi
      have hline : LineFits o items lines i ∨ ∃ f, LineFault o items total lines i f :=
        fits_or_lineFault hi total
      rcases hline with hfits | ⟨f, hf⟩
      · exact hfits
      · have hbefore : ∀ j < i, LineFits o items lines j := fun j hj => ih j hj (by omega)
        have herror := readItems_eq_error_iff (h := h).2 ⟨i, hbefore, hf⟩
        rw [hread] at herror
        cases herror
  · intro hfits
    cases hread : readItems o total items lines h with
    | ok h' => exact ⟨h', rfl⟩
    | error f =>
      obtain ⟨i, _, hfault⟩ := readItems_eq_error_iff.1 hread
      exact absurd hfault (hfits i hfault.lt_length).not_lineFault

theorem network_of_readItems {h h' : Header} (hread : readItems o total items lines h = .ok h') :
    h'.station.network = h.station.network := by
  induction items generalizing lines h with
  | nil =>
    cases hread
    rfl
  | cons item items ih =>
    obtain ⟨line, rest, source, -, -, -, hread⟩ := readItems_cons_eq_ok hread
    rw [ih hread, HeaderItem.network_transfer]

/-- Parts that belong to none of the items stay as they were. -/
theorem transfer_of_readItems {h h' : Header} (hread : readItems o total items lines h = .ok h')
    {item : HeaderItem} (hitem : item ∉ items) : item.transfer h h' = h' := by
  induction items generalizing lines h with
  | nil =>
    cases hread
    exact item.transfer_self _
  | cons head items ih =>
    obtain ⟨line, rest, source, -, -, -, hread⟩ := readItems_cons_eq_ok hread
    have hne : item ≠ head := fun e => hitem (e ▸ List.mem_cons_self)
    rw [← HeaderItem.transfer_transfer_of_ne hne source]
    exact ih hread fun hmem => hitem (List.mem_cons_of_mem head hmem)

/-- Every line writes its item's part of the header. -/
theorem writes_of_readItems (hnodup : items.Nodup) {h h' : Header}
    (hread : readItems o total items lines h = .ok h') {i : Nat} {item : HeaderItem} {line : Bytes}
    (hitem : items[i]? = some item) (hline : lines[i]? = some line) :
    item.label <+: line ∧ item.Writes o line.words h' := by
  induction items generalizing lines h i with
  | nil => cases hitem
  | cons head items ih =>
    obtain ⟨first, rest, source, rfl, hlabel, hsource, hread⟩ := readItems_cons_eq_ok hread
    obtain ⟨hhead, hnodup⟩ := List.nodup_cons.1 hnodup
    cases i with
    | zero =>
      obtain rfl : head = item := Option.some.inj hitem
      obtain rfl : first = line := Option.some.inj hline
      have hkept := transfer_of_readItems hread hhead
      rw [HeaderItem.transfer_transfer_self] at hkept
      rw [← hkept]
      exact ⟨hlabel, HeaderItem.writes_transfer_iff.2 hsource⟩
    | succ i => exact ih hnodup hread hitem hline

/-- All that a header takes from the options is whether station codes are split. -/
theorem readItems_congr {o o' : ReadOptions} (hsplit : o.splitStation = o'.splitStation)
    (h : Header) : readItems o total items lines h = readItems o' total items lines h := by
  have hfill : ∀ (item : HeaderItem) (l : HeaderLine), item.fill o l = item.fill o' l := by
    intro item l
    cases item with
    | stationCode => rw [HeaderItem.fill, HeaderItem.fill, hsplit]
    | _ => rfl
  induction items generalizing lines h with
  | nil => rfl
  | cons item items ih =>
    cases lines with
    | nil => rfl
    | cons line lines => simp only [readItems, hfill, ih]

/-! ## The whole header -/

theorem read_congr {o o' : ReadOptions} (hsplit : o.splitStation = o'.splitStation)
    (lines : List Bytes) : read o lines = read o' lines := by
  rw [read, read, readItems_congr hsplit]

theorem mem_inOrder (item : HeaderItem) : item ∈ HeaderItem.inOrder := by
  cases item <;> decide

theorem nodup_inOrder : HeaderItem.inOrder.Nodup := by decide

/-- An item has one line. -/
theorem line_unique {item : HeaderItem} {lines : List Bytes} {line line' : Bytes} {i i' : Nat}
    (hi : HeaderItem.inOrder[i]? = some item) (hline : lines[i]? = some line)
    (hi' : HeaderItem.inOrder[i']? = some item) (hline' : lines[i']? = some line') :
    line = line' := by
  have hplace := (List.getElem?_eq_some_iff.1 hi).1
  obtain rfl := (List.getElem?_inj hplace nodup_inOrder).1 (hi.trans hi'.symm)
  exact Option.some.inj (hline.symm.trans hline')

theorem read_eq_error_iff {f : Fault} :
    read o lines = .error f ↔
      (∃ i, (∀ j < i, LineFits o HeaderItem.inOrder lines j) ∧
        LineFault o HeaderItem.inOrder lines.length lines i f) ∨
      ((∀ i < 17, LineFits o HeaderItem.inOrder lines i) ∧ 17 < lines.length ∧
        f = .lineCount 17 lines.length) := by
  unfold read
  rw [bind_eq_error_iff, readItems_eq_error_iff]
  refine or_congr_right ?_
  constructor
  · intro ⟨h, hread, hf⟩
    have hfits := (exists_readItems_iff lines.length {}).1 ⟨h, hread⟩
    obtain ⟨_, _, _, hlast, _⟩ := hfits 16 (by decide)
    have hlength := (List.getElem?_eq_some_iff.1 hlast).1
    by_cases h17 : lines.length = HeaderItem.inOrder.length
    · rw [if_pos h17] at hf
      cases hf
    · rw [if_neg h17] at hf
      cases hf
      exact ⟨hfits, by simp [HeaderItem.inOrder] at h17; omega, rfl⟩
  · intro ⟨hfits, hlength, hf⟩
    have hfits' : ∀ i < HeaderItem.inOrder.length, LineFits o HeaderItem.inOrder lines i := hfits
    obtain ⟨h, hread⟩ := (exists_readItems_iff lines.length {}).2 hfits'
    refine ⟨h, hread, ?_⟩
    rw [if_neg (by simp [HeaderItem.inOrder]; omega), hf]
    rfl

theorem read_eq_ok_iff {h : Header} :
    read o lines = .ok h ↔
      lines.length = 17 ∧ h.station.network = [] ∧
        ∀ (i : Nat) (item : HeaderItem) (line : Bytes),
          HeaderItem.inOrder[i]? = some item → lines[i]? = some line →
            item.label <+: line ∧ item.Writes o line.words h := by
  constructor
  · intro hread
    unfold read at hread
    obtain ⟨h', hitems, hread⟩ := bind_eq_ok_iff.1 hread
    by_cases h17 : lines.length = HeaderItem.inOrder.length
    · rw [if_pos h17] at hread
      obtain rfl : h' = h := Except.ok.inj hread
      exact ⟨h17, network_of_readItems hitems, fun i item line hitem hline =>
        writes_of_readItems nodup_inOrder hitems hitem hline⟩
    · rw [if_neg h17] at hread
      cases hread
  · intro ⟨hlength, hnetwork, hwrites⟩
    have hfits : ∀ i < HeaderItem.inOrder.length, LineFits o HeaderItem.inOrder lines i := by
      intro i hi
      have hi' : i < lines.length := by
        rw [hlength]
        exact hi
      have hitem := List.getElem?_eq_getElem hi
      have hline := List.getElem?_eq_getElem hi'
      obtain ⟨hlabel, hh⟩ := hwrites i _ _ hitem hline
      exact ⟨_, _, hitem, hline, hlabel, h, hh⟩
    obtain ⟨h', hitems⟩ := (exists_readItems_iff lines.length {}).2 hfits
    have heq : h' = h := by
      refine HeaderItem.eq_of_transfer_eq ((network_of_readItems hitems).trans hnetwork.symm) ?_
      intro item
      obtain ⟨i, hi⟩ := List.mem_iff_getElem?.1 (mem_inOrder item)
      obtain ⟨_, line, _, hline, _⟩ := hfits i (List.getElem?_eq_some_iff.1 hi).1
      exact (writes_of_readItems nodup_inOrder hitems hi hline).2.transfer_eq
        (hwrites i item line hi hline).2
    unfold read
    rw [hitems, heq]
    exact if_pos hlength

theorem exists_read_iff :
    (∃ h, read o lines = .ok h) ↔
      lines.length = 17 ∧ ∀ i < 17, LineFits o HeaderItem.inOrder lines i := by
  constructor
  · intro ⟨h, hread⟩
    obtain ⟨hlength, -, hwrites⟩ := read_eq_ok_iff.1 hread
    refine ⟨hlength, fun i hi => ?_⟩
    have hitem := List.getElem?_eq_getElem (l := HeaderItem.inOrder) hi
    have hline := List.getElem?_eq_getElem (l := lines) (i := i) (by omega)
    obtain ⟨hlabel, hh⟩ := hwrites i _ _ hitem hline
    exact ⟨_, _, hitem, hline, hlabel, h, hh⟩
  · intro ⟨hlength, hfits⟩
    cases hread : read o lines with
    | ok h => exact ⟨h, rfl⟩
    | error f =>
      rcases read_eq_error_iff.1 hread with ⟨i, -, hfault⟩ | ⟨-, hcount, -⟩
      · exact absurd hfault (hfits i hfault.lt_length).not_lineFault
      · omega

/-- Every item of a header is written by a line of its own. -/
theorem exists_line_of_read {h : Header} (hread : read o lines = .ok h) (item : HeaderItem) :
    ∃ (i : Nat) (line : Bytes), HeaderItem.inOrder[i]? = some item ∧ lines[i]? = some line ∧
      item.label <+: line ∧ item.Writes o line.words h := by
  obtain ⟨hlength, -, hwrites⟩ := read_eq_ok_iff.1 hread
  obtain ⟨i, hi⟩ := List.mem_iff_getElem?.1 (mem_inOrder item)
  have hlt : i < lines.length := by
    rw [hlength]
    exact (List.getElem?_eq_some_iff.1 hi).1
  have hline := List.getElem?_eq_getElem hlt
  obtain ⟨hlabel, hwrites⟩ := hwrites i item _ hi hline
  exact ⟨i, _, hi, hline, hlabel, hwrites⟩

/-- Lines that differ only where item `i` is written give headers that differ only in its part. -/
theorem transfer_of_read {lines' : List Bytes} {h h' : Header} {i : Nat} {item : HeaderItem}
    (hitem : HeaderItem.inOrder[i]? = some item) (hread : read o lines = .ok h)
    (hread' : read o lines' = .ok h') (hlines : ∀ j ≠ i, lines'[j]? = lines[j]?) :
    item.transfer h' h = h' := by
  obtain ⟨hlength, hnetwork, hwrites⟩ := read_eq_ok_iff.1 hread
  obtain ⟨-, hnetwork', hwrites'⟩ := read_eq_ok_iff.1 hread'
  refine HeaderItem.transfer_eq_of_agree (hnetwork.trans hnetwork'.symm) fun other hother => ?_
  obtain ⟨j, hj⟩ := List.mem_iff_getElem?.1 (mem_inOrder other)
  have hji : j ≠ i := by
    intro e
    rw [e, hitem] at hj
    exact hother (Option.some.inj hj).symm
  have hlt : j < lines.length := by
    rw [hlength]
    exact (List.getElem?_eq_some_iff.1 hj).1
  have hline := List.getElem?_eq_getElem hlt
  have hline' := (hlines j hji).trans hline
  exact (hwrites j other _ hj hline).2.transfer_eq (hwrites' j other _ hj hline').2

/-- A header is read from seventeen lines that fit, each of which gives its own item's part and no
other; other lines are refused with the fault of the first that does not fit, or for their number
if there are too many. -/
theorem read_line_by_line (o : ReadOptions) (lines : List Bytes) :
    ((∃ h, read o lines = .ok h) ↔
      lines.length = 17 ∧ ∀ i < 17, LineFits o HeaderItem.inOrder lines i) ∧
    (∀ h, read o lines = .ok h ↔
      lines.length = 17 ∧ h.station.network = [] ∧
        ∀ (i : Nat) (item : HeaderItem) (line : Bytes),
          HeaderItem.inOrder[i]? = some item → lines[i]? = some line →
            item.label <+: line ∧ item.Writes o line.words h) ∧
    (∀ (i : Nat) (item : HeaderItem) (lines' : List Bytes) (h h' : Header),
      HeaderItem.inOrder[i]? = some item → read o lines = .ok h → read o lines' = .ok h' →
        (∀ j ≠ i, lines'[j]? = lines[j]?) → h' = item.transfer h' h) ∧
    (∀ f, read o lines = .error f ↔
      (∃ i, (∀ j < i, LineFits o HeaderItem.inOrder lines j) ∧
        LineFault o HeaderItem.inOrder lines.length lines i f) ∨
      ((∀ i < 17, LineFits o HeaderItem.inOrder lines i) ∧ 17 < lines.length ∧
        f = .lineCount 17 lines.length)) ∧
    ∀ (item : HeaderItem) (l : HeaderLine) (f : Fault),
      item.Refuses o l f → f.kind ∈ HeaderItem.ruleKinds := by
  refine ⟨exists_read_iff, fun h => read_eq_ok_iff, ?_, fun f => read_eq_error_iff,
    fun item l f hf => hf.kind_mem⟩
  intro i item lines' h h' hitem hread hread' hlines
  exact (transfer_of_read hitem hread hread' hlines).symm

/-- A header with the first and the last day that can be written, and a recording that begins just
after a leap day. -/
def leapDayHeader : List Bytes :=
  ["Origin Time 0000/1/1 0:00:00", "Lat. 38.1", "Long. 142", "Depth. (km) 24", "Mag. 9.0",
   "Station Code IWTH27", "Station Lat. 39", "Station Long. 141", "Station Height(m) 405",
   "Record Time 2012/3/1 0:0:5", "Sampling Freq(Hz) 200Hz", "Duration Time(s) 0.05", "Dir. 3",
   "Scale Factor 3920(gal)/6182761", "Max. Acc. (gal) 12.5",
   "Last Correction 9999/12/31 23:59:59", "Memo."]

theorem exists_read_leapDayHeader : ∃ h, read {} leapDayHeader = .ok h := by
  have hsome : (read {} leapDayHeader).toOption.isSome = true := by decide +kernel
  exact exists_eq_ok_of_isSome hsome

end Header
end StrongMotion
