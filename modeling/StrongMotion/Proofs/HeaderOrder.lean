import Mathlib.Data.List.Nodup
import Mathlib.Data.Nat.Find
import StrongMotion.Proofs.HeaderReading

/-!
# The order of header lines

No label is the front of another one, so a line carries at most one label and fits in one place
only.  The lines of a header that is read are therefore accepted in their own order and in no other:
the first line out of its place is refused for its label, before any rule of its fields is asked
(`Header.read_only_in_order`).
-/

namespace StrongMotion
namespace HeaderItem

theorem eq_of_label_prefix_label {item other : HeaderItem} (h : item.label <+: other.label) :
    item = other := by
  rw [← List.isPrefixOf_iff_prefix] at h
  revert h
  cases item <;> cases other <;> decide

/-- A line carries at most one label. -/
theorem eq_of_label_prefix {item other : HeaderItem} {line : Bytes} (h : item.label <+: line)
    (h' : other.label <+: line) : item = other := by
  rcases List.prefix_or_prefix_of_prefix h h' with hprefix | hprefix
  · exact eq_of_label_prefix_label hprefix
  · exact (eq_of_label_prefix_label hprefix).symm

end HeaderItem

namespace Header

variable {o : ReadOptions} {items : List HeaderItem} {lines lines' : List Bytes} {h : Header}

theorem lineFits_congr {i : Nat} (hline : lines'[i]? = lines[i]?) :
    LineFits o items lines' i ↔ LineFits o items lines i := by
  simp only [LineFits, hline]

theorem length_of_read (hread : read o lines = .ok h) : lines.length = 17 :=
  (read_eq_ok_iff.1 hread).1

theorem lineFits_of_read (hread : read o lines = .ok h) {i : Nat} (hi : i < 17) :
    LineFits o HeaderItem.inOrder lines i :=
  (exists_read_iff.1 ⟨h, hread⟩).2 i hi

/-- A line of a header carries the label of its own place and no other. -/
theorem index_of_label (hread : read o lines = .ok h) {i j : Nat} {item : HeaderItem} {line : Bytes}
    (hitem : HeaderItem.inOrder[i]? = some item) (hline : lines[j]? = some line)
    (hlabel : item.label <+: line) : j = i := by
  have hj : j < 17 := length_of_read hread ▸ (List.getElem?_eq_some_iff.1 hline).1
  obtain ⟨other, line', hother, hline', hlabel', -⟩ := lineFits_of_read hread hj
  rw [hline, Option.some.injEq] at hline'
  subst hline'
  obtain rfl := HeaderItem.eq_of_label_prefix hlabel hlabel'
  have hplace := (List.getElem?_eq_some_iff.1 hother).1
  exact (List.getElem?_inj hplace nodup_inOrder).1 (hother.trans hitem.symm)

/-- A line that stands before its place or behind it is refused for its label, when all lines before
it are those of a header. -/
theorem read_of_line_out_of_place (hread : read o lines = .ok h) {i j : Nat} {item : HeaderItem}
    {line : Bytes} (hitem : HeaderItem.inOrder[i]? = some item)
    (hbefore : ∀ k < i, lines'[k]? = lines[k]?) (hline' : lines'[i]? = some line)
    (hline : lines[j]? = some line) (hne : j ≠ i) :
    read o lines' = .error (.wrongLabel item.label line) := by
  have hi : i < 17 := (List.getElem?_eq_some_iff.1 hitem).1
  refine read_eq_error_iff.2 (Or.inl ⟨i, fun k hk => ?_, .wrongLabel hitem hline' ?_⟩)
  · exact (lineFits_congr (hbefore k hk)).2 (lineFits_of_read hread (by omega))
  · intro hlabel
    exact hne (index_of_label hread hitem hline hlabel)

/-! ## Other orders -/

/-- Position `i` is the first at which the lists differ. -/
def DifferFirstAt (lines lines' : List Bytes) (i : Nat) : Prop :=
  (∀ k < i, lines'[k]? = lines[k]?) ∧ lines'[i]? ≠ lines[i]?

theorem exists_differFirstAt (hne : lines' ≠ lines) : ∃ i, DifferFirstAt lines lines' i := by
  have hexists : ∃ i : Nat, lines'[i]? ≠ lines[i]? := by
    refine Classical.byContradiction fun hnone => hne (List.ext_getElem? fun i => ?_)
    exact Classical.byContradiction fun hi => hnone ⟨i, hi⟩
  refine ⟨Nat.find hexists, fun k hk => ?_, Nat.find_spec hexists⟩
  exact Classical.not_not.1 (Nat.find_min hexists hk)

/-- Where lines in another order first differ from those of a header, a line stands out of its
place. -/
theorem read_of_perm (hread : read o lines = .ok h) (hperm : lines'.Perm lines) {i : Nat}
    (hi : DifferFirstAt lines lines' i) :
    ∃ item line, HeaderItem.inOrder[i]? = some item ∧ lines'[i]? = some line ∧
      read o lines' = .error (.wrongLabel item.label line) := by
  obtain ⟨hbefore, hdiffers⟩ := hi
  have hlength := length_of_read hread
  have hlength' := hperm.length_eq
  have hlt : i < lines'.length := by
    refine Classical.byContradiction fun hle => hdiffers ?_
    rw [List.getElem?_eq_none (by omega), List.getElem?_eq_none (by omega)]
  have hitem := List.getElem?_eq_getElem (l := HeaderItem.inOrder) (i := i)
    (show i < 17 by omega)
  have hline' := List.getElem?_eq_getElem hlt
  obtain ⟨j, hj⟩ := List.mem_iff_getElem?.1 (hperm.mem_iff.1 (List.mem_of_getElem? hline'))
  refine ⟨_, _, hitem, hline', read_of_line_out_of_place hread hitem hbefore hline' hj ?_⟩
  intro heq
  rw [heq] at hj
  exact hdiffers (hline'.trans hj.symm)

/-! ## Missing lines -/

/-- Without a line that is not the last, the line after it stands out of its place. -/
theorem read_eraseIdx (hread : read o lines = .ok h) {i : Nat} (hi : i < 16) :
    ∃ item line, HeaderItem.inOrder[i]? = some item ∧ lines[i + 1]? = some line ∧
      read o (lines.eraseIdx i) = .error (.wrongLabel item.label line) := by
  have hlength := length_of_read hread
  have hitem := List.getElem?_eq_getElem (l := HeaderItem.inOrder) (i := i)
    (show i < 17 by omega)
  have hline := List.getElem?_eq_getElem (l := lines) (i := i + 1) (by omega)
  refine ⟨_, _, hitem, hline,
    read_of_line_out_of_place hread hitem ?_ ?_ hline (Nat.succ_ne_self i)⟩
  · exact fun k hk => List.getElem?_eraseIdx_of_lt hk
  · rw [List.getElem?_eraseIdx_of_ge (Nat.le_refl i), hline]

theorem read_eraseIdx_last (hread : read o lines = .ok h) :
    read o (lines.eraseIdx 16) = .error (.headerEnded 16 HeaderItem.memo.label) := by
  have hlength := length_of_read hread
  have hlength' : (lines.eraseIdx 16).length = 16 := by
    rw [List.length_eraseIdx_of_lt (by omega), hlength]
  have hmissing : LineFault o HeaderItem.inOrder (lines.eraseIdx 16).length (lines.eraseIdx 16) 16
      (.headerEnded (lines.eraseIdx 16).length HeaderItem.memo.label) :=
    .missing rfl (List.getElem?_eq_none (by omega))
  rw [hlength'] at hmissing
  refine read_eq_error_iff.2 (Or.inl ⟨16, fun k hk => ?_, hlength'.symm ▸ hmissing⟩)
  exact (lineFits_congr (List.getElem?_eraseIdx_of_lt hk)).2 (lineFits_of_read hread (by omega))

/-- The lines of a header are accepted in no other order.  Out of order they are refused for the
label that belongs to the first place where they differ; without one line they are refused for the
label that belongs to its place, or for having ended there. -/
theorem read_only_in_order (hread : read o lines = .ok h) :
    (∀ lines' : List Bytes, lines'.Perm lines →
      ((∃ h', read o lines' = .ok h') ↔ lines' = lines) ∧
      (lines' ≠ lines → ∃ i, DifferFirstAt lines lines' i) ∧
      ∀ i, DifferFirstAt lines lines' i →
        ∃ item line f, HeaderItem.inOrder[i]? = some item ∧ lines'[i]? = some line ∧
          read o lines' = .error f ∧ f.kind = .headerLabel ∧
          f.detail = "Expected line to start with " ++ item.label.quoted ++ " but got " ++
            line.quoted) ∧
    (∀ i < 16, ∃ item line f, HeaderItem.inOrder[i]? = some item ∧ lines[i + 1]? = some line ∧
      read o (lines.eraseIdx i) = .error f ∧ f.kind = .headerLabel ∧
      f.detail = "Expected line to start with " ++ item.label.quoted ++ " but got " ++
        line.quoted) ∧
    ∃ f, read o (lines.eraseIdx 16) = .error f ∧ f.kind = .headerEnd := by
  refine ⟨fun lines' hperm => ⟨⟨fun ⟨h', hread'⟩ => ?_, fun heq => ⟨h, heq ▸ hread⟩⟩,
    exists_differFirstAt, fun i hi => ?_⟩, fun i hi => ?_, ?_⟩
  · refine Classical.byContradiction fun hne => ?_
    obtain ⟨i, hi⟩ := exists_differFirstAt hne
    obtain ⟨item, line, -, -, herror⟩ := read_of_perm hread hperm hi
    rw [hread'] at herror
    cases herror
  · obtain ⟨item, line, hitem, hline, herror⟩ := read_of_perm hread hperm hi
    exact ⟨item, line, _, hitem, hline, herror, rfl, rfl⟩
  · obtain ⟨item, line, hitem, hline, herror⟩ := read_eraseIdx hread hi
    exact ⟨item, line, _, hitem, hline, herror, rfl, rfl⟩
  · exact ⟨_, read_eraseIdx_last hread, rfl⟩

/-- The lines of a header from the last to the first, and all of them but the last. -/
theorem read_only_in_order_reversed :
    ∃ h, read {} leapDayHeader = .ok h ∧
      (leapDayHeader.reverse.Perm leapDayHeader ∧
        DifferFirstAt leapDayHeader leapDayHeader.reverse 0 ∧
        ∃ f, read {} leapDayHeader.reverse = .error f ∧ f.kind = .headerLabel ∧
          f.detail = "Expected line to start with 'Origin Time' but got 'Memo.'") ∧
      ∃ f, read {} (leapDayHeader.eraseIdx 16) = .error f ∧ f.kind = .headerEnd := by
  have hfirst : leapDayHeader.reverse[0]? = some (Bytes.ofString "Memo.") := by
    decide +kernel
  have hdiffers : DifferFirstAt leapDayHeader leapDayHeader.reverse 0 :=
    ⟨fun k hk => absurd hk k.not_lt_zero, by decide +kernel⟩
  obtain ⟨h, hread⟩ := exists_read_leapDayHeader
  obtain ⟨horder, -, hlast⟩ := read_only_in_order hread
  have hperm := List.reverse_perm leapDayHeader
  obtain ⟨item, line, f, hitem, hline, hf, hkind, hdetail⟩ := (horder _ hperm).2.2 0 hdiffers
  obtain rfl : .originTime = item := Option.some.inj hitem
  obtain rfl := Option.some.inj (hfirst.symm.trans hline)
  exact ⟨h, hread, ⟨hperm, hdiffers, f, hf, hkind, hdetail⟩, hlast⟩

end Header
end StrongMotion
