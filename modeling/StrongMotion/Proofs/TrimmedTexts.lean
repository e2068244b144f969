import Mathlib.Data.List.DropRight
import StrongMotion.Proofs.WordRuns

/-!
# Trimmed texts

A text is trimmed if no blank is at its front or its end.  What is left of a text when the blanks
around it are gone is the one trimmed text with nothing but blanks around it there
(`Bytes.trimsTo_iff`).  It is also the part between the places where a search from the front and one
from the end stop, which cross in a text of blanks (`Bytes.trimByPlaces_eq`).
-/

namespace StrongMotion
namespace Bytes

/-! ## Taking the end off a text -/

section DropEnd

variable {p : UInt8 → Bool} {s t : Bytes}

theorem dropEndWhile_append (ht : ∀ b ∈ t, p b = true) :
    dropEndWhile p (s ++ t) = dropEndWhile p s := by
  unfold dropEndWhile
  rw [List.reverse_append, List.dropWhile_append_of_pos fun b hb => ht b (List.mem_reverse.1 hb)]

theorem dropEndWhile_append_cons {b : UInt8} (hb : p b = false) :
    dropEndWhile p (s ++ b :: t) = s ++ b :: dropEndWhile p t := by
  induction t using List.reverseRecOn with
  | nil => exact List.rdropWhile_concat_neg p s b (by simp [hb])
  | append_singleton t c ih =>
    have happend : s ++ b :: (t ++ [c]) = (s ++ b :: t) ++ [c] := by simp
    by_cases hc : p c = true
    · have hdrop : dropEndWhile p (t ++ [c]) = dropEndWhile p t :=
        List.rdropWhile_concat_pos p t c hc
      have hdrop' := List.rdropWhile_concat_pos p (s ++ b :: t) c hc
      rw [hdrop, ← ih, happend]
      exact hdrop'
    · have hkeep : dropEndWhile p (t ++ [c]) = t ++ [c] := List.rdropWhile_concat_neg p t c hc
      have hkeep' := List.rdropWhile_concat_neg p (s ++ b :: t) c hc
      rw [hkeep, happend]
      exact hkeep'

theorem dropEndWhile_eq_self (hlast : ∀ b, s.getLast? = some b → p b = false) :
    dropEndWhile p s = s := by
  refine List.rdropWhile_eq_self_iff.2 fun hne hp => ?_
  rw [hlast _ (List.getLast?_eq_some_getLast hne)] at hp
  cases hp

end DropEnd

/-! ## Blanks around a text -/

structure IsTrimmed (s : Bytes) : Prop where
  head : ∀ b, s.head? = some b → Byte.isBlank b = false
  last : ∀ b, s.getLast? = some b → Byte.isBlank b = false

theorem isTrimmed_of_forall {s : Bytes} (hs : ∀ b ∈ s, Byte.isBlank b = false) : s.IsTrimmed where
  head b hb := hs b (List.mem_of_mem_head? hb)
  last b hb := hs b (List.mem_of_getLast? hb)

/-- The text is the other one with nothing but blanks around it. -/
structure TrimsTo (s t : Bytes) : Prop where
  isTrimmed : t.IsTrimmed
  exists_around : ∃ front back, s = front ++ (t ++ back) ∧ (∀ b ∈ front, Byte.isBlank b = true) ∧
    ∀ b ∈ back, Byte.isBlank b = true

theorem trimsTo_trim (s : Bytes) : TrimsTo s s.trim := by
  have hsplit : s.trim ++ (s.dropWhile Byte.isBlank).rtakeWhile Byte.isBlank =
      s.dropWhile Byte.isBlank := List.rdropWhile_append_rtakeWhile
  refine ⟨⟨fun b hb => ?_, fun b hb => ?_⟩, s.takeWhile Byte.isBlank,
    (s.dropWhile Byte.isBlank).rtakeWhile Byte.isBlank, ?_, fun b hb => List.mem_takeWhile_imp hb,
    fun b hb => List.mem_rtakeWhile_imp hb⟩
  · have hstop := List.head?_dropWhile_not Byte.isBlank s
    rw [← hsplit, List.head?_append, hb] at hstop
    exact hstop
  · obtain ⟨hne, hlast⟩ := List.mem_getLast?_eq_getLast hb
    have hstop := List.rdropWhile_last_not Byte.isBlank (s.dropWhile Byte.isBlank) hne
    rw [hlast]
    exact eq_false_of_ne_true hstop
  · rw [hsplit, List.takeWhile_append_dropWhile]

theorem TrimsTo.trim_eq {s t : Bytes} (h : TrimsTo s t) : s.trim = t := by
  obtain ⟨⟨hhead, hlast⟩, front, back, rfl, hfront, hback⟩ := h
  rw [trim, List.dropWhile_append_of_pos hfront]
  cases t with
  | nil =>
    rw [List.nil_append, List.dropWhile_eq_nil_iff.2 hback]
    rfl
  | cons b t =>
    have hb : ¬Byte.isBlank b = true := by simp [hhead b rfl]
    rw [List.cons_append, List.dropWhile_cons_of_neg hb, ← List.cons_append,
      dropEndWhile_append hback, dropEndWhile_eq_self hlast]

/-- A text trims to one text. -/
theorem trimsTo_iff {s t : Bytes} : TrimsTo s t ↔ t = s.trim :=
  ⟨fun h => h.trim_eq.symm, fun h => h ▸ trimsTo_trim s⟩

theorem trim_eq_self_iff {s : Bytes} : s.trim = s ↔ s.IsTrimmed := by
  constructor
  · intro h
    rw [← h]
    exact (trimsTo_trim s).isTrimmed
  · exact fun h => TrimsTo.trim_eq ⟨h, [], [], by simp, by simp, by simp⟩

theorem trim_eq_self {s : Bytes} (hs : ∀ b ∈ s, Byte.isBlank b = false) : s.trim = s :=
  trim_eq_self_iff.2 (isTrimmed_of_forall hs)

/-! ## By places in the text -/

/-- The part of the text from the first byte that is not blank on, up to where the last one ends;
nothing if these places cross. -/
def trimByPlaces (s : Bytes) : Bytes :=
  let first := placePast Byte.isBlank s 0
  let last := s.length - placePast Byte.isBlank s.reverse 0
  if first < last then (s.take last).drop first else []

theorem placePast_append {front rest : Bytes} (hfront : ∀ b ∈ front, Byte.isBlank b = true)
    (hrest : ∀ b, rest.head? = some b → Byte.isBlank b = false) :
    placePast Byte.isBlank (front ++ rest) 0 = front.length := by
  have hstop : rest.takeWhile Byte.isBlank = [] := by
    cases rest with
    | nil => rfl
    | cons b rest => exact List.takeWhile_cons_of_neg (by simp [hrest b rfl])
  rw [placePast_eq, List.drop_zero, List.takeWhile_append_of_pos hfront, hstop, List.append_nil,
    Nat.zero_add]

theorem placePast_of_blanks {s : Bytes} (hs : ∀ b ∈ s, Byte.isBlank b = true) :
    placePast Byte.isBlank s 0 = s.length := by
  rw [placePast_eq, List.drop_zero, List.takeWhile_eq_self_iff.2 hs, Nat.zero_add]

theorem TrimsTo.trimByPlaces_eq {s t : Bytes} (h : TrimsTo s t) : trimByPlaces s = t := by
  obtain ⟨⟨hhead, hlast⟩, front, back, rfl, hfront, hback⟩ := h
  unfold trimByPlaces
  dsimp only
  by_cases hnil : t = []
  · -- Both searches go through all of the text.
    subst hnil
    have hblanks : ∀ b ∈ front ++ back, Byte.isBlank b = true :=
      List.forall_mem_append.2 ⟨hfront, hback⟩
    have hfirst := placePast_of_blanks hblanks
    have hend := placePast_of_blanks fun b hb => hblanks b (List.mem_reverse.1 hb)
    rw [List.nil_append, hfirst, hend, List.length_reverse, if_neg (by omega)]
  · have hpos := List.length_pos_iff.2 hnil
    have hfirst : placePast Byte.isBlank (front ++ (t ++ back)) 0 = front.length := by
      refine placePast_append hfront fun b hb => hhead b ?_
      rwa [List.head?_append_of_ne_nil _ hnil] at hb
    have hend : placePast Byte.isBlank (front ++ (t ++ back)).reverse 0 = back.length := by
      have hreverse : (front ++ (t ++ back)).reverse = back.reverse ++ (front ++ t).reverse := by
        simp
      rw [hreverse, ← back.length_reverse]
      refine placePast_append (by simpa using hback) fun b hb => hlast b ?_
      rwa [List.head?_reverse, List.getLast?_append_of_ne_nil _ hnil] at hb
    have hlength : (front ++ (t ++ back)).length - back.length = (front ++ t).length := by
      simp only [List.length_append]
      omega
    rw [hfirst, hend, hlength, if_pos (by rw [List.length_append]; omega), ← List.append_assoc,
      List.take_left, List.drop_left]

/-- Both ways to trim a text leave the same. -/
theorem trimByPlaces_eq (s : Bytes) : trimByPlaces s = s.trim := (trimsTo_trim s).trimByPlaces_eq

end Bytes
end StrongMotion
