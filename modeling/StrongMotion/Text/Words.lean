import StrongMotion.Text.Basic

/-!
# Words

The words of a text are its maximal runs of bytes that are not blank.  The scan carries the word
it is in the middle of, reversed, so that each byte is looked at once.
-/

namespace StrongMotion
namespace Bytes

/-- The words of `s` when `begun`, read backwards, is the part of the first one already seen. -/
def wordsFrom (begun : Bytes) : Bytes → List Bytes
  | [] => if begun.isEmpty then [] else [begun.reverse]
  | b :: rest =>
    if Byte.isBlank b then
      if begun.isEmpty then wordsFrom [] rest else begun.reverse :: wordsFrom [] rest
    else wordsFrom (b :: begun) rest

def words (s : Bytes) : List Bytes := wordsFrom [] s

theorem words_nil : words [] = [] := rfl

/-- A blank at the front belongs to no word. -/
theorem words_cons_of_isBlank {b : UInt8} (h : Byte.isBlank b = true) (s : Bytes) :
    words (b :: s) = words s := by
  simp [words, wordsFrom, h]

/-- A word begun is never lost, and never empty. -/
theorem ne_nil_of_mem_wordsFrom {s begun w : Bytes} (h : w ∈ wordsFrom begun s) : w ≠ [] := by
  induction s generalizing begun with
  | nil =>
    unfold wordsFrom at h
    split at h
    · simp at h
    · next hb => simp_all
  | cons b rest ih =>
    unfold wordsFrom at h
    split at h
    · split at h
      · exact ih h
      · next hb =>
        rcases List.mem_cons.1 h with rfl | h
        · simp_all
        · exact ih h
    · exact ih h

theorem ne_nil_of_mem_words {s w : Bytes} (h : w ∈ words s) : w ≠ [] :=
  ne_nil_of_mem_wordsFrom h

end Bytes
end StrongMotion
