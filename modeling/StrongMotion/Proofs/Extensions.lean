import Mathlib.Data.List.DropRight
import StrongMotion.FileKind
import StrongMotion.Proofs.Words

/-!
# Extensions of file names

The extension of a path is that of its last component, the part behind the last separator, and
begins at the last dot of it.  Found by searching the whole path for its last dot and its last
separator, it is the same (`FileName.extensionByPlaces_eq`).  The directories before the component
and the case of letters in it do not matter for what kind of file a path promises
(`FileName.extension_of_last_component`).
-/

namespace StrongMotion

/-! ## The last place of a class of bytes -/

namespace Bytes

/-- How many bytes stand before the last byte of the class. -/
def lastPlace? (p : UInt8 → Bool) : Bytes → Option Nat
  | [] => none
  | b :: rest =>
    match lastPlace? p rest with
    | some i => some (i + 1)
    | none => if p b then some 0 else none

variable {p : UInt8 → Bool} {front rest : Bytes}

theorem lastPlace?_eq_none (hrest : ∀ b ∈ rest, p b = false) : lastPlace? p rest = none := by
  induction rest with
  | nil => rfl
  | cons b rest ih =>
    obtain ⟨hb, hrest⟩ := List.forall_mem_cons.1 hrest
    rw [lastPlace?, ih hrest, hb]
    rfl

theorem lastPlace?_append_cons {b : UInt8} (hb : p b = true) (hrest : ∀ b ∈ rest, p b = false) :
    lastPlace? p (front ++ b :: rest) = some front.length := by
  induction front with
  | nil =>
    rw [List.nil_append, lastPlace?, lastPlace?_eq_none hrest, hb]
    rfl
  | cons c front ih =>
    rw [List.cons_append, lastPlace?, ih]
    rfl

/-- What follows the last byte outside a class is the longest end within the class. -/
theorem rtakeWhile_append (hrest : ∀ b ∈ rest, p b = true)
    (hfront : ∀ b, front.getLast? = some b → p b = false) :
    (front ++ rest).rtakeWhile p = rest := by
  induction front using List.reverseRecOn with
  | nil => exact List.rtakeWhile_eq_self_iff.2 hrest
  | append_singleton front b _ =>
    have hb : p b = false := hfront b List.getLast?_concat
    have hreverse : (front ++ [b] ++ rest).reverse = rest.reverse ++ b :: front.reverse := by simp
    rw [List.rtakeWhile, hreverse, List.takeWhile_append_of_pos (by simpa using hrest),
      List.takeWhile_cons_of_neg (by simp [hb]), List.append_nil, List.reverse_reverse]

end Bytes

namespace FileName

def dot : UInt8 := '.'.toUInt8

theorem beq_dot_of_not_mem {s : Bytes} (hdot : dot ∉ s) : ∀ b ∈ s, (b == dot) = false := by
  intro b hb
  rw [beq_eq_false_iff_ne]
  rintro rfl
  exact hdot hb

/-! ## Last components -/

/-- No separator is in the component, and what stands before it ends with one or is empty. -/
structure IsLastComponent (path component : Bytes) : Prop where
  isSeparator_of_mem : ∀ b ∈ component, isSeparator b = false
  exists_front : ∃ front, path = front ++ component ∧
    ∀ b, front.getLast? = some b → isSeparator b = true

theorem isLastComponent_iff {path component : Bytes} :
    IsLastComponent path component ↔ component = lastComponent path := by
  constructor
  · rintro ⟨hcomponent, front, rfl, hfront⟩
    refine (Bytes.rtakeWhile_append (fun b hb => ?_) fun b hb => ?_).symm
    · rw [hcomponent b hb]
      rfl
    · rw [hfront b hb]
      rfl
  · rintro rfl
    refine ⟨fun b hb => ?_, path.rdropWhile (!isSeparator ·), ?_, fun b hb => ?_⟩
    · have hkept := List.mem_rtakeWhile_imp hb
      simpa using hkept
    · exact (List.rdropWhile_append_rtakeWhile).symm
    · obtain ⟨hne, hlast⟩ := List.mem_getLast?_eq_getLast hb
      have hstop := List.rdropWhile_last_not (!isSeparator ·) path hne
      rw [← hlast] at hstop
      simpa using hstop

/-- A name without separators is the last component of itself below any directory. -/
theorem lastComponent_below {name : Bytes} (hname : ∀ b ∈ name, isSeparator b = false)
    (directory : Bytes) : lastComponent (directory ++ "/" ++ name) = lastComponent name := by
  have hbelow : IsLastComponent (directory ++ "/" ++ name) name := by
    refine ⟨hname, directory ++ "/", rfl, fun b hb => ?_⟩
    obtain rfl : '/'.toUInt8 = b := Option.some.inj (List.getLast?_concat.symm.trans hb)
    rfl
  have halone : IsLastComponent name name := ⟨hname, [], rfl, fun b hb => by cases hb⟩
  rw [← isLastComponent_iff.1 hbelow, ← isLastComponent_iff.1 halone]

/-! ## Extensions -/

theorem afterLastDot_append_cons {stem tail : Bytes} (htail : dot ∉ tail) :
    afterLastDot (stem ++ dot :: tail) = tail := by
  have happend : stem ++ dot :: tail = (stem ++ [dot]) ++ tail := by simp
  rw [happend]
  refine Bytes.rtakeWhile_append (fun b hb => decide_eq_true ?_) fun b hb => ?_
  · rintro rfl
    exact htail hb
  · obtain rfl : dot = b := Option.some.inj (List.getLast?_concat.symm.trans hb)
    rfl

theorem afterLastDot_of_no_dot {component : Bytes} (hdot : dot ∉ component) :
    afterLastDot component = component := by
  refine List.rtakeWhile_eq_self_iff.2 fun b hb => decide_eq_true ?_
  rintro rfl
  exact hdot hb

theorem extension_of_no_dot {path : Bytes} (hdot : dot ∉ lastComponent path) :
    extension path = [] := by
  unfold extension
  dsimp only
  rw [afterLastDot_of_no_dot hdot, if_pos (Or.inr (Nat.le_succ _))]

/-- A dot at the front marks a hidden file, and one at the end begins nothing. -/
theorem extension_of_last_dot {path stem tail : Bytes}
    (hpath : lastComponent path = stem ++ dot :: tail) (htail : dot ∉ tail) :
    extension path = if stem = [] ∨ tail = [] then [] else dot :: tail := by
  have hlength : (stem ++ dot :: tail).length ≤ tail.length + 1 ↔ stem = [] := by
    rw [List.length_append, List.length_cons, ← List.length_eq_zero_iff]
    omega
  unfold extension
  dsimp only
  rw [hpath, afterLastDot_append_cons htail]
  by_cases hnone : stem = [] ∨ tail = []
  · rw [if_pos hnone, if_pos (hnone.symm.imp_right hlength.2)]
  · rw [if_neg hnone, if_neg fun h => hnone (h.symm.imp_left hlength.1)]
    rfl

theorem isSeparator_of_mem_extension {path : Bytes} :
    ∀ b ∈ extension path, isSeparator b = false := by
  have hcomponent := (isLastComponent_iff.2 (rfl : lastComponent path = _)).isSeparator_of_mem
  by_cases hdot : dot ∈ lastComponent path
  · obtain ⟨stem, tail, hpath, htail⟩ := Bytes.exists_last_of_mem hdot
    rw [extension_of_last_dot hpath htail]
    split
    · simp
    · intro b hb
      rw [hpath] at hcomponent
      exact hcomponent b (List.mem_append_right stem hb)
  · rw [extension_of_no_dot hdot]
    simp

/-! ## By places in the path -/

/-- The place behind the last separator. -/
def nameStart (path : Bytes) : Nat :=
  match Bytes.lastPlace? isSeparator path with
  | none => 0
  | some i => i + 1

/-- The path is searched for its last dot and its last separator, and cut at the dot if that is
behind the separator, not right behind it, and not the last byte. -/
def extensionByPlaces (path : Bytes) : Bytes :=
  if path = [] then []
  else
    match Bytes.lastPlace? (· == dot) path with
    | none => []
    | some place =>
      if (Bytes.lastPlace? isSeparator path).any (place < ·) || place == path.length - 1 then []
      else if place = nameStart path then []
      else path.drop place

section Places

variable {front component : Bytes} (hcomponent : ∀ b ∈ component, isSeparator b = false)
  (hfront : ∀ b, front.getLast? = some b → isSeparator b = true)
include hcomponent hfront

theorem lastPlace?_isSeparator :
    Bytes.lastPlace? isSeparator (front ++ component) =
      if front = [] then none else some (front.length - 1) := by
  cases front using List.reverseRecOn with
  | nil => exact Bytes.lastPlace?_eq_none hcomponent
  | append_singleton front b =>
    have hb := hfront b List.getLast?_concat
    rw [List.append_assoc, List.singleton_append, Bytes.lastPlace?_append_cons hb hcomponent,
      if_neg (by simp)]
    simp

theorem nameStart_eq : nameStart (front ++ component) = front.length := by
  unfold nameStart
  rw [lastPlace?_isSeparator hcomponent hfront]
  split
  · next hnone =>
    split at hnone
    · next hempty => rw [hempty, List.length_nil]
    · cases hnone
  · next i hsome =>
    split at hsome
    · cases hsome
    · next hne =>
      have hpos := List.length_pos_iff.2 hne
      have hi := Option.some.inj hsome
      omega

theorem any_lastPlace?_iff (place : Nat) :
    (Bytes.lastPlace? isSeparator (front ++ component)).any (place < ·) = true ↔
      place + 1 < front.length := by
  rw [lastPlace?_isSeparator hcomponent hfront]
  split
  · next hempty => simp [hempty]
  · rw [Option.any_some, decide_eq_true_eq]
    omega

/-- A dot among the directories alone is found before the last separator. -/
theorem extensionByPlaces_of_no_dot (hdot : dot ∉ component) :
    extensionByPlaces (front ++ component) = [] := by
  unfold extensionByPlaces
  split
  · rfl
  by_cases hdirectory : dot ∈ front
  · obtain ⟨before, behind, hbefore, hbehind⟩ := Bytes.exists_last_of_mem hdirectory
    have hne : behind ≠ [] := by
      rintro rfl
      have hlast := hfront dot (by rw [hbefore, List.getLast?_concat])
      exact absurd hlast (by decide)
    have hrest : ∀ b ∈ behind ++ component, (b == dot) = false :=
      beq_dot_of_not_mem fun hmem => (List.mem_append.1 hmem).elim hbehind hdot
    have hplace : Bytes.lastPlace? (· == dot) (front ++ component) = some before.length := by
      rw [hbefore, List.append_assoc, List.cons_append]
      exact Bytes.lastPlace?_append_cons (beq_self_eq_true dot) hrest
    have hearly := (any_lastPlace?_iff hcomponent hfront before.length).2 (by
      have hpos := List.length_pos_iff.2 hne
      rw [hbefore, List.length_append, List.length_cons]
      omega)
    rw [hplace]
    dsimp only
    rw [hearly, Bool.true_or, if_pos rfl]
  · have hnone : ∀ b ∈ front ++ component, (b == dot) = false :=
      beq_dot_of_not_mem fun hmem => (List.mem_append.1 hmem).elim hdirectory hdot
    rw [Bytes.lastPlace?_eq_none hnone]

theorem extensionByPlaces_of_last_dot {stem tail : Bytes} (heq : component = stem ++ dot :: tail)
    (htail : dot ∉ tail) :
    extensionByPlaces (front ++ component) = if stem = [] ∨ tail = [] then [] else dot :: tail := by
  have hrest := beq_dot_of_not_mem htail
  have hpath : front ++ component = (front ++ stem) ++ dot :: tail := by
    rw [heq, List.append_assoc]
  have hplace : Bytes.lastPlace? (· == dot) (front ++ component) = some (front ++ stem).length := by
    rw [hpath]
    exact Bytes.lastPlace?_append_cons (beq_self_eq_true dot) hrest
  have hlate : (Bytes.lastPlace? isSeparator (front ++ component)).any
      ((front ++ stem).length < ·) = false := by
    rw [Bool.eq_false_iff, ne_eq, any_lastPlace?_iff hcomponent hfront, List.length_append]
    omega
  have hend : ((front ++ stem).length == (front ++ component).length - 1) = true ↔ tail = [] := by
    have hlength : (front ++ component).length = (front ++ stem).length + (tail.length + 1) := by
      rw [hpath, List.length_append, List.length_cons]
    rw [beq_iff_eq, hlength, ← List.length_eq_zero_iff]
    omega
  have hstart : (front ++ stem).length = front.length ↔ stem = [] := by
    rw [List.length_append, ← List.length_eq_zero_iff]
    omega
  unfold extensionByPlaces
  rw [if_neg (by rw [hpath]; simp), hplace]
  dsimp only
  rw [hlate, Bool.false_or, nameStart_eq hcomponent hfront]
  by_cases htail' : tail = []
  · rw [if_pos (hend.2 htail'), if_pos (Or.inr htail')]
  by_cases hstem : stem = []
  · rw [if_neg fun h => htail' (hend.1 h), if_pos (hstart.2 hstem), if_pos (Or.inl hstem)]
  · rw [if_neg fun h => htail' (hend.1 h), if_neg fun h => hstem (hstart.1 h),
      if_neg (not_or.2 ⟨hstem, htail'⟩), hpath, List.drop_left]

end Places

/-- Searching the whole path finds the extension of its last component. -/
theorem extensionByPlaces_eq (path : Bytes) : extensionByPlaces path = extension path := by
  have hlast : IsLastComponent path (lastComponent path) := isLastComponent_iff.2 rfl
  obtain ⟨hcomponent, front, hpath, hfront⟩ := hlast
  by_cases hdot : dot ∈ lastComponent path
  · obtain ⟨stem, tail, heq, htail⟩ := Bytes.exists_last_of_mem hdot
    rw [extension_of_last_dot heq htail,
      ← extensionByPlaces_of_last_dot hcomponent hfront heq htail, ← hpath]
  · rw [extension_of_no_dot hdot, ← extensionByPlaces_of_no_dot hcomponent hfront hdot, ← hpath]

end FileName

/-! ## Letters in either case -/

namespace Byte

def IsCapital (b : UInt8) : Prop := 65 ≤ b ∧ b ≤ 90

/-- The bytes are the same, or one letter in its two cases. -/
def SameLetter (b c : UInt8) : Prop := b = c ∨ IsCapital b ∧ c = b + 32 ∨ IsCapital c ∧ b = c + 32

theorem upper_of_isCapital {b : UInt8} (hb : IsCapital b) : upper b = b ∧ upper (b + 32) = b := by
  unfold IsCapital at hb
  unfold upper
  grind

theorem SameLetter.upper_eq {b c : UInt8} (h : SameLetter b c) : upper b = upper c := by
  rcases h with rfl | ⟨hb, rfl⟩ | ⟨hc, rfl⟩
  · rfl
  · rw [(upper_of_isCapital hb).1, (upper_of_isCapital hb).2]
  · rw [(upper_of_isCapital hc).1, (upper_of_isCapital hc).2]

theorem upper_eq_of_sameLetters {s s' : Bytes} (h : List.Forall₂ SameLetter s s') :
    s.upper = s'.upper := by
  induction h with
  | nil => rfl
  | cons hletter _ ih => exact congrArg₂ List.cons hletter.upper_eq ih

theorem upper_eq_dot_iff {b : UInt8} : upper b = '.'.toUInt8 ↔ b = '.'.toUInt8 := by
  have hdot : '.'.toUInt8 = 46 := rfl
  rw [hdot]
  unfold upper
  grind

end Byte

namespace FileName

/-- The extension of a component. -/
def extensionOf (component : Bytes) : Bytes :=
  let tail := afterLastDot component
  if tail = [] ∨ component.length ≤ tail.length + 1 then [] else "." ++ tail

theorem upper_afterLastDot (component : Bytes) :
    (afterLastDot component).upper = afterLastDot component.upper := by
  have hdots : ((fun b : UInt8 => decide (b ≠ '.'.toUInt8)) ∘ Byte.upper) =
      fun b => decide (b ≠ '.'.toUInt8) :=
    funext fun b => decide_eq_decide.2 (not_congr Byte.upper_eq_dot_iff)
  unfold afterLastDot Bytes.upper
  rw [← List.map_reverse, List.takeWhile_map, hdots, List.map_reverse]

theorem upper_extensionOf (component : Bytes) :
    (extensionOf component).upper = extensionOf component.upper := by
  have hlength : ∀ s : Bytes, s.upper.length = s.length := fun s => List.length_map _
  have hnil : (afterLastDot component).upper = [] ↔ afterLastDot component = [] :=
    List.map_eq_nil_iff
  unfold extensionOf
  dsimp only
  rw [← upper_afterLastDot, hlength, hlength]
  by_cases hnone : afterLastDot component = [] ∨
      component.length ≤ (afterLastDot component).length + 1
  · rw [if_pos hnone, if_pos (hnone.imp_left hnil.2)]
    rfl
  · rw [if_neg hnone, if_neg fun h => hnone (h.imp_left hnil.1)]
    exact List.map_append

/-- The kind that a path promises hangs on its last component, whatever the case of the letters. -/
theorem kind_congr {path path' : Bytes}
    (h : List.Forall₂ Byte.SameLetter (lastComponent path) (lastComponent path')) :
    kind path = kind path' := by
  have hextension : (extension path).upper = (extension path').upper := by
    show (extensionOf (lastComponent path)).upper = (extensionOf (lastComponent path')).upper
    rw [upper_extensionOf, upper_extensionOf, Byte.upper_eq_of_sameLetters h]
  unfold kind
  rw [hextension]

/-- The extension of a path is the end of its last component from its last dot on, if this dot is
neither the first nor the last byte there; there is none otherwise, and no separator is in it.  The
same is found by searching the whole path.  What stands before the last separator does not change
it, nor the case of letters the kind that a path promises. -/
theorem extension_of_last_component (path : Bytes) :
    (∀ component, IsLastComponent path component ↔ component = lastComponent path) ∧
    (∀ component, IsLastComponent path component →
      (dot ∉ component → extension path = []) ∧
      ∀ stem tail, component = stem ++ dot :: tail → dot ∉ tail →
        extension path = if stem = [] ∨ tail = [] then [] else dot :: tail) ∧
    extensionByPlaces path = extension path ∧
    (∀ directory name : Bytes, (∀ b ∈ name, isSeparator b = false) →
      extension (directory ++ "/" ++ name) = extension name) ∧
    (∀ b ∈ extension path, isSeparator b = false) ∧
    ∀ path', List.Forall₂ Byte.SameLetter (lastComponent path) (lastComponent path') →
      kind path = kind path' := by
  refine ⟨fun component => isLastComponent_iff, fun component hcomponent => ?_,
    extensionByPlaces_eq path, fun directory name hname => ?_, isSeparator_of_mem_extension,
    fun path' => kind_congr⟩
  · obtain rfl := isLastComponent_iff.1 hcomponent
    exact ⟨extension_of_no_dot, fun stem tail => extension_of_last_dot⟩
  · show extensionOf (lastComponent _) = extensionOf (lastComponent name)
    rw [lastComponent_below hname]

-- A dot in a directory, at the front of a name and at its end, and a path that ends in a separator.
example : (["/data.d/record", "/data/.NS", "a.", "a.NS/", "a\\b.d/record.tar.NS"] : List Bytes).map
    extension = [[], [], [], [], ".NS"] := by decide +kernel

end FileName
end StrongMotion
