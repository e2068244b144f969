import StrongMotion.Proofs.ArgumentGroups

/-!
# The order of arguments

The groups of a request for a header may come in any order, as far as the one path in it goes: a
path that is empty is passed over before that path and refused behind it
(`InfoCommand.read_of_perm_iff`).
-/

namespace StrongMotion
namespace InfoCommand

open Arguments ArgumentGroup

/-- The path is the last one and the only one that is not empty. -/
def SettlesOn (paths : List Bytes) (path : Bytes) : Prop :=
  path ≠ [] ∧ ∃ before, paths = before ++ [path] ∧ ∀ p ∈ before, p = []

namespace SettlesOn

variable {paths : List Bytes} {path : Bytes}

theorem nil_cons_iff : SettlesOn ([] :: paths) path ↔ SettlesOn paths path := by
  constructor
  · rintro ⟨hne, before, hpaths, hbefore⟩
    cases before with
    | nil =>
      rw [List.nil_append, List.cons.injEq] at hpaths
      exact absurd hpaths.1.symm hne
    | cons p before =>
      rw [List.cons_append, List.cons.injEq] at hpaths
      exact ⟨hne, before, hpaths.2, (List.forall_mem_cons.1 hbefore).2⟩
  · rintro ⟨hne, before, rfl, hbefore⟩
    exact ⟨hne, [] :: before, rfl, List.forall_mem_cons.2 ⟨rfl, hbefore⟩⟩

theorem cons_iff {input : Bytes} (hinput : input ≠ []) :
    SettlesOn (input :: paths) path ↔ paths = [] ∧ path = input := by
  constructor
  · rintro ⟨-, before, hpaths, hbefore⟩
    cases before with
    | nil =>
      rw [List.nil_append, List.cons.injEq] at hpaths
      exact ⟨hpaths.2, hpaths.1.symm⟩
    | cons p before =>
      rw [List.cons_append, List.cons.injEq] at hpaths
      exact absurd (hpaths.1.trans (List.forall_mem_cons.1 hbefore).1) hinput
  · rintro ⟨rfl, rfl⟩
    exact ⟨hinput, [], rfl, by simp⟩

theorem filter_eq (h : SettlesOn paths path) : paths.filter (· ≠ []) = [path] := by
  obtain ⟨hne, before, rfl, hbefore⟩ := h
  have hnone : before.filter (· ≠ []) = [] := by
    rw [List.filter_eq_nil_iff]
    intro p hp
    simp [hbefore p hp]
  rw [List.filter_append, hnone, List.nil_append, List.filter_cons_of_pos (by simp [hne]),
    List.filter_nil]

/-- Where no path is empty, there has to be just one. -/
theorem iff_of_nil_not_mem (hnil : [] ∉ paths) : SettlesOn paths path ↔ paths = [path] := by
  constructor
  · intro h
    rw [← h.filter_eq, eq_comm, List.filter_eq_self]
    intro p hp
    have hne : p ≠ [] := fun heq => hnil (heq ▸ hp)
    simp [hne]
  · rintro rfl
    exact ⟨fun heq => hnil (by simp [heq]), [], rfl, by simp⟩

end SettlesOn

/-! ## Reading group by group -/

theorem readFrom_splitStation (r : InfoCommand) (rest : List Bytes) :
    readFrom r (splitStationFlag :: rest) =
      readFrom { r with options.splitStation := true } rest := by
  rw [readFrom.eq_def]
  exact if_pos rfl

theorem readFrom_encoding (r : InfoCommand) (value : Bytes) (rest : List Bytes) :
    readFrom r (encodingFlag :: value :: rest) =
      if value = [] then .error .encodingWithoutValue
      else readFrom { r with options.encoding := some value } rest := by
  have hne : encodingFlag ≠ splitStationFlag := by decide +kernel
  rw [readFrom, if_neg hne, if_pos rfl]

theorem readFrom_file {path : Bytes} (hpath : isOption path = false) (r : InfoCommand)
    (rest : List Bytes) :
    readFrom r (path :: rest) =
      if r.input = [] then readFrom { r with input := path } rest else .error .severalFiles := by
  obtain ⟨hsplit, hencoding⟩ := ne_flags_of_not_isOption hpath
  rw [readFrom.eq_def]
  dsimp only
  rw [if_neg hsplit, if_neg hencoding, hpath, if_neg Bool.false_ne_true]

theorem readFrom_nil_eq_ok_iff (r r' : InfoCommand) :
    readFrom r [] = .ok r' ↔ SettlesOn [r.input] r'.input ∧
      r'.options.encoding = r.options.encoding ∧
        r'.options.splitStation = r.options.splitStation := by
  obtain ⟨input, encoding, split⟩ := r
  obtain ⟨input', encoding', split'⟩ := r'
  rw [readFrom]
  by_cases hinput : input = []
  · rw [if_pos hinput, hinput, SettlesOn.nil_cons_iff]
    refine iff_of_false (fun h => by cases h) ?_
    rintro ⟨⟨-, before, hbefore, -⟩, -⟩
    simp at hbefore
  · rw [if_neg hinput, SettlesOn.cons_iff hinput]
    simp [eq_comm]

/-- A path given before counts like one in front of the groups. -/
theorem readFrom_write_eq_ok_iff (groups : List ArgumentGroup) (r r' : InfoCommand) :
    readFrom r (write groups) = .ok r' ↔
      [] ∉ encodings groups ∧ SettlesOn (r.input :: files groups) r'.input ∧
        r'.options.encoding = (encodings groups).getLast?.or r.options.encoding ∧
        r'.options.splitStation = (r.options.splitStation || groups.any splits) := by
  induction groups generalizing r with
  | nil =>
    show readFrom r [] = .ok r' ↔ _
    rw [readFrom_nil_eq_ok_iff]
    simp [encodings, files]
  | cons g groups ih =>
    cases g with
    | splitStation =>
      show readFrom r (splitStationFlag :: write groups) = .ok r' ↔
        [] ∉ encodings groups ∧ SettlesOn (r.input :: files groups) r'.input ∧
          _ = (encodings groups).getLast?.or r.options.encoding ∧
            _ = (r.options.splitStation || (true || groups.any splits))
      rw [readFrom_splitStation, ih, Bool.true_or, Bool.or_true]
    | encoding value =>
      show readFrom r (encodingFlag :: value :: write groups) = .ok r' ↔
        [] ∉ value :: encodings groups ∧ _ ∧
          _ = (value :: encodings groups).getLast?.or r.options.encoding ∧ _
      rw [readFrom_encoding]
      by_cases hvalue : value = []
      · rw [if_pos hvalue]
        refine iff_of_false (fun h => by cases h) fun h => h.1 ?_
        rw [hvalue]
        exact List.mem_cons_self
      · have hmem : [] ∈ value :: encodings groups ↔ [] ∈ encodings groups := by
          rw [List.mem_cons, or_iff_right (Ne.symm hvalue)]
        rw [if_neg hvalue, ih, hmem, ← getLast?_or_some]
        rfl
    | file path hpath =>
      show readFrom r (path :: write groups) = .ok r' ↔
        _ ∧ SettlesOn (r.input :: path :: files groups) r'.input ∧ _
      rw [readFrom_file hpath]
      by_cases hinput : r.input = []
      · rw [if_pos hinput, ih, hinput, SettlesOn.nil_cons_iff]
        rfl
      · rw [if_neg hinput, SettlesOn.cons_iff hinput]
        refine iff_of_false (fun h => by cases h) ?_
        rintro ⟨-, ⟨hfiles, -⟩, -⟩
        cases hfiles

/-- The request that the groups write. -/
theorem read_write_eq_ok_iff (groups : List ArgumentGroup) (r : InfoCommand) :
    read (write groups) = .ok r ↔
      [] ∉ encodings groups ∧ SettlesOn (files groups) r.input ∧
        r.options.encoding = (encodings groups).getLast? ∧
        r.options.splitStation = groups.any splits := by
  rw [read, readFrom_write_eq_ok_iff, SettlesOn.nil_cons_iff, Option.or_none, Bool.false_or]

/-! ## Reordered groups -/

/-- The groups are read as the same request, or are both refused. -/
def Agree (groups groups' : List ArgumentGroup) : Prop :=
  (read (write groups)).toOption = (read (write groups')).toOption

theorem agree_of_forall {groups groups' : List ArgumentGroup}
    (h : ∀ r, read (write groups) = .ok r ↔ read (write groups') = .ok r) :
    Agree groups groups' := by
  unfold Agree
  cases hread : read (write groups) with
  | ok r => rw [(h r).1 hread]
  | error f =>
    cases hread' : read (write groups') with
    | ok r => cases hread.symm.trans ((h r).2 hread')
    | error f' => rfl

theorem exists_read_write_iff (groups : List ArgumentGroup) :
    (∃ r, read (write groups) = .ok r) ↔
      [] ∉ encodings groups ∧ ∃ path, SettlesOn (files groups) path := by
  constructor
  · rintro ⟨r, hread⟩
    obtain ⟨hnil, hpath, -⟩ := (read_write_eq_ok_iff groups r).1 hread
    exact ⟨hnil, r.input, hpath⟩
  · rintro ⟨hnil, path, hpath⟩
    exact ⟨⟨path, ⟨_, _⟩⟩, (read_write_eq_ok_iff groups _).2 ⟨hnil, hpath, rfl, rfl⟩⟩

theorem Agree.exists_read_iff {groups groups' : List ArgumentGroup} (h : Agree groups groups') :
    (∃ r, read (write groups) = .ok r) ↔ ∃ r, read (write groups') = .ok r := by
  have hexists : ∀ x : Except ArgumentFault InfoCommand,
      (∃ r, x = .ok r) ↔ ∃ r, x.toOption = some r := by
    intro x
    cases x <;> simp [Except.toOption]
  rw [hexists, hexists, h]

namespace SettlesOn

variable {paths paths' : List Bytes}

/-- What is chosen from the same paths is the same. -/
theorem unique_of_perm {path path' : Bytes} (hperm : paths.Perm paths') (h : SettlesOn paths path)
    (h' : SettlesOn paths' path') : path = path' := by
  have hfilter := hperm.filter (· ≠ [])
  rw [h.filter_eq, h'.filter_eq] at hfilter
  exact List.mem_singleton.1 (hfilter.subset (List.mem_singleton_self path))

theorem iff_of_exists_iff (hperm : paths.Perm paths')
    (h : (∃ path, SettlesOn paths path) ↔ ∃ path, SettlesOn paths' path) (path : Bytes) :
    SettlesOn paths path ↔ SettlesOn paths' path := by
  constructor
  · intro hpath
    obtain ⟨path', hpath'⟩ := h.1 ⟨path, hpath⟩
    rw [hpath.unique_of_perm hperm hpath']
    exact hpath'
  · intro hpath
    obtain ⟨path', hpath'⟩ := h.2 ⟨path, hpath⟩
    rw [← hpath'.unique_of_perm hperm hpath]
    exact hpath'

theorem exists_iff_of_nil_not_mem (hperm : paths.Perm paths') (hnil : [] ∉ paths) :
    (∃ path, SettlesOn paths path) ↔ ∃ path, SettlesOn paths' path := by
  refine exists_congr fun path => ?_
  rw [iff_of_nil_not_mem hnil, iff_of_nil_not_mem fun hmem => hnil (hperm.mem_iff.2 hmem)]
  constructor
  · rintro rfl
    exact hperm.singleton_eq.symm
  · rintro rfl
    exact hperm.eq_singleton

end SettlesOn

theorem encodings_eq_of_perm {groups groups' : List ArgumentGroup} (hperm : groups.Perm groups')
    (hone : (encodings groups).length ≤ 1) : encodings groups = encodings groups' := by
  have hencodings : (encodings groups).Perm (encodings groups') := hperm.filterMap _
  match hcase : encodings groups with
  | [] =>
    rw [hcase] at hencodings
    exact hencodings.nil_eq
  | [value] =>
    rw [hcase] at hencodings
    exact hencodings.singleton_eq
  | _ :: _ :: _ =>
    rw [hcase] at hone
    simp at hone

/-- Groups in another order are read as the same request or refused again, unless an empty path has
moved from before the one path to behind it or back.  Where no path is empty, order does not
matter. -/
theorem read_of_perm_iff {groups groups' : List ArgumentGroup} (hperm : groups.Perm groups')
    (hone : (encodings groups).length ≤ 1) :
    (Agree groups groups' ↔ [] ∈ encodings groups ∨
      ((∃ path, SettlesOn (files groups) path) ↔ ∃ path, SettlesOn (files groups') path)) ∧
    ([] ∉ files groups → Agree groups groups') := by
  have hencodings := encodings_eq_of_perm hperm hone
  have hfiles : (files groups).Perm (files groups') := hperm.filterMap _
  have hsplits : groups.any splits = groups'.any splits := hperm.any_eq
  have hsame : ((∃ path, SettlesOn (files groups) path) ↔ ∃ path, SettlesOn (files groups') path) →
      Agree groups groups' := by
    intro hexists
    refine agree_of_forall fun r => ?_
    rw [read_write_eq_ok_iff, read_write_eq_ok_iff, ← hencodings, ← hsplits,
      SettlesOn.iff_of_exists_iff hfiles hexists]
  refine ⟨⟨fun hagree => ?_, ?_⟩, fun hnil =>
    hsame (SettlesOn.exists_iff_of_nil_not_mem hfiles hnil)⟩
  · have hread := hagree.exists_read_iff
    rw [exists_read_write_iff, exists_read_write_iff, ← hencodings] at hread
    by_cases hnil : [] ∈ encodings groups
    · exact Or.inl hnil
    · rw [and_iff_right hnil, and_iff_right hnil] at hread
      exact Or.inr hread
  · rintro (hnil | hexists)
    · refine agree_of_forall fun r => ?_
      rw [read_write_eq_ok_iff, read_write_eq_ok_iff, ← hencodings]
      exact iff_of_false (fun h => h.1 hnil) fun h => h.1 hnil
    · exact hsame hexists

/-- The groups of `--encoding SHIFT_JIS record.UD1 --convert-station-name`. -/
def sampleGroups : List ArgumentGroup :=
  [.encoding "SHIFT_JIS", .file "record.UD1" (by decide +kernel), .splitStation]

theorem read_of_perm_iff_sampleGroups :
    sampleGroups.Perm sampleGroups.reverse ∧ (encodings sampleGroups).length ≤ 1 ∧
      [] ∉ files sampleGroups ∧ Agree sampleGroups sampleGroups.reverse := by
  have hperm : sampleGroups.Perm sampleGroups.reverse := (List.reverse_perm _).symm
  have hone : (encodings sampleGroups).length ≤ 1 := by decide +kernel
  have hnil : [] ∉ files sampleGroups := by decide +kernel
  exact ⟨hperm, hone, hnil, (read_of_perm_iff hperm hone).2 hnil⟩

/-- An empty path before the one path is passed over, and the same two are refused the other way
round. -/
theorem not_agree_of_empty_path :
    ∃ groups groups' : List ArgumentGroup, groups.Perm groups' ∧ (encodings groups).length ≤ 1 ∧
      write groups = (["", "a.NS"] : List Bytes) ∧ write groups' = (["a.NS", ""] : List Bytes) ∧
      read (write groups) = .ok ⟨"a.NS", {}⟩ ∧ read (write groups') = .error .severalFiles ∧
      ¬Agree groups groups' := by
  refine ⟨[.file "" (by decide +kernel), .file "a.NS" (by decide +kernel)], _, List.Perm.swap _ _ _,
    by decide +kernel, rfl, rfl, rfl, rfl, ?_⟩
  unfold Agree
  decide +kernel

end InfoCommand
end StrongMotion
