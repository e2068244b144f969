import StrongMotion.CommandLine.Arguments

/-!
# Arguments in groups

The arguments of a command fall into groups from the left: an option with its value, or a path.  The
value belongs to its option whatever it looks like, so there is one way to do this.  A request for
the kinds of files is read exactly when its arguments are such groups and one of the paths is not
empty (`DetectCommand.read_eq_iff_groups`).
-/

namespace StrongMotion

open Arguments

/-- Arguments that belong together. -/
inductive ArgumentGroup
  | splitStation
  | encoding (value : Bytes)
  | file (path : Bytes) (isOption_eq : isOption path = false)

namespace ArgumentGroup

def arguments : ArgumentGroup → List Bytes
  | splitStation => [splitStationFlag]
  | encoding value => [encodingFlag, value]
  | file path _ => [path]

def splits : ArgumentGroup → Bool
  | splitStation => true
  | encoding _ | file _ _ => false

def encoding? : ArgumentGroup → Option Bytes
  | encoding value => some value
  | splitStation | file _ _ => none

def file? : ArgumentGroup → Option Bytes
  | file path _ => some path
  | splitStation | encoding _ => none

/-- The arguments of the groups, one group after the other. -/
def write (groups : List ArgumentGroup) : List Bytes := groups.flatMap arguments

def encodings (groups : List ArgumentGroup) : List Bytes := groups.filterMap encoding?

def files (groups : List ArgumentGroup) : List Bytes := groups.filterMap file?

/-- A path is taken for neither of the options. -/
theorem ne_flags_of_not_isOption {path : Bytes} (h : isOption path = false) :
    path ≠ splitStationFlag ∧ path ≠ encodingFlag := by
  constructor
  · rintro rfl
    exact absurd h (by decide +kernel)
  · rintro rfl
    exact absurd h (by decide +kernel)

/-- A later encoding replaces the one before. -/
theorem getLast?_or_some (value : Bytes) (values : List Bytes) (before : Option Bytes) :
    values.getLast?.or (some value) = (value :: values).getLast?.or before := by
  rw [List.getLast?_cons]
  cases values.getLast? <;> rfl

end ArgumentGroup

namespace DetectCommand

open ArgumentGroup

/-- The command knows this group. -/
def Takes : ArgumentGroup → Prop
  | .splitStation => False
  | .encoding value => value ≠ []
  | .file _ _ => True

/-- The request with one group more. -/
def add (r : DetectCommand) : ArgumentGroup → DetectCommand
  | .splitStation => r
  | .encoding value => { r with encoding := some value }
  | .file path _ => if path = [] then r else { r with inputs := r.inputs ++ [path] }

/-- Why the arguments do not begin with a group that the command knows. -/
inductive Halts : List Bytes → ArgumentFault → Prop
  | noValue : Halts [encodingFlag] .encodingWithoutValue
  | emptyValue (rest : List Bytes) : Halts (encodingFlag :: [] :: rest) .encodingWithoutValue
  | unknown {option : Bytes} (rest : List Bytes) (hoption : isOption option = true)
      (hne : option ≠ encodingFlag) : Halts (option :: rest) (.unknownOption option)

/-! ## Reading group by group -/

theorem readFrom_cons_of_ne {argument : Bytes} (hne : argument ≠ encodingFlag) (r : DetectCommand)
    (rest : List Bytes) :
    readFrom r (argument :: rest) =
      if isOption argument then .error (.unknownOption argument)
      else if argument = [] then readFrom r rest
      else readFrom { r with inputs := r.inputs ++ [argument] } rest := by
  rw [readFrom.eq_def]
  exact if_neg hne

theorem readFrom_group {g : ArgumentGroup} (hg : Takes g) (r : DetectCommand) (rest : List Bytes) :
    readFrom r (g.arguments ++ rest) = readFrom (r.add g) rest := by
  cases g with
  | splitStation => exact hg.elim
  | encoding value =>
    show readFrom r (encodingFlag :: value :: rest) = _
    rw [readFrom, if_pos rfl]
    exact if_neg hg
  | file path hpath =>
    show readFrom r (path :: rest) = readFrom (if path = [] then r else _) rest
    rw [readFrom_cons_of_ne (ne_flags_of_not_isOption hpath).2, hpath, if_neg Bool.false_ne_true]
    split
    · rfl
    · rfl

theorem readFrom_write {groups : List ArgumentGroup} (hgroups : ∀ g ∈ groups, Takes g)
    (r : DetectCommand) (rest : List Bytes) :
    readFrom r (write groups ++ rest) = readFrom (groups.foldl add r) rest := by
  induction groups generalizing r with
  | nil => rfl
  | cons g groups ih =>
    obtain ⟨hg, hgroups⟩ := List.forall_mem_cons.1 hgroups
    have hwrite : write (g :: groups) ++ rest = g.arguments ++ (write groups ++ rest) := by
      rw [write, List.flatMap_cons, List.append_assoc]
      rfl
    rw [hwrite, readFrom_group hg, ih hgroups]
    rfl

theorem inputs_foldl_add (groups : List ArgumentGroup) (r : DetectCommand) :
    (groups.foldl add r).inputs = r.inputs ++ (files groups).filter (· ≠ []) := by
  induction groups generalizing r with
  | nil => exact (List.append_nil _).symm
  | cons g groups ih =>
    rw [List.foldl_cons, ih]
    cases g with
    | splitStation | encoding value => rfl
    | file path hpath =>
      show (if path = [] then r else _).inputs ++ _ = r.inputs ++ (path :: files groups).filter _
      by_cases hempty : path = []
      · rw [if_pos hempty, List.filter_cons_of_neg (by simp [hempty])]
      · rw [if_neg hempty, List.filter_cons_of_pos (by simp [hempty]), List.append_assoc]
        rfl

theorem encoding_foldl_add (groups : List ArgumentGroup) (r : DetectCommand) :
    (groups.foldl add r).encoding = (encodings groups).getLast?.or r.encoding := by
  induction groups generalizing r with
  | nil => rfl
  | cons g groups ih =>
    rw [List.foldl_cons, ih]
    cases g with
    | splitStation => rfl
    | encoding value => exact getLast?_or_some value (encodings groups) r.encoding
    | file path hpath =>
      show _ = (encodings groups).getLast?.or r.encoding
      rw [add]
      split <;> rfl

theorem readFrom_of_halts {rest : List Bytes} {f : ArgumentFault} (h : Halts rest f)
    (r : DetectCommand) : readFrom r rest = .error f := by
  cases h with
  | noValue => rfl
  | emptyValue rest => rfl
  | unknown rest hoption hne => rw [readFrom_cons_of_ne hne, if_pos hoption]

/-- The arguments are groups that the command knows, with something behind them that does not begin
with one. -/
structure Parts (arguments : List Bytes) (groups : List ArgumentGroup) (rest : List Bytes) :
    Prop where
  takes : ∀ g ∈ groups, Takes g
  append_eq : write groups ++ rest = arguments
  stops : rest = [] ∨ ∃ f, Halts rest f

theorem Parts.cons {arguments : List Bytes} {groups : List ArgumentGroup} {rest : List Bytes}
    (h : Parts arguments groups rest) {g : ArgumentGroup} (hg : Takes g) :
    Parts (g.arguments ++ arguments) (g :: groups) rest where
  takes := List.forall_mem_cons.2 ⟨hg, h.takes⟩
  append_eq := by rw [← h.append_eq, write, List.flatMap_cons, List.append_assoc]; rfl
  stops := h.stops

/-- The induction is on the way the arguments are read, from any request. -/
theorem exists_parts (r : DetectCommand) (arguments : List Bytes) :
    ∃ groups rest, Parts arguments groups rest := by
  fun_induction readFrom r arguments with
  | case1 r _ | case2 r _ => exact ⟨[], [], by simp, rfl, Or.inl rfl⟩
  | case3 r => exact ⟨[], _, by simp, rfl, Or.inr ⟨_, .noValue⟩⟩
  | case4 r rest => exact ⟨[], _, by simp, rfl, Or.inr ⟨_, .emptyValue rest⟩⟩
  | case5 r value rest hvalue ih =>
    obtain ⟨groups, behind, hparts⟩ := ih
    exact ⟨_, behind, hparts.cons (g := .encoding value) hvalue⟩
  | case6 r option rest hne hoption =>
    exact ⟨[], _, by simp, rfl, Or.inr ⟨_, .unknown rest hoption hne⟩⟩
  | case7 r rest _ hpath ih =>
    obtain ⟨groups, behind, hparts⟩ := ih
    have hfile := hparts.cons (g := .file [] (Bool.eq_false_iff.2 hpath)) trivial
    exact ⟨_, behind, hfile⟩
  | case8 r path rest _ hpath _ ih =>
    obtain ⟨groups, behind, hparts⟩ := ih
    have hfile := hparts.cons (g := .file path (Bool.eq_false_iff.2 hpath)) trivial
    exact ⟨_, behind, hfile⟩

/-! ## Requests -/

theorem files_all_empty_iff (groups : List ArgumentGroup) :
    (files groups).filter (· ≠ []) = [] ↔ ∀ path ∈ files groups, path = [] := by
  rw [List.filter_eq_nil_iff]
  simp

/-- What the groups ask for, if no argument is behind them. -/
theorem read_of_takes {groups : List ArgumentGroup} (hgroups : ∀ g ∈ groups, Takes g) :
    read (write groups) =
      if (files groups).filter (· ≠ []) = [] then .error .noFiles
      else .ok ⟨(files groups).filter (· ≠ []), (encodings groups).getLast?⟩ := by
  have hread := readFrom_write hgroups {} []
  have hinputs := inputs_foldl_add groups {}
  have hencoding := encoding_foldl_add groups {}
  rw [List.append_nil, readFrom] at hread
  rw [List.nil_append] at hinputs
  rw [Option.or_none] at hencoding
  rw [read, hread, ← hinputs, ← hencoding]

theorem read_append_of_halts {groups : List ArgumentGroup} (hgroups : ∀ g ∈ groups, Takes g)
    {rest : List Bytes} {f : ArgumentFault} (h : Halts rest f) :
    read (write groups ++ rest) = .error f := by
  rw [read, readFrom_write hgroups, readFrom_of_halts h]

/-- The request that the arguments write. -/
structure Writes (groups : List ArgumentGroup) (arguments : List Bytes) (r : DetectCommand) :
    Prop where
  takes : ∀ g ∈ groups, Takes g
  write_eq : write groups = arguments
  exists_file : ∃ path ∈ files groups, path ≠ []
  inputs_eq : r.inputs = (files groups).filter (· ≠ [])
  encoding_eq : r.encoding = (encodings groups).getLast?

theorem Writes.read_eq {groups : List ArgumentGroup} {arguments : List Bytes} {r : DetectCommand}
    (h : Writes groups arguments r) : read arguments = .ok r := by
  obtain ⟨path, hpath, hne⟩ := h.exists_file
  have hfiles : ¬(files groups).filter (· ≠ []) = [] := by
    rw [files_all_empty_iff]
    exact fun hall => hne (hall path hpath)
  rw [← h.write_eq, read_of_takes h.takes, if_neg hfiles, ← h.inputs_eq, ← h.encoding_eq]

/-- The arguments go on behind their groups in a way the command does not know, or have no path that
is not empty. -/
def Refuses (arguments : List Bytes) (f : ArgumentFault) : Prop :=
  ∃ groups rest, (∀ g ∈ groups, Takes g) ∧ write groups ++ rest = arguments ∧
    (Halts rest f ∨ rest = [] ∧ (∀ path ∈ files groups, path = []) ∧ f = .noFiles)

theorem Refuses.read_eq {arguments : List Bytes} {f : ArgumentFault} (h : Refuses arguments f) :
    read arguments = .error f := by
  obtain ⟨groups, rest, htakes, rfl, hhalts | ⟨rfl, hempty, rfl⟩⟩ := h
  · exact read_append_of_halts htakes hhalts
  · rw [List.append_nil, read_of_takes htakes, if_pos ((files_all_empty_iff groups).2 hempty)]

theorem writes_or_refuses (arguments : List Bytes) :
    (∃ groups r, Writes groups arguments r) ∨ ∃ f, Refuses arguments f := by
  obtain ⟨groups, rest, htakes, hwrite, rfl | ⟨f, hhalts⟩⟩ := exists_parts {} arguments
  · by_cases hfile : ∃ path ∈ files groups, path ≠ []
    · rw [List.append_nil] at hwrite
      exact Or.inl ⟨groups, ⟨_, _⟩, htakes, hwrite, hfile, rfl, rfl⟩
    · refine Or.inr ⟨_, groups, [], htakes, hwrite, Or.inr ⟨rfl, fun path hpath => ?_, rfl⟩⟩
      exact Classical.byContradiction fun hne => hfile ⟨path, hpath, hne⟩
  · exact Or.inr ⟨f, groups, rest, htakes, hwrite, Or.inl hhalts⟩

/-- A request is read if its arguments are groups and one of the paths is not empty; it then holds
the paths that are not empty, in their order, and the last encoding.  All other arguments are
refused, for what stands behind the groups or for want of a path. -/
theorem read_eq_iff_groups (arguments : List Bytes) :
    (∀ r, read arguments = .ok r ↔ ∃ groups, Writes groups arguments r) ∧
    (∀ f, read arguments = .error f ↔ Refuses arguments f) := by
  refine ⟨fun r => ⟨fun hread => ?_, fun ⟨groups, hwrites⟩ => hwrites.read_eq⟩,
    fun f => ⟨fun hread => ?_, fun hrefuses => hrefuses.read_eq⟩⟩
  · rcases writes_or_refuses arguments with ⟨groups, r', hwrites⟩ | ⟨f, hrefuses⟩
    · obtain rfl : r = r' := Except.ok.inj (hread.symm.trans hwrites.read_eq)
      exact ⟨groups, hwrites⟩
    · cases hread.symm.trans hrefuses.read_eq
  · rcases writes_or_refuses arguments with ⟨groups, r, hwrites⟩ | ⟨f', hrefuses⟩
    · cases hread.symm.trans hwrites.read_eq
    · obtain rfl : f = f' := Except.error.inj (hread.symm.trans hrefuses.read_eq)
      exact hrefuses

-- The value of an option may look like an option, and a path may be empty.
example : (read ["", "a.NS", "--encoding", "--encoding", "--encoding", "UTF-8", "b.UD1"]).toOption =
    some ⟨["a.NS", "b.UD1"], some "UTF-8"⟩ := by decide +kernel

end DetectCommand
end StrongMotion
