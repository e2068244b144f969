import Mathlib.Data.List.Basic
import StrongMotion.Proofs.BatchRuns
import StrongMotion.Proofs.FailureLogs

/-!
# What a batch reports

A batch that comes to its end tells a listener of each record when it is there, counts the records
and notes the failures.  All this can be read off the inputs one by one, so a batch over two lists
of inputs reports what the batches over each of them do (`Batch.reports_of_short_paths`).  In a tree
of files a batch comes to its end if its paths are short, as a whole and name by name.
-/

namespace StrongMotion

/-! ## Paths that can be looked up -/

namespace Tree

/-- Neither the path nor a name in it is too long. -/
def IsShort (path : Bytes) : Prop :=
  path.length ≤ maxPath ∧ ∀ name ∈ names path, name.length ≤ maxName

instance (path : Bytes) : Decidable (IsShort path) :=
  inferInstanceAs (Decidable (path.length ≤ maxPath ∧ ∀ name ∈ names path, name.length ≤ maxName))

variable (t : Tree)

theorem entryAt_ne_nameTooLong (place : Place) : t.entryAt place ≠ .nameTooLong := by
  unfold entryAt
  split
  · exact Entry.noConfusion
  · split <;> exact Entry.noConfusion

theorem walk_ne_nameTooLong {path : List Bytes} (hpath : ∀ name ∈ path, name.length ≤ maxName)
    (place : Place) : t.walk place path ≠ .nameTooLong := by
  induction path generalizing place with
  | nil => exact t.entryAt_ne_nameTooLong place
  | cons name rest ih =>
    obtain ⟨hname, hrest⟩ := List.forall_mem_cons.1 hpath
    rw [walk.eq_def]
    dsimp only
    split
    · exact Entry.noConfusion
    split
    · exact ih hrest place
    split
    · split
      · exact ih hrest _
      · exact ih hrest _
      · exact ih hrest _
    rw [if_neg (Nat.not_lt.2 hname)]
    split
    · exact Entry.noConfusion
    · exact ih hrest _

theorem find_ne_nameTooLong {path : Bytes} (hshort : IsShort path.untilNul) :
    t.fileSystem.find path ≠ .nameTooLong := by
  show t.entry path.untilNul ≠ .nameTooLong
  unfold entry
  split
  · exact Entry.noConfusion
  rw [if_neg (Nat.not_lt.2 hshort.1)]
  split
  · exact t.walk_ne_nameTooLong hshort.2 _
  · exact t.walk_ne_nameTooLong hshort.2 _

end Tree

/-! ## The outcomes of inputs -/

namespace Settings

/-- The records that some inputs are converted to, in order. -/
def conversions (s : Settings) (fs : FileSystem) (inputs : List Bytes) : List Converted :=
  inputs.filterMap fun input =>
    match s.convert fs input with
    | .ok (.ok c) => some c
    | _ => none

/-- What there is to say about the inputs among some that cannot be converted, in order. -/
def complaints (s : Settings) (fs : FileSystem) (inputs : List Bytes) : List Bytes :=
  inputs.filterMap fun input =>
    match s.convert fs input with
    | .ok (.error failure) => some (input ++ ": " ++ failure.message)
    | _ => none

end Settings

namespace Batch

variable {s : Settings} {fs : FileSystem} {b : Batch}

theorem converted_eq_conversions (hb : run s fs = .ok b) :
    b.converted = s.conversions fs s.inputs := by
  obtain ⟨hinputs, hall⟩ := run_eq_ok_iff.1 hb
  rw [Settings.conversions, ← hinputs, List.filterMap_map]
  refine List.filterMap_congr fun a ha => ?_
  rw [Function.comp_apply, hall a ha, Attempt.converted?]
  cases a.result <;> rfl

theorem messages_eq_complaints (hsave : s.saveArchive = false) (hb : run s fs = .ok b) :
    b.failures.messages = s.complaints fs s.inputs := by
  obtain ⟨hinputs, hall⟩ := run_eq_ok_iff.1 hb
  rw [messages_failures hsave hb, Settings.complaints, ← hinputs, List.filterMap_map]
  refine List.filterMap_congr fun a ha => ?_
  rw [Function.comp_apply, hall a ha, Attempt.failureMessage?]
  cases a.result <;> rfl

theorem text_eq_nil_iff (hsave : s.saveArchive = false) (hb : run s fs = .ok b) :
    b.failures.text = [] ↔ ∀ input ∈ s.inputs, ∃ c, s.convert fs input = .ok (.ok c) := by
  obtain ⟨hinputs, hall⟩ := run_eq_ok_iff.1 hb
  rw [FailureLog.text, Bytes.join_eq_nil_iff b.failures.ne_nil, messages_failures hsave hb,
    List.filterMap_eq_nil_iff, ← hinputs, List.forall_mem_map]
  refine forall₂_congr fun a ha => ?_
  rw [hall a ha, Attempt.failureMessage?]
  cases a.result <;> simp

/-- The batches over two parts of the inputs, and what they give together. -/
theorem exists_run_append (hsave : s.saveArchive = false) (hb : run s fs = .ok b)
    {xs ys : List Bytes} (hinputs : s.inputs = xs ++ ys) :
    ∃ bx bys, run { s with inputs := xs } fs = .ok bx ∧ run { s with inputs := ys } fs = .ok bys ∧
      b.converted = bx.converted ++ bys.converted ∧
      b.failures.text =
        Bytes.join "; " ([bx.failures.text, bys.failures.text].filter (· ≠ [])) := by
  obtain ⟨hattempts, hall⟩ := run_eq_ok_iff.1 hb
  obtain ⟨as, as', hsplit, hxs, hys⟩ := List.map_eq_append_iff.1 (hattempts.trans hinputs)
  rw [hsplit] at hall
  obtain ⟨hallX, hallY⟩ := List.forall_mem_append.1 hall
  have hbx : run { s with inputs := xs } fs = .ok ⟨as⟩ := run_eq_ok_iff.2 ⟨hxs, hallX⟩
  have hbys : run { s with inputs := ys } fs = .ok ⟨as'⟩ := run_eq_ok_iff.2 ⟨hys, hallY⟩
  refine ⟨⟨as⟩, ⟨as'⟩, hbx, hbys, ?_, ?_⟩
  · rw [converted, hsplit, List.filterMap_append]
    rfl
  · have hmessages : b.failures.messages =
        (Batch.mk as).failures.messages ++ (Batch.mk as').failures.messages := by
      rw [messages_failures hsave hb, messages_failures (s := { s with inputs := xs }) hsave hbx,
        messages_failures (s := { s with inputs := ys }) hsave hbys, hsplit, List.filterMap_append]
    rw [FailureLog.text, hmessages,
      Bytes.join_append_eq_join (FailureLog.ne_nil _) (FailureLog.ne_nil _)]
    rfl

/-! ## Listening to a batch -/

/-- How far a batch has got.  `σ` is what its listener keeps. -/
structure Progress (σ : Type) where
  /-- The number of records so far. -/
  count : Nat := 0
  told : σ
  log : FailureLog := .empty

section Listening

variable {σ : Type} (listener : Option (σ → Converted → σ))

/-- The progress after one more attempt.  A record is counted and told to the listener, if there is
one; a failure is noted. -/
def Progress.after (p : Progress σ) (a : Attempt) : Progress σ :=
  match a.result with
  | .ok c =>
    { p with count := p.count + 1, told := listener.elim p.told fun tell => tell p.told c }
  | .error failure => { p with log := p.log.noteFrom a.input failure.message }

/-- Converts inputs one after the other and listens to each attempt before the next one begins. -/
def runWith (s : Settings) (fs : FileSystem) :
    List Bytes → Progress σ → Except NameTooLong (Progress σ)
  | [], p => .ok p
  | input :: inputs, p => do
    let a ← attempt s fs input
    runWith s fs inputs (p.after listener a)

/-- What the listener hears does not change what is attempted. -/
theorem runWith_eq (inputs : List Bytes) (p : Progress σ) :
    runWith listener s fs inputs p =
      (inputs.mapM (attempt s fs)).map fun attempts =>
        attempts.foldl (Progress.after listener) p := by
  induction inputs generalizing p with
  | nil => rfl
  | cons input inputs ih =>
    rw [runWith, List.mapM_cons]
    cases attempt s fs input with
    | error e => rfl
    | ok a =>
      show runWith listener s fs inputs (p.after listener a) = _
      rw [ih]
      cases inputs.mapM (attempt s fs) <;> rfl

/-- After some attempts the records among them have been counted and told in order, and the failures
among them have been noted in order. -/
theorem foldl_after (attempts : List Attempt) (p : Progress σ) :
    attempts.foldl (Progress.after listener) p =
      { count := p.count + (attempts.filterMap Attempt.converted?).length
        told := listener.elim p.told fun tell =>
          (attempts.filterMap Attempt.converted?).foldl tell p.told
        log := attempts.foldl (fun log a => a.logTo log) p.log } := by
  induction attempts generalizing p with
  | nil => cases listener <;> rfl
  | cons a attempts ih =>
    obtain ⟨input, result⟩ := a
    rw [List.foldl_cons, ih, List.foldl_cons]
    cases result with
    | ok c =>
      have hconverted : Attempt.converted? ⟨input, .ok c⟩ = some c := rfl
      rw [List.filterMap_cons_some hconverted, List.length_cons, Nat.add_comm _ 1, ← Nat.add_assoc]
      cases listener <;> rfl
    | error failure =>
      have hconverted : Attempt.converted? ⟨input, .error failure⟩ = none := rfl
      rw [List.filterMap_cons_none hconverted]
      rfl

/-- A listener hears of the records of the batch, each once and in order. -/
theorem runWith_eq_run (told : σ) :
    runWith listener s fs s.inputs { told } =
      (run s fs).map fun b =>
        { count := b.converted.length
          told := listener.elim told fun tell => b.converted.foldl tell told
          log := b.failures } := by
  rw [runWith_eq, run_eq]
  cases s.inputs.mapM (attempt s fs) with
  | error e => rfl
  | ok attempts =>
    show Except.ok (attempts.foldl (Progress.after listener) _) = Except.ok _
    rw [foldl_after, Nat.zero_add]
    rfl

end Listening

/-- Without archives, a batch over short paths in a tree comes to its end.  It has the records and
the complaints that its inputs give one by one, in order, and no complaint is without a message.  A
listener is told of each record once, in order, and the count is the same without one.  The log is
empty exactly if every input is converted, and a batch over two lists of inputs gives what the
batches over each of them give. -/
theorem reports_of_short_paths (hsave : s.saveArchive = false) (t : Tree)
    (hshort : s.checkFormat = true → ∀ input ∈ s.inputs, Tree.IsShort input.untilNul) :
    ∃ b, run s t.fileSystem = .ok b ∧
      (∀ (σ : Type) (listener : Option (σ → Converted → σ)) (told : σ),
        runWith listener s t.fileSystem s.inputs { told } =
          .ok { count := (s.conversions t.fileSystem s.inputs).length
                told := listener.elim told fun tell =>
                  (s.conversions t.fileSystem s.inputs).foldl tell told
                log := b.failures }) ∧
      b.converted = s.conversions t.fileSystem s.inputs ∧
      b.failures.text = Bytes.join "; " (s.complaints t.fileSystem s.inputs) ∧
      (∀ input ∈ s.inputs, ∃ result, s.convert t.fileSystem input = .ok result ∧
        ∀ failure, result = .error failure → failure.message ≠ []) ∧
      (b.failures.text = [] ↔
        ∀ input ∈ s.inputs, ∃ c, s.convert t.fileSystem input = .ok (.ok c)) ∧
      ∀ xs ys, s.inputs = xs ++ ys →
        ∃ bx bys, run { s with inputs := xs } t.fileSystem = .ok bx ∧
          run { s with inputs := ys } t.fileSystem = .ok bys ∧
          b.converted.length = bx.converted.length + bys.converted.length ∧
          b.converted = bx.converted ++ bys.converted ∧
          b.failures.text =
            Bytes.join "; " ([bx.failures.text, bys.failures.text].filter (· ≠ [])) := by
  have hgoes : ∀ input ∈ s.inputs, ¬s.StopsAt t.fileSystem input := fun input hinput hstops =>
    t.find_ne_nameTooLong (hshort hstops.1 input hinput) hstops.2
  obtain ⟨b, hb⟩ := (exists_run_iff hsave).2 hgoes
  have hconverted := converted_eq_conversions hb
  refine ⟨b, hb, fun σ listener told => ?_, hconverted, ?_, fun input hinput => ?_,
    text_eq_nil_iff hsave hb, fun xs ys hinputs => ?_⟩
  · rw [runWith_eq_run, hb, ← hconverted]
    rfl
  · rw [FailureLog.text, messages_eq_complaints hsave hb]
  · obtain ⟨result, hresult⟩ := Settings.exists_convert_of_not_stopsAt hsave (hgoes input hinput)
    refine ⟨result, hresult, fun failure hfailure => ?_⟩
    rw [hfailure] at hresult
    exact Settings.message_ne_nil_of_convert hsave hresult
  · obtain ⟨bx, bys, hbx, hbys, happend, htext⟩ := exists_run_append hsave hb hinputs
    refine ⟨bx, bys, hbx, hbys, ?_, happend, htext⟩
    rw [happend, List.length_append]

/-- The reports of a batch over a record and a file that is not there. -/
theorem reports_of_two_inputs :
    ({ inputs := ["IWTH27.NS", "IWTH28.NS"] } : Settings).saveArchive = false ∧
      (∀ input ∈ (["IWTH27.NS", "IWTH28.NS"] : List Bytes), Tree.IsShort input.untilNul) ∧
      ∃ b, run { inputs := ["IWTH27.NS", "IWTH28.NS"] } oneRecord = .ok b ∧
        (b.failures.text = [] ↔ ∀ input ∈ (["IWTH27.NS", "IWTH28.NS"] : List Bytes),
          ∃ c, ({ inputs := ["IWTH27.NS", "IWTH28.NS"] } : Settings).convert oneRecord input =
            .ok (.ok c)) := by
  have hshort : ∀ input ∈ (["IWTH27.NS", "IWTH28.NS"] : List Bytes),
      Tree.IsShort input.untilNul := by decide
  obtain ⟨b, hb, -, -, -, -, htext, -⟩ :=
    reports_of_short_paths (s := { inputs := ["IWTH27.NS", "IWTH28.NS"] }) rfl
      (Tree.mk [(["IWTH27.NS"], .file Record.shortFile)]) fun _ => hshort
  exact ⟨rfl, hshort, b, hb, htext⟩

/-- A path that is too long although each name in it is a single letter. -/
def deepPath : Bytes := (List.replicate 2048 (Bytes.ofString "a/")).flatten ++ "a"

/-- A batch that ends at a path of short names, although there is a record behind it. -/
theorem run_stopped_by_deepPath :
    ({ inputs := [deepPath, "IWTH27.NS"] } : Settings).saveArchive = false ∧
      (∀ input ∈ ([deepPath, "IWTH27.NS"] : List Bytes),
        ∀ name ∈ Tree.names input, name.length ≤ Tree.maxName) ∧
      run { inputs := [deepPath, "IWTH27.NS"] } oneRecord = .error ⟨deepPath⟩ := by
  have hnames : ∀ input ∈ ([deepPath, "IWTH27.NS"] : List Bytes),
      ∀ name ∈ Tree.names input, name.length ≤ Tree.maxName := by decide +kernel
  have hlong : oneRecord.find deepPath = .nameTooLong := by decide +kernel
  refine ⟨rfl, hnames, run_eq_error_iff.2 ⟨[], deepPath, ["IWTH27.NS"], rfl, by simp, ?_⟩⟩
  exact Settings.convert_of_stopsAt ⟨rfl, hlong⟩

end Batch
end StrongMotion
