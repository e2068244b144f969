import StrongMotion.FileSystem.Tree
import StrongMotion.Proofs.FailureLogs
import StrongMotion.Proofs.FormatCheck

/-!
# Batches

A batch attempts its inputs one after the other, and each attempt ends as a record or as a message
in the failure log.  Only a question about a path that cannot be answered ends it early.  The format
check asks such questions, and reading a file does not (`Batch.run_accounts_for_inputs`).
-/

namespace StrongMotion

/-! ## Messages -/

theorem Bytes.untilNul_cons_ne_nil {b : UInt8} (hb : b ≠ 0) (s : Bytes) :
    untilNul (b :: s) ≠ [] := by
  rw [untilNul, List.takeWhile_cons_of_pos (by simpa using hb)]
  exact List.cons_ne_nil _ _

theorem FaultKind.exists_name_eq_cons (k : FaultKind) : ∃ b s, k.name = b :: s ∧ b ≠ 0 := by
  cases k <;> exact ⟨_, _, rfl, by decide⟩

/-- A zero byte can cut a message short, but not within the name of its kind. -/
theorem FaultKind.message_ne_nil (k : FaultKind) (detail : Bytes) : k.message detail ≠ [] := by
  obtain ⟨b, s, hname, hb⟩ := k.exists_name_eq_cons
  rw [message, hname, List.append_assoc, List.cons_append]
  exact Bytes.untilNul_cons_ne_nil hb _

/-! ## One conversion -/

namespace Settings

variable {s : Settings} {fs : FileSystem} {input : Bytes}

/-- The format check asks about a path that cannot be asked about. -/
def StopsAt (s : Settings) (fs : FileSystem) (input : Bytes) : Prop :=
  s.checkFormat = true ∧ fs.find input = .nameTooLong

theorem convert_of_stopsAt (hstops : s.StopsAt fs input) :
    s.convert fs input = .error ⟨input⟩ := by
  obtain ⟨hcheck, hfind⟩ := hstops
  unfold convert FileSystem.kindByContent FileSystem.status
  rw [hcheck, hfind]
  rfl

/-- What comes of an input once its format is accepted. -/
def outcome (s : Settings) (fs : FileSystem) (input : Bytes) :
    Except ConversionFailure Converted :=
  match fs.readRecord s.readOptions input with
  | .error fault => .error (.unreadable fault)
  | .ok record => .ok ⟨input, none, record⟩

theorem outcome_of_read {record : Record} (hread : fs.readRecord s.readOptions input = .ok record) :
    s.outcome fs input = .ok ⟨input, none, record⟩ := by
  rw [outcome, hread]

theorem convert_of_unchecked (hsave : s.saveArchive = false) (hcheck : s.checkFormat = false) :
    s.convert fs input = .ok (s.outcome fs input) := by
  unfold convert outcome
  rw [hsave, hcheck]
  cases fs.readRecord s.readOptions input <;> rfl

theorem convert_of_kind (hsave : s.saveArchive = false) (hcheck : s.checkFormat = true)
    {kind : FileKind} (hkind : fs.kindByContent s.readOptions.encoding input = .ok kind) :
    s.convert fs input =
      .ok (if kind = .record then s.outcome fs input else .error .wrongFormat) := by
  unfold convert outcome
  rw [hsave, hcheck, hkind]
  cases kind with
  | unknown => rfl
  | record => cases fs.readRecord s.readOptions input <;> rfl

/-- An input that can be asked about is refused by its format or read. -/
theorem convert_of_not_stopsAt (hsave : s.saveArchive = false) (hgoes : ¬s.StopsAt fs input) :
    s.convert fs input = .ok (.error .wrongFormat) ∨
      s.convert fs input = .ok (s.outcome fs input) := by
  cases hcheck : s.checkFormat with
  | false => exact Or.inr (convert_of_unchecked hsave hcheck)
  | true =>
    obtain ⟨kind, hkind⟩ : ∃ kind, fs.kindByContent s.readOptions.encoding input = .ok kind := by
      unfold FileSystem.kindByContent FileSystem.status
      cases hfind : fs.find input with
      | nameTooLong => exact absurd ⟨hcheck, hfind⟩ hgoes
      | missing | directory | file content => exact ⟨_, rfl⟩
    have hconvert := convert_of_kind hsave hcheck hkind
    by_cases hrecord : kind = .record
    · rw [if_pos hrecord] at hconvert
      exact Or.inr hconvert
    · rw [if_neg hrecord] at hconvert
      exact Or.inl hconvert

theorem exists_convert_of_not_stopsAt (hsave : s.saveArchive = false)
    (hgoes : ¬s.StopsAt fs input) : ∃ result, s.convert fs input = .ok result := by
  rcases convert_of_not_stopsAt hsave hgoes with h | h
  · exact ⟨_, h⟩
  · exact ⟨_, h⟩

theorem convert_eq_error_iff (hsave : s.saveArchive = false) {e : NameTooLong} :
    s.convert fs input = .error e ↔ s.StopsAt fs input ∧ e = ⟨input⟩ := by
  by_cases hstops : s.StopsAt fs input
  · rw [convert_of_stopsAt hstops, Except.error.injEq, eq_comm]
    exact (and_iff_right hstops).symm
  · obtain ⟨result, hresult⟩ := exists_convert_of_not_stopsAt hsave hstops
    rw [hresult]
    simp [hstops]

theorem exists_convert_iff (hsave : s.saveArchive = false) :
    (∃ result, s.convert fs input = .ok result) ↔ ¬s.StopsAt fs input := by
  constructor
  · intro ⟨result, hresult⟩ hstops
    rw [convert_of_stopsAt hstops] at hresult
    cases hresult
  · exact exists_convert_of_not_stopsAt hsave

/-- A conversion that fails says why. -/
theorem message_ne_nil_of_convert (hsave : s.saveArchive = false) {failure : ConversionFailure}
    (hconvert : s.convert fs input = .ok (.error failure)) : failure.message ≠ [] := by
  have hgoes := (exists_convert_iff hsave).1 ⟨_, hconvert⟩
  rcases convert_of_not_stopsAt hsave hgoes with h | h
  · rw [h] at hconvert
    cases hconvert
    decide
  · rw [h, outcome] at hconvert
    cases hread : fs.readRecord s.readOptions input with
    | ok record =>
      rw [hread] at hconvert
      cases hconvert
    | error fault =>
      rw [hread] at hconvert
      cases hconvert
      exact fault.kind.message_ne_nil fault.detail

end Settings

/-! ## Attempts and the failure log -/

namespace Attempt

/-- What the log says of a failed attempt. -/
def failureMessage? (a : Attempt) : Option Bytes :=
  match a.result with
  | .ok _ => none
  | .error failure => some (a.input ++ ": " ++ failure.message)

/-- An attempt that failed can say why. -/
def SaysWhy (a : Attempt) : Prop := ∀ failure, a.result = .error failure → failure.message ≠ []

theorem messages_logTo {a : Attempt} (ha : a.SaysWhy) (log : FailureLog) :
    (a.logTo log).messages = log.messages ++ a.failureMessage?.toList := by
  unfold logTo failureMessage?
  cases hresult : a.result with
  | ok c => simp
  | error failure =>
    show (log.after (.noteFrom a.input failure.message)).messages = _
    rw [log.messages_after, LogCall.extend_of_ne_clear LogCall.noConfusion, LogCall.message?,
      if_neg (ha failure hresult)]

theorem messages_foldl_logTo {attempts : List Attempt} (hall : ∀ a ∈ attempts, a.SaysWhy)
    (log : FailureLog) :
    (attempts.foldl (fun log a => a.logTo log) log).messages =
      log.messages ++ attempts.filterMap failureMessage? := by
  induction attempts generalizing log with
  | nil => simp
  | cons a attempts ih =>
    obtain ⟨ha, hrest⟩ := List.forall_mem_cons.1 hall
    rw [List.foldl_cons, ih hrest, messages_logTo ha, List.append_assoc, List.filterMap_cons]
    cases a.failureMessage? <;> rfl

/-- Every attempt gives a record or a message, and none gives both. -/
theorem length_converted_add_length_messages (attempts : List Attempt) :
    (attempts.filterMap converted?).length + (attempts.filterMap failureMessage?).length =
      attempts.length := by
  induction attempts with
  | nil => rfl
  | cons a attempts ih =>
    obtain ⟨input, result⟩ := a
    cases result with
    | ok c =>
      have hconverted : converted? ⟨input, .ok c⟩ = some c := rfl
      have hmessage : failureMessage? ⟨input, .ok c⟩ = none := rfl
      rw [List.filterMap_cons_some hconverted, List.filterMap_cons_none hmessage,
        List.length_cons, List.length_cons]
      omega
    | error failure =>
      have hconverted : converted? ⟨input, .error failure⟩ = none := rfl
      have hmessage : failureMessage? ⟨input, .error failure⟩ =
        some (input ++ ": " ++ failure.message) := rfl
      rw [List.filterMap_cons_none hconverted, List.filterMap_cons_some hmessage,
        List.length_cons, List.length_cons]
      omega

end Attempt

/-! ## A whole batch -/

namespace Batch

variable {s : Settings} {fs : FileSystem}

/-- One attempt, as `Batch.run` makes it. -/
def attempt (s : Settings) (fs : FileSystem) (input : Bytes) : Except NameTooLong Attempt :=
  (s.convert fs input).map (Attempt.mk input)

theorem attempt_eq_ok_iff {input : Bytes} {a : Attempt} :
    attempt s fs input = .ok a ↔ a.input = input ∧ s.convert fs input = .ok a.result := by
  unfold attempt
  obtain ⟨input', result⟩ := a
  cases s.convert fs input with
  | error e => simp [Except.map]
  | ok r => simp [Except.map, eq_comm]

theorem attempt_eq_error_iff {input : Bytes} {e : NameTooLong} :
    attempt s fs input = .error e ↔ s.convert fs input = .error e := by
  unfold attempt
  cases s.convert fs input <;> simp [Except.map]

theorem mapM_attempt_eq_ok_iff {inputs : List Bytes} {attempts : List Attempt} :
    inputs.mapM (attempt s fs) = .ok attempts ↔
      attempts.map Attempt.input = inputs ∧
        ∀ a ∈ attempts, s.convert fs a.input = .ok a.result := by
  induction inputs generalizing attempts with
  | nil => cases attempts <;> simp [pure, Except.pure]
  | cons input inputs ih =>
    simp only [List.mapM_cons, bind_eq_ok_iff, attempt_eq_ok_iff, ih]
    constructor
    · intro ⟨a, ⟨hinput, ha⟩, rest, ⟨hinputs, hrest⟩, h⟩
      obtain rfl : a :: rest = attempts := Except.ok.inj h
      subst hinput
      exact ⟨by rw [List.map_cons, hinputs], List.forall_mem_cons.2 ⟨ha, hrest⟩⟩
    · intro ⟨hinputs, hall⟩
      cases attempts with
      | nil => cases hinputs
      | cons a rest =>
        obtain ⟨hinput, hinputs⟩ := List.cons.inj hinputs
        obtain ⟨ha, hrest⟩ := List.forall_mem_cons.1 hall
        exact ⟨a, ⟨hinput, hinput ▸ ha⟩, rest, ⟨hinputs, hrest⟩, rfl⟩

/-- The attempts end at the first that comes to no end of its own. -/
theorem mapM_attempt_eq_error_iff {inputs : List Bytes} {e : NameTooLong} :
    inputs.mapM (attempt s fs) = .error e ↔
      ∃ before input after, inputs = before ++ input :: after ∧
        (∀ p ∈ before, ∃ result, s.convert fs p = .ok result) ∧
        s.convert fs input = .error e := by
  induction inputs with
  | nil => simp [pure, Except.pure]
  | cons first inputs ih =>
    simp only [List.mapM_cons, bind_eq_error_iff, attempt_eq_error_iff, attempt_eq_ok_iff, ih]
    constructor
    · intro h
      rcases h with hfirst | ⟨a, ⟨rfl, ha⟩, h⟩
      · exact ⟨[], first, inputs, rfl, by simp, hfirst⟩
      · rcases h with ⟨before, input, after, rfl, hbefore, hinput⟩ | ⟨rest, _, h⟩
        · exact ⟨a.input :: before, input, after, rfl, List.forall_mem_cons.2 ⟨⟨_, ha⟩, hbefore⟩,
            hinput⟩
        · cases h
    · intro ⟨before, input, after, hinputs, hbefore, hinput⟩
      cases before with
      | nil =>
        cases hinputs
        exact Or.inl hinput
      | cons p before =>
        cases hinputs
        obtain ⟨⟨result, hresult⟩, hbefore⟩ := List.forall_mem_cons.1 hbefore
        exact Or.inr ⟨⟨first, result⟩, ⟨rfl, hresult⟩,
          Or.inl ⟨before, input, after, rfl, hbefore, hinput⟩⟩

theorem run_eq (s : Settings) (fs : FileSystem) :
    run s fs = (s.inputs.mapM (attempt s fs)).map Batch.mk := by
  show ((s.inputs.mapM (attempt s fs)) >>= fun attempts => pure (Batch.mk attempts)) = _
  cases s.inputs.mapM (attempt s fs) <;> rfl

/-- A batch that comes to its end has attempted every input once, in order. -/
theorem run_eq_ok_iff {b : Batch} :
    run s fs = .ok b ↔
      b.attempts.map Attempt.input = s.inputs ∧
        ∀ a ∈ b.attempts, s.convert fs a.input = .ok a.result := by
  rw [run_eq, map_eq_ok_iff]
  constructor
  · intro ⟨attempts, hattempts, hb⟩
    rw [hb]
    exact mapM_attempt_eq_ok_iff.1 hattempts
  · intro h
    exact ⟨b.attempts, mapM_attempt_eq_ok_iff.2 h, rfl⟩

theorem run_eq_error_iff {e : NameTooLong} :
    run s fs = .error e ↔
      ∃ before input after, s.inputs = before ++ input :: after ∧
        (∀ p ∈ before, ∃ result, s.convert fs p = .ok result) ∧
        s.convert fs input = .error e := by
  rw [run_eq, map_eq_error_iff, mapM_attempt_eq_error_iff]

theorem exists_run_iff (hsave : s.saveArchive = false) :
    (∃ b, run s fs = .ok b) ↔ ∀ input ∈ s.inputs, ¬s.StopsAt fs input := by
  constructor
  · intro ⟨b, hb⟩ input hinput
    obtain ⟨hinputs, hall⟩ := run_eq_ok_iff.1 hb
    rw [← hinputs] at hinput
    obtain ⟨a, ha, rfl⟩ := List.mem_map.1 hinput
    exact (Settings.exists_convert_iff hsave).1 ⟨_, hall a ha⟩
  · intro hgoes
    cases hrun : run s fs with
    | ok b => exact ⟨b, rfl⟩
    | error e =>
      obtain ⟨before, input, after, hinputs, -, hinput⟩ := run_eq_error_iff.1 hrun
      have hmem : input ∈ s.inputs := by simp [hinputs]
      exact absurd ((Settings.convert_eq_error_iff hsave).1 hinput).1 (hgoes input hmem)

/-- The log of a batch holds one message for each attempt that failed. -/
theorem messages_failures (hsave : s.saveArchive = false) {b : Batch}
    (hb : run s fs = .ok b) :
    b.failures.messages = b.attempts.filterMap Attempt.failureMessage? := by
  obtain ⟨-, hall⟩ := run_eq_ok_iff.1 hb
  refine Attempt.messages_foldl_logTo (fun a ha failure hfailure => ?_) .empty
  have hconvert := hall a ha
  rw [hfailure] at hconvert
  exact Settings.message_ne_nil_of_convert hsave hconvert

/-- Without archives a batch comes to its end unless the format check meets a path that cannot be
asked about; it then ends there and has nothing to show for the inputs before.  At its end it has
attempted every input once, and each of them is among the records or among the messages. -/
theorem run_accounts_for_inputs (hsave : s.saveArchive = false) (fs : FileSystem) :
    ((∃ b, run s fs = .ok b) ↔
      (s.checkFormat = true → ∀ input ∈ s.inputs, fs.find input ≠ .nameTooLong)) ∧
    (∀ b, run s fs = .ok b →
      b.attempts.map Attempt.input = s.inputs ∧
      (∀ a ∈ b.attempts, s.convert fs a.input = .ok a.result) ∧
      b.failures.messages = b.attempts.filterMap Attempt.failureMessage? ∧
      b.converted.length + b.failures.count = s.inputs.length) ∧
    ∀ e, run s fs = .error e ↔
      ∃ before input after, s.inputs = before ++ input :: after ∧
        (∀ p ∈ before, ∃ result, s.convert fs p = .ok result) ∧
        s.checkFormat = true ∧ fs.find input = .nameTooLong ∧ e = ⟨input⟩ := by
  refine ⟨?_, fun b hb => ?_, fun e => ?_⟩
  · rw [exists_run_iff hsave]
    simp only [Settings.StopsAt, not_and]
    exact ⟨fun h hcheck input hinput => h input hinput hcheck,
      fun h input hinput hcheck => h hcheck input hinput⟩
  · obtain ⟨hinputs, hall⟩ := run_eq_ok_iff.1 hb
    refine ⟨hinputs, hall, messages_failures hsave hb, ?_⟩
    have hlength : b.attempts.length = s.inputs.length := by
      rw [← hinputs, List.length_map]
    rw [← hlength, ← Attempt.length_converted_add_length_messages, FailureLog.count,
      messages_failures hsave hb]
    rfl
  · rw [run_eq_error_iff]
    simp only [Settings.convert_eq_error_iff hsave, Settings.StopsAt, and_assoc]

/-- A working directory with one record in it. -/
def oneRecord : FileSystem :=
  (Tree.mk [(["IWTH27.NS"], .file Record.shortFile)]).fileSystem

/-- A batch over a record and a file that is not there. -/
theorem run_accounts_for_two_inputs :
    ({ inputs := ["IWTH27.NS", "IWTH28.NS"] } : Settings).saveArchive = false ∧
      ∃ b, run { inputs := ["IWTH27.NS", "IWTH28.NS"] } oneRecord = .ok b ∧
        b.converted.length + b.failures.count = 2 := by
  have h := run_accounts_for_inputs (s := { inputs := ["IWTH27.NS", "IWTH28.NS"] }) rfl oneRecord
  obtain ⟨b, hb⟩ := h.1.2 (by decide)
  exact ⟨rfl, b, hb, (h.2.1 b hb).2.2.2⟩

/-- A name one byte longer than a name can be. -/
def overlongName : Bytes := List.replicate 256 'x'.toUInt8

/-- Settings under which an input that cannot be asked about comes before one that is a record. -/
def overlongFirst : Settings := { inputs := [overlongName, "IWTH27.NS"] }

/-- A batch that ends at its first input, although there is a record behind it. -/
theorem run_stopped_by_overlongName :
    overlongFirst.saveArchive = false ∧
      (∃ c, overlongFirst.convert oneRecord "IWTH27.NS" = .ok (.ok c)) ∧
      run overlongFirst oneRecord = .error ⟨overlongName⟩ := by
  have hlong : oneRecord.find overlongName = .nameTooLong := by decide +kernel
  refine ⟨rfl, ?_, run_eq_error_iff.2 ⟨[], overlongName, ["IWTH27.NS"], rfl, by simp,
    Settings.convert_of_stopsAt ⟨rfl, hlong⟩⟩⟩
  have hopens : oneRecord.content? "IWTH27.NS" = some Record.shortFile := rfl
  have hoptions : overlongFirst.readOptions = {} := rfl
  obtain ⟨record, hrecord⟩ := Record.exists_read_shortFile
  have hmarks : Signature.marks none Record.shortFile = true :=
    (Signature.marks_of_read (d := ⟨"UTF-8", .utf8⟩) rfl (by decide) hrecord).2
  have hkind : oneRecord.kindByContent overlongFirst.readOptions.encoding "IWTH27.NS" =
      .ok .record := by
    rw [FileSystem.kindByContent_eq hopens, hoptions, if_pos hmarks]
  have hread : oneRecord.readRecord overlongFirst.readOptions "IWTH27.NS" = .ok record := by
    rw [FileSystem.readRecord_eq hopens, hoptions, hrecord]
  rw [Settings.convert_of_kind rfl rfl hkind, if_pos rfl]
  exact ⟨_, congrArg Except.ok (Settings.outcome_of_read hread)⟩

end Batch
end StrongMotion
