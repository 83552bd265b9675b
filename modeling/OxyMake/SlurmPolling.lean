import OxyMake.SacctRecords

/-!
# Waiting for a SLURM job

After the submission the executor polls the job: over REST, or with `sacct`,
with `squeue` when `sacct` has nothing, and with `sacct` once more when `squeue`
has nothing either. Every answer may be an error. The loop ends at a record with
a terminal state, at a record of the late retry, or with the job lost.
-/

namespace OxyMake.SlurmPolling

open Wildcard (Text)
open DecimalText
open SacctRecords (SacctRecord)

/-! ### States -/

/-- Status of a job as the scheduler knows it. -/
inductive JobStatus
  | queued
  | running
  | completed
  | failed (reason : Text)
  | cancelled
  deriving DecidableEq

def pendingStates : List Text :=
  ["PENDING".toList, "REQUEUED".toList, "SUSPENDED".toList, "CONFIGURING".toList]

def failureStates : List (Text × Text) :=
  [("FAILED".toList, "job failed".toList),
    ("OUT_OF_MEMORY".toList, "out of memory (OOM)".toList),
    ("TIMEOUT".toList, "exceeded time limit".toList),
    ("DEADLINE".toList, "reached deadline".toList),
    ("NODE_FAIL".toList, "node failure".toList),
    ("BOOT_FAIL".toList, "node boot failure".toList)]

def cancellationStates : List Text :=
  ["CANCELLED".toList, "PREEMPTED".toList, "REVOKED".toList]

/-- Map a SLURM state string to a job status; every other string counts as running. -/
def slurmStateToJobStatus (state : Text) : JobStatus :=
  if pendingStates.contains state then .queued
  else if state = "COMPLETED".toList then .completed
  else
    match failureStates.lookup state with
    | some reason => .failed reason
    | none => if cancellationStates.contains state then .cancelled else .running

/-- Why a job in a terminal state has failed. -/
def terminalFailure (state : Text) : Option Text :=
  match slurmStateToJobStatus state with
  | .completed => none
  | .failed reason => some reason
  | .cancelled => some "cancelled or preempted".toList
  | .queued | .running => none

def isNodeFailure (state : Text) : Bool :=
  state = "NODE_FAIL".toList || state = "BOOT_FAIL".toList

def terminalStates : List Text :=
  ["COMPLETED".toList, "FAILED".toList, "CANCELLED".toList, "TIMEOUT".toList,
    "OUT_OF_MEMORY".toList, "DEADLINE".toList, "NODE_FAIL".toList, "BOOT_FAIL".toList,
    "PREEMPTED".toList, "REVOKED".toList]

def isTerminal (state : Text) : Bool := terminalStates.contains state

/-! ### Results -/

structure JobResult where
  jobId : Text
  exitCode : ℤ
  duration : ℕ
  peakMemoryBytes : Option ℕ
  logPath : Text
  stderrTail : Option Text
  deriving DecidableEq

/-- Build a result from a record: the state is consulted before the exit code. -/
def recordToJobResult (jobId : Text) (record : SacctRecord) (logPath : Text) : JobResult :=
  let failure := terminalFailure record.state
  { jobId := jobId
    exitCode := if failure.isSome ∧ record.exitCode = 0 then 1 else record.exitCode
    duration := record.elapsed
    peakMemoryBytes := record.peakMemoryBytes
    logPath := logPath
    stderrTail := failure.map fun f =>
      "SLURM terminal state ".toList ++ record.state ++ ": ".toList ++ f }

/-- What the REST API says of a job. -/
structure JobInfo where
  jobId : ℕ
  jobState : List Text
  returnCode : Option ℤ
  nodes : Option Text

def jobInfoToSacctRecord (info : JobInfo) : SacctRecord where
  jobId := info.jobId
  state := info.jobState.head?.getD "UNKNOWN".toList
  exitCode := info.returnCode.getD (-1)
  peakMemoryBytes := none
  elapsed := 0
  node := info.nodes.getD []

/-! ### The loop -/

/-- Whether the executor has a REST client. -/
inductive Mode
  | rest | cli
  deriving DecidableEq

/-- What the tools answer in one round, where they are asked; an error is `none`. -/
structure Answers where
  /-- The REST API: the job, if it is known. -/
  rest : Option (Option JobInfo)
  sacct : Option (List SacctRecord)
  /-- `squeue`: the state of the job, if it is queued. -/
  squeue : Option (Option Text)
  retry : Option (List SacctRecord)

def polledRecord (mode : Mode) (answers : Answers) : Option SacctRecord :=
  match mode with
  | .rest => answers.rest.join.map jobInfoToSacctRecord
  | .cli => answers.sacct.bind List.head?

inductive Ending
  /-- A result, and the node that is excluded from later submissions. -/
  | result (result : JobResult) (excluded : Option Text)
  | jobNotFound (slurmJobId : ℕ)
  deriving DecidableEq

/-- The job that is waited for. -/
structure Waiting where
  mode : Mode
  jobId : Text
  slurmJobId : ℕ
  logPath : Text

/-- One round: the ending, or nothing when the loop goes on. -/
def poll (job : Waiting) (answers : Answers) : Option Ending :=
  match polledRecord job.mode answers with
  | some record =>
    if isTerminal record.state then
      some (.result (recordToJobResult job.jobId record job.logPath)
        (if isNodeFailure record.state ∧ record.node ≠ [] then some record.node else none))
    else none
  | none =>
    match job.mode with
    | .rest => none
    | .cli =>
      match answers.squeue with
      | some (some _) => none
      | none => none
      | some none =>
        match answers.retry.bind List.head? with
        | some record => some (.result (recordToJobResult job.jobId record job.logPath) none)
        | none => some (.jobNotFound job.slurmJobId)

/-- Poll for at most so many rounds; the round of the ending and the ending. -/
def pollLoop (job : Waiting) (answers : ℕ → Answers) : ℕ → ℕ → Option (ℕ × Ending)
  | 0, _ => none
  | rounds + 1, k =>
    match poll job (answers k) with
    | some ending => some (k, ending)
    | none => pollLoop job answers rounds (k + 1)

/-- Wait for a job for at most so many rounds. -/
def execute (job : Waiting) (answers : ℕ → Answers) (rounds : ℕ) : Option (ℕ × Ending) :=
  pollLoop job answers rounds 0

def Reaches (job : Waiting) (answers : ℕ → Answers) (k : ℕ) : Prop :=
  ∀ i < k, poll job (answers i) = none

theorem pollLoop_eq_some_iff (job : Waiting) (answers : ℕ → Answers) (rounds k m : ℕ)
    (ending : Ending) : pollLoop job answers rounds k = some (m, ending) ↔
      k ≤ m ∧ m < k + rounds ∧ (∀ i, k ≤ i → i < m → poll job (answers i) = none) ∧
        poll job (answers m) = some ending := by
  induction rounds generalizing k with
  | zero =>
    constructor
    · intro h
      cases h
    · rintro ⟨hle, hlt, -, -⟩
      omega
  | succ rounds ih =>
    unfold pollLoop
    cases hpoll : poll job (answers k) with
    | some =>
      dsimp only
      constructor
      · intro h
        cases h
        exact ⟨Nat.le_refl _, by omega, fun i hle hlt => absurd hlt (Nat.not_lt.mpr hle), hpoll⟩
      · rintro ⟨hle, -, hagain, hending⟩
        have heq : k = m := by
          by_contra hne
          have hnone := hagain k (Nat.le_refl k) (by omega)
          rw [hpoll] at hnone
          cases hnone
        subst heq
        rw [hpoll] at hending
        cases hending
        rfl
    | none =>
      dsimp only
      rw [ih]
      constructor
      · rintro ⟨hle, hlt, hagain, hending⟩
        refine ⟨by omega, by omega, fun i hki him => ?_, hending⟩
        by_cases heq : i = k
        · rw [heq]
          exact hpoll
        · exact hagain i (by omega) him
      · rintro ⟨hle, hlt, hagain, hending⟩
        have hne : k ≠ m := by
          intro heq
          rw [heq, hending] at hpoll
          cases hpoll
        exact ⟨by omega, by omega, fun i hki him => hagain i (by omega) him, hending⟩

theorem execute_eq_some_iff (job : Waiting) (answers : ℕ → Answers) (rounds k : ℕ)
    (ending : Ending) : execute job answers rounds = some (k, ending) ↔
      k < rounds ∧ Reaches job answers k ∧ poll job (answers k) = some ending := by
  unfold execute Reaches
  rw [pollLoop_eq_some_iff]
  constructor
  · rintro ⟨-, hlt, hagain, hending⟩
    exact ⟨by omega, fun i hi => hagain i (Nat.zero_le i) hi, hending⟩
  · rintro ⟨hlt, hagain, hending⟩
    exact ⟨Nat.zero_le k, by omega, fun i _ hi => hagain i hi, hending⟩

/-! ### What the loop should do -/

/-- How `sacct` spells the state of a job that a user cancelled. -/
def CancelledBy (state : Text) : Prop :=
  ∃ uid, isNumeral uid = true ∧ state = "CANCELLED by ".toList ++ uid

/-- A state that a SLURM job does not leave. -/
def Terminal (state : Text) : Prop := isTerminal state = true ∨ CancelledBy state

/-- The record of the late retry, when it is asked for. -/
def lateRecord (mode : Mode) (answers : Answers) : Option SacctRecord :=
  if mode = .cli ∧ polledRecord mode answers = none ∧ answers.squeue = some none then
    answers.retry.bind List.head?
  else none

/-- The record that a round has to decide about. -/
def recordOf (mode : Mode) (answers : Answers) : Option SacctRecord :=
  (polledRecord mode answers).or (lateRecord mode answers)

/-- Success means COMPLETED, the waiting ends with a terminal record or with the job lost, and
it ends as soon as a round has a terminal record. -/
structure Sound (job : Waiting) (answers : ℕ → Answers) : Prop where
  /-- A result with exit code zero comes from a completed record. -/
  success : ∀ rounds k result excluded,
    execute job answers rounds = some (k, .result result excluded) → result.exitCode = 0 →
      ∃ record, recordOf job.mode (answers k) = some record ∧
        record.state = "COMPLETED".toList ∧
        result = recordToJobResult job.jobId record job.logPath
  /-- A result comes from a terminal record. -/
  terminal : ∀ rounds k result excluded,
    execute job answers rounds = some (k, .result result excluded) →
      ∃ record, recordOf job.mode (answers k) = some record ∧ Terminal record.state ∧
        result = recordToJobResult job.jobId record job.logPath
  /-- A terminal record ends the waiting. -/
  prompt : ∀ k record, Reaches job answers k → recordOf job.mode (answers k) = some record →
    Terminal record.state → ∃ excluded, execute job answers (k + 1) =
      some (k, .result (recordToJobResult job.jobId record job.logPath) excluded)

/-- The record of the round is not spelled "CANCELLED by", and a record of the late retry has
a terminal state, with a nonzero exit code if it is spelled so. -/
def Clear (job : Waiting) (answers : Answers) : Prop :=
  (∀ record, polledRecord job.mode answers = some record → ¬ CancelledBy record.state) ∧
    ∀ record, lateRecord job.mode answers = some record →
      isTerminal record.state = true ∨ (CancelledBy record.state ∧ record.exitCode ≠ 0)

/-! ### States spelled by `sacct` -/

def knownStates : List Text :=
  pendingStates ++ ["COMPLETED".toList] ++ failureStates.map Prod.fst ++ cancellationStates

theorem no_blank_of_known : ∀ state ∈ knownStates, ' ' ∉ state := by decide

theorem CancelledBy.unknown {state : Text} (h : CancelledBy state) : state ∉ knownStates := by
  obtain ⟨_, -, rfl⟩ := h
  intro hmem
  refine no_blank_of_known _ hmem (List.mem_append_left _ ?_)
  decide

theorem known_of_isTerminal {state : Text} (h : isTerminal state = true) :
    state ∈ knownStates := by
  have hall : ∀ state ∈ terminalStates, state ∈ knownStates := by decide
  exact hall state (List.contains_iff_mem.mp h)

theorem CancelledBy.not_isTerminal {state : Text} (h : CancelledBy state) :
    isTerminal state = false := by
  cases hterminal : isTerminal state with
  | false => rfl
  | true => exact absurd (known_of_isTerminal hterminal) h.unknown

theorem terminalFailure_of_unknown {state : Text} (h : state ∉ knownStates) :
    terminalFailure state = none := by
  simp only [knownStates, List.mem_append, List.mem_singleton, not_or] at h
  obtain ⟨⟨⟨hpending, hcompleted⟩, hfailure⟩, hcancel⟩ := h
  have hlookup : failureStates.lookup state = none := by
    rw [List.lookup_eq_none_iff]
    intro e he
    rw [bne_iff_ne]
    intro heq
    rw [heq] at hfailure
    exact hfailure (List.mem_map_of_mem he)
  have hstatus : slurmStateToJobStatus state = .running := by
    unfold slurmStateToJobStatus
    rw [if_neg fun hc => hpending (List.contains_iff_mem.mp hc), if_neg hcompleted, hlookup]
    dsimp only
    rw [if_neg fun hc => hcancel (List.contains_iff_mem.mp hc)]
  unfold terminalFailure
  rw [hstatus]

theorem terminalFailure_of_isTerminal {state : Text} (h : isTerminal state = true) :
    (terminalFailure state).isSome = true ∨ state = "COMPLETED".toList := by
  have hall : ∀ state ∈ terminalStates,
      (terminalFailure state).isSome = true ∨ state = "COMPLETED".toList := by decide
  exact hall state (List.contains_iff_mem.mp h)

/-! ### When the loop does it -/

theorem poll_eq (job : Waiting) (answers : Answers) :
    (∀ record, polledRecord job.mode answers = some record → poll job answers =
      if isTerminal record.state then
        some (.result (recordToJobResult job.jobId record job.logPath)
          (if isNodeFailure record.state ∧ record.node ≠ [] then some record.node else none))
      else none) ∧
    ∀ record, lateRecord job.mode answers = some record → poll job answers =
      some (.result (recordToJobResult job.jobId record job.logPath) none) := by
  constructor
  · intro record hrecord
    unfold poll
    rw [hrecord]
  · intro record hlate
    unfold lateRecord at hlate
    split_ifs at hlate with hasked
    obtain ⟨hmode, hnone, hqueue⟩ := hasked
    unfold poll
    rw [hnone, hmode, hqueue]
    dsimp only
    rw [hlate]

theorem record_of_poll {job : Waiting} {answers : Answers} {result : JobResult}
    {excluded : Option Text} (h : poll job answers = some (.result result excluded)) :
    ∃ record, result = recordToJobResult job.jobId record job.logPath ∧
      ((polledRecord job.mode answers = some record ∧ isTerminal record.state = true) ∨
        lateRecord job.mode answers = some record) := by
  unfold poll at h
  cases hrecord : polledRecord job.mode answers with
  | some record =>
    rw [hrecord] at h
    dsimp only at h
    by_cases hterminal : isTerminal record.state = true
    · rw [if_pos hterminal] at h
      cases h
      exact ⟨record, rfl, Or.inl ⟨rfl, hterminal⟩⟩
    · rw [if_neg hterminal] at h
      cases h
  | none =>
    rw [hrecord] at h
    cases hmode : job.mode with
    | rest =>
      rw [hmode] at h
      cases h
    | cli =>
      rw [hmode] at h
      dsimp only at h
      cases hqueue : answers.squeue with
      | none =>
        rw [hqueue] at h
        cases h
      | some found =>
        rw [hqueue] at h
        cases found with
        | some => cases h
        | none =>
          cases hretry : answers.retry.bind List.head? with
          | none =>
            rw [hretry] at h
            cases h
          | some record =>
            rw [hretry] at h
            cases h
            refine ⟨record, rfl, Or.inr ?_⟩
            unfold lateRecord
            rw [hmode] at hrecord
            rw [if_pos ⟨rfl, hrecord, hqueue⟩, hretry]

theorem recordOf_of_late {mode : Mode} {answers : Answers} {record : SacctRecord}
    (h : lateRecord mode answers = some record) : recordOf mode answers = some record := by
  have hnone : polledRecord mode answers = none := by
    unfold lateRecord at h
    split_ifs at h with hasked
    exact hasked.2.1
  unfold recordOf
  rw [hnone, h]
  rfl

theorem exitCode_eq_zero_iff (jobId : Text) (record : SacctRecord) (logPath : Text) :
    (recordToJobResult jobId record logPath).exitCode = 0 ↔
      record.exitCode = 0 ∧ (terminalFailure record.state).isSome = false := by
  unfold recordToJobResult
  dsimp only
  by_cases hzero : record.exitCode = 0
  · cases hfailure : (terminalFailure record.state).isSome with
    | true => simp only [hzero, and_self, if_true, Int.reduceEq, reduceCtorEq, and_false]
    | false => simp only [hzero, Bool.false_eq_true, false_and, if_false, and_self]
  · simp only [hzero, and_false, if_false, false_and]

/-- The waiting is sound if and only if every round it gets to is clear. -/
theorem sound_iff (job : Waiting) (answers : ℕ → Answers) :
    Sound job answers ↔ ∀ k, Reaches job answers k → Clear job (answers k) := by
  constructor
  · intro h k hreach
    constructor
    · intro record hrecord hcancelled
      have hsame : recordOf job.mode (answers k) = some record := by
        unfold recordOf
        rw [hrecord]
        rfl
      obtain ⟨excluded, hended⟩ := h.prompt k record hreach hsame (Or.inr hcancelled)
      have hpoll := ((execute_eq_some_iff job answers (k + 1) k _).mp hended).2.2
      rw [(poll_eq job (answers k)).1 record hrecord, hcancelled.not_isTerminal] at hpoll
      cases hpoll
    · intro record hlate
      have hpoll := (poll_eq job (answers k)).2 record hlate
      have hended := (execute_eq_some_iff job answers (k + 1) k _).mpr
        ⟨Nat.lt_succ_self k, hreach, hpoll⟩
      have hsame := recordOf_of_late hlate
      obtain ⟨record', hrecord', hterminal, -⟩ := h.terminal _ _ _ _ hended
      rw [hsame, Option.some.injEq] at hrecord'
      subst hrecord'
      rcases hterminal with hknown | hcancelled
      · exact Or.inl hknown
      · refine Or.inr ⟨hcancelled, fun hzero => ?_⟩
        have hexit : (recordToJobResult job.jobId record job.logPath).exitCode = 0 := by
          rw [exitCode_eq_zero_iff, terminalFailure_of_unknown hcancelled.unknown]
          exact ⟨hzero, rfl⟩
        obtain ⟨record', hrecord', hcompleted, -⟩ := h.success _ _ _ _ hended hexit
        rw [hsame, Option.some.injEq] at hrecord'
        subst hrecord'
        refine hcancelled.unknown ?_
        rw [hcompleted]
        decide
  · intro h
    have hfrom : ∀ rounds k result excluded,
        execute job answers rounds = some (k, .result result excluded) →
        ∃ record, recordOf job.mode (answers k) = some record ∧
          result = recordToJobResult job.jobId record job.logPath ∧
          (isTerminal record.state = true ∨
            (CancelledBy record.state ∧ record.exitCode ≠ 0)) := by
      intro rounds k result excluded hended
      obtain ⟨-, hreach, hpoll⟩ := (execute_eq_some_iff job answers rounds k _).mp hended
      obtain ⟨record, hresult, hrecord⟩ := record_of_poll hpoll
      rcases hrecord with ⟨hrecord, hterminal⟩ | hlate
      · refine ⟨record, ?_, hresult, Or.inl hterminal⟩
        unfold recordOf
        rw [hrecord]
        rfl
      · exact ⟨record, recordOf_of_late hlate, hresult, (h k hreach).2 record hlate⟩
    constructor
    · intro rounds k result excluded hended hzero
      obtain ⟨record, hrecord, hresult, hcase⟩ := hfrom rounds k result excluded hended
      rw [hresult, exitCode_eq_zero_iff] at hzero
      rcases hcase with hterminal | ⟨-, hne⟩
      · rcases terminalFailure_of_isTerminal hterminal with hfailure | hcompleted
        · rw [hzero.2] at hfailure
          cases hfailure
        · exact ⟨record, hrecord, hcompleted, hresult⟩
      · exact absurd hzero.1 hne
    · intro rounds k result excluded hended
      obtain ⟨record, hrecord, hresult, hcase⟩ := hfrom rounds k result excluded hended
      exact ⟨record, hrecord, hcase.imp id And.left, hresult⟩
    · intro k record hreach hrecord hterminal
      have hclear := h k hreach
      unfold recordOf at hrecord
      rcases Option.or_eq_some_iff.mp hrecord with hpolled | ⟨-, hlate⟩
      · have hknown : isTerminal record.state = true :=
          hterminal.resolve_right (hclear.1 record hpolled)
        have hpoll := (poll_eq job (answers k)).1 record hpolled
        rw [hknown, if_pos rfl] at hpoll
        exact ⟨_, (execute_eq_some_iff job answers (k + 1) k _).mpr
          ⟨Nat.lt_succ_self k, hreach, hpoll⟩⟩
      · exact ⟨_, (execute_eq_some_iff job answers (k + 1) k _).mpr
          ⟨Nat.lt_succ_self k, hreach, (poll_eq job (answers k)).2 record hlate⟩⟩

/-- A job that the executor waits for with the command line tools. -/
def waiting : Waiting := ⟨.cli, "train".toList, 42, "logs/train.log".toList⟩

/-- `sacct` has a record with a state and an exit code. -/
def recorded (state : Text) (exitCode : ℤ) : Answers where
  rest := none
  sacct := some [⟨42, state, exitCode, none, 3, []⟩]
  squeue := none
  retry := none

/-- `sacct` has nothing until the late retry, which finds a running job. -/
def late : Answers where
  rest := none
  sacct := some []
  squeue := some none
  retry := some [⟨42, "RUNNING".toList, 0, none, 3, []⟩]

/-- A job that runs for a round and then completes is waited for soundly. -/
theorem sound_completed : Sound waiting fun k =>
    if k = 0 then recorded "RUNNING".toList 0 else recorded "COMPLETED".toList 0 := by
  refine (sound_iff _ _).mpr ?_
  intro k _
  have hclear : ∀ state : Text, state ∈ knownStates ∨ state = "RUNNING".toList →
      Clear waiting (recorded state 0) := by
    intro state hstate
    constructor
    · intro record hrecord hcancelled
      cases hrecord
      rcases hstate with hknown | hrunning
      · exact hcancelled.unknown hknown
      · obtain ⟨_, -, heq⟩ := hcancelled
        have hhead : some 'R' = some 'C' := congrArg List.head? (hrunning.symm.trans heq)
        exact absurd hhead (by decide)
    · intro record hrecord
      cases hrecord
  by_cases hzero : k = 0
  · rw [if_pos hzero]
    exact hclear _ (Or.inr rfl)
  · rw [if_neg hzero]
    exact hclear _ (Or.inl (by decide))

/-- A running job that the late retry finds is returned as a success. -/
theorem not_sound : ¬ ∀ (job : Waiting) (answers : ℕ → Answers), Sound job answers := by
  intro h
  have hended : execute waiting (fun _ => late) 1 =
      some (0, .result (recordToJobResult waiting.jobId ⟨42, "RUNNING".toList, 0, none, 3, []⟩
        waiting.logPath) none) := rfl
  obtain ⟨_, hrecord, hcompleted, -⟩ :=
    (h waiting fun _ => late).success 1 0 _ _ hended (by decide)
  have hrunning : recordOf waiting.mode late = some ⟨42, "RUNNING".toList, 0, none, 3, []⟩ := rfl
  rw [hrunning, Option.some.injEq] at hrecord
  rw [← hrecord] at hcompleted
  exact absurd hcompleted (by decide)

end OxyMake.SlurmPolling
