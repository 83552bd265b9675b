import OxyMake.ClaimDiscipline
import OxyMake.JobHistory
import OxyMake.Watching

/-!
# Runs that share the job rows and write the audit trail

Every run registers its jobs under its own id, works on the shared rows through
the operations of the claim protocol and finalises its history at the end. A
job has one row for all runs; a registration moves it to the registering run
and keeps the rest. The finalisation reads the terminal rows of its run and
inserts a history row for each of them in separate statements.
-/

namespace OxyMake.AuditedRuns

open StateDb Interleaving LabelledRuns Watching RowMoves
open JobHistory (HistoryRow Recording recordUnrecordedHistory insertRows isTerminal)

/-- The tables, the clock and the submissions that the finalisation reads. -/
structure World where
  db : Db
  now : ℕ
  /-- The submission of each job to a remote executor. -/
  submissionId : String → Option String
  history : List HistoryRow

def World.claims (w : World) : ClaimProtocol.World := ⟨w.db, w.now⟩

def World.audit (w : World) : JobHistory.World := ⟨w.db, w.submissionId, w.history⟩

/-- A statement of the claim protocol or one on the audit trail. -/
abbrev Statement (β : Type) : Type := ClaimProtocol.Statement β ⊕ JobHistory.Statement β

def exec {β : Type} : Statement β → World → Option (β × World)
  | .inl s, w => (s.exec w.claims).map fun (r, w') => (r, { w with db := w'.db })
  | .inr s, w => (s.exec w.audit).map fun (r, w') => (r, { w with history := w'.history })

inductive Outcome
  | job (outcome : ClaimProtocol.Outcome)
  | finalized (count : ℕ)
  deriving DecidableEq

/-- What a run can ask of the database. -/
inductive Operation
  /-- An operation of the claim protocol on behalf of a run. -/
  | job (runId : String) (op : ClaimProtocol.Operation)
  | finalize (a : Recording)

/-- The run on whose behalf an operation is executed. -/
def Operation.run : Operation → String
  | .job runId _ => runId
  | .finalize a => a.runId

def assign (runId : String) : ClaimProtocol.Operation → ClaimProtocol.Operation
  | .registerJobs jobs => .registerJobs (jobs.map fun r => { r with runId := some runId })
  | op => op

def ofRun (a : Recording) : Recording := { a with only := none }

abbrev Program (α : Type) := Prog Statement α

def program (leaseSecs : ℕ) : Operation → Program Outcome
  | .job runId op => .job <$> lift Sum.inl (ClaimProtocol.program leaseSecs (assign runId op))
  | .finalize a => .finalized <$> lift Sum.inr (recordUnrecordedHistory (ofRun a))

/-- Runs over one database, with a clock that never goes back. -/
def runs (leaseSecs : ℕ) : Machine Statement World Operation Outcome where
  exec := exec
  program := program leaseSecs
  drift w w' := w'.db = w.db ∧ w'.history = w.history ∧ w.now ≤ w'.now

/-- The shared tables and the calls of all runs. -/
abbrev Runs := System Statement World Operation Outcome

abbrev Event := Executed Statement World Operation Outcome

/-! ### Which statements the operations execute -/

section Kinds

variable {α : Type}

/-- The programs of the claim protocol but the registration register nothing. -/
abbrev Plain (p : ClaimProtocol.Program α) : Prop := Uses (fun s => isRegistration s = false) p

theorem plain_claimJob (jobId sessionId : String) :
    Plain (ClaimProtocol.claimJob jobId sessionId) :=
  ⟨rfl, fun _ => ⟨rfl, fun _ => trivial⟩⟩

theorem plain_resetJobRow (jobId : String) (observed : JobRow) :
    Plain (ClaimProtocol.resetJobRow jobId observed) := ⟨rfl, fun _ => trivial⟩

theorem plain_releaseIfOwnerDead (leaseSecs : ℕ) (jobId : String) (row : JobRow) :
    Plain (ClaimProtocol.releaseIfOwnerDead leaseSecs jobId row) := by
  simp only [ClaimProtocol.releaseIfOwnerDead, ClaimProtocol.run, Prog.exec_bind]
  refine ⟨rfl, ?_⟩
  intro now
  dsimp only
  split
  · trivial
  · split
    · trivial
    · split
      · split
        · exact ⟨rfl, fun _ => trivial⟩
        · exact plain_resetJobRow jobId row
      · trivial
      · trivial
      · exact plain_resetJobRow jobId row

theorem plain_completionIsHistory (leaseSecs : ℕ) (row : JobRow) (sessionId : String) :
    Plain (ClaimProtocol.completionIsHistory leaseSecs row sessionId) := by
  simp only [ClaimProtocol.completionIsHistory, ClaimProtocol.run, Prog.exec_bind]
  refine ⟨rfl, ?_⟩
  intro now
  dsimp only
  split
  · trivial
  · refine ⟨rfl, ?_⟩
    intro startedAt
    dsimp only
    split <;> trivial

theorem plain_releaseRow (leaseSecs : ℕ) (jobId sessionId : String) (row : JobRow) :
    Plain (ClaimProtocol.releaseRow leaseSecs jobId sessionId row) := by
  have hhistory : Plain (do
      let history ← ClaimProtocol.completionIsHistory leaseSecs row sessionId
      if history then ClaimProtocol.resetJobRow jobId row else return false) := by
    refine (plain_completionIsHistory leaseSecs row sessionId).bind ?_
    intro history
    cases history with
    | true => exact plain_resetJobRow jobId row
    | false => trivial
  unfold ClaimProtocol.releaseRow
  split
  · exact hhistory
  · exact hhistory
  · exact plain_releaseIfOwnerDead leaseSecs jobId row

theorem plain_claimReleased (leaseSecs : ℕ) (jobId sessionId : String) (row : JobRow) :
    Plain (ClaimProtocol.claimReleased leaseSecs jobId sessionId row) := by
  have hlost : Plain (ClaimProtocol.claimLost jobId row) := ⟨rfl, fun _ => trivial⟩
  refine (plain_releaseRow leaseSecs jobId sessionId row).bind ?_
  intro released
  cases released with
  | true =>
    refine (plain_claimJob jobId sessionId).bind ?_
    intro claimed
    cases claimed with
    | true => trivial
    | false => exact hlost
  | false => exact hlost

theorem plain_claimJobForSession (leaseSecs : ℕ) (jobId sessionId : String) :
    Plain (ClaimProtocol.claimJobForSession leaseSecs jobId sessionId) := by
  refine (plain_claimJob jobId sessionId).bind ?_
  intro claimed
  cases claimed with
  | true => trivial
  | false =>
    refine ⟨rfl, ?_⟩
    intro row
    cases row with
    | none => trivial
    | some row =>
      change Plain (if row.sessionId = some sessionId then _ else _)
      split
      · split
        · trivial
        · exact ⟨rfl, fun _ => ⟨rfl, fun _ => trivial⟩⟩
        · exact plain_claimReleased leaseSecs jobId sessionId row
      · exact plain_claimReleased leaseSecs jobId sessionId row

theorem plain_peerJobState (leaseSecs : ℕ) (jobId : String) :
    Plain (ClaimProtocol.peerJobState leaseSecs jobId) := by
  refine ⟨rfl, ?_⟩
  intro row
  cases row with
  | none => trivial
  | some row =>
    refine ⟨rfl, ?_⟩
    intro now
    change Plain (ClaimProtocol.peerVerdict leaseSecs jobId row _)
    unfold ClaimProtocol.peerVerdict
    split
    · trivial
    · trivial
    · trivial
    · trivial
    · trivial
    · trivial
    · exact (plain_releaseIfOwnerDead leaseSecs jobId row).bind fun _ => trivial

theorem plain_changes {s : ℕ → ClaimProtocol.Statement ℕ}
    (hs : ∀ now, isRegistration (s now) = false) : Plain (ClaimProtocol.changes s) :=
  ⟨rfl, fun now => ⟨hs now, fun _ => trivial⟩⟩

theorem plain_cancelIds (ids : List String) {cancel : ℕ → ClaimProtocol.Statement (List String)}
    (hcancel : ∀ now, isRegistration (cancel now) = false) :
    Plain (ClaimProtocol.cancelIds ids cancel) := by
  unfold ClaimProtocol.cancelIds
  split
  · trivial
  · exact ⟨rfl, fun now => ⟨hcancel now, fun _ => trivial⟩⟩

theorem plain_program (leaseSecs : ℕ) (op : ClaimProtocol.Operation)
    (hop : ∀ jobs, op ≠ .registerJobs jobs) : Plain (ClaimProtocol.program leaseSecs op) := by
  cases op with
  | registerJobs jobs => exact absurd rfl (hop jobs)
  | claimJob jobId sessionId => exact (plain_claimJob jobId sessionId).bind fun _ => trivial
  | claimJobForSession jobId sessionId =>
    exact (plain_claimJobForSession leaseSecs jobId sessionId).bind fun _ => trivial
  | peerJobState jobId => exact (plain_peerJobState leaseSecs jobId).bind fun _ => trivial
  | resetInactiveJobRows =>
    refine Uses.bind ?_ fun _ => trivial
    unfold ClaimProtocol.resetInactiveJobRows
    split
    · trivial
    · exact ⟨rfl, fun _ => ⟨rfl, fun _ => trivial⟩⟩
  | reclaimStaleJobsIfStale | createSession | heartbeat =>
    exact ⟨rfl, fun _ => ⟨rfl, fun _ => trivial⟩⟩
  | reclaimStaleJobs | setJobTimes | excludeJob | completeSession | interruptSession =>
    exact ⟨rfl, fun _ => trivial⟩
  | completeJob | failJob | reconcileCompleteJob | reconcileFailJob =>
    exact Uses.bind (plain_changes fun _ => rfl) fun _ => trivial
  | skipJob => exact Uses.bind (plain_changes fun _ => rfl) fun _ => trivial
  | cancelJobs =>
    refine Uses.bind ⟨rfl, ?_⟩ fun _ => trivial
    intro cancellable
    change Plain (if cancellable = [] then _ else _)
    split
    · trivial
    · exact ⟨rfl, fun _ => ⟨rfl, fun _ => trivial⟩⟩
  | cancelJobIds ids => exact Uses.bind (plain_cancelIds ids fun _ => rfl) fun _ => trivial
  | cancelJobIdsForSession ids =>
    exact Uses.bind (plain_cancelIds ids fun _ => rfl) fun _ => trivial

end Kinds

/-- A statement that an operation may execute: a run registers under its own id, and a
finalisation reads and inserts history of its run only. -/
def Allowed (op : Operation) : {β : Type} → Statement β → Prop
  | _, .inl (.registerJobs jobs) => ∃ runId op', op = .job runId op' ∧
    ∀ r ∈ jobs, r.runId = some runId
  | _, .inl _ => ∃ runId op', op = .job runId op'
  | _, .inr (.unrecorded runId) => ∃ a, op = .finalize a ∧ runId = a.runId
  | _, .inr (.insert _) => ∃ a, op = .finalize a

theorem allowed_plain (runId : String) (op : ClaimProtocol.Operation) {β : Type}
    (s : ClaimProtocol.Statement β) (hs : isRegistration s = false) :
    Allowed (.job runId op) (.inl s) := by
  cases s with
  | registerJobs => cases hs
  | _ => exact ⟨runId, op, rfl⟩

theorem uses_allowed (leaseSecs : ℕ) (op : Operation) :
    Uses (Allowed op) (program leaseSecs op) := by
  cases op with
  | job runId op =>
    refine Uses.bind (Uses.lift ?_) fun _ => trivial
    by_cases hreg : ∃ jobs, op = .registerJobs jobs
    · obtain ⟨jobs, rfl⟩ := hreg
      refine ⟨⟨runId, _, rfl, ?_⟩, fun _ => trivial⟩
      intro r hr
      obtain ⟨q, -, rfl⟩ := List.mem_map.mp hr
      rfl
    · have hassign : assign runId op = op := by
        cases op with
        | registerJobs jobs => exact absurd ⟨jobs, rfl⟩ hreg
        | _ => rfl
      rw [hassign]
      exact (plain_program leaseSecs op fun jobs heq => hreg ⟨jobs, heq⟩).mono
        fun s hs => allowed_plain runId op s hs
  | finalize a =>
    have hinsert : ∀ count rows, Uses (fun s => Allowed (.finalize a) (Sum.inr s))
        (insertRows count rows) := by
      intro count rows
      induction rows with
      | nil => trivial
      | cons row rows ih => exact ⟨⟨a, rfl⟩, fun _ => ih⟩
    refine Uses.bind (Uses.lift ⟨⟨a, rfl, rfl⟩, ?_⟩) fun _ => trivial
    exact fun selected => hinsert _ _

theorem allowed_of_run {leaseSecs : ℕ} {start finish : Runs} {log : List Event}
    (hidle : start.Idle) (hrun : Run (Step (runs leaseSecs)) start log finish) :
    ∀ e ∈ log, Allowed e.operation e.statement.2 := by
  have hrelies : Relies (runs leaseSecs) fun _ _ => True :=
    ⟨fun _ => trivial, fun _ _ _ _ _ => trivial, fun _ _ _ _ _ => trivial, fun _ _ _ => trivial⟩
  have hguarded : ∀ op w, Guarded (runs leaseSecs) (fun _ _ => True)
      (fun e => Allowed e.operation e.statement.2) op (program leaseSecs op) w := by
    intro op w
    refine guarded_of_invariant (I := fun _ => True) (fun _ _ _ _ => trivial) ?_
      (uses_allowed leaseSecs op) trivial
    intro β s k v r v' hs _ _
    exact ⟨trivial, hs⟩
  exact (Safe.run hrelies hguarded hidle.safe hrun).2

end OxyMake.AuditedRuns
