import OxyMake.TaskRecords

/-!
# What a finished remote task does to its row

Any number of processes apply the records of tasks and the states `sacct`
reports to the rows of a shared database. The claim of a row and its terminal
update are statements of their own, and between them others may change the
database, as long as a row that has ended stays so. A process applies the
records of a list one after the other, so one call applies one record.
-/

namespace OxyMake.TaskVerdicts

open StateDb Interleaving Watching RemoteSync TaskRecords LabelledRuns
open ClaimProtocol (World)
open SacctRecords (SacctRecord)
open SlurmPolling (isTerminal slurmStateToJobStatus)
open Wildcard (Text)

variable {β : Type}

/-! ### Applying a record -/

/-- How the synchronising process may end a row. -/
inductive Owner
  /-- As the session that submitted the run. -/
  | session
  | reconcile
  deriving DecidableEq

def verdict (owner : Owner) (status : TaskStatus) (jobId session : String) (exitCode : ℤ)
    (now : ℕ) : ClaimProtocol.Statement ℕ :=
  match owner, status with
  | .session, .completed => .completeJob exitCode "" now jobId session
  | .session, .failed => .failJob exitCode now jobId session
  | .reconcile, .completed => .reconcileCompleteJob exitCode "" now jobId
  | .reconcile, .failed => .reconcileFailJob exitCode now jobId

/-- Apply one task record to its row and tell whether this ended it. -/
def applyRecord (owner : Owner) (session : String) (record : TaskRecord) (faults : Faults) :
    Program Bool := do
  claimJob faults.claim record.jobId session
  let now ← run .unixNow
  let rows ← attempt faults.settle
    (verdict owner record.status record.jobId session record.exitCodeOrDefault now)
  if rows.any (0 < ·) then do
    let _ ← attempt faults.times (.setJobTimes record.startedAt record.endedAt record.jobId)
    return true
  else return false

/-- What reaches a synchronising process. -/
inductive Report (β : Type)
  | task (t : Task) (h : Host β)
  /-- A job as `sacct` reports it for a run. -/
  | sacct (sync : SacctSync) (record : SacctRecord)

/-- One report on its way into the database. -/
structure Application (β : Type) where
  report : Report β
  owner : Owner
  session : String
  faults : Faults

def program (a : Application β) : Program Bool :=
  match a.report with
  | .task t h =>
    match decode (runMeasured t h).1 with
    | some record => applyRecord a.owner a.session record a.faults
    | none => return false
  | .sacct sync record => do
    applySacct sync record a.faults.settle
    return false

/-- The row is neither to be run nor running. -/
def Ended (j : Job) : Prop := j.status ≠ .pending ∧ j.status ≠ .running

def EndedAt (w : World) (id : String) : Prop := ∃ j, w.db.jobs.get id = some j ∧ Ended j

/-- Applications over one database, in which rows that have ended stay so. -/
def applications : Machine Statement World (Application β) Bool where
  exec := RemoteSync.exec
  program := program
  drift w w' := ∀ id, EndedAt w id → EndedAt w' id

def perform {α : Type} : Program α → World → Option (α × World)
  | .ret a, w => some (a, w)
  | .err, _ => none
  | .stmt s k, w =>
    match RemoteSync.exec s w with
    | some (r, w) => perform (k r) w
    | none => none

/-! ### The law of a report -/

/-- The job a report is about, if it is one of the run. -/
def Report.target : Report β → Option String
  | .task t _ => some t.jobId
  | .sacct sync record => sync.slurmToOx record.jobId

def CancelledBy (state : Text) : Prop := ∃ who, state = "CANCELLED by ".toList ++ who

def Report.Success : Report β → Prop
  | .task t h => Succeeded t h
  | .sacct _ record => record.state = "COMPLETED".toList

def Report.Failure : Report β → Prop
  | .task t h => ¬ Succeeded t h
  | .sacct _ record =>
    (isTerminal record.state = true ∨ CancelledBy record.state) ∧ record.state ≠ "COMPLETED".toList

def FailedRow (j : Job) : Prop := j.status = .failed ∧ ∃ code, j.exitCode = some code ∧ code ≠ 0

/-- The application may end the row of a job as the database stands. -/
def Open (a : Application β) (w : World) (id : String) : Prop :=
  ∃ j, w.db.jobs.get id = some j ∧
    match a.report, a.owner with
    | .task _ _, .session => (j.status = .pending ∧ (w.db.sessions.get a.session).isSome) ∨
        (j.status = .running ∧ j.sessionId = some a.session)
    | .task _ _, .reconcile => (j.status = .pending ∧ (w.db.sessions.get a.session).isSome) ∨
        j.status = .running
    | .sacct _ _, _ => j.status = .running

def Settled (e : Executed Statement World (Application β) Bool) (id : String) (j : Job) : Prop :=
  (∃ i, e.before.db.jobs.get id = some i ∧ ¬ Ended i) ∧ e.after.db.jobs.get id = some j ∧ Ended j

/-- The law of a report. -/
structure Lawful (r : Report β) : Prop where
  /-- Applied to the row of a job that has not ended, a failure makes it a failed one. -/
  fails : r.Failure → ∀ a w id, a.report = r → a.faults = ⟨false, false, false⟩ →
    r.target = some id → Open a w id →
    ∃ b w' j, perform (program a) w = some (b, w') ∧ w'.db.jobs.get id = some j ∧ FailedRow j
  /-- Whatever others do between the statements, a failure only fails rows, and only a
  success completes them. -/
  settles : ∀ {x y : System Statement World (Application β) Bool}
    {log : List (Executed Statement World (Application β) Bool)}, x.Idle →
    Run (Step applications) x log y → ∀ e ∈ log, e.operation.report = r →
    ∀ id j, Settled e id j → (r.Failure → FailedRow j) ∧ (j.status = .completed → r.Success)
  /-- At most one application tells that it ended the row. -/
  once : ∀ {x y : System Statement World (Application β) Bool}
    {log : List (Executed Statement World (Application β) Bool)}, x.Idle →
    Run (Step applications) x log y → ∀ c c' a a', a.report = r →
    a.report.target = a'.report.target → y.calls c = some (a, .ret true) →
    y.calls c' = some (a', .ret true) → c = c'

/-- The condition on a report: the outputs of a successful command can be finalised, and a
job of the run that SLURM ended without success is reported with a bare state that is a
cancellation or with a nonzero exit code. -/
def Sound : Report β → Prop
  | .task t h => NoLateFailure t h
  | .sacct sync record => (Report.sacct (β := β) sync record).Failure →
      (sync.slurmToOx record.jobId).isSome → isTerminal record.state = true ∧
        (slurmStateToJobStatus record.state = .cancelled ∨ record.exitCode ≠ 0)

/-! ### What a statement of an application does -/

def jobStatus : TaskStatus → JobStatus
  | .completed => .completed
  | .failed => .failed

/-- The status and the exit code that a report writes. -/
def Report.verdict : Report β → TaskStatus × ℤ
  | .task t h => ((published t h).status, (published t h).exitCodeOrDefault)
  | .sacct _ record =>
    match slurmStateToJobStatus record.state with
    | .completed => (.completed, record.exitCode)
    | .cancelled => (.failed, -1)
    | _ => (.failed, record.exitCode)

/-- The statements of applications that may write a given verdict to the row of a job. -/
def Fits (target : Option String) (v : TaskStatus × ℤ) : {γ : Type} → Statement γ → Prop
  | _, .inl .unixNow => True
  | _, .inl (.claimJob _ _ id) => target = some id
  | _, .inl (.setJobTimes _ _ id) => target = some id
  | _, .inl (.completeJob code _ _ id _) => target = some id ∧ v = (.completed, code)
  | _, .inl (.failJob code _ id _) => target = some id ∧ v = (.failed, code)
  | _, .inl (.reconcileCompleteJob code _ _ id) => target = some id ∧ v = (.completed, code)
  | _, .inl (.reconcileFailJob code _ id) => target = some id ∧ v = (.failed, code)
  | _, _ => False

/-- What a statement of an application does to a row. -/
inductive Moved (v : TaskStatus × ℤ) (i j : Job) : Prop
  | kept (status : j.status = i.status)
  | claimed (before : i.status = .pending) (after : j.status = .running)
  | ended (before : i.status = .running) (after : j.status = jobStatus v.1)
      (exitCode : j.exitCode = some v.2)

theorem moved_updateJobs {v : TaskStatus × ℤ} {db : Db} {id key : String} {q : Job → Bool}
    {f : Job → Job} (hf : ∀ i, q i = true → Moved v i (f i)) {i : Job}
    (hi : db.jobs.get id = some i) :
    ∃ j, (db.updateJobs (fun k i => k = key && q i) f).2.jobs.get id = some j ∧ Moved v i j := by
  refine ⟨_, RowMoves.get_updateJobs db _ f hi, ?_⟩
  by_cases hp : (decide (id = key) && q i) = true
  · rw [if_pos hp]
    exact hf i (Bool.and_eq_true_iff.mp hp).2
  · rw [if_neg hp]
    exact .kept rfl

theorem moved_of_fits {target : Option String} {v : TaskStatus × ℤ} {γ : Type}
    {s : Statement γ} (hs : Fits target v s) {w w' : World} {r : γ}
    (h : RemoteSync.exec s w = some (r, w')) {id : String} {i : Job}
    (hi : w.db.jobs.get id = some i) : ∃ j, w'.db.jobs.get id = some j ∧ Moved v i j := by
  cases s with
  | inr s => cases s; cases hs
  | inl s =>
    have hw' : w' = { w with db := (s.effect w).2 } := by
      change s.exec w = some (r, w') at h
      unfold ClaimProtocol.Statement.exec at h
      split_ifs at h
      cases h
      rfl
    rw [hw']
    cases s with
    | unixNow => exact ⟨i, hi, .kept rfl⟩
    | claimJob =>
      exact moved_updateJobs (fun i hq => .claimed (of_decide_eq_true hq) rfl) hi
    | setJobTimes startedAt completedAt =>
      exact moved_updateJobs (f := fun i =>
        { i with startedAt := some startedAt, completedAt := some completedAt })
        (fun _ _ => .kept rfl) hi
    | completeJob | failJob =>
      obtain ⟨-, rfl⟩ := hs
      exact moved_updateJobs (fun i hq =>
        .ended (of_decide_eq_true (Bool.and_eq_true_iff.mp hq).1) rfl rfl) hi
    | reconcileCompleteJob | reconcileFailJob =>
      obtain ⟨-, rfl⟩ := hs
      exact moved_updateJobs (fun i hq => .ended (of_decide_eq_true hq) rfl rfl) hi
    | _ => cases hs

theorem Moved.keepsEnded {v : TaskStatus × ℤ} {i j : Job} (h : Moved v i j) (hi : Ended i) :
    Ended j := by
  cases h with
  | kept status =>
    unfold Ended
    rw [status]
    exact hi
  | claimed before => exact absurd before hi.1
  | ended before => exact absurd before hi.2

theorem Moved.verdict_of_ends {v : TaskStatus × ℤ} {i j : Job} (h : Moved v i j) (hi : ¬ Ended i)
    (hj : Ended j) : j.status = jobStatus v.1 ∧ j.exitCode = some v.2 := by
  cases h with
  | kept status =>
    unfold Ended at hi hj
    rw [status] at hj
    exact absurd hj hi
  | claimed before after => exact absurd after hj.2
  | ended before after exitCode => exact ⟨after, exitCode⟩

theorem endedAt_of_fits {target : Option String} {v : TaskStatus × ℤ} {γ : Type}
    {s : Statement γ} (hs : Fits target v s) {w w' : World} {r : γ}
    (h : RemoteSync.exec s w = some (r, w')) {id : String} (hi : EndedAt w id) :
    EndedAt w' id := by
  obtain ⟨i, hget, hended⟩ := hi
  obtain ⟨j, hafter, hmoved⟩ := moved_of_fits hs h hget
  exact ⟨j, hafter, hmoved.keepsEnded hended⟩

/-! ### The programs of the applications -/

theorem uses_attempt {target : Option String} {v : TaskStatus × ℤ} {γ : Type} (fails : Bool)
    {s : ClaimProtocol.Statement γ} (hs : Fits target v (.inl s : Statement γ)) :
    Uses (Fits target v) (attempt fails s) := by
  cases fails with
  | true => trivial
  | false => exact ⟨hs, fun _ => trivial⟩

theorem uses_applyRecord (owner : Owner) (session : String) (record : TaskRecord)
    (faults : Faults) : Uses (Fits (some record.jobId) (record.status, record.exitCodeOrDefault))
      (applyRecord owner session record faults) := by
  have hverdict : ∀ now, Fits (some record.jobId) (record.status, record.exitCodeOrDefault)
      (.inl (verdict owner record.status record.jobId session record.exitCodeOrDefault now) :
        Statement ℕ) := by
    intro now
    cases owner <;> cases record.status <;> exact ⟨rfl, rfl⟩
  have hclaim : Uses (Fits (some record.jobId) (record.status, record.exitCodeOrDefault))
      (claimJob faults.claim record.jobId session) :=
    ⟨trivial, fun now => (uses_attempt faults.claim
      (s := .claimJob session now record.jobId) rfl).bind fun _ => trivial⟩
  refine hclaim.bind fun _ => ⟨trivial, fun now => ?_⟩
  refine (uses_attempt faults.settle (hverdict now)).bind fun rows => ?_
  cases rows.any (0 < ·) with
  | false => trivial
  | true =>
    exact (uses_attempt faults.times
      (s := .setJobTimes record.startedAt record.endedAt record.jobId) rfl).bind fun _ => trivial

theorem uses_reconcile (fails : Bool) (status : TaskStatus) (jobId : String) (code : ℤ) :
    Uses (Fits (some jobId) (status, code)) (reconcile fails status jobId code) := by
  refine ⟨trivial, fun now => ?_⟩
  refine (uses_attempt fails ?_).bind fun rows => trivial
  cases status <;> exact ⟨rfl, rfl⟩

theorem uses_program (a : Application β) :
    Uses (Fits a.report.target a.report.verdict) (program a) := by
  unfold program
  cases a.report with
  | task t h =>
    dsimp only
    rw [decode_runMeasured]
    have hjob : (published t h).jobId = t.jobId := by
      unfold published
      cases h.launch <;> rfl
    have huses := uses_applyRecord a.owner a.session (published t h) a.faults
    rw [hjob] at huses
    exact huses
  | sacct sync record =>
    refine Uses.bind ?_ fun _ => trivial
    dsimp only [applySacct, Report.target, Report.verdict]
    cases isTerminal record.state with
    | false => trivial
    | true =>
      rw [if_pos rfl]
      cases sync.slurmToOx record.jobId with
      | none => trivial
      | some oxId =>
        dsimp only
        cases slurmStateToJobStatus record.state with
        | completed =>
          exact Uses.bind (uses_reconcile a.faults.settle .completed oxId record.exitCode)
            fun _ => by trivial
        | failed =>
          exact Uses.bind (uses_reconcile a.faults.settle .failed oxId record.exitCode)
            fun _ => by trivial
        | cancelled =>
          exact Uses.bind (uses_reconcile a.faults.settle .failed oxId (-1)) fun _ => by trivial
        | queued | running => trivial

theorem fits_of_run {x y : System Statement World (Application β) Bool}
    {log : List (Executed Statement World (Application β) Bool)} (hidle : x.Idle)
    (h : Run (Step applications) x log y) :
    ∀ e ∈ log, Fits e.operation.report.target e.operation.report.verdict e.statement.2 := by
  have hM : Relies (applications (β := β)) fun _ _ => True :=
    ⟨fun _ => trivial, fun _ _ _ _ _ => trivial, fun _ _ _ _ _ => trivial, fun _ _ _ => trivial⟩
  have hprog : ∀ (a : Application β) w, Guarded applications (fun _ _ => True)
      (fun e => Fits e.operation.report.target e.operation.report.verdict e.statement.2) a
      (applications.program a) w := by
    intro a w
    exact guarded_of_invariant (I := fun _ => True) (fun _ _ _ _ => trivial)
      (fun s k w r w' hs _ _ => ⟨trivial, hs⟩) (uses_program a) trivial
  exact (hidle.safe.run hM hprog h).2

/-! ### The verdict of a sound report -/

theorem slurmState_completed_iff (state : Text) :
    slurmStateToJobStatus state = .completed ↔ state = "COMPLETED".toList := by
  constructor
  · intro h
    by_contra hne
    unfold slurmStateToJobStatus at h
    rw [if_neg hne] at h
    cases hlookup : SlurmPolling.failureStates.lookup state with
    | some | none =>
      rw [hlookup] at h
      split_ifs at h
  · rintro rfl
    decide

theorem Sound.verdict {r : Report β} (h : Sound r) (htarget : r.target.isSome) :
    (r.Failure → r.verdict.1 = .failed ∧ r.verdict.2 ≠ 0) ∧
      (r.verdict.1 = .completed → r.Success) := by
  cases r with
  | task t host =>
    obtain ⟨hcode, hdone⟩ := (noLateFailure_iff t host).mp h
    dsimp only [Report.verdict, Report.Failure, Report.Success]
    refine ⟨fun hfailure => ?_, hdone⟩
    cases hstatus : (published t host).status with
    | completed => exact absurd (hdone hstatus) hfailure
    | failed => exact ⟨rfl, hcode hstatus⟩
  | sacct sync record =>
    have hsound := fun hfailure => (h hfailure htarget).2
    have hcompleted := slurmState_completed_iff record.state
    dsimp only [Report.verdict, Report.Success]
    cases hstatus : slurmStateToJobStatus record.state with
    | completed =>
      exact ⟨fun hfailure => absurd (hcompleted.mp hstatus) hfailure.2,
        fun _ => hcompleted.mp hstatus⟩
    | cancelled =>
      have hne : (-1 : ℤ) ≠ 0 := by decide
      exact ⟨fun _ => ⟨rfl, hne⟩, fun heq => nomatch heq⟩
    | failed | queued | running =>
      refine ⟨fun hfailure => ⟨rfl, ?_⟩, fun heq => nomatch heq⟩
      have hcancel := hsound hfailure
      rw [hstatus] at hcancel
      exact hcancel.resolve_left fun heq => nomatch heq

theorem failedRow_of_verdict {v : TaskStatus × ℤ} {j : Job} (hstatus : j.status = jobStatus v.1)
    (hcode : j.exitCode = some v.2) (hv : v.1 = .failed ∧ v.2 ≠ 0) : FailedRow j := by
  rw [hv.1] at hstatus
  exact ⟨hstatus, v.2, hcode, hv.2⟩

theorem db_of_fits_none {v : TaskStatus × ℤ} {γ : Type} {s : Statement γ} (hs : Fits none v s)
    {w w' : World} {r : γ} (h : RemoteSync.exec s w = some (r, w')) : w'.db = w.db := by
  cases s with
  | inr s => cases s; cases hs
  | inl s =>
    cases s with
    | unixNow =>
      cases h
      rfl
    | claimJob | setJobTimes => cases hs
    | completeJob | failJob | reconcileCompleteJob | reconcileFailJob => cases hs.1
    | _ => cases hs

theorem Sound.settles {r : Report β} (hr : Sound r)
    {x y : System Statement World (Application β) Bool}
    {log : List (Executed Statement World (Application β) Bool)} (hidle : x.Idle)
    (h : Run (Step applications) x log y) {e : Executed Statement World (Application β) Bool}
    (he : e ∈ log) (hreport : e.operation.report = r) {id : String} {j : Job}
    (hsettled : Settled e id j) :
    (r.Failure → FailedRow j) ∧ (j.status = .completed → r.Success) := by
  obtain ⟨⟨i, hi, hopen⟩, hj, hended⟩ := hsettled
  have hfits := fits_of_run hidle h e he
  obtain ⟨_, hexec⟩ := run_executed h e he
  rw [hreport] at hfits
  obtain ⟨_, hj', hmoved⟩ := moved_of_fits hfits hexec hi
  rw [hj] at hj'
  cases hj'
  obtain ⟨hstatus, hcode⟩ := hmoved.verdict_of_ends hopen hended
  have htarget : r.target.isSome := by
    cases htarget : r.target with
    | some => rfl
    | none =>
      rw [htarget] at hfits
      rw [db_of_fits_none hfits hexec, hi] at hj
      cases hj
      exact absurd hended hopen
  obtain ⟨hfailure, hsuccess⟩ := hr.verdict htarget
  refine ⟨fun hf => failedRow_of_verdict hstatus hcode (hfailure hf), fun hdone => hsuccess ?_⟩
  cases hv : r.verdict.1 with
  | completed => rfl
  | failed =>
    rw [hv] at hstatus
    rw [hstatus] at hdone
    cases hdone

/-! ### Telling of an end at most once -/

/-- Whatever is answered, the program tells that it ended the row. -/
def Tells : Program Bool → Prop
  | .ret b => b = true
  | .err => False
  | .stmt (β := γ) _ k => Nonempty γ ∧ ∀ r, Tells (k r)

/-- A statement with this answer has ended the row of the job. -/
def Ends (target : Option String) {γ : Type} (s : Statement γ) (r : γ) : Prop :=
  ∃ id, target = some id ∧
    ∀ w w', RemoteSync.exec s w = some (r, w') → ¬ EndedAt w id ∧ EndedAt w' id

/-- A program tells of an end only after the statement that made it. -/
def Honest (target : Option String) : Program Bool → Prop
  | .ret _ => True
  | .err => True
  | .stmt s k => ∀ r, Honest target (k r) ∧
      (Tells (k r) → Tells (.stmt s k) ∨ Ends target s r)

theorem honest_bind {target : Option String} {α : Type} (p : Program α) {f : α → Program Bool}
    (hf : ∀ a, Honest target (f a) ∧ ¬ Tells (f a)) :
    Honest target (p >>= f) ∧ ¬ Tells (p >>= f) := by
  induction p with
  | ret a => exact hf a
  | err => exact ⟨trivial, fun htells => htells⟩
  | stmt s k ih =>
    refine ⟨fun r => ⟨(ih r).1, fun htells => absurd htells (ih r).2⟩, ?_⟩
    rintro ⟨⟨r⟩, htells⟩
    exact (ih r).2 (htells r)

theorem ended_of_updateJobs {db : Db} {id : String} {q : Job → Bool} {f : Job → Job}
    (hq : ∀ i, q i = true → i.status = .running ∧ Ended (f i))
    (hpos : 0 < (db.updateJobs (fun k i => k = id && q i) f).1) :
    (∃ i, db.jobs.get id = some i ∧ i.status = .running) ∧
      ∃ j, (db.updateJobs (fun k i => k = id && q i) f).2.jobs.get id = some j ∧ Ended j := by
  obtain ⟨i, hget, hi⟩ := (RowMoves.updateJobs_pos_iff db id q f).mp hpos
  refine ⟨⟨i, hget, (hq i hi).1⟩, _, RowMoves.get_updateJobs db _ f hget, ?_⟩
  have hp : (decide (id = id) && q i) = true := by
    rw [hi, decide_eq_true rfl]
    rfl
  rw [if_pos hp]
  exact (hq i hi).2

theorem ends_verdict (owner : Owner) (status : TaskStatus) (id session : String) (code : ℤ)
    (now : ℕ) {r : ℕ} (hr : 0 < r) :
    Ends (some id) (.inl (verdict owner status id session code now) : Statement ℕ) r := by
  refine ⟨id, rfl, fun w w' h => ?_⟩
  have hended : ∀ {j : Job} (s : TaskStatus), j.status = jobStatus s → Ended j := by
    intro j s hj
    unfold Ended
    rw [hj]
    cases s <;> exact ⟨nofun, nofun⟩
  have hboth : (∃ i, w.db.jobs.get id = some i ∧ i.status = .running) ∧ EndedAt w' id := by
    cases owner with
    | session =>
      have hq : ∀ i : Job, (decide (i.status = .running) && decide (i.sessionId = some session)) =
          true → i.status = .running := fun i hi => of_decide_eq_true (Bool.and_eq_true_iff.mp hi).1
      cases status with
      | completed =>
        cases h
        exact ended_of_updateJobs (fun i hi => ⟨hq i hi, hended .completed rfl⟩) hr
      | failed =>
        cases h
        exact ended_of_updateJobs (fun i hi => ⟨hq i hi, hended .failed rfl⟩) hr
    | reconcile =>
      cases status with
      | completed =>
        cases h
        exact ended_of_updateJobs
          (fun i hi => ⟨of_decide_eq_true hi, hended .completed rfl⟩) hr
      | failed =>
        cases h
        exact ended_of_updateJobs (fun i hi => ⟨of_decide_eq_true hi, hended .failed rfl⟩) hr
  obtain ⟨⟨i, hi, hrunning⟩, hafter⟩ := hboth
  refine ⟨?_, hafter⟩
  rintro ⟨j, hj, hend⟩
  rw [hi] at hj
  cases hj
  exact hend.2 hrunning

theorem honest_applyRecord (owner : Owner) (session : String) (record : TaskRecord)
    (faults : Faults) : Honest (some record.jobId) (applyRecord owner session record faults) ∧
      ¬ Tells (applyRecord owner session record faults) := by
  refine honest_bind _ fun _ => honest_bind (run .unixNow) fun now => ?_
  have hsilent : Honest (some record.jobId) (.ret false) ∧ ¬ Tells (.ret false) :=
    ⟨trivial, Bool.false_ne_true⟩
  cases faults.settle with
  | true => exact hsilent
  | false =>
    refine ⟨fun r => ?_, fun htells => hsilent.2 (htells.2 0)⟩
    by_cases hr : 0 < r
    · refine ⟨?_, fun _ => .inr (ends_verdict owner record.status record.jobId session
        record.exitCodeOrDefault now hr)⟩
      have hany : (some r).any (0 < ·) = true := decide_eq_true hr
      dsimp only [Prog.bind, Function.comp_apply]
      rw [if_pos hany]
      cases faults.times with
      | true => trivial
      | false => exact fun r => ⟨trivial, fun _ => .inl ⟨⟨0⟩, fun _ => rfl⟩⟩
    · have hany : ¬ (some r).any (0 < ·) = true := fun h => hr (of_decide_eq_true h)
      dsimp only [Prog.bind, Function.comp_apply]
      rw [if_neg hany]
      exact ⟨trivial, fun htells => absurd htells hsilent.2⟩

theorem published_jobId (t : Task) (h : Host β) : (published t h).jobId = t.jobId := by
  unfold published
  cases h.launch <;> rfl

theorem honest_program (a : Application β) :
    Honest a.report.target (program a) ∧ ¬ Tells (program a) := by
  unfold program
  cases a.report with
  | task t h =>
    dsimp only
    rw [decode_runMeasured]
    have hhonest := honest_applyRecord a.owner a.session (published t h) a.faults
    rw [published_jobId] at hhonest
    exact hhonest
  | sacct => exact honest_bind _ fun _ => ⟨trivial, Bool.false_ne_true⟩

/-- At every moment each call is at an honest point of its program, a call that tells has
ended its row, and no two calls tell of one row. -/
structure Tidy (x : System Statement World (Application β) Bool) : Prop where
  /-- A call is at an honest point. -/
  honest : ∀ c a p, x.calls c = some (a, p) → Honest a.report.target p
  /-- A call executes what fits its report. -/
  uses : ∀ c a p, x.calls c = some (a, p) → Uses (Fits a.report.target a.report.verdict) p
  /-- The row of a call that tells has ended. -/
  ended : ∀ c a p, x.calls c = some (a, p) → Tells p →
    ∃ id, a.report.target = some id ∧ EndedAt x.world id
  /-- No two calls tell of one row. -/
  once : ∀ c c' a a' p p', x.calls c = some (a, p) → x.calls c' = some (a', p') →
    Tells p → Tells p' → a.report.target = a'.report.target → c = c'

theorem Tidy.setCall {x : System Statement World (Application β) Bool} (hx : Tidy x) {w : World}
    (hw : ∀ id, EndedAt x.world id → EndedAt w id) (c : ℕ) {a : Application β}
    {p : Program Bool} (hhonest : Honest a.report.target p)
    (huses : Uses (Fits a.report.target a.report.verdict) p)
    (htells : Tells p → (∃ q, x.calls c = some (a, q) ∧ Tells q) ∨
      ∃ id, a.report.target = some id ∧ ¬ EndedAt x.world id ∧ EndedAt w id) :
    Tidy (x.setCall w c a p) := by
  have hkept : ∀ c' a' p', x.calls c' = some (a', p') → Tells p' →
      ∃ id, a'.report.target = some id ∧ EndedAt w id := by
    intro c' a' p' hcall htell
    obtain ⟨id, hid, hend⟩ := hx.ended c' a' p' hcall htell
    exact ⟨id, hid, hw id hend⟩
  have hsame : ∀ c' a' p', c' ≠ c → x.calls c' = some (a', p') → Tells p → Tells p' →
      a.report.target ≠ a'.report.target := by
    intro c' a' p' hne hcall htell htell' heq
    rcases htells htell with ⟨q, hq, hold⟩ | ⟨id, hid, hopen, -⟩
    · exact hne (hx.once c' c a' a p' q hcall hq htell' hold heq.symm)
    · obtain ⟨_, hid', hend⟩ := hx.ended c' a' p' hcall htell'
      rw [← heq, hid] at hid'
      cases hid'
      exact hopen hend
  constructor
  · intro c' a' p' hcall
    rcases System.calls_setCall hcall with ⟨-, heq⟩ | ⟨-, hold⟩
    · cases heq
      exact hhonest
    · exact hx.honest c' a' p' hold
  · intro c' a' p' hcall
    rcases System.calls_setCall hcall with ⟨-, heq⟩ | ⟨-, hold⟩
    · cases heq
      exact huses
    · exact hx.uses c' a' p' hold
  · intro c' a' p' hcall htell
    rcases System.calls_setCall hcall with ⟨-, heq⟩ | ⟨-, hold⟩
    · cases heq
      rcases htells htell with ⟨q, hq, hbefore⟩ | ⟨id, hid, -, hend⟩
      · exact hkept c a q hq hbefore
      · exact ⟨id, hid, hend⟩
    · exact hkept c' a' p' hold htell
  · intro c₁ c₂ a₁ a₂ p₁ p₂ h₁ h₂ htell₁ htell₂ heq
    rcases System.calls_setCall h₁ with ⟨rfl, heq₁⟩ | ⟨hne₁, hold₁⟩
    · cases heq₁
      rcases System.calls_setCall h₂ with ⟨rfl, -⟩ | ⟨hne₂, hold₂⟩
      · rfl
      · exact absurd heq (hsame c₂ a₂ p₂ hne₂ hold₂ htell₁ htell₂)
    · rcases System.calls_setCall h₂ with ⟨rfl, heq₂⟩ | ⟨-, hold₂⟩
      · cases heq₂
        exact absurd heq.symm (hsame c₁ a₁ p₁ hne₁ hold₁ htell₂ htell₁)
      · exact hx.once c₁ c₂ a₁ a₂ p₁ p₂ hold₁ hold₂ htell₁ htell₂ heq

theorem Tidy.step {x y : System Statement World (Application β) Bool}
    {label : Option (Executed Statement World (Application β) Bool)} (hx : Tidy x)
    (h : Step applications x label y) : Tidy y := by
  cases h with
  | call c a =>
    obtain ⟨hhonest, hsilent⟩ := honest_program a
    exact hx.setCall (fun _ hend => hend) c hhonest (uses_program a) fun htells =>
      absurd htells hsilent
  | execute c a s k r w hcall hexec =>
    have hstmt := hx.honest c a _ hcall r
    have huses := hx.uses c a _ hcall
    refine hx.setCall (fun id => endedAt_of_fits huses.1 hexec) c hstmt.1 (huses.2 r) ?_
    intro htells
    rcases hstmt.2 htells with hbefore | ⟨id, hid, hends⟩
    · exact .inl ⟨_, hcall, hbefore⟩
    · exact .inr ⟨id, hid, hends x.world w hexec⟩
  | abort c =>
    exact hx.setCall (fun _ hend => hend) c trivial trivial fun htells => htells.elim
  | drift w hw =>
    refine ⟨hx.honest, hx.uses, fun c a p hcall htells => ?_, hx.once⟩
    obtain ⟨id, hid, hend⟩ := hx.ended c a p hcall htells
    exact ⟨id, hid, hw id hend⟩

theorem tidy_of_run {x y : System Statement World (Application β) Bool}
    {log : List (Executed Statement World (Application β) Bool)} (hidle : x.Idle)
    (h : Run (Step applications) x log y) : Tidy y := by
  have hstart : Tidy x := by
    constructor
    · exact fun c a p hcall => (nomatch (hidle c).symm.trans hcall)
    · exact fun c a p hcall => (nomatch (hidle c).symm.trans hcall)
    · exact fun c a p hcall => (nomatch (hidle c).symm.trans hcall)
    · exact fun c c' a a' p p' hcall => (nomatch (hidle c).symm.trans hcall)
  clear hidle
  induction h with
  | refl => exact hstart
  | cons hstep _ ih => exact ih (hstart.step hstep)

/-! ### An application alone -/

theorem perform_stmt {α γ : Type} {s : Statement γ} {w w' : World} {r : γ}
    (h : RemoteSync.exec s w = some (r, w')) (k : γ → Program α) :
    perform (.stmt s k) w = perform (k r) w' := by
  rw [perform, h]

theorem perform_bind {α γ : Type} (p : Program α) (f : α → Program γ) (w : World) :
    perform (p >>= f) w = (perform p w).bind fun r => perform (f r.1) r.2 := by
  induction p generalizing w with
  | ret | err => rfl
  | stmt s k ih =>
    change perform (.stmt s fun r => k r >>= f) w = _
    cases hexec : RemoteSync.exec s w with
    | none => rw [perform, perform, hexec]; rfl
    | some r =>
      rw [perform_stmt hexec, perform_stmt hexec]
      exact ih r.1 r.2

theorem exec_updateJobs {id : String} {q : Job → Bool} {f : Job → Job} {db : Db} {j : Job}
    (hget : db.jobs.get id = some j) (hq : q j = true) :
    0 < (db.updateJobs (fun k i => k = id && q i) f).1 ∧
      (db.updateJobs (fun k i => k = id && q i) f).2.jobs.get id = some (f j) := by
  refine ⟨(RowMoves.updateJobs_pos_iff db id q f).mpr ⟨j, hget, hq⟩, ?_⟩
  have hp : (decide (id = id) && q j) = true := by
    rw [hq, decide_eq_true rfl]
    rfl
  rw [RowMoves.get_updateJobs db _ f hget, if_pos hp]

theorem perform_claimJob {w : World} {id session : String} {j : Job}
    (hget : w.db.jobs.get id = some j)
    (hopen : (j.status = .pending ∧ (w.db.sessions.get session).isSome) ∨ j.status = .running) :
    ∃ w' i, perform (claimJob false id session) w = some ((), w') ∧
      w'.db.jobs.get id = some i ∧ i.status = .running ∧
      (i = j ∨ i.sessionId = some session) := by
  have hallowed : (ClaimProtocol.Statement.claimJob session w.now id).refused w = false := by
    dsimp only [ClaimProtocol.Statement.refused]
    rw [hget]
    rcases hopen with ⟨-, hsession⟩ | hrunning
    · rw [Option.isNone_eq_false_iff.mpr hsession, Bool.and_false]
    · have hnot : (some j).any (fun j => decide (j.status = .pending)) = false := by
        refine decide_eq_false fun hpending => ?_
        rw [hrunning] at hpending
        cases hpending
      rw [hnot, Bool.false_and]
  have hexec : RemoteSync.exec (.inl (.claimJob session w.now id)) w =
      some ((w.db.claimJob session w.now id).1,
        { w with db := (w.db.claimJob session w.now id).2 }) := by
    change ClaimProtocol.Statement.exec _ w = _
    unfold ClaimProtocol.Statement.exec
    rw [hallowed, if_neg Bool.false_ne_true]
    rfl
  have hperform : perform (claimJob false id session) w =
      some ((), { w with db := (w.db.claimJob session w.now id).2 }) := by
    have hnow : RemoteSync.exec (.inl .unixNow) w = some (w.now, w) := rfl
    exact (perform_stmt hnow _).trans (perform_stmt hexec _)
  have hrow := RowMoves.get_updateJobs w.db
    (fun k i => decide (k = id) && decide (i.status = .pending))
    (fun i => { i with status := .running, sessionId := some session, lockedBy := some session,
                       startedAt := some w.now }) hget
  refine ⟨_, _, hperform, hrow, ?_⟩
  rw [decide_eq_true rfl, Bool.true_and]
  by_cases hpending : j.status = .pending
  · rw [if_pos (decide_eq_true hpending)]
    exact ⟨rfl, .inr rfl⟩
  · rw [if_neg fun h => hpending (of_decide_eq_true h)]
    refine ⟨?_, .inl rfl⟩
    rcases hopen with ⟨hp, -⟩ | hrunning
    · exact absurd hp hpending
    · exact hrunning

theorem exec_verdict (owner : Owner) (status : TaskStatus) (session : String) (code : ℤ) (now : ℕ)
    {id : String} {w : World} {j : Job} (hget : w.db.jobs.get id = some j)
    (hrunning : j.status = .running) (hown : owner = .session → j.sessionId = some session) :
    ∃ n w' i, RemoteSync.exec (.inl (verdict owner status id session code now)) w = some (n, w') ∧
      0 < n ∧ w'.db.jobs.get id = some i ∧ i.status = jobStatus status ∧
      i.exitCode = some code := by
  have hq : decide (j.status = .running) = true := decide_eq_true hrunning
  cases owner with
  | session =>
    have hboth : (decide (j.status = .running) && decide (j.sessionId = some session)) = true := by
      rw [hq, decide_eq_true (hown rfl)]
      rfl
    cases status with
    | completed =>
      obtain ⟨hpos, hrow⟩ := exec_updateJobs (q := fun j =>
        decide (j.status = .running) && decide (j.sessionId = some session)) (f := fun j =>
        { j with status := .completed, exitCode := some code, outputHashes := some "",
                 completedAt := some now }) hget hboth
      exact ⟨_, _, _, rfl, hpos, hrow, rfl, rfl⟩
    | failed =>
      obtain ⟨hpos, hrow⟩ := exec_updateJobs (q := fun j =>
        decide (j.status = .running) && decide (j.sessionId = some session)) (f := fun j =>
        { j with status := .failed, exitCode := some code, completedAt := some now }) hget hboth
      exact ⟨_, _, _, rfl, hpos, hrow, rfl, rfl⟩
  | reconcile =>
    cases status with
    | completed =>
      obtain ⟨hpos, hrow⟩ := exec_updateJobs (q := fun j => decide (j.status = .running))
        (f := fun j => { j with status := .completed, exitCode := some code,
                                outputHashes := some "", completedAt := some now }) hget hq
      exact ⟨_, _, _, rfl, hpos, hrow, rfl, rfl⟩
    | failed =>
      obtain ⟨hpos, hrow⟩ := exec_updateJobs (q := fun j => decide (j.status = .running))
        (f := fun j => { j with status := .failed, exitCode := some code,
                                completedAt := some now }) hget hq
      exact ⟨_, _, _, rfl, hpos, hrow, rfl, rfl⟩

theorem perform_applyRecord {owner : Owner} {session : String} {record : TaskRecord} {w : World}
    {j : Job} (hget : w.db.jobs.get record.jobId = some j)
    (hopen : (j.status = .pending ∧ (w.db.sessions.get session).isSome) ∨
      (j.status = .running ∧ (owner = .session → j.sessionId = some session))) :
    ∃ w' i, perform (applyRecord owner session record ⟨false, false, false⟩) w = some (true, w') ∧
      w'.db.jobs.get record.jobId = some i ∧ i.status = jobStatus record.status ∧
      i.exitCode = some record.exitCodeOrDefault := by
  obtain ⟨w₁, i₁, hclaim, hget₁, hrunning, howner⟩ := perform_claimJob hget
    (hopen.imp_right And.left)
  have hown : owner = .session → i₁.sessionId = some session := by
    intro hsession
    rcases howner with rfl | hsome
    · rcases hopen with ⟨hpending, -⟩ | ⟨-, hsome⟩
      · rw [hpending] at hrunning
        cases hrunning
      · exact hsome hsession
    · exact hsome
  obtain ⟨n, w₂, i₂, hverdict, hpos, hget₂, hstatus, hcode⟩ := exec_verdict owner record.status
    session record.exitCodeOrDefault w₁.now hget₁ hrunning hown
  have hnow : RemoteSync.exec (.inl .unixNow) w₁ = some (w₁.now, w₁) := rfl
  have htimes : RemoteSync.exec
      (.inl (.setJobTimes record.startedAt record.endedAt record.jobId)) w₂ =
      some ((w₂.db.setJobTimes record.startedAt record.endedAt record.jobId).1,
        { w₂ with db := (w₂.db.setJobTimes record.startedAt record.endedAt record.jobId).2 }) := rfl
  have hany : (some n).any (0 < ·) = true := decide_eq_true hpos
  have hrow := RowMoves.get_updateJobs w₂.db (fun k i => decide (k = record.jobId) &&
    (decide (i.status = .completed) || decide (i.status = .failed)))
    (fun i => { i with startedAt := some record.startedAt, completedAt := some record.endedAt })
    hget₂
  refine ⟨{ w₂ with db := (w₂.db.setJobTimes record.startedAt record.endedAt record.jobId).2 }, _,
    ?_, hrow, ?_⟩
  · unfold applyRecord
    rw [perform_bind, hclaim]
    dsimp only [Option.bind_some]
    refine (perform_stmt hnow _).trans ?_
    refine (perform_stmt hverdict _).trans ?_
    dsimp only [Prog.bind, Function.comp_apply]
    rw [if_pos hany]
    exact perform_stmt htimes _
  · by_cases hp : (decide (record.jobId = record.jobId) &&
        (decide (i₂.status = .completed) || decide (i₂.status = .failed))) = true
    · rw [if_pos hp]
      exact ⟨hstatus, hcode⟩
    · rw [if_neg hp]
      exact ⟨hstatus, hcode⟩

theorem perform_reconcile (status : TaskStatus) (code : ℤ) {id : String} {w : World} {j : Job}
    (hget : w.db.jobs.get id = some j) (hrunning : j.status = .running) :
    ∃ b w' i, perform (reconcile false status id code) w = some (b, w') ∧
      w'.db.jobs.get id = some i ∧ i.status = jobStatus status ∧ i.exitCode = some code := by
  obtain ⟨n, w', i, hverdict, -, hafter⟩ :=
    exec_verdict .reconcile status "" code w.now hget hrunning nofun
  have hnow : RemoteSync.exec (.inl .unixNow) w = some (w.now, w) := rfl
  refine ⟨(some n).any (0 < ·), w', i, (perform_stmt hnow _).trans ?_, hafter⟩
  cases status with
  | completed | failed => exact perform_stmt hverdict _

theorem status_of_isTerminal {state : Text} (h : isTerminal state = true) :
    slurmStateToJobStatus state = .completed ∨
      (∃ reason, slurmStateToJobStatus state = .failed reason) ∨
      slurmStateToJobStatus state = .cancelled := by
  have hmem := List.contains_iff_mem.mp h
  simp only [SlurmPolling.terminalStates, List.mem_cons, List.not_mem_nil, or_false] at hmem
  rcases hmem with rfl | rfl | rfl | rfl | rfl | rfl | rfl | rfl | rfl | rfl
  · exact .inl rfl
  · exact .inr (.inl ⟨_, rfl⟩)
  · exact .inr (.inr rfl)
  · exact .inr (.inl ⟨_, rfl⟩)
  · exact .inr (.inl ⟨_, rfl⟩)
  · exact .inr (.inl ⟨_, rfl⟩)
  · exact .inr (.inl ⟨_, rfl⟩)
  · exact .inr (.inl ⟨_, rfl⟩)
  · exact .inr (.inr rfl)
  · exact .inr (.inr rfl)

theorem perform_program {a : Application β} (hfaults : a.faults = ⟨false, false, false⟩)
    {w : World} {id : String} (htarget : a.report.target = some id) (hopen : Open a w id)
    (hterminal : ∀ sync record, a.report = .sacct sync record → isTerminal record.state = true) :
    ∃ b w' i, perform (program a) w = some (b, w') ∧ w'.db.jobs.get id = some i ∧
      i.status = jobStatus a.report.verdict.1 ∧ i.exitCode = some a.report.verdict.2 := by
  obtain ⟨report, owner, session, _⟩ := a
  dsimp only at hfaults htarget hterminal
  subst hfaults
  obtain ⟨j, hget, hopen⟩ := hopen
  cases report with
  | task t h =>
    cases htarget
    have hready : (j.status = .pending ∧ (w.db.sessions.get session).isSome) ∨
        (j.status = .running ∧ (owner = .session → j.sessionId = some session)) := by
      cases owner with
      | session => exact hopen.imp_right fun hboth => ⟨hboth.1, fun _ => hboth.2⟩
      | reconcile => exact hopen.imp_right fun hrunning => ⟨hrunning, nofun⟩
    rw [← published_jobId t h] at hget
    obtain ⟨w', i, hperform, hafter⟩ := perform_applyRecord hget hready
    rw [published_jobId] at hafter
    refine ⟨true, w', i, ?_, hafter⟩
    dsimp only [program]
    rw [decode_runMeasured]
    exact hperform
  | sacct sync record =>
    have hrunning : j.status = .running := by
      cases owner <;> exact hopen
    have hstate := hterminal sync record rfl
    dsimp only [Report.target] at htarget
    have hprogram : ∀ status code, perform (do
        let _ ← (do
          let _ ← reconcile false status id code
          return () : Program Unit)
        return false) w =
        (perform (reconcile false status id code) w).map fun r => (false, r.2) := by
      intro status code
      rw [perform_bind, perform_bind]
      cases perform (reconcile false status id code) w <;> rfl
    dsimp only [program, applySacct, Report.verdict]
    rw [hstate, if_pos rfl, htarget]
    dsimp only
    rcases status_of_isTerminal hstate with hstatus | ⟨reason, hstatus⟩ | hstatus
    · rw [hstatus]
      obtain ⟨b, w', i, hperform, hafter⟩ :=
        perform_reconcile .completed record.exitCode hget hrunning
      exact ⟨false, w', i, by rw [hprogram, hperform]; rfl, hafter⟩
    · rw [hstatus]
      obtain ⟨b, w', i, hperform, hafter⟩ :=
        perform_reconcile .failed record.exitCode hget hrunning
      exact ⟨false, w', i, by rw [hprogram, hperform]; rfl, hafter⟩
    · rw [hstatus]
      obtain ⟨b, w', i, hperform, hafter⟩ := perform_reconcile .failed (-1) hget hrunning
      exact ⟨false, w', i, by rw [hprogram, hperform]; rfl, hafter⟩

def running (id : String) : World where
  db := ⟨⟨[(id, { Db.newRow ⟨id, "", "", none, none⟩ with status := .running })],
    List.nodup_singleton id⟩, .empty⟩
  now := 0

def alone (r : Report β) : Application β := ⟨r, .reconcile, "", ⟨false, false, false⟩⟩

theorem open_running (r : Report β) (id : String) : Open (alone r) (running id) id := by
  refine ⟨_, List.lookup_cons_self, ?_⟩
  cases r with
  | task => exact .inr rfl
  | sacct => rfl

theorem Lawful.verdict {r : Report β} (h : Lawful r) (hfailure : r.Failure) (id : String)
    (htarget : r.target = some id) (hterminal : ∀ sync record, r = .sacct sync record →
      isTerminal record.state = true) : r.verdict.1 = .failed ∧ r.verdict.2 ≠ 0 := by
  obtain ⟨b, _, j, hperform, hget, hstatus, _, hcode, hne⟩ :=
    h.fails hfailure (alone r) (running id) id rfl rfl htarget (open_running r id)
  obtain ⟨_, _, i, hperform', hget', hstatus', hcode'⟩ :=
    perform_program (a := alone r) rfl htarget (open_running r id) hterminal
  rw [hperform] at hperform'
  cases hperform'
  rw [hget] at hget'
  cases hget'
  rw [hcode] at hcode'
  cases hcode'
  rw [hstatus] at hstatus'
  refine ⟨?_, hne⟩
  cases hv : r.verdict.1 with
  | failed => rfl
  | completed =>
    change _ = jobStatus r.verdict.1 at hstatus'
    rw [hv] at hstatus'
    cases hstatus'

theorem perform_nonterminal {sync : SacctSync} {record : SacctRecord} (w : World)
    (h : ¬ isTerminal record.state = true) :
    perform (program (alone (Report.sacct (β := β) sync record))) w = some (false, w) := by
  dsimp only [program, alone, applySacct]
  rw [if_neg h]
  rfl

def oneOutput : Task := ⟨"train", ["model.bin"], .always⟩

/-- The command exits with code 0 and leaves no output. -/
def noOutput : Host Unit where
  launch := .exited 0 ""
  files _ := none
  os := ⟨fun _ _ => false, fun _ _ => ""⟩
  start := 1
  finish := 2
  wallTimeMs := 1000
  cpuTimeMs := none
  peakRssBytes := none
  nodeId := none
  hostname := "node"

def mappedRun : SacctSync := ⟨"run", [("train", 7)], []⟩

end OxyMake.TaskVerdicts
