import OxyMake.Interleaving
import OxyMake.Observation
import OxyMake.StateDb

/-!
# The claim protocol as interleaved statements

Every operation of a session on `state.db` is a program of single statements
and whole transactions; between two of them any other session may run any of
its own. The clock is read by the programs where the source reads it, so a
statement can carry a time that has passed when it is executed. A statement
can also fail, and its call then returns the error.
-/

namespace OxyMake.ClaimProtocol

open StateDb Interleaving Observation

/-- The database and the clock all sessions read. -/
structure World where
  db : Db
  now : ℕ

/-- Clock readings, single SQL statements and whole transactions, with their answers. -/
inductive Statement : Type → Type
  | unixNow : Statement ℕ
  | jobRow (jobId : String) : Statement (Option JobRow)
  | sessionStartedAt (sessionId : String) : Statement (Option ℕ)
  | cancellableJobIds (rule sessionId : Option String) : Statement (List String)
  | registerJobs (jobs : List JobRecord) : Statement Unit
  | claimJob (sessionId : String) (now : ℕ) (jobId : String) : Statement ℕ
  | retryFailed (now : ℕ) (jobId sessionId : String) : Statement ℕ
  | completeJob (exitCode : ℤ) (outputHashes : String) (now : ℕ) (jobId sessionId : String) :
      Statement ℕ
  | failJob (exitCode : ℤ) (now : ℕ) (jobId sessionId : String) : Statement ℕ
  | reconcileCompleteJob (exitCode : ℤ) (outputHashes : String) (now : ℕ) (jobId : String) :
      Statement ℕ
  | reconcileFailJob (exitCode : ℤ) (now : ℕ) (jobId : String) : Statement ℕ
  | setJobTimes (startedAt completedAt : ℕ) (jobId : String) : Statement ℕ
  | skipJob (now : ℕ) (jobId : String) : Statement ℕ
  | excludeJob (jobId : String) : Statement ℕ
  | cancelJobIds (now : ℕ) (ids : List String) : Statement (List String)
  | cancelJobIdsForSession (now : ℕ) (ids : List String) (sessionId : String) :
      Statement (List String)
  | resetJobRow (jobId : String) (observed : JobRow) : Statement ℕ
  | reclaimJobsUnlessLive (sessionId : String) (cutoff : ℕ) : Statement ℕ
  | resetInactiveJobRows (ids : List String) (cutoff : ℕ) : Statement ℕ
  | createSession (id : String) (pid : ℕ) (hostname : String) (targetFilter : Option String)
      (now : ℕ) : Statement Unit
  | heartbeat (now : ℕ) (sessionId : String) : Statement ℕ
  | completeSession (sessionId : String) : Statement ℕ
  | interruptSession (sessionId : String) : Statement ℕ

namespace Statement

/-- Answer of a statement and the database it leaves. -/
def effect : {β : Type} → Statement β → World → β × Db
  | _, .unixNow, w => (w.now, w.db)
  | _, .jobRow jobId, w => (w.db.jobRow jobId, w.db)
  | _, .sessionStartedAt sessionId, w =>
    ((w.db.sessions.get sessionId).map (·.startedAt), w.db)
  | _, .cancellableJobIds rule sessionId, w => (w.db.cancellableJobIds rule sessionId, w.db)
  | _, .registerJobs jobs, w => ((), w.db.registerJobs jobs)
  | _, .claimJob sessionId now jobId, w => w.db.claimJob sessionId now jobId
  | _, .retryFailed now jobId sessionId, w => w.db.retryFailed now jobId sessionId
  | _, .completeJob exitCode outputHashes now jobId sessionId, w =>
    w.db.completeJob exitCode outputHashes now jobId sessionId
  | _, .failJob exitCode now jobId sessionId, w => w.db.failJob exitCode now jobId sessionId
  | _, .reconcileCompleteJob exitCode outputHashes now jobId, w =>
    w.db.reconcileCompleteJob exitCode outputHashes now jobId
  | _, .reconcileFailJob exitCode now jobId, w => w.db.reconcileFailJob exitCode now jobId
  | _, .setJobTimes startedAt completedAt jobId, w => w.db.setJobTimes startedAt completedAt jobId
  | _, .skipJob now jobId, w => w.db.skipJob now jobId
  | _, .excludeJob jobId, w => w.db.excludeJob jobId
  | _, .cancelJobIds now ids, w => w.db.cancelJobIds now ids
  | _, .cancelJobIdsForSession now ids sessionId, w =>
    w.db.cancelJobIdsForSession now ids sessionId
  | _, .resetJobRow jobId observed, w => w.db.resetJobRow jobId observed
  | _, .reclaimJobsUnlessLive sessionId cutoff, w => w.db.reclaimJobsUnlessLive sessionId cutoff
  | _, .resetInactiveJobRows ids cutoff, w => w.db.resetInactiveJobRows ids cutoff
  | _, .createSession id pid hostname targetFilter now, w =>
    ((), w.db.createSession id pid hostname targetFilter now)
  | _, .heartbeat now sessionId, w => w.db.heartbeat now sessionId
  | _, .completeSession sessionId, w => w.db.completeSession sessionId
  | _, .interruptSession sessionId, w => w.db.interruptSession sessionId

/-- A constraint of the schema refuses the statement: the owner of a claimed row has to
have a session row, and the key of a new session has to be fresh. -/
def refused : {β : Type} → Statement β → World → Bool
  | _, .claimJob sessionId _ jobId, w =>
    (w.db.jobs.get jobId).any (·.status = .pending) && (w.db.sessions.get sessionId).isNone
  | _, .createSession id _ _ _ _, w => (w.db.sessions.get id).isSome
  | _, _, _ => false

def exec {β : Type} (s : Statement β) (w : World) : Option (β × World) :=
  if s.refused w then none
  else some ((s.effect w).1, { w with db := (s.effect w).2 })

end Statement

inductive Outcome
  | claim (outcome : ClaimOutcome)
  | peer (state : PeerJobState)
  | changed (changed : Bool)
  | rows (rows : ℕ)
  | ids (ids : List String)
  | session (id : String)
  | done
  deriving DecidableEq

abbrev Program (α : Type) := Prog Statement α

abbrev run {β : Type} (s : Statement β) : Program β := Prog.exec s

/-! ### The claim of a job -/

def claimJob (jobId sessionId : String) : Program Bool := do
  let now ← run .unixNow
  let rows ← run (.claimJob sessionId now jobId)
  return 0 < rows

/-- Reset one row if it still is as it was observed. -/
def resetJobRow (jobId : String) (observed : JobRow) : Program Bool := do
  let rows ← run (.resetJobRow jobId observed)
  return 0 < rows

/-- Reclaim the `running` jobs of a session only if it is not live at the moment of the write. -/
def reclaimStaleJobsIfStale (sessionId : String) (cutoff : ℕ) : Program ℕ :=
  run (.reclaimJobsUnlessLive sessionId cutoff)

/-- Make the row of a job claimable again if its owner is not live. -/
def releaseIfOwnerDead (leaseSecs : ℕ) (jobId : String) (row : JobRow) : Program Bool := do
  let now ← run .unixNow
  if row.status = .pending then
    return true
  else if row.ownerLive leaseSecs now then
    return false
  else
    match row.status with
    | .running =>
      match row.sessionId with
      | some owner => do
        let reclaimed ← reclaimStaleJobsIfStale owner (now - leaseSecs)
        return 0 < reclaimed
      | none => resetJobRow jobId row
    | .completed | .skipped => return false
    | _ => resetJobRow jobId row

/-- A completion is a verdict of an earlier run, not a peer's result to consume. -/
def completionIsHistory (leaseSecs : ℕ) (row : JobRow) (sessionId : String) : Program Bool := do
  let now ← run .unixNow
  if row.ownerLive leaseSecs now then
    return false
  else
    let startedAt ← run (.sessionStartedAt sessionId)
    match row.completedAt, startedAt with
    | some completedAt, some startedAt => return completedAt ≤ startedAt
    | _, _ => return true

/-- The row of a job that could not be claimed at once may be released. -/
def releaseRow (leaseSecs : ℕ) (jobId sessionId : String) (row : JobRow) : Program Bool :=
  match row.status with
  | .completed | .skipped => do
    let history ← completionIsHistory leaseSecs row sessionId
    if history then resetJobRow jobId row else return false
  | _ => releaseIfOwnerDead leaseSecs jobId row

/-- Read the row again and name its owner to the loser. -/
def claimLost (jobId : String) (row : JobRow) : Program ClaimOutcome := do
  let again ← run (.jobRow jobId)
  return .lost ((again.bind (·.sessionId)).or row.sessionId)

/-- Release the row of somebody else if it may be, and try the claim once more. -/
def claimReleased (leaseSecs : ℕ) (jobId sessionId : String) (row : JobRow) :
    Program ClaimOutcome := do
  let released ← releaseRow leaseSecs jobId sessionId row
  if released then
    let claimed ← claimJob jobId sessionId
    if claimed then return .won else claimLost jobId row
  else claimLost jobId row

/-- Claim a job for a session as the scheduling gate. -/
def claimJobForSession (leaseSecs : ℕ) (jobId sessionId : String) : Program ClaimOutcome := do
  let claimed ← claimJob jobId sessionId
  if claimed then
    return .won
  else
    let row ← run (.jobRow jobId)
    match row with
    | none => return .won
    | some row =>
      if row.sessionId = some sessionId then
        match row.status with
        | .running => return .won
        | .failed => do
          let now ← run .unixNow
          let _ ← run (.retryFailed now jobId sessionId)
          return .won
        | _ => claimReleased leaseSecs jobId sessionId row
      else claimReleased leaseSecs jobId sessionId row

/-! ### The other operations -/

/-- What a row says to a waiting session, once its owner is known to be live or not. -/
def peerVerdict (leaseSecs : ℕ) (jobId : String) (row : JobRow) (live : Bool) :
    Program PeerJobState :=
  match row.status, live with
  | .pending, _ => return .unclaimed
  | .completed, _ | .skipped, _ => return .completed
  | .running, true => return .running
  | .failed, true => return .failed ((row.exitCode.filter (· ≠ 0)).getD 1)
  | .cancelled, true => return .cancelled
  | _, _ => do
    let _ ← releaseIfOwnerDead leaseSecs jobId row
    return .unclaimed

def peerJobState (leaseSecs : ℕ) (jobId : String) : Program PeerJobState := do
  let row ← run (.jobRow jobId)
  match row with
  | none => return .unclaimed
  | some row => do
    let now ← run .unixNow
    peerVerdict leaseSecs jobId row (row.ownerLive leaseSecs now)

/-- Reset the rows a session that is not live left behind. -/
def resetInactiveJobRows (leaseSecs : ℕ) (ids : List String) : Program ℕ :=
  if ids = [] then return 0
  else do
    let now ← run .unixNow
    run (.resetInactiveJobRows ids (now - leaseSecs))

def maxCutoff : ℕ := 2 ^ 63 - 1

/-- Cancel the rows of the filters that are running or pending when they are updated. -/
def cancelJobs (rule sessionId : Option String) : Program (List String) := do
  let cancellable ← run (.cancellableJobIds rule sessionId)
  if cancellable = [] then
    return []
  else
    let now ← run .unixNow
    let _ ← run (.cancelJobIds now cancellable)
    return cancellable

def cancelIds (ids : List String) (cancel : ℕ → Statement (List String)) :
    Program (List String) :=
  if ids = [] then return []
  else do
    let now ← run .unixNow
    run (cancel now)

/-- Run a statement that carries the time and tell whether it changed a row. -/
def changes (s : ℕ → Statement ℕ) : Program Bool := do
  let now ← run .unixNow
  let rows ← run (s now)
  return 0 < rows

/-- What a session can ask of the database. -/
inductive Operation
  | registerJobs (jobs : List JobRecord)
  | claimJob (jobId sessionId : String)
  | claimJobForSession (jobId sessionId : String)
  | peerJobState (jobId : String)
  | resetInactiveJobRows (ids : List String)
  | reclaimStaleJobsIfStale (sessionId : String)
  | reclaimStaleJobs (sessionId : String)
  | completeJob (jobId sessionId : String) (exitCode : ℤ) (outputHashes : String)
  | failJob (jobId sessionId : String) (exitCode : ℤ)
  | reconcileCompleteJob (jobId : String) (exitCode : ℤ) (outputHashes : String)
  | reconcileFailJob (jobId : String) (exitCode : ℤ)
  | setJobTimes (jobId : String) (startedAt completedAt : ℕ)
  | skipJob (jobId : String)
  | excludeJob (jobId : String)
  | cancelJobs (rule sessionId : Option String)
  | cancelJobIds (ids : List String)
  | cancelJobIdsForSession (ids : List String) (sessionId : String)
  | createSession (id : String) (pid : ℕ) (hostname : String) (targetFilter : Option String)
  | heartbeat (sessionId : String)
  | completeSession (sessionId : String)
  | interruptSession (sessionId : String)
  deriving DecidableEq

def program (leaseSecs : ℕ) : Operation → Program Outcome
  | .registerJobs jobs => do
    run (.registerJobs jobs)
    return .done
  | .claimJob jobId sessionId => .changed <$> claimJob jobId sessionId
  | .claimJobForSession jobId sessionId => .claim <$> claimJobForSession leaseSecs jobId sessionId
  | .peerJobState jobId => .peer <$> peerJobState leaseSecs jobId
  | .resetInactiveJobRows ids => .rows <$> resetInactiveJobRows leaseSecs ids
  | .reclaimStaleJobsIfStale sessionId => do
    let now ← run .unixNow
    .rows <$> reclaimStaleJobsIfStale sessionId (now - leaseSecs)
  | .reclaimStaleJobs sessionId => .rows <$> run (.reclaimJobsUnlessLive sessionId maxCutoff)
  | .completeJob jobId sessionId exitCode outputHashes =>
    .changed <$> changes fun now => .completeJob exitCode outputHashes now jobId sessionId
  | .failJob jobId sessionId exitCode =>
    .changed <$> changes fun now => .failJob exitCode now jobId sessionId
  | .reconcileCompleteJob jobId exitCode outputHashes =>
    .changed <$> changes fun now => .reconcileCompleteJob exitCode outputHashes now jobId
  | .reconcileFailJob jobId exitCode =>
    .changed <$> changes fun now => .reconcileFailJob exitCode now jobId
  | .setJobTimes jobId startedAt completedAt => do
    let rows ← run (.setJobTimes startedAt completedAt jobId)
    return .changed (0 < rows)
  | .skipJob jobId => .changed <$> changes fun now => .skipJob now jobId
  | .excludeJob jobId => do
    let rows ← run (.excludeJob jobId)
    return .changed (0 < rows)
  | .cancelJobs rule sessionId => .ids <$> cancelJobs rule sessionId
  | .cancelJobIds ids => .ids <$> cancelIds ids fun now => .cancelJobIds now ids
  | .cancelJobIdsForSession ids sessionId =>
    .ids <$> cancelIds ids fun now => .cancelJobIdsForSession now ids sessionId
  | .createSession id pid hostname targetFilter => do
    let now ← run .unixNow
    run (.createSession id pid hostname targetFilter now)
    return .session id
  | .heartbeat sessionId => do
    let now ← run .unixNow
    let _ ← run (.heartbeat now sessionId)
    return .done
  | .completeSession sessionId => do
    let _ ← run (.completeSession sessionId)
    return .done
  | .interruptSession sessionId => do
    let _ ← run (.interruptSession sessionId)
    return .done

/-- Sessions under one lease and a clock that never goes back. -/
def sessions (leaseSecs : ℕ) : Machine Statement World Operation Outcome where
  exec := Statement.exec
  program := program leaseSecs
  drift w w' := w'.db = w.db ∧ w.now ≤ w'.now

/-- The shared database and the calls of all sessions. -/
abbrev Sessions := System Statement World Operation Outcome

abbrev Event := Executed Statement World Operation Outcome

end OxyMake.ClaimProtocol
