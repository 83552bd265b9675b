import Mathlib.Data.Int.Notation
import Mathlib.Data.List.Dedup
import OxyMake.KeyedTable

/-!
# The job and session rows of `state.db`

Sessions share a database with one row for each job and one for each session.
This module gives the rows and the effect of every statement of `db.rs`,
`claim.rs` and `session.rs` that writes them: a statement rewrites the rows its
`WHERE` clause selects and reports how many there were. Several statements
inside one `BEGIN IMMEDIATE` transaction are one function here. Integers are
natural numbers, so `saturating_sub` is subtraction.
-/

namespace OxyMake.StateDb

open KeyedTable

/-- The values the `CHECK` constraint of `jobs.status` admits. -/
inductive JobStatus
  | pending | running | completed | failed | skipped | cancelled
  deriving DecidableEq, Repr

/-- The values the `CHECK` constraint of `sessions.status` admits. -/
inductive SessionStatus
  | active | completed | interrupted
  deriving DecidableEq, Repr

/-- A row of the `jobs` table, without its key. -/
structure Job where
  ruleName : String
  wildcards : String
  status : JobStatus
  sessionId : Option String
  /-- The session that took the row, as the claim wrote it. -/
  lockedBy : Option String
  cacheKey : Option String
  startedAt : Option ℕ
  /-- When the row reached its terminal status, in UNIX seconds. -/
  completedAt : Option ℕ
  exitCode : Option ℤ
  outputHashes : Option String
  cached : Bool
  runId : Option String
  deriving DecidableEq, Repr

/-- A row of the `sessions` table, without its key. -/
structure Session where
  pid : ℕ
  hostname : String
  startedAt : ℕ
  targetFilter : Option String
  heartbeatAt : ℕ
  status : SessionStatus
  deriving DecidableEq, Repr

/-- What `register_jobs` is given for a job. -/
structure JobRecord where
  id : String
  ruleName : String
  wildcards : String
  cacheKey : Option String
  runId : Option String
  deriving DecidableEq, Repr

/-- What the `jobs` row of a job and its owner's session row say. -/
structure JobRow where
  status : JobStatus
  sessionId : Option String
  exitCode : Option ℤ
  completedAt : Option ℕ
  /-- Status and heartbeat of the owning session, when its row exists. -/
  owner : Option (SessionStatus × ℕ)
  deriving DecidableEq, Repr

/-- The owner is an `active` session whose heartbeat is younger than the lease. -/
def JobRow.ownerLive (row : JobRow) (leaseSecs now : ℕ) : Bool :=
  match row.owner with
  | some (status, heartbeatAt) => status = .active && now - heartbeatAt < leaseSecs
  | none => false

structure Db where
  jobs : Table String Job
  sessions : Table String Session
  deriving DecidableEq

namespace Db

def empty : Db := ⟨Table.empty, Table.empty⟩

/-- Run an `UPDATE` of the `jobs` table and report the number of affected rows. -/
def updateJobs (db : Db) (p : String → Job → Bool) (f : Job → Job) : ℕ × Db :=
  (db.jobs.count p, { db with jobs := db.jobs.update p f })

/-- Run an `UPDATE` of the `sessions` table and report the number of affected rows. -/
def updateSessions (db : Db) (p : String → Session → Bool) (f : Session → Session) : ℕ × Db :=
  (db.sessions.count p, { db with sessions := db.sessions.update p f })

/-! ### Reading -/

/-- Read a job row together with its owner's session status and heartbeat. -/
def jobRow (db : Db) (jobId : String) : Option JobRow :=
  (db.jobs.get jobId).map fun j =>
    let owner := j.sessionId.bind db.sessions.get
    { status := j.status
      sessionId := j.sessionId
      exitCode := j.exitCode
      completedAt := j.completedAt
      owner := owner.map fun s => (s.status, s.heartbeatAt) }

/-- An `active` session with a heartbeat younger than the cutoff. -/
def liveSession (db : Db) (sessionId : String) (cutoff : ℕ) : Bool :=
  match db.sessions.get sessionId with
  | some s => s.status = .active && cutoff < s.heartbeatAt
  | none => false

/-- The row belongs to an `active` session with a heartbeat younger than the cutoff. -/
def liveOwner (db : Db) (cutoff : ℕ) (j : Job) : Bool :=
  match j.sessionId with
  | some s => db.liveSession s cutoff
  | none => false

def cancellableJobIds (db : Db) (rule sessionId : Option String) : List String :=
  db.jobs.select fun _ j =>
    (j.status = .running || j.status = .pending)
      && rule.all (j.ruleName = ·) && sessionId.all fun s => j.sessionId = some s

/-! ### Registering and claiming -/

def newRow (r : JobRecord) : Job where
  ruleName := r.ruleName
  wildcards := r.wildcards
  status := .pending
  sessionId := none
  lockedBy := none
  cacheKey := r.cacheKey
  startedAt := none
  completedAt := none
  exitCode := none
  outputHashes := none
  cached := false
  runId := r.runId

/-- Insert a job as `pending`; a row that exists only gets the new run. -/
def registerJob (db : Db) (r : JobRecord) : Db :=
  { db with jobs := db.jobs.upsert r.id (newRow r) fun j => { j with runId := r.runId } }

def registerJobs (db : Db) (jobs : List JobRecord) : Db := jobs.foldl registerJob db

def claimJob (db : Db) (sessionId : String) (now : ℕ) (jobId : String) : ℕ × Db :=
  db.updateJobs (fun id j => id = jobId && j.status = .pending) fun j =>
    { j with status := .running, sessionId := some sessionId, lockedBy := some sessionId,
             startedAt := some now }

def retryFailed (db : Db) (now : ℕ) (jobId sessionId : String) : ℕ × Db :=
  db.updateJobs (fun id j => id = jobId && (j.sessionId = some sessionId && j.status = .failed))
    fun j => { j with status := .running, startedAt := some now, completedAt := none,
                      exitCode := none }

/-! ### Recording outcomes -/

/-- Record the completion of a row the session runs. -/
def completeJob (db : Db) (exitCode : ℤ) (outputHashes : String) (now : ℕ)
    (jobId sessionId : String) : ℕ × Db :=
  db.updateJobs (fun id j => id = jobId && (j.status = .running && j.sessionId = some sessionId))
    fun j => { j with status := .completed, exitCode := some exitCode,
                      outputHashes := some outputHashes, completedAt := some now }

/-- Record the failure of a row the session runs. -/
def failJob (db : Db) (exitCode : ℤ) (now : ℕ) (jobId sessionId : String) : ℕ × Db :=
  db.updateJobs (fun id j => id = jobId && (j.status = .running && j.sessionId = some sessionId))
    fun j => { j with status := .failed, exitCode := some exitCode, completedAt := some now }

/-- Record the completion of a `running` row whoever runs it. -/
def reconcileCompleteJob (db : Db) (exitCode : ℤ) (outputHashes : String) (now : ℕ)
    (jobId : String) : ℕ × Db :=
  db.updateJobs (fun id j => id = jobId && j.status = .running) fun j =>
    { j with status := .completed, exitCode := some exitCode,
             outputHashes := some outputHashes, completedAt := some now }

/-- Record the failure of a `running` row whoever runs it. -/
def reconcileFailJob (db : Db) (exitCode : ℤ) (now : ℕ) (jobId : String) : ℕ × Db :=
  db.updateJobs (fun id j => id = jobId && j.status = .running) fun j =>
    { j with status := .failed, exitCode := some exitCode, completedAt := some now }

def setJobTimes (db : Db) (startedAt completedAt : ℕ) (jobId : String) : ℕ × Db :=
  db.updateJobs (fun id j => id = jobId && (j.status = .completed || j.status = .failed)) fun j =>
    { j with startedAt := some startedAt, completedAt := some completedAt }

def skippable (j : Job) : Bool :=
  j.status = .pending || j.status = .completed || j.status = .skipped

def skipJob (db : Db) (now : ℕ) (jobId : String) : ℕ × Db :=
  db.updateJobs (fun id j => id = jobId && skippable j) fun j =>
    { j with status := .completed, cached := true, completedAt := some now }

/-- Record that the job selection left the job out. -/
def excludeJob (db : Db) (jobId : String) : ℕ × Db :=
  db.updateJobs (fun id j => id = jobId && skippable j) fun j =>
    { j with status := .skipped, cached := false, startedAt := none, completedAt := none,
             exitCode := none }

/-- Cancel the row of each id that satisfies a condition, in one transaction, and list the
ids that were. -/
def cancelEach (p : Job → Bool) (now : ℕ) : List String → Db → List String × Db
  | [], db => ([], db)
  | jobId :: ids, db =>
    let (affected, db) := db.updateJobs (fun id j => id = jobId && p j) fun j =>
      { j with status := .cancelled, completedAt := some now }
    let (cancelled, db) := cancelEach p now ids db
    (if 0 < affected then jobId :: cancelled else cancelled, db)

/-- Cancel the `running` and `pending` rows among some ids. -/
def cancelJobIds (db : Db) (now : ℕ) (ids : List String) : List String × Db :=
  cancelEach (fun j => j.status = .running || j.status = .pending) now ids db

/-- Cancel the unclaimed rows among some ids and those a session runs. -/
def cancelJobIdsForSession (db : Db) (now : ℕ) (ids : List String) (sessionId : String) :
    List String × Db :=
  cancelEach (fun j => j.status = .pending ||
    (j.status = .running && j.sessionId = some sessionId)) now ids db

/-! ### Resetting and reclaiming -/

def resetRow (j : Job) : Job :=
  { j with status := .pending, sessionId := none, lockedBy := none, startedAt := none,
           completedAt := none, exitCode := none, outputHashes := none, cached := false }

/-- Reset one row, if its status and owner are still the observed ones. -/
def resetJobRow (db : Db) (jobId : String) (observed : JobRow) : ℕ × Db :=
  db.updateJobs
    (fun id j => id = jobId && (j.status = observed.status && j.sessionId = observed.sessionId))
    resetRow

/-- Reset the `running` rows of a session unless it is live, and close it if its heartbeat
is at or before the cutoff. -/
def reclaimJobsUnlessLive (db : Db) (sessionId : String) (cutoff : ℕ) : ℕ × Db :=
  let (reclaimed, db') := db.updateJobs
    (fun _ j => j.sessionId = some sessionId && j.status = .running
      && !db.liveSession sessionId cutoff)
    fun j => { j with status := .pending, sessionId := none, lockedBy := none, startedAt := none }
  let (_, db'') := db'.updateSessions
    (fun id s => id = sessionId && (s.status = .active && s.heartbeatAt ≤ cutoff))
    fun s => { s with status := .interrupted }
  (reclaimed, db'')

def idChunk : ℕ := 500

/-- The owners without a live session of the `running` rows among some ids. -/
def deadOwners (db : Db) (ids : List String) (cutoff : ℕ) : List String :=
  (db.jobs.rows.filterMap fun (id, j) =>
    if id ∈ ids ∧ j.status = .running ∧ ¬ db.liveOwner cutoff j then j.sessionId else none).dedup

def reclaimOwners (cutoff : ℕ) : List String → ℕ × Db → ℕ × Db
  | [], acc => acc
  | owner :: owners, (reset, db) =>
    let (reclaimed, db) := db.reclaimJobsUnlessLive owner cutoff
    reclaimOwners cutoff owners (reset + reclaimed, db)

/-- Reset the rows of one chunk of ids that no live session owns. -/
def resetInactiveChunk (cutoff : ℕ) (acc : ℕ × Db) (chunk : List String) : ℕ × Db :=
  let (reset, db) := reclaimOwners cutoff (acc.2.deadOwners chunk cutoff) acc
  let (others, db) := db.updateJobs
    (fun id j => id ∈ chunk &&
      (!(j.status = .pending || j.status = .completed || j.status = .skipped)
        && !db.liveOwner cutoff j))
    resetRow
  (reset + others, db)

/-- Reset the rows among some ids that no live session owns. -/
def resetInactiveJobRows (db : Db) (ids : List String) (cutoff : ℕ) : ℕ × Db :=
  (ids.toChunks idChunk).foldl (resetInactiveChunk cutoff) (0, db)

/-! ### Sessions -/

def createSession (db : Db) (id : String) (pid : ℕ) (hostname : String)
    (targetFilter : Option String) (now : ℕ) : Db :=
  let row : Session := ⟨pid, hostname, now, targetFilter, now, .active⟩
  { db with sessions := db.sessions.upsert id row fun s => s }

def heartbeat (db : Db) (now : ℕ) (sessionId : String) : ℕ × Db :=
  db.updateSessions (fun id s => id = sessionId && s.status = .active) fun s =>
    { s with heartbeatAt := now }

def completeSession (db : Db) (sessionId : String) : ℕ × Db :=
  db.updateSessions (fun id s => id = sessionId && s.status = .active) fun s =>
    { s with status := .completed }

def interruptSession (db : Db) (sessionId : String) : ℕ × Db :=
  db.updateSessions (fun id _ => id = sessionId) fun s => { s with status := .interrupted }

end Db

end OxyMake.StateDb
