import OxyMake.RowMoves
import OxyMake.Watching

/-!
# `ox clean` beside running sessions

`ox clean` looks for live sessions first, asks for a confirmation, and then
reclaims the jobs of stale sessions and empties the tables, or removes
`state.db` with `--all`. The look, the inventory, the prompt and each
destructive statement are separate steps, and any number of sessions start,
heartbeat, register and claim jobs in between. What the inventory of cache,
logs, event files and audit trail finds and what the user answers are given.
-/

namespace OxyMake.CleanCommand

open StateDb Interleaving Watching

/-- The file `state.db`, if it exists, and the clock. -/
structure World where
  state : Option Db
  now : ℕ

/-- The database that opening `state.db` gives: a missing file is created empty. -/
def World.db (w : World) : Db := w.state.getD Db.empty

/-- The flags of `ox clean` that decide what happens to `state.db`. -/
structure CleanArgs where
  dryRun : Bool
  cacheOnly : Bool
  stateOnly : Bool
  events : Bool
  all : Bool
  yes : Bool
  force : Bool
  json : Bool
  deriving DecidableEq

def CleanArgs.cleanState (args : CleanArgs) : Bool := !args.cacheOnly && !args.events

/-- What the command meets outside `state.db`. -/
structure Surroundings where
  directory : Bool
  /-- The cache, the logs, the event files or the audit trail have something to remove. -/
  otherActions : Bool
  proceed : Bool
  deriving DecidableEq

/-- Number of jobs in each status. -/
structure JobCounts where
  pending : ℕ
  running : ℕ
  completed : ℕ
  failed : ℕ
  skipped : ℕ

def jobCounts (db : Db) : JobCounts where
  pending := db.jobs.count fun _ j => j.status = .pending
  running := db.jobs.count fun _ j => j.status = .running
  completed := db.jobs.count fun _ j => j.status = .completed
  failed := db.jobs.count fun _ j => j.status = .failed
  skipped := db.jobs.count fun _ j => j.status = .skipped

def JobCounts.total (c : JobCounts) : ℕ :=
  c.pending + c.running + c.completed + c.failed + c.skipped

def activeSessions (db : Db) : List String :=
  db.sessions.select fun _ s => s.status = .active

/-- The `active` sessions whose heartbeat is older than the cutoff. -/
def findStaleSessions (db : Db) (cutoff : ℕ) : List String :=
  db.sessions.select fun _ s => s.status = .active && s.heartbeatAt < cutoff

/-- What `ox clean` does to the file and the clock besides the statements of sessions. -/
inductive CleanStatement : Type → Type
  | unixNow : CleanStatement ℕ
  | stateExists : CleanStatement Bool
  | jobCounts : CleanStatement JobCounts
  | activeSessions : CleanStatement (List String)
  | findStaleSessions (cutoff : ℕ) : CleanStatement (List String)
  | clearExecutionState : CleanStatement Unit
  | removeStateDb : CleanStatement Unit

/-- A statement of a session or one of `ox clean`. -/
abbrev Statement (β : Type) : Type := ClaimProtocol.Statement β ⊕ CleanStatement β

/-- Execute a statement; a file that is not there cannot be removed. -/
def CleanStatement.exec : {β : Type} → CleanStatement β → World → Option (β × World)
  | _, .unixNow, w => some (w.now, w)
  | _, .stateExists, w => some (w.state.isSome, w)
  | _, .jobCounts, w => some (CleanCommand.jobCounts w.db, { w with state := some w.db })
  | _, .activeSessions, w => some (CleanCommand.activeSessions w.db, { w with state := some w.db })
  | _, .findStaleSessions cutoff, w =>
    some (CleanCommand.findStaleSessions w.db cutoff, { w with state := some w.db })
  | _, .clearExecutionState, w => some ((), { w with state := some Db.empty })
  | _, .removeStateDb, w => if w.state.isSome then some ((), { w with state := none }) else none

/-- Execute a statement of a session in the database or one of `ox clean`. -/
def exec {β : Type} : Statement β → World → Option (β × World)
  | .inl s, w => (s.exec ⟨w.db, w.now⟩).map fun (r, w') => (r, { w with state := some w'.db })
  | .inr s, w => s.exec w

inductive Outcome
  | session (outcome : ClaimProtocol.Outcome)
  | clean
  deriving DecidableEq

abbrev Program (α : Type) := Prog Statement α

abbrev run {β : Type} (s : CleanStatement β) : Program β := Prog.exec (.inr s)

/-- Heartbeats older than this are stale for `ox clean`. -/
def staleThresholdSecs : ℕ := 300

def reclaimEach (cutoff : ℕ) : List String → Program Outcome → Program Outcome
  | [], rest => rest
  | sessionId :: ids, rest => do
    let _ ← Prog.exec (.inl (ClaimProtocol.Statement.reclaimJobsUnlessLive sessionId cutoff))
    reclaimEach cutoff ids rest

def execute (args : CleanArgs) (staleSessions staleJobs : ℕ) : Program Outcome :=
  if args.cleanState then do
    let present ← run .stateExists
    if present then
      if args.all then do
        run .removeStateDb
        return .clean
      else if 0 < staleSessions || 0 < staleJobs then do
        let now ← run .unixNow
        let stale ← run (.findStaleSessions (now - staleThresholdSecs))
        let now ← run .unixNow
        reclaimEach (now - staleThresholdSecs) stale do
          run .clearExecutionState
          return .clean
      else return .clean
    else return .clean
  else return .clean

/-- Report the planned actions, ask for the confirmation and go on. -/
def afterInventory (args : CleanArgs) (env : Surroundings) (staleSessions staleJobs : ℕ) :
    Program Outcome :=
  if !(args.cleanState && 0 < staleSessions) && !(args.cleanState && 0 < staleJobs)
      && !env.otherActions then return .clean
  else if args.dryRun then return .clean
  else if args.yes || args.json || env.proceed then execute args staleSessions staleJobs
  else return .clean

/-- Refuse to go on when an `active` session is not stale. -/
def guardLive (args : CleanArgs) (env : Surroundings) (totalJobs : ℕ)
    (sessions stale : List String) : Program Outcome :=
  if 0 < (sessions.filter (· ∉ stale)).length && !args.force && !args.dryRun then .err
  else afterInventory args env stale.length totalJobs

def checkSessions (args : CleanArgs) (env : Surroundings) (totalJobs : ℕ)
    (sessions : List String) : Program Outcome := do
  let now ← run .unixNow
  let stale ← run (.findStaleSessions (now - staleThresholdSecs))
  guardLive args env totalJobs sessions stale

/-- Remove stale state, orphan cache entries and temporary files. -/
def cmdClean (args : CleanArgs) (env : Surroundings) : Program Outcome :=
  if !env.directory then return .clean
  else if args.cleanState || args.events then do
    let present ← run .stateExists
    if present then do
      let counts ← run .jobCounts
      let sessions ← run .activeSessions
      checkSessions args env counts.total sessions
    else afterInventory args env 0 0
  else afterInventory args env 0 0

/-- What can be asked of the database: an operation of a session, or `ox clean`. -/
inductive Operation
  | session (op : ClaimProtocol.Operation)
  | clean (args : CleanArgs) (env : Surroundings)

def program (leaseSecs : ℕ) : Operation → Program Outcome
  | .session op => .session <$> lift Sum.inl (ClaimProtocol.program leaseSecs op)
  | .clean args env => cmdClean args env

/-- Sessions under one lease and any number of `ox clean` over one `state.db`, with a clock
that never goes back. -/
def cleaners (leaseSecs : ℕ) : Machine Statement World Operation Outcome where
  exec := exec
  program := program leaseSecs
  drift w w' := w'.state = w.state ∧ w.now ≤ w'.now

/-- The shared file and the calls of all processes. -/
abbrev Cleaners := System Statement World Operation Outcome

abbrev Event := Executed Statement World Operation Outcome

end OxyMake.CleanCommand
