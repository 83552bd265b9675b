import OxyMake.ClaimProtocol
import OxyMake.Watching

/-!
# `ox cancel` beside running sessions

`ox cancel` reads the running jobs, selects the jobs to cancel, stops the Ray
drivers of the selected jobs, moves the rows that are pending or running to
`cancelled`, and asks for the owner of each row that it saw running before, to
send its process SIGTERM. Each of these is a statement or a transaction of its
own, and any number of sessions claim, complete, fail and reset jobs in between.
-/

namespace OxyMake.CancelCommand

open StateDb PhysicalGraph Interleaving Watching Flood

/-- The two tables, the clock, and what the database says about remote drivers. -/
structure World where
  db : Db
  now : ℕ
  submissionId : String → Option String
  /-- Executor and dashboard address of the submission of a run. -/
  dagSubmission : String → Option (String × Option String)

/-- A job that was handed to a remote driver. -/
structure RemoteJobSubmission where
  jobId : String
  runId : String
  executor : String
  address : Option String
  submissionId : String
  status : JobStatus
  deriving DecidableEq

/-- The submission of a row, if its run was submitted and the job has a driver. -/
def remoteJobSubmission (w : World) (jobId : String) (j : Job) : Option RemoteJobSubmission := do
  let runId ← j.runId
  let (executor, address) ← w.dagSubmission runId
  let submissionId ← w.submissionId jobId
  return ⟨jobId, runId, executor, address, submissionId, j.status⟩

def remoteJobSubmissions (w : World) : List RemoteJobSubmission :=
  w.db.jobs.rows.filterMap fun (jobId, j) => remoteJobSubmission w jobId j

def runningJobsDetail (db : Db) : List String := db.jobs.select fun _ j => j.status = .running

def activeSessions (db : Db) : List (String × Session) :=
  db.sessions.rows.filter fun s => s.2.status = .active

/-- The process of the `active` session that owns a job. -/
def jobSessionPid (db : Db) (jobId : String) : Option ℕ := do
  let j ← db.jobs.get jobId
  let sessionId ← j.sessionId
  let s ← db.sessions.get sessionId
  if s.status = .active then some s.pid else none

/-- What `ox cancel` does besides the statements of sessions. -/
inductive CancelStatement : Type → Type
  | runningJobsDetail : CancelStatement (List String)
  | activeSessions : CancelStatement (List (String × Session))
  | remoteJobSubmissions : CancelStatement (List RemoteJobSubmission)
  | stopJob (address : Option String) (submissionId : String) : CancelStatement Unit
  | jobSessionPid (jobId : String) : CancelStatement (Option ℕ)
  | sendSigterm (pid : ℕ) : CancelStatement Unit

/-- Answer of a statement; stopping a driver and signalling a process change no table. -/
def CancelStatement.answer : {β : Type} → CancelStatement β → World → β
  | _, .runningJobsDetail, w => CancelCommand.runningJobsDetail w.db
  | _, .activeSessions, w => CancelCommand.activeSessions w.db
  | _, .remoteJobSubmissions, w => CancelCommand.remoteJobSubmissions w
  | _, .stopJob _ _, _ => ()
  | _, .jobSessionPid jobId, w => CancelCommand.jobSessionPid w.db jobId
  | _, .sendSigterm _, _ => ()

/-- A statement of a session or one of `ox cancel`. -/
abbrev Statement (β : Type) : Type := ClaimProtocol.Statement β ⊕ CancelStatement β

/-- Execute a statement of a session in the tables or one of `ox cancel`. -/
def exec {β : Type} : Statement β → World → Option (β × World)
  | .inl s, w => (s.exec ⟨w.db, w.now⟩).map fun (r, w') => (r, { w with db := w'.db })
  | .inr s, w => some (s.answer w, w)

inductive Outcome
  | session (outcome : ClaimProtocol.Outcome)
  | cancelled (ids : List String)
  deriving DecidableEq

abbrev Program (α : Type) := Prog Statement α

abbrev run {β : Type} (s : CancelStatement β) : Program β := Prog.exec (.inr s)

/-- The arguments of `ox cancel` that select jobs. -/
structure CancelArgs where
  /-- Jobs to cancel with their downstream dependents, by id or output path. -/
  names : List String
  all : Bool
  filters : List String
  rule : Option String
  session : Option ℕ
  deriving DecidableEq

/-- What the command meets outside `state.db`. -/
structure Surroundings where
  /-- The job graph of the Oxymakefile, unless it cannot be loaded. -/
  graph : Option JobGraph
  /-- The order in which a hash set lists its elements. -/
  order : List String → List String
  /-- A hash set lists its elements and nothing else. -/
  order_perm : ∀ ids, (order ids).Perm ids
  tagged : String → String → Bool

/-! ### Selecting by name -/

def targetKey : OutputRef → String
  | .file path => path
  | .virtual id _ => id
  | .inMemory typeHint => typeHint.getD "<memory>"

/-- Find the job that produces the given target, a job id or an output path. -/
def findTargetJob (g : JobGraph) (target : String) : Option JobId :=
  if (g.getJob target).isSome then some target
  else g.jobIds.find? fun id =>
    (g.getJob id).any fun job => job.outputs.any fun output => targetKey output = target

/-- Collect a job and all its transitive downstream dependents. -/
def downstreamClosure (g : JobGraph) (root : JobId) : List JobId :=
  flood g.downstream (fun _ => true) (g.jobIds.length + 1) [root] [root]

/-- Select jobs by name and include their downstream dependents. -/
def selectByNames (args : CancelArgs) (env : Surroundings) : Program (List String) :=
  match env.graph with
  | none => .err
  | some g =>
    match args.names.mapM (findTargetJob g) with
    | none => .err
    | some roots => return env.order (roots.flatMap (downstreamClosure g)).dedup

/-! ### Selecting by rule and session -/

/-- The session a number stands for: the first with that process, or else the one at that
place in the order of start. -/
def denotedSession (sessions : List (String × Session)) (num : ℕ) : Option String :=
  match sessions.find? fun s => s.2.pid = num with
  | some s => some s.1
  | none =>
    let sorted := sessions.insertionSort fun a b => a.2.startedAt ≤ b.2.startedAt
    if 1 ≤ num then sorted[num - 1]?.map (·.1) else none

/-- Resolve a number to the id of an active session. -/
def resolveSessionId : Option ℕ → Program (Option String)
  | none => return none
  | some num => do
    let sessions ← run .activeSessions
    match denotedSession sessions num with
    | some id => return some id
    | none => .err

def selectJobs (args : CancelArgs) (env : Surroundings) : Program (List String) :=
  if args.names ≠ [] then selectByNames args env
  else do
    let sessionId ← resolveSessionId args.session
    Prog.exec (.inl (.cancellableJobIds args.rule sessionId))

/-! ### Stopping remote drivers -/

def sameDriver (a b : RemoteJobSubmission) : Bool :=
  a.executor = b.executor && a.address = b.address && a.submissionId = b.submissionId

/-- Add the jobs of a driver that are not selected yet. -/
def addSiblings (job : RemoteJobSubmission) : List RemoteJobSubmission → List String → List String
  | [], selected => selected
  | other :: rest, selected =>
    addSiblings job rest <|
      if sameDriver job other && !(selected.contains other.jobId) then selected ++ [other.jobId]
      else selected

/-- Stop the driver of each selected Ray job once and select its other jobs. -/
def stopEach (jobs : List RemoteJobSubmission) :
    List RemoteJobSubmission → List (Option String × String) → List String →
    Program (List String)
  | [], _, selected => return selected
  | job :: rest, stopped, selected =>
    if job.executor ≠ "ray" || !(selected.contains job.jobId)
        || !(job.status = .pending || job.status = .running) then
      stopEach jobs rest stopped selected
    else if stopped.contains (job.address, job.submissionId) then
      stopEach jobs rest stopped selected
    else do
      run (.stopJob job.address job.submissionId)
      stopEach jobs rest ((job.address, job.submissionId) :: stopped)
        (addSiblings job jobs selected)

def stopSelected (selected : List String) : Program (List String) := do
  let jobs ← run .remoteJobSubmissions
  stopEach jobs jobs [] selected

/-! ### The command -/

/-- Send SIGTERM to the owners of the jobs that were running and are cancelled. -/
def signalOwners (cancelled : List String) : List String → Program Unit
  | [] => return ()
  | id :: rest =>
    if cancelled.contains id then do
      let pid ← run (.jobSessionPid id)
      match pid with
      | some pid => do
        run (.sendSigterm pid)
        signalOwners cancelled rest
      | none => signalOwners cancelled rest
    else signalOwners cancelled rest

def cmdCancel (args : CancelArgs) (env : Surroundings) : Program Outcome := do
  let runningBefore ← run .runningJobsDetail
  let selected ← selectJobs args env
  let selected ← stopSelected selected
  let cancelled ← lift Sum.inl (ClaimProtocol.cancelIds selected fun now =>
    .cancelJobIds now selected)
  signalOwners cancelled runningBefore
  return .cancelled cancelled

/-- What can be asked of the database: an operation of a session, or `ox cancel`. -/
inductive Operation
  | session (op : ClaimProtocol.Operation)
  | cancel (args : CancelArgs) (env : Surroundings)

def program (leaseSecs : ℕ) : Operation → Program Outcome
  | .session op => .session <$> lift Sum.inl (ClaimProtocol.program leaseSecs op)
  | .cancel args env => cmdCancel args env

/-- Sessions under one lease and any number of `ox cancel` over one `state.db`, with a clock
that never goes back and submissions that are recorded at any time. -/
def cancellers (leaseSecs : ℕ) : Machine Statement World Operation Outcome where
  exec := exec
  program := program leaseSecs
  drift w w' := w'.db = w.db ∧ w.now ≤ w'.now

/-- The shared database and the calls of all processes. -/
abbrev Cancellers := System Statement World Operation Outcome

abbrev Event := Executed Statement World Operation Outcome

end OxyMake.CancelCommand
