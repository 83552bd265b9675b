import Mathlib.Data.Int.Notation
import OxyMake.RowMoves
import OxyMake.SlurmPolling
import OxyMake.Watching

/-!
# Synchronisation of a remote run

`ox status` copies the outcomes that a remote executor recorded for the jobs of
a run into `state.db`. For Ray it reads the ids of the run's rows first and
then claims and terminalises the rows of the task records and of the driver's
results; for SLURM it terminalises the rows of the jobs in the run's mapping as
`sacct` reports them. Rows are addressed by job id alone. A statement whose
error the source ignores may fail and the synchronisation goes on. History rows
and the event log are left out.
-/

namespace OxyMake.RemoteSync

open StateDb Interleaving Watching
open ClaimProtocol (World)
open SacctRecords (SacctRecord)
open SlurmPolling (isTerminal slurmStateToJobStatus)

/-! ### Records of the executors -/

inductive TaskStatus
  | completed | failed
  deriving DecidableEq

/-- A task's record, as written by the Ray driver. -/
structure TaskRecord where
  jobId : String
  status : TaskStatus
  exitCode : Option ℤ
  startedAt : ℕ
  endedAt : ℕ

def TaskRecord.exitCodeOrDefault (r : TaskRecord) : ℤ :=
  match r.status, r.exitCode with
  | _, some code => code
  | .completed, none => 0
  | .failed, none => 1

/-- An entry of the driver's `results.json`. -/
structure ResultInfo where
  status : Option String
  exitCode : Option ℤ

/-- Which of the statements for a job fail. -/
structure Faults where
  claim : Bool
  settle : Bool
  times : Bool
  deriving DecidableEq

/-! ### Programs -/

/-- The read of the synchronisation. -/
inductive SyncStatement : Type → Type
  | jobIdsForRun (runId : String) : SyncStatement (List String)

/-- A statement of a session or the read of the synchronisation. -/
abbrev Statement (β : Type) : Type := ClaimProtocol.Statement β ⊕ SyncStatement β

/-- Ids of the rows that belong to a run. -/
def jobIdsForRun (db : Db) (runId : String) : List String :=
  db.jobs.select fun _ j => j.runId = some runId

def exec {β : Type} : Statement β → World → Option (β × World)
  | .inl s, w => s.exec w
  | .inr (.jobIdsForRun runId), w => some (RemoteSync.jobIdsForRun w.db runId, w)

inductive Outcome
  | session (outcome : ClaimProtocol.Outcome)
  | synced
  deriving DecidableEq

abbrev Program (α : Type) := Prog Statement α

abbrev run {β : Type} (s : ClaimProtocol.Statement β) : Program β := Prog.exec (.inl s)

def attempt {β : Type} (fails : Bool) (s : ClaimProtocol.Statement β) : Program (Option β) :=
  if fails then return none else some <$> run s

/-- Claim a job for the synchronising session, if it is still `pending`. -/
def claimJob (fails : Bool) (jobId session : String) : Program Unit := do
  let now ← run .unixNow
  let _ ← attempt fails (.claimJob session now jobId)
  return ()

/-- Terminalise a `running` row whoever runs it and tell whether it was. -/
def reconcile (fails : Bool) (status : TaskStatus) (jobId : String) (exitCode : ℤ) :
    Program Bool := do
  let now ← run .unixNow
  let rows ← attempt fails (match status with
    | .completed => .reconcileCompleteJob exitCode "" now jobId
    | .failed => .reconcileFailJob exitCode now jobId)
  return rows.any (0 < ·)

def applyRecord (session : String) (record : TaskRecord) (faults : Faults) : Program Unit := do
  claimJob faults.claim record.jobId session
  let terminalised ←
    reconcile faults.settle record.status record.jobId record.exitCodeOrDefault
  if terminalised then do
    let _ ← attempt faults.times (.setJobTimes record.startedAt record.endedAt record.jobId)
    return ()
  else return ()

def apply (session : String) : List (TaskRecord × Faults) → Program Unit
  | [] => return ()
  | (record, faults) :: records => do
    applyRecord session record faults
    apply session records

def applyResult (session jobId : String) (info : ResultInfo) (faults : Faults) : Program Unit :=
  let exitCode := (info.exitCode.getD 1).bmod (2 ^ 32)
  if info.status = some "completed" then do
    claimJob faults.claim jobId session
    let _ ← reconcile faults.settle .completed jobId exitCode
    return ()
  else if info.status = some "failed" then do
    claimJob faults.claim jobId session
    let _ ← reconcile faults.settle .failed jobId exitCode
    return ()
  else return ()

/-- Apply the driver's results to the rows of the run without a task record. -/
def applyResults (session : String) (current recorded : List String) :
    List (String × ResultInfo × Faults) → Program Unit
  | [] => return ()
  | (jobId, info, faults) :: results => do
    if jobId ∈ current ∧ jobId ∉ recorded then applyResult session jobId info faults
    applyResults session current recorded results

/-- What the Ray synchronisation finds on disk, and the session it opens. -/
structure DriverSync where
  runId : String
  session : String
  pid : ℕ
  records : List (TaskRecord × Faults)
  /-- The entries of `results.json`, in the order of the iteration. -/
  results : List (String × ResultInfo × Faults)
  closeFails : Bool

/-- Reconcile the run once its current rows are known. -/
def syncCurrent (a : DriverSync) (current : List String) : Program Outcome :=
  let records := a.records.filter (·.1.jobId ∈ current)
  if records = [] ∧ a.results = [] then return .synced
  else do
    let now ← run .unixNow
    run (.createSession a.session a.pid "ray-results-sync" none now)
    apply a.session records
    applyResults a.session current (records.map (·.1.jobId)) a.results
    let _ ← attempt a.closeFails (.completeSession a.session)
    return .synced

/-- Reconcile a Ray run with the records and results of its driver. -/
def syncResultsFromDriver (a : DriverSync) : Program Outcome := do
  let current ← Prog.exec (.inr (.jobIdsForRun a.runId))
  syncCurrent a current

/-- What the SLURM synchronisation is given. -/
structure SacctSync where
  runId : String
  jobMapping : List (String × ℕ)
  records : List (SacctRecord × Bool)

/-- The job of a SLURM job; the last entry of the mapping counts. -/
def SacctSync.slurmToOx (a : SacctSync) (slurmId : ℕ) : Option String :=
  (a.jobMapping.reverse.find? (·.2 = slurmId)).map (·.1)

/-- Copy one terminal state to the row of its job. -/
def applySacct (a : SacctSync) (record : SacctRecord) (fails : Bool) : Program Unit :=
  if isTerminal record.state then
    match a.slurmToOx record.jobId with
    | none => return ()
    | some oxId =>
      match slurmStateToJobStatus record.state with
      | .completed => do
        let _ ← reconcile fails .completed oxId record.exitCode
        return ()
      | .failed _ => do
        let _ ← reconcile fails .failed oxId record.exitCode
        return ()
      | .cancelled => do
        let _ ← reconcile fails .failed oxId (-1)
        return ()
      | _ => return ()
  else return ()

def applySaccts (a : SacctSync) : List (SacctRecord × Bool) → Program Outcome
  | [] => return .synced
  | (record, fails) :: records => do
    applySacct a record fails
    applySaccts a records

/-- Reconcile a SLURM run with the states `sacct` reports. -/
def syncResultsFromSacct (a : SacctSync) : Program Outcome :=
  if a.jobMapping = [] then return .synced else applySaccts a a.records

/-- What can be asked of the database. -/
inductive Operation
  | session (op : ClaimProtocol.Operation)
  | driver (a : DriverSync)
  | sacct (a : SacctSync)

def program (leaseSecs : ℕ) : Operation → Program Outcome
  | .session op => .session <$> lift Sum.inl (ClaimProtocol.program leaseSecs op)
  | .driver a => syncResultsFromDriver a
  | .sacct a => syncResultsFromSacct a

def syncs (leaseSecs : ℕ) : Machine Statement World Operation Outcome where
  exec := exec
  program := program leaseSecs
  drift w w' := w'.db = w.db ∧ w.now ≤ w'.now

/-- The shared database and the calls of all processes. -/
abbrev Syncs := System Statement World Operation Outcome

abbrev Event := Executed Statement World Operation Outcome

end OxyMake.RemoteSync
