import Mathlib.Logic.Function.Basic
import OxyMake.PhysicalGraph

/-!
# Job lifecycle, external answers and observations of a run

The vocabulary shared by the scheduler and the services it consults: the
lifecycle of a job, the answers of gate checker, cache and claimer, the events
sent to reporters, and the observations that record what a run did in order.
-/

namespace OxyMake.Observation

open PhysicalGraph

/-- Status of a job during scheduling. -/
inductive JobLifecycle
  | pending
  | ready
  | running
  | succeeded
  | failed (message : String)
  | skipped
  | cancelled
  deriving DecidableEq, Repr

/-- The job has reached a terminal state. -/
@[grind =]
def JobLifecycle.isTerminal : JobLifecycle → Bool
  | .succeeded | .failed _ | .skipped | .cancelled => true
  | .pending | .ready | .running => false

/-- A terminal state that releases the downstream jobs. -/
@[grind =]
def JobLifecycle.isSatisfied : JobLifecycle → Bool
  | .succeeded | .skipped => true
  | _ => false

/-- A terminal state that must reach the downstream jobs as a cancellation. -/
@[grind =]
def JobLifecycle.isBroken : JobLifecycle → Bool
  | .failed _ | .cancelled => true
  | _ => false

/-- The recorded status is terminal; an absent status is not. -/
def terminal (status : Option JobLifecycle) : Bool := status.any JobLifecycle.isTerminal

def satisfied (status : Option JobLifecycle) : Bool := status.any JobLifecycle.isSatisfied

/-- The recorded status is a failure or a cancellation. -/
def broken (status : Option JobLifecycle) : Bool := status.any JobLifecycle.isBroken

def unfinished (status : Option JobLifecycle) : Bool := status.any fun st => !st.isTerminal

@[simp, grind =] theorem terminal_none : terminal none = false := rfl
@[simp, grind =] theorem terminal_some (st : JobLifecycle) : terminal (some st) = st.isTerminal := rfl
@[simp, grind =] theorem satisfied_none : satisfied none = false := rfl
@[simp, grind =] theorem satisfied_some (st : JobLifecycle) : satisfied (some st) = st.isSatisfied := rfl
@[simp, grind =] theorem broken_none : broken none = false := rfl
@[simp, grind =] theorem broken_some (st : JobLifecycle) : broken (some st) = st.isBroken := rfl
@[simp, grind =] theorem unfinished_none : unfinished none = false := rfl
@[simp, grind =] theorem unfinished_some (st : JobLifecycle) : unfinished (some st) = !st.isTerminal := rfl

theorem terminal_of_satisfied {status : Option JobLifecycle} (h : satisfied status = true) :
    terminal status = true := by
  cases status with
  | none => cases h
  | some st => cases st <;> simp_all [JobLifecycle.isSatisfied, JobLifecycle.isTerminal]

theorem satisfied_or_broken {status : Option JobLifecycle} (h : terminal status = true) :
    satisfied status = true ∨ broken status = true := by
  cases status with
  | none => cases h
  | some st =>
    cases st <;> simp_all [JobLifecycle.isSatisfied, JobLifecycle.isTerminal,
      JobLifecycle.isBroken]

/-- Answer of the gate checker. -/
inductive GateStatus
  | approved
  | pending
  | rejected
  | notFound
  deriving DecidableEq, Repr

inductive ClaimOutcome
  | won
  | lost (owner : Option String)
  deriving DecidableEq, Repr

/-- What the shared state records about a job owned by a peer session. -/
inductive PeerJobState
  | running
  | completed
  | failed (exitCode : ℤ)
  | cancelled
  | unclaimed
  deriving DecidableEq, Repr

/-- Why a job has to execute. -/
inductive RunReason
  | cacheMiss
  | outputMissing (path : String)
  | outputStale (path : String)
  | upstreamRebuilt
  | cacheDisabled
  | notCacheable
  | forced
  deriving DecidableEq, Repr

/-- Events the scheduler emits, with the data it puts into them. Wall-clock
durations of the run and the declared resources are left out. -/
inductive Event
  | runStarted (totalJobs toRun cached : ℕ)
  | jobPlanned (jobId : JobId) (rule : String) (dependencies : List JobId)
  | jobStarted (jobId : JobId) (executor : String) (reason : Option RunReason)
      (endpoint : Option String)
  | jobCompleted (jobId : JobId) (durationMs : ℕ) (outputs : List String)
      (peakMemoryBytes cpuTimeMs : Option ℕ) (endpoint : Option String)
  | jobFailed (jobId : JobId) (errorMessage : String) (exitCode : Option ℤ)
      (stderrTail : Option String)
  | jobSkipped (jobId : JobId) (reason : String)
  | jobCancelled (jobId : JobId) (reason : String)
  | gateReached (gateId : GateId) (message : String)
  | gateApproved (gateId : GateId) (approvedBy : String)
  | rootCauseDetected (rootCause : String) (failureCount : ℕ) (jobIds : List JobId)
  | executorMessage (executor message : String)
  | runCompleted (total succeeded failed skipped cancelled : ℕ)
  deriving DecidableEq, Repr

/-- One thing a run did: a status write, an emitted event, or a call to a
service together with its answer. -/
inductive Obs
  | status (jobId : JobId) (status : JobLifecycle)
  | event (event : Event)
  | pass
  | gateRegistered (gateId : GateId)
  | gateAnswered (jobId : JobId) (gateId : GateId) (status : GateStatus)
  | attempt (jobId : JobId)
  | cacheChecked (jobId : JobId) (hit : Bool)
  | claimed (jobId : JobId) (outcome : ClaimOutcome)
  | launched (jobId : JobId)
  | delivered (jobId : JobId) (exitCode : ℤ)
  | recorded (jobId : JobId)
  | cancelRequested (jobId : JobId)
  | killRequested (jobId : JobId)
  deriving DecidableEq, Repr

def Obs.write? : Obs → Option (JobId × JobLifecycle)
  | .status id st => some (id, st)
  | _ => none

def writes (log : List Obs) : List (JobId × JobLifecycle) := log.filterMap Obs.write?

@[simp] theorem writes_nil : writes [] = [] := rfl

@[simp] theorem writes_append (a b : List Obs) : writes (a ++ b) = writes a ++ writes b :=
  List.filterMap_append

@[simp] theorem writes_cons_status (id : JobId) (st : JobLifecycle) (log : List Obs) :
    writes (.status id st :: log) = (id, st) :: writes log := rfl

def replay {J : Type*} [DecidableEq J] (statuses : J → Option JobLifecycle)
    (ws : List (J × JobLifecycle)) : J → Option JobLifecycle :=
  ws.foldl (fun current write => Function.update current write.1 (some write.2)) statuses

end OxyMake.Observation
