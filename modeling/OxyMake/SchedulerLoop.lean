import OxyMake.Completion

/-!
# The scheduling loop

One iteration finds ready jobs, attempts to dispatch them, polls the jobs that
peer sessions own and applies the exit tests; it then waits for one of the
enabled arms. Whatever the scheduler does not decide itself is an input of the
iteration: hash enumeration orders, the clock, the answers of gate checker,
cache and claimer, pending signals, and the moments at which finished tasks
return their permits and resources. The task set holds one task per job in
flight, so that a join on it always yields a task.
-/

namespace OxyMake.SchedulerLoop

open PhysicalGraph Observation Admission SchedulingFrontier Completion

/-- What is fixed for the whole run. -/
structure Setup where
  graph : JobGraph
  topo : TopologicalOrder graph
  config : SchedulerConfig
  budget : ResourceBudget
  budgetIdle : ∀ key, budget.inUse key = 0
  /-- Normalized demand of each job; skipped and unbudgeted jobs demand nothing. -/
  demands : JobId → ResourceAmounts
  /-- Demands above the whole budget are refused before the run. -/
  demandsAdmitted : ∀ id, budget.Admits (demands id)
  cache : Bool
  gateChecker : Bool
  shutdown : Bool
  claimer : Bool
  executorName : ConcreteJob → String
  endpoint : ConcreteJob → Option String
  hashLine : String → ℕ

def Setup.policy (x : Setup) : Policy where
  graph := x.graph
  keepGoing := x.config.keepGoing
  rootCauseThreshold := x.config.rootCauseThreshold
  hashLine := x.hashLine
  endpoint := x.endpoint

/-- What the run remembers about gates. -/
structure GatesSeen where
  registered : List GateId
  announced : List GateId
  unregisteredAnnounced : List GateId

structure LoopState where
  frontier : Frontier
  inFlight : List JobId
  permitHeld : List JobId
  guardHeld : List JobId
  dispatchReasons : JobId → Option RunReason
  terminateRequested : Bool
  shutdownReceived : Bool
  shutdownSignalled : Bool
  hardKillArmed : Bool
  gatesSeen : GatesSeen
  /-- Jobs owned by a peer session, with the owner if it was reported. -/
  peerWaits : List (JobId × Option String)

/-- Inputs of one iteration before it waits. -/
structure Answers where
  drainOrder : List JobId → List JobId
  drainOrder_perm : ∀ ids, (drainOrder ids).Perm ids
  /-- Clock as the deadline of a job is checked. -/
  now : JobId → ℕ
  /-- Answer to the check of the numbered gate of a job. -/
  gate : JobId → ℕ → GateStatus
  /-- Answer of the cache: a hit, or the reason to run. -/
  check : JobId → Except RunReason Unit
  claim : JobId → ClaimOutcome
  /-- A shutdown signal is stored when the job is about to be dispatched. -/
  signalled : JobId → Bool
  /-- Tasks that returned their permit before the dispatch lock of a job. -/
  permitsDropped : JobId → List JobId
  /-- Tasks that returned their resources before the dispatch lock of a job. -/
  guardsDropped : JobId → List JobId
  peerOrder : List JobId → List JobId
  /-- The enumeration loses and repeats nothing. -/
  peerOrder_perm : ∀ ids, (peerOrder ids).Perm ids
  /-- What the shared state reports about a parked job. -/
  peer : JobId → PeerJobState
  /-- Clock as the outcome of a parked job is consumed. -/
  peerNow : JobId → ℕ

variable (x : Setup) (a : Answers)

/-- First job whose executor override cannot be honoured, with its rule and the
override; such a run is refused before it starts. -/
def refusedOverride : Option (String × String) :=
  (x.graph.jobIds.filter fun id => id ∉ x.config.skipJobs).findSome? fun id =>
    (x.graph.getJob id).bind fun job =>
      job.executor.bind fun value =>
        if value ≠ "local" ∨ x.executorName job ≠ "local" then some (job.rule, value) else none

def skippedPre : List JobId := x.config.skipJobs.filter fun id => id ∈ x.topo.order

def planEvents : List Event :=
  let notSelected := (skippedPre x).filter fun id => id ∈ x.config.notSelected
  .runStarted x.graph.jobCount (x.topo.order.length - (skippedPre x).length)
      ((skippedPre x).length - notSelected.length) ::
    (x.topo.order.filterMap fun id => (x.graph.getJob id).map fun job =>
      .jobPlanned id job.rule (x.graph.upstream id)) ++
    (skippedPre x).map fun id =>
      .jobSkipped id (if id ∈ x.config.notSelected then "not selected" else "cached")

def initial : LoopState where
  frontier := (Frontier.init x.topo.order x.graph x.config x.budget).note
    ((planEvents x).map .event)
  inFlight := []
  permitHeld := []
  guardHeld := []
  dispatchReasons := fun _ => none
  terminateRequested := false
  shutdownReceived := false
  shutdownSignalled := false
  hardKillArmed := false
  gatesSeen := ⟨[], [], []⟩
  peerWaits := []

/-- Accumulator of the search for ready jobs. -/
structure Search where
  frontier : Frontier
  ready : List JobId
  gateBlocked : List JobId
  gatesSeen : GatesSeen

/-- One drained job: dropped unless pending, put back before its deadline,
otherwise made ready or set aside for the gate check. -/
def drainOne (acc : Search) (id : JobId) : Search :=
  if acc.frontier.getStatus id ≠ some .pending then acc
  else if (acc.frontier.retryReadyAt id).any fun at' => a.now id < at' then
    { acc with frontier := acc.frontier.offer id }
  else
    let cleared := { acc.frontier with
      retryReadyAt := Function.update acc.frontier.retryReadyAt id none }
    if x.graph.blockingGates id = [] then
      { acc with frontier := cleared.setStatus id .ready, ready := acc.ready ++ [id] }
    else { acc with frontier := cleared, gateBlocked := acc.gateBlocked ++ [id] }

/-- Take a job's gates to the checker one by one. -/
def askGate (id : JobId) (acc : Search) (entry : GateId × ℕ) : Search :=
  let gate := entry.1
  let status := a.gate id entry.2
  let registered := if status ≠ .notFound then acc.gatesSeen.registered.insert gate
    else acc.gatesSeen.registered
  let registration := if gate ∈ acc.gatesSeen.registered then [] else [Obs.gateRegistered gate]
  let asked : Search := { acc with
    frontier := acc.frontier.note (registration ++ [.gateAnswered id gate status])
    gatesSeen := { acc.gatesSeen with registered := registered } }
  match status with
  | .approved | .rejected => asked
  | .notFound =>
    if gate ∈ acc.gatesSeen.unregisteredAnnounced then asked
    else { asked with
      frontier := asked.frontier.note [.event (.gateReached gate
        s!"gate record could not be registered (see the state database); {id} stays blocked and registration is retried every poll")]
      gatesSeen := { asked.gatesSeen with
        unregisteredAnnounced := gate :: acc.gatesSeen.unregisteredAnnounced } }
  | .pending =>
    if gate ∈ acc.gatesSeen.announced then asked
    else { asked with
      frontier := asked.frontier.note [.event (.gateReached gate
        s!"Waiting for approval to proceed with {id}")]
      gatesSeen := { asked.gatesSeen with announced := gate :: acc.gatesSeen.announced } }

def gateAnswers (id : JobId) : List GateStatus :=
  (x.graph.blockingGates id).zipIdx.map fun entry => a.gate id entry.2

/-- One gated job: its gates are asked, then it is cancelled, made ready or put back. -/
def checkGated (acc : Search) (id : JobId) : Search :=
  let gates := x.graph.blockingGates id
  let asked := gates.zipIdx.foldl (askGate a id) acc
  let f := asked.frontier
  if f.getStatus id ≠ some .pending then asked
  else if .rejected ∈ gateAnswers x a id then
    { asked with frontier :=
        (f.setStatus id .cancelled).note [.event (.jobCancelled id "gate rejected")] }
  else if ∀ status ∈ gateAnswers x a id, status = .approved then
    { asked with
      frontier := (f.note (gates.map fun gate =>
        .event (.gateApproved gate "gate-check"))).setStatus id .ready
      ready := asked.ready ++ [id] }
  else { asked with frontier := f.offer id }

/-- Without a checker a gated job is made ready. -/
def passGated (acc : Search) (id : JobId) : Search :=
  if acc.frontier.getStatus id = some .pending then
    { acc with frontier := acc.frontier.setStatus id .ready, ready := acc.ready ++ [id] }
  else acc

def priorityOf (id : JobId) : ℕ := ((x.graph.getJob id).bind ConcreteJob.priority).getD 0

/-- Drain the frontier, check gates and sort by descending priority. -/
def findReadyJobs (s : LoopState) : Search :=
  let drained := (a.drainOrder s.frontier.readyFrontier).foldl (drainOne x a)
    ⟨{ s.frontier with readyFrontier := [] }, [], [], s.gatesSeen⟩
  let checked := drained.gateBlocked.foldl
    (if x.gateChecker then checkGated x a else passGated) drained
  { checked with
    ready := checked.ready.insertionSort fun id id' => priorityOf x id' ≤ priorityOf x id }

/-- How the dispatch loop goes on after one job. -/
inductive Dispatched
  | next
  | skipped
  | halt
  deriving DecidableEq

/-- Cache lookup of an attempt and the reason it leaves behind. -/
def checkCache (id : JobId) (s : LoopState) : LoopState × Bool :=
  let answer : Except RunReason Unit := if x.cache then a.check id else .error .cacheDisabled
  let started := s.frontier.note
    (.attempt id :: if x.cache then [.cacheChecked id answer.isOk] else [])
  match answer with
  | .ok _ => ({ s with
      frontier := started
      dispatchReasons := Function.update s.dispatchReasons id none }, true)
  | .error reason => ({ s with
      frontier := started
      dispatchReasons := Function.update s.dispatchReasons id
        (some ((s.dispatchReasons id).getD reason)) }, false)

def ownerName (owner : Option String) : String := owner.getD "another session"

/-- Park a job behind the session that owns it. -/
def parkJob (id : JobId) (owner : Option String) (s : LoopState) : LoopState :=
  if s.frontier.getStatus id = some .ready then
    { s with
      frontier := (s.frontier.setStatus id .pending).note [.event (.executorMessage "scheduler"
        s!"{id} is being executed by {ownerName owner}; waiting for its result instead of running it here")]
      dispatchReasons := Function.update s.dispatchReasons id none
      peerWaits := (id, owner) :: s.peerWaits.filter fun entry => entry.1 ≠ id }
  else s

def releaseTasks (id : JobId) (s : LoopState) : LoopState :=
  let dropped := s.guardHeld.filter fun task => task ∈ a.guardsDropped id
  { s with
    permitHeld := s.permitHeld.filter fun task => task ∉ a.permitsDropped id
    guardHeld := s.guardHeld.filter fun task => task ∉ a.guardsDropped id
    frontier := { s.frontier with
      resourceBudget := dropped.foldl (fun budget task => budget.dropGuard (x.demands task))
        s.frontier.resourceBudget } }

def deferJob (f : Frontier) (id : JobId) : Frontier := (f.offer id).setStatus id .pending

def launchReason (id : JobId) (force : Bool) (observed : Option RunReason) : Option RunReason :=
  if force then some .upstreamRebuilt
  else if x.config.runReasons id = some .upstreamRebuilt then observed
  else x.config.runReasons id

/-- Commit a launch: acquire resources, mark the job running and spawn its task. -/
def launchJob (job : ConcreteJob) (id : JobId) (s : LoopState) : LoopState :=
  let f := s.frontier
  let force := decide (id ∈ f.forceRerun)
  let running := ({ f with resourceBudget := f.resourceBudget.acquireUnits (x.demands id) }).setStatus
    id .running
  { s with
    frontier := running.note [.event (.jobStarted id (x.executorName job)
      (launchReason x id force (s.dispatchReasons id)) (x.endpoint job)), .launched id]
    dispatchReasons := Function.update s.dispatchReasons id none
    inFlight := s.inFlight.insert id
    permitHeld := id :: s.permitHeld
    guardHeld := id :: s.guardHeld }

/-- The dispatch lock: skip, defer, stop or launch. The remaining jobs start
with the current one. -/
def commitDispatch (job : ConcreteJob) (id : JobId) (cached : Bool) (remaining : List JobId)
    (s : LoopState) : LoopState × Dispatched :=
  let f := s.frontier
  if f.getStatus id ≠ some .ready then (s, .next)
  else if cached ∧ id ∉ f.forceRerun then
    let skipped := (f.setStatus id .skipped).promoteDownstream x.graph id
    ({ s with frontier := skipped.note [.event (.jobSkipped id "cached")] }, .skipped)
  else if f.resourceBudget.fitsUnits (x.demands id) = false then
    ({ s with frontier := deferJob f id }, .next)
  else if x.config.maxJobs ≤ s.permitHeld.length then
    ({ s with frontier := remaining.foldl deferJob f }, .halt)
  else (launchJob x job id s, .next)

/-- Claim of an attempt; a cache hit needs no claim. -/
def claimJob (id : JobId) (cached : Bool) (s : LoopState) : LoopState × Option ClaimOutcome :=
  if !cached && x.claimer then
    ({ s with frontier := s.frontier.note [.claimed id (a.claim id)] }, some (a.claim id))
  else (s, none)

def dispatchJob (remaining : List JobId) (id : JobId) (s : LoopState) : LoopState × Dispatched :=
  match x.graph.getJob id with
  | none => (s, .next)
  | some job =>
    let (checked, cached) := checkCache x a id s
    match claimJob x a id cached checked with
    | (claimed, some (.lost owner)) => (parkJob id owner claimed, .next)
    | (claimed, _) =>
      if x.shutdown && a.signalled id then
        ({ claimed with shutdownSignalled := true, terminateRequested := true }, .halt)
      else commitDispatch x job id cached remaining (releaseTasks x a id claimed)

/-- Attempt the ready jobs in order until the loop has to halt. -/
def dispatchLoop : List JobId → LoopState → Bool → LoopState × Bool
  | [], s, skipped => (s, skipped)
  | id :: rest, s, skipped =>
    match dispatchJob x a (id :: rest) id s with
    | (s', .next) => dispatchLoop rest s' skipped
    | (s', .skipped) => dispatchLoop rest s' true
    | (s', .halt) => (s', skipped)

def unparkJob (id : JobId) (s : LoopState) : LoopState :=
  { s with peerWaits := s.peerWaits.filter fun entry => entry.1 ≠ id }

/-- Completion message built from the outcome of a peer session. -/
def peerCompletion (job : ConcreteJob) (owner : String) (exitCode : ℤ) : CompletionMsg where
  job := job
  result := {
    exitCode := exitCode
    durationMs := 0
    peakMemoryBytes := none
    cpuTimeMs := none
    stderrTail := if exitCode ≠ 0 then
        some s!"job failed in peer session {owner} (exit code {exitCode})"
      else none }
  outputsChanged := true
  now := a.peerNow job.id

/-- Handle a completion and record a committed success in the cache. -/
def consume (msg : CompletionMsg) (s : LoopState) : LoopState :=
  let delivered := s.frontier.note [.delivered msg.job.id msg.result.exitCode]
  let handled := handleCompletion x.policy msg s.terminateRequested delivered
  { s with
    frontier := if handled.committed && decide (msg.result.exitCode = 0) && x.cache then
        handled.frontier.note [.recorded msg.job.id]
      else handled.frontier
    terminateRequested := handled.terminateRequested }

def pollPeer (acc : LoopState × Bool) (id : JobId) : LoopState × Bool :=
  let s := acc.1
  if s.frontier.getStatus id ≠ some .pending then (unparkJob id s, acc.2)
  else
    match x.graph.getJob id with
    | none => (unparkJob id s, acc.2)
    | some job =>
      let owner := ownerName ((s.peerWaits.lookup id).join)
      match a.peer id with
      | .running => acc
      | .unclaimed =>
        ({ unparkJob id s with frontier := s.frontier.offer id }, true)
      | .completed => (consume x (peerCompletion a job owner 0) (unparkJob id s), true)
      | .failed exitCode =>
        (consume x (peerCompletion a job owner exitCode) (unparkJob id s), true)
      | .cancelled =>
        ({ unparkJob id s with
          frontier := cancelDownstream x.graph id ((s.frontier.setStatus id .cancelled).note
            [.event (.jobCancelled id s!"cancelled by peer session {owner}")]) }, true)

/-- Poll every parked job; report whether one changed state. -/
def pollPeerWaits (s : LoopState) : LoopState × Bool :=
  (a.peerOrder (s.peerWaits.map Prod.fst)).foldl (pollPeer x a) (s, false)

/-- Cancel the remaining pending and ready jobs in identifier order. -/
def cancelRemaining (s : LoopState) : LoopState :=
  let toCancel := x.graph.jobIds.filter fun id =>
    s.frontier.getStatus id = some .pending ∨ s.frontier.getStatus id = some .ready
  { s with frontier := toCancel.foldl (fun f id => (f.setStatus id .cancelled).note
      [.event (.jobCancelled id "run terminated due to failure")]) s.frontier }

/-- Where a run stands between two inputs. -/
inductive Point
  | head (s : LoopState)
  | waiting (s : LoopState) (skippedThisIter : Bool)
  | returned (s : LoopState)
  | aborted (s : LoopState)

def Point.state : Point → LoopState
  | .head s | .waiting s _ | .returned s | .aborted s => s

def allTerminal (s : LoopState) : Bool :=
  x.topo.order.all fun id => terminal (s.frontier.getStatus id)

/-- Some job of the run is pending or ready. -/
def hasPending (s : LoopState) : Bool :=
  x.topo.order.any fun id =>
    s.frontier.getStatus id = some .pending ∨ s.frontier.getStatus id = some .ready

/-- Arm the escalation when a cancelled job is still in flight. -/
def armHardKill (s : LoopState) : LoopState :=
  { s with hardKillArmed := s.hardKillArmed ||
      s.inFlight.any fun id => s.frontier.getStatus id = some .cancelled }

def countStatus (s : LoopState) (holds : JobLifecycle → Bool) : ℕ :=
  x.topo.order.countP fun id => (s.frontier.getStatus id).any holds

def finishRun (s : LoopState) : LoopState :=
  { s with frontier := s.frontier.note [.event (.runCompleted x.graph.jobCount
      (countStatus x s fun st => st = .succeeded)
      (countStatus x s fun st => st matches .failed _)
      (countStatus x s fun st => st = .skipped)
      (countStatus x s fun st => st = .cancelled))] }

def exitTests (s : LoopState) (skipped : Bool) : Point :=
  if allTerminal x s ∧ s.inFlight = [] then .returned (finishRun x s)
  else if s.terminateRequested ∧ s.inFlight = [] then
    .returned (finishRun x (cancelRemaining x s))
  else if hasPending x s = false ∧ s.inFlight = [] then .returned (finishRun x s)
  else .waiting (armHardKill s) skipped

def dispatchPhase (s : LoopState) : LoopState × Bool :=
  let found := findReadyJobs x a s
  let dispatched := dispatchLoop x a found.ready
    { s with frontier := found.frontier, gatesSeen := found.gatesSeen } false
  if x.claimer ∧ dispatched.1.peerWaits ≠ [] then
    let polled := pollPeerWaits x a dispatched.1
    (polled.1, dispatched.2 || polled.2)
  else dispatched

/-- One iteration up to the point where it waits or returns. -/
def pass (s : LoopState) : Point :=
  let entered := { s with frontier := s.frontier.note [.pass] }
  if entered.terminateRequested then exitTests x entered false
  else
    let phased := dispatchPhase x a entered
    exitTests x phased.1 phased.2

inductive Arm
  | again
  | interrupted (order : List JobId)
  | stopped
  | polled
  | retryElapsed
  | completed (msg : CompletionMsg)
  | taskFailed (id : JobId)
  | hardKill

/-- A retry deadline of a pending job is set. -/
def retryPending (s : LoopState) : Bool :=
  x.topo.order.any fun id =>
    decide (s.frontier.getStatus id = some .pending) && (s.frontier.retryReadyAt id).isSome

/-- Mark every job in flight as cancelled, then ask the executor to stop them. -/
def interrupt (order : List JobId) (s : LoopState) : LoopState :=
  let marked := order.foldl (fun f id => f.setStatus id .cancelled) s.frontier
  { s with
    frontier := marked.note (order.flatMap fun id =>
      [.event (.jobCancelled id "run interrupted"), .cancelRequested id])
    shutdownReceived := true
    terminateRequested := true
    hardKillArmed := true }

/-- The task of a job has returned everything it held. -/
def joinTask (id : JobId) (s : LoopState) : LoopState :=
  { s with
    inFlight := s.inFlight.filter (· ≠ id)
    permitHeld := s.permitHeld.filter (· ≠ id)
    guardHeld := s.guardHeld.filter (· ≠ id)
    frontier := { s.frontier with
      resourceBudget := (s.guardHeld.filter (· = id)).foldl
        (fun budget task => budget.dropGuard (x.demands task)) s.frontier.resourceBudget } }

/-- Take one enabled arm of the wait; a disabled arm gives no next point. -/
def await (s : LoopState) (skipped : Bool) : Arm → Option Point
  | .again => if s.inFlight = [] ∧ skipped then some (.head s) else none
  | .interrupted order =>
    if s.inFlight ≠ [] ∧ (x.shutdown ∨ s.shutdownSignalled) ∧ s.shutdownReceived = false ∧
        order.Perm s.inFlight then
      some (.head (interrupt order s))
    else none
  | .stopped =>
    if s.inFlight = [] ∧ skipped = false ∧ x.shutdown ∧ s.shutdownReceived = false then
      some (.head { s with shutdownReceived := true, terminateRequested := true })
    else none
  | .polled =>
    if s.inFlight ≠ [] then
      if s.peerWaits ≠ [] ∧ s.terminateRequested = false then some (.head s) else none
    else if skipped = false then some (.head s) else none
  | .retryElapsed =>
    if (s.inFlight ≠ [] ∨ skipped = false) ∧ s.terminateRequested = false ∧ retryPending x s then
      some (.head s)
    else none
  | .completed msg =>
    if msg.job.id ∈ s.inFlight ∧ x.graph.getJob msg.job.id = some msg.job then
      some (.head (consume x msg (joinTask x msg.job.id s)))
    else none
  | .taskFailed id =>
    if id ∈ s.inFlight then
      some (.aborted { s with frontier := s.frontier.note (s.inFlight.map .cancelRequested) })
    else none
  | .hardKill =>
    if s.inFlight ≠ [] ∧ s.hardKillArmed then
      some (.head { s with
        frontier := s.frontier.note (s.inFlight.map .killRequested)
        hardKillArmed := false })
    else none

/-- What the end of a wait can do. -/
inductive Awaited (s : LoopState) (skipped : Bool) : Arm → Point → Prop
  | again : s.inFlight = [] → skipped = true → Awaited s skipped .again (.head s)
  | polled : (s.inFlight ≠ [] ∧ s.peerWaits ≠ [] ∧ s.terminateRequested = false) ∨
      (s.inFlight = [] ∧ skipped = false) → Awaited s skipped .polled (.head s)
  | retryElapsed : s.inFlight ≠ [] ∨ skipped = false → s.terminateRequested = false →
      retryPending x s = true → Awaited s skipped .retryElapsed (.head s)
  | interrupted {order : List JobId} : s.inFlight ≠ [] →
      x.shutdown = true ∨ s.shutdownSignalled = true → s.shutdownReceived = false →
      order.Perm s.inFlight → Awaited s skipped (.interrupted order) (.head (interrupt order s))
  | stopped : s.inFlight = [] → skipped = false → x.shutdown = true → s.shutdownReceived = false →
      Awaited s skipped .stopped
        (.head { s with shutdownReceived := true, terminateRequested := true })
  | completed {msg : CompletionMsg} : msg.job.id ∈ s.inFlight →
      x.graph.getJob msg.job.id = some msg.job →
      Awaited s skipped (.completed msg) (.head (consume x msg (joinTask x msg.job.id s)))
  | taskFailed {id : JobId} : id ∈ s.inFlight →
      Awaited s skipped (.taskFailed id)
        (.aborted { s with frontier := s.frontier.note (s.inFlight.map .cancelRequested) })
  | hardKill : s.inFlight ≠ [] → s.hardKillArmed = true →
      Awaited s skipped .hardKill
        (.head { s with
          frontier := s.frontier.note (s.inFlight.map .killRequested)
          hardKillArmed := false })

theorem await_cases {s : LoopState} {skipped : Bool} {arm : Arm} {q : Point}
    (h : await x s skipped arm = some q) : Awaited x s skipped arm q := by
  cases arm <;> simp only [await] at h
  case polled =>
    split at h
    · next hf =>
      split at h
      · next hg => cases h; exact .polled (.inl ⟨hf, hg.1, hg.2⟩)
      · cases h
    · next hf =>
      split at h
      · next hg => cases h; exact .polled (.inr ⟨not_not.mp hf, hg⟩)
      · cases h
  all_goals
    split at h
    · next hg =>
      cases h
      first
        | exact .again hg.1 hg.2
        | exact .interrupted hg.1 hg.2.1 hg.2.2.1 hg.2.2.2
        | exact .stopped hg.1 hg.2.1 hg.2.2.1 hg.2.2.2
        | exact .retryElapsed hg.1 hg.2.1 hg.2.2
        | exact .completed hg.1 hg.2
        | exact .taskFailed hg
        | exact .hardKill hg.1 hg.2
    · cases h

theorem pass_waiting {s : LoopState} (h : (pass x a s).state.inFlight ≠ []) :
    ∃ skipped, pass x a s = .waiting (pass x a s).state skipped := by
  have hexit : ∀ (m : LoopState) (skipped : Bool), (exitTests x m skipped).state.inFlight ≠ [] →
      ∃ skipped', exitTests x m skipped = .waiting (exitTests x m skipped).state skipped' := by
    intro m skipped hm
    unfold exitTests at hm ⊢
    split at hm
    · next hall => exact absurd hall.2 hm
    · split at hm
      · next hstop => exact absurd hstop.2 hm
      · split at hm
        · next hnone => exact absurd hnone.2 hm
        · next h1 h2 h3 => exact ⟨skipped, by rw [if_neg h1, if_neg h2, if_neg h3]; rfl⟩
  unfold pass at h ⊢
  dsimp only at h ⊢
  split at h
  · next hstop =>
    rw [if_pos hstop]
    exact hexit _ _ h
  · next hgoing =>
    rw [if_neg hgoing]
    exact hexit _ _ h

/-- Restriction of the inputs of a run, given the state they meet. -/
structure Conduct where
  pass : LoopState → Answers → Prop
  await : LoopState → Arm → Prop

def Conduct.free : Conduct := ⟨fun _ _ => True, fun _ _ => True⟩

/-- Points a run can reach. -/
inductive Reachable (c : Conduct) : Point → Prop
  | start : refusedOverride x = none → Reachable c (.head (initial x))
  | pass {s : LoopState} {a : Answers} : Reachable c (.head s) → c.pass s a →
      Reachable c (pass x a s)
  | await {s : LoopState} {skipped : Bool} {arm : Arm} {p : Point} :
      Reachable c (.waiting s skipped) → c.await s arm → await x s skipped arm = some p →
      Reachable c p

def Setup.plain (graph : JobGraph) (topo : TopologicalOrder graph) (config : SchedulerConfig) :
    Setup where
  graph := graph
  topo := topo
  config := config
  budget := ⟨[], fun _ => 0⟩
  budgetIdle := fun _ => rfl
  demands := fun _ => []
  demandsAdmitted := fun _ _ h => absurd h (List.not_mem_nil)
  cache := false
  gateChecker := false
  shutdown := false
  claimer := false
  executorName := fun _ => "local"
  endpoint := fun _ => none
  hashLine := fun _ => 0

def Answers.plain : Answers where
  drainOrder := id
  drainOrder_perm := fun _ => .rfl
  now := fun _ => 0
  gate := fun _ _ => .approved
  check := fun _ => .error .cacheMiss
  claim := fun _ => .won
  signalled := fun _ => false
  permitsDropped := fun _ => []
  guardsDropped := fun _ => []
  peerOrder := id
  peerOrder_perm := fun _ => .rfl
  peer := fun _ => .running
  peerNow := fun _ => 0

end OxyMake.SchedulerLoop
