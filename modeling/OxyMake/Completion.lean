import OxyMake.SchedulingFrontier

/-!
# Handling one completion

The scheduler commits a completion under the error strategy of its rule: it
satisfies the downstream jobs, offers the job again after a delay, or records
the failure and cancels what lies behind it. Completions of jobs that were
cancelled while running are discarded.
-/

namespace OxyMake.Completion

open PhysicalGraph Observation SchedulingFrontier

/-- Report of the executor, or of a peer session, about one attempt. -/
structure JobResult where
  exitCode : ℤ
  durationMs : ℕ
  peakMemoryBytes : Option ℕ
  cpuTimeMs : Option ℕ
  stderrTail : Option String
  deriving DecidableEq, Repr

/-- Message of a finished attempt. -/
structure CompletionMsg where
  job : ConcreteJob
  result : JobResult
  /-- Outcome of comparing output hashes before and after the attempt. -/
  outputsChanged : Bool
  now : ℕ
  deriving DecidableEq, Repr

def isWhitespace (c : Char) : Bool :=
  decide (9 ≤ c.toNat ∧ c.toNat ≤ 13) || decide (8192 ≤ c.toNat ∧ c.toNat ≤ 8202) ||
    decide (c.toNat ∈ [32, 133, 160, 5760, 8232, 8233, 8239, 8287, 12288])

def trim (line : List Char) : List Char :=
  (((line.dropWhile isWhitespace).reverse).dropWhile isWhitespace).reverse

/-- Last line of a stderr tail that is not blank. -/
def extractLastNonemptyLine (stderrTail : Option String) : Option String :=
  stderrTail.bind fun tail =>
    ((((tail.toList.splitOn '\n').reverse).map trim).find? (· ≠ [])).map String.ofList

/-- Identifiers of the last failures when their hashes agree. -/
def checkRootCause (recent : List (ℕ × JobId)) (threshold : ℕ) : Option (List JobId) :=
  if threshold = 0 ∨ recent.length < threshold then none
  else
    let tail := recent.drop (recent.length - threshold)
    match tail with
    | [] => none
    | (target, _) :: _ =>
      if tail.all fun entry => entry.1 = target then some (tail.map Prod.snd) else none

/-- Delay before the next attempt in milliseconds; the product wraps at 64 bits. -/
def backoffDelay : Backoff → ℕ → ℕ
  | .constant, _ => 1000
  | .linear, attempt => 1000 * attempt % 2 ^ 64
  | .exponential, attempt => 1000 * min (2 ^ (attempt - 1)) (2 ^ 64 - 1) % 2 ^ 64

def outputNames (job : ConcreteJob) : List String :=
  job.outputs.map fun
    | .file path => path
    | .virtual id _ => id
    | .inMemory typeHint => typeHint.getD "<memory>"

/-- Worklist of a cancellation. Pending and ready jobs are withdrawn, running
jobs are asked to stop, finished jobs end the propagation. -/
def cancelLoop (g : JobGraph) (failedId : JobId) :
    ℕ → List JobId → List JobId → Frontier → Frontier
  | 0, _, _, f => f
  | _ + 1, [], _, f => f
  | fuel + 1, id :: toCancel, visited, f =>
    if id ∈ visited then cancelLoop g failedId fuel toCancel visited f
    else
      let further := (g.downstream id).reverse ++ toCancel
      let event := Obs.event (.jobCancelled id s!"upstream job {failedId} failed")
      match f.getStatus id with
      | some .pending | some .ready =>
        cancelLoop g failedId fuel further (id :: visited)
          (((f.setStatus id .cancelled).withdraw id).note [event])
      | some .running =>
        cancelLoop g failedId fuel further (id :: visited)
          ((f.setStatus id .cancelled).note [event, .cancelRequested id])
      | _ => cancelLoop g failedId fuel toCancel (id :: visited) f

/-- Number of pops a cancellation can need: one per worklist entry. -/
def cancelFuel (g : JobGraph) (failedId : JobId) : ℕ :=
  (g.downstream failedId).length + (g.jobIds.map fun id => (g.downstream id).length).sum + 1

def cancelDownstream (g : JobGraph) (failedId : JobId) (f : Frontier) : Frontier :=
  cancelLoop g failedId (cancelFuel g failedId) (g.downstream failedId).reverse [failedId] f

/-- Frontier, termination request and whether a success was committed. -/
structure Handled where
  frontier : Frontier
  terminateRequested : Bool
  committed : Bool

/-- Static parameters of completion handling. -/
structure Policy where
  graph : JobGraph
  keepGoing : Bool
  rootCauseThreshold : ℕ
  hashLine : String → ℕ
  endpoint : ConcreteJob → Option String

variable (p : Policy)

/-- Commit a success: force the consumers of changed outputs and promote them. -/
def commitSuccess (msg : CompletionMsg) (outputs : List String) (f : Frontier) : Frontier :=
  let completed := (f.note [.event (.jobCompleted msg.job.id msg.result.durationMs outputs
    msg.result.peakMemoryBytes msg.result.cpuTimeMs (p.endpoint msg.job))]).setStatus
      msg.job.id .succeeded
  let forced := if msg.outputsChanged then
      { completed with
        forceRerun := (p.graph.downstream msg.job.id).foldl (fun set dep => set.insert dep)
          completed.forceRerun }
    else completed
  forced.promoteDownstream p.graph msg.job.id

def scheduleRetry (msg : CompletionMsg) (count : ℕ) (backoff : Backoff) (attempt : ℕ)
    (f : Frontier) : Frontier :=
  let offered := ((f.setStatus msg.job.id .pending).offer msg.job.id).note
    [.event (.jobFailed msg.job.id
      s!"exit code {msg.result.exitCode} (attempt {attempt}/{count}, retrying)"
      (some msg.result.exitCode) msg.result.stderrTail)]
  if 0 < backoffDelay backoff attempt then
    { offered with retryReadyAt :=
        Function.update offered.retryReadyAt msg.job.id (some (msg.now + backoffDelay backoff attempt)) }
  else offered

/-- Root cause to report after the failure of a job with a given last line. -/
def rootCauseOf (threshold : ℕ) (rootCause : Option RootCause) (recent : List (ℕ × JobId))
    (lastLine : Option String) : Option RootCause :=
  if rootCause.isNone ∧ 0 < threshold then
    lastLine.bind fun line => (checkRootCause recent threshold).map fun ids => ⟨line, ids⟩
  else none

def rootCauseEvent (cause : RootCause) : Obs :=
  .event (.rootCauseDetected cause.errorLine cause.jobIds.length cause.jobIds)

/-- Record a terminal failure and look for a root cause. -/
def recordFailure (msg : CompletionMsg) (f : Frontier) : Frontier :=
  let lastLine := extractLastNonemptyLine msg.result.stderrTail
  let recent := match lastLine with
    | some line => f.recentFailureHashes ++ [(p.hashLine line, msg.job.id)]
    | none => f.recentFailureHashes
  let triggered := rootCauseOf p.rootCauseThreshold f.rootCause recent lastLine
  { f with
    failedDetails := f.failedDetails ++ [⟨msg.job.id, lastLine⟩]
    recentFailureHashes := recent
    rootCause := triggered <|> f.rootCause
    log := f.log ++ triggered.toList.map rootCauseEvent }

/-- Handle a completion: update the frontier, emit events, propagate failures. -/
def handleCompletion (msg : CompletionMsg) (terminateRequested : Bool) (f : Frontier) : Handled :=
  let id := msg.job.id
  let exitCode := msg.result.exitCode
  let errorMsg := s!"exit code {exitCode}"
  if f.getStatus id = some .cancelled then ⟨f, terminateRequested, false⟩
  else if exitCode = 0 then
    ⟨commitSuccess p msg (outputNames msg.job) f, terminateRequested, true⟩
  else
    match msg.job.errorStrategy with
    | .ignore => ⟨commitSuccess p msg [] f, terminateRequested, false⟩
    | .retry count backoff =>
      let attempt := f.retryCounts id + 1
      let counted := { f with retryCounts := Function.update f.retryCounts id attempt }
      if attempt < count then
        ⟨scheduleRetry msg count backoff attempt counted, terminateRequested, false⟩
      else
        let failed := (counted.setStatus id (.failed errorMsg)).note
          [.event (.jobFailed id s!"{errorMsg} (exhausted {count} retries)" (some exitCode)
            msg.result.stderrTail)]
        ⟨cancelDownstream p.graph id (recordFailure p msg failed),
          terminateRequested || !p.keepGoing, false⟩
    | .terminate | .finish =>
      let failed := (f.note [.event (.jobFailed id errorMsg (some exitCode)
        msg.result.stderrTail)]).setStatus id (.failed errorMsg)
      ⟨cancelDownstream p.graph id (recordFailure p msg failed),
        terminateRequested || !p.keepGoing, false⟩

end OxyMake.Completion
