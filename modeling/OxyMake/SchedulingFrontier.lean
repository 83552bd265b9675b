import OxyMake.Observation
import OxyMake.ResourceNormalization

/-!
# The scheduling frontier and its initialisation

The frontier holds one status per job, a counter of unsatisfied upstream jobs
and the set of jobs eligible for dispatch. A fresh run counts every upstream
job; a resumed run adopts the terminal statuses of a ledger snapshot and
recounts. Jobs listed for skipping are then marked one by one, each promoting
its downstream jobs. The log field is the record of what was done and is read
by no operation. Output materializations do not influence scheduling and are
left out.
-/

namespace OxyMake.SchedulingFrontier

open PhysicalGraph Observation Admission

/-- Terminal statuses recovered from the ledger; a caller may also leave
other entries in the map. -/
structure LedgerSnapshot where
  statuses : JobId → Option JobLifecycle

def LedgerSnapshot.new : LedgerSnapshot := ⟨fun _ => none⟩

/-- Record a terminal status; other statuses are silently rejected. -/
def LedgerSnapshot.insert (snapshot : LedgerSnapshot) (id : JobId) (status : JobLifecycle) :
    LedgerSnapshot :=
  if status.isTerminal then ⟨Function.update snapshot.statuses id (some status)⟩ else snapshot

/-- Scheduler configuration. The sets of jobs are listed in the order in which
the hash set happens to enumerate them. -/
structure SchedulerConfig where
  maxJobs : ℕ
  keepGoing : Bool
  skipJobs : List JobId
  skipNodup : skipJobs.Nodup
  notSelected : List JobId
  forceRerun : List JobId
  /-- Planned reason of each job that has to run. -/
  runReasons : JobId → Option RunReason
  /-- Equal consecutive failures that are reported as one root cause. -/
  rootCauseThreshold : ℕ
  resumeSnapshot : Option LedgerSnapshot

/-- Summary of one failed job. -/
structure FailedJobDetail where
  jobId : JobId
  lastStderrLine : Option String
  deriving DecidableEq, Repr

/-- A failure shared by several jobs. -/
structure RootCause where
  errorLine : String
  jobIds : List JobId
  deriving DecidableEq, Repr

/-- Scheduler state behind the lock. -/
structure Frontier where
  statuses : JobId → Option JobLifecycle
  retryCounts : JobId → ℕ
  /-- Instant before which a retried job is not offered again. -/
  retryReadyAt : JobId → Option ℕ
  failedDetails : List FailedJobDetail
  recentFailureHashes : List (ℕ × JobId)
  rootCause : Option RootCause
  readyFrontier : List JobId
  /-- Jobs that must execute even on a cache hit. -/
  forceRerun : List JobId
  resourceBudget : ResourceBudget
  pendingUpstream : JobId → Option ℕ
  log : List Obs

namespace Frontier

def note (f : Frontier) (obs : List Obs) : Frontier := { f with log := f.log ++ obs }

def setStatus (f : Frontier) (id : JobId) (status : JobLifecycle) : Frontier :=
  { f with statuses := Function.update f.statuses id (some status),
           log := f.log ++ [.status id status] }

def getStatus (f : Frontier) (id : JobId) : Option JobLifecycle := f.statuses id

def offer (f : Frontier) (id : JobId) : Frontier :=
  { f with readyFrontier := f.readyFrontier.insert id }

def withdraw (f : Frontier) (id : JobId) : Frontier :=
  { f with readyFrontier := f.readyFrontier.filter (· ≠ id) }

/-- Count one satisfied upstream job of a pending job and offer the job when
none is left. -/
def promote (f : Frontier) (downstreamId : JobId) : Frontier :=
  if f.getStatus downstreamId ≠ some .pending then f
  else
    match f.pendingUpstream downstreamId with
    | none => f
    | some count =>
      let counted := { f with
        pendingUpstream := Function.update f.pendingUpstream downstreamId (some (count - 1)) }
      if count - 1 = 0 then counted.offer downstreamId else counted

def promoteDownstream (f : Frontier) (g : JobGraph) (completedId : JobId) : Frontier :=
  (g.downstream completedId).foldl promote f

def new (order : List JobId) (g : JobGraph) (budget : ResourceBudget) : Frontier where
  statuses := fun id => if id ∈ order then some .pending else none
  retryCounts := fun _ => 0
  retryReadyAt := fun _ => none
  failedDetails := []
  recentFailureHashes := []
  rootCause := none
  readyFrontier := order.filter fun id => (g.upstream id).length = 0
  forceRerun := []
  resourceBudget := budget
  pendingUpstream := fun id => if id ∈ order then some (g.upstream id).length else none
  log := []

def adopted (snapshot : LedgerSnapshot) (id : JobId) : JobLifecycle :=
  match snapshot.statuses id with
  | some status => if status.isTerminal then status else .pending
  | none => .pending

/-- Number of upstream jobs that are neither succeeded nor skipped. -/
def unsatisfiedUpstream (g : JobGraph) (statuses : JobId → Option JobLifecycle) (id : JobId) : ℕ :=
  (g.upstream id).countP fun up => !satisfied (statuses up)

def resume (order : List JobId) (g : JobGraph) (snapshot : LedgerSnapshot)
    (budget : ResourceBudget) : Frontier :=
  let statuses : JobId → Option JobLifecycle :=
    fun id => if id ∈ order then some (adopted snapshot id) else none
  { statuses := statuses
    retryCounts := fun _ => 0
    retryReadyAt := fun _ => none
    failedDetails := []
    recentFailureHashes := []
    rootCause := none
    readyFrontier := order.filter fun id =>
      unsatisfiedUpstream g statuses id = 0 ∧ statuses id = some .pending
    forceRerun := []
    resourceBudget := budget
    pendingUpstream := fun id => if id ∈ order then some (unsatisfiedUpstream g statuses id) else none
    log := [] }

/-- Mark one listed job as skipped, unless it is unknown. -/
def premark (g : JobGraph) (f : Frontier) (id : JobId) : Frontier :=
  if (f.statuses id).isSome then
    ((f.setStatus id .skipped).withdraw id).promoteDownstream g id
  else f

def base (order : List JobId) (g : JobGraph) (config : SchedulerConfig)
    (budget : ResourceBudget) : Frontier :=
  match config.resumeSnapshot with
  | some snapshot => resume order g snapshot budget
  | none => new order g budget

/-- Initialisation: fresh or resumed frontier, forced jobs, then the skip
list in enumeration order. -/
def init (order : List JobId) (g : JobGraph) (config : SchedulerConfig)
    (budget : ResourceBudget) : Frontier :=
  config.skipJobs.foldl (premark g)
    { base order g config budget with
      forceRerun := config.forceRerun.foldl (fun set id => set.insert id) [] }

@[simp] theorem note_statuses (f : Frontier) (obs : List Obs) :
    (f.note obs).statuses = f.statuses := rfl
@[simp] theorem note_pendingUpstream (f : Frontier) (obs : List Obs) :
    (f.note obs).pendingUpstream = f.pendingUpstream := rfl
@[simp] theorem note_readyFrontier (f : Frontier) (obs : List Obs) :
    (f.note obs).readyFrontier = f.readyFrontier := rfl
@[simp] theorem note_forceRerun (f : Frontier) (obs : List Obs) :
    (f.note obs).forceRerun = f.forceRerun := rfl
@[simp] theorem note_log (f : Frontier) (obs : List Obs) : (f.note obs).log = f.log ++ obs := rfl

@[simp] theorem setStatus_statuses (f : Frontier) (id : JobId) (st : JobLifecycle) :
    (f.setStatus id st).statuses = Function.update f.statuses id (some st) := rfl
@[simp] theorem setStatus_pendingUpstream (f : Frontier) (id : JobId) (st : JobLifecycle) :
    (f.setStatus id st).pendingUpstream = f.pendingUpstream := rfl
@[simp] theorem setStatus_readyFrontier (f : Frontier) (id : JobId) (st : JobLifecycle) :
    (f.setStatus id st).readyFrontier = f.readyFrontier := rfl
@[simp] theorem setStatus_forceRerun (f : Frontier) (id : JobId) (st : JobLifecycle) :
    (f.setStatus id st).forceRerun = f.forceRerun := rfl
@[simp] theorem setStatus_log (f : Frontier) (id : JobId) (st : JobLifecycle) :
    (f.setStatus id st).log = f.log ++ [.status id st] := rfl

@[simp] theorem offer_statuses (f : Frontier) (id : JobId) :
    (f.offer id).statuses = f.statuses := rfl
@[simp] theorem offer_pendingUpstream (f : Frontier) (id : JobId) :
    (f.offer id).pendingUpstream = f.pendingUpstream := rfl
@[simp] theorem offer_log (f : Frontier) (id : JobId) : (f.offer id).log = f.log := rfl
@[simp] theorem mem_offer {f : Frontier} {id x : JobId} :
    x ∈ (f.offer id).readyFrontier ↔ x = id ∨ x ∈ f.readyFrontier := List.mem_insert_iff

@[simp] theorem withdraw_statuses (f : Frontier) (id : JobId) :
    (f.withdraw id).statuses = f.statuses := rfl
@[simp] theorem withdraw_pendingUpstream (f : Frontier) (id : JobId) :
    (f.withdraw id).pendingUpstream = f.pendingUpstream := rfl
@[simp] theorem withdraw_log (f : Frontier) (id : JobId) : (f.withdraw id).log = f.log := rfl
@[simp] theorem mem_withdraw {f : Frontier} {id x : JobId} :
    x ∈ (f.withdraw id).readyFrontier ↔ x ∈ f.readyFrontier ∧ x ≠ id := by
  simp [withdraw]

@[simp] theorem getStatus_eq (f : Frontier) (id : JobId) : f.getStatus id = f.statuses id := rfl

theorem promote_eq (f : Frontier) (d : JobId) :
    ∃ counts ready, f.promote d = { f with pendingUpstream := counts, readyFrontier := ready } := by
  unfold promote
  split
  · exact ⟨_, _, rfl⟩
  · split
    · exact ⟨_, _, rfl⟩
    · dsimp only
      split <;> exact ⟨_, _, rfl⟩

theorem foldl_promote_eq (ds : List JobId) (f : Frontier) :
    ∃ counts ready,
      ds.foldl promote f = { f with pendingUpstream := counts, readyFrontier := ready } := by
  induction ds generalizing f with
  | nil => exact ⟨_, _, rfl⟩
  | cons d ds ih =>
    obtain ⟨counts, ready, he⟩ := promote_eq f d
    rw [List.foldl_cons, he]
    exact ih _

theorem promote_pendingUpstream (f : Frontier) (d x : JobId) :
    (f.promote d).pendingUpstream x =
      if x = d ∧ f.statuses x = some .pending then (f.pendingUpstream x).map (· - 1)
      else f.pendingUpstream x := by
  unfold promote
  by_cases hp : f.getStatus d = some .pending
  · rw [if_neg (not_not_intro hp)]
    cases hc : f.pendingUpstream d with
    | none =>
      dsimp only
      split
      · next h => rw [h.1, hc]; rfl
      · rfl
    | some count =>
      have hval : (if count - 1 = 0 then
          ({ f with pendingUpstream := Function.update f.pendingUpstream d (some (count - 1)) } :
            Frontier).offer d
          else { f with pendingUpstream := Function.update f.pendingUpstream d (some (count - 1)) }
          ).pendingUpstream = Function.update f.pendingUpstream d (some (count - 1)) := by
        split <;> rfl
      dsimp only
      rw [hval]
      by_cases hx : x = d
      · subst hx
        rw [getStatus_eq] at hp
        simp [hp, hc]
      · simp [hx]
  · rw [if_pos hp]
    split
    · next h => exact absurd (h.1 ▸ h.2) hp
    · rfl

theorem mem_promote_readyFrontier (f : Frontier) (d x : JobId) :
    x ∈ (f.promote d).readyFrontier ↔ x ∈ f.readyFrontier ∨
      (x = d ∧ f.statuses x = some .pending ∧ ∃ c, f.pendingUpstream x = some c ∧ c - 1 = 0) := by
  unfold promote
  by_cases hp : f.getStatus d = some .pending
  · rw [if_neg (not_not_intro hp)]
    cases hc : f.pendingUpstream d with
    | none =>
      refine ⟨.inl, ?_⟩
      rintro (h | ⟨rfl, _, c, h, _⟩)
      · exact h
      · rw [hc] at h; cases h
    | some count =>
      dsimp only
      by_cases h0 : count - 1 = 0
      · rw [if_pos h0, mem_offer]
        constructor
        · rintro (rfl | h)
          · exact .inr ⟨rfl, hp, count, hc, h0⟩
          · exact .inl h
        · rintro (h | ⟨h, _⟩)
          · exact .inr h
          · exact .inl h
      · rw [if_neg h0]
        refine ⟨.inl, ?_⟩
        rintro (h | ⟨rfl, _, c, h, hz⟩)
        · exact h
        · rw [hc] at h; cases h; exact absurd hz h0
  · rw [if_pos hp]
    refine ⟨.inl, ?_⟩
    rintro (h | ⟨rfl, h, _⟩)
    · exact h
    · exact absurd h hp

theorem foldl_promote_pendingUpstream {ds : List JobId} (hds : ds.Nodup) (f : Frontier)
    (x : JobId) :
    (ds.foldl promote f).pendingUpstream x =
      if x ∈ ds ∧ f.statuses x = some .pending then (f.pendingUpstream x).map (· - 1)
      else f.pendingUpstream x := by
  induction ds generalizing f with
  | nil => simp
  | cons d ds ih =>
    obtain ⟨hd, hrest⟩ := List.nodup_cons.mp hds
    obtain ⟨_, _, he⟩ := promote_eq f d
    have hst : (f.promote d).statuses = f.statuses := by rw [he]
    rw [List.foldl_cons, ih hrest, hst, promote_pendingUpstream]
    by_cases hx : x = d
    · subst hx
      simp [hd]
    · simp [hx]

theorem mem_foldl_promote_readyFrontier {ds : List JobId} (hds : ds.Nodup) (f : Frontier)
    (x : JobId) :
    x ∈ (ds.foldl promote f).readyFrontier ↔ x ∈ f.readyFrontier ∨
      (x ∈ ds ∧ f.statuses x = some .pending ∧ ∃ c, f.pendingUpstream x = some c ∧ c - 1 = 0) := by
  induction ds generalizing f with
  | nil => simp
  | cons d ds ih =>
    obtain ⟨hd, hrest⟩ := List.nodup_cons.mp hds
    obtain ⟨_, _, he⟩ := promote_eq f d
    have hst : (f.promote d).statuses = f.statuses := by rw [he]
    rw [List.foldl_cons, ih hrest, hst, promote_pendingUpstream, mem_promote_readyFrontier]
    by_cases hx : x = d
    · subst hx
      simp [hd]
    · simp [hx]

variable {g : JobGraph}

@[simp] theorem promoteDownstream_statuses (f : Frontier) (id : JobId) :
    (f.promoteDownstream g id).statuses = f.statuses := by
  obtain ⟨_, _, he⟩ := foldl_promote_eq (g.downstream id) f
  rw [promoteDownstream, he]

@[simp] theorem promoteDownstream_log (f : Frontier) (id : JobId) :
    (f.promoteDownstream g id).log = f.log := by
  obtain ⟨_, _, he⟩ := foldl_promote_eq (g.downstream id) f
  rw [promoteDownstream, he]

theorem promoteDownstream_nodup {f : Frontier} (hf : f.readyFrontier.Nodup) (id : JobId) :
    (f.promoteDownstream g id).readyFrontier.Nodup := by
  unfold promoteDownstream
  generalize g.downstream id = ds
  induction ds generalizing f with
  | nil => exact hf
  | cons d ds ih =>
    refine ih ?_
    unfold promote
    split
    · exact hf
    · split
      · exact hf
      · dsimp only
        split
        · exact hf.insert
        · exact hf

theorem promoteDownstream_pendingUpstream (f : Frontier) (id x : JobId) :
    (f.promoteDownstream g id).pendingUpstream x =
      if x ∈ g.downstream id ∧ f.statuses x = some .pending then (f.pendingUpstream x).map (· - 1)
      else f.pendingUpstream x :=
  foldl_promote_pendingUpstream (downstream_nodup id) f x

theorem mem_promoteDownstream_readyFrontier (f : Frontier) (id x : JobId) :
    x ∈ (f.promoteDownstream g id).readyFrontier ↔ x ∈ f.readyFrontier ∨
      (x ∈ g.downstream id ∧ f.statuses x = some .pending ∧
        ∃ c, f.pendingUpstream x = some c ∧ c - 1 = 0) :=
  mem_foldl_promote_readyFrontier (downstream_nodup id) f x

end Frontier

end OxyMake.SchedulingFrontier
