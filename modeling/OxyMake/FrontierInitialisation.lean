import OxyMake.Counting
import OxyMake.SchedulingFrontier

/-!
# Counters and ready frontier after initialisation

Both initialisers count the unsatisfied upstream jobs of every job exactly.
The skip list then counts down once per listed upstream job, whether or not
the snapshot had already recorded that job as satisfied. The counters are
right exactly when no pending job has such a doubly counted upstream job next
to an upstream job that is still open; membership in the ready frontier
follows the counters in every case.
-/

namespace OxyMake.FrontierInitialisation

open Counting PhysicalGraph Observation Admission SchedulingFrontier Frontier

/-- The ready frontier holds exactly the pending jobs with counter zero. -/
def ReadyExact (f : Frontier) : Prop :=
  ∀ id, id ∈ f.readyFrontier ↔ f.statuses id = some .pending ∧ f.pendingUpstream id = some 0

/-- Counters and ready frontier agree with the status map. -/
structure Initialised (g : JobGraph) (f : Frontier) : Prop where
  /-- Every pending job counts its upstream jobs that are neither succeeded nor skipped. -/
  counts : ∀ id, f.statuses id = some .pending →
    f.pendingUpstream id = some (unsatisfiedUpstream g f.statuses id)
  ready : ReadyExact f

def recordedTerminal (config : SchedulerConfig) (id : JobId) : Bool :=
  config.resumeSnapshot.any fun snapshot => terminal (snapshot.statuses id)

/-- The snapshot records the job as succeeded or skipped. -/
def recordedSatisfied (config : SchedulerConfig) (id : JobId) : Bool :=
  config.resumeSnapshot.any fun snapshot => satisfied (snapshot.statuses id)

/-- No job that starts out pending has a skip-listed upstream job which the
snapshot already satisfied, unless all its upstream jobs are accounted for. -/
def SkipsCountOnce (order : List JobId) (g : JobGraph) (config : SchedulerConfig) : Prop :=
  ∀ id ∈ order, id ∉ config.skipJobs → recordedTerminal config id = false →
    (∀ up ∈ g.upstream id, up ∈ config.skipJobs → recordedSatisfied config up = false) ∨
    (∀ up ∈ g.upstream id, up ∈ config.skipJobs ∨ recordedSatisfied config up = true)

variable {g : JobGraph}

theorem satisfied_adopted (snapshot : LedgerSnapshot) (id : JobId) :
    satisfied (some (adopted snapshot id)) = satisfied (snapshot.statuses id) := by
  unfold adopted
  cases snapshot.statuses id with
  | none => rfl
  | some st => cases st <;> rfl

theorem adopted_eq_pending (snapshot : LedgerSnapshot) (id : JobId) :
    adopted snapshot id = .pending ↔ terminal (snapshot.statuses id) = false := by
  unfold adopted
  cases snapshot.statuses id with
  | none => simp
  | some st => cases st <;> simp [JobLifecycle.isTerminal]

theorem base_statuses_isSome (order : List JobId) (config : SchedulerConfig)
    (budget : ResourceBudget) (id : JobId) :
    ((base order g config budget).statuses id).isSome ↔ id ∈ order := by
  unfold base
  cases config.resumeSnapshot with
  | none => simp [new]
  | some => simp [resume]

theorem base_satisfied {order : List JobId} (config : SchedulerConfig) (budget : ResourceBudget)
    {id : JobId} (hid : id ∈ order) :
    satisfied ((base order g config budget).statuses id) = recordedSatisfied config id := by
  unfold base recordedSatisfied
  cases config.resumeSnapshot with
  | none => simp [new, hid, JobLifecycle.isSatisfied]
  | some snapshot =>
    have hst : (resume order g snapshot budget).statuses id = some (adopted snapshot id) := by
      simp [resume, hid]
    simpa [hst] using satisfied_adopted snapshot id

theorem base_pending (order : List JobId) (config : SchedulerConfig) (budget : ResourceBudget)
    (id : JobId) :
    (base order g config budget).statuses id = some .pending ↔
      id ∈ order ∧ recordedTerminal config id = false := by
  unfold base recordedTerminal
  cases config.resumeSnapshot with
  | none => simp [new]
  | some => simp [resume, adopted_eq_pending]

theorem base_pendingUpstream (topo : TopologicalOrder g) (config : SchedulerConfig)
    (budget : ResourceBudget) {id : JobId} (hid : id ∈ topo.order) :
    (base topo.order g config budget).pendingUpstream id =
      some (unsatisfiedUpstream g (base topo.order g config budget).statuses id) := by
  unfold base
  cases config.resumeSnapshot with
  | some => simp [resume, hid]
  | none =>
    have hopen : ∀ up ∈ g.upstream id,
        (!satisfied ((new topo.order g budget).statuses up)) = true := by
      intro up hup
      have hmem : up ∈ topo.order := (topo.mem_iff up).mpr (bridgedNeighborsIds_mem_jobIds hup)
      simp [new, hmem, JobLifecycle.isSatisfied]
    have hlen : unsatisfiedUpstream g (new topo.order g budget).statuses id =
        (g.upstream id).length := List.countP_eq_length.mpr hopen
    dsimp only
    rw [hlen]
    simp [new, hid]

theorem base_readyExact (topo : TopologicalOrder g) (config : SchedulerConfig)
    (budget : ResourceBudget) : ReadyExact (base topo.order g config budget) := by
  intro id
  unfold base
  cases config.resumeSnapshot with
  | none =>
    by_cases hid : id ∈ topo.order <;> simp [new, hid]
  | some =>
    by_cases hid : id ∈ topo.order
    · simp only [resume, List.mem_filter, hid, true_and, decide_eq_true_eq, if_true,
        Option.some.injEq]
      exact and_comm
    · simp [resume, hid]

theorem premark_statuses (f : Frontier) (id x : JobId) :
    (premark g f id).statuses x =
      if x = id ∧ (f.statuses id).isSome then some .skipped else f.statuses x := by
  unfold premark
  by_cases hs : (f.statuses id).isSome
  · by_cases hx : x = id
    · subst hx; simp [hs]
    · simp [hs, hx]
  · simp [hs]

theorem premark_pendingUpstream (f : Frontier) {id x : JobId} (hx : x ≠ id)
    (hp : f.statuses x = some .pending) :
    (premark g f id).pendingUpstream x =
      if (f.statuses id).isSome ∧ x ∈ g.downstream id then (f.pendingUpstream x).map (· - 1)
      else f.pendingUpstream x := by
  unfold premark
  by_cases hs : (f.statuses id).isSome
  · simp [hs, promoteDownstream_pendingUpstream, hx, hp]
  · simp [hs]

theorem premark_readyExact {f : Frontier} (hf : ReadyExact f) (id : JobId) :
    ReadyExact (premark g f id) := by
  unfold premark
  by_cases hs : (f.statuses id).isSome
  · rw [if_pos hs]
    intro x
    rw [mem_promoteDownstream_readyFrontier, promoteDownstream_pendingUpstream,
      promoteDownstream_statuses, mem_withdraw, withdraw_statuses, withdraw_pendingUpstream,
      setStatus_readyFrontier, setStatus_statuses, setStatus_pendingUpstream, hf x]
    by_cases hx : x = id
    · subst hx; simp
    · simp only [ne_eq, hx, not_false_eq_true, and_true, Function.update_of_ne]
      by_cases hp : f.statuses x = some .pending
      · by_cases hd : x ∈ g.downstream id
        · cases hc : f.pendingUpstream x with
          | none => simp [hp, hd]
          | some =>
            simp only [hp, hd, true_and, Option.some.injEq, exists_eq_left', and_self, if_true,
              Option.map_some]
            omega
        · simp [hd]
      · simp [hp]
  · rw [if_neg hs]
    exact hf

theorem foldl_premark_statuses (marks : List JobId) (f : Frontier) (x : JobId) :
    (marks.foldl (premark g) f).statuses x =
      if x ∈ marks ∧ (f.statuses x).isSome then some .skipped else f.statuses x := by
  induction marks generalizing f with
  | nil => simp
  | cons id marks ih =>
    rw [List.foldl_cons, ih, premark_statuses]
    by_cases hx : x = id
    · subst hx
      by_cases hs : (f.statuses x).isSome <;> simp [hs]
    · simp [hx]

theorem foldl_premark_readyExact (marks : List JobId) {f : Frontier} (hf : ReadyExact f) :
    ReadyExact (marks.foldl (premark g) f) := by
  induction marks generalizing f with
  | nil => exact hf
  | cons id marks ih => exact ih (premark_readyExact hf id)

theorem foldl_premark_pendingUpstream (marks : List JobId) (f : Frontier) {x : JobId}
    (hx : x ∉ marks) (hp : f.statuses x = some .pending) :
    (marks.foldl (premark g) f).pendingUpstream x =
      (f.pendingUpstream x).map
        (· - marks.countP fun id => (f.statuses id).isSome ∧ x ∈ g.downstream id) := by
  induction marks generalizing f with
  | nil => simp
  | cons id marks ih =>
    obtain ⟨hne, hrest⟩ : x ≠ id ∧ x ∉ marks := by simpa using hx
    have hp' : (premark g f id).statuses x = some .pending := by
      rw [premark_statuses, if_neg (fun h => hne h.1), hp]
    have hknown : ∀ y, ((premark g f id).statuses y).isSome = (f.statuses y).isSome := by
      intro y
      rw [premark_statuses]
      split
      · next h => rw [h.1, h.2]; rfl
      · rfl
    rw [List.foldl_cons, ih _ hrest hp', premark_pendingUpstream f hne hp]
    simp only [hknown]
    rw [List.countP_cons]
    by_cases hc : (f.statuses id).isSome ∧ x ∈ g.downstream id
    · simp only [hc, and_self, if_true, decide_true, Option.map_map]
      congr 1
      funext c
      dsimp only [Function.comp_apply]
      omega
    · simp [hc]

section Initialisation

variable (topo : TopologicalOrder g) (config : SchedulerConfig) (budget : ResourceBudget)

theorem init_statuses (id : JobId) :
    (init topo.order g config budget).statuses id =
      if id ∈ config.skipJobs ∧ id ∈ topo.order then some .skipped
      else (base topo.order g config budget).statuses id := by
  rw [init, foldl_premark_statuses]
  simp only [base_statuses_isSome]

theorem init_pending (id : JobId) :
    (init topo.order g config budget).statuses id = some .pending ↔
      id ∈ topo.order ∧ id ∉ config.skipJobs ∧ recordedTerminal config id = false := by
  rw [init_statuses]
  split
  · next h => simp [h.1]
  · next h =>
    rw [base_pending]
    constructor
    · rintro ⟨hid, hrec⟩
      exact ⟨hid, fun hskip => h ⟨hskip, hid⟩, hrec⟩
    · rintro ⟨hid, _, hrec⟩
      exact ⟨hid, hrec⟩

theorem init_unfinished {id : JobId}
    (h : unfinished ((init topo.order g config budget).statuses id) = true) :
    (init topo.order g config budget).statuses id = some .pending := by
  have hbase : unfinished ((base topo.order g config budget).statuses id) = true →
      (base topo.order g config budget).statuses id = some .pending := by
    unfold base
    cases config.resumeSnapshot with
    | none =>
      by_cases hid : id ∈ topo.order <;> simp [new, hid]
    | some =>
      by_cases hid : id ∈ topo.order
      · simp only [resume, hid, if_true, unfinished_some, Option.some.injEq]
        unfold adopted
        split
        · split <;> simp_all
        · simp
      · simp [resume, hid]
  rw [init_statuses] at h ⊢
  split at h
  · cases h
  · next hskip =>
    rw [if_neg hskip]
    exact hbase h

theorem init_nodup : (init topo.order g config budget).readyFrontier.Nodup := by
  have hfold : ∀ (marks : List JobId) (f : Frontier), f.readyFrontier.Nodup →
      (marks.foldl (premark g) f).readyFrontier.Nodup := by
    intro marks
    induction marks with
    | nil => exact fun f hf => hf
    | cons id marks ih =>
      intro f hf
      refine ih _ ?_
      unfold premark
      split
      · exact promoteDownstream_nodup (hf.filter _) id
      · exact hf
  refine hfold _ _ ?_
  change (base topo.order g config budget).readyFrontier.Nodup
  unfold base
  split <;> exact topo.nodup.filter _

theorem init_satisfied {id : JobId} (hid : id ∈ topo.order) :
    satisfied ((init topo.order g config budget).statuses id) =
      (decide (id ∈ config.skipJobs) || recordedSatisfied config id) := by
  rw [init_statuses]
  by_cases hskip : id ∈ config.skipJobs
  · simp [hskip, hid, JobLifecycle.isSatisfied]
  · simp [hskip, base_satisfied config budget hid]

theorem countP_skipJobs {id : JobId} (hid : id ∈ topo.order) :
    (config.skipJobs.countP fun up =>
      ((base topo.order g config budget).statuses up).isSome ∧ id ∈ g.downstream up) =
    (g.upstream id).countP fun up => decide (up ∈ config.skipJobs) := by
  refine countP_eq_of_mem_iff config.skipNodup (upstream_nodup id) ?_
  intro up
  simp only [base_statuses_isSome, decide_eq_true_eq]
  have hid' := (mem_jobIds.mp ((topo.mem_iff id).mp hid)).2
  constructor
  · rintro ⟨hskip, hup, hdown⟩
    have hup' := (mem_jobIds.mp ((topo.mem_iff up).mp hup)).2
    exact ⟨(mem_upstream_iff_mem_downstream hup' hid').mpr hdown, hskip⟩
  · rintro ⟨hup, hskip⟩
    have hjob := bridgedNeighborsIds_mem_jobIds hup
    have hup' := (mem_jobIds.mp hjob).2
    exact ⟨hskip, (topo.mem_iff up).mpr hjob, (mem_upstream_iff_mem_downstream hup' hid').mp hup⟩

/-- Upstream jobs counted twice: skip-listed and already recorded as satisfied. -/
def doublyCounted (g : JobGraph) (config : SchedulerConfig) (id : JobId) : ℕ :=
  (g.upstream id).countP fun up => decide (up ∈ config.skipJobs) && recordedSatisfied config up

theorem init_pendingUpstream {id : JobId}
    (hp : (init topo.order g config budget).statuses id = some .pending) :
    (init topo.order g config budget).pendingUpstream id =
      some (unsatisfiedUpstream g (init topo.order g config budget).statuses id -
        doublyCounted g config id) := by
  obtain ⟨hid, hskip, hrec⟩ := (init_pending topo config budget id).mp hp
  have hbase := (base_pending (g := g) topo.order config budget id).mpr ⟨hid, hrec⟩
  have hmem : ∀ up ∈ g.upstream id, up ∈ topo.order := fun up hup =>
    (topo.mem_iff up).mpr (bridgedNeighborsIds_mem_jobIds hup)
  have hcount : unsatisfiedUpstream g (base topo.order g config budget).statuses id =
      (g.upstream id).countP fun up => !recordedSatisfied config up := by
    refine List.countP_congr fun up hup => ?_
    rw [base_satisfied config budget (hmem up hup)]
  have hleft : unsatisfiedUpstream g (init topo.order g config budget).statuses id =
      (g.upstream id).countP fun up =>
        !recordedSatisfied config up && !decide (up ∈ config.skipJobs) := by
    refine List.countP_congr fun up hup => ?_
    rw [init_satisfied topo config budget (hmem up hup)]
    simp [and_comm]
  have hopen := countP_split (fun up => !recordedSatisfied config up)
    (fun up => decide (up ∈ config.skipJobs)) (g.upstream id)
  have hlisted := countP_split (fun up => decide (up ∈ config.skipJobs))
    (recordedSatisfied config) (g.upstream id)
  have hboth : ((g.upstream id).countP fun up =>
      !recordedSatisfied config up && decide (up ∈ config.skipJobs)) =
      (g.upstream id).countP fun up =>
        decide (up ∈ config.skipJobs) && !recordedSatisfied config up :=
    List.countP_congr fun up _ => by rw [Bool.and_comm]
  have hfold : (init topo.order g config budget).pendingUpstream id =
      ((base topo.order g config budget).pendingUpstream id).map
        (· - config.skipJobs.countP fun up =>
          ((base topo.order g config budget).statuses up).isSome ∧ id ∈ g.downstream up) :=
    foldl_premark_pendingUpstream config.skipJobs _ hskip hbase
  rw [hfold, base_pendingUpstream topo config budget hid, Option.map_some,
    countP_skipJobs topo config budget hid, hcount, hleft, doublyCounted]
  congr 1
  omega

theorem init_readyExact : ReadyExact (init topo.order g config budget) :=
  foldl_premark_readyExact config.skipJobs (base_readyExact topo config budget)

/-- Initialisation is right for every overlap of snapshot and skip list exactly
when no doubly counted job stands next to an open one. -/
theorem init_initialised_iff :
    Initialised g (init topo.order g config budget) ↔ SkipsCountOnce topo.order g config := by
  have hmem : ∀ {id : JobId}, ∀ up ∈ g.upstream id, up ∈ topo.order := fun up hup =>
    (topo.mem_iff up).mpr (bridgedNeighborsIds_mem_jobIds hup)
  have hzero : ∀ id, unsatisfiedUpstream g (init topo.order g config budget).statuses id = 0 ↔
      ∀ up ∈ g.upstream id, up ∈ config.skipJobs ∨ recordedSatisfied config up = true := by
    intro id
    rw [unsatisfiedUpstream, List.countP_eq_zero]
    refine forall₂_congr fun up hup => ?_
    rw [init_satisfied topo config budget (hmem up hup)]
    simp [or_iff_not_imp_left]
  have hnone : ∀ id, doublyCounted g config id = 0 ↔
      ∀ up ∈ g.upstream id, up ∈ config.skipJobs → recordedSatisfied config up = false := by
    intro id
    rw [doublyCounted, List.countP_eq_zero]
    simp
  constructor
  · intro hinit id hid hskip hrec
    have hp := (init_pending topo config budget id).mpr ⟨hid, hskip, hrec⟩
    have hc := hinit.counts id hp
    rw [init_pendingUpstream topo config budget hp, Option.some.injEq] at hc
    rw [← hnone, ← hzero]
    omega
  · intro honce
    refine ⟨fun id hp => ?_, init_readyExact topo config budget⟩
    obtain ⟨hid, hskip, hrec⟩ := (init_pending topo config budget id).mp hp
    have hcond := honce id hid hskip hrec
    rw [← hnone, ← hzero] at hcond
    rw [init_pendingUpstream topo config budget hp, Option.some.injEq]
    omega

end Initialisation

/-- Two independent jobs and a third that consumes both outputs. -/
def joinGraph : JobGraph where
  jobs := [fileJob "a" [] ["a.txt"], fileJob "b" [] ["b.txt"],
    fileJob "c" ["a.txt", "b.txt"] ["c.txt"]]
  skipped := []
  gates := []
  idsNodup := by decide

/-- The alphabetical order of the join graph is topological. -/
def joinOrder : TopologicalOrder joinGraph :=
  .ofPrefixes ["a", "b", "c"] (by decide) (by decide) (by decide)

/-- A resumed run whose snapshot records the first job as succeeded while the
planner also lists that job for skipping. -/
def overlapConfig : SchedulerConfig where
  maxJobs := 1
  keepGoing := false
  skipJobs := ["a"]
  skipNodup := by decide
  notSelected := []
  forceRerun := []
  runReasons := fun _ => none
  rootCauseThreshold := 3
  resumeSnapshot := some (LedgerSnapshot.new.insert "a" .succeeded)

/-- The join job is offered although its second upstream job is still pending. -/
theorem not_initialised_overlap :
    ¬ Initialised joinGraph (init joinOrder.order joinGraph overlapConfig ⟨[], fun _ => 0⟩) := by
  intro h
  have hc := h.counts "c" (by decide)
  revert hc
  decide

end OxyMake.FrontierInitialisation
