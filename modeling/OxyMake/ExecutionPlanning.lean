import OxyMake.CacheStore
import OxyMake.Observation
import Mathlib.Data.List.Induction
import Mathlib.Logic.Relation

/-!
# The planning pass

One pass over a topological order decides for every job whether its recorded
outputs satisfy it. A job that is not satisfied marks all its downstream jobs
stale, and a stale job is not even checked. The store and the files may change
under the checks, so each job's own check is the one asked in the state that the
pass has reached. The satisfied jobs are those whose own check is a hit and all
of whose transitive upstream jobs are satisfied; every other job has a reason.
-/

namespace OxyMake.ExecutionPlanning

open List Function
open PhysicalGraph Observation
open CacheStore (CacheError CacheValidation CacheHitStatus)

/-- What the pass asks of the cache and the file system: the state they share,
the components of a cache key and the provenance of a hit are left open. -/
structure Checks (σ κ π : Type) where
  checkMtimeStateless : List String → List String → σ → Except CacheError CacheHitStatus
  /-- Compute a job's cache key; hashing may fill the table of input hashes. -/
  jobCacheKeyWithComponents : ConcreteJob → σ → Option κ × σ
  /-- Fetch the outputs of a key from the remote cache. -/
  restoreRemoteOutputs : κ → List String → σ → Bool × σ
  /-- Look a key up and compare the outputs on disk. -/
  checkCached : κ → List String → σ → Except CacheError CacheHitStatus × σ
  jobProvenance : ConcreteJob → κ → σ → π

/-- How the pass was called. -/
structure Settings where
  validation : CacheValidation
  store : Bool
  remote : Bool

def outputFilePaths (job : ConcreteJob) : List String :=
  job.outputs.filterMap fun
    | .file path => some path
    | _ => none

def inputFilePaths (job : ConcreteJob) : List String :=
  job.inputs.filterMap fun
    | .file path => some path
    | _ => none

/-- Reason to run after a lookup; none for a hit. -/
def statusReason : CacheHitStatus → Option RunReason
  | .hit => none
  | .mismatch path => some (.outputStale path)
  | .outputMissing path => some (.outputMissing path)
  | .miss => some .cacheMiss

/-- Result of checking one job. -/
structure Answer (π : Type) where
  /-- Why the job has to run; none for a hit. -/
  reason : Option RunReason
  /-- What a hit was keyed on, where a key was computed. -/
  provenance : Option π

structure ExecutionPlan (π : Type) where
  skipJobs : List JobId
  runReasons : JobId → Option RunReason
  provenance : JobId → Option π

structure Pass (σ π : Type) where
  plan : ExecutionPlan π
  staleJobs : List JobId
  state : σ

def ExecutionPlan.empty (π : Type) : ExecutionPlan π := ⟨[], fun _ => none, fun _ => none⟩

def ExecutionPlan.skip {π : Type} (plan : ExecutionPlan π) (id : JobId) (provenance : Option π) :
    ExecutionPlan π where
  skipJobs := id :: plan.skipJobs
  runReasons := plan.runReasons
  provenance := match provenance with
    | none => plan.provenance
    | some p => Function.update plan.provenance id (some p)

def ExecutionPlan.run {π : Type} (plan : ExecutionPlan π) (id : JobId) (reason : RunReason) :
    ExecutionPlan π :=
  { plan with runReasons := Function.update plan.runReasons id (some reason) }

section

variable {σ κ π : Type} (checks : Checks σ κ π) (settings : Settings)

/-- Lookup of a key, after the remote cache where there is one. A failed lookup
is a miss. -/
def cachedStatus (key : κ) (outputs : List String) (s : σ) : CacheHitStatus × σ :=
  let onDisk := fun s =>
    let looked := checks.checkCached key outputs s
    (looked.1.toOption.getD .miss, looked.2)
  if settings.remote then
    let restored := checks.restoreRemoteOutputs key outputs s
    if restored.1 then (.hit, restored.2) else onDisk restored.2
  else onDisk s

def checkJob (job : ConcreteJob) (s : σ) : Answer π × σ :=
  if outputFilePaths job = [] then (⟨some .notCacheable, none⟩, s)
  else if settings.validation = .mtime then
    match checks.checkMtimeStateless (inputFilePaths job) (outputFilePaths job) s with
    | .ok status => (⟨statusReason status, none⟩, s)
    | .error _ => (⟨some .cacheMiss, none⟩, s)
  else if settings.store then
    match checks.jobCacheKeyWithComponents job s with
    | (some components, s) =>
      let looked := cachedStatus checks settings components (outputFilePaths job) s
      (⟨statusReason looked.1,
        if looked.1 = .hit then some (checks.jobProvenance job components looked.2) else none⟩,
        looked.2)
    | (none, s) => (⟨some .notCacheable, none⟩, s)
  else (⟨some .cacheMiss, none⟩, s)

variable (g : JobGraph)

/-- The downstream jobs of a job that is not satisfied are stale. -/
def Pass.markDownstream (p : Pass σ π) (id : JobId) : Pass σ π :=
  { p with staleJobs := g.downstream id ++ p.staleJobs }

def planJob (p : Pass σ π) (id : JobId) : Pass σ π :=
  if id ∈ p.staleJobs then
    Pass.markDownstream g { p with plan := p.plan.run id .upstreamRebuilt } id
  else
    match g.getJob id with
    | none => Pass.markDownstream g p id
    | some job =>
      let checked := checkJob checks settings job p.state
      match checked.1.reason with
      | none => { p with plan := p.plan.skip id checked.1.provenance, state := checked.2 }
      | some reason =>
        Pass.markDownstream g { p with plan := p.plan.run id reason, state := checked.2 } id

def planJobs (order : List JobId) (s : σ) : Pass σ π :=
  order.foldl (planJob checks settings g) ⟨.empty π, [], s⟩

/-- Determine which jobs would execute for the current files and cache. -/
def determineExecution (cacheEnabled : Bool) (order : List JobId) (s : σ) : ExecutionPlan π :=
  if cacheEnabled then (planJobs checks settings g order s).plan
  else g.jobIds.foldl (fun plan id => plan.run id .cacheDisabled) (.empty π)

/-- A job's own check is a hit, asked in the state the pass has when it comes to
the job. -/
def ownHit (order : List JobId) (s : σ) (id : JobId) : Bool :=
  match g.getJob id with
  | none => false
  | some job =>
    let reached := planJobs checks settings g (order.takeWhile (· ≠ id)) s
    (checkJob checks settings job reached.state).1.reason.isNone

end

/-- One job is upstream of another through any number of others. -/
def TransitiveUpstream (g : JobGraph) : JobId → JobId → Prop :=
  Relation.TransGen fun u id => u ∈ g.upstream id

/-- A plan for own checks: satisfied jobs and jobs with a reason partition the
graph, satisfaction is an own hit below satisfied jobs only, and the reason names
an upstream job that is not satisfied exactly when there is one. -/
structure PlansExactly {π : Type} (g : JobGraph) (hit : JobId → Bool) (plan : ExecutionPlan π) :
    Prop where
  /-- Every job is satisfied or has a reason, and no other identifier is. -/
  covers : ∀ id, id ∈ g.jobIds ↔ id ∈ plan.skipJobs ∨ (plan.runReasons id).isSome = true
  /-- No job is satisfied and has a reason. -/
  disjoint : ∀ id ∈ plan.skipJobs, plan.runReasons id = none
  /-- Satisfied jobs are own hits all of whose transitive upstream jobs are satisfied. -/
  skipped : ∀ id ∈ g.jobIds, id ∈ plan.skipJobs ↔
    hit id = true ∧ ∀ u, TransitiveUpstream g u id → u ∈ plan.skipJobs
  /-- The rebuilt reason is given exactly below a job that is not satisfied. -/
  rebuilt : ∀ id ∈ g.jobIds, plan.runReasons id = some .upstreamRebuilt ↔
    ∃ u ∈ g.upstream id, u ∉ plan.skipJobs
  /-- Satisfied jobs are closed under upstream. -/
  closed : ∀ id ∈ plan.skipJobs, ∀ u ∈ g.upstream id, u ∈ plan.skipJobs

variable {σ κ π : Type} {checks : Checks σ κ π} {settings : Settings} {g : JobGraph}

theorem checkJob_reason_ne (checks : Checks σ κ π) (settings : Settings) (job : ConcreteJob)
    (s : σ) :
    (checkJob checks settings job s).1.reason ≠ some .upstreamRebuilt := by
  have hstatus : ∀ status, statusReason status ≠ some .upstreamRebuilt := by
    intro status
    cases status <;> exact fun h => by cases h
  rw [checkJob]
  split_ifs with houtputs hmtime hstore
  · exact fun h => by cases h
  · cases checks.checkMtimeStateless (inputFilePaths job) (outputFilePaths job) s with
    | ok status => exact hstatus status
    | error => exact fun h => by cases h
  · cases checks.jobCacheKeyWithComponents job s with
    | mk components =>
      cases components with
      | some => exact hstatus _
      | none => exact fun h => by cases h
  · exact fun h => by cases h

/-- What is decided about the jobs that the pass has come to. -/
structure Planned (g : JobGraph) (hit : JobId → Bool) (done : List JobId) (p : Pass σ π) :
    Prop where
  /-- A job is satisfied by its own hit below satisfied jobs. -/
  skipped : ∀ id, id ∈ p.plan.skipJobs ↔
    id ∈ done ∧ hit id = true ∧ ∀ u ∈ g.upstream id, u ∈ p.plan.skipJobs
  /-- The other jobs have a reason. -/
  reasoned : ∀ id, (p.plan.runReasons id).isSome = true ↔ id ∈ done ∧ id ∉ p.plan.skipJobs
  /-- The rebuilt reason names an upstream job that is not satisfied. -/
  rebuilt : ∀ id ∈ done, p.plan.runReasons id = some .upstreamRebuilt ↔
    ∃ u ∈ g.upstream id, u ∉ p.plan.skipJobs
  /-- The stale jobs are those below a job that is not satisfied. -/
  stale : ∀ d, d ∈ p.staleJobs ↔ ∃ u ∈ done, u ∉ p.plan.skipJobs ∧ d ∈ g.downstream u

theorem planned_nil (hit : JobId → Bool) (s : σ) :
    Planned g hit [] (⟨.empty π, [], s⟩ : Pass σ π) where
  skipped id := by simp [ExecutionPlan.empty]
  reasoned id := by simp [ExecutionPlan.empty]
  rebuilt id hid := by cases hid
  stale d := by simp

section Step

variable {hit : JobId → Bool} {topo : TopologicalOrder g} {done later : List JobId} {id : JobId}
  {p : Pass σ π}

theorem Planned.mem_stale_iff (hp : Planned g hit done p)
    (hsplit : topo.order = done ++ id :: later) :
    id ∈ p.staleJobs ↔ ∃ u ∈ g.upstream id, u ∉ p.plan.skipJobs := by
  have hlive : ∀ x ∈ topo.order, g.isSkipped x = false := by
    intro x hx
    exact (mem_jobIds.mp ((topo.mem_iff x).mp hx)).2
  have hid : g.isSkipped id = false := hlive id (by rw [hsplit]; simp)
  have hdone : ∀ u ∈ done, g.isSkipped u = false := fun u hu =>
    hlive u (by rw [hsplit]; exact mem_append_left _ hu)
  rw [hp.stale]
  constructor
  · intro ⟨u, hu, hnot, hdown⟩
    exact ⟨u, (mem_upstream_iff_mem_downstream (hdone u hu) hid).mpr hdown, hnot⟩
  · intro ⟨u, hu, hnot⟩
    have hmem := topo.before _ _ _ hsplit u hu
    exact ⟨u, hmem, hnot, (mem_upstream_iff_mem_downstream (hdone u hmem) hid).mp hu⟩

theorem upstream_mem_cons (hsplit : topo.order = done ++ id :: later) {x u : JobId}
    (hx : x ∈ done) (hu : u ∈ g.upstream x) (skipped : List JobId) :
    u ∈ id :: skipped ↔ u ∈ skipped := by
  have hne := topo.upstream_ne_next hsplit hx hu
  rw [mem_cons]
  exact or_iff_right hne

theorem Planned.skip (hp : Planned g hit done p) (hsplit : topo.order = done ++ id :: later)
    (hhit : hit id = true) (hup : ∀ u ∈ g.upstream id, u ∈ p.plan.skipJobs)
    (provenance : Option π) (s : σ) :
    Planned g hit (done ++ [id]) { p with plan := p.plan.skip id provenance, state := s } := by
  have hnew := topo.next_not_mem hsplit
  have hold : ∀ {x : JobId}, x ∈ done ++ [id] → x ≠ id → x ∈ done := by
    intro x hx hne
    cases mem_append.mp hx with
    | inl h => exact h
    | inr h => exact absurd (mem_singleton.mp h) hne
  constructor
  · intro x
    change x ∈ id :: p.plan.skipJobs ↔ _ ∧ _ ∧ ∀ u ∈ g.upstream x, u ∈ id :: p.plan.skipJobs
    by_cases hx : x = id
    · rw [hx]
      constructor
      · intro _
        exact ⟨by simp, hhit, fun u hu => mem_cons_of_mem id (hup u hu)⟩
      · intro _
        exact mem_cons_self
    · rw [mem_cons, or_iff_right hx, hp.skipped x]
      constructor
      · intro ⟨hdone, h, hall⟩
        exact ⟨mem_append_left _ hdone, h, fun u hu => mem_cons_of_mem id (hall u hu)⟩
      · intro ⟨hmem, h, hall⟩
        have hdone := hold hmem hx
        exact ⟨hdone, h, fun u hu => (upstream_mem_cons hsplit hdone hu _).mp (hall u hu)⟩
  · intro x
    change (p.plan.runReasons x).isSome = true ↔ _ ∧ x ∉ id :: p.plan.skipJobs
    rw [hp.reasoned x]
    constructor
    · intro ⟨hdone, hnot⟩
      have hx : x ≠ id := fun h => hnew (h ▸ hdone)
      exact ⟨mem_append_left _ hdone, not_mem_cons_of_ne_of_not_mem hx hnot⟩
    · intro ⟨hmem, hnot⟩
      have hx : x ≠ id := ne_of_not_mem_cons hnot
      exact ⟨hold hmem hx, not_mem_of_not_mem_cons hnot⟩
  · intro x hmem
    change p.plan.runReasons x = _ ↔ ∃ u ∈ g.upstream x, u ∉ id :: p.plan.skipJobs
    by_cases hx : x = id
    · rw [hx]
      constructor
      · intro h
        have hsome := (hp.reasoned id).mp (by rw [h]; rfl)
        exact absurd hsome.1 hnew
      · intro ⟨u, hu, hnot⟩
        exact absurd (.tail id (hup u hu)) hnot
    · have hdone := hold hmem hx
      rw [hp.rebuilt x hdone]
      constructor
      · intro ⟨u, hu, hnot⟩
        exact ⟨u, hu, fun h => hnot ((upstream_mem_cons hsplit hdone hu _).mp h)⟩
      · intro ⟨u, hu, hnot⟩
        exact ⟨u, hu, fun h => hnot (.tail id h)⟩
  · intro d
    change d ∈ p.staleJobs ↔ ∃ u ∈ done ++ [id], u ∉ id :: p.plan.skipJobs ∧ _
    rw [hp.stale d]
    constructor
    · intro ⟨u, hu, hnot, hdown⟩
      have hne : u ≠ id := fun h => hnew (h ▸ hu)
      exact ⟨u, mem_append_left _ hu, not_mem_cons_of_ne_of_not_mem hne hnot, hdown⟩
    · intro ⟨u, hu, hnot, hdown⟩
      have hne : u ≠ id := ne_of_not_mem_cons hnot
      exact ⟨u, hold hu hne, not_mem_of_not_mem_cons hnot, hdown⟩

theorem Planned.run (hp : Planned g hit done p) (hsplit : topo.order = done ++ id :: later)
    (hnot : ¬ (hit id = true ∧ ∀ u ∈ g.upstream id, u ∈ p.plan.skipJobs)) (reason : RunReason)
    (hreason : reason = .upstreamRebuilt ↔ ∃ u ∈ g.upstream id, u ∉ p.plan.skipJobs) (s : σ) :
    Planned g hit (done ++ [id])
      (Pass.markDownstream g { p with plan := p.plan.run id reason, state := s } id) := by
  have hnew := topo.next_not_mem hsplit
  have hnotSkipped : id ∉ p.plan.skipJobs := fun h => hnew ((hp.skipped id).mp h).1
  have hreasons : ∀ x, x ≠ id →
      Function.update p.plan.runReasons id (some reason) x = p.plan.runReasons x :=
    fun x hx => update_of_ne hx _ _
  constructor
  · intro x
    change x ∈ p.plan.skipJobs ↔ _ ∧ _ ∧ ∀ u ∈ g.upstream x, u ∈ p.plan.skipJobs
    rw [hp.skipped x, mem_append, mem_singleton]
    constructor
    · intro ⟨hdone, h⟩
      exact ⟨.inl hdone, h⟩
    · intro ⟨hmem, h⟩
      cases hmem with
      | inl hdone => exact ⟨hdone, h⟩
      | inr heq => exact absurd (heq ▸ h) hnot
  · intro x
    change (Function.update p.plan.runReasons id (some reason) x).isSome = true ↔
      _ ∧ x ∉ p.plan.skipJobs
    by_cases hx : x = id
    · rw [hx, update_self]
      exact ⟨fun _ => ⟨by simp, hnotSkipped⟩, fun _ => rfl⟩
    · rw [hreasons x hx, hp.reasoned x, mem_append, mem_singleton, or_iff_left hx]
  · intro x hmem
    change Function.update p.plan.runReasons id (some reason) x = _ ↔
      ∃ u ∈ g.upstream x, u ∉ p.plan.skipJobs
    by_cases hx : x = id
    · rw [hx, update_self, Option.some.injEq]
      exact hreason
    · rw [hreasons x hx]
      rw [mem_append, mem_singleton, or_iff_left hx] at hmem
      exact hp.rebuilt x hmem
  · intro d
    change d ∈ g.downstream id ++ p.staleJobs ↔ ∃ u ∈ done ++ [id], u ∉ p.plan.skipJobs ∧ _
    rw [mem_append, hp.stale d]
    constructor
    · intro h
      cases h with
      | inl h => exact ⟨id, by simp, hnotSkipped, h⟩
      | inr h =>
        obtain ⟨u, hu, h⟩ := h
        exact ⟨u, mem_append_left _ hu, h⟩
    · intro ⟨u, hu, hskip, hdown⟩
      cases mem_append.mp hu with
      | inl hdone => exact .inr ⟨u, hdone, hskip, hdown⟩
      | inr hid => exact .inl (mem_singleton.mp hid ▸ hdown)

theorem Planned.planJob (hp : Planned g hit done p) (hsplit : topo.order = done ++ id :: later)
    (hhit : ∀ job, g.getJob id = some job →
      hit id = (checkJob checks settings job p.state).1.reason.isNone) :
    Planned g hit (done ++ [id]) (planJob checks settings g p id) := by
  have hstale := hp.mem_stale_iff hsplit
  have hlive : id ∈ g.jobIds := (topo.mem_iff id).mp (by rw [hsplit]; simp)
  obtain ⟨job, hjob⟩ := getJob_of_mem_jobIds hlive
  rw [ExecutionPlanning.planJob]
  by_cases hmem : id ∈ p.staleJobs
  · rw [if_pos hmem]
    have hbelow := hstale.mp hmem
    apply hp.run hsplit
    · intro ⟨_, hall⟩
      obtain ⟨u, hu, hnot⟩ := hbelow
      exact hnot (hall u hu)
    · exact ⟨fun _ => hbelow, fun _ => rfl⟩
  · rw [if_neg hmem, hjob]
    have hall : ∀ u ∈ g.upstream id, u ∈ p.plan.skipJobs := by
      intro u hu
      by_contra hnot
      exact hmem (hstale.mpr ⟨u, hu, hnot⟩)
    dsimp only
    cases hreason : (checkJob checks settings job p.state).1.reason with
    | none =>
      have hid : hit id = true := by rw [hhit job hjob, hreason]; rfl
      exact hp.skip hsplit hid hall _ _
    | some =>
      have hid : hit id = false := by rw [hhit job hjob, hreason]; rfl
      have hne := checkJob_reason_ne checks settings job p.state
      apply hp.run hsplit
      · intro h
        rw [hid] at h
        cases h.1
      · constructor
        · intro heq
          exact absurd (hreason.trans (congrArg some heq)) hne
        · intro ⟨u, hu, hnot⟩
          exact absurd (hall u hu) hnot

end Step

theorem takeWhile_order {topo : TopologicalOrder g} {done later : List JobId} {id : JobId}
    (hsplit : topo.order = done ++ id :: later) : topo.order.takeWhile (· ≠ id) = done := by
  have hne : ∀ x ∈ done, decide (x ≠ id) = true := by
    intro x hx
    exact decide_eq_true (fun h => topo.next_not_mem hsplit (h ▸ hx))
  rw [hsplit, takeWhile_append_of_pos hne, takeWhile_cons_of_neg (by simp),
    append_nil]

theorem planned_planJobs (checks : Checks σ κ π) (settings : Settings) (topo : TopologicalOrder g)
    (s : σ) (done : List JobId) :
    ∀ later, topo.order = done ++ later →
      Planned g (ownHit checks settings g topo.order s) done (planJobs checks settings g done s) := by
  induction done using List.reverseRecOn with
  | nil =>
    intro later _
    exact planned_nil _ s
  | append_singleton done id ih =>
    intro later horder
    have hsplit : topo.order = done ++ id :: later := by
      rw [horder, append_assoc, singleton_append]
    have hdone := ih (id :: later) hsplit
    have hhit : ∀ job, g.getJob id = some job → ownHit checks settings g topo.order s id =
        (checkJob checks settings job (planJobs checks settings g done s).state).1.reason.isNone := by
      intro job hjob
      rw [ownHit, hjob, takeWhile_order hsplit]
    rw [planJobs, foldl_append]
    exact hdone.planJob hsplit hhit

theorem closed_transitiveUpstream {skipped : List JobId}
    (hclosed : ∀ id ∈ skipped, ∀ u ∈ g.upstream id, u ∈ skipped) {u id : JobId}
    (h : TransitiveUpstream g u id) : id ∈ skipped → u ∈ skipped := by
  induction h with
  | single hup => exact fun hid => hclosed _ hid _ hup
  | tail _ hup ih => exact fun hid => ih (hclosed _ hid _ hup)

theorem Planned.plansExactly {hit : JobId → Bool} {p : Pass σ π} (topo : TopologicalOrder g)
    (hp : Planned g hit topo.order p) : PlansExactly g hit p.plan := by
  have hclosed : ∀ id ∈ p.plan.skipJobs, ∀ u ∈ g.upstream id, u ∈ p.plan.skipJobs :=
    fun id hid => ((hp.skipped id).mp hid).2.2
  constructor
  · intro id
    rw [hp.reasoned id, ← topo.mem_iff]
    constructor
    · intro hid
      by_cases hskip : id ∈ p.plan.skipJobs
      · exact .inl hskip
      · exact .inr ⟨hid, hskip⟩
    · intro h
      cases h with
      | inl hskip => exact ((hp.skipped id).mp hskip).1
      | inr hreason => exact hreason.1
  · intro id hid
    by_contra hsome
    have hreason := Option.isSome_iff_ne_none.mpr hsome
    exact ((hp.reasoned id).mp hreason).2 hid
  · intro id hlive
    constructor
    · intro hid
      have h := (hp.skipped id).mp hid
      exact ⟨h.2.1, fun u hu => closed_transitiveUpstream hclosed hu hid⟩
    · intro ⟨hhit, hall⟩
      have hdirect : ∀ u ∈ g.upstream id, u ∈ p.plan.skipJobs := fun u hu => hall u (.single hu)
      exact (hp.skipped id).mpr ⟨(topo.mem_iff id).mpr hlive, hhit, hdirect⟩
  · intro id hlive
    exact hp.rebuilt id ((topo.mem_iff id).mpr hlive)
  · exact hclosed

theorem disabled_runReasons (ids : List JobId) (plan : ExecutionPlan π) :
    (ids.foldl (fun plan id => plan.run id .cacheDisabled) plan).skipJobs = plan.skipJobs ∧
    ∀ id, (ids.foldl (fun plan id => plan.run id .cacheDisabled) plan).runReasons id =
      if id ∈ ids then some .cacheDisabled else plan.runReasons id := by
  induction ids generalizing plan with
  | nil => exact ⟨rfl, fun id => (if_neg not_mem_nil).symm⟩
  | cons x ids ih =>
    rw [foldl_cons]
    have htail := ih (plan.run x .cacheDisabled)
    constructor
    · exact htail.1
    · intro id
      rw [htail.2 id]
      by_cases hid : id ∈ ids
      · rw [if_pos hid, if_pos (.tail x hid)]
      · rw [if_neg hid]
        by_cases hx : id = x
        · rw [if_pos (hx ▸ mem_cons_self), hx]
          exact update_self _ _ _
        · rw [if_neg (not_mem_cons_of_ne_of_not_mem hx hid)]
          exact update_of_ne hx _ _

/-- With the cache in use the plan is exact for the jobs' own checks, whatever
they answer. With the cache turned off nothing is checked: no job is skipped and
every job has the reason that says so. -/
theorem determineExecution_exact (topo : TopologicalOrder g) (checks : Checks σ κ π)
    (settings : Settings) (s : σ) :
    PlansExactly g (ownHit checks settings g topo.order s)
      (determineExecution checks settings g true topo.order s) ∧
    (determineExecution checks settings g false topo.order s).skipJobs = [] ∧
    ∀ id, (determineExecution checks settings g false topo.order s).runReasons id =
      if id ∈ g.jobIds then some .cacheDisabled else none := by
  have hplanned := planned_planJobs checks settings topo s topo.order []
    (append_nil _).symm
  have hdisabled := disabled_runReasons g.jobIds (ExecutionPlan.empty π)
  exact ⟨hplanned.plansExactly topo, hdisabled.1, hdisabled.2⟩

def chainGraph : JobGraph where
  jobs := [fileJob "a" [] ["a.txt"], fileJob "b" ["a.txt"] ["b.txt"]]
  skipped := []
  gates := []
  idsNodup := by decide

def chainOrder : TopologicalOrder chainGraph :=
  .ofPrefixes ["a", "b"] (by decide) (by decide) (by decide)

def missingChecks : Checks Unit Unit Unit where
  checkMtimeStateless _ _ _ := .ok .miss
  jobCacheKeyWithComponents _ s := (none, s)
  restoreRemoteOutputs _ _ s := (false, s)
  checkCached _ _ s := (.ok .miss, s)
  jobProvenance _ _ _ := ()

/-- With the cache turned off the second job is not said to wait for the first,
which runs. -/
theorem not_plansExactly_disabled :
    ¬ PlansExactly chainGraph
      (ownHit missingChecks ⟨.mtimeHash, true, false⟩ chainGraph chainOrder.order ())
      (determineExecution missingChecks ⟨.mtimeHash, true, false⟩ chainGraph false
        chainOrder.order ()) := by
  intro h
  have hrebuilt := (h.rebuilt "b" (by decide)).mpr ⟨"a", by decide, by decide⟩
  revert hrebuilt
  decide

end OxyMake.ExecutionPlanning
