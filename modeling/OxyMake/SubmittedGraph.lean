import OxyMake.GraphQueries
import OxyMake.KeyedTable

/-!
# Submitting a job graph to SLURM

The jobs of the graph are submitted one by one in topological order, each with
the SLURM identifiers of its upstream jobs as dependencies; jobs that are cached
are passed over. When all are submitted the mapping of the jobs is written to
the metadata of the run. A step that fails ends the submission at once.
-/

namespace OxyMake.SubmittedGraph

open List
open PhysicalGraph PriorityOrder GraphQueries KeyedTable

/-! ### The submission -/

inductive SlurmError
  | submitFailed (message : String)
  | parseError (message : String)
  | clusterUnreachable (message : String)
  | resourceConflict (message : String)
  | apiError (status : ℕ) (body : String)
  | io
  deriving DecidableEq

/-- What the file system, the script generator and the cluster answer. Each job
is submitted at most once, so an answer may depend on the job alone. -/
structure Cluster where
  /-- The staging directory of the run can be created. -/
  runStaging : Bool
  /-- The staging directory of a job can be created. -/
  jobStaging : JobId → Bool
  generate : ConcreteJob → Except SlurmError String
  writeScript : JobId → Bool
  /-- The SLURM job that is queued for a job. -/
  submit : JobId → Except SlurmError ℕ
  writeMeta : Bool

/-- A job that was queued on the cluster. -/
structure Submission where
  job : JobId
  script : String
  deps : List ℕ
  slurmJobId : ℕ

/-- How far the submission has come. -/
structure Progress where
  oxToSlurm : Table JobId ℕ
  /-- The same as texts, for the result and the metadata. -/
  jobSubmissions : Table JobId String
  submittedRoots : ℕ
  pendingDeps : ℕ
  queued : List Submission

def Progress.start : Progress := ⟨.empty, .empty, 0, 0, []⟩

def Progress.record (p : Progress) (s : Submission) : Progress where
  oxToSlurm := p.oxToSlurm.put s.job s.slurmJobId
  jobSubmissions := p.jobSubmissions.put s.job (toString s.slurmJobId)
  submittedRoots := if s.deps.isEmpty then p.submittedRoots + 1 else p.submittedRoots
  pendingDeps := if s.deps.isEmpty then p.pendingDeps else p.pendingDeps + 1
  queued := p.queued ++ [s]

def prepare (g : JobGraph) (c : Cluster) (id : JobId) : Except SlurmError String :=
  match g.getJob id with
  | none => .error (.submitFailed ("job " ++ id ++ " not found in graph"))
  | some job =>
    if c.jobStaging id then
      match c.generate job with
      | .error e => .error e
      | .ok script => if c.writeScript id then .ok script else .error .io
    else .error .io

/-- SLURM jobs of the upstream jobs that were submitted and not cached. -/
def depSlurmIds (g : JobGraph) (skip : JobId → Bool) (oxToSlurm : Table JobId ℕ) (id : JobId) :
    List ℕ :=
  ((g.upstream id).filter fun u => !skip u).filterMap oxToSlurm.get

def submitJob (g : JobGraph) (skip : JobId → Bool) (c : Cluster) (id : JobId) (p : Progress) :
    Except SlurmError Progress :=
  match prepare g c id with
  | .error e => .error e
  | .ok script =>
    match c.submit id with
    | .error e => .error e
    | .ok slurmJobId => .ok (p.record ⟨id, script, depSlurmIds g skip p.oxToSlurm id, slurmJobId⟩)

/-- Submit the jobs that are not cached, up to the first failure. -/
def submitJobs (g : JobGraph) (skip : JobId → Bool) (c : Cluster) :
    List JobId → Progress → Option SlurmError × Progress
  | [], p => (none, p)
  | id :: rest, p =>
    if skip id then submitJobs g skip c rest p
    else
      match submitJob g skip c id p with
      | .error e => (some e, p)
      | .ok p => submitJobs g skip c rest p

structure DagSubmission where
  runId : String
  totalJobs : ℕ
  submitted : ℕ
  pending : ℕ
  skipped : ℕ
  jobSubmissions : Table JobId String

/-- The metadata of a run. -/
structure RunMeta where
  runId : String
  totalJobs : ℕ
  activeJobs : ℕ
  skippedJobs : ℕ
  jobMapping : Table JobId String

/-- What a submission returns and leaves behind. -/
structure Outcome where
  result : Except SlurmError DagSubmission
  queued : List Submission
  cancelled : List ℕ
  runMeta : Option RunMeta

def Outcome.refused (e : SlurmError) : Outcome := ⟨.error e, [], [], none⟩

/-- A live job that is not cached and asks for the local executor. -/
def localJob (g : JobGraph) (skip : JobId → Bool) : Option ConcreteJob :=
  (g.jobIds.filterMap g.getJob).find? fun job => !skip job.id && job.executor == some "local"

/-- Refusal of a job that asks for the local executor. -/
def localMessage (rule : String) : String :=
  "rule '" ++ rule ++ "' declares executor = \"local\"; SLURM DAG submission cannot honour it, " ++
    "use the scheduler with local routing"

/-- Submit the graph; `sorted` is the answer of the external sort. -/
def submitDag (g : JobGraph) (skip : JobId → Bool) (sorted : Option (List ℕ)) (c : Cluster)
    (runId : String) : Outcome :=
  match localJob g skip with
  | some job => .refused (.submitFailed (localMessage job.rule))
  | none =>
    match topologicalOrder g sorted with
    | .error _ =>
      .refused (.submitFailed
        "topological sort failed: cycle detected in DAG: [\"(cycle in job graph)\"]")
    | .ok topoOrder =>
      let totalJobs := topoOrder.length
      let skippedCount := (topoOrder.filter skip).length
      let activeCount := totalJobs - skippedCount
      if activeCount = 0 then
        ⟨.ok ⟨runId, totalJobs, 0, 0, skippedCount, .empty⟩, [], [], none⟩
      else if c.runStaging = false then .refused .io
      else
        match submitJobs g skip c topoOrder .start with
        | (some e, p) => ⟨.error e, p.queued, [], none⟩
        | (none, p) =>
          { result :=
              .ok ⟨runId, totalJobs, p.submittedRoots, p.pendingDeps, skippedCount,
                p.jobSubmissions⟩
            queued := p.queued
            cancelled := []
            runMeta :=
              if c.writeMeta then
                some ⟨runId, totalJobs, activeCount, skippedCount, p.jobSubmissions⟩
              else none }

/-! ### The loop -/

variable {g : JobGraph} {skip : JobId → Bool} {c : Cluster}

def succeeds (g : JobGraph) (c : Cluster) (id : JobId) : Bool :=
  (prepare g c id).isOk && (c.submit id).isOk

/-- The upstream jobs of a job and the SLURM jobs it depends on. -/
def DependsOn (g : JobGraph) (skip : JobId → Bool) (before : List Submission) (s : Submission) :
    Prop :=
  List.Forall₂ (fun u n => ∃ b ∈ before, b.job = u ∧ b.slurmJobId = n)
    ((g.upstream s.job).filter fun u => !skip u) s.deps

/-- What has been submitted when the loop has come past some jobs. -/
structure Submitted (g : JobGraph) (skip : JobId → Bool) (earlier : List JobId) (p : Progress) :
    Prop where
  /-- Exactly the jobs that are not cached were queued, in order. -/
  jobs : p.queued.map Submission.job = earlier.filter fun id => !skip id
  /-- Every queued job is found under its identifier. -/
  found : ∀ s ∈ p.queued, p.oxToSlurm.get s.job = some s.slurmJobId
  /-- The result names every queued job. -/
  named : ∀ s ∈ p.queued, p.jobSubmissions.get s.job = some (toString s.slurmJobId)
  /-- Every queued job depends on its upstream jobs. -/
  linked : ∀ before s after, p.queued = before ++ s :: after → DependsOn g skip before s
  counted : p.submittedRoots + p.pendingDeps = p.queued.length

theorem forall₂_filterMap {α β : Type} {R : α → β → Prop} {f : α → Option β} {l : List α}
    (h : ∀ a ∈ l, ∃ b, f a = some b ∧ R a b) : List.Forall₂ R l (l.filterMap f) := by
  induction l with
  | nil => exact .nil
  | cons a l ih =>
    obtain ⟨⟨b, hb, hab⟩, hrest⟩ := forall_mem_cons.mp h
    rw [filterMap_cons_some hb]
    exact .cons hab (ih hrest)

theorem submitJob_eq_ok {id : JobId} {p p' : Progress} (h : submitJob g skip c id p = .ok p') :
    succeeds g c id = true ∧ ∃ script slurmJobId, p' =
      p.record ⟨id, script, depSlurmIds g skip p.oxToSlurm id, slurmJobId⟩ := by
  rw [submitJob] at h
  rw [succeeds]
  cases hprepare : prepare g c id with
  | error =>
    rw [hprepare] at h
    cases h
  | ok script =>
    cases hsubmit : c.submit id with
    | error =>
      rw [hprepare] at h
      dsimp only at h
      rw [hsubmit] at h
      cases h
    | ok slurmJobId =>
      rw [hprepare] at h
      dsimp only at h
      rw [hsubmit] at h
      cases h
      exact ⟨rfl, script, slurmJobId, rfl⟩

theorem exists_submitJob {id : JobId} (p : Progress) (h : succeeds g c id = true) :
    ∃ p', submitJob g skip c id p = .ok p' := by
  rw [succeeds] at h
  rw [submitJob]
  cases hprepare : prepare g c id with
  | error =>
    rw [hprepare] at h
    cases h
  | ok =>
    cases hsubmit : c.submit id with
    | error =>
      rw [hprepare, hsubmit] at h
      cases h
    | ok =>
      dsimp only
      exact ⟨_, rfl⟩

theorem Submitted.record {earlier : List JobId} {p : Progress} (h : Submitted g skip earlier p)
    {s : Submission} (hskip : skip s.job = false) (hnew : s.job ∉ earlier)
    (hlinked : DependsOn g skip p.queued s) :
    Submitted g skip (earlier ++ [s.job]) (p.record s) := by
  have hfresh : ∀ s' ∈ p.queued, s'.job ≠ s.job := by
    intro s' hs' heq
    have hmem : s'.job ∈ earlier.filter fun id => !skip id := by
      rw [← h.jobs]
      exact mem_map_of_mem hs'
    exact hnew (heq ▸ mem_of_mem_filter hmem)
  constructor
  · have hone : [s.job].filter (fun id => !skip id) = [s.job] := by
      rw [filter_singleton, hskip]
      rfl
    rw [Progress.record, map_append, filter_append, hone, h.jobs]
    rfl
  · intro s' hs'
    rw [Progress.record, Table.get_put]
    rcases mem_append.mp hs' with hs' | hs'
    · rw [if_neg (hfresh s' hs')]
      exact h.found s' hs'
    · rw [mem_singleton.mp hs', if_pos rfl]
  · intro s' hs'
    rw [Progress.record, Table.get_put]
    rcases mem_append.mp hs' with hs' | hs'
    · rw [if_neg (hfresh s' hs')]
      exact h.named s' hs'
    · rw [mem_singleton.mp hs', if_pos rfl]
  · intro before s' after hsplit
    change p.queued ++ [s] = before ++ s' :: after at hsplit
    rcases eq_nil_or_concat after with rfl | ⟨middle, last, rfl⟩
    · obtain ⟨hbefore, hlast⟩ := append_inj' hsplit rfl
      cases hlast
      exact hbefore ▸ hlinked
    · rw [concat_eq_append, ← cons_append, ← append_assoc] at hsplit
      exact h.linked before s' middle (append_inj' hsplit rfl).1
  · have hcounted := h.counted
    rw [Progress.record, length_append, length_singleton]
    dsimp only
    split_ifs <;> omega

theorem submitJobs_spec (t : TopologicalOrder g) {earlier rest : List JobId} {p p' : Progress}
    {failure : Option SlurmError} (horder : t.order = earlier ++ rest)
    (hp : Submitted g skip earlier p) (h : submitJobs g skip c rest p = (failure, p')) :
    ∃ passed left, t.order = passed ++ left ∧ Submitted g skip passed p' ∧
      (∀ id ∈ passed, id ∈ earlier ∨ skip id = true ∨ succeeds g c id = true) ∧
      ((failure = none ∧ left = []) ∨ (failure ≠ none ∧ ∃ id later, left = id :: later ∧
        skip id = false ∧ succeeds g c id = false)) := by
  induction rest generalizing earlier p with
  | nil =>
    cases h
    exact ⟨earlier, [], horder, hp, fun id hid => .inl hid, .inl ⟨rfl, rfl⟩⟩
  | cons id rest ih =>
    have hnodup := t.nodup
    rw [horder] at hnodup
    have hnew : id ∉ earlier := fun hid =>
      disjoint_of_nodup_append hnodup hid mem_cons_self
    have hnext : t.order = (earlier ++ [id]) ++ rest := by
      rw [horder, append_assoc]
      rfl
    have hwider : ∀ passed : List JobId, (skip id = true ∨ succeeds g c id = true) →
        (∀ x ∈ passed, x ∈ earlier ++ [id] ∨ skip x = true ∨ succeeds g c x = true) →
        ∀ x ∈ passed, x ∈ earlier ∨ skip x = true ∨ succeeds g c x = true := by
      intro passed hid hall x hx
      rcases hall x hx with hx | hx
      · rcases mem_append.mp hx with hx | hx
        · exact .inl hx
        · rw [mem_singleton.mp hx]
          exact .inr hid
      · exact .inr hx
    rw [submitJobs] at h
    by_cases hskip : skip id = true
    · rw [if_pos hskip] at h
      have hsame : earlier.filter (fun x => !skip x) =
          (earlier ++ [id]).filter fun x => !skip x := by
        rw [filter_append, filter_singleton, hskip]
        exact (append_nil _).symm
      have hp' : Submitted g skip (earlier ++ [id]) p :=
        ⟨hsame ▸ hp.jobs, hp.found, hp.named, hp.linked, hp.counted⟩
      obtain ⟨passed, left, hsplit, hpassed, hall, hend⟩ := ih hnext hp' h
      exact ⟨passed, left, hsplit, hpassed, hwider passed (.inl hskip) hall, hend⟩
    · rw [if_neg hskip] at h
      have hactive := Bool.eq_false_of_not_eq_true hskip
      cases hsubmit : submitJob g skip c id p with
      | error =>
        have hfails : succeeds g c id = false := by
          by_contra hyes
          obtain ⟨p₁, hp₁⟩ : ∃ p₁, submitJob g skip c id p = .ok p₁ :=
            exists_submitJob p (Bool.eq_true_of_not_eq_false hyes)
          rw [hsubmit] at hp₁
          cases hp₁
        rw [hsubmit] at h
        cases h
        exact ⟨earlier, id :: rest, horder, hp, fun x hx => .inl hx,
          .inr ⟨nofun, id, rest, rfl, hactive, hfails⟩⟩
      | ok =>
        rw [hsubmit] at h
        obtain ⟨hsucceeds, script, slurmJobId, rfl⟩ := submitJob_eq_ok hsubmit
        have hlinked : DependsOn g skip p.queued
            ⟨id, script, depSlurmIds g skip p.oxToSlurm id, slurmJobId⟩ := by
          refine forall₂_filterMap fun u hu => ?_
          obtain ⟨hupstream, hlive⟩ := mem_filter.mp hu
          have hmem : u ∈ p.queued.map Submission.job := by
            rw [hp.jobs]
            exact mem_filter.mpr ⟨t.before earlier id rest horder u hupstream, hlive⟩
          obtain ⟨b, hb, rfl⟩ := mem_map.mp hmem
          exact ⟨b.slurmJobId, hp.found b hb, b, hb, rfl, rfl⟩
        have hrecord := hp.record (s := ⟨id, script, _, slurmJobId⟩) hactive hnew hlinked
        obtain ⟨passed, left, hsplit, hpassed, hall, hend⟩ := ih hnext hrecord h
        exact ⟨passed, left, hsplit, hpassed, hwider passed (.inr hsucceeds) hall, hend⟩

/-! ### The law of a submission -/

/-- A submission that reports success is exact. -/
structure Exact (g : JobGraph) (skip : JobId → Bool) (d : DagSubmission)
    (queued : List Submission) : Prop where
  once : (queued.map Submission.job).Nodup
  /-- Exactly the live jobs that are not cached are submitted. -/
  jobs : ∀ id, id ∈ queued.map Submission.job ↔ id ∈ g.jobIds ∧ skip id = false
  /-- Each job depends on exactly its upstream jobs, submitted before it. -/
  linked : ∀ before s after, queued = before ++ s :: after → DependsOn g skip before s
  /-- The counts add up to the jobs of the graph. -/
  counted : d.submitted + d.pending + d.skipped = d.totalJobs ∧ d.totalJobs = g.jobIds.length

/-- A queued job can be found by a later process. -/
def Recorded (o : Outcome) (s : Submission) : Prop :=
  ∃ m, o.runMeta = some m ∧ m.jobMapping.get s.job = some (toString s.slurmJobId)

/-- The law of a submission. -/
structure Lawful (g : JobGraph) (skip : JobId → Bool) (c : Cluster) (o : Outcome) : Prop where
  /-- When every step succeeds the submission does. -/
  succeeds : localJob g skip = none → c.runStaging = true →
    (∀ id ∈ g.jobIds, skip id = false → succeeds g c id = true) → ∃ d, o.result = .ok d
  exact : ∀ d, o.result = .ok d → Exact g skip d o.queued
  /-- After a failure every queued job is cancelled or recorded. -/
  noOrphan : ∀ e, o.result = .error e → ∀ s ∈ o.queued,
    s.slurmJobId ∈ o.cancelled ∨ Recorded o s

def activeJobs (g : JobGraph) (skip : JobId → Bool) (sorted : List ℕ) : List JobId :=
  (sorted.filterMap (liveId g)).filter fun id => !skip id

/-- Once the first job could be submitted, every job can. -/
def NoLateFailure (g : JobGraph) (skip : JobId → Bool) (sorted : List ℕ) (c : Cluster) : Prop :=
  localJob g skip = none → c.runStaging = true → ∀ first rest,
    activeJobs g skip sorted = first :: rest → succeeds g c first = true →
    ∀ id ∈ rest, succeeds g c id = true

theorem noOrphan_of_nil {o : Outcome} (h : o.queued = []) : ∀ e, o.result = .error e →
    ∀ s ∈ o.queued, s.slurmJobId ∈ o.cancelled ∨ Recorded o s := by
  intro e _ s hs
  rw [h] at hs
  cases hs

theorem exact_of_submitted (t : TopologicalOrder g) {p : Progress} (h : Submitted g skip t.order p)
    (d : DagSubmission) (htotal : d.totalJobs = t.order.length)
    (hskipped : d.skipped = (t.order.filter skip).length)
    (hsubmitted : d.submitted = p.submittedRoots) (hpending : d.pending = p.pendingDeps) :
    Exact g skip d p.queued := by
  have hlength : p.queued.length = (t.order.filter fun id => !skip id).length := by
    rw [← h.jobs, length_map]
  have hsplit := (filter_append_perm skip t.order).length_eq
  rw [length_append] at hsplit
  have hids : t.order.length = g.jobIds.length := by
    refine ((perm_ext_iff_of_nodup t.nodup ?_).mpr t.mem_iff).length_eq
    exact (perm_insertionSort _ _).nodup_iff.mpr (g.idsNodup.filter _)
  constructor
  · rw [h.jobs]
    exact t.nodup.filter _
  · intro id
    rw [h.jobs, mem_filter, t.mem_iff, Bool.not_eq_true']
  · exact h.linked
  · have hcounted := h.counted
    rw [hsubmitted, hpending, hskipped, htotal, hids]
    omega

theorem submitted_start {earlier : List JobId}
    (h : earlier.filter (fun id => !skip id) = []) : Submitted g skip earlier Progress.start :=
  ⟨h.symm, fun _ hs => (nomatch hs), fun _ hs => (nomatch hs), fun before s after hsplit => by
    change [] = before ++ s :: after at hsplit
    exact absurd hsplit.symm (append_ne_nil_of_right_ne_nil before (cons_ne_nil s after)),
    rfl⟩

theorem lawful_iff_of_failure {p : Progress} {e : SlurmError} {id : JobId} (hid : id ∈ g.jobIds)
    (hskip : skip id = false) (hfails : succeeds g c id = false) :
    Lawful g skip c ⟨.error e, p.queued, [], none⟩ ↔ p.queued = [] := by
  constructor
  · intro h
    cases hqueued : p.queued with
    | nil => rfl
    | cons s =>
      rcases h.noOrphan e rfl s (hqueued ▸ mem_cons_self) with hcancelled | ⟨m, hm, -⟩
      · cases hcancelled
      · cases hm
  · intro hqueued
    refine ⟨fun _ _ hall => ?_, fun d hd => (nomatch hd), noOrphan_of_nil hqueued⟩
    rw [hall id hid hskip] at hfails
    cases hfails

theorem noLateFailure_iff_of_failure {sorted : List ℕ} {passed later : List JobId} {id : JobId}
    (hlocal : localJob g skip = none) (hstaging : c.runStaging = true)
    (hactive : activeJobs g skip sorted = passed ++ id :: later)
    (hpassed : ∀ x ∈ passed, succeeds g c x = true) (hfails : succeeds g c id = false) :
    NoLateFailure g skip sorted c ↔ passed = [] := by
  constructor
  · intro h
    cases passed with
    | nil => rfl
    | cons first rest =>
      have hsucceeds := h hlocal hstaging first (rest ++ id :: later) hactive
        (hpassed first mem_cons_self) id (mem_append_right rest mem_cons_self)
      rw [hfails] at hsucceeds
      cases hsucceeds
  · rintro rfl _ _ first rest hsplit hsucceeds
    rw [hactive] at hsplit
    cases hsplit
    rw [hfails] at hsucceeds
    cases hsucceeds

/-- A cluster that queues the first job of the row and refuses the second. -/
def brokenCluster : Cluster where
  runStaging := true
  jobStaging := fun _ => true
  generate := fun job => .ok job.rule
  writeScript := fun _ => true
  submit := fun id => if id = "b" then .error (.clusterUnreachable "sbatch") else .ok 7
  writeMeta := true

end OxyMake.SubmittedGraph
