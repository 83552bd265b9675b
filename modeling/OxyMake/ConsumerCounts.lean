import OxyMake.DeliveredRuns
import OxyMake.FinalAccounting
import OxyMake.MemoryAccounting

/-!
# Pending consumers of an output

An output starts with one pending consumer for each edge to a job that reads it. A
committed success counts down the inputs of its job, and nothing else changes the count:
jobs that were skipped, cancelled, failed or adopted from a snapshot stay counted.
-/

namespace OxyMake.ConsumerCounts

open List
open KeyedTable PhysicalGraph Observation SchedulingFrontier Frontier SchedulerLoop
open DependencyNet Net
open DependencySafety DeliveredRuns MemoryAccounting

/-! ### What changes a count -/

def pendingConsumers (m : Memory) (key : String) : Option ℕ :=
  (m.outputMats.get key).map MaterializationSet.pendingConsumers

theorem pendingConsumers_modify (f : MaterializationSet → MaterializationSet)
    (hf : ∀ set, (f set).pendingConsumers = set.pendingConsumers) (k : String) (m : Memory)
    (key : String) : pendingConsumers (m.modify k f) key = pendingConsumers m key := by
  unfold pendingConsumers
  rw [modify_outputMats, Option.map_map]
  congr 1
  funext set
  simp only [Function.comp_apply]
  split
  · exact hf set
  · rfl

theorem pendingConsumers_keep (k : String) (data : List CacheKey.Byte) (m : Memory)
    (key : String) : pendingConsumers (m.keep k data) key = pendingConsumers m key := by
  change pendingConsumers ((m.modify k (.setSizeBytes data.length)).modify k
    (.add (.inMemory false))) key = _
  rw [pendingConsumers_modify (.add _) fun _ => rfl,
    pendingConsumers_modify (.setSizeBytes _) fun _ => rfl]

theorem pendingConsumers_register (jobId : JobId) (outputs : List RegisteredOutput)
    (around : Surroundings) (m : Memory) (key : String) :
    pendingConsumers (registerMaterializations jobId outputs around m).memory key =
      pendingConsumers m key := by
  have hlocated : ∀ (output : RegisteredOutput) (m : Memory),
      pendingConsumers (located output m) key = pendingConsumers m key := by
    intro output m
    unfold located
    split
    · split
      · rfl
      · exact pendingConsumers_modify (.add _) (fun _ => rfl) _ m key
    · rfl
  have hfold : ∀ (outputs : List RegisteredOutput) (acc : Registration),
      pendingConsumers (outputs.foldl (registerOutput jobId around) acc).memory key =
        pendingConsumers acc.memory key := by
    intro outputs
    induction outputs with
    | nil => exact fun _ => rfl
    | cons output outputs ih =>
      intro acc
      rw [foldl_cons, ih]
      obtain ⟨-, ⟨hmemory, -⟩ | hmemory⟩ := registerOutput_memory jobId around acc output
      · rw [hmemory]
      · rw [hmemory]
        cases offered around acc output with
        | none => exact hlocated output acc.memory
        | some =>
          rw [Option.elim_some, pendingConsumers_keep]
          exact hlocated output acc.memory
  exact hfold outputs ⟨m, around.memoryMap, []⟩

theorem pendingConsumers_evictLargest {m m' : Memory} (h : evictLargest m = some m')
    (key : String) : pendingConsumers m' key = pendingConsumers m key := by
  obtain ⟨k, _, hget, -, hsucceeds, rfl⟩ := evictLargest_cases h
  unfold pendingConsumers
  dsimp only
  rw [Table.get_update]
  by_cases hk : key = k
  · subst hk
    rw [hget, Option.map_some, if_pos (decide_eq_true rfl), Option.map_some,
      (MaterializationSet.evictInMemory_spec hsucceeds).2]
    rfl
  · simp only [decide_eq_true_eq, if_neg hk, Option.map_id']

theorem pendingConsumers_enforce (m : Memory) (key : String) :
    pendingConsumers (enforceMemoryBudget m).1 key = pendingConsumers m key := by
  have hall : ∀ (n : ℕ) (m : Memory) (evicted : ℕ), heldCount m = n →
      pendingConsumers (evictAll m evicted).1 key = pendingConsumers m key := by
    intro n
    induction n using Nat.strong_induction_on with
    | _ n ih =>
      intro m evicted hcount
      rw [evictAll]
      split
      · split
        · rfl
        · next m' hevict =>
          have hfewer := heldCount_evictLargest hevict
          rw [ih _ (hcount ▸ hfewer) m' (evicted + 1) rfl]
          exact pendingConsumers_evictLargest hevict key
      · rfl
  unfold enforceMemoryBudget
  split
  · rfl
  · exact hall _ m 0 rfl

theorem pendingConsumers_decrement (inputs : List OutputRef) (m : Memory) (key : String) :
    pendingConsumers (decrementInputConsumers inputs m) key =
      (pendingConsumers m key).map fun n => n - (inputs.map outputRefKey).count key := by
  unfold decrementInputConsumers
  induction inputs generalizing m with
  | nil => simp
  | cons input inputs ih =>
    rw [foldl_cons, ih, map_cons, count_cons]
    unfold pendingConsumers
    rw [modify_outputMats]
    cases m.outputMats.get key with
    | none => rfl
    | some =>
      simp only [Option.map_some, Option.some.injEq]
      by_cases hk : key = outputRefKey input
      · rw [if_pos hk, ← hk, beq_self_eq_true, if_pos rfl]
        unfold MaterializationSet.consumerFired
        dsimp only
        omega
      · rw [if_neg hk, beq_eq_false_iff_ne.mpr (Ne.symm hk)]
        simp

/-! ### Edges -/

theorem mem_of_getJob {g : JobGraph} {id : JobId} {job : ConcreteJob}
    (h : g.getJob id = some job) : job ∈ g.jobs := by
  unfold JobGraph.getJob at h
  split at h
  · cases h
  · exact mem_of_find?_eq_some h

/-- Number of edges from an output to jobs that have not finished. -/
def openEdges (g : JobGraph) (finished : ConcreteJob → Bool) (key : String) : ℕ :=
  ((g.jobs.filter fun job => !finished job).flatMap ConcreteJob.consumes).count key

theorem openEdges_eq_sum (g : JobGraph) (finished : ConcreteJob → Bool) (key : String) :
    openEdges g finished key = ((g.jobs.filter fun job => !finished job).map fun job =>
      job.consumes.count key).sum :=
  count_flatMap

theorem openEdges_eq_iff (g : JobGraph) {finished finished' : ConcreteJob → Bool} (key : String)
    (hle : ∀ job ∈ g.jobs, finished job = true → finished' job = true) :
    openEdges g finished key = openEdges g finished' key ↔
      ∀ job ∈ g.jobs, key ∈ job.consumes → finished' job = true → finished job = true := by
  rw [openEdges_eq_sum, openEdges_eq_sum]
  have hboth : ∀ jobs : List ConcreteJob,
      (∀ job ∈ jobs, finished job = true → finished' job = true) →
      ((jobs.filter fun job => !finished' job).map fun job => job.consumes.count key).sum ≤
        ((jobs.filter fun job => !finished job).map fun job => job.consumes.count key).sum ∧
      (((jobs.filter fun job => !finished job).map fun job => job.consumes.count key).sum =
        ((jobs.filter fun job => !finished' job).map fun job => job.consumes.count key).sum ↔
      ∀ job ∈ jobs, key ∈ job.consumes → finished' job = true → finished job = true) := by
    intro jobs
    induction jobs with
    | nil => exact fun _ => ⟨Nat.le_refl _, by simp⟩
    | cons job jobs ih =>
      intro hle
      obtain ⟨hbound, hiff⟩ := ih fun j hj => hle j (.tail _ hj)
      have hjob := hle job mem_cons_self
      rw [forall_mem_cons, ← hiff]
      cases hf : finished job with
      | true =>
        rw [hf] at hjob
        simp [hf, hjob rfl, hbound]
      | false =>
        cases hf' : finished' job with
        | true =>
          have hpos := List.count_pos_iff (a := key) (l := job.consumes)
          simp only [filter_cons, hf, hf', Bool.not_false, Bool.not_true, if_true,
            Bool.false_eq_true, if_false, map_cons, sum_cons, forall_const]
          refine ⟨by omega, ?_⟩
          rw [← hpos, imp_false]
          omega
        | false =>
          simp only [filter_cons, hf, hf', Bool.not_false, if_true, map_cons,
            sum_cons, Bool.false_eq_true, false_imp_iff, imp_true_iff, true_and]
          exact ⟨by omega, by omega⟩
  exact (hboth g.jobs hle).2

/-! ### Runs -/

variable {Hash : Type} [DecidableEq Hash] {x : Setup}

variable (x) in
/-- The memory of a run after its deliveries: a committed one registers the outputs of its job,
counts down the inputs and meets the budget. -/
inductive Served : List (Delivery Hash) → Memory → Prop
  | start (order : MapOrder x.graph) (budget : ℕ) (diskWriter : Bool) :
      Served [] (initialMemory x.graph order budget diskWriter)
  | committed {ds : List (Delivery Hash)} {d : Delivery Hash} {m : Memory}
      (outputs : List RegisteredOutput) (around : Surroundings) : Served ds m →
      d.commits = true → outputs.map RegisteredOutput.reference = d.job.outputs →
      Served (ds ++ [d]) (enforceMemoryBudget (decrementInputConsumers d.job.inputs
        (registerMaterializations d.job.id outputs around m).memory)).1
  | uncommitted {ds : List (Delivery Hash)} {d : Delivery Hash} {m : Memory} : Served ds m →
      d.commits = false → Served (ds ++ [d]) m

def committedJobs (ds : List (Delivery Hash)) : List ConcreteJob :=
  (ds.filter Delivery.commits).map Delivery.job

theorem pendingConsumers_initial {g : JobGraph} (order : MapOrder g) (budget : ℕ)
    (diskWriter : Bool) {key : String} (hkey : key ∈ outputKeys g) :
    pendingConsumers (initialMemory g order budget diskWriter) key =
      some (openEdges g (fun _ => false) key) := by
  have hrow : (key, .new (consumerCount g key)) ∈ (initOutputMaterializations g order).rows :=
    mem_map.mpr ⟨key, order.perm.mem_iff.mpr hkey, rfl⟩
  have hget := (Table.mem_rows_iff _ _ _).mp hrow
  unfold pendingConsumers openEdges
  change ((initOutputMaterializations g order).get key).map _ = _
  have hall : (g.jobs.filter fun job => !(fun _ : ConcreteJob => false) job) = g.jobs :=
    filter_eq_self.mpr fun _ _ => rfl
  rw [hget, hall]
  rfl

omit [DecidableEq Hash] in
theorem pendingConsumers_served {ds : List (Delivery Hash)} {m : Memory} (h : Served x ds m)
    (hknown : ∀ d ∈ ds, d.commits = true → x.graph.getJob d.job.id = some d.job)
    (honce : ((ds.filter Delivery.commits).map fun d => d.job.id).Nodup) {key : String}
    (hkey : key ∈ outputKeys x.graph) : pendingConsumers m key =
      some (openEdges x.graph (fun job => decide (job ∈ committedJobs ds)) key) := by
  induction h with
  | start order budget diskWriter =>
    rw [pendingConsumers_initial order budget diskWriter hkey]
    rfl
  | @committed ds d m outputs around _ hcommits _ ih =>
    rw [filter_append, filter_singleton, hcommits, cond_true, map_append,
      map_singleton] at honce
    obtain ⟨hnodup, -, hapart⟩ := nodup_append.mp honce
    have hbefore := ih (fun e he => hknown e (mem_append_left _ he)) hnodup
    rw [pendingConsumers_enforce, pendingConsumers_decrement, pendingConsumers_register, hbefore,
      Option.map_some, Option.some.injEq, openEdges_eq_sum, openEdges_eq_sum]
    have hjob : d.job ∈ x.graph.jobs :=
      mem_of_getJob (hknown d (mem_append_right _ (mem_singleton_self d)) hcommits)
    have hfresh : d.job ∉ committedJobs ds := by
      intro hmem
      obtain ⟨e, he, heq⟩ := mem_map.mp hmem
      refine hapart d.job.id ?_ d.job.id (mem_singleton_self _) rfl
      exact mem_map.mpr ⟨e, he, by rw [heq]⟩
    have hsplit := Counting.sum_unmarked (fun job => job.consumes.count key)
      (List.Nodup.of_map _ x.graph.idsNodup) hjob hfresh
    have hnext : committedJobs (ds ++ [d]) = committedJobs ds ++ [d.job] := by
      unfold committedJobs
      rw [filter_append, filter_singleton, hcommits, cond_true, map_append,
        map_singleton]
    have hsame : (x.graph.jobs.filter fun job => !decide (job ∈ committedJobs (ds ++ [d]))) =
        x.graph.jobs.filter (· ∉ d.job :: committedJobs ds) := by
      refine filter_congr fun job _ => ?_
      rw [hnext]
      simp [or_comm]
    have hold : (x.graph.jobs.filter fun job => !decide (job ∈ committedJobs ds)) =
        x.graph.jobs.filter (· ∉ committedJobs ds) := by
      refine filter_congr fun job _ => ?_
      simp
    rw [hsame, hold]
    change _ - d.job.consumes.count key = _
    omega
  | @uncommitted ds d m _ hcommits ih =>
    have hsame : committedJobs (ds ++ [d]) = committedJobs ds := by
      unfold committedJobs
      rw [filter_append, filter_singleton, hcommits, cond_false, append_nil]
    rw [filter_append, filter_singleton, hcommits, cond_false, append_nil] at honce
    rw [hsame]
    exact ih (fun e he => hknown e (mem_append_left _ he)) honce

def isFinished (s : LoopState) (job : ConcreteJob) : Bool := terminal (s.frontier.statuses job.id)

/-- A pending consumer for each edge to a job that has not finished. -/
structure Counts (x : Setup) (s : LoopState) (m : Memory) (key : String) : Prop where
  count : pendingConsumers m key = some (openEdges x.graph (isFinished s) key)
  /-- Without pending consumers no consumer can still run. -/
  idle : pendingConsumers m key = some 0 →
    ∀ job ∈ x.graph.jobs, key ∈ job.consumes → isFinished s job = true
  /-- When all consumers have finished the output is evictable. -/
  evictable : (∀ job ∈ x.graph.jobs, key ∈ job.consumes → isFinished s job = true) →
    ∃ set, m.outputMats.get key = some set ∧ set.isEvictable = true

/-- In every state that a run reaches the count of an output is right exactly when all its
consumers that have finished became succeeded in this run. -/
theorem counts_iff {p : Point} {ds : List (Delivery Hash)} {m : Memory} (h : Recorded x p ds)
    (hserved : Served x ds m) {key : String} (hkey : key ∈ outputKeys x.graph) :
    Counts x p.state m key ↔ ∀ job ∈ x.graph.jobs, key ∈ job.consumes →
      isFinished p.state job = true → p.state.frontier.statuses job.id = some .succeeded ∧
        (initial x).frontier.statuses job.id ≠ some .succeeded := by
  obtain ⟨_, hrun, -⟩ := recorded_run h
  have hexecuted := executed_of_run hrun
  have hpending := pendingConsumers_served hserved
    (fun d hd hcommits => (hexecuted.committed d hd hcommits).1) hexecuted.once hkey
  have hcommitted : ∀ job ∈ x.graph.jobs, job ∈ committedJobs ds ↔
      p.state.frontier.statuses job.id = some .succeeded ∧
        (initial x).frontier.statuses job.id ≠ some .succeeded := by
    intro job hjob
    rw [hexecuted.succeeded_iff]
    constructor
    · intro hmem
      obtain ⟨d, hd, rfl⟩ := mem_map.mp hmem
      obtain ⟨hd, hcommits⟩ := mem_filter.mp hd
      exact ⟨d, hd, hcommits, rfl⟩
    · rintro ⟨d, hd, hcommits, hid⟩
      have hsame := findJob_of_mem hjob
      have hother := findJob_of_mem (mem_of_getJob (hexecuted.committed d hd hcommits).1)
      rw [hid, hsame, Option.some.injEq] at hother
      exact mem_map.mpr ⟨d, mem_filter.mpr ⟨hd, hcommits⟩, hother.symm⟩
  have hfinished : ∀ job ∈ x.graph.jobs, decide (job ∈ committedJobs ds) = true →
      isFinished p.state job = true := by
    intro job hjob hmem
    unfold isFinished
    rw [((hcommitted job hjob).mp (of_decide_eq_true hmem)).1]
    rfl
  have hiff := openEdges_eq_iff x.graph key hfinished
  have hzero : ∀ finished : ConcreteJob → Bool, openEdges x.graph finished key = 0 ↔
      ∀ job ∈ x.graph.jobs, key ∈ job.consumes → finished job = true := by
    intro finished
    unfold openEdges
    rw [count_eq_zero, mem_flatMap]
    constructor
    · intro hnone job hjob hreads
      by_contra hopen
      exact hnone ⟨job, mem_filter.mpr ⟨hjob, by simp [hopen]⟩, hreads⟩
    · rintro hall ⟨job, hmem, hreads⟩
      obtain ⟨hjob, hopen⟩ := mem_filter.mp hmem
      rw [hall job hjob hreads] at hopen
      cases hopen
  constructor
  · intro hcounts job hjob hreads hdone
    have heq := hpending.symm.trans hcounts.count
    rw [Option.some.injEq] at heq
    exact (hcommitted job hjob).mp (of_decide_eq_true (hiff.mp heq job hjob hreads hdone))
  · intro hall
    have heq := hiff.mpr fun job hjob hreads hdone =>
      decide_eq_true ((hcommitted job hjob).mpr (hall job hjob hreads hdone))
    rw [heq] at hpending
    refine ⟨hpending, fun hnone => ?_, fun hdone => ?_⟩
    · rw [hpending, Option.some.injEq] at hnone
      exact (hzero _).mp hnone
    · rw [(hzero _).mpr hdone] at hpending
      unfold pendingConsumers at hpending
      obtain ⟨set, hset, hcount⟩ := Option.map_eq_some_iff.mp hpending
      exact ⟨set, hset, decide_eq_true hcount⟩

/-! ### A chain -/

open FinalAccounting

def chainKeys : MapOrder chainGraph := ⟨["a.txt", "b.txt"], by decide⟩

def firstDelivery : Delivery ℕ := ⟨fileJob "a" [] ["a.txt"], 0, none, [], false⟩

def secondDelivery : Delivery ℕ := ⟨fileJob "b" ["a.txt"] ["b.txt"], 1, none, [], false⟩

def firstMemory : Memory :=
  (enforceMemoryBudget (decrementInputConsumers [] (registerMaterializations "a"
    [⟨.file "a.txt", .auto⟩] ⟨false, none, fun _ => none⟩
    (initialMemory chainGraph chainKeys 0 false)).memory)).1

theorem firstMemory_served : Served plainChain [firstDelivery] firstMemory := by
  have hstart : Served plainChain ([] : List (Delivery ℕ))
      (initialMemory plainChain.graph chainKeys 0 false) :=
    Served.start (x := plainChain) chainKeys 0 false
  exact hstart.committed (d := firstDelivery) [⟨.file "a.txt", .auto⟩]
    ⟨false, none, fun _ => none⟩ rfl rfl

theorem afterFirst_recorded : Recorded plainChain (.head afterFirst) [firstDelivery] := by
  have hfirst : Recorded plainChain (.waiting (pass plainChain .plain (initial plainChain)).state
      false) (_ : List (Delivery ℕ)) := .pass .plain (.start rfl)
  exact Recorded.completed none [] hfirst (show await plainChain _ _
    (.completed (report (fileJob "a" [] ["a.txt"]) 0)) = some (.head afterFirst) from rfl) rfl

theorem afterSecond_recorded :
    Recorded plainChain (.head (afterSecond 1)) [firstDelivery, secondDelivery] := by
  have hsecond : Recorded plainChain (.waiting (pass plainChain .plain afterFirst).state
      false) (_ : List (Delivery ℕ)) := .pass .plain afterFirst_recorded
  exact Recorded.completed none [] hsecond (show await plainChain _ _
    (.completed (report (fileJob "b" ["a.txt"] ["b.txt"]) 1)) = some (.head (afterSecond 1)) from rfl)
    rfl

/-- After the first job its output waits for the second one. -/
theorem counts_iff_chain : Counts plainChain afterFirst firstMemory "a.txt" :=
  (counts_iff afterFirst_recorded firstMemory_served (by decide)).mpr (by decide)

/-- A consumer that has failed stays counted, and the output is never evictable. -/
theorem not_counts_failed :
    ¬ ∀ (x : Setup) (p : Point) (ds : List (Delivery ℕ)) (m : Memory) (key : String),
      Recorded x p ds → Served x ds m → key ∈ outputKeys x.graph → Counts x p.state m key := by
  intro h
  have hserved : Served plainChain [firstDelivery, secondDelivery] firstMemory :=
    .uncommitted firstMemory_served rfl
  have hcounts := h plainChain _ _ _ "a.txt" afterSecond_recorded hserved (by decide)
  exact absurd hcounts.count (by decide)

end OxyMake.ConsumerCounts
