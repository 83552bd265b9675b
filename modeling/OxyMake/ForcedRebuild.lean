import OxyMake.DeliveredRuns

/-!
# Consumers of changed outputs are executed again

A job is skipped by the cache only after every upstream job is satisfied, provided
the skip list counts no job twice. A job whose outputs changed forces its consumers
in the step that makes it satisfied, so none of them is skipped before or after.
-/

namespace OxyMake.ForcedRebuild

open List
open PhysicalGraph Observation SchedulingFrontier Frontier Completion SchedulerLoop
open FrontierInitialisation LabelledRuns DependencyNet NetInvariants CompletionRefinement
open LoopRefinement DependencySafety DeliveredRuns

/-! ### Comparing outputs -/

section Hashes

variable {Hash : Type} [DecidableEq Hash]

/-- The hashes of all outputs are known and equal to those recorded before the launch. -/
def SameOutputs (d : Delivery Hash) : Prop :=
  d.job.outputs ≠ [] ∧ ∃ previous, d.previous = some previous ∧ ∀ output ∈ d.job.outputs,
    ∃ hash, previous.lookup (outputRefKey output) = some hash ∧
      d.produced.lookup (outputRefKey output) = some hash

theorem changed_iff (d : Delivery Hash) : d.changed = true ↔ ¬ SameOutputs d := by
  unfold Delivery.changed outputsChanged SameOutputs
  cases hprevious : d.previous with
  | none => simp
  | some previous =>
    dsimp only
    rw [Bool.or_eq_true, any_eq_true, List.isEmpty_iff]
    constructor
    · rintro (hempty | ⟨output, hmem, hdiffers⟩) ⟨hsome, _, heq, hall⟩
      · exact hsome hempty
      · cases heq
        obtain ⟨_, hold, hnew⟩ := hall output hmem
        rw [hold, hnew] at hdiffers
        simp at hdiffers
    · intro hnot
      by_contra hsame
      rw [not_or] at hsame
      refine hnot ⟨hsame.1, previous, rfl, fun output hmem => ?_⟩
      have hequal := fun hdiffers => hsame.2 ⟨output, hmem, hdiffers⟩
      cases hold : previous.lookup (outputRefKey output) with
      | none => exact absurd rfl (hold ▸ hequal)
      | some expected =>
        cases hnew : d.produced.lookup (outputRefKey output) with
        | none => exact absurd rfl (hnew ▸ hold ▸ hequal)
        | some =>
          rw [hold, hnew, decide_eq_true_eq] at hequal
          exact ⟨expected, rfl, not_not.mp hequal ▸ rfl⟩

end Hashes

/-! ### Skipped jobs -/

theorem mem_jobIds_of_getJob {g : JobGraph} {id : JobId} {job : ConcreteJob}
    (h : g.getJob id = some job) : id ∈ g.jobIds := by
  unfold JobGraph.getJob at h
  split at h
  · cases h
  · next hskipped =>
    have hfound : (g.findJob id).isSome := by
      rw [h]
      rfl
    exact mem_jobIds.mpr ⟨findJob_isSome_iff.mp hfound, Bool.eq_false_of_not_eq_true hskipped⟩

section Net

variable {W : Wiring JobId} {D : Discipline JobId} {n n' : Net JobId}
  {labels : List (JobId × JobLifecycle)}

theorem skipped_after_upstream (hsound : Sound W True n) (h : Run (Fire W D) n labels n')
    {id : JobId} (hmem : (id, .skipped) ∈ labels) {up : JobId} (hup : up ∈ W.up id) :
    satisfied (n'.status up) = true := by
  obtain ⟨_, _, rfl⟩ := append_of_mem hmem
  obtain ⟨m, _, hbefore, hfire, hafter⟩ := h.split_at
  have hm := hsound.run hbefore
  have hsat : satisfied (m.status up) = true := by
    cases hfire with
    | hit _ hhand hready =>
      have hun : unfinished (m.status id) = true := by
        rw [hready]
        rfl
      obtain ⟨c, hc, -, hexact⟩ := hm.counted id hun
      have hzero := hm.released id hun (.inl (.inr (.inl hhand)))
      rw [hc, Option.some.injEq] at hzero
      exact unsat_eq_zero.mp (by rw [← hexact trivial, hzero]) up hup
  have hterm := terminal_of_satisfied hsat
  have hstep := hm.placed.terminal_fire hfire hterm
  have hrest := (hm.placed.fire hfire).terminal_run hafter (hstep ▸ hterm)
  rw [hrest, hstep]
  exact hsat

end Net

/-! ### Runs -/

variable {Hash : Type} [DecidableEq Hash] {x : Setup}

/-- What a run has delivered, and what the cache has skipped. -/
structure Rebuilds (x : Setup) (s : LoopState) (ds : List (Delivery Hash)) : Prop where
  /-- A job that has become succeeded was delivered, and what was committed is succeeded. -/
  executed : ∀ id, (s.frontier.statuses id = some .succeeded ∧
      (initial x).frontier.statuses id ≠ some .succeeded) ↔
    ∃ d ∈ ds, d.commits = true ∧ d.job.id = id
  /-- The cache has skipped no consumer of a job whose outputs are not the same. -/
  unskipped : ∀ obs, s.frontier.log = (initial x).frontier.log ++ obs →
    ∀ d ∈ ds, d.commits = true → ¬ SameOutputs d →
      ∀ dep ∈ x.graph.downstream d.job.id, (dep, .skipped) ∉ writes obs
  /-- Forced are only the consumers of such jobs, besides those forced from the beginning. -/
  forced : ∀ dep, dep ∈ s.frontier.forceRerun ↔ dep ∈ (initial x).frontier.forceRerun ∨
    ∃ d ∈ ds, d.commits = true ∧ ¬ SameOutputs d ∧ dep ∈ x.graph.downstream d.job.id

/-- Invariant of the runs of the loop. -/
structure Rebuilding (x : Setup) (ds : List (Delivery Hash)) (p : LoopState × Bool) : Prop where
  /-- The writes of the log are those of the deliveries. -/
  executed : Executed x ds p
  /-- No consumer of a changed output has been skipped. -/
  unskipped : ∀ obs, p.1.frontier.log = (initial x).frontier.log ++ obs →
    ∀ d ∈ ds, d.commits = true → d.changed = true →
      ∀ dep ∈ x.graph.downstream d.job.id, (dep, .skipped) ∉ writes obs
  forced : ∀ dep, dep ∈ p.1.frontier.forceRerun ↔ dep ∈ (initial x).frontier.forceRerun ∨
    ∃ d ∈ ds, d.commits = true ∧ d.changed = true ∧ dep ∈ x.graph.downstream d.job.id

theorem Rebuilding.moves {ds : List (Delivery Hash)} {p q : LoopState × Bool}
    (h : Rebuilding x ds p) (hstep : Moves x p q) : Rebuilding x ds q := by
  obtain ⟨obs, hlog, -, -⟩ := h.executed.grown
  obtain ⟨_, hnew, -, -, hunforced⟩ := hstep.grown
  refine ⟨h.executed.moves hstep, fun obs' hlog' d hd hcommits hchanged dep hdep hmem => ?_, ?_⟩
  · rw [hnew, hlog, append_assoc] at hlog'
    rw [← append_cancel_left hlog', writes_append] at hmem
    rcases mem_append.mp hmem with hmem | hmem
    · exact h.unskipped obs hlog d hd hcommits hchanged dep hdep hmem
    · exact hunforced dep hmem ((h.forced dep).mpr (.inr ⟨d, hd, hcommits, hchanged, hdep⟩))
  · rw [hstep.forceRerun]
    exact h.forced

theorem Rebuilding.delivers {ds : List (Delivery Hash)} {d : Delivery Hash}
    {p q : LoopState × Bool} (hcount : SkipsCountOnce x.topo.order x.graph x.config)
    (h : Rebuilding x ds p) (hstep : Delivers x p q d) : Rebuilding x (ds ++ [d]) q := by
  obtain ⟨obs, hlog, hrun, -⟩ := h.executed.grown
  obtain ⟨_, hnew, -, hnone, -⟩ := hstep.grown
  have hnode : d.job.id ∈ x.topo.order :=
    (x.topo.mem_iff d.job.id).mpr (mem_jobIds_of_getJob hstep.known)
  have hmem : ∀ e, e ∈ ds ++ [d] ↔ e ∈ ds ∨ e = d := by
    intro e
    rw [mem_append, mem_singleton]
  refine ⟨h.executed.delivers hstep, fun obs' hlog' e he hcommits hchanged dep hdep hwritten => ?_,
    fun dep => ?_⟩
  · rw [hnew, hlog, append_assoc] at hlog'
    rw [← append_cancel_left hlog', writes_append] at hwritten
    have hbefore := (mem_append.mp hwritten).resolve_right (hnone dep)
    rcases (hmem e).mp he with he | rfl
    · exact h.unskipped obs hlog e he hcommits hchanged dep hdep hbefore
    · have hsound : Sound (wiring x.topo) True (loopNet (initial x) ∅ false) :=
        initial_sound x fun _ => hcount
      have hup : e.job.id ∈ (wiring x.topo).up dep :=
        ((wiring x.topo).adjoint hnode ((wiring x.topo).down_mem hdep)).mpr hdep
      have hsat := skipped_after_upstream hsound hrun hbefore hup
      have hterm := terminal_of_satisfied hsat
      change terminal (p.1.frontier.statuses e.job.id) = true at hterm
      rw [hstep.not_terminal hcommits] at hterm
      cases hterm
  · rw [hstep.forceRerun, h.forced]
    constructor
    · rintro ((hfirst | ⟨e, he, hforces⟩) | hforces)
      · exact .inl hfirst
      · exact .inr ⟨e, (hmem e).mpr (.inl he), hforces⟩
      · exact .inr ⟨d, (hmem d).mpr (.inr rfl), hforces⟩
    · rintro (hfirst | ⟨e, he, hforces⟩)
      · exact .inl (.inl hfirst)
      · rcases (hmem e).mp he with he | rfl
        · exact .inl (.inr ⟨e, he, hforces⟩)
        · exact .inr hforces

theorem rebuilding_of_run (hcount : SkipsCountOnce x.topo.order x.graph x.config)
    {ds : List (Delivery Hash)} {p : LoopState × Bool}
    (h : Run (LoopStep x) (initial x, false) ds p) : Rebuilding x ds p := by
  have hstart : Rebuilding x ([] : List (Delivery Hash)) (initial x, false) :=
    ⟨executed_initial, by simp, by simp⟩
  refine h.recorded (Rebuilding x) ?_ hstart
  intro past p label q hinv hstep
  cases hstep with
  | moves hmoves =>
    rw [Option.toList_none, append_nil]
    exact hinv.moves hmoves
  | delivers hdelivers => exact hinv.delivers hcount hdelivers

/-- In every run whose skip list counts no job twice, whatever the answers and their order, the
consumers of a job that was executed with other outputs are not skipped by the cache, and a job
with the same outputs forces none. -/
theorem rebuilds_of_counted (hcount : SkipsCountOnce x.topo.order x.graph x.config) {p : Point}
    {ds : List (Delivery Hash)} (h : Recorded x p ds) : Rebuilds x p.state ds := by
  obtain ⟨_, hrun, -⟩ := recorded_run h
  have hinv := rebuilding_of_run hcount hrun
  refine ⟨hinv.executed.succeeded_iff, fun obs hlog d hd hcommits hsame => ?_, fun dep => ?_⟩
  · exact hinv.unskipped obs hlog d hd hcommits ((changed_iff d).mpr hsame)
  · rw [hinv.forced]
    simp only [changed_iff]

/-! ### A chain and an overlap -/

def cachedOnly (id : JobId) : Answers :=
  { Answers.plain with check := fun j => if j = id then .ok () else .error .cacheMiss }

/-- The end of an attempt with exit code zero whose outputs are compared. -/
def success (job : ConcreteJob) (changed : Bool) : CompletionMsg where
  job := job
  result := ⟨0, 5, none, none, none⟩
  outputsChanged := changed
  now := 0

def cachedChain : Setup :=
  { Setup.plain chainGraph chainOrder (skipping [] nodup_nil) with cache := true }

/-- The first job of the chain has been executed. -/
def rebuiltFirst : LoopState :=
  consume cachedChain (success (fileJob "a" [] ["a.txt"]) true)
    (joinTask cachedChain "a" (pass cachedChain (cachedOnly "b") (initial cachedChain)).state)

/-- The first job of the chain wrote another content, and its consumer is forced although it is
cached. -/
theorem rebuilds_of_counted_chain :
    "b" ∈ (pass cachedChain (cachedOnly "b") rebuiltFirst).state.frontier.forceRerun := by
  have hfirst : Recorded cachedChain _ (_ : List (Delivery ℕ)) :=
    .pass (cachedOnly "b") (.start rfl)
  have hdone := Recorded.completed (some [("a.txt", 1)]) [("a.txt", 2)] hfirst
    (show await cachedChain _ _ (.completed (success (fileJob "a" [] ["a.txt"]) true)) =
      some (.head rebuiltFirst) from rfl) rfl
  have hrebuilds := rebuilds_of_counted (skipsCountOnce_of_fresh rfl)
    (hdone.pass (cachedOnly "b"))
  refine (hrebuilds.forced "b").mpr (.inr ⟨_, mem_append_left _ (mem_append_right _
    (mem_singleton_self _)), rfl, (changed_iff _).mp rfl, ?_⟩)
  decide

/-- A resumed run of the join with a cache. -/
def cachedOverlap : Setup :=
  { Setup.plain joinGraph joinOrder overlapConfig with cache := true }

/-- The join was skipped by the cache before its second upstream job was executed. -/
def rebuiltSecond : LoopState :=
  consume cachedOverlap (success (fileJob "b" [] ["b.txt"]) true)
    (joinTask cachedOverlap "b" (pass cachedOverlap (cachedOnly "c") (initial cachedOverlap)).state)

/-- A consumer counted ready too early is skipped before its upstream job has changed. -/
theorem not_rebuilds_overlap :
    ¬ ∀ (x : Setup) (p : Point) (ds : List (Delivery ℕ)), x.cache = true → Recorded x p ds →
      Rebuilds x p.state ds := by
  intro h
  have hfirst : Recorded cachedOverlap _ (_ : List (Delivery ℕ)) :=
    .pass (cachedOnly "c") (.start rfl)
  have hdone := Recorded.completed (some [("b.txt", 1)]) [("b.txt", 2)] hfirst
    (show await cachedOverlap _ _ (.completed (success (fileJob "b" [] ["b.txt"]) true)) =
      some (.head rebuiltSecond) from rfl) rfl
  have hrebuilds := h _ _ _ rfl hdone
  have hskipped : ("c", .skipped) ∈
      writes (rebuiltSecond.frontier.log.drop (initial cachedOverlap).frontier.log.length) := by
    decide
  refine hrebuilds.unskipped _ rfl _ (mem_append_right _ (mem_singleton_self _)) rfl
    ((changed_iff _).mp rfl) "c" ?_ hskipped
  decide

end OxyMake.ForcedRebuild
