import OxyMake.LoopRefinement

/-!
# What the phases of an iteration leave alone

The search for ready jobs and every cancellation leave counters, forced jobs,
retry counts and the budget alone. Permits and resources are held only by
tasks in flight, and the budget is exactly what the outstanding guards hold,
so that it is idle when nothing is in flight.
-/

namespace OxyMake.LoopFrames

open List
open PhysicalGraph Admission SchedulingFrontier Frontier Completion SchedulerLoop
open LoopRefinement

variable {x : Setup} {a : Answers}

section Search

/-- Counters, forced jobs, retry counts and budget are the same. -/
structure Framed (f f' : Frontier) : Prop where
  pendingUpstream : f'.pendingUpstream = f.pendingUpstream
  forceRerun : f'.forceRerun = f.forceRerun
  retryCounts : f'.retryCounts = f.retryCounts
  resourceBudget : f'.resourceBudget = f.resourceBudget

theorem Framed.refl (f : Frontier) : Framed f f := ⟨rfl, rfl, rfl, rfl⟩

theorem Framed.trans {f f' f'' : Frontier} (h : Framed f f') (h' : Framed f' f'') : Framed f f'' :=
  ⟨h'.pendingUpstream.trans h.pendingUpstream, h'.forceRerun.trans h.forceRerun,
    h'.retryCounts.trans h.retryCounts, h'.resourceBudget.trans h.resourceBudget⟩

theorem cancelLoop_framed (g : JobGraph) (failedId : JobId) (fuel : ℕ)
    (toCancel visited : List JobId) (f : Frontier) :
    Framed f (cancelLoop g failedId fuel toCancel visited f) := by
  induction fuel generalizing toCancel visited f with
  | zero => exact .refl f
  | succ fuel ih =>
    cases toCancel with
    | nil => exact .refl f
    | cons =>
      rw [cancelLoop]
      split
      · exact ih _ _ _
      · dsimp only
        split
        · refine Framed.trans ?_ (ih _ _ _)
          exact ⟨rfl, rfl, rfl, rfl⟩
        · refine Framed.trans ?_ (ih _ _ _)
          exact ⟨rfl, rfl, rfl, rfl⟩
        · refine Framed.trans ?_ (ih _ _ _)
          exact ⟨rfl, rfl, rfl, rfl⟩
        · exact ih _ _ _

/-- The search collects only drained jobs and leaves the rest of the frontier alone. -/
structure Within (f₀ : Frontier) (acc : Search) : Prop where
  framed : Framed f₀ acc.frontier
  /-- Ready jobs come from the frontier. -/
  ready : ∀ id ∈ acc.ready, id ∈ f₀.readyFrontier
  /-- Gated jobs come from the frontier. -/
  gateBlocked : ∀ id ∈ acc.gateBlocked, id ∈ f₀.readyFrontier

theorem Within.drainOne {f₀ : Frontier} {acc : Search} (h : Within f₀ acc) {id : JobId}
    (hid : id ∈ f₀.readyFrontier) : Within f₀ (drainOne x a acc id) := by
  obtain ⟨hf, hr, hg⟩ := h
  have hadd : ∀ ids : List JobId, (∀ j ∈ ids, j ∈ f₀.readyFrontier) →
      ∀ j ∈ ids ++ [id], j ∈ f₀.readyFrontier := by
    intro ids hids j hj
    obtain h | h := mem_append.mp hj
    · exact hids j h
    · exact mem_singleton.mp h ▸ hid
  unfold SchedulerLoop.drainOne
  split
  · exact ⟨hf, hr, hg⟩
  · split
    · exact ⟨hf.trans ⟨rfl, rfl, rfl, rfl⟩, hr, hg⟩
    · dsimp only
      split
      · exact ⟨hf.trans ⟨rfl, rfl, rfl, rfl⟩, hadd _ hr, hg⟩
      · exact ⟨hf.trans ⟨rfl, rfl, rfl, rfl⟩, hr, hadd _ hg⟩

theorem gateStep_within {f₀ : Frontier} {acc : Search} (hf : Framed f₀ acc.frontier)
    (hr : ∀ id ∈ acc.ready, id ∈ f₀.readyFrontier) {id : JobId} (hid : id ∈ f₀.readyFrontier) :
    let next := (if x.gateChecker then checkGated x a else passGated) acc id
    Framed f₀ next.frontier ∧ ∀ id ∈ next.ready, id ∈ f₀.readyFrontier := by
  have hadd : ∀ j ∈ acc.ready ++ [id], j ∈ f₀.readyFrontier := by
    intro j hj
    obtain h | h := mem_append.mp hj
    · exact hr j h
    · exact mem_singleton.mp h ▸ hid
  dsimp only
  split
  · obtain ⟨⟨_, hnotes, -⟩, hready⟩ :=
      askGates_notes (a := a) id acc (x.graph.blockingGates id).zipIdx
    have hasked : Framed f₀
        ((x.graph.blockingGates id).zipIdx.foldl (askGate a id) acc).frontier := by
      rw [hnotes]
      exact hf.trans ⟨rfl, rfl, rfl, rfl⟩
    unfold checkGated
    dsimp only
    split
    · exact ⟨hasked, hready ▸ hr⟩
    · split
      · exact ⟨hasked.trans ⟨rfl, rfl, rfl, rfl⟩, hready ▸ hr⟩
      · split
        · exact ⟨hasked.trans ⟨rfl, rfl, rfl, rfl⟩, by rw [hready]; exact hadd⟩
        · exact ⟨hasked.trans ⟨rfl, rfl, rfl, rfl⟩, hready ▸ hr⟩
  · unfold passGated
    split
    · exact ⟨hf.trans ⟨rfl, rfl, rfl, rfl⟩, hadd⟩
    · exact ⟨hf, hr⟩

theorem findReadyJobs_framed (s : LoopState) :
    Framed s.frontier (findReadyJobs x a s).frontier ∧
      ∀ id ∈ (findReadyJobs x a s).ready, id ∈ s.frontier.readyFrontier := by
  have hdrain : ∀ (ids : List JobId) (acc : Search), (∀ id ∈ ids, id ∈ s.frontier.readyFrontier) →
      Within s.frontier acc → Within s.frontier (ids.foldl (drainOne x a) acc) := by
    intro ids
    induction ids with
    | nil => exact fun acc _ h => h
    | cons id ids ih =>
      exact fun acc hids h => ih _ (fun j hj => hids j (by simp [hj])) (h.drainOne (hids id (by simp)))
  have hgates : ∀ (ids : List JobId) (acc : Search), (∀ id ∈ ids, id ∈ s.frontier.readyFrontier) →
      Framed s.frontier acc.frontier → (∀ id ∈ acc.ready, id ∈ s.frontier.readyFrontier) →
      Framed s.frontier (ids.foldl (if x.gateChecker then checkGated x a else passGated) acc).frontier ∧
      ∀ id ∈ (ids.foldl (if x.gateChecker then checkGated x a else passGated) acc).ready,
        id ∈ s.frontier.readyFrontier := by
    intro ids
    induction ids with
    | nil => exact fun acc _ hf hr => ⟨hf, hr⟩
    | cons id ids ih =>
      intro acc hids hf hr
      obtain ⟨hf', hr'⟩ := gateStep_within (x := x) (a := a) hf hr (hids id (by simp))
      exact ih _ (fun j hj => hids j (by simp [hj])) hf' hr'
  have hdrained := hdrain (a.drainOrder s.frontier.readyFrontier)
    ⟨{ s.frontier with readyFrontier := [] }, [], [], s.gatesSeen⟩
    (fun id hid => (a.drainOrder_perm _).mem_iff.mp hid) ⟨⟨rfl, rfl, rfl, rfl⟩, by simp, by simp⟩
  obtain ⟨hf, hr⟩ := hgates _ _ hdrained.gateBlocked hdrained.framed hdrained.ready
  refine ⟨hf, fun id hid => hr id ?_⟩
  exact (perm_insertionSort _ _).mem_iff.mp hid

theorem checkCache_framed (id : JobId) (s : LoopState) :
    Framed s.frontier (checkCache x a id s).1.frontier := by
  unfold checkCache
  dsimp only
  split <;> exact ⟨rfl, rfl, rfl, rfl⟩

theorem claimJob_framed (id : JobId) (cached : Bool) (s : LoopState) :
    Framed s.frontier (claimJob x a id cached s).1.frontier := by
  unfold claimJob
  split
  · exact ⟨rfl, rfl, rfl, rfl⟩
  · exact .refl _

theorem parkJob_framed (id : JobId) (owner : Option String) (s : LoopState) :
    Framed s.frontier (parkJob id owner s).frontier := by
  unfold parkJob
  split
  · exact ⟨rfl, rfl, rfl, rfl⟩
  · exact .refl _

theorem deferAll_framed (ids : List JobId) (f : Frontier) : Framed f (ids.foldl deferJob f) := by
  induction ids generalizing f with
  | nil => exact .refl f
  | cons id ids ih =>
    refine Framed.trans ?_ (ih _)
    exact ⟨rfl, rfl, rfl, rfl⟩

theorem promoteDownstream_framed (g : JobGraph) (id : JobId) (f : Frontier) :
    (f.promoteDownstream g id).forceRerun = f.forceRerun ∧
      (f.promoteDownstream g id).retryCounts = f.retryCounts ∧
      (f.promoteDownstream g id).resourceBudget = f.resourceBudget := by
  obtain ⟨_, _, he⟩ := foldl_promote_eq (g.downstream id) f
  rw [promoteDownstream, he]
  exact ⟨rfl, rfl, rfl⟩

theorem commitDispatch_forceRerun (job : ConcreteJob) (id : JobId) (cached : Bool)
    (remaining : List JobId) (s : LoopState) :
    (commitDispatch x job id cached remaining s).1.frontier.forceRerun =
      s.frontier.forceRerun := by
  unfold commitDispatch
  dsimp only
  split
  · rfl
  · split
    · exact (promoteDownstream_framed x.graph id _).1
    · split
      · rfl
      · split
        · exact (deferAll_framed remaining s.frontier).forceRerun
        · rfl

theorem dispatchJob_forceRerun (remaining : List JobId) (id : JobId) (s : LoopState) :
    (dispatchJob x a remaining id s).1.frontier.forceRerun = s.frontier.forceRerun := by
  unfold dispatchJob
  split
  · rfl
  · have hcheck := (checkCache_framed (x := x) (a := a) id s).forceRerun
    have hclaim := (claimJob_framed (x := x) (a := a) id (checkCache x a id s).2
      (checkCache x a id s).1).forceRerun
    dsimp only
    generalize claimJob x a id (checkCache x a id s).2 (checkCache x a id s).1 = r at hclaim ⊢
    obtain ⟨claimed, _⟩ := r
    have hclaimed : claimed.frontier.forceRerun = s.frontier.forceRerun := hclaim.trans hcheck
    split
    · next owner he =>
      cases he
      exact (parkJob_framed id owner claimed).forceRerun.trans hclaimed
    · next he =>
      cases he
      split
      · exact hclaimed
      · rw [commitDispatch_forceRerun]
        exact hclaimed

end Search

section Books

/-- Amount of a resource held by a list of tasks. -/
def heldBy (x : Setup) (tasks : List JobId) (key : CanonicalResource) : ℕ :=
  (tasks.map fun id => amountOf (x.demands id) key).sum

/-- A budget with the capacity of the run, of which the tasks hold their demands. -/
def Accounts (x : Setup) (tasks : List JobId) (budget : ResourceBudget) : Prop :=
  budget.capacity = x.budget.capacity ∧ ∀ key, budget.inUse key = heldBy x tasks key

/-- Permits and resources are held by tasks in flight, and the budget shows it. -/
structure Books (x : Setup) (s : LoopState) : Prop where
  /-- Permits are held by tasks in flight. -/
  permits : ∀ id ∈ s.permitHeld, id ∈ s.inFlight
  /-- Resources are held by tasks in flight. -/
  guards : ∀ id ∈ s.guardHeld, id ∈ s.inFlight
  budget : Accounts x s.guardHeld s.frontier.resourceBudget

theorem Accounts.drop {tasks : List JobId} {budget : ResourceBudget} (h : Accounts x tasks budget)
    (keep : JobId → Bool) :
    Accounts x (tasks.filter keep)
      ((tasks.filter fun id => !keep id).foldl
        (fun budget task => budget.dropGuard (x.demands task)) budget) := by
  have hfold : ∀ (ids : List JobId) (b : ResourceBudget),
      (ids.foldl (fun budget task => budget.dropGuard (x.demands task)) b).capacity = b.capacity ∧
      ∀ key, (ids.foldl (fun budget task => budget.dropGuard (x.demands task)) b).inUse key =
        b.inUse key - heldBy x ids key := by
    intro ids
    induction ids with
    | nil => exact fun b => ⟨rfl, fun key => by simp [heldBy]⟩
    | cons id ids ih =>
      intro b
      obtain ⟨hcapacity, huse⟩ := ih (b.dropGuard (x.demands id))
      refine ⟨hcapacity, fun key => ?_⟩
      rw [foldl_cons, huse key]
      simp only [ResourceBudget.dropGuard, heldBy, map_cons, sum_cons]
      omega
  have hsplit : ∀ key, heldBy x tasks key =
      heldBy x (tasks.filter keep) key + heldBy x (tasks.filter fun id => !keep id) key := by
    intro key
    have hperm := ((filter_append_perm keep tasks).map
      fun id => amountOf (x.demands id) key).sum_eq
    rw [map_append, sum_append] at hperm
    exact hperm.symm
  obtain ⟨hcapacity, huse⟩ := hfold (tasks.filter fun id => !keep id) budget
  refine ⟨hcapacity.trans h.1, fun key => ?_⟩
  rw [huse key, h.2 key, hsplit key]
  omega

theorem Books.of_same {s s' : LoopState} (h : Books x s) (hflight : s'.inFlight = s.inFlight)
    (hpermits : s'.permitHeld = s.permitHeld) (hguards : s'.guardHeld = s.guardHeld)
    (hbudget : s'.frontier.resourceBudget = s.frontier.resourceBudget) : Books x s' := by
  refine ⟨?_, ?_, ?_⟩
  · rw [hpermits, hflight]
    exact h.permits
  · rw [hguards, hflight]
    exact h.guards
  · rw [hguards, hbudget]
    exact h.budget

theorem Books.releaseTasks {s : LoopState} (h : Books x s) (id : JobId) :
    Books x (releaseTasks x a id s) := by
  refine ⟨fun j hj => h.permits j (mem_of_mem_filter hj),
    fun j hj => h.guards j (mem_of_mem_filter hj), ?_⟩
  have hdrop := h.budget.drop fun task => decide (task ∉ a.guardsDropped id)
  unfold SchedulerLoop.releaseTasks
  simpa only [decide_not, Bool.not_not] using hdrop

theorem Books.joinTask {s : LoopState} (h : Books x s) (id : JobId) :
    Books x (joinTask x id s) := by
  have hleft : ∀ {j : JobId} {tasks : List JobId}, (∀ j ∈ tasks, j ∈ s.inFlight) →
      j ∈ tasks.filter (· ≠ id) → j ∈ s.inFlight.filter (· ≠ id) := by
    intro j tasks hin hj
    obtain ⟨hmem, hne⟩ := mem_filter.mp hj
    exact mem_filter.mpr ⟨hin j hmem, hne⟩
  refine ⟨fun j hj => hleft h.permits hj, fun j hj => hleft h.guards hj, ?_⟩
  have hdrop := h.budget.drop fun task => decide (task ≠ id)
  unfold SchedulerLoop.joinTask
  simpa only [decide_not, Bool.not_not, ne_eq] using hdrop

theorem Books.launchJob {s : LoopState} (h : Books x s) (job : ConcreteJob) (id : JobId) :
    Books x (launchJob x job id s) := by
  have hin : ∀ {j : JobId} {tasks : List JobId}, (∀ j ∈ tasks, j ∈ s.inFlight) →
      j ∈ id :: tasks → j ∈ s.inFlight.insert id := by
    intro j tasks hin hj
    obtain rfl | hj := mem_cons.mp hj
    · exact mem_insert_self
    · exact mem_insert_of_mem (hin j hj)
  refine ⟨fun j hj => hin h.permits hj, fun j hj => hin h.guards hj, h.budget.1, fun key => ?_⟩
  have huse := h.budget.2 key
  change s.frontier.resourceBudget.inUse key + amountOf (x.demands id) key =
    heldBy x (id :: s.guardHeld) key
  rw [huse, heldBy, heldBy, map_cons, sum_cons, Nat.add_comm]

theorem Books.commitDispatch {s : LoopState} (h : Books x s) (job : ConcreteJob) (id : JobId)
    (cached : Bool) (remaining : List JobId) :
    Books x (commitDispatch x job id cached remaining s).1 := by
  unfold SchedulerLoop.commitDispatch
  dsimp only
  split
  · exact h
  · split
    · exact h.of_same rfl rfl rfl (promoteDownstream_framed x.graph id _).2.2
    · split
      · exact h.of_same rfl rfl rfl rfl
      · split
        · exact h.of_same rfl rfl rfl (deferAll_framed remaining s.frontier).resourceBudget
        · exact h.launchJob job id

theorem Books.dispatchJob {s : LoopState} (h : Books x s) (remaining : List JobId) (id : JobId) :
    Books x (dispatchJob x a remaining id s).1 := by
  have hchecked : Books x (checkCache x a id s).1 := by
    unfold checkCache
    dsimp only
    split <;> exact h.of_same rfl rfl rfl rfl
  have hclaimed : Books x (claimJob x a id (checkCache x a id s).2 (checkCache x a id s).1).1 := by
    unfold claimJob
    split
    · exact hchecked.of_same rfl rfl rfl rfl
    · exact hchecked
  unfold SchedulerLoop.dispatchJob
  split
  · exact h
  · dsimp only
    generalize claimJob x a id (checkCache x a id s).2 (checkCache x a id s).1 = r at hclaimed ⊢
    obtain ⟨_, _⟩ := r
    split
    · next owner he =>
      cases he
      unfold parkJob
      split
      · exact hclaimed.of_same rfl rfl rfl rfl
      · exact hclaimed
    · next he =>
      cases he
      split
      · exact hclaimed.of_same rfl rfl rfl rfl
      · exact (hclaimed.releaseTasks id).commitDispatch _ _ _ _

theorem Books.dispatchLoop {s : LoopState} (h : Books x s) (rest : List JobId) (skipped : Bool) :
    Books x (dispatchLoop x a rest s skipped).1 := by
  induction rest generalizing s skipped with
  | nil => exact h
  | cons id rest ih =>
    have hone := h.dispatchJob (a := a) (id :: rest) id
    unfold SchedulerLoop.dispatchLoop
    split
    · next s' he => rw [he] at hone; exact ih hone _
    · next s' he => rw [he] at hone; exact ih hone _
    · next s' he => rw [he] at hone; exact hone

theorem handleCompletion_resourceBudget (p : Policy) (msg : CompletionMsg)
    (terminateRequested : Bool) (f : Frontier) :
    (handleCompletion p msg terminateRequested f).frontier.resourceBudget = f.resourceBudget := by
  have hsuccess : ∀ outputs, (commitSuccess p msg outputs f).resourceBudget = f.resourceBudget := by
    intro outputs
    unfold commitSuccess
    dsimp only
    rw [(promoteDownstream_framed _ _ _).2.2]
    split <;> rfl
  have hfailure : ∀ f' : Frontier, (cancelDownstream p.graph msg.job.id
      (recordFailure p msg f')).resourceBudget = f'.resourceBudget := fun f' =>
    (cancelLoop_framed _ _ _ _ _ _).resourceBudget
  unfold handleCompletion
  dsimp only
  split
  · rfl
  · split
    · exact hsuccess _
    · split
      · exact hsuccess _
      · split
        · unfold scheduleRetry
          dsimp only
          split <;> rfl
        · rw [hfailure]
          rfl
      · rw [hfailure]
        rfl
      · rw [hfailure]
        rfl

theorem Books.consume {s : LoopState} (h : Books x s) (msg : CompletionMsg) :
    Books x (consume x msg s) := by
  have hbudget := handleCompletion_resourceBudget x.policy msg s.terminateRequested
    (s.frontier.note [.delivered msg.job.id msg.result.exitCode])
  refine h.of_same rfl rfl rfl ?_
  unfold SchedulerLoop.consume
  dsimp only
  split
  · exact hbudget
  · exact hbudget

theorem Books.pollPeerWaits {s : LoopState} (h : Books x s) : Books x (pollPeerWaits x a s).1 := by
  have hone : ∀ (acc : LoopState × Bool) (id : JobId), Books x acc.1 →
      Books x (pollPeer x a acc id).1 := by
    intro acc id hacc
    have hunpark : Books x (unparkJob id acc.1) := hacc.of_same rfl rfl rfl rfl
    unfold pollPeer
    dsimp only
    split
    · exact hunpark
    · split
      · exact hunpark
      · split
        · exact hacc
        · exact hunpark.of_same rfl rfl rfl rfl
        · exact hunpark.consume _
        · exact hunpark.consume _
        · exact hunpark.of_same rfl rfl rfl (cancelLoop_framed _ _ _ _ _ _).resourceBudget
  have hfold : ∀ (ids : List JobId) (acc : LoopState × Bool), Books x acc.1 →
      Books x (ids.foldl (pollPeer x a) acc).1 := by
    intro ids
    induction ids with
    | nil => exact fun acc hacc => hacc
    | cons id ids ih => exact fun acc hacc => ih _ (hone acc id hacc)
  exact hfold _ _ h

theorem Books.exitTests {s : LoopState} (h : Books x s) (skipped : Bool) :
    Books x (exitTests x s skipped).state := by
  have hcancel : ∀ (ids : List JobId) (f : Frontier), (ids.foldl (fun f id =>
      (f.setStatus id .cancelled).note
        [.event (.jobCancelled id "run terminated due to failure")]) f).resourceBudget =
      f.resourceBudget := by
    intro ids
    induction ids with
    | nil => exact fun f => rfl
    | cons id ids ih => exact fun f => ih _
  unfold SchedulerLoop.exitTests
  split
  · exact h.of_same rfl rfl rfl rfl
  · split
    · exact h.of_same rfl rfl rfl (hcancel _ _)
    · split <;> exact h.of_same rfl rfl rfl rfl

theorem Books.pass {s : LoopState} (h : Books x s) : Books x (pass x a s).state := by
  unfold SchedulerLoop.pass
  dsimp only
  split
  · refine Books.exitTests ?_ false
    exact h.of_same rfl rfl rfl rfl
  · refine Books.exitTests ?_ _
    have hfound : Books x { entered s with
        frontier := (findReadyJobs x a (entered s)).frontier
        gatesSeen := (findReadyJobs x a (entered s)).gatesSeen } :=
      h.of_same rfl rfl rfl (findReadyJobs_framed (x := x) (a := a) (entered s)).1.resourceBudget
    have hdispatched := hfound.dispatchLoop (a := a) (findReadyJobs x a (entered s)).ready false
    unfold dispatchPhase
    dsimp only
    split
    · exact hdispatched.pollPeerWaits
    · exact hdispatched

theorem Books.await {s : LoopState} (h : Books x s) {skipped : Bool} {arm : Arm} {q : Point}
    (hq : await x s skipped arm = some q) : Books x q.state := by
  cases await_cases x hq with
  | again | polled | retryElapsed => exact h
  | interrupted =>
    refine h.of_same rfl rfl rfl ?_
    have hmarks : ∀ (ids : List JobId) (f : Frontier),
        (ids.foldl (fun f id => f.setStatus id .cancelled) f).resourceBudget = f.resourceBudget := by
      intro ids
      induction ids with
      | nil => exact fun f => rfl
      | cons id ids ih => exact fun f => ih _
    exact hmarks _ _
  | stopped | taskFailed | hardKill => exact h.of_same rfl rfl rfl rfl
  | completed => exact (h.joinTask _).consume _

theorem initial_resourceBudget (x : Setup) :
    (initial x).frontier.resourceBudget = x.budget := by
  have hbase : (base x.topo.order x.graph x.config x.budget).resourceBudget = x.budget := by
    unfold base
    split <;> rfl
  have hmark : ∀ (f : Frontier) (id : JobId),
      (premark x.graph f id).resourceBudget = f.resourceBudget := by
    intro f id
    unfold premark
    split
    · exact (promoteDownstream_framed x.graph id _).2.2
    · rfl
  have hfold : ∀ (ids : List JobId) (f : Frontier),
      (ids.foldl (premark x.graph) f).resourceBudget = f.resourceBudget := by
    intro ids
    induction ids with
    | nil => exact fun f => rfl
    | cons id ids ih => exact fun f => (ih _).trans (hmark f id)
  exact (hfold _ _).trans hbase

theorem reachable_books {c : Conduct} {p : Point} (h : Reachable x c p) : Books x p.state := by
  induction h with
  | start =>
    have hbudget := initial_resourceBudget x
    refine ⟨by simp [Point.state, initial], by simp [Point.state, initial], ?_, fun key => ?_⟩
    · rw [Point.state, hbudget]
    · rw [Point.state, hbudget, x.budgetIdle key]
      rfl
  | pass _ _ ih => exact ih.pass
  | await _ _ hq ih => exact ih.await hq

theorem Books.idle {s : LoopState} (h : Books x s) (hflight : s.inFlight = []) :
    s.permitHeld = [] ∧ ∀ id, s.frontier.resourceBudget.fitsUnits (x.demands id) = true := by
  have hnone : ∀ tasks : List JobId, (∀ j ∈ tasks, j ∈ s.inFlight) → tasks = [] := by
    intro tasks hin
    refine eq_nil_iff_forall_not_mem.mpr fun j hj => ?_
    have hmem := hin j hj
    rw [hflight] at hmem
    cases hmem
  refine ⟨hnone _ h.permits, fun id => ?_⟩
  have hguards := hnone _ h.guards
  refine fitsUnits_of_idle (fun key => ?_) ?_
  · rw [h.budget.2 key, hguards]
    rfl
  · have hadmits := x.demandsAdmitted id
    intro entry hentry
    rw [ResourceBudget.capacityOf, h.budget.1]
    exact hadmits entry hentry

end Books

end OxyMake.LoopFrames
