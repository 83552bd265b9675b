import OxyMake.BudgetAccounting
import OxyMake.DependencySafety
import OxyMake.LoopFrames

/-!
# Limits of a run

A launch needs a free slot and room in the budget for the whole demand, and every other
step of the loop only gives slots and amounts back. So at every point of every run the
tasks that hold a slot are at most as many as the configuration allows, and the demands
of the tasks that hold resources add up to no more than the capacity.
-/

namespace OxyMake.LoopLimits

open PhysicalGraph Admission SchedulingFrontier Frontier Completion SchedulerLoop
open LoopFrames LoopRefinement

variable {x : Setup} {a : Answers} {s s' : LoopState}

/-- The limits of the run are kept. -/
structure Limited (x : Setup) (s : LoopState) : Prop where
  /-- No more tasks hold a permit than there are slots. -/
  slots : s.permitHeld.length ≤ x.config.maxJobs
  /-- The capacity is that of the run. -/
  capacity : s.frontier.resourceBudget.capacity = x.budget.capacity
  /-- No more is in use than there is. -/
  amounts : ∀ key, s.frontier.resourceBudget.inUse key ≤ x.budget.capacityOf key

theorem Limited.of_same (h : Limited x s) (hpermits : s'.permitHeld = s.permitHeld)
    (hbudget : s'.frontier.resourceBudget = s.frontier.resourceBudget) : Limited x s' := by
  refine ⟨?_, ?_, ?_⟩
  · rw [hpermits]
    exact h.slots
  · rw [hbudget]
    exact h.capacity
  · rw [hbudget]
    exact h.amounts

theorem Limited.giveBack (h : Limited x s) {tasks : List JobId}
    (hpermits : s'.permitHeld.length ≤ s.permitHeld.length)
    (hbudget : s'.frontier.resourceBudget = tasks.foldl
      (fun budget task => budget.dropGuard (x.demands task)) s.frontier.resourceBudget) :
    Limited x s' := by
  have hfold : ∀ (tasks : List JobId) (b : ResourceBudget),
      (tasks.foldl (fun budget task => budget.dropGuard (x.demands task)) b).capacity =
          b.capacity ∧
        ∀ key, (tasks.foldl (fun budget task => budget.dropGuard (x.demands task)) b).inUse key ≤
          b.inUse key := by
    intro tasks
    induction tasks with
    | nil => exact fun b => ⟨rfl, fun key => le_rfl⟩
    | cons task tasks ih =>
      intro b
      obtain ⟨hcapacity, huse⟩ := ih (b.dropGuard (x.demands task))
      exact ⟨hcapacity, fun key => (huse key).trans (Nat.sub_le _ _)⟩
  obtain ⟨hcapacity, huse⟩ := hfold tasks s.frontier.resourceBudget
  refine ⟨hpermits.trans h.slots, ?_, fun key => ?_⟩
  · rw [hbudget, hcapacity]
    exact h.capacity
  · rw [hbudget]
    exact (huse key).trans (h.amounts key)

theorem Limited.launchJob (hdemands : ∀ id, ((x.demands id).map Prod.fst).Nodup)
    (h : Limited x s) (job : ConcreteJob) {id : JobId}
    (hfits : s.frontier.resourceBudget.fitsUnits (x.demands id) = true)
    (hslot : s.permitHeld.length < x.config.maxJobs) : Limited x (launchJob x job id s) := by
  refine ⟨hslot, h.capacity, fun key => ?_⟩
  have hleft := BudgetAccounting.amountOf_le
    (fun key => x.budget.capacityOf key - s.frontier.resourceBudget.inUse key) (hdemands id) (by
      intro entry hentry
      have hle := of_decide_eq_true (List.all_eq_true.mp hfits entry hentry)
      rw [ResourceBudget.capacityOf, h.capacity] at hle
      exact hle) key
  have huse := h.amounts key
  change s.frontier.resourceBudget.inUse key + amountOf (x.demands id) key ≤ _
  omega

theorem Limited.commitDispatch (hdemands : ∀ id, ((x.demands id).map Prod.fst).Nodup)
    (h : Limited x s) (job : ConcreteJob) (id : JobId) (cached : Bool) (remaining : List JobId) :
    Limited x (commitDispatch x job id cached remaining s).1 := by
  unfold SchedulerLoop.commitDispatch
  dsimp only
  split_ifs with _ _ hfits hslot
  · exact h
  · exact h.of_same rfl (promoteDownstream_framed x.graph id _).2.2
  · exact h.of_same rfl rfl
  · exact h.of_same rfl (deferAll_framed remaining s.frontier).resourceBudget
  · exact h.launchJob hdemands job (Bool.eq_true_of_not_eq_false hfits) (Nat.not_le.mp hslot)

theorem Limited.dispatchJob (hdemands : ∀ id, ((x.demands id).map Prod.fst).Nodup)
    (h : Limited x s) (remaining : List JobId) (id : JobId) :
    Limited x (dispatchJob x a remaining id s).1 := by
  have hchecked : Limited x (checkCache x a id s).1 := by
    unfold checkCache
    dsimp only
    split <;> exact h.of_same rfl rfl
  have hclaimed :
      Limited x (claimJob x a id (checkCache x a id s).2 (checkCache x a id s).1).1 := by
    unfold claimJob
    split
    · exact hchecked.of_same rfl rfl
    · exact hchecked
  unfold SchedulerLoop.dispatchJob
  split
  · exact h
  · dsimp only
    generalize claimJob x a id (checkCache x a id s).2 (checkCache x a id s).1 = r at hclaimed ⊢
    obtain ⟨claimed, _⟩ := r
    split
    · next owner he =>
      cases he
      unfold parkJob
      split
      · exact hclaimed.of_same rfl rfl
      · exact hclaimed
    · next he =>
      cases he
      split
      · exact hclaimed.of_same rfl rfl
      · have hreleased : Limited x (releaseTasks x a id claimed) :=
          hclaimed.giveBack (List.length_filter_le _ _) rfl
        exact hreleased.commitDispatch hdemands _ _ _ _

theorem Limited.dispatchLoop (hdemands : ∀ id, ((x.demands id).map Prod.fst).Nodup)
    (h : Limited x s) (rest : List JobId) (skipped : Bool) :
    Limited x (dispatchLoop x a rest s skipped).1 := by
  induction rest generalizing s skipped with
  | nil => exact h
  | cons id rest ih =>
    have hone := h.dispatchJob (a := a) hdemands (id :: rest) id
    unfold SchedulerLoop.dispatchLoop
    rcases hrun : SchedulerLoop.dispatchJob x a (id :: rest) id s with ⟨_, result⟩
    rw [hrun] at hone
    cases result with
    | next | skipped => exact ih hone _
    | halt => exact hone

theorem Limited.consume (h : Limited x s) (msg : CompletionMsg) : Limited x (consume x msg s) := by
  have hbudget := handleCompletion_resourceBudget x.policy msg s.terminateRequested
    (s.frontier.note [.delivered msg.job.id msg.result.exitCode])
  refine h.of_same rfl ?_
  unfold SchedulerLoop.consume
  dsimp only
  split
  · exact hbudget
  · exact hbudget

theorem Limited.pollPeerWaits (h : Limited x s) : Limited x (pollPeerWaits x a s).1 := by
  have hone : ∀ (acc : LoopState × Bool) (id : JobId), Limited x acc.1 →
      Limited x (pollPeer x a acc id).1 := by
    intro acc id hacc
    have hunpark : Limited x (unparkJob id acc.1) := hacc.of_same rfl rfl
    unfold pollPeer
    dsimp only
    split
    · exact hunpark
    · split
      · exact hunpark
      · split
        · exact hacc
        · exact hunpark.of_same rfl rfl
        · exact hunpark.consume _
        · exact hunpark.consume _
        · exact hunpark.of_same rfl (cancelLoop_framed _ _ _ _ _ _).resourceBudget
  have hfold : ∀ (ids : List JobId) (acc : LoopState × Bool), Limited x acc.1 →
      Limited x (ids.foldl (pollPeer x a) acc).1 := by
    intro ids
    induction ids with
    | nil => exact fun acc hacc => hacc
    | cons id ids ih => exact fun acc hacc => ih _ (hone acc id hacc)
  exact hfold _ _ h

theorem foldl_resourceBudget (step : Frontier → JobId → Frontier)
    (hstep : ∀ f id, (step f id).resourceBudget = f.resourceBudget) (ids : List JobId)
    (f : Frontier) : (ids.foldl step f).resourceBudget = f.resourceBudget := by
  induction ids generalizing f with
  | nil => rfl
  | cons id ids ih => exact (ih _).trans (hstep f id)

theorem Limited.exitTests (h : Limited x s) (skipped : Bool) :
    Limited x (exitTests x s skipped).state := by
  unfold SchedulerLoop.exitTests
  split_ifs
  · exact h.of_same rfl rfl
  · exact h.of_same rfl (foldl_resourceBudget (fun f id => (f.setStatus id .cancelled).note
      [.event (.jobCancelled id "run terminated due to failure")]) (fun _ _ => rfl) _ _)
  · exact h.of_same rfl rfl
  · exact h.of_same rfl rfl

theorem Limited.pass (hdemands : ∀ id, ((x.demands id).map Prod.fst).Nodup) (h : Limited x s) :
    Limited x (pass x a s).state := by
  unfold SchedulerLoop.pass
  dsimp only
  split
  · refine Limited.exitTests ?_ false
    exact h.of_same rfl rfl
  · refine Limited.exitTests ?_ _
    have hfound : Limited x { entered s with
        frontier := (findReadyJobs x a (entered s)).frontier
        gatesSeen := (findReadyJobs x a (entered s)).gatesSeen } :=
      h.of_same rfl (findReadyJobs_framed (x := x) (a := a) (entered s)).1.resourceBudget
    have hdispatched :=
      hfound.dispatchLoop (a := a) hdemands (findReadyJobs x a (entered s)).ready false
    unfold dispatchPhase
    dsimp only
    split
    · exact hdispatched.pollPeerWaits
    · exact hdispatched

theorem Limited.await (h : Limited x s) {skipped : Bool} {arm : Arm} {q : Point}
    (hq : await x s skipped arm = some q) : Limited x q.state := by
  cases await_cases x hq with
  | again | polled | retryElapsed => exact h
  | interrupted =>
    exact h.of_same rfl (foldl_resourceBudget (fun f id => f.setStatus id .cancelled)
      (fun _ _ => rfl) _ _)
  | stopped | taskFailed | hardKill => exact h.of_same rfl rfl
  | completed =>
    have hjoined : ∀ id, Limited x (joinTask x id s) := fun id =>
      h.giveBack (List.length_filter_le _ _) rfl
    exact (hjoined _).consume _

/-- At every point of every run, whatever its inputs, at most as many tasks as there are slots
hold a permit, the demands of the tasks that hold resources stay within the capacity of every
resource, and both are held by jobs in flight only. -/
theorem run_within_limits (hdemands : ∀ id, ((x.demands id).map Prod.fst).Nodup) {c : Conduct}
    {p : Point} (h : Reachable x c p) :
    p.state.permitHeld.length ≤ x.config.maxJobs ∧
      (∀ key, (p.state.guardHeld.map fun id => amountOf (x.demands id) key).sum ≤
        x.budget.capacityOf key) ∧
      ∀ id, id ∈ p.state.permitHeld ∨ id ∈ p.state.guardHeld → id ∈ p.state.inFlight := by
  have hlimited : Limited x p.state := by
    induction h with
    | start =>
      have hbudget := initial_resourceBudget x
      refine ⟨Nat.zero_le _, ?_, fun key => ?_⟩
      · rw [Point.state, hbudget]
      · rw [Point.state, hbudget, x.budgetIdle key]
        exact Nat.zero_le _
    | pass _ _ ih => exact ih.pass hdemands
    | await _ _ hq ih => exact ih.await hq
  have hbooks := reachable_books h
  refine ⟨hlimited.slots, fun key => ?_, fun id hid => hid.elim (hbooks.permits id)
    (hbooks.guards id)⟩
  have hle := hlimited.amounts key
  rw [hbooks.budget.2 key] at hle
  exact hle

/-- One slot and two processors, which every job asks for. -/
def twoCpus : Setup :=
  { DependencySafety.skippedChain with
    budget := ⟨[(.cpu, 2)], fun _ => 0⟩
    budgetIdle := fun _ => rfl
    demands := fun _ => [(.cpu, 2)]
    demandsAdmitted := fun _ => by decide }

/-- The first iteration launches a job that takes the slot and both processors. -/
theorem run_within_limits_twoCpus :
    (pass twoCpus .plain (initial twoCpus)).state.guardHeld = ["b"] ∧
      ((pass twoCpus .plain (initial twoCpus)).state.guardHeld.map fun id =>
        amountOf (twoCpus.demands id) .cpu).sum ≤ 2 :=
  ⟨by decide, (run_within_limits (x := twoCpus) (fun _ => List.nodup_singleton _)
    (.pass (c := .free) (a := .plain) (.start rfl) trivial)).2.1 .cpu⟩

end OxyMake.LoopLimits
