import OxyMake.LoopFrames

/-!
# An iteration that is not held up makes progress

With nothing in flight, an iteration whose jobs are held back by no gate, no
deadline, no lost claim, no cache hit and no signal either launches a job or
finds every job finished and returns.
-/

namespace OxyMake.DispatchProgress

open PhysicalGraph Observation SchedulingFrontier Frontier SchedulerLoop
open DependencyNet NetInvariants CompletionRefinement LoopRefinement LoopFrames

variable {x : Setup} {a : Answers}

/-- No gate, cache hit, lost claim or signal holds a job up in this iteration. -/
structure Unhindered (x : Setup) (a : Answers) : Prop where
  gates : ∀ id, x.graph.blockingGates id = []
  misses : x.cache = true → ∀ id, a.check id ≠ .ok ()
  wins : x.claimer = true → ∀ id, a.claim id = .won
  quiet : x.shutdown = true → ∀ id, a.signalled id = false

/-- An offered pending job that waits for no retry deadline. -/
structure Due (a : Answers) (s : LoopState) (id : JobId) : Prop where
  offered : id ∈ s.frontier.readyFrontier
  pending : s.frontier.statuses id = some .pending
  passed : ∀ deadline, s.frontier.retryReadyAt id = some deadline → deadline ≤ a.now id

theorem mem_findReadyJobs_of_due {s : LoopState} (hfree : Unhindered x a) {id : JobId}
    (hdue : Due a s id) : id ∈ (findReadyJobs x a s).ready := by
  have hblocked : ∀ (ids : List JobId) (acc : Search), acc.gateBlocked = [] →
      (ids.foldl (drainOne x a) acc).gateBlocked = [] := by
    intro ids
    induction ids with
    | nil => exact fun acc h => h
    | cons j ids ih =>
      intro acc h
      refine ih _ ?_
      unfold drainOne
      split
      · exact h
      · split
        · exact h
        · simp only [hfree.gates j, if_true]
          exact h
  have hgrow : ∀ (acc : Search) (j : JobId), id ∈ acc.ready → id ∈ (drainOne x a acc j).ready := by
    intro acc j h
    unfold drainOne
    split
    · exact h
    · split
      · exact h
      · dsimp only
        split
        · exact List.mem_append_left _ h
        · exact h
  -- The job is untouched until it is drained, and stays among the ready ones after that.
  have hdrain : ∀ (ids : List JobId) (acc : Search),
      id ∈ acc.ready ∨ id ∈ ids ∧ acc.frontier.statuses id = some .pending ∧
        acc.frontier.retryReadyAt id = s.frontier.retryReadyAt id →
      id ∈ (ids.foldl (drainOne x a) acc).ready := by
    intro ids
    induction ids with
    | nil => exact fun acc h => h.resolve_right fun h => by cases h.1
    | cons j ids ih =>
      intro acc h
      refine ih _ ?_
      obtain h | ⟨hmem, hpending, hretry⟩ := h
      · exact .inl (hgrow acc j h)
      · by_cases hj : id = j
        · subst hj
          left
          have hst : acc.frontier.getStatus id = some .pending := hpending
          have hpassed : ((acc.frontier.retryReadyAt id).any fun at' => a.now id < at') = false := by
            rw [hretry]
            cases hs : s.frontier.retryReadyAt id with
            | none => rfl
            | some deadline => simpa using hdue.passed deadline hs
          unfold drainOne
          rw [if_neg (not_not_intro hst), hpassed]
          simp [hfree.gates id]
        · right
          refine ⟨(List.mem_cons.mp hmem).resolve_left hj, ?_⟩
          unfold drainOne
          split
          · exact ⟨hpending, hretry⟩
          · split
            · exact ⟨hpending, hretry⟩
            · simp only [hfree.gates j, if_true]
              refine ⟨?_, ?_⟩
              · rw [setStatus_statuses, Function.update_of_ne hj]
                exact hpending
              · simpa [Frontier.setStatus, hj] using hretry
  have hready := hdrain (a.drainOrder s.frontier.readyFrontier)
    ⟨{ s.frontier with readyFrontier := [] }, [], [], s.gatesSeen⟩
    (.inr ⟨(a.drainOrder_perm _).mem_iff.mpr hdue.offered, hdue.pending, rfl⟩)
  unfold findReadyJobs
  dsimp only
  rw [hblocked _ _ rfl]
  exact (List.perm_insertionSort _ _).mem_iff.mpr hready

theorem claimJob_inFlight (id : JobId) (s : LoopState) :
    (claimJob x a id (checkCache x a id s).2 (checkCache x a id s).1).1.inFlight = s.inFlight := by
  have hcheck : (checkCache x a id s).1.inFlight = s.inFlight := by
    unfold checkCache
    dsimp only
    split <;> rfl
  rw [← hcheck]
  unfold claimJob
  split <;> rfl

theorem dispatchJob_inFlight (remaining : List JobId) (id : JobId) (s : LoopState) :
    ∀ j ∈ s.inFlight, j ∈ (dispatchJob x a remaining id s).1.inFlight := by
  intro j hj
  have hclaim := claimJob_inFlight (x := x) (a := a) id s
  have hcommit : ∀ (job : ConcreteJob) (cached : Bool) (m : LoopState), j ∈ m.inFlight →
      j ∈ (commitDispatch x job id cached remaining m).1.inFlight := by
    intro job cached m hm
    unfold commitDispatch
    dsimp only
    split
    · exact hm
    · split
      · exact hm
      · split
        · exact hm
        · split
          · exact hm
          · exact List.mem_insert_of_mem hm
  unfold dispatchJob
  split
  · exact hj
  · dsimp only
    generalize claimJob x a id (checkCache x a id s).2 (checkCache x a id s).1 = r at hclaim ⊢
    obtain ⟨claimed, _⟩ := r
    have hclaimed : j ∈ claimed.inFlight := by
      rw [hclaim]
      exact hj
    split
    · next owner he =>
      cases he
      unfold parkJob
      split <;> exact hclaimed
    · next he =>
      cases he
      split
      · exact hclaimed
      · exact hcommit _ _ _ hclaimed

theorem dispatchLoop_inFlight (rest : List JobId) (s : LoopState) (skipped : Bool) :
    ∀ j ∈ s.inFlight, j ∈ (dispatchLoop x a rest s skipped).1.inFlight := by
  induction rest generalizing s skipped with
  | nil => exact fun j hj => hj
  | cons id rest ih =>
    intro j hj
    have hone := dispatchJob_inFlight (x := x) (a := a) (id :: rest) id s j hj
    unfold dispatchLoop
    split
    · next s' he =>
      rw [he] at hone
      exact ih _ _ j hone
    · next s' he =>
      rw [he] at hone
      exact ih _ _ j hone
    · next s' he =>
      rw [he] at hone
      exact hone

theorem pollPeerWaits_inFlight (s : LoopState) :
    (pollPeerWaits x a s).1.inFlight = s.inFlight := by
  have hone : ∀ (acc : LoopState × Bool) (id : JobId),
      (pollPeer x a acc id).1.inFlight = acc.1.inFlight := by
    intro acc id
    unfold pollPeer
    dsimp only
    split
    · rfl
    · split
      · rfl
      · split <;> rfl
  have hfold : ∀ (ids : List JobId) (acc : LoopState × Bool),
      (ids.foldl (pollPeer x a) acc).1.inFlight = acc.1.inFlight := by
    intro ids
    induction ids with
    | nil => exact fun acc => rfl
    | cons id ids ih => exact fun acc => (ih _).trans (hone acc id)
  exact hfold _ _

theorem exitTests_inFlight (m : LoopState) (skipped : Bool) :
    (exitTests x m skipped).state.inFlight = m.inFlight := by
  unfold exitTests
  split
  · rfl
  · split
    · rfl
    · split <;> rfl

theorem dispatchPhase_inFlight (s : LoopState) : (dispatchPhase x a s).1.inFlight =
    (dispatchLoop x a (findReadyJobs x a s).ready
      { s with
        frontier := (findReadyJobs x a s).frontier
        gatesSeen := (findReadyJobs x a s).gatesSeen } false).1.inFlight := by
  unfold dispatchPhase
  dsimp only
  split
  · exact pollPeerWaits_inFlight _
  · rfl

theorem pass_inFlight (s : LoopState) : ∀ j ∈ s.inFlight, j ∈ (pass x a s).state.inFlight := by
  intro j hj
  unfold SchedulerLoop.pass
  dsimp only
  split
  · rw [exitTests_inFlight]
    exact hj
  · rw [exitTests_inFlight, dispatchPhase_inFlight]
    exact dispatchLoop_inFlight _ _ _ j hj

theorem dispatchJob_launches {s : LoopState} (hfree : Unhindered x a)
    (hbooks : Books x s) (hflight : s.inFlight = []) (hslot : 1 ≤ x.config.maxJobs)
    (remaining : List JobId) {id : JobId} (hready : s.frontier.statuses id = some .ready)
    (hjob : (x.graph.getJob id).isSome) :
    id ∈ (dispatchJob x a remaining id s).1.inFlight ∧
      (dispatchJob x a remaining id s).2 = .next := by
  obtain ⟨job, hjob⟩ := Option.isSome_iff_exists.mp hjob
  have hcheck : (checkCache x a id s).2 = false ∧ Books x (checkCache x a id s).1 ∧
      (checkCache x a id s).1.frontier.statuses = s.frontier.statuses := by
    unfold checkCache
    dsimp only
    split
    · next u hanswer =>
      split at hanswer
      · next hc => exact absurd hanswer (hfree.misses hc id)
      · cases hanswer
    · exact ⟨rfl, hbooks.of_same rfl rfl rfl rfl, rfl⟩
  have hclaim : ∃ outcome, claimJob x a id (checkCache x a id s).2 (checkCache x a id s).1 =
        ((claimJob x a id (checkCache x a id s).2 (checkCache x a id s).1).1, outcome) ∧
      (∀ owner, outcome ≠ some (.lost owner)) ∧
      Books x (claimJob x a id (checkCache x a id s).2 (checkCache x a id s).1).1 ∧
      (claimJob x a id (checkCache x a id s).2 (checkCache x a id s).1).1.frontier.statuses =
        s.frontier.statuses := by
    unfold claimJob
    split
    · next hgiven =>
      refine ⟨some (a.claim id), rfl, fun owner => ?_, hcheck.2.1.of_same rfl rfl rfl rfl, hcheck.2.2⟩
      rw [hfree.wins (by simp_all) id]
      simp
    · exact ⟨none, rfl, by simp, hcheck.2.1, hcheck.2.2⟩
  have hinFlight := claimJob_inFlight (x := x) (a := a) id s
  obtain ⟨outcome, houtcome, hwon, hclaimedBooks, hstatuses⟩ := hclaim
  have hquiet : (x.shutdown && a.signalled id) = false := by
    cases hs : x.shutdown with
    | false => rfl
    | true => simpa using hfree.quiet hs id
  unfold dispatchJob
  rw [hjob]
  dsimp only
  rw [houtcome]
  generalize (claimJob x a id (checkCache x a id s).2 (checkCache x a id s).1).1 = claimed at *
  rw [hcheck.1]
  have hreleased := hclaimedBooks.releaseTasks (a := a) id
  have hidle : (releaseTasks x a id claimed).inFlight = [] := hinFlight.trans hflight
  obtain ⟨hpermits, hfits⟩ := hreleased.idle hidle
  have hstatus : (releaseTasks x a id claimed).frontier.getStatus id = some .ready := by
    change claimed.frontier.statuses id = some .ready
    rw [hstatuses]
    exact hready
  have hlaunch : commitDispatch x job id false remaining (releaseTasks x a id claimed) =
      (launchJob x job id (releaseTasks x a id claimed), .next) := by
    unfold commitDispatch
    dsimp only
    rw [if_neg (not_not_intro hstatus), if_neg (by simp), hfits id, if_neg (by simp), hpermits,
      if_neg (by simp; omega)]
  split
  · next owner he =>
    exact absurd (Prod.mk.inj he).2 (hwon owner)
  · next he =>
    cases he
    rw [hquiet, if_neg (by simp), hlaunch]
    exact ⟨List.mem_insert_self, rfl⟩

def searching : Discipline JobId := ⟨False, False, False, fun _ _ => False, fun _ _ _ => False⟩

theorem pass_progress {s : LoopState} (hfree : Unhindered x a)
    (hdue : (∃ id ∈ s.frontier.readyFrontier, s.frontier.statuses id = some .pending) →
      ∃ id, Due a s id)
    (hslot : 1 ≤ x.config.maxJobs) (hbooks : Books x s) (hnodup : s.frontier.readyFrontier.Nodup)
    (hsound : Sound (wiring x.topo) True (loopNet s ∅ false))
    (hprop : Propagated (wiring x.topo) (loopNet s ∅ false)) (hgoing : s.terminateRequested = false)
    (hflight : s.inFlight = []) (hpeers : s.peerWaits = []) :
    (∃ s', pass x a s = .returned s') ∨ (pass x a s).state.inFlight ≠ [] := by
  have hready : ∀ j ∈ (entered s).frontier.readyFrontier,
      (entered s).frontier.statuses j ≠ some .ready := by
    intro j _ hj
    obtain h | h := hsound.placed.ready j hj
    · exact h
    · exact absurd h (by simp [loopNet, net, hgoing])
  obtain ⟨⟨_, -, -, -, hrun⟩, -, hfoundReady⟩ := findReadyJobs_simulates (x := x) (a := a)
    (D := searching) {j | j ∈ s.inFlight} {j | j ∈ s.peerWaits.map Prod.fst}
    s.terminateRequested (s := entered s) hnodup hready fun id _ hrejected => by
      obtain ⟨-, hin⟩ := hrejected
      rw [gateAnswers, hfree.gates id] at hin
      cases hin
  have hframed := (findReadyJobs_framed (x := x) (a := a) (entered s)).1
  have hmem : ∀ id, Due a s id → id ∈ (findReadyJobs x a (entered s)).ready := fun id h =>
    mem_findReadyJobs_of_due hfree ⟨h.offered, h.pending, h.passed⟩
  generalize hfound : findReadyJobs x a (entered s) = found at hrun hfoundReady hframed hmem
  have hpass : pass x a s = exitTests x (dispatchPhase x a (entered s)).1
      (dispatchPhase x a (entered s)).2 := by
    unfold SchedulerLoop.pass
    dsimp only
    rw [if_neg (by simp [hgoing])]
    rfl
  let m : LoopState := { entered s with frontier := found.frontier, gatesSeen := found.gatesSeen }
  have hm : Books x m := hbooks.of_same rfl rfl rfl hframed.resourceBudget
  have hsoundFound : Sound (wiring x.topo) True (loopNet m {j | j ∈ found.ready} false) :=
    hsound.run hrun
  cases hlist : found.ready with
  | nil =>
    left
    have hphase : dispatchPhase x a (entered s) = (m, false) := by
      unfold dispatchPhase
      dsimp only
      rw [hfound, hlist, dispatchLoop]
      exact if_neg fun h => h.2 hpeers
    have hall : allTerminal x m = true := by
      refine List.all_eq_true.mpr fun id hid => ?_
      have hterm : terminal ((loopNet s ∅ false).status id) = true := by
        by_contra hterm
        obtain ⟨k, hk, hpending, -⟩ := hsound.exists_offered hprop hgoing rfl
          (by simp [loopNet, net, hflight]) (by simp [loopNet, net, hpeers]) rfl
          (hsound.placed.unfinished_of_not_terminal hid hterm)
        obtain ⟨j, hj⟩ := hdue ⟨k, hk, hpending⟩
        have hin := hmem j hj
        rw [hlist] at hin
        cases hin
      have hkeep := hsound.placed.terminal_run hrun hterm
      change terminal (found.frontier.statuses id) = true
      exact (congrArg terminal hkeep).trans hterm
    rw [hpass, hphase]
    exact ⟨_, if_pos ⟨hall, hflight⟩⟩
  | cons first rest =>
    right
    have hstatus : m.frontier.statuses first = some .ready := hfoundReady first (by simp [hlist])
    obtain ⟨_, hjob⟩ := getJob_of_placed hsoundFound.placed hstatus
    obtain ⟨hin, hnext⟩ := dispatchJob_launches (s := m) hfree hm hflight hslot (first :: rest)
      hstatus (by rw [hjob]; rfl)
    have hloop : first ∈ (dispatchLoop x a (first :: rest) m false).1.inFlight := by
      unfold dispatchLoop
      split
      · next s' he =>
        rw [he] at hin
        exact dispatchLoop_inFlight _ _ _ first hin
      · next he => rw [he] at hnext; cases hnext
      · next he => rw [he] at hnext; cases hnext
    rw [hpass, exitTests_inFlight, dispatchPhase_inFlight, hfound, hlist]
    exact List.ne_nil_of_mem hloop

end OxyMake.DispatchProgress
