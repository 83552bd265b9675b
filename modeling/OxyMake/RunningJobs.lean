import OxyMake.NoStuckRun

/-!
# Running jobs keep running

In a run without a snapshot a running job has all its upstream jobs satisfied,
so that no cancellation behind a failed job reaches it. Until the run is
interrupted, every job in flight is running.
-/

namespace OxyMake.RunningJobs

open Function
open PhysicalGraph Observation SchedulingFrontier Frontier Completion SchedulerLoop
open DependencyNet NetInvariants CompletionRefinement LoopRefinement
open DependencySafety

section Rooted

variable {g : JobGraph} {f f' : Frontier}

/-- Every running job has all its upstream jobs satisfied, and only jobs of the
graph have a status. -/
structure Rooted (g : JobGraph) (f : Frontier) : Prop where
  /-- Upstream jobs of a running job are satisfied. -/
  satisfied : ∀ d, f.statuses d = some .running → ∀ u ∈ g.upstream d,
    satisfied (f.statuses u) = true
  /-- A job with a status belongs to the graph. -/
  known : ∀ d, (f.statuses d).isSome → d ∈ g.jobIds

theorem Rooted.of_statuses (h : Rooted g f) (hst : f'.statuses = f.statuses) : Rooted g f' := by
  constructor
  · rw [hst]
    exact h.satisfied
  · rw [hst]
    exact h.known

theorem Rooted.update (h : Rooted g f) {id : JobId} {st : JobLifecycle}
    (hid : Observation.satisfied (f.statuses id) = false) (hsome : (f.statuses id).isSome)
    (hst : st ≠ .running) (hupdate : f'.statuses = Function.update f.statuses id (some st)) :
    Rooted g f' := by
  constructor
  · intro d hd u hu
    rw [hupdate] at hd ⊢
    by_cases hdid : d = id
    · subst hdid
      rw [update_self] at hd
      exact absurd (Option.some.inj hd) hst
    · rw [update_of_ne hdid] at hd
      have hsat := h.satisfied d hd u hu
      by_cases huid : u = id
      · subst huid
        rw [hid] at hsat
        cases hsat
      · rwa [update_of_ne huid]
  · intro d hd
    rw [hupdate] at hd
    by_cases hdid : d = id
    · subst hdid
      exact h.known d hsome
    · rw [update_of_ne hdid] at hd
      exact h.known d hd

/-- The job has an upstream job that is not satisfied. -/
def Doomed (g : JobGraph) (f : Frontier) (d : JobId) : Prop :=
  ∃ u ∈ g.upstream d, satisfied (f.statuses u) = false

theorem Doomed.update {d id : JobId} {st : JobLifecycle} (h : Doomed g f d)
    (hst : st.isSatisfied = false)
    (hupdate : f'.statuses = Function.update f.statuses id (some st)) : Doomed g f' d := by
  obtain ⟨u, hu, _⟩ := h
  refine ⟨u, hu, ?_⟩
  rw [hupdate]
  by_cases huid : u = id
  · rw [huid, update_self]
    exact hst
  · rwa [update_of_ne huid]

theorem doomed_downstream (h : Rooted g f) {u d : JobId} (hu : (f.statuses u).isSome)
    (hsat : satisfied (f.statuses u) = false) (hd : d ∈ g.downstream u) : Doomed g f d := by
  have hnode : d ∈ g.jobIds := bridgedNeighborsIds_mem_jobIds hd
  exact ⟨u, (mem_upstream_iff_mem_downstream (mem_jobIds.mp (h.known u hu)).2
    (mem_jobIds.mp hnode).2).mpr hd, hsat⟩

theorem cancelLoop_rooted (failedId : JobId) (fuel : ℕ) (toCancel visited : List JobId)
    {f : Frontier} (h : Rooted g f) (hdoomed : ∀ d ∈ toCancel, Doomed g f d) :
    Rooted g (cancelLoop g failedId fuel toCancel visited f) ∧
      ∀ d, f.statuses d = some .running →
        (cancelLoop g failedId fuel toCancel visited f).statuses d = some .running := by
  induction fuel generalizing toCancel visited f with
  | zero => exact ⟨h, fun _ hd => hd⟩
  | succ fuel ih =>
    cases toCancel with
    | nil => exact ⟨h, fun _ hd => hd⟩
    | cons id toCancel =>
      have hrest : ∀ d ∈ toCancel, Doomed g f d := fun d hd =>
        hdoomed d (.tail _ hd)
      -- an unfinished job is cancelled and its downstream jobs become doomed
      have hvisit : ∀ (f' : Frontier) (st : JobLifecycle), f.statuses id = some st →
          st.isTerminal = false → st ≠ .running →
          f'.statuses = Function.update f.statuses id (some .cancelled) →
          Rooted g (cancelLoop g failedId fuel ((g.downstream id).reverse ++ toCancel)
            (id :: visited) f') ∧
          ∀ d, f.statuses d = some .running →
            (cancelLoop g failedId fuel ((g.downstream id).reverse ++ toCancel)
              (id :: visited) f').statuses d = some .running := by
        intro f' st hst hopen hne hupdate
        have hrooted : Rooted g f' := by
          refine h.update ?_ (by rw [hst]; rfl) (by simp) hupdate
          rw [hst]
          cases st <;> simp_all [JobLifecycle.isTerminal, JobLifecycle.isSatisfied]
        have hcancelled : f'.statuses id = some .cancelled := by
          rw [hupdate, update_self]
        obtain ⟨hroot, hruns⟩ := ih ((g.downstream id).reverse ++ toCancel) (id :: visited)
          hrooted fun d hd => by
            cases List.mem_append.mp hd with
            | inl hd =>
              exact doomed_downstream hrooted (by rw [hcancelled]; rfl)
                (by rw [hcancelled]; rfl) (List.mem_reverse.mp hd)
            | inr hd => exact (hrest d hd).update rfl hupdate
        refine ⟨hroot, fun d hd => hruns d ?_⟩
        rw [hupdate, update_of_ne]
        · exact hd
        · rintro rfl
          rw [hst] at hd
          exact hne (Option.some.inj hd)
      rw [cancelLoop]
      split
      · exact ih _ _ h hrest
      · dsimp only
        split
        · next hst => exact hvisit _ _ hst rfl (by simp) rfl
        · next hst => exact hvisit _ _ hst rfl (by simp) rfl
        · next hst =>
          obtain ⟨u, hu, hsat⟩ := hdoomed id (by simp)
          rw [h.satisfied id hst u hu] at hsat
          cases hsat
        · exact ih _ _ h hrest

theorem cancelDownstream_rooted {id : JobId} (h : Rooted g f) (hsome : (f.statuses id).isSome)
    (hid : satisfied (f.statuses id) = false) :
    Rooted g (cancelDownstream g id f) ∧ ∀ d, f.statuses d = some .running →
      (cancelDownstream g id f).statuses d = some .running :=
  cancelLoop_rooted id _ _ _ h fun _ hd =>
    doomed_downstream h hsome hid (List.mem_reverse.mp hd)

end Rooted

section Completions

variable {f : Frontier}

theorem handleCompletion_rooted (p : Policy) (msg : CompletionMsg) (terminateRequested : Bool)
    (h : Rooted p.graph f) (hsome : (f.statuses msg.job.id).isSome)
    (hid : satisfied (f.statuses msg.job.id) = false) :
    let r := (handleCompletion p msg terminateRequested f).frontier
    Rooted p.graph r ∧ ∀ d, d ≠ msg.job.id → f.statuses d = some .running →
      r.statuses d = some .running := by
  have hwrite : ∀ (f' : Frontier) (st : JobLifecycle), st ≠ .running →
      f'.statuses = Function.update f.statuses msg.job.id (some st) →
      Rooted p.graph f' ∧ ∀ d, d ≠ msg.job.id → f.statuses d = some .running →
        f'.statuses d = some .running := by
    intro f' st hst hupdate
    refine ⟨h.update hid hsome hst hupdate, fun d hne hd => ?_⟩
    rw [hupdate, update_of_ne hne]
    exact hd
  have hfail : ∀ (f' : Frontier) (message : String),
      f'.statuses = Function.update f.statuses msg.job.id (some (.failed message)) →
      Rooted p.graph (cancelDownstream p.graph msg.job.id (recordFailure p msg f')) ∧
      ∀ d, d ≠ msg.job.id → f.statuses d = some .running →
        (cancelDownstream p.graph msg.job.id (recordFailure p msg f')).statuses d =
          some .running := by
    intro f' message hupdate
    obtain ⟨hrooted, hruns⟩ := hwrite (recordFailure p msg f') (.failed message) (by simp) hupdate
    have hfailed : (recordFailure p msg f').statuses msg.job.id = some (.failed message) := by
      change f'.statuses msg.job.id = _
      rw [hupdate, update_self]
    obtain ⟨hroot, hkeeps⟩ := cancelDownstream_rooted hrooted (by rw [hfailed]; rfl)
      (by rw [hfailed]; rfl)
    exact ⟨hroot, fun d hne hd => hkeeps d (hruns d hne hd)⟩
  have hsuccess : ∀ outputs, (commitSuccess p msg outputs f).statuses =
      Function.update f.statuses msg.job.id (some .succeeded) := by
    intro outputs
    unfold commitSuccess
    dsimp only
    rw [promoteDownstream_statuses]
    split <;> rfl
  unfold handleCompletion
  dsimp only
  split
  · exact ⟨h, fun _ _ hd => hd⟩
  · split
    · exact hwrite _ .succeeded (by simp) (hsuccess _)
    · split
      · exact hwrite _ .succeeded (by simp) (hsuccess _)
      · split
        · refine hwrite _ .pending (by simp) ?_
          unfold scheduleRetry
          dsimp only
          split <;> rfl
        · exact hfail _ _ rfl
      · exact hfail _ _ rfl
      · exact hfail _ _ rfl

variable {x : Setup} {a : Answers}

theorem consume_rooted (x : Setup) (msg : CompletionMsg) (s : LoopState)
    (h : Rooted x.graph s.frontier)
    (hsome : (s.frontier.statuses msg.job.id).isSome)
    (hid : satisfied (s.frontier.statuses msg.job.id) = false) :
    Rooted x.graph (consume x msg s).frontier ∧
      ∀ d, d ≠ msg.job.id → s.frontier.statuses d = some .running →
        (consume x msg s).frontier.statuses d = some .running := by
  have hdelivered : Rooted x.graph
      (s.frontier.note [.delivered msg.job.id msg.result.exitCode]) := h.of_statuses rfl
  obtain ⟨hrooted, hruns⟩ := handleCompletion_rooted x.policy msg s.terminateRequested
    (f := s.frontier.note [.delivered msg.job.id msg.result.exitCode]) hdelivered hsome hid
  unfold consume
  dsimp only
  split
  · exact ⟨hrooted.of_statuses rfl, hruns⟩
  · exact ⟨hrooted, hruns⟩

end Completions

section Flights

variable {x : Setup} {a : Answers}

/-- Until the run is interrupted, every job in flight is running, and no job is
in flight twice. -/
structure Flying (s : LoopState) : Prop where
  nodup : s.inFlight.Nodup
  running : s.shutdownReceived = false → ∀ j ∈ s.inFlight, s.frontier.statuses j = some .running

theorem Flying.of_same {s s' : LoopState} (h : Flying s) (hflight : s'.inFlight = s.inFlight)
    (hreceived : s'.shutdownReceived = false → s.shutdownReceived = false)
    (hruns : ∀ d, s.frontier.statuses d = some .running →
      s'.frontier.statuses d = some .running) : Flying s' := by
  constructor
  · rw [hflight]
    exact h.nodup
  · intro hr j hj
    rw [hflight] at hj
    exact hruns j (h.running (hreceived hr) j hj)

theorem pollPeer_rooted {acc : LoopState × Bool} (id : JobId) (h : Rooted x.graph acc.1.frontier)
    (hflying : Flying acc.1) :
    Rooted x.graph (pollPeer x a acc id).1.frontier ∧ Flying (pollPeer x a acc id).1 := by
  unfold pollPeer
  dsimp only
  split
  · exact ⟨h, hflying.of_same rfl (fun hr => hr) fun _ hd => hd⟩
  · next hpending =>
    have hpending : acc.1.frontier.statuses id = some .pending := not_not.mp hpending
    have hsome : (acc.1.frontier.statuses id).isSome := by rw [hpending]; rfl
    have hunsat : satisfied (acc.1.frontier.statuses id) = false := by rw [hpending]; rfl
    have hne : ∀ d, acc.1.frontier.statuses d = some .running → d ≠ id := by
      rintro d hd rfl
      rw [hpending] at hd
      cases hd
    split
    · exact ⟨h, hflying.of_same rfl (fun hr => hr) fun _ hd => hd⟩
    · next job hjob =>
      have hid : job.id = id := getJob_id hjob
      have hconsume : ∀ owner exitCode,
          let s := consume x (peerCompletion a job owner exitCode) (unparkJob id acc.1)
          Rooted x.graph s.frontier ∧ Flying s := by
        intro owner exitCode
        obtain ⟨hrooted, hruns⟩ := consume_rooted x
          (peerCompletion a job owner exitCode) (unparkJob id acc.1) (h.of_statuses rfl) (by rw [← hid] at hsome; exact hsome)
          (by rw [← hid] at hunsat; exact hunsat)
        refine ⟨hrooted, hflying.of_same rfl (fun hr => hr) fun d hd => hruns d ?_ hd⟩
        change d ≠ job.id
        rw [hid]
        exact hne d hd
      split
      · exact ⟨h, hflying⟩
      · exact ⟨h.of_statuses rfl, hflying.of_same rfl (fun hr => hr) fun _ hd => hd⟩
      · exact hconsume _ _
      · exact hconsume _ _
      · have hcancel : ∀ obs,
            let f := cancelDownstream x.graph id ((acc.1.frontier.setStatus id .cancelled).note obs)
            Rooted x.graph f ∧ ∀ d, acc.1.frontier.statuses d = some .running →
              f.statuses d = some .running := by
          intro obs
          let f := (acc.1.frontier.setStatus id .cancelled).note obs
          have hself : f.statuses id = some .cancelled := update_self _ _ _
          obtain ⟨hrooted, hruns⟩ := cancelDownstream_rooted (f := f)
            (h.update hunsat hsome (by simp) rfl) (by rw [hself]; rfl) (by rw [hself]; rfl)
          refine ⟨hrooted, fun d hd => hruns d ?_⟩
          change Function.update acc.1.frontier.statuses id (some .cancelled) d = some .running
          rw [update_of_ne (hne d hd)]
          exact hd
        exact ⟨(hcancel _).1, hflying.of_same rfl (fun hr => hr) (hcancel _).2⟩

theorem deferAll_statuses (ids : List JobId) (f : Frontier) (d : JobId) :
    (ids.foldl deferJob f).statuses d = if d ∈ ids then some .pending else f.statuses d := by
  induction ids generalizing f with
  | nil => simp
  | cons id ids ih =>
    rw [List.foldl_cons, ih]
    change (if d ∈ ids then _ else Function.update f.statuses id (some .pending) d) = _
    by_cases hd : d = id
    · subst hd
      simp
    · simp [hd]

theorem commitDispatch_flying {s : LoopState} (h : Flying s) (job : ConcreteJob) (id : JobId)
    (cached : Bool) {remaining : List JobId}
    (hready : ∀ j ∈ remaining, s.frontier.statuses j = some .ready) :
    let r := commitDispatch x job id cached remaining s
    Flying r.1 ∧ (r.2 ≠ .halt → ∀ d, d ≠ id → r.1.frontier.statuses d = s.frontier.statuses d) := by
  unfold commitDispatch
  dsimp only
  split
  · exact ⟨h, fun _ _ _ => rfl⟩
  · next hid =>
    have hid : s.frontier.statuses id = some .ready := not_not.mp hid
    have hwrite : ∀ (s' : LoopState) (st : JobLifecycle) (flow : Dispatched),
        s'.inFlight = s.inFlight → s'.shutdownReceived = s.shutdownReceived →
        s'.frontier.statuses = Function.update s.frontier.statuses id (some st) →
        Flying s' ∧
          (flow ≠ .halt → ∀ d, d ≠ id → s'.frontier.statuses d = s.frontier.statuses d) := by
      intro s' st flow hflight hreceived hupdate
      have hother : ∀ d, d ≠ id → s'.frontier.statuses d = s.frontier.statuses d := by
        intro d hd
        rw [hupdate, update_of_ne hd]
      refine ⟨h.of_same hflight (fun hr => hreceived ▸ hr) fun d hd => ?_, fun _ => hother⟩
      rw [hother]
      · exact hd
      · rintro rfl
        rw [hid] at hd
        cases hd
    split
    · refine hwrite _ .skipped .skipped rfl rfl ?_
      exact promoteDownstream_statuses (s.frontier.setStatus id .skipped) id
    · split
      · exact hwrite _ .pending .next rfl rfl rfl
      · split
        · refine ⟨h.of_same rfl (fun hr => hr) fun d hd => ?_, fun hhalt => absurd rfl hhalt⟩
          rw [deferAll_statuses, if_neg]
          · exact hd
          · intro hmem
            rw [hready d hmem] at hd
            cases hd
        · have hother : ∀ d, d ≠ id →
              (launchJob x job id s).frontier.statuses d = s.frontier.statuses d :=
            fun d hd => update_of_ne hd _ _
          refine ⟨⟨h.nodup.insert, fun hr j hj => ?_⟩, fun _ => hother⟩
          by_cases hj' : j = id
          · subst hj'
            exact update_self _ _ _
          · rw [hother j hj']
            exact h.running hr j ((List.mem_insert_iff.mp hj).resolve_left hj')

theorem attempt_fields (id : JobId) (s : LoopState) :
    let claimed := (claimJob x a id (checkCache x a id s).2 (checkCache x a id s).1).1
    claimed.frontier.statuses = s.frontier.statuses ∧ claimed.inFlight = s.inFlight ∧
      claimed.shutdownReceived = s.shutdownReceived := by
  have hchecked : (checkCache x a id s).1.frontier.statuses = s.frontier.statuses ∧
      (checkCache x a id s).1.inFlight = s.inFlight ∧
      (checkCache x a id s).1.shutdownReceived = s.shutdownReceived := by
    unfold checkCache
    dsimp only
    split <;> exact ⟨rfl, rfl, rfl⟩
  unfold claimJob
  dsimp only
  split <;> exact hchecked

theorem dispatchJob_flying {s : LoopState} (h : Flying s) (id : JobId) {remaining : List JobId}
    (hready : ∀ j ∈ remaining, s.frontier.statuses j = some .ready) :
    let r := dispatchJob x a remaining id s
    Flying r.1 ∧ (r.2 ≠ .halt → ∀ d, d ≠ id → r.1.frontier.statuses d = s.frontier.statuses d) := by
  unfold dispatchJob
  dsimp only
  split
  · exact ⟨h, fun _ _ _ => rfl⟩
  · next job _ =>
    have hfields := attempt_fields (x := x) (a := a) id s
    dsimp only at hfields ⊢
    generalize claimJob x a id (checkCache x a id s).2 (checkCache x a id s).1 = r at hfields ⊢
    obtain ⟨claimed, _⟩ := r
    obtain ⟨hstatuses, hflight, hreceived⟩ := hfields
    have hclaimed : Flying claimed :=
      h.of_same hflight (fun hr => hreceived ▸ hr) fun d hd => by rw [hstatuses]; exact hd
    split
    · next owner he =>
      cases he
      unfold parkJob
      split
      · next hid =>
        have hother : ∀ d, d ≠ id →
            Function.update claimed.frontier.statuses id (some .pending) d =
              s.frontier.statuses d := by
          intro d hd
          rw [update_of_ne hd, hstatuses]
        refine ⟨hclaimed.of_same rfl (fun hr => hr) fun d hd => ?_, fun _ => hother⟩
        change Function.update claimed.frontier.statuses id (some .pending) d = some .running
        rw [update_of_ne]
        · exact hd
        · rintro rfl
          rw [← getStatus_eq, hid] at hd
          cases hd
      · exact ⟨hclaimed, fun _ d _ => congrFun hstatuses d⟩
    · next he =>
      cases he
      split
      · exact ⟨hclaimed.of_same rfl (fun hr => hr) fun _ hd => hd, fun hhalt => absurd rfl hhalt⟩
      · have hreleased : Flying (releaseTasks x a id claimed) :=
          hclaimed.of_same rfl (fun hr => hr) fun _ hd => hd
        obtain ⟨hflying, hother⟩ := commitDispatch_flying (x := x) hreleased job id
          (checkCache x a id s).2 fun j (hj : j ∈ remaining) => by
            change claimed.frontier.statuses j = some .ready
            rw [hstatuses]
            exact hready j hj
        refine ⟨hflying, fun hhalt d hd => (hother hhalt d hd).trans ?_⟩
        exact congrFun hstatuses d

theorem dispatchLoop_flying {rest : List JobId} {s : LoopState} (skipped : Bool) (h : Flying s)
    (hnodup : rest.Nodup) (hready : ∀ j ∈ rest, s.frontier.statuses j = some .ready) :
    Flying (dispatchLoop x a rest s skipped).1 := by
  induction rest generalizing s skipped with
  | nil => exact h
  | cons id rest ih =>
    obtain ⟨hid, hrest⟩ := List.nodup_cons.mp hnodup
    have hone := dispatchJob_flying (x := x) (a := a) h id hready
    unfold dispatchLoop
    dsimp only at hone ⊢
    generalize dispatchJob x a (id :: rest) id s = r at hone ⊢
    obtain ⟨s', flow⟩ := r
    obtain ⟨hflying, hother⟩ := hone
    have hstill : flow ≠ .halt → ∀ j ∈ rest, s'.frontier.statuses j = some .ready := by
      intro hgo j hj
      have hne : j ≠ id := fun he => hid (he ▸ hj)
      exact (hother hgo j hne).trans (hready j (.tail _ hj))
    cases flow with
    | next => exact ih skipped hflying hrest (hstill (by simp))
    | skipped => exact ih true hflying hrest (hstill (by simp))
    | halt => exact hflying

theorem foldl_running {step : Search → JobId → Search}
    (hstep : ∀ acc id d, acc.frontier.statuses d = some .running →
      (step acc id).frontier.statuses d = some .running) (ids : List JobId) (acc : Search)
    {d : JobId} (hd : acc.frontier.statuses d = some .running) :
    (ids.foldl step acc).frontier.statuses d = some .running := by
  induction ids generalizing acc with
  | nil => exact hd
  | cons id ids ih => exact ih _ (hstep acc id d hd)

theorem findReadyJobs_running (s : LoopState) {d : JobId}
    (hd : s.frontier.statuses d = some .running) :
    (findReadyJobs x a s).frontier.statuses d = some .running := by
  have hwrite : ∀ (f : Frontier) (id d : JobId) (st : JobLifecycle),
      f.statuses id = some .pending → f.statuses d = some .running →
      Function.update f.statuses id (some st) d = some .running := by
    intro f id d st hid hd
    rw [update_of_ne]
    · exact hd
    · rintro rfl
      rw [hid] at hd
      cases hd
  have hdrain : ∀ acc id d, acc.frontier.statuses d = some .running →
      (drainOne x a acc id).frontier.statuses d = some .running := by
    intro acc id d hd
    unfold drainOne
    split
    · exact hd
    · next hid =>
      split
      · exact hd
      · dsimp only
        split
        · exact hwrite _ _ _ _ (not_not.mp hid) hd
        · exact hd
  have hgates : ∀ acc id d, acc.frontier.statuses d = some .running →
      ((if x.gateChecker then checkGated x a else passGated) acc id).frontier.statuses d =
        some .running := by
    intro acc id d hd
    split
    · obtain ⟨⟨_, hasked, -⟩, -⟩ :=
        askGates_notes (a := a) id acc (x.graph.blockingGates id).zipIdx
      have hstill : ((x.graph.blockingGates id).zipIdx.foldl (askGate a id) acc).frontier.statuses d
          = some .running := by
        rw [hasked]
        exact hd
      unfold checkGated
      dsimp only
      split
      · exact hstill
      · next hid =>
        split
        · exact hwrite _ _ _ _ (not_not.mp hid) hstill
        · split
          · exact hwrite _ _ _ _ (not_not.mp hid) hstill
          · exact hstill
    · unfold passGated
      split
      · next hid => exact hwrite _ _ _ _ hid hd
      · exact hd
  unfold findReadyJobs
  exact foldl_running hgates _ _ (foldl_running hdrain _ _ hd)

theorem exitTests_flying {s : LoopState} (h : Flying s) (skipped : Bool) :
    Flying (exitTests x s skipped).state := by
  have hsame : ∀ s' : LoopState, s'.inFlight = s.inFlight →
      s'.shutdownReceived = s.shutdownReceived →
      s'.frontier.statuses = s.frontier.statuses → Flying s' := fun s' hflight hreceived hst =>
    h.of_same hflight (fun hr => hreceived ▸ hr) fun d hd => by rw [hst]; exact hd
  unfold exitTests
  split
  · exact hsame _ rfl rfl rfl
  · split
    · next hidle =>
      constructor
      · exact h.nodup
      · intro _ j hj
        change j ∈ s.inFlight at hj
        rw [hidle.2] at hj
        cases hj
    · split <;> exact hsame _ rfl rfl rfl

end Flights

section Runs

variable {x : Setup} {a : Answers} {c : Conduct}

theorem rooted_of_sound {s : LoopState} {hand : Set JobId} {closed : Bool}
    (h : Sound (wiring x.topo) True (loopNet s hand closed)) : Rooted x.graph s.frontier := by
  constructor
  · intro d hd u hu
    have hopen : unfinished ((loopNet s hand closed).status d) = true := by
      change unfinished (s.frontier.statuses d) = true
      rw [hd]
      rfl
    have hstarted : (loopNet s hand closed).status d ≠ some .pending := by
      change s.frontier.statuses d ≠ some .pending
      rw [hd]
      simp
    obtain ⟨_, hcount, -, hexact⟩ := h.counted d hopen
    have hzero := h.released d hopen (.inr hstarted)
    rw [hcount, Option.some.injEq] at hzero
    have hnone : unsat (wiring x.topo) (loopNet s hand closed).status d = 0 := by
      rw [← hexact trivial, hzero]
    exact unsat_eq_zero.mp hnone u hu
  · intro d hd
    exact (x.topo.mem_iff d).mp ((h.placed.known d).mp hd)

/-- What is known of a point of a run without a snapshot. -/
structure Known (x : Setup) (s : LoopState) : Prop where
  /-- The net behind the state is sound. -/
  sound : ∃ closed, Sound (wiring x.topo) True (loopNet s ∅ closed)
  nodup : s.frontier.readyFrontier.Nodup

theorem reachable_known (hfresh : x.config.resumeSnapshot = none) {p : Point}
    (h : Reachable x c p) : Known x p.state := by
  obtain ⟨closed, _, hlinked⟩ := reachable_linked (obeys_freely x c) h
  have hstart : Sound (wiring x.topo) True (loopNet (initial x) ∅ false) :=
    initial_sound x fun _ => skipsCountOnce_of_fresh hfresh
  exact ⟨⟨closed, hstart.run hlinked.run⟩, hlinked.nodup⟩

theorem attempts_rooted {s : LoopState} (h : Known x s) (hgoing : s.terminateRequested = false) :
    let found := findReadyJobs x a (entered s)
    let m : LoopState :=
      { entered s with frontier := found.frontier, gatesSeen := found.gatesSeen }
    (found.ready.Nodup ∧ ∀ j ∈ found.ready, found.frontier.statuses j = some .ready) ∧
      Rooted x.graph (dispatchLoop x a found.ready m false).1.frontier := by
  obtain ⟨⟨_, hsound⟩, hnodup⟩ := h
  have hopen : Sound (wiring x.topo) True (loopNet s ∅ false) :=
    ⟨⟨hsound.placed.known, hsound.placed.flying, hsound.placed.running, hsound.placed.ready⟩,
      hsound.offered, hsound.released, hsound.counted⟩
  obtain ⟨hready, _, -, -, -, hrun⟩ :=
    attempts_simulate (a := a) (obeys_freely x .free) trivial hopen.placed hnodup hgoing
  exact ⟨hready, rooted_of_sound (hopen.run hrun)⟩

theorem pass_flying {s : LoopState} (hknown : Known x s) (h : Flying s) :
    Flying (pass x a s).state := by
  have hentered : Flying (entered s) := h.of_same rfl (fun hr => hr) fun _ hd => hd
  unfold SchedulerLoop.pass
  dsimp only
  split
  · exact exitTests_flying hentered false
  · next hgoing =>
    have hgoing : s.terminateRequested = false := by simpa using hgoing
    refine exitTests_flying ?_ _
    obtain ⟨⟨hnodup, hready⟩, hrooted⟩ := attempts_rooted (a := a) hknown hgoing
    have hsearched : Flying { entered s with
        frontier := (findReadyJobs x a (entered s)).frontier
        gatesSeen := (findReadyJobs x a (entered s)).gatesSeen } :=
      hentered.of_same rfl (fun hr => hr) fun d hd => findReadyJobs_running (entered s) hd
    have hdispatched := dispatchLoop_flying (x := x) (a := a) false hsearched hnodup hready
    have hpolls : ∀ (ids : List JobId) (acc : LoopState × Bool), Rooted x.graph acc.1.frontier →
        Flying acc.1 → Flying (ids.foldl (pollPeer x a) acc).1 := by
      intro ids
      induction ids with
      | nil => exact fun acc _ hf => hf
      | cons id ids ih =>
        intro acc hr hf
        obtain ⟨hr', hf'⟩ := pollPeer_rooted (x := x) (a := a) id hr hf
        exact ih _ hr' hf'
    unfold dispatchPhase
    dsimp only
    split
    · exact hpolls _ _ hrooted hdispatched
    · exact hdispatched

theorem await_flying {s : LoopState} (hknown : Known x s) (h : Flying s) {skipped : Bool}
    {arm : Arm} {q : Point} (hq : await x s skipped arm = some q) : Flying q.state := by
  cases await_cases x hq with
  | again | polled | retryElapsed => exact h
  | interrupted | stopped => exact ⟨h.nodup, fun hr => by cases hr⟩
  | @completed msg hflight hjob =>
    obtain ⟨_, hsound⟩ := hknown.sound
    have hplace := hsound.placed.flying msg.job.id hflight
    have hsome : (s.frontier.statuses msg.job.id).isSome := by
      cases hplace with
      | inl hst => change s.frontier.statuses _ = _ at hst; rw [hst]; rfl
      | inr hst => change s.frontier.statuses _ = _ at hst; rw [hst]; rfl
    have hunsat : satisfied (s.frontier.statuses msg.job.id) = false := by
      cases hplace with
      | inl hst => change s.frontier.statuses _ = _ at hst; rw [hst]; rfl
      | inr hst => change s.frontier.statuses _ = _ at hst; rw [hst]; rfl
    obtain ⟨-, hruns⟩ := consume_rooted x msg (joinTask x msg.job.id s)
      ((rooted_of_sound hsound).of_statuses rfl) hsome hunsat
    constructor
    · exact h.nodup.filter _
    · intro hr j hj
      obtain ⟨hmem, hne⟩ := List.mem_filter.mp hj
      exact hruns j (by simpa using hne) (h.running hr j hmem)
  | taskFailed | hardKill => exact h.of_same rfl (fun hr => hr) fun _ hd => hd

theorem reachable_flying (hfresh : x.config.resumeSnapshot = none) {p : Point}
    (h : Reachable x c p) : Flying p.state := by
  induction h with
  | start _ => exact ⟨List.nodup_nil, fun _ j hj => by cases hj⟩
  | pass hreach _ ih => exact pass_flying (reachable_known hfresh hreach) ih
  | await hreach _ hq ih => exact await_flying (reachable_known hfresh hreach) ih hq

end Runs

end OxyMake.RunningJobs
