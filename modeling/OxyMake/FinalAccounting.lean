import OxyMake.NarratedSteps
import OxyMake.RunningJobs

/-!
# Final accounting of a run

A run without a snapshot that returns has finished every job of the graph; its
counts add up to the number of jobs, its failure details to the failed ones,
and the event stream ends each job exactly once, at its last lifecycle event
and as its final status says.
-/

namespace OxyMake.FinalAccounting

open List
open PhysicalGraph Observation SchedulingFrontier Frontier Completion SchedulerLoop LoopRefinement
open LifecycleEvents NarratedSteps ObservedGrowth RunningJobs NoStuckRun

section Batches

theorem lifecycle_flatMap {ids : List JobId} (hnodup : ids.Nodup) {obs : JobId → List Obs}
    {marks : List Mark} (hmarks : ∀ j i, lifecycle i (obs j) = if j = i then marks else [])
    (id : JobId) : lifecycle id (ids.flatMap obs) = if id ∈ ids then marks else [] := by
  induction ids with
  | nil => rfl
  | cons j ids ih =>
    obtain ⟨hj, hrest⟩ := nodup_cons.mp hnodup
    rw [flatMap_cons, lifecycle_append, hmarks, ih hrest]
    by_cases hid : j = id
    · subst hid
      simp [hj]
    · simp [hid, Ne.symm hid]

theorem cancelAll_narrates {ids : List JobId} (hnodup : ids.Nodup) {f : Frontier}
    (hopen : ∀ id ∈ ids, endingOf (f.statuses id) = none) (reason : String) :
    Narrates f (ids.foldl (fun f id => (f.setStatus id .cancelled).note
      [.event (.jobCancelled id reason)]) f) := by
  induction ids generalizing f with
  | nil => exact .refl f
  | cons id ids ih =>
    obtain ⟨hid, hrest⟩ := nodup_cons.mp hnodup
    have hone : Narrates f ((f.setStatus id .cancelled).note
        [.event (.jobCancelled id reason)]) :=
      narrates_cancel [] (fun _ => rfl) (hopen id (by simp)) (append_assoc _ _ _) rfl rfl
    refine hone.trans (ih hrest fun j hj => ?_)
    change endingOf (Function.update f.statuses id (some .cancelled) j) = none
    have hne : j ≠ id := fun he => hid (he ▸ hj)
    rw [Function.update_of_ne hne]
    exact hopen j (.tail _ hj)

end Batches

section Points

variable {x : Setup} {a : Answers} {c : Conduct}

theorem exitTests_narrates (s : LoopState) (skipped : Bool) :
    Narrates s.frontier (exitTests x s skipped).state.frontier := by
  have hfinish : ∀ m : LoopState, Narrates s.frontier m.frontier →
      Narrates s.frontier (finishRun x m).frontier := fun m hm =>
    hm.trans (narrates_note _ fun _ => rfl)
  have hcancel : Narrates s.frontier (cancelRemaining x s).frontier := by
    refine cancelAll_narrates (jobIds_nodup.filter _) (fun id hid => ?_) _
    obtain ⟨-, hst⟩ := mem_filter.mp hid
    cases of_decide_eq_true hst with
    | inl hpending => exact open_of_status hpending rfl
    | inr hready => exact open_of_status hready rfl
  unfold exitTests
  split
  · exact hfinish s (.refl _)
  · split
    · exact hfinish _ hcancel
    · split
      · exact hfinish s (.refl _)
      · exact .refl _

theorem dispatchLoop_narrates {rest : List JobId} {s : LoopState} (skipped : Bool)
    (hflying : Flying s) (hnodup : rest.Nodup)
    (hready : ∀ j ∈ rest, s.frontier.statuses j = some .ready) :
    Narrates s.frontier (dispatchLoop x a rest s skipped).1.frontier := by
  induction rest generalizing s skipped with
  | nil => exact .refl _
  | cons id rest ih =>
    obtain ⟨hid, hrest⟩ := nodup_cons.mp hnodup
    have htold := dispatchJob_narrates (x := x) (a := a) id (s := s)
      fun j (hj : j ∈ id :: rest) => open_of_status (hready j hj) rfl
    have hone := dispatchJob_flying (x := x) (a := a) hflying id hready
    unfold dispatchLoop
    dsimp only at hone ⊢
    generalize dispatchJob x a (id :: rest) id s = r at htold hone ⊢
    obtain ⟨s', flow⟩ := r
    obtain ⟨hflying', hother⟩ := hone
    have hstill : flow ≠ .halt → ∀ j ∈ rest, s'.frontier.statuses j = some .ready := by
      intro hgo j hj
      have hne : j ≠ id := fun he => hid (he ▸ hj)
      exact (hother hgo j hne).trans (hready j (.tail _ hj))
    cases flow with
    | next => exact htold.trans (ih skipped hflying' hrest (hstill (by simp)))
    | skipped => exact htold.trans (ih true hflying' hrest (hstill (by simp)))
    | halt => exact htold

theorem pass_narrates {s : LoopState} (hknown : Known x s) (hflying : Flying s) :
    Narrates s.frontier (pass x a s).state.frontier := by
  have henter : Narrates s.frontier (entered s).frontier := narrates_note _ fun _ => rfl
  unfold SchedulerLoop.pass
  dsimp only
  split
  · exact henter.trans (exitTests_narrates _ _)
  · next hgoing =>
    have hgoing : s.terminateRequested = false := by simpa using hgoing
    refine (henter.trans ?_).trans (exitTests_narrates _ _)
    obtain ⟨⟨hnodup, hready⟩, -⟩ := attempts_rooted (a := a) hknown hgoing
    have hsearched : Flying { entered s with
        frontier := (findReadyJobs x a (entered s)).frontier
        gatesSeen := (findReadyJobs x a (entered s)).gatesSeen } :=
      hflying.of_same rfl (fun hr => hr) fun d hd => findReadyJobs_running (entered s) hd
    have hdispatched := (findReadyJobs_narrates (x := x) (a := a) (entered s)).trans
      (dispatchLoop_narrates (x := x) (a := a) false hsearched hnodup hready)
    unfold dispatchPhase
    dsimp only
    split
    · exact hdispatched.trans (Narrates.foldl (v := fun acc : LoopState × Bool => acc.1.frontier)
        pollPeer_narrates _ (_, false))
    · exact hdispatched

theorem interrupt_narrates {s : LoopState} {order : List JobId} (hnodup : order.Nodup)
    (hrunning : ∀ id ∈ order, s.frontier.statuses id = some .running) :
    Narrates s.frontier (interrupt order s).frontier := by
  have hfold : ∀ (ids : List JobId) (f : Frontier),
      let f' := ids.foldl (fun f id => f.setStatus id .cancelled) f
      f'.log = f.log ++ ids.map (Obs.status · .cancelled) ∧ f'.failedDetails = f.failedDetails ∧
        ∀ id, f'.statuses id = if id ∈ ids then some .cancelled else f.statuses id := by
    intro ids
    induction ids with
    | nil => exact fun f => ⟨(append_nil _).symm, rfl, fun _ => rfl⟩
    | cons j ids ih =>
      intro f
      obtain ⟨hlog, hdetails, hstatuses⟩ := ih (f.setStatus j .cancelled)
      refine ⟨?_, hdetails, fun id => ?_⟩
      · rw [foldl_cons, hlog, setStatus_log, append_assoc]
        rfl
      · rw [foldl_cons, hstatuses, setStatus_statuses]
        by_cases hid : id = j
        · subst hid
          simp
        · simp [hid]
  obtain ⟨hlog, hdetails, hstatuses⟩ := hfold order s.frontier
  have hwrites : Unmarked (order.map (Obs.status · .cancelled)) := by
    refine unmarked_of_forall fun o ho id => ?_
    obtain ⟨j, -, rfl⟩ := mem_map.mp ho
    rfl
  have hmarks : ∀ id, lifecycle id (order.map (Obs.status · .cancelled) ++
      order.flatMap fun id => [.event (.jobCancelled id "run interrupted"), .cancelRequested id]) =
      if id ∈ order then [.ended .cancelled] else [] := by
    intro id
    rw [lifecycle_append, hwrites, nil_append]
    refine lifecycle_flatMap hnodup (fun j i => ?_) id
    have hevent : markOn i (.event (.jobCancelled j "run interrupted")) =
        if j = i then some (.ended .cancelled) else none := rfl
    rw [lifecycle_cons, hevent]
    split <;> rfl
  have htold : (interrupt order s).frontier.log = s.frontier.log ++
      (order.map (Obs.status · .cancelled) ++ order.flatMap fun id =>
        [.event (.jobCancelled id "run interrupted"), .cancelRequested id]) := by
    rw [← append_assoc, ← hlog]
    rfl
  refine .writes order .cancelled [] (fun id hid => open_of_status (hrunning id hid) rfl) htold
    hstatuses (fun id hid => ?_) (fun id hid => ?_) ?_ rfl hnodup
  · rw [hmarks, if_pos hid]
    exact told_end rfl
  · rw [hmarks, if_neg hid]
  · exact hdetails.trans (append_nil _).symm

theorem await_narrates {s : LoopState} (hknown : Known x s) (hflying : Flying s) {skipped : Bool}
    {arm : Arm} {q : Point} (hq : await x s skipped arm = some q) :
    Narrates s.frontier q.state.frontier := by
  have hrequests : ∀ o : JobId → Obs, (∀ j i, markOn i (o j) = none) →
      Unmarked (s.inFlight.map o) := by
    intro o ho
    refine unmarked_of_forall fun obs hobs i => ?_
    obtain ⟨j, -, rfl⟩ := mem_map.mp hobs
    exact ho j i
  cases await_cases x hq with
  | again | polled | retryElapsed | stopped => exact .refl _
  | @interrupted order _ _ hreceived hperm =>
    exact interrupt_narrates (hperm.nodup_iff.mpr hflying.nodup) fun id hid =>
      hflying.running hreceived id (hperm.mem_iff.mp hid)
  | @completed msg hflight hjob =>
    obtain ⟨_, hsound⟩ := hknown.sound
    have hjoined : Narrates s.frontier (joinTask x msg.job.id s).frontier :=
      narrates_same rfl rfl rfl
    refine hjoined.trans (consume_narrates (s := joinTask x msg.job.id s) ?_)
    cases hsound.placed.flying msg.job.id hflight with
    | inl hrunning => exact .inl (open_of_status hrunning rfl)
    | inr hcancelled => exact .inr hcancelled
  | taskFailed | hardKill => exact narrates_note _ (hrequests _ fun _ _ => rfl)

end Points

section Start

/-- What a run has told so far: the lifecycle of each job ends when its status
does, and the failure details list each failed job once. -/
structure Recorded (f : Frontier) : Prop where
  /-- Each lifecycle tells the status of its job. -/
  told : ∀ id, Told (f.statuses id) (lifecycle id f.log)
  nodup : (f.failedDetails.map FailedJobDetail.jobId).Nodup
  /-- The listed jobs are the failed ones. -/
  failed : ∀ id, id ∈ f.failedDetails.map FailedJobDetail.jobId ↔
    endingOf (f.statuses id) = some .failed

theorem Recorded.narrates {f f' : Frontier} (h : Recorded f) (h' : Narrates f f') :
    Recorded f' := by
  obtain ⟨_, _, hlog, hdetails, hmoves, hnodup, hmore⟩ := h'
  refine ⟨fun id => ?_, ?_, fun id => ?_⟩
  · rw [hlog, lifecycle_append]
    exact (h.told id).moves (hmoves id)
  · rw [hdetails, map_append]
    refine nodup_append'.mpr ⟨h.nodup, hnodup, ?_⟩
    intro id hid hid'
    exact ((hmore id).mp hid').1 ((h.failed id).mp hid)
  · rw [hdetails, map_append, mem_append, h.failed id, hmore id]
    have hstays := (hmoves id).ended (e := .failed)
    constructor
    · intro hcase
      cases hcase with
      | inl hold => exact hstays hold
      | inr hnew => exact hnew.2
    · intro hnow
      by_cases hold : endingOf (f.statuses id) = some .failed
      · exact .inl hold
      · exact .inr ⟨hold, hnow⟩

variable {x : Setup}

theorem initial_lifecycle (x : Setup) (id : JobId) :
    lifecycle id (initial x).frontier.log = if id ∈ skippedPre x then [.ended .skipped] else [] := by
  have hbase : (base x.topo.order x.graph x.config x.budget).log = [] := by
    unfold base
    split <;> rfl
  have hmark : ∀ (f : Frontier) (id : JobId),
      Adds (fun o => ∃ j st, o = .status j st) f (premark x.graph f id) := by
    intro f id
    unfold premark
    split
    · refine Adds.promote ?_ x.graph id
      exact ((Adds.refl f).setStatus ⟨id, .skipped, rfl⟩).andSame rfl rfl
    · exact .refl f
  obtain ⟨obs, hlog, -, hobs⟩ := Adds.foldl (v := fun f : Frontier => f) hmark x.config.skipJobs
    { base x.topo.order x.graph x.config x.budget with
      forceRerun := x.config.forceRerun.foldl (fun set id => set.insert id) [] }
  have hwrites : Unmarked obs := by
    refine unmarked_of_forall fun o ho j => ?_
    obtain ⟨i, st, rfl⟩ := hobs o ho
    rfl
  have hinit : (init x.topo.order x.graph x.config x.budget).log = obs :=
    hlog.trans (by rw [hbase, nil_append])
  have hplanned : Unmarked (((x.topo.order.filterMap fun id => (x.graph.getJob id).map fun job =>
      Event.jobPlanned id job.rule (x.graph.upstream id))).map .event) := by
    refine unmarked_of_forall fun o ho j => ?_
    obtain ⟨_, hevent, rfl⟩ := mem_map.mp ho
    obtain ⟨i, -, hi⟩ := mem_filterMap.mp hevent
    obtain ⟨job, -, rfl⟩ := Option.map_eq_some_iff.mp hi
    rfl
  have hnodup : (skippedPre x).Nodup := x.config.skipNodup.filter _
  have hskips : ∀ reason : JobId → String,
      lifecycle id (((skippedPre x).map fun j => Event.jobSkipped j (reason j)).map .event) =
        if id ∈ skippedPre x then [.ended .skipped] else [] := by
    intro reason
    rw [map_map, map_eq_flatMap]
    refine lifecycle_flatMap hnodup (fun j i => ?_) id
    have hevent : markOn i (.event (.jobSkipped j (reason j))) =
        if j = i then some (.ended .skipped) else none := rfl
    change lifecycle i [.event (.jobSkipped j (reason j))] = _
    rw [lifecycle_cons, hevent]
    split <;> rfl
  change lifecycle id ((init x.topo.order x.graph x.config x.budget).log ++
    (planEvents x).map .event) = _
  rw [hinit, lifecycle_append, hwrites, nil_append, planEvents, cons_append,
    map_cons, map_append, lifecycle_cons, lifecycle_append, hplanned, nil_append,
    hskips]
  rfl

theorem initial_recorded (hfresh : x.config.resumeSnapshot = none) :
    Recorded (initial x).frontier := by
  have hstatus : ∀ id, (initial x).frontier.statuses id =
      if id ∈ skippedPre x then some .skipped
      else if id ∈ x.topo.order then some .pending else none := by
    intro id
    have hbase : (base x.topo.order x.graph x.config x.budget).statuses id =
        if id ∈ x.topo.order then some .pending else none := by
      rw [base, hfresh]
      rfl
    change (init x.topo.order x.graph x.config x.budget).statuses id = _
    rw [FrontierInitialisation.init_statuses, hbase]
    have hmem : id ∈ skippedPre x ↔ id ∈ x.config.skipJobs ∧ id ∈ x.topo.order := by
      rw [skippedPre, mem_filter, decide_eq_true_eq]
    simp only [hmem]
  have hdetails : (initial x).frontier.failedDetails = [] := by
    have hfold : ∀ (ids : List JobId) (f : Frontier),
        (ids.foldl (premark x.graph) f).failedDetails = f.failedDetails := by
      intro ids
      induction ids with
      | nil => exact fun f => rfl
      | cons id ids ih =>
        intro f
        rw [foldl_cons, ih, premark]
        split
        · exact promoteDownstream_failedDetails _ _ _
        · rfl
    refine (hfold x.config.skipJobs _).trans ?_
    change (base x.topo.order x.graph x.config x.budget).failedDetails = []
    rw [base, hfresh]
    rfl
  refine ⟨fun id => ?_, ?_, fun id => ?_⟩
  · rw [initial_lifecycle, hstatus]
    split
    · exact told_end rfl
    · refine told_nil ?_
      split <;> rfl
  · rw [hdetails]
    exact nodup_nil
  · rw [hdetails, hstatus]
    split
    · simp [ending]
    · split <;> simp [ending]

theorem reachable_recorded {c : Conduct} (hfresh : x.config.resumeSnapshot = none) {p : Point}
    (h : Reachable x c p) : Recorded p.state.frontier := by
  induction h with
  | start => exact initial_recorded hfresh
  | pass hreach _ ih =>
    exact ih.narrates
      (pass_narrates (reachable_known hfresh hreach) (reachable_flying hfresh hreach))
  | await hreach _ hq ih =>
    exact ih.narrates
      (await_narrates (reachable_known hfresh hreach) (reachable_flying hfresh hreach) hq)

end Start

section Result

/-- The graphs that the constructor and the two mutators make. -/
inductive Constructed : JobGraph → Prop
  | build {jobs : List ConcreteJob} {g : JobGraph} : JobGraph.build jobs = .ok g → Constructed g
  | markSkipped {g : JobGraph} (id : JobId) : Constructed g → Constructed (g.markSkipped id)
  | addGate {g : JobGraph} (gate : GateId) (blocked : JobId) : Constructed g →
      Constructed (g.addGate gate blocked)

theorem Constructed.skipped {g : JobGraph} (h : Constructed g) :
    g.skipped.Nodup ∧ ∀ id ∈ g.skipped, id ∈ g.jobs.map ConcreteJob.id := by
  induction h with
  | @build jobs g hg =>
    have hnone : g.skipped = [] := by
      unfold JobGraph.build at hg
      split at hg
      · cases hg
      · split at hg
        · cases hg
        · cases hg
          rfl
    rw [hnone]
    exact ⟨nodup_nil, fun id hid => by cases hid⟩
  | @markSkipped g id _ ih =>
    unfold JobGraph.markSkipped
    split
    · next hnew =>
      refine ⟨nodup_cons.mpr ⟨hnew.2, ih.1⟩, fun j hj => ?_⟩
      cases mem_cons.mp hj with
      | inl he =>
        rw [he]
        exact findJob_isSome_iff.mp hnew.1
      | inr hold => exact ih.2 j hold
    · exact ih
  | @addGate g gate blocked _ ih =>
    unfold JobGraph.addGate
    split <;> exact ih

theorem Constructed.jobCount {g : JobGraph} (h : Constructed g) :
    g.jobCount = g.jobIds.length := by
  obtain ⟨hnodup, hmem⟩ := h.skipped
  have hperm : ((g.jobs.map ConcreteJob.id).filter fun id => g.isSkipped id).Perm g.skipped := by
    refine (perm_ext_iff_of_nodup (g.idsNodup.filter _) hnodup).mpr fun id => ?_
    rw [mem_filter, JobGraph.isSkipped, decide_eq_true_eq]
    exact ⟨fun hid => hid.2, fun hid => ⟨hmem id hid, hid⟩⟩
  have hsplit := (filter_append_perm (fun id => g.isSkipped id)
    (g.jobs.map ConcreteJob.id)).length_eq
  rw [length_append, hperm.length_eq, length_map] at hsplit
  rw [JobGraph.jobCount, JobGraph.jobIds, (perm_insertionSort _ _).length_eq]
  omega

/-- What a returned run reports. Durations and memory figures are left out. -/
structure SchedulerResult where
  totalJobs : ℕ
  succeeded : ℕ
  failed : ℕ
  skipped : ℕ
  cancelled : ℕ
  failedDetails : List FailedJobDetail
  rootCause : Option RootCause

/-- The result read off the state in which the loop ended. -/
def schedulerResult (x : Setup) (s : LoopState) : SchedulerResult where
  totalJobs := x.graph.jobCount
  succeeded := countStatus x s fun st => st = .succeeded
  failed := countStatus x s fun st => st matches .failed _
  skipped := countStatus x s fun st => st = .skipped
  cancelled := countStatus x s fun st => st = .cancelled
  failedDetails := s.frontier.failedDetails
  rootCause := s.frontier.rootCause

variable {x : Setup} {c : Conduct} {s : LoopState}

theorem counts_of_finished (h : Finished x s) :
    x.topo.order.length = countStatus x s (fun st => st = .succeeded) +
      countStatus x s (fun st => st matches .failed _) +
      countStatus x s (fun st => st = .skipped) + countStatus x s (fun st => st = .cancelled) := by
  have hcount : ∀ ids : List JobId, (∀ id ∈ ids, terminal (s.frontier.getStatus id) = true) →
      ids.length =
        ids.countP (fun id => (s.frontier.getStatus id).any fun st => st = .succeeded) +
        ids.countP (fun id => (s.frontier.getStatus id).any fun st => st matches .failed _) +
        ids.countP (fun id => (s.frontier.getStatus id).any fun st => st = .skipped) +
        ids.countP (fun id => (s.frontier.getStatus id).any fun st => st = .cancelled) := by
    intro ids
    induction ids with
    | nil => exact fun _ => rfl
    | cons id ids ih =>
      intro hterm
      have hrest := ih fun j hj => hterm j (.tail _ hj)
      have hid := hterm id (by simp)
      have hone : 1 =
          (if (s.frontier.getStatus id).any (fun st => st = .succeeded) = true then 1 else 0) +
          (if (s.frontier.getStatus id).any (fun st => st matches .failed _) = true then 1 else 0) +
          (if (s.frontier.getStatus id).any (fun st => st = .skipped) = true then 1 else 0) +
          (if (s.frontier.getStatus id).any (fun st => st = .cancelled) = true then 1 else 0) := by
        cases hst : s.frontier.getStatus id with
        | none => rw [hst] at hid; cases hid
        | some st =>
          rw [hst] at hid
          cases st with
          | pending | ready | running => cases hid
          | succeeded | failed | skipped | cancelled => rfl
      rw [countP_cons, countP_cons, countP_cons, countP_cons, length_cons]
      omega
  exact hcount x.topo.order h

theorem failed_eq_details (hknown : Known x s) (h : Recorded s.frontier) :
    countStatus x s (fun st => st matches .failed _) = s.frontier.failedDetails.length := by
  have hfailed : ∀ id, (s.frontier.getStatus id).any (fun st => st matches .failed _) = true ↔
      endingOf (s.frontier.statuses id) = some .failed := by
    intro id
    rw [getStatus_eq]
    cases s.frontier.statuses id with
    | none => simp
    | some st => cases st <;> simp [ending]
  have hperm : (x.topo.order.filter fun id =>
      (s.frontier.getStatus id).any fun st => st matches .failed _).Perm
        (s.frontier.failedDetails.map FailedJobDetail.jobId) := by
    refine (perm_ext_iff_of_nodup (x.topo.nodup.filter _) h.nodup).mpr fun id => ?_
    rw [mem_filter, hfailed, h.failed id]
    constructor
    · exact fun hid => hid.2
    · intro hid
      obtain ⟨_, hsound⟩ := hknown.sound
      refine ⟨(hsound.placed.known id).mp ?_, hid⟩
      change (s.frontier.statuses id).isSome
      cases hst : s.frontier.statuses id with
      | none => rw [hst] at hid; cases hid
      | some => rfl
  rw [countStatus, countP_eq_length_filter, hperm.length_eq, length_map]

/-- The final accounting. A run without a snapshot that returns has finished
every job of the graph, its counts add up to the number of jobs, the failed
ones are the failure details, and the lifecycle events of each job contain
exactly one end, which is the last of them and the end its final status stands
for. -/
theorem returned_accounted (hgraph : Constructed x.graph)
    (hfresh : x.config.resumeSnapshot = none) (h : Reachable x c (.returned s)) :
    let r := schedulerResult x s
    (∀ id ∈ x.graph.jobIds, terminal (s.frontier.getStatus id) = true) ∧
    r.totalJobs = r.succeeded + r.failed + r.skipped + r.cancelled ∧
    r.failed = r.failedDetails.length ∧
    ∀ id ∈ x.graph.jobIds, ∃ before e, lifecycle id s.frontier.log = before ++ [.ended e] ∧
      (∀ mark ∈ before, ∀ e', mark ≠ .ended e') ∧
      endingOf (s.frontier.getStatus id) = some e := by
  have hfinished : Finished x s := returned_finished h
  have hrecorded : Recorded s.frontier := reachable_recorded hfresh h
  have hterminal : ∀ id ∈ x.graph.jobIds, terminal (s.frontier.getStatus id) = true :=
    fun id hid => hfinished id ((x.topo.mem_iff id).mpr hid)
  have hlength : x.graph.jobCount = x.topo.order.length := by
    have hperm : x.topo.order.Perm x.graph.jobIds :=
      (perm_ext_iff_of_nodup x.topo.nodup jobIds_nodup).mpr x.topo.mem_iff
    rw [hgraph.jobCount, hperm.length_eq]
  refine ⟨hterminal, ?_, failed_eq_details (reachable_known hfresh h) hrecorded, fun id hid => ?_⟩
  · exact hlength.trans (counts_of_finished hfinished)
  · obtain ⟨before, hlog, hopen⟩ := hrecorded.told id
    cases he : endingOf (s.frontier.statuses id) with
    | none =>
      have hnot := (endingOf_eq_none_iff _).mp he
      rw [← getStatus_eq, hterminal id hid] at hnot
      cases hnot
    | some e =>
      rw [he] at hlog
      exact ⟨before, e, hlog, hopen, he⟩

end Result

section Example

open DependencySafety

def plainChain : Setup := .plain chainGraph chainOrder (skipping [] nodup_nil)

/-- Report of an attempt of a job of the chain. -/
def report (job : ConcreteJob) (exitCode : ℤ) : CompletionMsg where
  job := job
  result := ⟨exitCode, 5, none, none, none⟩
  outputsChanged := true
  now := 0

def afterFirst : LoopState :=
  consume plainChain (report (fileJob "a" [] ["a.txt"]) 0)
    (joinTask plainChain "a" (pass plainChain .plain (initial plainChain)).state)

/-- Both jobs have been executed, the second one with the given exit code. -/
def afterSecond (exitCode : ℤ) : LoopState :=
  consume plainChain (report (fileJob "b" ["a.txt"] ["b.txt"]) exitCode)
    (joinTask plainChain "b" (pass plainChain .plain afterFirst).state)

theorem chainGraph_constructed : Constructed chainGraph :=
  have hbuild : JobGraph.build chainGraph.jobs = .ok chainGraph := rfl
  .build hbuild

theorem reachable_afterSecond (exitCode : ℤ) :
    Reachable plainChain .free (.head (afterSecond exitCode)) := by
  have hfirst : Reachable plainChain .free
      (.waiting (pass plainChain .plain (initial plainChain)).state false) :=
    .pass (a := .plain) (.start rfl) trivial
  have hdone : Reachable plainChain .free (.head afterFirst) :=
    Reachable.await hfirst trivial (show await plainChain _ _
      (.completed (report (fileJob "a" [] ["a.txt"]) 0)) = _ from rfl)
  have hsecond : Reachable plainChain .free
      (.waiting (pass plainChain .plain afterFirst).state false) :=
    hdone.pass (a := .plain) trivial
  exact Reachable.await hsecond trivial (show await plainChain _ _
    (.completed (report (fileJob "b" ["a.txt"] ["b.txt"]) exitCode)) = _ from rfl)

/-- One of the two jobs failed, and the details list it. -/
theorem returned_accounted_chain :
    (schedulerResult plainChain (pass plainChain .plain (afterSecond 1)).state).failed = 1 ∧
    (schedulerResult plainChain (pass plainChain .plain (afterSecond 1)).state).failed =
      (schedulerResult plainChain (pass plainChain .plain (afterSecond 1)).state).failedDetails.length :=
  ⟨rfl, (returned_accounted (x := plainChain) chainGraph_constructed rfl
    ((reachable_afterSecond 1).pass (a := .plain) trivial)).2.2.1⟩

end Example

end OxyMake.FinalAccounting
