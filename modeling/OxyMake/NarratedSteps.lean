import OxyMake.LifecycleEvents

/-!
# Every step tells what it does

The places that write statuses emit the matching lifecycle events: the commit
of a success, the announcement of a retry, the record of a failure, the
cancellation behind it, the search, the dispatch attempts and the polls of
parked jobs.
-/

namespace OxyMake.NarratedSteps

open List
open PhysicalGraph Observation SchedulingFrontier Frontier Completion SchedulerLoop LifecycleEvents

section Primitives

variable {f f' : Frontier}

theorem told_end {st : JobLifecycle} {e : Ending} (he : ending st = some e) :
    Told (some st) [.ended e] := by
  refine ⟨[], ?_, by simp [Open]⟩
  rw [endingOf_some, he]
  rfl

theorem told_open {st : JobLifecycle} {mark : Mark} (hst : ending st = none)
    (hmark : ∀ e, mark ≠ .ended e) : Told (some st) [mark] := by
  refine ⟨[mark], ?_, ?_⟩
  · rw [endingOf_some, hst]
    rfl
  · intro m hm
    rw [mem_singleton.mp hm]
    exact hmark

def Unmarked (obs : List Obs) : Prop := ∀ id, lifecycle id obs = []

theorem unmarked_of_forall {obs : List Obs} (h : ∀ o ∈ obs, ∀ id, markOn id o = none) :
    Unmarked obs := fun id =>
  filterMap_eq_nil_iff.mpr fun o ho => h o ho id

theorem narrates_note (f : Frontier) {obs : List Obs} (h : Unmarked obs) :
    Narrates f (f.note obs) :=
  .of_same rfl h rfl rfl

theorem narrates_same (hlog : f'.log = f.log) (hstatuses : f'.statuses = f.statuses)
    (hdetails : f'.failedDetails = f.failedDetails) : Narrates f f' :=
  .of_same (hlog.trans (append_nil _).symm) (fun _ => rfl) hstatuses hdetails

theorem narrates_setStatus {id : JobId} {st : JobLifecycle}
    (hopen : endingOf (f.statuses id) = none) (hst : ending st = none) :
    Narrates f (f.setStatus id st) := by
  refine .write id st [] hopen rfl rfl (told_nil hst) (fun _ _ => rfl) (append_nil _).symm ?_
  rw [hst]
  rfl

theorem narrates_cancel {id : JobId} {reason : String} (rest : List Obs) (hrest : Unmarked rest)
    (hopen : endingOf (f.statuses id) = none)
    (hlog : f'.log = f.log ++ .status id .cancelled :: .event (.jobCancelled id reason) :: rest)
    (hstatuses : f'.statuses = Function.update f.statuses id (some .cancelled))
    (hdetails : f'.failedDetails = f.failedDetails) : Narrates f f' := by
  have hmarks : ∀ j, lifecycle j (.status id .cancelled :: .event (.jobCancelled id reason) ::
      rest) = if id = j then [.ended .cancelled] else [] := by
    intro j
    have hevent : markOn j (.event (.jobCancelled id reason)) =
        if id = j then some (.ended .cancelled) else none := rfl
    rw [lifecycle_cons, lifecycle_cons, hrest, hevent]
    split <;> rfl
  refine .write id .cancelled [] hopen hlog hstatuses ?_ ?_
    (hdetails.trans (append_nil _).symm) rfl
  · rw [hmarks, if_pos rfl]
    exact told_end rfl
  · intro j hj
    rw [hmarks, if_neg fun he => hj he.symm]

end Primitives

section Completions

theorem cancelLoop_narrates (g : JobGraph) (failedId : JobId) (fuel : ℕ)
    (toCancel visited : List JobId) (f : Frontier) :
    Narrates f (cancelLoop g failedId fuel toCancel visited f) := by
  induction fuel generalizing toCancel visited f with
  | zero => exact .refl f
  | succ fuel ih =>
    cases toCancel with
    | nil => exact .refl f
    | cons id =>
      have hwaiting : endingOf (f.statuses id) = none → Narrates f
          (((f.setStatus id .cancelled).withdraw id).note
            [.event (.jobCancelled id s!"upstream job {failedId} failed")]) := fun hopen =>
        narrates_cancel [] (fun _ => rfl) hopen (append_assoc _ _ _) rfl rfl
      have hrunning : endingOf (f.statuses id) = none → Narrates f
          ((f.setStatus id .cancelled).note
            [.event (.jobCancelled id s!"upstream job {failedId} failed"), .cancelRequested id]) :=
        fun hopen => narrates_cancel [.cancelRequested id] (fun _ => rfl) hopen
          (append_assoc _ _ _) rfl rfl
      rw [cancelLoop]
      split
      · exact ih _ _ _
      · dsimp only
        split
        · next hst => exact (hwaiting (by rw [← getStatus_eq, hst]; rfl)).trans (ih _ _ _)
        · next hst => exact (hwaiting (by rw [← getStatus_eq, hst]; rfl)).trans (ih _ _ _)
        · next hst => exact (hrunning (by rw [← getStatus_eq, hst]; rfl)).trans (ih _ _ _)
        · exact ih _ _ _

theorem promoteDownstream_failedDetails (g : JobGraph) (id : JobId) (f : Frontier) :
    (f.promoteDownstream g id).failedDetails = f.failedDetails := by
  obtain ⟨_, _, he⟩ := foldl_promote_eq (g.downstream id) f
  rw [promoteDownstream, he]

theorem commitSuccess_narrates (p : Policy) (msg : CompletionMsg) (outputs : List String)
    {f : Frontier} (hopen : endingOf (f.statuses msg.job.id) = none) :
    Narrates f (commitSuccess p msg outputs f) := by
  have hmarks : ∀ j, lifecycle j [.event (.jobCompleted msg.job.id msg.result.durationMs outputs
      msg.result.peakMemoryBytes msg.result.cpuTimeMs (p.endpoint msg.job)),
      .status msg.job.id .succeeded] = if msg.job.id = j then [.ended .completed] else [] := by
    intro j
    have hevent : markOn j (.event (.jobCompleted msg.job.id msg.result.durationMs outputs
        msg.result.peakMemoryBytes msg.result.cpuTimeMs (p.endpoint msg.job))) =
        if msg.job.id = j then some (.ended .completed) else none := rfl
    rw [lifecycle_cons, hevent]
    split <;> rfl
  refine .write msg.job.id .succeeded [] hopen (RunLog.commitSuccess_log p msg outputs f)
    ?_ ?_ ?_ ?_ rfl
  · unfold commitSuccess
    dsimp only
    rw [promoteDownstream_statuses]
    split <;> rfl
  · rw [hmarks, if_pos rfl]
    exact told_end rfl
  · intro j hj
    rw [hmarks, if_neg fun he => hj he.symm]
  · unfold commitSuccess
    dsimp only
    rw [promoteDownstream_failedDetails, append_nil]
    split <;> rfl

theorem scheduleRetry_narrates (msg : CompletionMsg) (count : ℕ) (backoff : Backoff)
    (attempt : ℕ) {f : Frontier} (hopen : endingOf (f.statuses msg.job.id) = none) :
    Narrates f (scheduleRetry msg count backoff attempt f) := by
  let message := s!"exit code {msg.result.exitCode} (attempt {attempt}/{count}, retrying)"
  have hretry : announcesRetry message = true := announcesRetry_retrying _
  have hmarks : ∀ j, lifecycle j [.status msg.job.id .pending, .event (.jobFailed msg.job.id
      message (some msg.result.exitCode) msg.result.stderrTail)] =
        if msg.job.id = j then [.retried] else [] := by
    intro j
    have hevent : markOn j (.event (.jobFailed msg.job.id message (some msg.result.exitCode)
        msg.result.stderrTail)) = if msg.job.id = j then some .retried else none := by
      rw [markOn, lifecycleEvent, hretry]
      rfl
    rw [lifecycle_cons, lifecycle_cons, hevent]
    split <;> rfl
  have hwrite : ∀ f' : Frontier, f'.log = (f.log ++ [.status msg.job.id .pending]) ++
      [.event (.jobFailed msg.job.id message (some msg.result.exitCode) msg.result.stderrTail)] →
      f'.statuses = Function.update f.statuses msg.job.id (some .pending) →
      f'.failedDetails = f.failedDetails → Narrates f f' := by
    intro f' hlog hstatuses hdetails
    refine .write msg.job.id .pending [] hopen (hlog.trans (append_assoc _ _ _)) hstatuses
      ?_ ?_ (hdetails.trans (append_nil _).symm) rfl
    · rw [singleton_append, hmarks, if_pos rfl]
      exact told_open rfl (by simp)
    · intro j hj
      rw [singleton_append, hmarks, if_neg fun he => hj he.symm]
  unfold scheduleRetry
  dsimp only
  split
  · exact hwrite _ rfl rfl rfl
  · exact hwrite _ rfl rfl rfl

theorem recordFailure_narrates (p : Policy) (msg : CompletionMsg) {f failed : Frontier}
    {errorMsg message : String} {obs : List Obs}
    (hopen : endingOf (f.statuses msg.job.id) = none) (hmessage : announcesRetry message = false)
    (hlog : failed.log = f.log ++ obs)
    (hobs : ∀ j, lifecycle j obs = (markOn j (.event (.jobFailed msg.job.id message
      (some msg.result.exitCode) msg.result.stderrTail))).toList)
    (hstatuses : failed.statuses = Function.update f.statuses msg.job.id (some (.failed errorMsg)))
    (hdetails : failed.failedDetails = f.failedDetails) :
    Narrates f (recordFailure p msg failed) := by
  have hmark : ∀ j, markOn j (.event (.jobFailed msg.job.id message (some msg.result.exitCode)
      msg.result.stderrTail)) = if msg.job.id = j then some (.ended .failed) else none := by
    intro j
    rw [markOn, lifecycleEvent, hmessage]
    rfl
  have hcauses : ∀ causes : List RootCause, Unmarked (causes.map rootCauseEvent) := by
    intro causes
    refine unmarked_of_forall fun o ho id => ?_
    obtain ⟨_, -, rfl⟩ := mem_map.mp ho
    rfl
  have htold : Narrates f { failed with
      failedDetails := failed.failedDetails ++
        [⟨msg.job.id, extractLastNonemptyLine msg.result.stderrTail⟩] } := by
    refine .write msg.job.id (.failed errorMsg)
      [⟨msg.job.id, extractLastNonemptyLine msg.result.stderrTail⟩] hopen hlog hstatuses ?_ ?_
      (congrArg (· ++ _) hdetails) rfl
    · rw [hobs, hmark, if_pos rfl]
      exact told_end rfl
    · intro j hj
      rw [hobs, hmark, if_neg fun he => hj he.symm]
      rfl
  refine htold.trans ?_
  exact .of_same rfl (hcauses _) rfl rfl

theorem handleCompletion_narrates (p : Policy) (msg : CompletionMsg) (terminateRequested : Bool)
    {f : Frontier} (hopen : endingOf (f.statuses msg.job.id) = none ∨
      f.statuses msg.job.id = some .cancelled) :
    Narrates f (handleCompletion p msg terminateRequested f).frontier := by
  have hpropagate : ∀ failed : Frontier, Narrates f (recordFailure p msg failed) →
      Narrates f (cancelDownstream p.graph msg.job.id (recordFailure p msg failed)) :=
    fun failed h => h.trans (cancelLoop_narrates _ _ _ _ _ _)
  unfold handleCompletion
  dsimp only
  split
  · exact .refl f
  · next hnot =>
    have hopen : endingOf (f.statuses msg.job.id) = none := hopen.resolve_right hnot
    split
    · exact commitSuccess_narrates p msg _ hopen
    · split
      · exact commitSuccess_narrates p msg _ hopen
      · split
        · exact (narrates_same rfl rfl rfl).trans (scheduleRetry_narrates msg _ _ _ hopen)
        · next count backoff _ _ =>
          refine hpropagate _ (recordFailure_narrates p msg hopen
            (announcesRetry_retries (s!"exit code {msg.result.exitCode} (exhausted {count}"))
            (append_assoc _ _ _) (fun j => ?_) rfl rfl)
          rw [lifecycle_append, lifecycle_cons, lifecycle_cons]
          exact append_nil _
      · refine hpropagate _ (recordFailure_narrates p msg hopen
          (announcesRetry_exitCode msg.result.exitCode) (append_assoc _ _ _) (fun j => ?_)
          rfl rfl)
        rw [lifecycle_append, lifecycle_cons, lifecycle_cons]
        exact (append_nil _).trans (append_nil _)
      · refine hpropagate _ (recordFailure_narrates p msg hopen
          (announcesRetry_exitCode msg.result.exitCode) (append_assoc _ _ _) (fun j => ?_)
          rfl rfl)
        rw [lifecycle_append, lifecycle_cons, lifecycle_cons]
        exact (append_nil _).trans (append_nil _)

variable {x : Setup} {a : Answers}

theorem consume_narrates {msg : CompletionMsg} {s : LoopState}
    (hopen : endingOf (s.frontier.statuses msg.job.id) = none ∨
      s.frontier.statuses msg.job.id = some .cancelled) :
    Narrates s.frontier (consume x msg s).frontier := by
  have hdelivered : Narrates s.frontier
      (s.frontier.note [.delivered msg.job.id msg.result.exitCode]) :=
    narrates_note _ fun _ => rfl
  have hhandled := hdelivered.trans
    (handleCompletion_narrates x.policy msg s.terminateRequested hopen)
  unfold consume
  dsimp only
  split
  · exact hhandled.trans (narrates_note _ fun _ => rfl)
  · exact hhandled

theorem pollPeer_narrates (acc : LoopState × Bool) (id : JobId) :
    Narrates acc.1.frontier (pollPeer x a acc id).1.frontier := by
  unfold pollPeer
  dsimp only
  split
  · exact .refl _
  · next hpending =>
    have hpending : acc.1.frontier.statuses id = some .pending := not_not.mp hpending
    have hopen : endingOf (acc.1.frontier.statuses id) = none := by rw [hpending]; rfl
    split
    · exact .refl _
    · next job hjob =>
      have hid : job.id = id := getJob_id hjob
      have hconsume : ∀ owner exitCode, Narrates acc.1.frontier
          (consume x (peerCompletion a job owner exitCode) (unparkJob id acc.1)).frontier := by
        intro owner exitCode
        refine consume_narrates (x := x) (s := unparkJob id acc.1) (.inl ?_)
        change endingOf (acc.1.frontier.statuses job.id) = none
        rw [hid]
        exact hopen
      split
      · exact .refl _
      · exact narrates_same rfl rfl rfl
      · exact hconsume _ _
      · exact hconsume _ _
      · have hcancelled : ∀ reason, Narrates acc.1.frontier
            ((acc.1.frontier.setStatus id .cancelled).note [.event (.jobCancelled id reason)]) :=
          fun reason => narrates_cancel [] (fun _ => rfl) hopen (append_assoc _ _ _) rfl rfl
        exact (hcancelled _).trans (cancelLoop_narrates _ _ _ _ _ _)

end Completions

section Dispatch

variable {x : Setup} {a : Answers}

theorem open_of_status {status : Option JobLifecycle} {st : JobLifecycle} (h : status = some st)
    (hst : ending st = none) : endingOf status = none := by
  rw [h]
  exact hst

theorem drainOne_narrates (acc : Search) (id : JobId) :
    Narrates acc.frontier (drainOne x a acc id).frontier := by
  unfold drainOne
  split
  · exact .refl _
  · next hpending =>
    have hopen : endingOf (acc.frontier.statuses id) = none :=
      open_of_status (not_not.mp hpending) rfl
    split
    · exact narrates_same rfl rfl rfl
    · dsimp only
      split
      · exact (narrates_same rfl rfl rfl).trans (narrates_setStatus hopen rfl)
      · exact narrates_same rfl rfl rfl

theorem askGate_narrates (id : JobId) (acc : Search) (entry : GateId × ℕ) :
    Narrates acc.frontier (askGate a id acc entry).frontier := by
  have hasked : Narrates acc.frontier (acc.frontier.note
      ((if entry.1 ∈ acc.gatesSeen.registered then [] else [Obs.gateRegistered entry.1]) ++
        [.gateAnswered id entry.1 (a.gate id entry.2)])) := by
    refine narrates_note _ fun j => ?_
    split <;> rfl
  unfold askGate
  dsimp only
  split
  · exact hasked
  · exact hasked
  · split
    · exact hasked
    · exact hasked.trans (narrates_note _ fun _ => rfl)
  · split
    · exact hasked
    · exact hasked.trans (narrates_note _ fun _ => rfl)

theorem checkGated_narrates (acc : Search) (id : JobId) :
    Narrates acc.frontier (checkGated x a acc id).frontier := by
  have hasked := Narrates.foldl (v := Search.frontier) (askGate_narrates (a := a) id)
    (x.graph.blockingGates id).zipIdx acc
  have hgates : ∀ gates : List GateId, Unmarked (gates.map fun gate =>
      .event (.gateApproved gate "gate-check")) := by
    intro gates
    refine unmarked_of_forall fun o ho id => ?_
    obtain ⟨gate, -, rfl⟩ := mem_map.mp ho
    rfl
  have hcancelled : ∀ {f : Frontier}, endingOf (f.statuses id) = none → Narrates f
      ((f.setStatus id .cancelled).note [.event (.jobCancelled id "gate rejected")]) :=
    fun hopen => narrates_cancel [] (fun _ => rfl) hopen (append_assoc _ _ _) rfl rfl
  unfold checkGated
  dsimp only
  split
  · exact hasked
  · next hpending =>
    have hopen := open_of_status (not_not.mp hpending) rfl
    split
    · exact hasked.trans (hcancelled hopen)
    · split
      · exact (hasked.trans (narrates_note _ (hgates _))).trans (narrates_setStatus hopen rfl)
      · exact hasked.trans (narrates_same rfl rfl rfl)

theorem passGated_narrates (acc : Search) (id : JobId) :
    Narrates acc.frontier (passGated acc id).frontier := by
  unfold passGated
  split
  · next hpending => exact narrates_setStatus (open_of_status hpending rfl) rfl
  · exact .refl _

theorem findReadyJobs_narrates (s : LoopState) :
    Narrates s.frontier (findReadyJobs x a s).frontier := by
  have hgates : ∀ acc id, Narrates acc.frontier
      ((if x.gateChecker then checkGated x a else passGated) acc id).frontier := by
    intro acc id
    split
    · exact checkGated_narrates acc id
    · exact passGated_narrates acc id
  have hdrained : ∀ (ids : List JobId) (acc : Search),
      Narrates acc.frontier (ids.foldl (drainOne x a) acc).frontier :=
    Narrates.foldl (v := Search.frontier) drainOne_narrates
  have hchecked := fun ids acc => Narrates.foldl (v := Search.frontier) hgates ids acc
  unfold findReadyJobs
  have hstart : Narrates s.frontier { s.frontier with readyFrontier := [] } :=
    narrates_same rfl rfl rfl
  exact hstart.trans ((hdrained _ _).trans (hchecked _ _))

theorem deferAll_narrates {ids : List JobId} {f : Frontier}
    (hopen : ∀ id ∈ ids, endingOf (f.statuses id) = none) : Narrates f (ids.foldl deferJob f) := by
  induction ids generalizing f with
  | nil => exact .refl f
  | cons id ids ih =>
    have hone : Narrates f (deferJob f id) :=
      (narrates_same rfl rfl rfl).trans (narrates_setStatus (hopen id (by simp)) rfl)
    refine hone.trans (ih fun j hj => ?_)
    change endingOf (Function.update f.statuses id (some .pending) j) = none
    by_cases hid : j = id
    · rw [hid, Function.update_self]
      rfl
    · rw [Function.update_of_ne hid]
      exact hopen j (.tail _ hj)

theorem launchJob_narrates (job : ConcreteJob) (id : JobId) (s : LoopState)
    (hopen : endingOf (s.frontier.statuses id) = none) :
    Narrates s.frontier (launchJob x job id s).frontier := by
  let reason := launchReason x id (decide (id ∈ s.frontier.forceRerun)) (s.dispatchReasons id)
  have hmarks : ∀ j, lifecycle j [.status id .running, .event (.jobStarted id (x.executorName job)
      reason (x.endpoint job)), .launched id] = if id = j then [.started] else [] := by
    intro j
    have hevent : markOn j (.event (.jobStarted id (x.executorName job) reason (x.endpoint job))) =
        if id = j then some .started else none := rfl
    rw [lifecycle_cons, lifecycle_cons, hevent]
    split <;> rfl
  refine .write id .running [] hopen (append_assoc _ _ _) rfl ?_ ?_ (append_nil _).symm
    rfl
  · rw [singleton_append, hmarks, if_pos rfl]
    exact told_open rfl (by simp)
  · intro j hj
    rw [singleton_append, hmarks, if_neg fun he => hj he.symm]

theorem skip_narrates (g : JobGraph) (id : JobId) {f : Frontier}
    (hopen : endingOf (f.statuses id) = none) :
    Narrates f (((f.setStatus id .skipped).promoteDownstream g id).note
      [.event (.jobSkipped id "cached")]) := by
  have hmarks : ∀ j, lifecycle j [.status id .skipped, .event (.jobSkipped id "cached")] =
      if id = j then [.ended .skipped] else [] := by
    intro j
    have hevent : markOn j (.event (.jobSkipped id "cached")) =
        if id = j then some (.ended .skipped) else none := rfl
    rw [lifecycle_cons, lifecycle_cons, hevent]
    split <;> rfl
  have hlog : (((f.setStatus id .skipped).promoteDownstream g id).note
      [.event (.jobSkipped id "cached")]).log =
        f.log ++ [.status id .skipped, .event (.jobSkipped id "cached")] := by
    rw [note_log, promoteDownstream_log]
    exact append_assoc _ _ _
  refine .write id .skipped [] hopen hlog (promoteDownstream_statuses _ _) ?_ ?_ ?_ rfl
  · rw [hmarks, if_pos rfl]
    exact told_end rfl
  · intro j hj
    rw [hmarks, if_neg fun he => hj he.symm]
  · rw [append_nil]
    exact promoteDownstream_failedDetails _ _ _

theorem commitDispatch_narrates (job : ConcreteJob) (id : JobId) (cached : Bool)
    {remaining : List JobId} {s : LoopState}
    (hopen : ∀ j ∈ remaining, endingOf (s.frontier.statuses j) = none) :
    Narrates s.frontier (commitDispatch x job id cached remaining s).1.frontier := by
  unfold commitDispatch
  dsimp only
  split
  · exact .refl _
  · next hready =>
    have hid : endingOf (s.frontier.statuses id) = none :=
      open_of_status (not_not.mp hready) rfl
    split
    · exact skip_narrates x.graph id hid
    · split
      · exact (narrates_same rfl rfl rfl).trans (narrates_setStatus hid rfl)
      · split
        · exact deferAll_narrates hopen
        · exact launchJob_narrates job id s hid

theorem attempt_narrates (id : JobId) (s : LoopState) :
    let claimed := (claimJob x a id (checkCache x a id s).2 (checkCache x a id s).1).1
    Narrates s.frontier claimed.frontier ∧ claimed.frontier.statuses = s.frontier.statuses := by
  obtain ⟨checks, hfront, hchecks, -⟩ := RunLog.checkCache_log (x := x) (a := a) id s
  obtain ⟨hclaimed, -⟩ :=
    RunLog.claimJob_log (x := x) (a := a) id (checkCache x a id s).2 (checkCache x a id s).1
  have hunmarked : Unmarked (.attempt id :: checks) := by
    refine unmarked_of_forall fun o ho j => ?_
    cases mem_cons.mp ho with
    | inl h => rw [h]; rfl
    | inr h =>
      obtain ⟨_, rfl⟩ := hchecks o h
      rfl
  have hclaims : ∀ outcomes : List ClaimOutcome, Unmarked (outcomes.map (.claimed id)) := by
    intro outcomes
    refine unmarked_of_forall fun o ho j => ?_
    obtain ⟨_, -, rfl⟩ := mem_map.mp ho
    rfl
  dsimp only
  rw [hclaimed, hfront]
  exact ⟨(narrates_note _ hunmarked).trans (narrates_note _ (hclaims _)), rfl⟩

theorem dispatchJob_narrates {remaining : List JobId} (id : JobId) {s : LoopState}
    (hopen : ∀ j ∈ remaining, endingOf (s.frontier.statuses j) = none) :
    Narrates s.frontier (dispatchJob x a remaining id s).1.frontier := by
  have hattempt := attempt_narrates (x := x) (a := a) id s
  unfold dispatchJob
  split
  · exact .refl _
  · next job _ =>
    dsimp only
    generalize claimJob x a id (checkCache x a id s).2 (checkCache x a id s).1 = r at hattempt ⊢
    obtain ⟨claimed, _⟩ := r
    obtain ⟨hclaimed, hstatuses⟩ := hattempt
    split
    · next owner he =>
      cases he
      refine hclaimed.trans ?_
      unfold parkJob
      split
      · next hready =>
        exact (narrates_setStatus (open_of_status hready rfl) rfl).trans
          (narrates_note _ fun _ => rfl)
      · exact .refl _
    · next he =>
      cases he
      split
      · exact hclaimed
      · refine hclaimed.trans ?_
        have hreleased : Narrates claimed.frontier (releaseTasks x a id claimed).frontier :=
          narrates_same rfl rfl rfl
        refine hreleased.trans (commitDispatch_narrates job id _ fun j hj => ?_)
        change endingOf (claimed.frontier.statuses j) = none
        rw [hstatuses]
        exact hopen j hj

end Dispatch

end OxyMake.NarratedSteps
