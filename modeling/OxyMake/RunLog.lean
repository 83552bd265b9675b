import OxyMake.LoopFrames

/-!
# The log of a run is a sequence of blocks

Between two dispatch attempts a run makes routine observations or handles a
completion. A completion block may end with a cache record, and does so only
for exit code zero after the status succeeded was written. An attempt block
consists of the cache lookup, the claim, routine observations and at most one
launch.
-/

namespace OxyMake.RunLog

open List
open PhysicalGraph Observation SchedulingFrontier Frontier Completion SchedulerLoop
open CompletionRefinement LoopRefinement LoopFrames

variable {x : Setup} {a : Answers}

section Quiet

/-- The second log continues the first with routine observations. -/
def Quiet (f f' : Frontier) : Prop :=
  ∃ obs, f'.log = f.log ++ obs ∧ ∀ o ∈ obs, routine o = true

theorem Quiet.refl (f : Frontier) : Quiet f f := ⟨[], by simp, by simp⟩

theorem Quiet.of_log {f f' : Frontier} (h : f'.log = f.log) : Quiet f f' :=
  ⟨[], by simp [h], by simp⟩

theorem Quiet.trans {f f' f'' : Frontier} (h : Quiet f f') (h' : Quiet f' f'') : Quiet f f'' := by
  obtain ⟨obs, hlog, hobs⟩ := h
  obtain ⟨obs', hlog', hobs'⟩ := h'
  refine ⟨obs ++ obs', by rw [hlog', hlog, append_assoc], ?_⟩
  intro o ho
  obtain h | h := mem_append.mp ho
  · exact hobs o h
  · exact hobs' o h

theorem Quiet.note {f f' : Frontier} (h : Quiet f f') {obs : List Obs}
    (hobs : ∀ o ∈ obs, routine o = true) : Quiet f (f'.note obs) :=
  h.trans ⟨obs, rfl, hobs⟩

theorem Quiet.setStatus {f f' : Frontier} (h : Quiet f f') (id : JobId) (st : JobLifecycle) :
    Quiet f (f'.setStatus id st) :=
  h.trans ⟨[.status id st], rfl, by simp [routine]⟩

theorem Notes.quiet {f f' : Frontier} (h : Notes f f') : Quiet f f' := by
  obtain ⟨_, rfl, hobs⟩ := h
  exact (Quiet.refl f).note fun o ho => (hobs o ho).1

theorem cancelLoop_quiet (g : JobGraph) (failedId : JobId) (fuel : ℕ)
    (toCancel visited : List JobId) (f : Frontier) :
    Quiet f (cancelLoop g failedId fuel toCancel visited f) := by
  induction fuel generalizing toCancel visited f with
  | zero => exact .refl f
  | succ fuel ih =>
    cases toCancel with
    | nil => exact .refl f
    | cons id =>
      have hstep : ∀ obs : List Obs, (∀ o ∈ obs, routine o = true) →
          Quiet f ((f.setStatus id .cancelled).note obs) := fun obs hobs =>
        ((Quiet.refl f).setStatus id .cancelled).note hobs
      rw [cancelLoop]
      split
      · exact ih _ _ _
      · dsimp only
        split
        · exact (hstep _ (by simp [routine])).trans (ih _ _ _)
        · exact (hstep _ (by simp [routine])).trans (ih _ _ _)
        · exact (hstep _ (by simp [routine])).trans (ih _ _ _)
        · exact ih _ _ _

theorem commitSuccess_log (p : Policy) (msg : CompletionMsg) (outputs : List String)
    (f : Frontier) : (commitSuccess p msg outputs f).log = f.log ++
      [.event (.jobCompleted msg.job.id msg.result.durationMs outputs msg.result.peakMemoryBytes
        msg.result.cpuTimeMs (p.endpoint msg.job)), .status msg.job.id .succeeded] := by
  unfold commitSuccess
  dsimp only
  rw [promoteDownstream_log]
  split <;> simp

theorem handleCompletion_log (p : Policy) (msg : CompletionMsg) (terminateRequested : Bool)
    (f : Frontier) :
    ∃ obs, (handleCompletion p msg terminateRequested f).frontier.log = f.log ++ obs ∧
      (∀ o ∈ obs, routine o = true) ∧
      ((handleCompletion p msg terminateRequested f).committed = true →
        (msg.job.id, .succeeded) ∈ writes obs) := by
  have hquiet : ∀ f' : Frontier, Quiet f f' → ∃ obs, f'.log = f.log ++ obs ∧
      (∀ o ∈ obs, routine o = true) ∧ (false = true → (msg.job.id, .succeeded) ∈ writes obs) := by
    rintro f' ⟨obs, hlog, hobs⟩
    exact ⟨obs, hlog, hobs, by simp⟩
  have hrecord : ∀ f' : Frontier, Quiet f f' →
      Quiet f (cancelDownstream p.graph msg.job.id (recordFailure p msg f')) := by
    intro f' hf
    refine (hf.trans ⟨_, rfl, ?_⟩).trans (cancelLoop_quiet _ _ _ _ _ _)
    intro o ho
    obtain ⟨_, -, rfl⟩ := mem_map.mp ho
    rfl
  have hsuccess : ∀ outputs, Quiet f (commitSuccess p msg outputs f) := fun outputs =>
    ⟨_, commitSuccess_log p msg outputs f, by simp [routine]⟩
  unfold handleCompletion
  dsimp only
  split
  · exact hquiet _ (.refl f)
  · split
    · exact ⟨_, commitSuccess_log p msg _ f, by simp [routine], fun _ => by simp [writes, Obs.write?]⟩
    · split
      · exact hquiet _ (hsuccess [])
      · split
        · refine hquiet _ ?_
          unfold scheduleRetry
          dsimp only
          have hfailed : ∀ counted : Frontier, counted.log = f.log → ∀ ev : Event,
              Quiet f (((counted.setStatus msg.job.id .pending).offer msg.job.id).note [.event ev]) :=
            fun counted hc ev => (((Quiet.of_log hc).setStatus msg.job.id .pending).trans
              (.of_log rfl)).note (by simp [routine])
          split
          · exact (hfailed _ rfl _).trans (.of_log rfl)
          · exact hfailed _ rfl _
        · refine hquiet _ (hrecord _ ?_)
          exact (((Quiet.of_log rfl).setStatus msg.job.id _).note (by simp [routine]))
      · exact hquiet _ (hrecord _ (((Quiet.refl f).note (by simp [routine])).setStatus _ _))
      · exact hquiet _ (hrecord _ (((Quiet.refl f).note (by simp [routine])).setStatus _ _))

theorem foldl_quiet {step : Search → JobId → Search}
    (hstep : ∀ acc id, Quiet acc.frontier (step acc id).frontier) (ids : List JobId) (acc : Search) :
    Quiet acc.frontier (ids.foldl step acc).frontier := by
  induction ids generalizing acc with
  | nil => exact .refl _
  | cons id ids ih => exact (hstep acc id).trans (ih _)

theorem findReadyJobs_quiet (s : LoopState) :
    Quiet s.frontier (findReadyJobs x a s).frontier := by
  have hdrain : ∀ acc id, Quiet acc.frontier (drainOne x a acc id).frontier := by
    intro acc id
    unfold drainOne
    split
    · exact .refl _
    · split
      · exact .of_log rfl
      · dsimp only
        split
        · exact Quiet.setStatus (.of_log rfl) _ _
        · exact .of_log rfl
  have hcheck : ∀ acc id, Quiet acc.frontier (checkGated x a acc id).frontier := by
    intro acc id
    have hasked := Notes.quiet
      (askGates_notes (a := a) id acc (x.graph.blockingGates id).zipIdx).1
    unfold checkGated
    dsimp only
    split
    · exact hasked
    · split
      · exact (hasked.setStatus _ _).note (by simp [routine])
      · split
        · exact (hasked.note (by simp [routine])).setStatus _ _
        · exact hasked.trans (.of_log rfl)
  have hpass : ∀ acc id, Quiet acc.frontier (passGated acc id).frontier := by
    intro acc id
    unfold passGated
    split
    · exact (Quiet.refl _).setStatus _ _
    · exact .refl _
  have hgates : ∀ acc id, Quiet acc.frontier
      ((if x.gateChecker then checkGated x a else passGated) acc id).frontier := by
    intro acc id
    split
    · exact hcheck acc id
    · exact hpass acc id
  unfold findReadyJobs
  exact (Quiet.of_log rfl).trans ((foldl_quiet hdrain _ _).trans (foldl_quiet hgates _ _))

end Quiet

section Blocks

/-- One block of the log. With the strict flag every launch by a run with a
claimer follows a won claim. -/
inductive Block (x : Setup) (strict : Prop) : List Obs → Prop
  | quiet {obs : List Obs} : (∀ o ∈ obs, routine o = true) → Block x strict obs
  | completion {id : JobId} {exitCode : ℤ} {mid : List Obs} : (∀ o ∈ mid, routine o = true) →
      Block x strict (.delivered id exitCode :: mid)
  | recorded {id : JobId} {mid : List Obs} : (∀ o ∈ mid, routine o = true) →
      (id, .succeeded) ∈ writes mid → Block x strict (.delivered id 0 :: mid ++ [.recorded id])
  | attempt {id : JobId} {checks mid : List Obs} :
      (∀ o ∈ checks, (∃ hit, o = .cacheChecked id hit) ∨ ∃ outcome, o = .claimed id outcome) →
      (∀ o ∈ mid, routine o = true) → Block x strict (.attempt id :: checks ++ mid)
  | launch {id : JobId} {checks mid : List Obs} :
      (∀ o ∈ checks, (∃ hit, o = .cacheChecked id hit) ∨ ∃ outcome, o = .claimed id outcome) →
      (∀ o ∈ mid, routine o = true) → (∀ owner, .claimed id (.lost owner) ∉ checks) →
      (strict → x.claimer = true → .claimed id .won ∈ checks) →
      Block x strict (.attempt id :: checks ++ mid ++ [.launched id])

inductive Blocks (x : Setup) (strict : Prop) : List Obs → Prop
  | nil : Blocks x strict []
  | append {obs block : List Obs} : Blocks x strict obs → Block x strict block →
      Blocks x strict (obs ++ block)

def Grows (x : Setup) (strict : Prop) (f f' : Frontier) : Prop :=
  ∃ obs, f'.log = f.log ++ obs ∧ Blocks x strict obs

variable {strict : Prop}

theorem Blocks.trans {obs obs' : List Obs} (h : Blocks x strict obs) (h' : Blocks x strict obs') :
    Blocks x strict (obs ++ obs') := by
  induction h' with
  | nil => simpa using h
  | append _ hblock ih =>
    rw [← append_assoc]
    exact ih.append hblock

theorem Blocks.locate {log earlier later : List Obs} {o : Obs} (h : Blocks x strict log)
    (he : log = earlier ++ o :: later) :
    ∃ before block mid rest, Block x strict block ∧ earlier = before ++ mid ∧
      block = mid ++ o :: rest := by
  induction h generalizing later with
  | nil => simp at he
  | @append obs block _ hblock ih =>
    obtain ⟨mid, hearlier, hmid⟩ | ⟨mid, hobs, hmid⟩ := append_eq_append_iff.mp he
    · exact ⟨obs, block, mid, later, hblock, hearlier, hmid⟩
    · cases mid with
      | nil =>
        rw [append_nil] at hobs
        exact ⟨obs, block, [], later, hblock, by simp [hobs], by simpa using hmid.symm⟩
      | cons =>
        obtain ⟨rfl, -⟩ := cons_eq_cons.mp hmid
        exact ih hobs

theorem eq_of_append_last {α : Type*} {before after front : List α} {y z : α}
    (h : before ++ y :: after = front ++ [z]) (hy : y ∉ front) :
    before = front ∧ y = z ∧ after = [] := by
  obtain ⟨mid, hfront, hrest⟩ | ⟨mid, hbefore, hrest⟩ := append_eq_append_iff.mp h
  · cases mid with
    | nil =>
      simp only [nil_append, List.cons.injEq, append_nil] at hrest hfront
      exact ⟨hfront.symm, hrest.1, hrest.2⟩
    | cons =>
      simp only [cons_append, List.cons.injEq] at hrest
      exact absurd (by rw [hfront, hrest.1]; simp) hy
  · cases mid with
    | nil =>
      simp only [nil_append, List.cons.injEq, append_nil] at hrest hbefore
      exact ⟨hbefore, hrest.1.symm, hrest.2.symm⟩
    | cons => simp at hrest

theorem Grows.refl (f : Frontier) : Grows x strict f f := ⟨[], by simp, .nil⟩

theorem Grows.trans {f f' f'' : Frontier} (h : Grows x strict f f') (h' : Grows x strict f' f'') :
    Grows x strict f f'' := by
  obtain ⟨obs, hlog, hobs⟩ := h
  obtain ⟨obs', hlog', hobs'⟩ := h'
  exact ⟨obs ++ obs', by rw [hlog', hlog, append_assoc], hobs.trans hobs'⟩

theorem Grows.block {f f' : Frontier} {block : List Obs} (hlog : f'.log = f.log ++ block)
    (h : Block x strict block) : Grows x strict f f' :=
  ⟨block, hlog, by simpa using Blocks.nil.append h⟩

theorem Quiet.grows {f f' : Frontier} (h : Quiet f f') : Grows x strict f f' := by
  obtain ⟨_, hlog, hobs⟩ := h
  exact .block hlog (.quiet hobs)

theorem consume_grows (msg : CompletionMsg) (s : LoopState) :
    Grows x strict s.frontier (consume x msg s).frontier := by
  obtain ⟨_, hlog, hobs, hcommitted⟩ := handleCompletion_log x.policy msg s.terminateRequested
    (s.frontier.note [.delivered msg.job.id msg.result.exitCode])
  unfold consume
  dsimp only
  rw [note_log, append_assoc] at hlog
  split
  · next hrecorded =>
    simp only [Bool.and_eq_true, decide_eq_true_eq] at hrecorded
    refine .block ?_ (.recorded hobs (hcommitted hrecorded.1.1))
    rw [note_log, hlog, hrecorded.1.2]
    simp
  · exact .block hlog (.completion hobs)

theorem pollPeer_grows (acc : LoopState × Bool) (id : JobId) :
    Grows x strict acc.1.frontier (pollPeer x a acc id).1.frontier := by
  unfold pollPeer
  dsimp only
  split
  · exact .refl _
  · split
    · exact .refl _
    · split
      · exact .refl _
      · exact Quiet.grows (.of_log rfl)
      · exact consume_grows _ _
      · exact consume_grows _ _
      · exact Quiet.grows ((((Quiet.refl _).setStatus _ _).note (by simp [routine])).trans
          (cancelLoop_quiet _ _ _ _ _ _))

theorem pollPeerWaits_grows (s : LoopState) :
    Grows x strict s.frontier (pollPeerWaits x a s).1.frontier := by
  have hfold : ∀ (ids : List JobId) (acc : LoopState × Bool),
      Grows x strict acc.1.frontier (ids.foldl (pollPeer x a) acc).1.frontier := by
    intro ids
    induction ids with
    | nil => exact fun acc => .refl _
    | cons id ids ih => exact fun acc => (pollPeer_grows acc id).trans (ih _)
  exact hfold _ (s, false)

theorem commitDispatch_log (job : ConcreteJob) (id : JobId) (cached : Bool)
    (remaining : List JobId) (s : LoopState) :
    Quiet s.frontier (commitDispatch x job id cached remaining s).1.frontier ∨
    ∃ mid, (commitDispatch x job id cached remaining s).1.frontier.log =
        s.frontier.log ++ mid ++ [.launched id] ∧ (∀ o ∈ mid, routine o = true) ∧
      (cached = true → id ∈ s.frontier.forceRerun) := by
  have hdefer : ∀ (ids : List JobId) (f : Frontier), Quiet f (ids.foldl deferJob f) := by
    intro ids
    induction ids with
    | nil => exact fun f => .refl f
    | cons id ids ih =>
      intro f
      have hoffered : Quiet f (f.offer id) := .of_log rfl
      exact (hoffered.setStatus id .pending).trans (ih _)
  unfold commitDispatch
  dsimp only
  split
  · exact .inl (.refl _)
  · split
    · refine .inl (Quiet.note ?_ (by simp [routine]))
      exact ((Quiet.refl _).setStatus id .skipped).trans (.of_log (promoteDownstream_log _ _))
    · next hforced =>
      split
      · exact .inl (hdefer [id] s.frontier)
      · split
        · exact .inl (hdefer remaining s.frontier)
        · right
          refine ⟨[.status id .running, .event (.jobStarted id (x.executorName job)
            (launchReason x id (decide (id ∈ s.frontier.forceRerun)) (s.dispatchReasons id))
            (x.endpoint job))], ?_, by simp [routine], fun hc => ?_⟩
          · simp [launchJob, note, Frontier.setStatus]
          · by_contra hnot
            exact hforced ⟨hc, hnot⟩

theorem checkCache_log (id : JobId) (s : LoopState) :
    ∃ checks, (checkCache x a id s).1.frontier = s.frontier.note (.attempt id :: checks) ∧
      (∀ o ∈ checks, ∃ hit, o = .cacheChecked id hit) ∧
      ((checkCache x a id s).2 = true → x.cache = true ∧ a.check id = .ok ()) := by
  have hchecks : ∀ hit : Bool, ∀ o ∈ (if x.cache = true then [Obs.cacheChecked id hit] else []),
      ∃ hit, o = .cacheChecked id hit := by
    intro hit o ho
    split at ho
    · exact ⟨hit, mem_singleton.mp ho⟩
    · cases ho
  unfold checkCache
  dsimp only
  split
  · next u hanswer =>
    refine ⟨_, rfl, hchecks _, fun _ => ?_⟩
    split at hanswer
    · next hc => exact ⟨hc, hanswer⟩
    · cases hanswer
  · exact ⟨_, rfl, hchecks _, by simp⟩

theorem claimJob_log (id : JobId) (cached : Bool) (s : LoopState) :
    (claimJob x a id cached s).1.frontier =
      s.frontier.note ((claimJob x a id cached s).2.toList.map (.claimed id)) ∧
    ((claimJob x a id cached s).2 = none → x.claimer = true → cached = true) := by
  unfold claimJob
  split
  · exact ⟨rfl, by simp⟩
  · next hnone =>
    refine ⟨by simp [note], fun _ hx => ?_⟩
    simpa [hx] using hnone

theorem commitDispatch_grows {s : LoopState} {f : Frontier} {job : ConcreteJob} {id : JobId}
    {cached : Bool} {remaining : List JobId} {checks : List Obs}
    (hlog : s.frontier.log = f.log ++ .attempt id :: checks)
    (hchecks : ∀ o ∈ checks, (∃ hit, o = .cacheChecked id hit) ∨ ∃ outcome, o = .claimed id outcome)
    (hlost : ∀ owner, .claimed id (.lost owner) ∉ checks)
    (hwon : strict → x.claimer = true →
      .claimed id .won ∈ checks ∨ cached = true ∧ id ∉ s.frontier.forceRerun) :
    Grows x strict f (commitDispatch x job id cached remaining s).1.frontier := by
  obtain ⟨mid, hmid, hroutine⟩ | ⟨mid, hmid, hroutine, hforced⟩ :=
    commitDispatch_log (x := x) job id cached remaining s
  · refine .block ?_ (.attempt hchecks hroutine)
    rw [hmid, hlog]
    simp
  · refine .block ?_ (.launch hchecks hroutine hlost fun hs hx => ?_)
    · rw [hmid, hlog]
      simp
    · exact (hwon hs hx).resolve_right fun ⟨hc, hnot⟩ => hnot (hforced hc)

theorem dispatchJob_grows (remaining : List JobId) (id : JobId) (s : LoopState)
    (hstrict : strict → x.cache = true → a.check id = .ok () → id ∉ s.frontier.forceRerun) :
    Grows x strict s.frontier (dispatchJob x a remaining id s).1.frontier := by
  unfold dispatchJob
  split
  · exact .refl _
  · next job _ =>
    dsimp only
    obtain ⟨checks, hfront, hchecks, hcached⟩ := checkCache_log (x := x) (a := a) id s
    generalize checkCache x a id s = r at hfront hcached
    obtain ⟨checked, cached⟩ := r
    dsimp only at hfront hcached ⊢
    obtain ⟨hclaimed, hunclaimed⟩ := claimJob_log (x := x) (a := a) id cached checked
    generalize claimJob x a id cached checked = r at hclaimed hunclaimed
    obtain ⟨claimed, outcome⟩ := r
    dsimp only at hclaimed hunclaimed
    have hlog : claimed.frontier.log =
        s.frontier.log ++ .attempt id :: (checks ++ outcome.toList.map (.claimed id)) := by
      rw [hclaimed, hfront]
      simp
    have hall : ∀ o ∈ checks ++ outcome.toList.map (.claimed id),
        (∃ hit, o = .cacheChecked id hit) ∨ ∃ outcome, o = .claimed id outcome := by
      intro o ho
      obtain h | h := mem_append.mp ho
      · exact .inl (hchecks o h)
      · obtain ⟨outcome, -, rfl⟩ := mem_map.mp h
        exact .inr ⟨outcome, rfl⟩
    split
    · next owner he =>
      cases he
      obtain ⟨_, hmid, hroutine⟩ : Quiet claimed.frontier (parkJob id owner claimed).frontier := by
        unfold parkJob
        split
        · exact ((Quiet.refl _).setStatus _ _).note (by simp [routine])
        · exact .refl _
      refine .block ?_ (.attempt hall hroutine)
      rw [hmid, hlog]
      simp
    · next hnotLost he =>
      cases he
      split
      · refine .block ?_ (.attempt hall (forall_mem_nil _))
        simpa using hlog
      · refine commitDispatch_grows hlog hall ?_ fun hs hx => ?_
        · intro owner ho
          obtain h | h := mem_append.mp ho
          · obtain ⟨hit, he⟩ := hchecks _ h
            cases he
          · obtain ⟨answer, hmem, he⟩ := mem_map.mp h
            cases he
            exact hnotLost owner (Option.mem_toList.mp hmem)
        · cases hout : outcome with
          | none =>
            have hc := hunclaimed hout hx
            refine .inr ⟨hc, ?_⟩
            have hforce := hstrict hs (hcached hc).1 (hcached hc).2
            simpa [releaseTasks, hclaimed, hfront] using hforce
          | some answer =>
            left
            cases answer with
            | won => simp
            | lost owner => exact (hnotLost owner hout).elim

end Blocks

section Runs

variable {strict : Prop}

theorem dispatchLoop_grows (rest : List JobId) (s : LoopState) (skipped : Bool)
    (hstrict : strict → x.cache = true → ∀ id ∈ rest, a.check id = .ok () →
      id ∉ s.frontier.forceRerun) :
    Grows x strict s.frontier (dispatchLoop x a rest s skipped).1.frontier := by
  induction rest generalizing s skipped with
  | nil => exact .refl _
  | cons id rest ih =>
    have hone : Grows x strict s.frontier (dispatchJob x a (id :: rest) id s).1.frontier :=
      dispatchJob_grows (id :: rest) id s fun hs hx => hstrict hs hx id (by simp)
    have hforce := dispatchJob_forceRerun (x := x) (a := a) (id :: rest) id s
    have hrest : ∀ skipped, Grows x strict (dispatchJob x a (id :: rest) id s).1.frontier
        (dispatchLoop x a rest (dispatchJob x a (id :: rest) id s).1 skipped).1.frontier := by
      intro skipped
      refine ih _ skipped fun hs hx j hj hhit => ?_
      rw [hforce]
      exact hstrict hs hx j (by simp [hj]) hhit
    unfold dispatchLoop
    split
    · next s' he =>
      rw [he] at hone hrest
      exact hone.trans (hrest _)
    · next s' he =>
      rw [he] at hone hrest
      exact hone.trans (hrest _)
    · next s' he =>
      rw [he] at hone
      exact hone

theorem exitTests_grows (s : LoopState) (skipped : Bool) :
    Grows x strict s.frontier (exitTests x s skipped).state.frontier := by
  have hcancel : ∀ (ids : List JobId) (f : Frontier), Quiet f (ids.foldl (fun f id =>
      (f.setStatus id .cancelled).note
        [.event (.jobCancelled id "run terminated due to failure")]) f) := by
    intro ids
    induction ids with
    | nil => exact fun f => .refl f
    | cons id ids ih =>
      exact fun f => (((Quiet.refl f).setStatus id .cancelled).note (by simp [routine])).trans (ih _)
  have hfinish : ∀ m : LoopState, Quiet m.frontier (finishRun x m).frontier := fun m =>
    (Quiet.refl _).note (by simp [routine])
  unfold exitTests
  split
  · exact (hfinish s).grows
  · split
    · exact (Quiet.trans (hcancel _ s.frontier) (hfinish (cancelRemaining x s))).grows
    · split
      · exact (hfinish s).grows
      · exact .refl _

theorem pass_grows {s : LoopState}
    (hstrict : strict → x.cache = true → ∀ id ∈ s.frontier.readyFrontier, a.check id = .ok () →
      id ∉ s.frontier.forceRerun) :
    Grows x strict s.frontier (pass x a s).state.frontier := by
  have henter : Grows x strict s.frontier (entered s).frontier :=
    ((Quiet.refl _).note (by simp [routine])).grows
  unfold SchedulerLoop.pass
  dsimp only
  split
  · exact henter.trans (exitTests_grows (entered s) false)
  · obtain ⟨hframed, hready⟩ := findReadyJobs_framed (x := x) (a := a) (entered s)
    have hfound : Grows x strict (entered s).frontier (findReadyJobs x a (entered s)).frontier :=
      (findReadyJobs_quiet (entered s)).grows
    have hloop : Grows x strict (findReadyJobs x a (entered s)).frontier
        (dispatchLoop x a (findReadyJobs x a (entered s)).ready
          { entered s with
            frontier := (findReadyJobs x a (entered s)).frontier
            gatesSeen := (findReadyJobs x a (entered s)).gatesSeen } false).1.frontier := by
      refine dispatchLoop_grows _ _ _ fun hs hx id hid hhit => ?_
      rw [hframed.forceRerun]
      exact hstrict hs hx id (hready id hid) hhit
    refine henter.trans ((hfound.trans hloop).trans ?_)
    refine Grows.trans ?_ (exitTests_grows _ _)
    unfold dispatchPhase
    dsimp only
    split
    · exact pollPeerWaits_grows _
    · exact .refl _

theorem await_grows {s : LoopState} {skipped : Bool} {arm : Arm} {q : Point}
    (hq : await x s skipped arm = some q) : Grows x strict s.frontier q.state.frontier := by
  cases await_cases x hq with
  | again | polled | retryElapsed | stopped => exact .refl _
  | @interrupted order =>
    have hmarks : ∀ (ids : List JobId) (f : Frontier),
        Quiet f (ids.foldl (fun f id => f.setStatus id .cancelled) f) := by
      intro ids
      induction ids with
      | nil => exact fun f => .refl f
      | cons id ids ih => exact fun f => ((Quiet.refl f).setStatus id .cancelled).trans (ih _)
    refine ((hmarks order s.frontier).note fun o ho => ?_).grows
    obtain ⟨id, -, ho⟩ := mem_flatMap.mp ho
    simp only [mem_cons, not_mem_nil, or_false] at ho
    obtain rfl | rfl := ho <;> rfl
  | completed =>
    exact Grows.trans (Quiet.of_log rfl).grows (consume_grows _ _)
  | taskFailed | hardKill => exact ((Quiet.refl _).note (by simp [routine])).grows

theorem initial_log (x : Setup) : ∀ o ∈ (initial x).frontier.log,
    (∃ id, o = .status id .skipped) ∨ ∃ event, o = .event event := by
  have hbase : (base x.topo.order x.graph x.config x.budget).log = [] := by
    unfold base
    split <;> rfl
  have hmark : ∀ (f : Frontier) (id : JobId), (premark x.graph f id).log = f.log ∨
      (premark x.graph f id).log = f.log ++ [.status id .skipped] := by
    intro f id
    unfold premark
    split
    · exact .inr (promoteDownstream_log _ _)
    · exact .inl rfl
  have hfold : ∀ (ids : List JobId) (f : Frontier),
      ∀ o ∈ (ids.foldl (premark x.graph) f).log, o ∈ f.log ∨ ∃ id, o = .status id .skipped := by
    intro ids
    induction ids with
    | nil => exact fun f o ho => .inl ho
    | cons id ids ih =>
      intro f o ho
      cases ih (premark x.graph f id) o ho with
      | inl h =>
        cases hmark f id with
        | inl hlog => exact .inl (hlog ▸ h)
        | inr hlog =>
          rw [hlog] at h
          cases mem_append.mp h with
          | inl h => exact .inl h
          | inr h => exact .inr ⟨id, mem_singleton.mp h⟩
      | inr h => exact .inr h
  intro o ho
  cases mem_append.mp ho with
  | inl h =>
    cases hfold _ _ o h with
    | inl h =>
      have hnone : o ∈ (base x.topo.order x.graph x.config x.budget).log := h
      rw [hbase] at hnone
      cases hnone
    | inr h => exact .inl h
  | inr h =>
    obtain ⟨event, -, rfl⟩ := mem_map.mp h
    exact .inr ⟨event, rfl⟩

theorem initial_quiet (x : Setup) : ∀ o ∈ (initial x).frontier.log, routine o = true := by
  intro o ho
  cases initial_log x o ho with
  | inl h =>
    obtain ⟨_, rfl⟩ := h
    rfl
  | inr h =>
    obtain ⟨_, rfl⟩ := h
    rfl

theorem reachable_blocks {c : Conduct}
    (hstrict : strict → x.cache = true → ∀ s a, c.pass s a → ∀ id ∈ s.frontier.readyFrontier,
      a.check id = .ok () → id ∉ s.frontier.forceRerun) {p : Point} (h : Reachable x c p) :
    Blocks x strict p.state.frontier.log := by
  have hgrow : ∀ {f f' : Frontier}, Blocks x strict f.log → Grows x strict f f' →
      Blocks x strict f'.log := by
    rintro f f' hf ⟨_, hlog, hobs⟩
    rw [hlog]
    exact hf.trans hobs
  induction h with
  | start =>
    have hquiet : Blocks x strict ([] ++ (initial x).frontier.log) :=
      Blocks.nil.append (.quiet (initial_quiet x))
    exact hquiet
  | pass _ hpass ih => exact hgrow ih (pass_grows fun hs hx => hstrict hs hx _ _ hpass)
  | await _ _ hq ih => exact hgrow ih (await_grows hq)

end Runs

end OxyMake.RunLog
