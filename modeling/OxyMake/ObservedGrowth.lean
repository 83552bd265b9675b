import OxyMake.RunLog

/-!
# What the steps of a run observe

Apart from the search for ready jobs and the attempts to dispatch them, every
step of a run is calm: it starts no iteration, records no answer of a gate and
starts no job. An attempt starts at most its own job.
-/

namespace OxyMake.ObservedGrowth

open List
open PhysicalGraph Observation SchedulingFrontier Frontier Completion SchedulerLoop

section Growth

/-- The second frontier continues the log of the first with observations of a
kind, and its statuses are what their writes make of the first ones. -/
def Adds (K : Obs → Prop) (f f' : Frontier) : Prop :=
  ∃ obs, f'.log = f.log ++ obs ∧ f'.statuses = replay f.statuses (writes obs) ∧ ∀ o ∈ obs, K o

variable {K K' : Obs → Prop} {f f' f'' : Frontier}

theorem Adds.refl (f : Frontier) : Adds K f f := ⟨[], by simp, rfl, by simp⟩

theorem Adds.of_same (hlog : f'.log = f.log) (hstatuses : f'.statuses = f.statuses) :
    Adds K f f' :=
  ⟨[], by simp [hlog], by rw [hstatuses]; rfl, by simp⟩

theorem Adds.trans (h : Adds K f f') (h' : Adds K f' f'') : Adds K f f'' := by
  obtain ⟨obs, hlog, hstatuses, hobs⟩ := h
  obtain ⟨obs', hlog', hstatuses', hobs'⟩ := h'
  have hwrites : f''.statuses = replay f.statuses (writes (obs ++ obs')) := by
    rw [hstatuses', hstatuses, writes_append, replay, replay, replay, foldl_append]
  refine ⟨obs ++ obs', by rw [hlog', hlog, append_assoc], hwrites, ?_⟩
  intro o ho
  cases mem_append.mp ho with
  | inl h => exact hobs o h
  | inr h => exact hobs' o h

theorem Adds.mono (h : Adds K f f') (hK : ∀ o, K o → K' o) : Adds K' f f' := by
  obtain ⟨obs, hlog, hstatuses, hobs⟩ := h
  exact ⟨obs, hlog, hstatuses, fun o ho => hK o (hobs o ho)⟩

theorem Adds.note (h : Adds K f f') {obs : List Obs} (hobs : ∀ o ∈ obs, K o ∧ o.write? = none) :
    Adds K f (f'.note obs) := by
  have hnone : writes obs = [] :=
    filterMap_eq_nil_iff.mpr fun o ho => (hobs o ho).2
  exact h.trans ⟨obs, rfl, by rw [hnone]; rfl, fun o ho => (hobs o ho).1⟩

theorem Adds.setStatus (h : Adds K f f') {id : JobId} {st : JobLifecycle} (hK : K (.status id st)) :
    Adds K f (f'.setStatus id st) :=
  h.trans ⟨[.status id st], rfl, rfl, by simpa using hK⟩

theorem Adds.andSame (h : Adds K f f') (hlog : f''.log = f'.log)
    (hstatuses : f''.statuses = f'.statuses) : Adds K f f'' :=
  h.trans (.of_same hlog hstatuses)

theorem Adds.promote (h : Adds K f f') (g : JobGraph) (id : JobId) :
    Adds K f (f'.promoteDownstream g id) :=
  h.andSame (promoteDownstream_log f' id) (promoteDownstream_statuses f' id)

theorem Adds.foldl {σ ι : Type*} {v : σ → Frontier} {step : σ → ι → σ}
    (hstep : ∀ acc i, Adds K (v acc) (v (step acc i))) (is : List ι) (acc : σ) :
    Adds K (v acc) (v (is.foldl step acc)) := by
  induction is generalizing acc with
  | nil => exact .refl _
  | cons i is ih => exact (hstep acc i).trans (ih _)

end Growth

section Calm

/-- Observations that neither search, answer for a gate nor start a job. -/
def calm : Obs → Bool
  | .pass | .gateAnswered _ _ _ | .launched _ | .status _ .running => false
  | _ => true

abbrev Calm (f f' : Frontier) : Prop := Adds (fun o => calm o = true) f f'

variable {x : Setup} {a : Answers}

theorem Calm.setStatus {f f' : Frontier} (h : Calm f f') {id : JobId} {st : JobLifecycle}
    (hst : calm (.status id st) = true) : Calm f (f'.setStatus id st) :=
  Adds.setStatus h hst

theorem cancelLoop_calm (g : JobGraph) (failedId : JobId) (fuel : ℕ)
    (toCancel visited : List JobId) (f : Frontier) :
    Calm f (cancelLoop g failedId fuel toCancel visited f) := by
  induction fuel generalizing toCancel visited f with
  | zero => exact .refl f
  | succ fuel ih =>
    cases toCancel with
    | nil => exact .refl f
    | cons id =>
      have hset : Calm f (f.setStatus id .cancelled) := (Adds.refl f).setStatus rfl
      have hwithdrawn : Calm f ((f.setStatus id .cancelled).withdraw id) := hset.andSame rfl rfl
      rw [cancelLoop]
      split
      · exact ih _ _ _
      · dsimp only
        split
        · exact (hwithdrawn.note (by simp [calm, Obs.write?])).trans (ih _ _ _)
        · exact (hwithdrawn.note (by simp [calm, Obs.write?])).trans (ih _ _ _)
        · exact (hset.note (by simp [calm, Obs.write?])).trans (ih _ _ _)
        · exact ih _ _ _

theorem commitSuccess_calm (p : Policy) (msg : CompletionMsg) (outputs : List String)
    (f : Frontier) : Calm f (commitSuccess p msg outputs f) := by
  have hdone : Calm f ((f.note [.event (.jobCompleted msg.job.id msg.result.durationMs outputs
      msg.result.peakMemoryBytes msg.result.cpuTimeMs (p.endpoint msg.job))]).setStatus
      msg.job.id .succeeded) :=
    ((Adds.refl f).note (by simp [calm, Obs.write?])).setStatus rfl
  unfold commitSuccess
  dsimp only
  split
  · refine Adds.promote ?_ p.graph msg.job.id
    exact hdone.andSame rfl rfl
  · exact hdone.promote p.graph msg.job.id

theorem scheduleRetry_calm (msg : CompletionMsg) (count : ℕ) (backoff : Backoff) (attempt : ℕ)
    (f : Frontier) : Calm f (scheduleRetry msg count backoff attempt f) := by
  have hpending : Calm f (f.setStatus msg.job.id .pending) := (Adds.refl f).setStatus rfl
  have hoffered : Calm f ((f.setStatus msg.job.id .pending).offer msg.job.id) :=
    hpending.andSame rfl rfl
  unfold scheduleRetry
  dsimp only
  split
  · exact (hoffered.note (by simp [calm, Obs.write?])).andSame rfl rfl
  · exact hoffered.note (by simp [calm, Obs.write?])

theorem recordFailure_calm (p : Policy) (msg : CompletionMsg) (f : Frontier) :
    Calm f (recordFailure p msg f) := by
  have hcauses : ∀ causes : List RootCause, ∀ o ∈ causes.map rootCauseEvent,
      calm o = true ∧ o.write? = none := by
    intro causes o ho
    obtain ⟨_, -, rfl⟩ := mem_map.mp ho
    exact ⟨rfl, rfl⟩
  exact ((Adds.refl f).note (hcauses _)).andSame rfl rfl

theorem handleCompletion_calm (p : Policy) (msg : CompletionMsg) (terminateRequested : Bool)
    (f : Frontier) : Calm f (handleCompletion p msg terminateRequested f).frontier := by
  have hpropagate : ∀ f' : Frontier, Calm f f' →
      Calm f (cancelDownstream p.graph msg.job.id (recordFailure p msg f')) := fun f' hf' =>
    (hf'.trans (recordFailure_calm p msg f')).trans (cancelLoop_calm _ _ _ _ _ _)
  unfold handleCompletion
  dsimp only
  split
  · exact .refl f
  · split
    · exact commitSuccess_calm p msg _ f
    · split
      · exact commitSuccess_calm p msg _ f
      · split
        · exact (Adds.of_same rfl rfl).trans (scheduleRetry_calm msg _ _ _ _)
        · refine hpropagate _ (Adds.note (Calm.setStatus ?_ rfl) (by simp [calm, Obs.write?]))
          exact .of_same rfl rfl
      · exact hpropagate _ (((Adds.refl f).note (by simp [calm, Obs.write?])).setStatus rfl)
      · exact hpropagate _ (((Adds.refl f).note (by simp [calm, Obs.write?])).setStatus rfl)

theorem consume_calm (msg : CompletionMsg) (s : LoopState) :
    Calm s.frontier (consume x msg s).frontier := by
  have hdelivered : Calm s.frontier (s.frontier.note [.delivered msg.job.id msg.result.exitCode]) :=
    (Adds.refl _).note (by simp [calm, Obs.write?])
  have hhandled := hdelivered.trans (handleCompletion_calm x.policy msg s.terminateRequested _)
  unfold consume
  dsimp only
  split
  · exact hhandled.note (by simp [calm, Obs.write?])
  · exact hhandled

theorem pollPeer_calm (acc : LoopState × Bool) (id : JobId) :
    Calm acc.1.frontier (pollPeer x a acc id).1.frontier := by
  unfold pollPeer
  dsimp only
  split
  · exact .refl _
  · split
    · exact .refl _
    · split
      · exact .refl _
      · exact .of_same rfl rfl
      · exact consume_calm _ (unparkJob id acc.1)
      · exact consume_calm _ (unparkJob id acc.1)
      · have hset : Calm acc.1.frontier (acc.1.frontier.setStatus id .cancelled) :=
          (Adds.refl _).setStatus rfl
        exact (hset.note (by simp [calm, Obs.write?])).trans (cancelLoop_calm _ _ _ _ _ _)

/-- Observations of a run that winds up: events and cancellations. -/
def closing : Obs → Bool
  | .event _ | .status _ .cancelled => true
  | _ => false

theorem exitTests_closing (s : LoopState) (skipped : Bool) :
    Adds (fun o => closing o = true) s.frontier (exitTests x s skipped).state.frontier := by
  have hfinish : ∀ m : LoopState, Adds (fun o => closing o = true) s.frontier m.frontier →
      Adds (fun o => closing o = true) s.frontier (finishRun x m).frontier := fun m hm =>
    hm.note (by simp [closing, Obs.write?])
  have hcancel : Adds (fun o => closing o = true) s.frontier (cancelRemaining x s).frontier := by
    refine Adds.foldl (v := id) (fun f id => ?_) _ _
    have hset : Adds (fun o => closing o = true) f (f.setStatus id .cancelled) :=
      (Adds.refl f).setStatus rfl
    exact hset.note (by simp [closing, Obs.write?])
  unfold exitTests
  split
  · exact hfinish s (.refl _)
  · split
    · exact hfinish _ hcancel
    · split
      · exact hfinish s (.refl _)
      · exact .refl _

theorem exitTests_calm (s : LoopState) (skipped : Bool) :
    Calm s.frontier (exitTests x s skipped).state.frontier := by
  refine (exitTests_closing s skipped).mono fun o ho => ?_
  cases o with
  | status j st => cases st <;> simp_all [closing, calm]
  | _ => simp_all [closing, calm]

theorem await_calm {s : LoopState} {skipped : Bool} {arm : Arm} {q : Point}
    (h : await x s skipped arm = some q) : Calm s.frontier q.state.frontier := by
  cases await_cases x h with
  | again | polled | retryElapsed | stopped => exact .refl _
  | @interrupted order =>
    have hmarked : Calm s.frontier
        (order.foldl (fun f id => f.setStatus id .cancelled) s.frontier) :=
      Adds.foldl (v := id) (fun f id => Calm.setStatus (.refl f) rfl) _ _
    refine hmarked.note fun o ho => ?_
    obtain ⟨id, -, hid⟩ := mem_flatMap.mp ho
    simp only [mem_cons, not_mem_nil, or_false] at hid
    cases hid with
    | inl h => rw [h]; exact ⟨rfl, rfl⟩
    | inr h => rw [h]; exact ⟨rfl, rfl⟩
  | @completed msg =>
    have hjoined : Calm s.frontier (joinTask x msg.job.id s).frontier := .of_same rfl rfl
    exact hjoined.trans (consume_calm msg _)
  | taskFailed | hardKill =>
    refine (Adds.refl s.frontier).note fun o ho => ?_
    obtain ⟨id, -, rfl⟩ := mem_map.mp ho
    exact ⟨rfl, rfl⟩

theorem initial_calm (x : Setup) : ∀ o ∈ (initial x).frontier.log, calm o = true := by
  intro o ho
  cases RunLog.initial_log x o ho with
  | inl h =>
    obtain ⟨_, rfl⟩ := h
    rfl
  | inr h =>
    obtain ⟨_, rfl⟩ := h
    rfl

end Calm

section Dispatch

variable {x : Setup} {a : Answers}

def Attempts (ids : List JobId) (o : Obs) : Prop :=
  calm o = true ∨ ∃ id ∈ ids, o = .launched id ∨ o = .status id .running

theorem deferAll_calm (ids : List JobId) (f : Frontier) : Calm f (ids.foldl deferJob f) := by
  refine Adds.foldl (v := id) (fun f id => ?_) ids f
  have hoffered : Calm f (f.offer id) := .of_same rfl rfl
  exact hoffered.setStatus rfl

theorem commitDispatch_adds (job : ConcreteJob) (id : JobId) (cached : Bool)
    (remaining : List JobId) (s : LoopState) :
    Adds (Attempts [id]) s.frontier (commitDispatch x job id cached remaining s).1.frontier := by
  have hcalm : ∀ f' : Frontier, Calm s.frontier f' → Adds (Attempts [id]) s.frontier f' :=
    fun f' hf' => hf'.mono fun o ho => .inl ho
  unfold commitDispatch
  dsimp only
  split
  · exact .refl _
  · split
    · have hskipped : Calm s.frontier (s.frontier.setStatus id .skipped) :=
        Calm.setStatus (.refl _) rfl
      exact hcalm _ ((hskipped.promote x.graph id).note (by simp [calm, Obs.write?]))
    · split
      · exact hcalm _ (deferAll_calm [id] s.frontier)
      · split
        · exact hcalm _ (deferAll_calm remaining s.frontier)
        · refine Adds.note (Adds.setStatus (.of_same rfl rfl) ?_) ?_
          · exact .inr ⟨id, by simp, .inr rfl⟩
          · intro o ho
            simp only [mem_cons, not_mem_nil, or_false] at ho
            cases ho with
            | inl h => rw [h]; exact ⟨.inl rfl, rfl⟩
            | inr h => rw [h]; exact ⟨.inr ⟨id, by simp, .inl rfl⟩, rfl⟩

theorem attempt_calm (id : JobId) (s : LoopState) :
    Calm s.frontier
      (claimJob x a id (checkCache x a id s).2 (checkCache x a id s).1).1.frontier := by
  have hchecks : ∀ answer : Except RunReason Unit, ∀ o ∈ Obs.attempt id ::
      (if x.cache = true then [Obs.cacheChecked id answer.isOk] else []),
      calm o = true ∧ o.write? = none := by
    intro answer o ho
    cases mem_cons.mp ho with
    | inl h =>
      rw [h]
      exact ⟨rfl, rfl⟩
    | inr h =>
      split at h
      · rw [mem_singleton.mp h]
        exact ⟨rfl, rfl⟩
      · cases h
  have hchecked : Calm s.frontier (checkCache x a id s).1.frontier := by
    unfold checkCache
    dsimp only
    split
    · exact (Adds.refl _).note (hchecks _)
    · exact (Adds.refl _).note (hchecks _)
  unfold claimJob
  split
  · exact hchecked.note (by simp [calm, Obs.write?])
  · exact hchecked

theorem dispatchJob_adds (remaining : List JobId) (id : JobId) (s : LoopState) :
    Adds (Attempts [id]) s.frontier (dispatchJob x a remaining id s).1.frontier := by
  unfold dispatchJob
  split
  · exact .refl _
  · next job _ =>
    have hattempt := attempt_calm (x := x) (a := a) id s
    dsimp only
    generalize claimJob x a id (checkCache x a id s).2 (checkCache x a id s).1 = r at hattempt ⊢
    obtain ⟨claimed, _⟩ := r
    have hclaimed : Adds (Attempts [id]) s.frontier claimed.frontier :=
      hattempt.mono fun o ho => .inl ho
    split
    · next owner he =>
      cases he
      have hparked : Calm claimed.frontier (parkJob id owner claimed).frontier := by
        unfold parkJob
        split
        · have hpending : Calm claimed.frontier (claimed.frontier.setStatus id .pending) :=
            Calm.setStatus (.refl _) rfl
          exact hpending.note (by simp [calm, Obs.write?])
        · exact .refl _
      exact hclaimed.trans (hparked.mono fun o ho => .inl ho)
    · next he =>
      cases he
      split
      · exact hclaimed
      · have hreleased : Adds (Attempts [id]) claimed.frontier
            (releaseTasks x a id claimed).frontier := .of_same rfl rfl
        exact (hclaimed.trans hreleased).trans (commitDispatch_adds _ _ _ _ _)

theorem dispatchLoop_adds (rest : List JobId) (s : LoopState) (skipped : Bool) :
    Adds (Attempts rest) s.frontier (dispatchLoop x a rest s skipped).1.frontier := by
  induction rest generalizing s skipped with
  | nil => exact .refl _
  | cons id rest ih =>
    have hone : Adds (Attempts (id :: rest)) s.frontier
        (dispatchJob x a (id :: rest) id s).1.frontier := by
      refine (dispatchJob_adds (id :: rest) id s).mono fun o ho => ?_
      cases ho with
      | inl h => exact .inl h
      | inr h =>
        obtain ⟨j, hj, ho⟩ := h
        exact .inr ⟨j, mem_cons.mpr (.inl (mem_singleton.mp hj)), ho⟩
    have hrest : ∀ (s' : LoopState) (b : Bool), Adds (Attempts (id :: rest)) s'.frontier
        (dispatchLoop x a rest s' b).1.frontier := by
      intro s' b
      refine (ih s' b).mono fun o ho => ?_
      cases ho with
      | inl h => exact .inl h
      | inr h =>
        obtain ⟨j, hj, ho⟩ := h
        exact .inr ⟨j, mem_cons_of_mem _ hj, ho⟩
    rw [dispatchLoop]
    split
    · next s' he => rw [he] at hone; exact hone.trans (hrest s' _)
    · next s' he => rw [he] at hone; exact hone.trans (hrest s' _)
    · next s' he => rw [he] at hone; exact hone

theorem pollPeerWaits_calm (s : LoopState) :
    Calm s.frontier (pollPeerWaits x a s).1.frontier :=
  Adds.foldl (v := fun acc : LoopState × Bool => acc.1.frontier) pollPeer_calm _ (s, false)

end Dispatch

end OxyMake.ObservedGrowth
