import OxyMake.NetFate
import OxyMake.NoStuckRun
import OxyMake.DispatchProgress
import OxyMake.TerminalStatuses

/-!
# Scheduling is confluent and terminates

With keep-going, without gates, claims, signals and cache hits, and with an
executor whose exit code depends only on the job and the number of the attempt,
every fair run returns, and every run that returns ends with the same statuses
whatever the slots, the budget and the order of completions.
-/

namespace OxyMake.Confluence

open List
open PhysicalGraph Observation SchedulingFrontier Frontier Completion SchedulerLoop
open FrontierInitialisation LabelledRuns DependencyNet NetInvariants NetFate CompletionRefinement
open LoopRefinement LoopFrames NoStuckRun DispatchProgress

section Attempts

def lastAttempt : ErrorStrategy → ℕ
  | .retry count _ => max count 1
  | .terminate | .ignore | .finish => 1

/-- The attempts fail under the strategy, given the exit code of each attempt. -/
def attemptsFail (strategy : ErrorStrategy) (exitCode : ℕ → ℤ) : Bool :=
  match strategy with
  | .ignore => false
  | .terminate | .finish => exitCode 1 ≠ 0
  | .retry count _ => (List.range (max count 1)).all fun k => exitCode (k + 1) ≠ 0

def attemptsEnd (strategy : ErrorStrategy) (exitCode : ℕ → ℤ) : JobLifecycle :=
  if attemptsFail strategy exitCode then .failed s!"exit code {exitCode (lastAttempt strategy)}"
  else .succeeded

theorem judge_again {strategy : ErrorStrategy} {k : ℕ} {code : ℤ}
    (h : judge strategy k code = .again) :
    code ≠ 0 ∧ ∃ count backoff, strategy = .retry count backoff ∧ k < count := by
  unfold judge at h
  split at h
  · cases h
  · next hcode =>
    cases strategy with
    | retry count backoff =>
      dsimp only at h
      split at h
      · next hlt => exact ⟨hcode, count, backoff, rfl, hlt⟩
      · cases h
    | terminate | ignore | finish => cases h

theorem lt_lastAttempt {strategy : ErrorStrategy} {exitCode : ℕ → ℤ} {k : ℕ}
    (hagain : ∀ i < k, judge strategy (i + 1) (exitCode (i + 1)) = .again) :
    k < lastAttempt strategy := by
  cases k with
  | zero => cases strategy <;> simp [lastAttempt]
  | succ k =>
    obtain ⟨-, _, _, rfl, _⟩ := judge_again (hagain k (by omega))
    simp only [lastAttempt]
    omega

theorem attemptsEnd_success {strategy : ErrorStrategy} {exitCode : ℕ → ℤ} {k : ℕ}
    (hagain : ∀ i < k, judge strategy (i + 1) (exitCode (i + 1)) = .again)
    (h : judge strategy (k + 1) (exitCode (k + 1)) = .success) :
    attemptsEnd strategy exitCode = .succeeded := by
  have hlt := lt_lastAttempt hagain
  have hfail : attemptsFail strategy exitCode = false := by
    unfold judge at h
    cases strategy with
    | ignore => rfl
    | terminate | finish =>
      obtain rfl : k = 0 := by
        simp only [lastAttempt] at hlt
        omega
      by_cases hcode : exitCode 1 = 0
      · simp [attemptsFail, hcode]
      · simp [hcode] at h
    | retry =>
      have hcode : exitCode (k + 1) = 0 := by
        by_contra hcode
        simp only [hcode, if_false] at h
        split at h <;> cases h
      exact all_eq_false.mpr ⟨k, mem_range.mpr hlt, by simp [hcode]⟩
  simp [attemptsEnd, hfail]

theorem attemptsEnd_failure {strategy : ErrorStrategy} {exitCode : ℕ → ℤ} {k : ℕ}
    {message : String} (hagain : ∀ i < k, judge strategy (i + 1) (exitCode (i + 1)) = .again)
    (h : judge strategy (k + 1) (exitCode (k + 1)) = .failure message) :
    attemptsEnd strategy exitCode = .failed message := by
  have hlt := lt_lastAttempt hagain
  have hcode : exitCode (k + 1) ≠ 0 := by
    intro hcode
    simp [judge, hcode] at h
  have hboth : attemptsFail strategy exitCode = true ∧ k + 1 = lastAttempt strategy ∧
      message = s!"exit code {exitCode (k + 1)}" := by
    unfold judge at h
    rw [if_neg hcode] at h
    cases strategy with
    | ignore => cases h
    | terminate | finish =>
      cases h
      obtain rfl : k = 0 := by
        simp only [lastAttempt] at hlt
        omega
      exact ⟨by simpa [attemptsFail] using hcode, rfl, rfl⟩
    | retry count =>
      dsimp only at h
      split at h
      · cases h
      · next hlast =>
        cases h
        simp only [lastAttempt] at hlt
        have hk : k + 1 = max count 1 := by omega
        refine ⟨?_, hk, rfl⟩
        refine all_eq_true.mpr fun i hi => ?_
        have hi := mem_range.mp hi
        by_cases hik : i = k
        · subst hik
          simpa using hcode
        · simpa using (judge_again (hagain i (by omega))).1
  rw [attemptsEnd, if_pos hboth.1, ← hboth.2.1, hboth.2.2]

end Attempts

variable {x : Setup} {outcome : JobId → ℕ → ℤ}

section Fate

def strategyOf (x : Setup) (id : JobId) : ErrorStrategy :=
  ((x.graph.getJob id).map ConcreteJob.errorStrategy).getD .terminate

def script (x : Setup) (outcome : JobId → ℕ → ℤ) : Script JobId where
  verdict id k := judge (strategyOf x id) k (outcome id k)
  bound id := lastAttempt (strategyOf x id)
  ends id := attemptsEnd (strategyOf x id) (outcome id)
  again_lt := by
    intro id k h
    obtain ⟨-, _, _, he, _⟩ := judge_again h
    rw [he]
    simp only [lastAttempt]
    omega
  bound_pos id := by
    cases strategyOf x id <;> simp [lastAttempt]
  success hagain h := attemptsEnd_success hagain h
  failure hagain h := attemptsEnd_failure hagain h

/-- Final status of a job, given those of its upstream jobs. -/
def settledStatus (x : Setup) (outcome : JobId → ℕ → ℤ) (final : JobId → JobLifecycle)
    (id : JobId) : JobLifecycle :=
  if id ∈ x.config.skipJobs then .skipped
  else if ∃ up ∈ x.graph.upstream id, (final up).isBroken = true then .cancelled
  else attemptsEnd (strategyOf x id) (outcome id)

def finalStatuses (x : Setup) (outcome : JobId → ℕ → ℤ) : JobId → JobLifecycle :=
  x.topo.order.foldl (fun final id => Function.update final id (settledStatus x outcome final id))
    fun _ => .pending

theorem finalStatuses_eq {id : JobId} (hid : id ∈ x.topo.order) :
    finalStatuses x outcome id = settledStatus x outcome (finalStatuses x outcome) id := by
  have hkeep : ∀ (ids : List JobId) (final : JobId → JobLifecycle) (j : JobId), j ∉ ids →
      (ids.foldl (fun final id => Function.update final id (settledStatus x outcome final id))
        final) j = final j := by
    intro ids
    induction ids with
    | nil => exact fun final j _ => rfl
    | cons k ids ih =>
      intro final j hj
      rw [foldl_cons, ih _ j fun h => hj (by simp [h]),
        Function.update_of_ne fun h => hj (by simp [h])]
  obtain ⟨earlier, later, horder⟩ := append_of_mem hid
  have hnodup := x.topo.nodup
  rw [horder] at hnodup
  obtain ⟨-, hrest, hdisjoint⟩ := nodup_append.mp hnodup
  obtain ⟨hlater, -⟩ := nodup_cons.mp hrest
  have hsplit : ∀ j, finalStatuses x outcome j = ((id :: later).foldl (fun final id =>
      Function.update final id (settledStatus x outcome final id)) (earlier.foldl (fun final id =>
        Function.update final id (settledStatus x outcome final id)) fun _ => .pending)) j := by
    intro j
    rw [finalStatuses, horder, foldl_append]
  generalize earlier.foldl (fun final id =>
    Function.update final id (settledStatus x outcome final id)) (fun _ => .pending) = before
    at hsplit
  have hup : ∀ up ∈ x.graph.upstream id, finalStatuses x outcome up = before up := by
    intro up hup
    have hmem := x.topo.before earlier id later horder up hup
    rw [hsplit]
    exact hkeep _ _ _ fun h => hdisjoint up hmem up h rfl
  have hself : finalStatuses x outcome id = settledStatus x outcome before id := by
    rw [hsplit, foldl_cons, hkeep _ _ _ hlater, Function.update_self]
  rw [hself]
  unfold settledStatus
  have hiff : (∃ up ∈ x.graph.upstream id, (before up).isBroken = true) ↔
      ∃ up ∈ x.graph.upstream id, (finalStatuses x outcome up).isBroken = true := by
    constructor
    · rintro ⟨up, hu, hb⟩
      exact ⟨up, hu, by rw [hup up hu]; exact hb⟩
    · rintro ⟨up, hu, hb⟩
      exact ⟨up, hu, by rw [← hup up hu]; exact hb⟩
  simp only [hiff]

theorem finalStatuses_fate : Fate (wiring x.topo) (fun id => decide (id ∈ x.config.skipJobs))
    (script x outcome) (finalStatuses x outcome) := by
  intro id hid
  rw [finalStatuses_eq hid]
  simp only [settledStatus, decide_eq_true_eq]
  rfl

end Fate

section Runs

/-- A run with keep-going, without gates, claims and signals. -/
structure Steady (x : Setup) : Prop where
  /-- Independent branches continue after a failure. -/
  keepGoing : x.config.keepGoing = true
  gates : ∀ id, x.graph.blockingGates id = []
  claimer : x.claimer = false
  shutdown : x.shutdown = false

/-- A fresh run with keep-going and a slot, without gates, claims and signals. -/
structure Undisturbed (x : Setup) : Prop where
  fresh : x.config.resumeSnapshot = none
  /-- Independent branches continue after a failure. -/
  keepGoing : x.config.keepGoing = true
  gates : ∀ id, x.graph.blockingGates id = []
  claimer : x.claimer = false
  shutdown : x.shutdown = false
  /-- At least one job can run. -/
  slot : 1 ≤ x.config.maxJobs

/-- The cache reports no hit, exit codes depend on job and attempt, and no task
is lost. -/
def scripted (x : Setup) (outcome : JobId → ℕ → ℤ) : Conduct where
  pass _ a := x.cache = true → ∀ id, a.check id ≠ .ok ()
  await s arm := match arm with
    | .completed msg =>
      msg.result.exitCode = outcome msg.job.id (s.frontier.retryCounts msg.job.id + 1)
    | .taskFailed _ => False
    | _ => True

def scriptedNet (x : Setup) (outcome : JobId → ℕ → ℤ) : Discipline JobId :=
  ⟨False, False, False, fun _ _ => False, fun id k v => v = (script x outcome).verdict id k⟩

theorem follows_script : Follows (scriptedNet x outcome) (script x outcome) :=
  ⟨fun h => h, fun h => h, fun h => h, fun _ _ h => h, fun h => h⟩

theorem obeys_of_steady (hx : Steady x) {c : Conduct}
    (hpass : ∀ s a, c.pass s a → x.cache = true → ∀ id, a.check id ≠ .ok ())
    (hcode : ∀ s msg, c.await s (.completed msg) →
      msg.result.exitCode = outcome msg.job.id (s.frontier.retryCounts msg.job.id + 1)) :
    Obeys x c (scriptedNet x outcome) where
  shutdown h := by rw [hx.shutdown] at h; cases h
  failure h := by rw [hx.keepGoing] at h; cases h
  park h := by rw [hx.claimer] at h; cases h
  hit h hcache hhit := hpass _ _ h hcache _ hhit
  reject _ _ hrejected _ _ := by
    obtain ⟨-, hin⟩ := hrejected
    rw [gateAnswers, hx.gates] at hin
    cases hin
  peer _ hclaimer := by rw [hx.claimer] at hclaimer; cases hclaimer
  completed := by
    intro s msg hawait hjob
    change judge _ _ _ = judge (strategyOf x msg.job.id) _ _
    rw [hcode s msg hawait, strategyOf, hjob]
    rfl

theorem Undisturbed.steady (hx : Undisturbed x) : Steady x :=
  ⟨hx.keepGoing, hx.gates, hx.claimer, hx.shutdown⟩

theorem obeys_scripted (hx : Undisturbed x) :
    Obeys x (scripted x outcome) (scriptedNet x outcome) :=
  obeys_of_steady hx.steady (fun _ _ h => h) fun _ _ h => h

theorem initial_retryCounts (x : Setup) : (initial x).frontier.retryCounts = fun _ => 0 := by
  have hbase : (base x.topo.order x.graph x.config x.budget).retryCounts = fun _ => 0 := by
    unfold base
    split <;> rfl
  have hmark : ∀ (f : Frontier) (id : JobId),
      (premark x.graph f id).retryCounts = f.retryCounts := by
    intro f id
    unfold premark
    split
    · exact (promoteDownstream_framed x.graph id _).2.1
    · rfl
  have hfold : ∀ (ids : List JobId) (f : Frontier),
      (ids.foldl (premark x.graph) f).retryCounts = f.retryCounts := by
    intro ids
    induction ids with
    | nil => exact fun f => rfl
    | cons id ids ih => exact fun f => (ih _).trans (hmark f id)
  exact (hfold _ _).trans hbase

theorem initial_onTrack (hx : Undisturbed x) :
    OnTrack (wiring x.topo) (fun id => decide (id ∈ x.config.skipJobs)) (script x outcome)
      (finalStatuses x outcome) (loopNet (initial x) ∅ false) := by
  have hpending : ∀ id, unfinished ((initial x).frontier.statuses id) = true →
      id ∈ x.topo.order ∧ id ∉ x.config.skipJobs := fun id hid =>
    let h := (init_pending x.topo x.config x.budget id).mp
      (init_unfinished x.topo x.config x.budget hid)
    ⟨h.1, h.2.1⟩
  refine ⟨rfl, by simp [loopNet, net, initial], fun id st hst hterm => ?_, fun id hid => ?_,
    fun id hid => hid.elim, fun id _ => ?_⟩
  · have hinit : (if id ∈ x.config.skipJobs ∧ id ∈ x.topo.order then some .skipped
        else (base x.topo.order x.graph x.config x.budget).statuses id) = some st :=
      (init_statuses x.topo x.config x.budget id).symm.trans hst
    split at hinit
    · next h =>
      cases hinit
      rw [finalStatuses_eq h.2, settledStatus, if_pos h.1]
    · by_cases hid : id ∈ x.topo.order
      · simp [base, hx.fresh, new, hid] at hinit
        subst hinit
        cases hterm
      · simp [base, hx.fresh, new, hid] at hinit
  · simpa using (hpending id hid).2
  · have hzero : (loopNet (initial x) ∅ false).tries id = 0 :=
      congrFun (initial_retryCounts x) id
    rw [hzero]
    exact ⟨(script x outcome).bound_pos id, fun i hi => absurd hi (Nat.not_lt_zero i)⟩

/-- What holds at every point of an undisturbed run. -/
structure Tracked (x : Setup) (outcome : JobId → ℕ → ℤ) (s : LoopState) (closed : Bool) :
    Prop where
  sound : Sound (wiring x.topo) True (loopNet s ∅ closed)
  propagated : Propagated (wiring x.topo) (loopNet s ∅ closed)
  /-- The net is on its track. -/
  onTrack : OnTrack (wiring x.topo) (fun id => decide (id ∈ x.config.skipJobs))
    (script x outcome) (finalStatuses x outcome) (loopNet s ∅ closed)

theorem Tracked.run {s s' : LoopState} {closed closed' : Bool}
    {labels : List (JobId × JobLifecycle)} (h : Tracked x outcome s closed)
    (hrun : Run (Fire (wiring x.topo) (scriptedNet x outcome)) (loopNet s ∅ closed) labels
      (loopNet s' ∅ closed')) : Tracked x outcome s' closed' :=
  ⟨h.sound.run hrun, h.propagated.run h.sound.placed (fun _ _ (h : False) => h.elim) hrun,
    h.onTrack.run finalStatuses_fate follows_script h.sound hrun⟩

theorem initial_tracked (hx : Undisturbed x) : Tracked x outcome (initial x) false := by
  refine ⟨initial_sound x fun _ => DependencySafety.skipsCountOnce_of_fresh hx.fresh,
    initial_propagated fun id _ _ hbroken => ?_, initial_onTrack hx⟩
  rw [recordedBroken, hx.fresh] at hbroken
  cases hbroken

theorem reachable_tracked (hx : Undisturbed x) {p : Point}
    (h : Reachable x (scripted x outcome) p) :
    ∃ closed, Tracked x outcome p.state closed := by
  obtain ⟨closed, _, hlinked⟩ := reachable_linked (obeys_scripted hx) h
  exact ⟨closed, (initial_tracked hx).run hlinked.run⟩

theorem returned_statuses (hx : Undisturbed x) {s : LoopState}
    (h : Reachable x (scripted x outcome) (.returned s)) {id : JobId} (hid : id ∈ x.topo.order) :
    s.frontier.statuses id = some (finalStatuses x outcome id) := by
  obtain ⟨_, htracked⟩ := reachable_tracked hx h
  have hterm := returned_finished h id hid
  cases hst : s.frontier.statuses id with
  | none => rw [hst] at hterm; cases hterm
  | some st =>
    rw [hst] at hterm
    rw [htracked.onTrack.finished id st hst hterm]

end Runs

section Effort

theorem cancelLoop_keeps (g : JobGraph) (failedId : JobId) (fuel : ℕ)
    (toCancel visited : List JobId) (f : Frontier) {j : JobId}
    (hj : terminal (f.statuses j) = true) :
    (cancelLoop g failedId fuel toCancel visited f).statuses j = f.statuses j := by
  induction fuel generalizing toCancel visited f with
  | zero => rfl
  | succ fuel ih =>
    cases toCancel with
    | nil => rfl
    | cons id toCancel =>
      have hwrite : ∀ f' : Frontier, unfinished (f.statuses id) = true →
          f'.statuses = Function.update f.statuses id (some .cancelled) →
          ∀ toCancel visited, (cancelLoop g failedId fuel toCancel visited f').statuses j =
            f.statuses j := by
        intro f' hid hf toCancel visited
        have hne : j ≠ id := by
          rintro rfl
          cases hst : f.statuses j with
          | none => rw [hst] at hid; cases hid
          | some => rw [hst] at hid hj; simp_all
        have hsame : f'.statuses j = f.statuses j := by rw [hf, Function.update_of_ne hne]
        rw [ih _ _ f' (by rw [hsame]; exact hj), hsame]
      rw [cancelLoop]
      split
      · exact ih _ _ f hj
      · dsimp only
        split
        · next hst => exact hwrite _ (by rw [← getStatus_eq, hst]; rfl) rfl _ _
        · next hst => exact hwrite _ (by rw [← getStatus_eq, hst]; rfl) rfl _ _
        · next hst => exact hwrite _ (by rw [← getStatus_eq, hst]; rfl) rfl _ _
        · exact ih _ _ f hj

theorem handleCompletion_retries {p : Policy} {msg : CompletionMsg} {terminateRequested : Bool}
    {f : Frontier} (hrunning : f.statuses msg.job.id = some .running)
    (hopen : terminal
      ((handleCompletion p msg terminateRequested f).frontier.statuses msg.job.id) = false) :
    (handleCompletion p msg terminateRequested f).frontier.retryCounts msg.job.id =
      f.retryCounts msg.job.id + 1 := by
  have hself : f.getStatus msg.job.id ≠ some .cancelled := by
    rw [getStatus_eq, hrunning]
    simp
  have hsuccess : ∀ outputs,
      terminal ((commitSuccess p msg outputs f).statuses msg.job.id) = true := by
    intro outputs
    unfold commitSuccess
    dsimp only
    rw [promoteDownstream_statuses]
    split <;> simp [JobLifecycle.isTerminal]
  have hfailure : ∀ f' : Frontier, terminal (f'.statuses msg.job.id) = true →
      terminal ((cancelDownstream p.graph msg.job.id
        (recordFailure p msg f')).statuses msg.job.id) = true := by
    intro f' hf
    have hterm : terminal ((recordFailure p msg f').statuses msg.job.id) = true := hf
    exact (congrArg terminal (cancelLoop_keeps _ _ _ _ _ _ hterm)).trans hterm
  have hnever : ∀ {r : Frontier}, terminal (r.statuses msg.job.id) = true →
      terminal (r.statuses msg.job.id) = false →
      r.retryCounts msg.job.id = f.retryCounts msg.job.id + 1 := by
    intro r h h'
    rw [h] at h'
    cases h'
  unfold handleCompletion at hopen ⊢
  dsimp only at hopen ⊢
  rw [if_neg hself] at hopen ⊢
  split at hopen
  · next hcode =>
    rw [if_pos hcode]
    exact hnever (hsuccess _) hopen
  · next hcode =>
    rw [if_neg hcode]
    cases hstrategy : msg.job.errorStrategy with
    | ignore =>
      rw [hstrategy] at hopen
      exact hnever (hsuccess _) hopen
    | retry =>
      rw [hstrategy] at hopen
      dsimp only at hopen ⊢
      split at hopen
      · next hlt =>
        rw [if_pos hlt]
        unfold scheduleRetry
        dsimp only
        split <;> simp [Frontier.setStatus, Frontier.offer, Frontier.note]
      · next hlast =>
        rw [if_neg hlast]
        exact hnever (hfailure _ (by simp [JobLifecycle.isTerminal])) hopen
    | terminate | finish =>
      rw [hstrategy] at hopen
      exact hnever (hfailure _ (by simp [JobLifecycle.isTerminal])) hopen

theorem consume_retries {s : LoopState} {msg : CompletionMsg}
    (hrunning : s.frontier.statuses msg.job.id = some .running)
    (hopen : terminal ((consume x msg s).frontier.statuses msg.job.id) = false) :
    (consume x msg s).frontier.retryCounts msg.job.id =
      s.frontier.retryCounts msg.job.id + 1 := by
  have hretries : terminal ((handleCompletion x.policy msg s.terminateRequested
      (s.frontier.note [.delivered msg.job.id msg.result.exitCode])).frontier.statuses
        msg.job.id) = false → (handleCompletion x.policy msg s.terminateRequested
      (s.frontier.note [.delivered msg.job.id msg.result.exitCode])).frontier.retryCounts
        msg.job.id = s.frontier.retryCounts msg.job.id + 1 :=
    fun hopen => handleCompletion_retries hrunning hopen
  unfold consume at hopen ⊢
  dsimp only at hopen ⊢
  split at hopen
  · next hcommitted =>
    rw [if_pos hcommitted]
    exact hretries hopen
  · next hnot =>
    rw [if_neg hnot]
    exact hretries hopen

noncomputable def remaining (x : Setup) (outcome : JobId → ℕ → ℤ) (s : LoopState) : ℕ :=
  (x.topo.order.map (effort (script x outcome) (loopNet s ∅ false))).sum

theorem open_tracked (hx : Undisturbed x) {p : Point} (h : Reachable x (scripted x outcome) p)
    (hopen : ∀ s, p ≠ .returned s) : Tracked x outcome p.state false ∧ Regular x p.state ∧
      p.state.frontier.readyFrontier.Nodup := by
  obtain ⟨_, _, hlinked⟩ := reachable_linked (obeys_scripted hx) h
  obtain rfl := hlinked.isOpen hopen
  exact ⟨(initial_tracked hx).run hlinked.run, hlinked.regular, hlinked.nodup⟩

theorem effort_mono {s s' : LoopState} {closed : Bool} {labels : List (JobId × JobLifecycle)}
    (h : Tracked x outcome s false)
    (hrun : Run (Fire (wiring x.topo) (scriptedNet x outcome)) (loopNet s ∅ false) labels
      (loopNet s' ∅ closed)) (id : JobId) :
    effort (script x outcome) (loopNet s' ∅ false) id ≤
      effort (script x outcome) (loopNet s ∅ false) id :=
  effort_run h.onTrack finalStatuses_fate follows_script h.sound hrun id

theorem remaining_pass (hx : Undisturbed x) {s : LoopState} {a : Answers}
    (h : Reachable x (scripted x outcome) (.head s)) (hpass : (scripted x outcome).pass s a) :
    remaining x outcome (pass x a s).state ≤ remaining x outcome s := by
  obtain ⟨htracked, hregular, hnodup⟩ := open_tracked hx h (by simp)
  have hself : Linked x (scriptedNet x outcome) s (.head s) false [] :=
    ⟨by simp [Point.state], .refl _, hnodup, hregular, fun _ => rfl⟩
  obtain ⟨_, _, hlinked⟩ := hself.pass (obeys_scripted hx) htracked.sound.placed hpass
  exact sum_le_sum fun id _ => effort_mono htracked hlinked.run id

theorem remaining_await (hx : Undisturbed x) {s : LoopState} {skipped : Bool} {arm : Arm}
    {q : Point} (h : Reachable x (scripted x outcome) (.waiting s skipped))
    (hawait : (scripted x outcome).await s arm) (hq : await x s skipped arm = some q) (id : JobId) :
    effort (script x outcome) (loopNet q.state ∅ false) id ≤
      effort (script x outcome) (loopNet s ∅ false) id := by
  obtain ⟨htracked, hregular, hnodup⟩ := open_tracked hx h (by simp)
  have hself : Linked x (scriptedNet x outcome) s (.waiting s skipped) false [] :=
    ⟨by simp [Point.state], .refl _, hnodup, hregular, fun _ => rfl⟩
  obtain ⟨_, _, hlinked⟩ :=
    hself.await (obeys_scripted hx) htracked.sound.placed hawait hq
  exact effort_mono htracked hlinked.run id

theorem remaining_completed (hx : Undisturbed x) {s : LoopState} {skipped : Bool}
    {msg : CompletionMsg} {q : Point} (h : Reachable x (scripted x outcome) (.waiting s skipped))
    (hawait : (scripted x outcome).await s (.completed msg))
    (hq : await x s skipped (.completed msg) = some q) :
    remaining x outcome q.state < remaining x outcome s := by
  obtain ⟨htracked, -, -⟩ := open_tracked hx h (by simp)
  have hmono := remaining_await hx h hawait hq
  cases await_cases x hq with
  | completed hflight _ =>
    have hplaced := htracked.sound.placed
    have hleft : msg.job.id ∉ (joinTask x msg.job.id s).inFlight := by simp [joinTask]
    have hnode : msg.job.id ∈ x.topo.order := (hplaced.known _).mp (by
      obtain h | h := hplaced.flying _ hflight <;> rw [h] <;> rfl)
    refine sum_lt_sum _ _ (fun id _ => hmono id) ⟨msg.job.id, hnode, ?_⟩
    have hafter : terminal ((consume x msg (joinTask x msg.job.id s)).frontier.statuses
        msg.job.id) = true → effort (script x outcome)
        (loopNet (consume x msg (joinTask x msg.job.id s)) ∅ false) msg.job.id = 0 := by
      intro hterm
      exact (if_pos hterm).trans (if_neg hleft)
    obtain hrunning | hcancelled := hplaced.flying _ hflight
    · have hrunning : s.frontier.statuses msg.job.id = some .running := hrunning
      have hlt : s.frontier.retryCounts msg.job.id < (script x outcome).bound msg.job.id :=
        (htracked.onTrack.tries msg.job.id (by
          change unfinished (s.frontier.statuses msg.job.id) = true
          rw [hrunning]; rfl)).1
      have hbefore : effort (script x outcome) (loopNet s ∅ false) msg.job.id =
          (script x outcome).bound msg.job.id - s.frontier.retryCounts msg.job.id := by
        refine if_neg ?_
        change ¬ terminal (s.frontier.statuses msg.job.id) = true
        rw [hrunning]
        simp [JobLifecycle.isTerminal]
      rw [hbefore]
      cases hterm : terminal ((consume x msg (joinTask x msg.job.id s)).frontier.statuses
          msg.job.id) with
      | true =>
        change effort _ (loopNet (consume x msg (joinTask x msg.job.id s)) ∅ false) _ < _
        rw [hafter hterm]
        omega
      | false =>
        have hretries := consume_retries (x := x) (s := joinTask x msg.job.id s) hrunning hterm
        have hvalue : effort (script x outcome)
            (loopNet (consume x msg (joinTask x msg.job.id s)) ∅ false) msg.job.id =
            (script x outcome).bound msg.job.id - (s.frontier.retryCounts msg.job.id + 1) := by
          refine (if_neg ?_).trans ?_
          · change ¬ terminal ((consume x msg (joinTask x msg.job.id s)).frontier.statuses
              msg.job.id) = true
            rw [hterm]
            simp
          · exact congrArg _ hretries
        change effort _ (loopNet (consume x msg (joinTask x msg.job.id s)) ∅ false) _ < _
        rw [hvalue]
        omega
    · have hcancelled : s.frontier.statuses msg.job.id = some .cancelled := hcancelled
      have hbefore : effort (script x outcome) (loopNet s ∅ false) msg.job.id = 1 := by
        refine (if_pos ?_).trans (if_pos hflight)
        change terminal (s.frontier.statuses msg.job.id) = true
        rw [hcancelled]
        rfl
      change effort _ (loopNet (consume x msg (joinTask x msg.job.id s)) ∅ false) _ < _
      rw [hbefore, hafter]
      · exact Nat.zero_lt_one
      · rw [TerminalStatuses.consume_cancelled (s := joinTask x msg.job.id s) hcancelled]
        change terminal (s.frontier.statuses msg.job.id) = true
        rw [hcancelled]
        rfl

end Effort

section Termination

/-- What drives a run from one point to the next. -/
inductive Move
  | pass (a : Answers)
  | await (arm : Arm)
  | stay

/-- One step of a run; a returned run stays where it is. -/
inductive Step (x : Setup) (c : Conduct) : Point → Move → Point → Prop
  | pass {s : LoopState} {a : Answers} : c.pass s a → Step x c (.head s) (.pass a) (pass x a s)
  | await {s : LoopState} {skipped : Bool} {arm : Arm} {q : Point} : c.await s arm →
      await x s skipped arm = some q → Step x c (.waiting s skipped) (.await arm) q
  | stay {s : LoopState} : Step x c (.returned s) .stay (.returned s)

structure Execution (x : Setup) (c : Conduct) where
  point : ℕ → Point
  move : ℕ → Move
  allowed : refusedOverride x = none
  /-- It starts at the initial state. -/
  start : point 0 = .head (initial x)
  step : ∀ n, Step x c (point n) (move n) (point (n + 1))

/-- Tasks in flight are eventually joined, and a run that waits without a task
eventually iterates at a time when an offered job, if there is one, is due. -/
structure Execution.Fair {c : Conduct} (e : Execution x c) : Prop where
  delivers : ∀ n s skipped, e.point n = .waiting s skipped → s.inFlight ≠ [] →
    ∃ m ≥ n, ∃ msg, e.move m = .await (.completed msg)
  wakes : ∀ n s skipped, e.point n = .waiting s skipped → s.inFlight = [] →
    ∃ m ≥ n, ∃ a s', e.point m = .head s' ∧ e.move m = .pass a ∧
      ((∃ id ∈ s'.frontier.readyFrontier, s'.frontier.statuses id = some .pending) →
        ∃ id, Due a s' id)

theorem Execution.reachable {c : Conduct} (e : Execution x c) (n : ℕ) :
    Reachable x c (e.point n) := by
  induction n with
  | zero =>
    rw [e.start]
    exact .start e.allowed
  | succ n ih =>
    have hstep := e.step n
    generalize e.point n = p at ih hstep
    generalize e.point (n + 1) = q at hstep ⊢
    generalize e.move n = move at hstep
    cases hstep with
    | pass hpass => exact .pass ih hpass
    | await hawait hq => exact .await ih hawait hq
    | stay => exact ih

theorem pass_waits_or_returns (a : Answers) (s : LoopState) :
    (∃ s', pass x a s = .returned s') ∨ ∃ s' skipped, pass x a s = .waiting s' skipped := by
  obtain ⟨m, skipped, he⟩ := pass_exitTests (x := x) a s
  rw [he]
  unfold exitTests
  split
  · exact .inl ⟨_, rfl⟩
  · split
    · exact .inl ⟨_, rfl⟩
    · split
      · exact .inl ⟨_, rfl⟩
      · exact .inr ⟨_, _, rfl⟩

variable {e : Execution x (scripted x outcome)}

theorem idle_progress (hx : Undisturbed x) {s : LoopState} {a : Answers}
    (h : Reachable x (scripted x outcome) (.head s)) (hpass : (scripted x outcome).pass s a)
    (hflight : s.inFlight = [])
    (hdue : (∃ id ∈ s.frontier.readyFrontier, s.frontier.statuses id = some .pending) →
      ∃ id, Due a s id) :
    (∃ s', pass x a s = .returned s') ∨ (pass x a s).state.inFlight ≠ [] := by
  obtain ⟨htracked, -, hnodup⟩ := open_tracked hx h (by simp)
  have hfree : Unhindered x a := by
    refine ⟨hx.gates, hpass, fun hgiven => ?_, fun hgiven => ?_⟩
    · rw [hx.claimer] at hgiven
      cases hgiven
    · rw [hx.shutdown] at hgiven
      cases hgiven
  have hpeers : s.peerWaits = [] := by
    have hparked : {j | j ∈ s.peerWaits.map Prod.fst} = (∅ : Set JobId) := htracked.onTrack.parked
    cases hlist : s.peerWaits with
    | nil => rfl
    | cons entry =>
      have hin : entry.1 ∈ {j | j ∈ s.peerWaits.map Prod.fst} := by simp [hlist]
      rw [hparked] at hin
      exact hin.elim
  exact pass_progress hfree hdue hx.slot (reachable_books h) hnodup htracked.sound
    htracked.propagated htracked.onTrack.going hflight hpeers

theorem waiting_progress (hx : Undisturbed x) (hfair : e.Fair) {n : ℕ} {s : LoopState}
    {skipped : Bool} (hn : e.point n = .waiting s skipped) :
    (∃ m s, e.point m = .returned s) ∨ ∃ m ≥ n, ∃ msg, e.move m = .await (.completed msg) := by
  by_cases hflight : s.inFlight = []
  · obtain ⟨m, _, a, s', hpoint, hmove, hdue⟩ := hfair.wakes n s skipped hn hflight
    have hreach := e.reachable m
    have hstep := e.step m
    rw [hpoint] at hreach
    rw [hpoint, hmove] at hstep
    have hlaunched : (∃ s'', pass x a s' = .returned s'') ∨ (pass x a s').state.inFlight ≠ [] := by
      by_cases hidle : s'.inFlight = []
      · generalize e.point (m + 1) = q at hstep
        cases hstep with
        | pass hpass => exact idle_progress hx hreach hpass hidle hdue
      · right
        obtain ⟨j, hj⟩ := exists_mem_of_ne_nil _ hidle
        exact ne_nil_of_mem (pass_inFlight s' j hj)
    have hnext : e.point (m + 1) = pass x a s' := by
      generalize e.point (m + 1) = q at hstep
      cases hstep with
      | pass => rfl
    obtain ⟨s'', hreturned⟩ | hflying := hlaunched
    · exact .inl ⟨m + 1, s'', hnext.trans hreturned⟩
    · obtain ⟨skipped', hwaiting⟩ := pass_waiting x a hflying
      obtain ⟨k, _, hmsg⟩ := hfair.delivers (m + 1) _ skipped' (hnext.trans hwaiting) hflying
      exact .inr ⟨k, by omega, hmsg⟩
  · exact .inr (hfair.delivers n s skipped hn hflight)

theorem fair_progress (hx : Undisturbed x) (hfair : e.Fair) (n : ℕ) :
    (∃ m s, e.point m = .returned s) ∨ ∃ m ≥ n, ∃ msg, e.move m = .await (.completed msg) := by
  have hreach := e.reachable n
  have hstep := e.step n
  cases hn : e.point n with
  | returned s => exact .inl ⟨n, s, hn⟩
  | waiting => exact waiting_progress hx hfair hn
  | aborted =>
    rw [hn] at hstep
    cases hstep
  | head s =>
    rw [hn] at hstep
    generalize hq : e.point (n + 1) = q at hstep
    generalize e.move n = move at hstep
    cases hstep with
    | @pass _ a _ =>
      obtain ⟨s', hreturned⟩ | ⟨s', _, hwaiting⟩ := pass_waits_or_returns (x := x) a s
      · exact .inl ⟨n + 1, s', hq.trans hreturned⟩
      · obtain h | ⟨m, hm, hmsg⟩ := waiting_progress hx hfair (hq.trans hwaiting)
        · exact .inl h
        · exact .inr ⟨m, by omega, hmsg⟩

theorem remaining_step (hx : Undisturbed x) (n : ℕ) :
    remaining x outcome (e.point (n + 1)).state ≤ remaining x outcome (e.point n).state := by
  have hreach := e.reachable n
  have hstep := e.step n
  generalize e.point n = p at hreach hstep ⊢
  generalize e.point (n + 1) = q at hstep ⊢
  generalize e.move n = move at hstep
  cases hstep with
  | pass hpass => exact remaining_pass hx hreach hpass
  | await hawait hq => exact sum_le_sum fun id _ => remaining_await hx hreach hawait hq id
  | stay => exact le_refl _

theorem fair_returns (hx : Undisturbed x) (hfair : e.Fair) : ∃ n s, e.point n = .returned s := by
  have hmono : ∀ n k, remaining x outcome (e.point (n + k)).state ≤
      remaining x outcome (e.point n).state := by
    intro n k
    induction k with
    | zero => exact le_refl _
    | succ k ih => exact (remaining_step hx (n + k)).trans ih
  have hmain : ∀ bound n, remaining x outcome (e.point n).state < bound →
      ∃ n s, e.point n = .returned s := by
    intro bound
    induction bound with
    | zero => exact fun n h => absurd h (Nat.not_lt_zero _)
    | succ bound ih =>
      intro n hn
      obtain h | ⟨m, hm, msg, hmsg⟩ := fair_progress hx hfair n
      · exact h
      · have hbefore : remaining x outcome (e.point m).state ≤
            remaining x outcome (e.point n).state := by
          obtain ⟨k, rfl⟩ := Nat.exists_eq_add_of_le hm
          exact hmono n k
        have hlower : remaining x outcome (e.point (m + 1)).state <
            remaining x outcome (e.point m).state := by
          have hreach := e.reachable m
          have hstep := e.step m
          rw [hmsg] at hstep
          generalize e.point m = p at hreach hstep ⊢
          generalize e.point (m + 1) = q at hstep ⊢
          cases hstep with
          | await hawait hq => exact remaining_completed hx hreach hawait hq
        exact ih (m + 1) (by omega)
  exact hmain _ 0 (Nat.lt_succ_self _)

/-- Confluence: every fair undisturbed run returns, and every returned one ends
with the statuses that graph, skip list and exit codes determine: skip-listed
jobs are skipped, others are cancelled when an upstream job is failed or
cancelled, and end as their attempts do otherwise. -/
theorem scheduling_confluent (hx : Undisturbed x) (outcome : JobId → ℕ → ℤ) :
    (∀ e : Execution x (scripted x outcome), e.Fair → ∃ n s, e.point n = .returned s) ∧
    (∀ s, Reachable x (scripted x outcome) (.returned s) → ∀ id ∈ x.topo.order,
      s.frontier.statuses id = some (finalStatuses x outcome id)) ∧
    ∀ id ∈ x.topo.order,
      finalStatuses x outcome id = settledStatus x outcome (finalStatuses x outcome) id :=
  ⟨fun _ hfair => fair_returns hx hfair, fun _ h _ hid => returned_statuses hx h hid,
    fun _ hid => finalStatuses_eq hid⟩

def steadyChain : Setup :=
  .plain DependencySafety.chainGraph DependencySafety.chainOrder
    { DependencySafety.skipping [] nodup_nil with keepGoing := true }

/-- When the first job of the chain exits with one, it fails and the second is
cancelled in every returned run. -/
theorem scheduling_confluent_chain : Undisturbed steadyChain ∧
    ∀ s, Reachable steadyChain (scripted steadyChain fun _ _ => 1) (.returned s) →
      s.frontier.statuses "a" = some (.failed "exit code 1") ∧
      s.frontier.statuses "b" = some .cancelled := by
  have hx : Undisturbed steadyChain := by
    refine ⟨rfl, rfl, fun id => ?_, rfl, rfl, by decide⟩
    simp [JobGraph.blockingGates, steadyChain, Setup.plain, DependencySafety.chainGraph]
  refine ⟨hx, ?_⟩
  intro s h
  have hall := (scheduling_confluent hx fun _ _ => 1).2.1 s h
  exact ⟨(hall "a" (by decide)).trans (by decide), (hall "b" (by decide)).trans (by decide)⟩

end Termination

end OxyMake.Confluence
