import OxyMake.GatedLaunches
import OxyMake.NoStuckRun

/-!
# A run that winds down

The states of a run are listed one by one, also within an iteration: after the
search, after each attempt, after each poll of a parked job and after the exit
tests. From the first state in which the run has to wind down, no later state
follows a write of the status running.
-/

namespace OxyMake.WindingDown

open List
open PhysicalGraph Observation SchedulingFrontier Frontier Completion SchedulerLoop LoopRefinement
open ObservedGrowth GatedLaunches NoStuckRun

section Lists

variable {σ : Type*} {R : σ → σ → Prop}

/-- Some states after a first one and up to a last one, of which each relates
to all later ones. -/
def Through (R : σ → σ → Prop) (s : σ) (states : List σ) (t : σ) : Prop :=
  (s :: states).Pairwise R ∧ ∀ m ∈ s :: states, R m t

variable {s m t : σ} {states states' : List σ}

theorem Through.nil (h : R s s) : Through R s [] s := by
  constructor
  · exact pairwise_singleton R s
  · intro m hm
    rw [mem_singleton.mp hm]
    exact h

theorem Through.step (h : R s t) (hself : R t t) : Through R s [t] t := by
  constructor
  · exact pairwise_pair.mpr h
  · intro m hm
    cases mem_cons.mp hm with
    | inl hs => exact hs ▸ h
    | inr ht => exact mem_singleton.mp ht ▸ hself

theorem Through.append (htrans : ∀ a b c, R a b → R b c → R a c) (h : Through R s states m)
    (h' : Through R m states' t) : Through R s (states ++ states') t := by
  have hcross : ∀ a ∈ s :: states, ∀ b ∈ states', R a b := by
    intro a ha b hb
    have hmb : R m b := rel_of_pairwise_cons h'.1 hb
    exact htrans a m b (h.2 a ha) hmb
  constructor
  · rw [← cons_append]
    exact pairwise_append.mpr ⟨h.1, (pairwise_cons.mp h'.1).2, hcross⟩
  · intro a ha
    rw [← cons_append] at ha
    cases mem_append.mp ha with
    | inl hleft => exact htrans a m t (h.2 a hleft) (h'.2 m (by simp))
    | inr hright => exact h'.2 a (.tail _ hright)

end Lists

section States

variable (x : Setup) (a : Answers)

/-- The state in which the attempts of an iteration start. -/
def searched (s : LoopState) : LoopState :=
  { s with
    frontier := (findReadyJobs x a s).frontier
    gatesSeen := (findReadyJobs x a s).gatesSeen }

def attempted (s : LoopState) : LoopState × Bool :=
  dispatchLoop x a (findReadyJobs x a s).ready (searched x a s) false

/-- The states after each attempt of the dispatch loop. -/
def attemptStates : List JobId → LoopState → List LoopState
  | [], _ => []
  | id :: rest, s =>
    match dispatchJob x a (id :: rest) id s with
    | (s', .halt) => [s']
    | (s', _) => s' :: attemptStates rest s'

/-- The states after each poll of a parked job. -/
def pollStates : List JobId → LoopState × Bool → List LoopState
  | [], _ => []
  | id :: rest, acc => (pollPeer x a acc id).1 :: pollStates rest (pollPeer x a acc id)

def phaseStates (s : LoopState) : List LoopState :=
  let dispatched := (attempted x a s).1
  searched x a s :: attemptStates x a (findReadyJobs x a s).ready (searched x a s) ++
    if x.claimer ∧ dispatched.peerWaits ≠ [] then
      pollStates x a (a.peerOrder (dispatched.peerWaits.map Prod.fst)) (dispatched, false)
    else []

/-- The states of an iteration, up to the one in which it waits or returns. -/
def passStates (s : LoopState) : List LoopState :=
  entered s :: (if s.terminateRequested then [] else phaseStates x a (entered s)) ++
    [(pass x a s).state]

/-- The states of a run after the initial one, and the point it has reached. -/
inductive Trace (c : Conduct) : List LoopState → Point → Prop
  | start : refusedOverride x = none → Trace c [] (.head (initial x))
  | pass {states : List LoopState} {s : LoopState} {a : Answers} : Trace c states (.head s) →
      c.pass s a → Trace c (states ++ passStates x a s) (pass x a s)
  | await {states : List LoopState} {s : LoopState} {skipped : Bool} {arm : Arm} {p : Point} :
      Trace c states (.waiting s skipped) → c.await s arm → await x s skipped arm = some p →
      Trace c (states ++ [p.state]) p

variable {x a} {c : Conduct}

theorem Trace.reachable {states : List LoopState} {p : Point} (h : Trace x c states p) :
    Reachable x c p := by
  induction h with
  | start hrefused => exact .start hrefused
  | pass _ hpass ih => exact ih.pass hpass
  | await _ harm hq ih => exact ih.await harm hq

end States

section Stays

variable {x : Setup} {a : Answers}

def idle (o : Obs) : Prop := ∀ id, o ≠ .status id .running

/-- Once the first state has to wind down, so has the second, and no status
became running in between. -/
def Stays (s s' : LoopState) : Prop :=
  s.terminateRequested = true →
    s'.terminateRequested = true ∧ Adds idle s.frontier s'.frontier

theorem Stays.refl (s : LoopState) : Stays s s := fun hstop => ⟨hstop, .refl _⟩

theorem Stays.trans (s m t : LoopState) (h : Stays s m) (h' : Stays m t) : Stays s t := by
  intro hstop
  obtain ⟨hm, hadds⟩ := h hstop
  obtain ⟨ht, hadds'⟩ := h' hm
  exact ⟨ht, hadds.trans hadds'⟩

theorem Stays.going {s t : LoopState} (h : s.terminateRequested = false) : Stays s t := by
  intro hstop
  rw [h] at hstop
  cases hstop

theorem Stays.calm {s t : LoopState}
    (hstop : s.terminateRequested = true → t.terminateRequested = true)
    (h : Calm s.frontier t.frontier) : Stays s t := by
  refine fun hs => ⟨hstop hs, h.mono fun o ho id he => ?_⟩
  rw [he] at ho
  cases ho

theorem consume_stays (msg : CompletionMsg) (s : LoopState) : Stays s (consume x msg s) := by
  refine .calm (fun hstop => ?_) (consume_calm msg s)
  cases CompletionRefinement.handleCompletion_terminateRequested x.policy msg s.terminateRequested
      (s.frontier.note [.delivered msg.job.id msg.result.exitCode]) with
  | inl h => exact h.trans hstop
  | inr h => exact h.2

theorem pollPeer_stays (acc : LoopState × Bool) (id : JobId) :
    Stays acc.1 (pollPeer x a acc id).1 := by
  refine .calm (fun hstop => ?_) (pollPeer_calm acc id)
  have hconsume : ∀ msg, (consume x msg (unparkJob id acc.1)).terminateRequested = true :=
    fun msg => (consume_stays msg (unparkJob id acc.1) hstop).1
  unfold pollPeer
  dsimp only
  split
  · exact hstop
  · split
    · exact hstop
    · split
      · exact hstop
      · exact hstop
      · exact hconsume _
      · exact hconsume _
      · exact hstop

theorem exitTests_stays (s : LoopState) (skipped : Bool) :
    Stays s (exitTests x s skipped).state := by
  refine .calm (fun hstop => ?_) (exitTests_calm s skipped)
  unfold exitTests
  split
  · exact hstop
  · split
    · exact hstop
    · split <;> exact hstop

theorem await_stays {s : LoopState} {skipped : Bool} {arm : Arm} {q : Point}
    (h : await x s skipped arm = some q) : Stays s q.state := by
  refine .calm (fun hstop => ?_) (await_calm h)
  cases await_cases x h with
  | again | polled | retryElapsed | taskFailed | hardKill => exact hstop
  | interrupted | stopped => rfl
  | @completed msg => exact (consume_stays msg (joinTask x msg.job.id s) hstop).1

theorem commitDispatch_terminateRequested (job : ConcreteJob) (id : JobId) (cached : Bool)
    (remaining : List JobId) (s : LoopState) :
    (commitDispatch x job id cached remaining s).1.terminateRequested = s.terminateRequested := by
  unfold commitDispatch
  dsimp only
  split
  · rfl
  · split
    · rfl
    · split
      · rfl
      · split <;> rfl

theorem dispatchJob_going (remaining : List JobId) (id : JobId) (s : LoopState) :
    (dispatchJob x a remaining id s).2 = .halt ∨
      (dispatchJob x a remaining id s).1.terminateRequested = s.terminateRequested := by
  have hchecked : (checkCache x a id s).1.terminateRequested = s.terminateRequested := by
    unfold checkCache
    dsimp only
    split <;> rfl
  have hclaimed : (claimJob x a id (checkCache x a id s).2
      (checkCache x a id s).1).1.terminateRequested = s.terminateRequested := by
    unfold claimJob
    split <;> exact hchecked
  unfold dispatchJob
  split
  · exact .inr rfl
  · next job hjob =>
    dsimp only
    generalize claimJob x a id (checkCache x a id s).2 (checkCache x a id s).1 = r at hclaimed ⊢
    obtain ⟨_, _⟩ := r
    split
    · next owner he =>
      cases he
      right
      unfold parkJob
      split <;> exact hclaimed
    · next he =>
      cases he
      split
      · exact .inl rfl
      · right
        rw [commitDispatch_terminateRequested]
        exact hclaimed

theorem attempts_through (rest : List JobId) (s : LoopState) (skipped : Bool)
    (hgoing : s.terminateRequested = false) :
    Through Stays s (attemptStates x a rest s) (dispatchLoop x a rest s skipped).1 := by
  induction rest generalizing s skipped with
  | nil => exact .nil (.refl s)
  | cons id rest ih =>
    have hone := dispatchJob_going (x := x) (a := a) (id :: rest) id s
    rw [attemptStates, dispatchLoop]
    generalize dispatchJob x a (id :: rest) id s = r at hone ⊢
    obtain ⟨s', outcome⟩ := r
    have hnext : outcome ≠ .halt → ∀ b,
        Through Stays s (s' :: attemptStates x a rest s') (dispatchLoop x a rest s' b).1 := by
      intro hhalt b
      have hgoing' : s'.terminateRequested = false := (hone.resolve_left hhalt).trans hgoing
      exact (Through.step (.going hgoing) (.refl s')).append Stays.trans (ih s' b hgoing')
    cases outcome with
    | halt => exact .step (.going hgoing) (.refl s')
    | next => exact hnext (by decide) skipped
    | skipped => exact hnext (by decide) true

theorem polls_through (ids : List JobId) (acc : LoopState × Bool) :
    Through Stays acc.1 (pollStates x a ids acc) (ids.foldl (pollPeer x a) acc).1 := by
  induction ids generalizing acc with
  | nil => exact .nil (.refl _)
  | cons id ids ih =>
    exact (Through.step (pollPeer_stays acc id) (.refl _)).append Stays.trans (ih _)

theorem phase_through (s : LoopState) (hgoing : s.terminateRequested = false) :
    Through Stays s (phaseStates x a s) (dispatchPhase x a s).1 := by
  have hsearched : Through Stays s [searched x a s] (searched x a s) :=
    .step (.going hgoing) (.refl _)
  have hattempts := hsearched.append Stays.trans
    (attempts_through (x := x) (a := a) (findReadyJobs x a s).ready (searched x a s) false hgoing)
  by_cases hpoll : x.claimer = true ∧ (attempted x a s).1.peerWaits ≠ []
  · have hend : dispatchPhase x a s = ((pollPeerWaits x a (attempted x a s).1).1,
        (attempted x a s).2 || (pollPeerWaits x a (attempted x a s).1).2) := if_pos hpoll
    rw [hend, phaseStates, if_pos hpoll]
    exact hattempts.append Stays.trans (polls_through
      (a.peerOrder ((attempted x a s).1.peerWaits.map Prod.fst)) ((attempted x a s).1, false))
  · have hend : dispatchPhase x a s = attempted x a s := if_neg hpoll
    rw [hend, phaseStates, if_neg hpoll, append_nil]
    exact hattempts

theorem pass_through (s : LoopState) : Through Stays s (passStates x a s) (pass x a s).state := by
  have henter : Through Stays s [entered s] (entered s) := by
    refine .step (fun hstop => ⟨hstop, ?_⟩) (.refl _)
    exact (Adds.refl s.frontier).note (by simp [idle, Obs.write?])
  have hexit : ∀ (m : LoopState) (skipped : Bool),
      Through Stays m [(exitTests x m skipped).state] (exitTests x m skipped).state :=
    fun m skipped => .step (exitTests_stays m skipped) (.refl _)
  unfold passStates SchedulerLoop.pass
  dsimp only
  by_cases hstop : s.terminateRequested = true
  · rw [if_pos hstop, if_pos hstop]
    exact henter.append Stays.trans (hexit (entered s) false)
  · have hphase := phase_through (x := x) (a := a) (entered s) (Bool.eq_false_iff.mpr hstop)
    rw [if_neg hstop, if_neg hstop]
    have hphased := henter.append Stays.trans hphase
    exact hphased.append Stays.trans (hexit _ _)

theorem trace_through {c : Conduct} {states : List LoopState} {p : Point}
    (h : Trace x c states p) : Through Stays (initial x) states p.state := by
  induction h with
  | start _ => exact .nil (.refl _)
  | pass _ _ ih => exact ih.append Stays.trans (pass_through _)
  | await _ _ hq ih => exact ih.append Stays.trans (.step (await_stays hq) (.refl _))

theorem running_of_idle {f f' : Frontier} (h : Adds idle f f') {id : JobId}
    (hrunning : f'.getStatus id = some .running) : f.getStatus id = some .running := by
  obtain ⟨obs, -, hstatuses, hidle⟩ := h
  have hwrites : ∀ ws : List (JobId × JobLifecycle), (∀ w ∈ ws, w.2 ≠ .running) →
      ∀ statuses : JobId → Option JobLifecycle, replay statuses ws id = some .running →
        statuses id = some .running := by
    intro ws
    induction ws with
    | nil => exact fun _ statuses h => h
    | cons w ws ih =>
      intro hws statuses hrun
      have hrest := ih (fun w' hw' => hws w' (.tail _ hw'))
        (Function.update statuses w.1 (some w.2)) hrun
      by_cases hid : id = w.1
      · subst hid
        rw [Function.update_self] at hrest
        exact absurd (Option.some.inj hrest) (hws w (by simp))
      · rwa [Function.update_of_ne hid] at hrest
  refine hwrites (writes obs) ?_ f.statuses (by rw [← hstatuses]; exact hrunning)
  intro w hw hst
  obtain ⟨o, ho, hwrite⟩ := mem_filterMap.mp hw
  cases o with
  | status j =>
    cases hwrite
    exact hidle _ ho j (by rw [← hst])
  | _ => cases hwrite

/-- Gates and termination stop dispatch. In every run with a gate checker a
launch follows, in the same iteration, the approvals of all blocking gates of
the job and no other answer to them; and after a state that has to wind down
no status becomes running again. -/
theorem trace_gated_and_stopped {c : Conduct} (hchecker : x.gateChecker = true)
    {states : List LoopState} {p : Point} (h : Trace x c states p) :
    LaunchesApproved x p.state.frontier.log ∧
      (initial x :: states).Pairwise fun s s' => s.terminateRequested = true →
        s'.terminateRequested = true ∧
        ∃ obs, s'.frontier.log = s.frontier.log ++ obs ∧ (∀ id, .status id .running ∉ obs) ∧
          ∀ id, s'.frontier.getStatus id = some .running →
            s.frontier.getStatus id = some .running := by
  constructor
  · exact reachable_launchesApproved hchecker h.reachable
  · refine (trace_through h).1.imp fun hstays hstop => ?_
    obtain ⟨hstop', hadds⟩ := hstays hstop
    obtain ⟨obs, hlog, hstatuses, hidle⟩ := hadds
    exact ⟨hstop', obs, hlog, fun id hid => hidle _ hid id rfl,
      fun id => running_of_idle ⟨obs, hlog, hstatuses, hidle⟩⟩

end Stays

section Example

/-- The first job of a gated chain is launched, after its gate was approved. -/
theorem gated_and_stopped_chain :
    Obs.launched "a" ∈ (pass gatedChain Answers.plain (initial gatedChain)).state.frontier.log ∧
    LaunchesApproved gatedChain
      (pass gatedChain Answers.plain (initial gatedChain)).state.frontier.log :=
  ⟨by decide, (trace_gated_and_stopped (c := .free) rfl
    ((Trace.start rfl).pass (a := Answers.plain) trivial)).1⟩

end Example

end OxyMake.WindingDown
