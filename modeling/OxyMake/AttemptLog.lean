import OxyMake.ObservedGrowth
import OxyMake.RunningJobs

/-!
# Attempts in the log of a run

Without a claimer every launch of a job starts a task and every delivery joins
one. The launches of a job are its writes of the status running, and at every
moment of the log they exceed its deliveries by the number of its tasks in
flight, which is never more than one.
-/

namespace OxyMake.AttemptLog

open List
open PhysicalGraph Observation SchedulingFrontier Frontier Completion SchedulerLoop
open CompletionRefinement LoopRefinement RunLog ObservedGrowth

variable {x : Setup} {a : Answers} {id : JobId}

section Counts

def launches (id : JobId) (log : List Obs) : ℕ := log.count (.launched id)

def delivers (id : JobId) : Obs → Bool
  | .delivered j _ => j = id
  | _ => false

def deliveries (id : JobId) (log : List Obs) : ℕ := log.countP (delivers id)

/-- At every moment of the log at most one attempt of the job has been launched
and not yet delivered. -/
def Spaced (id : JobId) (log : List Obs) : Prop :=
  ∀ earlier, earlier <+: log →
    deliveries id earlier ≤ launches id earlier ∧ launches id earlier ≤ deliveries id earlier + 1

/-- The observation neither launches the job nor delivers a result of it. -/
def neutral (id : JobId) (o : Obs) : Bool := decide (o ≠ .launched id) && !delivers id o

/-- The observation neither starts nor ends an attempt of the job. -/
def mute (id : JobId) (o : Obs) : Bool := neutral id o && decide (o ≠ .status id .running)

theorem launches_append (id : JobId) (log obs : List Obs) :
    launches id (log ++ obs) = launches id log + launches id obs := count_append

theorem deliveries_append (id : JobId) (log obs : List Obs) :
    deliveries id (log ++ obs) = deliveries id log + deliveries id obs := countP_append

theorem counts_of_neutral {obs : List Obs} (h : ∀ o ∈ obs, neutral id o = true) :
    launches id obs = 0 ∧ deliveries id obs = 0 := by
  have hparts : ∀ o ∈ obs, o ≠ .launched id ∧ delivers id o = false := by
    intro o ho
    have hneutral := h o ho
    simp only [neutral, Bool.and_eq_true, decide_eq_true_eq, Bool.not_eq_true'] at hneutral
    exact hneutral
  constructor
  · exact count_eq_zero.mpr fun hin => (hparts _ hin).1 rfl
  · refine countP_eq_zero.mpr fun o ho => ?_
    rw [(hparts o ho).2]
    simp

theorem neutral_of_mute {o : Obs} (h : mute id o = true) : neutral id o = true := by
  simp only [mute, Bool.and_eq_true] at h
  exact h.1

theorem Spaced.concat {log : List Obs} {o : Obs} (h : Spaced id log)
    (hlow : deliveries id (log ++ [o]) ≤ launches id (log ++ [o]))
    (hhigh : launches id (log ++ [o]) ≤ deliveries id (log ++ [o]) + 1) :
    Spaced id (log ++ [o]) := by
  intro earlier hearlier
  cases prefix_concat_iff.mp hearlier with
  | inl hall =>
    rw [hall]
    exact ⟨hlow, hhigh⟩
  | inr hbefore => exact h earlier hbefore

theorem Spaced.append {log obs : List Obs} (h : Spaced id log)
    (hobs : ∀ o ∈ obs, neutral id o = true) : Spaced id (log ++ obs) := by
  induction obs generalizing log with
  | nil =>
    rw [append_nil]
    exact h
  | cons o obs ih =>
    obtain ⟨hfirst, hlater⟩ := forall_mem_cons.mp hobs
    obtain ⟨_, _⟩ := counts_of_neutral (forall_mem_singleton.mpr hfirst)
    obtain ⟨_, _⟩ := h log (prefix_refl log)
    have hnext : Spaced id (log ++ [o]) := by
      apply h.concat
      · rw [launches_append, deliveries_append]
        omega
      · rw [launches_append, deliveries_append]
        omega
    have hrest := ih hnext hlater
    rw [append_assoc] at hrest
    exact hrest

end Counts

section Tallies

/-- The launches of a job, its writes of running and its deliveries agree with
the tasks in flight. -/
structure Tally (id : JobId) (s : LoopState) : Prop where
  /-- Every launch writes the status running. -/
  written : launches id s.frontier.log = s.frontier.log.count (.status id .running)
  /-- The launches are the deliveries and the task in flight. -/
  balance : launches id s.frontier.log =
    deliveries id s.frontier.log + if id ∈ s.inFlight then 1 else 0
  /-- At most one attempt is open at a time. -/
  spaced : Spaced id s.frontier.log

theorem Tally.rest {s s' : LoopState} (h : Tally id s)
    (hadds : Adds (fun o => mute id o = true) s.frontier s'.frontier)
    (hflight : id ∈ s'.inFlight ↔ id ∈ s.inFlight) : Tally id s' := by
  obtain ⟨obs, hlog, -, hobs⟩ := hadds
  have hneutral : ∀ o ∈ obs, neutral id o = true := fun o ho => neutral_of_mute (hobs o ho)
  obtain ⟨hlaunches, hdeliveries⟩ := counts_of_neutral hneutral
  have hwrites : obs.count (.status id .running) = 0 := by
    refine count_eq_zero.mpr fun hin => ?_
    have hmute := hobs _ hin
    simp [mute] at hmute
  refine ⟨?_, ?_, ?_⟩
  · rw [hlog, launches_append, count_append, hlaunches, hwrites, h.written]
  · rw [hlog, launches_append, deliveries_append, hlaunches, hdeliveries, h.balance]
    simp only [hflight]
    omega
  · rw [hlog]
    exact h.spaced.append hneutral

theorem Tally.launch {s s' : LoopState} {event : Event} (h : Tally id s)
    (hlog : s'.frontier.log =
      s.frontier.log ++ [.status id .running, .event event] ++ [.launched id])
    (hbefore : id ∉ s.inFlight) (hafter : id ∈ s'.inFlight) : Tally id s' := by
  have hneutral : ∀ o ∈ [Obs.status id .running, .event event], neutral id o = true := by
    simp [neutral, delivers]
  obtain ⟨hnone, hopen⟩ := counts_of_neutral hneutral
  have hlaunches : launches id s'.frontier.log = launches id s.frontier.log + 1 := by
    rw [hlog, launches_append, launches_append, hnone]
    simp [launches]
  have hdeliveries : deliveries id s'.frontier.log = deliveries id s.frontier.log := by
    rw [hlog, deliveries_append, deliveries_append, hopen]
    simp [deliveries, delivers]
  have hwrites : s'.frontier.log.count (.status id .running) =
      s.frontier.log.count (.status id .running) + 1 := by
    rw [hlog]
    simp
  have hbalance := h.balance
  rw [if_neg hbefore] at hbalance
  refine ⟨?_, ?_, ?_⟩
  · rw [hlaunches, hwrites, h.written]
  · rw [hlaunches, hdeliveries, if_pos hafter]
    omega
  · have hspaced := h.spaced.append hneutral
    rw [hlog] at hlaunches hdeliveries ⊢
    apply hspaced.concat
    · omega
    · omega

theorem Tally.deliver {s s' : LoopState} {exitCode : ℤ} (h : Tally id s)
    (hadds : Adds (fun o => mute id o = true)
      (s.frontier.note [.delivered id exitCode]) s'.frontier)
    (hbefore : id ∈ s.inFlight) (hafter : id ∉ s'.inFlight) : Tally id s' := by
  have hbalance := h.balance
  rw [if_pos hbefore] at hbalance
  have hdeliveries : deliveries id (s.frontier.log ++ [.delivered id exitCode]) =
      deliveries id s.frontier.log + 1 := by
    rw [deliveries_append]
    simp [deliveries, delivers]
  have hlaunches : launches id (s.frontier.log ++ [.delivered id exitCode]) =
      launches id s.frontier.log := by
    rw [launches_append]
    simp [launches]
  let joined : LoopState :=
    { s' with frontier := s.frontier.note [.delivered id exitCode] }
  have hjoined : Tally id joined := by
    refine ⟨?_, ?_, ?_⟩
    · change launches id (s.frontier.log ++ [.delivered id exitCode]) = _
      rw [hlaunches, h.written]
      simp [joined]
    · change launches id (s.frontier.log ++ [.delivered id exitCode]) =
        deliveries id (s.frontier.log ++ [.delivered id exitCode]) + if id ∈ s'.inFlight then 1 else 0
      rw [hlaunches, hdeliveries, if_neg hafter]
      omega
    · apply h.spaced.concat
      · omega
      · omega
  exact hjoined.rest hadds Iff.rfl

end Tallies

section Steps

def resting : Obs → Bool
  | .launched _ | .delivered _ _ | .status _ .running => false
  | _ => true

abbrev Rests (f f' : Frontier) : Prop := Adds (fun o => resting o = true) f f'

theorem mute_of_resting {o : Obs} (h : resting o = true) (id : JobId) : mute id o = true := by
  cases o with
  | status j st => cases st <;> simp_all [resting, mute, neutral, delivers]
  | _ => simp_all [resting, mute, neutral, delivers]

theorem Tally.stay {s s' : LoopState} (h : Tally id s)
    (hadds : Rests s.frontier s'.frontier)
    (hflight : s'.inFlight = s.inFlight) : Tally id s' :=
  h.rest (hadds.mono fun _ ho => mute_of_resting ho id) (by rw [hflight])

theorem resting_of_calm {f f' : Frontier} (hcalm : Calm f f') (hquiet : Quiet f f') :
    Rests f f' := by
  obtain ⟨obs, hlog, hstatuses, hobs⟩ := hcalm
  obtain ⟨obs', hlog', hobs'⟩ := hquiet
  obtain rfl : obs = obs' := append_cancel_left (hlog.symm.trans hlog')
  refine ⟨obs, hlog, hstatuses, fun o ho => ?_⟩
  have hc := hobs o ho
  have hr := hobs' o ho
  cases o with
  | status j st => cases st <;> simp_all [resting, calm]
  | _ => simp_all [resting, calm, routine]

/-- Jobs in flight are running or were cancelled meanwhile. -/
def Held (s : LoopState) : Prop :=
  ∀ j ∈ s.inFlight, s.frontier.statuses j = some .running ∨ s.frontier.statuses j = some .cancelled

theorem Held.of_same {s s' : LoopState} (h : Held s) (hflight : s'.inFlight = s.inFlight)
    (hkeeps : ∀ j, s.frontier.statuses j ≠ some .ready →
      s'.frontier.statuses j = s.frontier.statuses j) : Held s' := by
  intro j hj
  rw [hflight] at hj
  have hst := h j hj
  rw [hkeeps j]
  · exact hst
  · intro hready
    rw [hready] at hst
    simp at hst

theorem commitDispatch_tally {s : LoopState} (h : Tally id s) (hheld : Held s)
    (job : ConcreteJob) (j : JobId) (cached : Bool) {remaining : List JobId}
    (hready : ∀ k ∈ remaining, s.frontier.statuses k = some .ready) :
    let r := commitDispatch x job j cached remaining s
    Tally id r.1 ∧ Held r.1 := by
  unfold commitDispatch
  dsimp only
  split
  · exact ⟨h, hheld⟩
  · next hj =>
    have hj : s.frontier.statuses j = some .ready := not_not.mp hj
    have hfree : j ∉ s.inFlight := by
      intro hin
      have hst := hheld j hin
      rw [hj] at hst
      simp at hst
    have hother : ∀ (st : JobLifecycle) (k : JobId), s.frontier.statuses k ≠ some .ready →
        Function.update s.frontier.statuses j (some st) k = s.frontier.statuses k := by
      intro st k hk
      rw [Function.update_of_ne]
      rintro rfl
      exact hk hj
    split
    · have hskipped : Rests s.frontier
          (s.frontier.setStatus j .skipped) := (Adds.refl _).setStatus rfl
      refine ⟨h.stay ((hskipped.promote x.graph j).note (by simp [resting, Obs.write?]))
        rfl, hheld.of_same rfl fun k hk => ?_⟩
      refine Eq.trans ?_ (hother .skipped k hk)
      exact congrFun (promoteDownstream_statuses (s.frontier.setStatus j .skipped) j) k
    · split
      · have hoffered : Rests s.frontier (s.frontier.offer j) :=
          .of_same rfl rfl
        exact ⟨h.stay (hoffered.setStatus rfl) rfl, hheld.of_same rfl (hother .pending)⟩
      · split
        · have hdeferred : Rests s.frontier
              (remaining.foldl deferJob s.frontier) := by
            refine Adds.foldl (v := fun f : Frontier => f) (fun f k => ?_) remaining s.frontier
            have hoffered : Rests f (f.offer k) :=
              .of_same rfl rfl
            exact hoffered.setStatus rfl
          refine ⟨h.stay hdeferred rfl, hheld.of_same rfl fun k hk => ?_⟩
          rw [RunningJobs.deferAll_statuses, if_neg fun hin => hk (hready k hin)]
        · constructor
          · by_cases hid : j = id
            · subst hid
              have hlog : (launchJob x job j s).frontier.log = s.frontier.log ++
                  [.status j .running, .event (.jobStarted j (x.executorName job)
                    (launchReason x j (decide (j ∈ s.frontier.forceRerun)) (s.dispatchReasons j))
                    (x.endpoint job))] ++ [.launched j] := by
                simp [launchJob, note, Frontier.setStatus]
              exact h.launch hlog hfree mem_insert_self
            · have hstarted : Adds (fun o => mute id o = true) s.frontier
                  (launchJob x job j s).frontier := by
                refine Adds.note (Adds.setStatus (.of_same rfl rfl) ?_) ?_
                · simp [mute, neutral, delivers, hid]
                · simp [mute, neutral, delivers, hid, Obs.write?]
              refine h.rest hstarted ?_
              change id ∈ s.inFlight.insert j ↔ _
              simp [Ne.symm hid]
          · intro k hk
            change Function.update s.frontier.statuses j (some .running) k = some .running ∨
              Function.update s.frontier.statuses j (some .running) k = some .cancelled
            by_cases hkj : k = j
            · rw [hkj, Function.update_self]
              exact .inl rfl
            · rw [Function.update_of_ne hkj]
              exact hheld k ((List.mem_insert_iff.mp hk).resolve_left hkj)

theorem attempt_rests (j : JobId) (s : LoopState) :
    Rests s.frontier
      (claimJob x a j (checkCache x a j s).2 (checkCache x a j s).1).1.frontier := by
  obtain ⟨_, hfront, hchecks, -⟩ := checkCache_log (x := x) (a := a) j s
  obtain ⟨hclaimed, -⟩ := claimJob_log (x := x) (a := a) j (checkCache x a j s).2
    (checkCache x a j s).1
  rw [hclaimed, hfront]
  refine ((Adds.refl _).note fun o ho => ?_).note fun o ho => ?_
  · cases mem_cons.mp ho with
    | inl h =>
      rw [h]
      exact ⟨rfl, rfl⟩
    | inr h =>
      obtain ⟨_, rfl⟩ := hchecks o h
      exact ⟨rfl, rfl⟩
  · obtain ⟨_, -, rfl⟩ := mem_map.mp ho
    exact ⟨rfl, rfl⟩

theorem dispatchJob_tally (hclaimer : x.claimer = false) {s : LoopState} (h : Tally id s)
    (hheld : Held s) (j : JobId) {remaining : List JobId}
    (hready : ∀ k ∈ remaining, s.frontier.statuses k = some .ready) :
    Tally id (dispatchJob x a remaining j s).1 ∧ Held (dispatchJob x a remaining j s).1 := by
  unfold dispatchJob
  split
  · exact ⟨h, hheld⟩
  · next job _ =>
    have hrests := attempt_rests (x := x) (a := a) j s
    have hfields := RunningJobs.attempt_fields (x := x) (a := a) j s
    have hunclaimed : (claimJob x a j (checkCache x a j s).2 (checkCache x a j s).1).2 = none := by
      unfold claimJob
      simp [hclaimer]
    dsimp only at hfields ⊢
    generalize claimJob x a j (checkCache x a j s).2 (checkCache x a j s).1 = r
      at hrests hfields hunclaimed ⊢
    obtain ⟨claimed, _⟩ := r
    dsimp only at hrests hfields hunclaimed
    subst hunclaimed
    obtain ⟨hstatuses, hflight, -⟩ := hfields
    have htally : Tally id claimed := h.stay hrests hflight
    have hclaimed : Held claimed := hheld.of_same hflight fun k _ => congrFun hstatuses k
    dsimp only
    split
    · exact ⟨htally.stay (.refl _) rfl, hclaimed.of_same rfl fun _ _ => rfl⟩
    · have hreleased : Tally id (releaseTasks x a j claimed) := htally.stay (.of_same rfl rfl) rfl
      refine commitDispatch_tally hreleased (hclaimed.of_same rfl fun _ _ => rfl) job j _ ?_
      intro k hk
      change claimed.frontier.statuses k = some .ready
      rw [hstatuses]
      exact hready k hk

theorem dispatchJob_ready {s : LoopState} {j : JobId} {rest : List JobId}
    (hnodup : (j :: rest).Nodup) (hready : ∀ k ∈ j :: rest, s.frontier.statuses k = some .ready)
    (hgo : (dispatchJob x a (j :: rest) j s).2 ≠ .halt) :
    ∀ k ∈ rest, (dispatchJob x a (j :: rest) j s).1.frontier.statuses k = some .ready := by
  cases hjob : x.graph.getJob j with
  | none =>
    have hsame : dispatchJob x a (j :: rest) j s = (s, .next) := by
      unfold dispatchJob
      rw [hjob]
    rw [hsame]
    exact fun k hk => hready k (.tail _ hk)
  | some =>
    exact ((dispatchJob_simulates (D := DependencySafety.freely) hnodup hready
      (by rw [hjob]; rfl) (fun _ _ => trivial) (fun _ => trivial) fun _ => trivial).2 hgo).2

theorem dispatchLoop_tally (hclaimer : x.claimer = false) {rest : List JobId} {s : LoopState}
    (skipped : Bool) (h : Tally id s) (hheld : Held s) (hnodup : rest.Nodup)
    (hready : ∀ k ∈ rest, s.frontier.statuses k = some .ready) :
    Tally id (dispatchLoop x a rest s skipped).1 := by
  induction rest generalizing s skipped with
  | nil => exact h
  | cons j rest ih =>
    obtain ⟨htally, hheld'⟩ := dispatchJob_tally (a := a) hclaimer h hheld j hready
    have hstill := dispatchJob_ready (x := x) (a := a) hnodup hready
    have hrest := (nodup_cons.mp hnodup).2
    unfold dispatchLoop
    generalize dispatchJob x a (j :: rest) j s = r at htally hheld' hstill ⊢
    obtain ⟨_, flow⟩ := r
    cases flow with
    | next => exact ih skipped htally hheld' hrest (hstill (by simp))
    | skipped => exact ih true htally hheld' hrest (hstill (by simp))
    | halt => exact htally

theorem findReadyJobs_rests (s : LoopState) :
    Rests s.frontier (findReadyJobs x a s).frontier := by
  have hset : ∀ (f f' : Frontier) (j : JobId) (st : JobLifecycle), Rests f f' →
      resting (.status j st) = true → Rests f (f'.setStatus j st) := fun _ _ _ _ h hst =>
    Adds.setStatus h hst
  have hdrain : ∀ acc j, Rests acc.frontier (drainOne x a acc j).frontier := by
    intro acc j
    unfold drainOne
    split
    · exact .refl _
    · split
      · exact .of_same rfl rfl
      · dsimp only
        split
        · exact hset _ _ j .ready (.of_same rfl rfl) rfl
        · exact .of_same rfl rfl
  have hasks : ∀ acc j, Rests acc.frontier
      ((x.graph.blockingGates j).zipIdx.foldl (askGate a j) acc).frontier := by
    intro acc j
    obtain ⟨⟨_, hasked, hobs⟩, -⟩ :=
      askGates_notes (a := a) j acc (x.graph.blockingGates j).zipIdx
    rw [hasked]
    refine (Adds.refl _).note fun o ho => ?_
    obtain ⟨_, hw⟩ := hobs o ho
    refine ⟨?_, hw⟩
    cases o <;> simp_all [routine, resting, Obs.write?]
  have hcheck : ∀ acc j, Rests acc.frontier (checkGated x a acc j).frontier := by
    intro acc j
    have hasked := hasks acc j
    unfold checkGated
    dsimp only
    split
    · exact hasked
    · split
      · exact (hset _ _ j .cancelled hasked rfl).note (by simp [resting, Obs.write?])
      · split
        · refine hset _ _ j .ready (Adds.note hasked ?_) rfl
          simp [resting, Obs.write?]
        · exact hasked.trans (.of_same rfl rfl)
  have hpass : ∀ acc j, Rests acc.frontier (passGated acc j).frontier := by
    intro acc j
    unfold passGated
    split
    · exact hset _ _ j .ready (.refl _) rfl
    · exact .refl _
  have hgates : ∀ acc j, Rests acc.frontier
      ((if x.gateChecker then checkGated x a else passGated) acc j).frontier := by
    intro acc j
    split
    · exact hcheck acc j
    · exact hpass acc j
  have hstart : Rests s.frontier { s.frontier with readyFrontier := [] } := .of_same rfl rfl
  unfold findReadyJobs
  exact hstart.trans ((Adds.foldl (v := Search.frontier) hdrain _ _).trans
    (Adds.foldl (v := Search.frontier) hgates _ _))

theorem consume_rests (msg : CompletionMsg) (s : LoopState) :
    Rests (s.frontier.note [.delivered msg.job.id msg.result.exitCode])
      (consume x msg s).frontier := by
  let delivered := s.frontier.note [.delivered msg.job.id msg.result.exitCode]
  have hcalm := handleCompletion_calm x.policy msg s.terminateRequested delivered
  obtain ⟨obs, hlog, hroutine, -⟩ :=
    handleCompletion_log x.policy msg s.terminateRequested delivered
  have hhandled := resting_of_calm hcalm ⟨obs, hlog, hroutine⟩
  unfold consume
  dsimp only
  split
  · exact hhandled.note (by simp [resting, Obs.write?])
  · exact hhandled

theorem exitTests_tally {s : LoopState} (h : Tally id s) (skipped : Bool) :
    Tally id (exitTests x s skipped).state := by
  have hrests : Rests s.frontier (exitTests x s skipped).state.frontier := by
    refine (exitTests_closing s skipped).mono fun o ho => ?_
    cases o with
    | status j st => cases st <;> simp_all [closing, resting]
    | _ => simp_all [closing, resting]
  refine h.stay hrests ?_
  unfold exitTests
  split
  · rfl
  · split
    · rfl
    · split <;> rfl

end Steps

section Runs

variable {c : Conduct}

theorem held_of_placed {s : LoopState} {hand : Set JobId} {closed : Bool}
    (h : NetInvariants.Placed (wiring x.topo) (loopNet s hand closed)) : Held s := h.flying

theorem pass_tally (hclaimer : x.claimer = false) {s : LoopState}
    (hplaced : NetInvariants.Placed (wiring x.topo) (loopNet s ∅ false))
    (hnodup : s.frontier.readyFrontier.Nodup) (hpass : c.pass s a) (h : Tally id s) :
    Tally id (pass x a s).state := by
  have hentered : Tally id (entered s) := by
    refine h.stay ((Adds.refl _).note ?_) rfl
    simp [resting, Obs.write?]
  unfold SchedulerLoop.pass
  dsimp only
  split
  · exact exitTests_tally hentered false
  · next hgoing =>
    have hgoing : s.terminateRequested = false := by simpa using hgoing
    obtain ⟨hsearch, hready, hstatus⟩ := search_simulates (a := a)
      (DependencySafety.obeys_freely x c) hpass hplaced hnodup hgoing
    refine exitTests_tally ?_ _
    unfold dispatchPhase
    dsimp only
    rw [if_neg (by simp [hclaimer])]
    refine dispatchLoop_tally hclaimer false ?_ ?_ hready hstatus
    · exact hentered.stay (findReadyJobs_rests (entered s)) rfl
    · exact held_of_placed (hsearch.placed hplaced)

theorem await_tally {s : LoopState} {skipped : Bool} {arm : Arm} {q : Point}
    (hq : await x s skipped arm = some q) (h : Tally id s) : Tally id q.state := by
  cases await_cases x hq with
  | again | polled | retryElapsed => exact h
  | stopped => exact h.stay (.refl _) rfl
  | @interrupted order =>
    have hmarked : Rests s.frontier
        (order.foldl (fun f id => f.setStatus id .cancelled) s.frontier) :=
      Adds.foldl (v := fun f : Frontier => f)
        (fun f j => Adds.setStatus (K := fun o => resting o = true) (.refl f) rfl) _ _
    refine h.stay (hmarked.note fun o ho => ?_) rfl
    obtain ⟨j, -, hj⟩ := mem_flatMap.mp ho
    simp only [mem_cons, not_mem_nil, or_false] at hj
    cases hj with
    | inl h => rw [h]; exact ⟨rfl, rfl⟩
    | inr h => rw [h]; exact ⟨rfl, rfl⟩
  | @completed msg hflight _ =>
    have hjoined : Tally id (consume x msg (joinTask x msg.job.id s)) := by
      have hrests := consume_rests (x := x) msg (joinTask x msg.job.id s)
      have hmute := hrests.mono fun _ ho => mute_of_resting ho id
      have hframe : Rests s.frontier (joinTask x msg.job.id s).frontier := .of_same rfl rfl
      have hleft : ∀ j, j ∈ (consume x msg (joinTask x msg.job.id s)).inFlight ↔
          j ∈ s.inFlight ∧ j ≠ msg.job.id := by
        intro j
        change j ∈ s.inFlight.filter _ ↔ _
        simp
      by_cases hid : msg.job.id = id
      · subst hid
        exact h.deliver (s := s) hmute hflight fun hin => ((hleft _).mp hin).2 rfl
      · have hnoted : Adds (fun o => mute id o = true) s.frontier
            (s.frontier.note [.delivered msg.job.id msg.result.exitCode]) := by
          refine (Adds.refl _).note ?_
          simp [mute, neutral, delivers, hid, Obs.write?]
        refine h.rest (hnoted.trans hmute) ?_
        rw [hleft]
        exact and_iff_left (Ne.symm hid)
    exact hjoined
  | taskFailed | hardKill =>
    refine h.stay ((Adds.refl _).note fun o ho => ?_) rfl
    obtain ⟨j, -, rfl⟩ := mem_map.mp ho
    exact ⟨rfl, rfl⟩

theorem reachable_tally (hclaimer : x.claimer = false) {p : Point} (h : Reachable x c p)
    (id : JobId) : Tally id p.state := by
  induction h with
  | start =>
    have hplain : ∀ o ∈ (initial x).frontier.log,
        neutral id o = true ∧ o ≠ .status id .running := by
      intro o ho
      cases initial_log x o ho with
      | inl h =>
        obtain ⟨j, rfl⟩ := h
        simp [neutral, delivers]
      | inr h =>
        obtain ⟨_, rfl⟩ := h
        simp [neutral, delivers]
    obtain ⟨hlaunches, hdeliveries⟩ := counts_of_neutral fun o ho => (hplain o ho).1
    have hnil : Spaced id [] := by
      intro earlier hearlier
      rw [prefix_nil.mp hearlier]
      exact ⟨le_refl _, Nat.zero_le _⟩
    refine ⟨?_, ?_, ?_⟩
    · exact hlaunches.trans (count_eq_zero.mpr fun hin => (hplain _ hin).2 rfl).symm
    · exact hlaunches.trans hdeliveries.symm
    · exact hnil.append fun o ho => (hplain o ho).1
  | @pass s a hreach hpass ih =>
    obtain ⟨_, _, hlinked⟩ :=
      reachable_linked (DependencySafety.obeys_freely x c) hreach
    obtain rfl := hlinked.isOpen (by simp)
    have hplaced : NetInvariants.Placed (wiring x.topo) (loopNet s ∅ false) :=
      hlinked.run.invariant _ (fun _ _ _ hs hfire => hs.fire hfire) (initial_placed x)
    exact pass_tally hclaimer hplaced hlinked.nodup hpass ih
  | await _ _ hq ih => exact await_tally hq ih

end Runs

end OxyMake.AttemptLog
