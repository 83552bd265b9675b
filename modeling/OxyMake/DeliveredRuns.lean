import OxyMake.DependencySafety
import OxyMake.ObservedGrowth

/-!
# Runs with the completions they deliver

A run delivers completions: of the attempts it executed, and of the jobs that peer
sessions finished for it. Each comes with the output hashes recorded before the
launch and those of the outputs it produced. Between two deliveries a run writes no
success, and it skips no job that has to run again; a delivery that is committed
writes exactly one success and forces the consumers of changed outputs.
-/

namespace OxyMake.DeliveredRuns

open List
open PhysicalGraph Observation SchedulingFrontier Frontier Completion SchedulerLoop
open LabelledRuns DependencyNet Net NetInvariants CompletionRefinement
open LoopRefinement DependencySafety RunLog ObservedGrowth LoopFrames

/-! ### Deliveries -/

/-- Content hashes of outputs, by output key. -/
abbrev OutputHashes (Hash : Type) := List (String × Hash)

variable {Hash : Type} [DecidableEq Hash]

def outputsChanged (job : ConcreteJob) (previous : Option (OutputHashes Hash))
    (produced : OutputHashes Hash) : Bool :=
  match previous with
  | none => true
  | some previous =>
    job.outputs.isEmpty || job.outputs.any fun output =>
      match previous.lookup (outputRefKey output), produced.lookup (outputRefKey output) with
      | some expected, some actual => expected ≠ actual
      | _, _ => true

/-- A completion as it is handled. -/
structure Delivery (Hash : Type) where
  job : ConcreteJob
  exitCode : ℤ
  previous : Option (OutputHashes Hash)
  produced : OutputHashes Hash
  discarded : Bool

/-- An exit code that is a success, or is taken for one. -/
def passes (job : ConcreteJob) (exitCode : ℤ) : Bool :=
  decide (exitCode = 0) || decide (job.errorStrategy = .ignore)

namespace Delivery

def commits (d : Delivery Hash) : Bool := !d.discarded && passes d.job d.exitCode

def changed (d : Delivery Hash) : Bool := outputsChanged d.job d.previous d.produced

end Delivery

/-! ### Recorded runs -/

variable (x : Setup) (a : Answers)

/-- What polling one parked job delivers; the state of a peer before its run is not observed. -/
def pollDelivery (s : LoopState) (id : JobId) : List (Delivery Hash) :=
  if s.frontier.getStatus id ≠ some .pending then []
  else
    match x.graph.getJob id with
    | none => []
    | some job =>
      match a.peer id with
      | .completed => [⟨job, 0, none, [], false⟩]
      | .failed exitCode => [⟨job, exitCode, none, [], false⟩]
      | _ => []

def pollDeliveries : List JobId → LoopState × Bool → List (Delivery Hash)
  | [], _ => []
  | id :: ids, acc => pollDelivery x a acc.1 id ++ pollDeliveries ids (pollPeer x a acc id)

def passDeliveries (s : LoopState) : List (Delivery Hash) :=
  if s.terminateRequested then []
  else
    let found := findReadyJobs x a (entered s)
    let dispatched := dispatchLoop x a found.ready
      { entered s with frontier := found.frontier, gatesSeen := found.gatesSeen } false
    if x.claimer ∧ dispatched.1.peerWaits ≠ [] then
      pollDeliveries x a (a.peerOrder (dispatched.1.peerWaits.map Prod.fst)) (dispatched.1, false)
    else []

/-- The completion message of an attempt that was executed here. -/
def executed (s : LoopState) (msg : CompletionMsg) (previous : Option (OutputHashes Hash))
    (produced : OutputHashes Hash) : Delivery Hash :=
  ⟨msg.job, msg.result.exitCode, previous, produced,
    decide (s.frontier.getStatus msg.job.id = some .cancelled)⟩

/-- Points of a run with the deliveries so far. The message of an attempt says whether the hashes of
its outputs have changed; where they are not compared they count as changed. -/
inductive Recorded : Point → List (Delivery Hash) → Prop
  | start : refusedOverride x = none → Recorded (.head (initial x)) []
  | pass {s : LoopState} {ds : List (Delivery Hash)} (a : Answers) : Recorded (.head s) ds →
      Recorded (pass x a s) (ds ++ passDeliveries x a s)
  | await {s : LoopState} {skipped : Bool} {ds : List (Delivery Hash)} {arm : Arm} {p : Point} :
      Recorded (.waiting s skipped) ds → (∀ msg, arm ≠ .completed msg) →
      await x s skipped arm = some p → Recorded p ds
  | completed {s : LoopState} {skipped : Bool} {ds : List (Delivery Hash)} {msg : CompletionMsg}
      {p : Point} (previous : Option (OutputHashes Hash)) (produced : OutputHashes Hash) :
      Recorded (.waiting s skipped) ds → SchedulerLoop.await x s skipped (.completed msg) = some p →
      msg.outputsChanged = (if passes msg.job msg.result.exitCode then
        outputsChanged msg.job previous produced else true) →
      Recorded p (ds ++ [executed s msg previous produced])

variable {x a}

theorem Recorded.reachable {p : Point} {ds : List (Delivery Hash)} (h : Recorded x p ds) :
    Reachable x .free p := by
  induction h with
  | start hstart => exact .start hstart
  | pass a _ ih => exact .pass ih trivial
  | await _ _ hq ih => exact .await ih trivial hq
  | completed _ _ _ hq _ ih => exact .await ih trivial hq

/-! ### Labels of the net -/

section Labels

variable {W : Wiring JobId} {D : Discipline JobId} {n n' : Net JobId}
  {labels : List (JobId × JobLifecycle)}

theorem not_skipped_of_run (hD : ¬ D.hit) (h : Run (Fire W D) n labels n') (id : JobId) :
    (id, .skipped) ∉ labels := by
  intro hmem
  obtain ⟨_, _, rfl⟩ := append_of_mem hmem
  obtain ⟨m, _, -, hfire, -⟩ := h.split_at
  cases hfire with
  | hit hhit => exact hD hhit

theorem not_succeeded_of_run (hD : ∀ id attempt, ¬ D.verdict id attempt .success)
    (h : Run (Fire W D) n labels n') (id : JobId) : (id, .succeeded) ∉ labels := by
  intro hmem
  obtain ⟨_, _, rfl⟩ := append_of_mem hmem
  obtain ⟨m, _, -, hfire, -⟩ := h.split_at
  cases hfire with
  | succeed _ hverdict => exact hD _ _ hverdict

theorem mem_of_replay {statuses : JobId → Option JobLifecycle} {id : JobId} {st : JobLifecycle}
    (h : replay statuses labels id = some st) (hfirst : statuses id ≠ some st) :
    (id, st) ∈ labels := by
  induction labels generalizing statuses with
  | nil => exact absurd h hfirst
  | cons write labels ih =>
    by_cases hwrite : write = (id, st)
    · exact mem_cons.mpr (.inl hwrite.symm)
    · refine mem_cons_of_mem _ (ih h fun hnow => ?_)
      dsimp only at hnow
      by_cases hid : id = write.1
      · subst hid
        rw [Function.update_self, Option.some.injEq] at hnow
        exact hwrite (Prod.ext rfl hnow)
      · rw [Function.update_of_ne hid] at hnow
        exact hfirst hnow

theorem free_of_run (h : Run (Fire W D) n labels n') : Run (Fire W freely) n labels n' := by
  refine h.mono ?_
  intro s label t hfire _
  cases hfire with
  | drain h₁ h₂ => exact .drain h₁ h₂
  | drop h₁ h₂ h₃ => exact .drop h₁ h₂ h₃
  | putBack h₁ h₂ => exact .putBack h₁ h₂
  | arm h₁ h₂ => exact .arm h₁ h₂
  | reject h₁ h₂ => exact .reject h₁ h₂ trivial
  | hit _ h₂ h₃ => exact .hit trivial h₂ h₃
  | park _ h₂ h₃ => exact .park trivial h₂ h₃
  | defer h₁ h₂ => exact .defer h₁ h₂
  | launch h₁ h₂ => exact .launch h₁ h₂
  | stop => exact .stop trivial
  | abandon h₁ h₂ => exact .abandon h₁ h₂
  | unpark h₁ h₂ => exact .unpark h₁ h₂
  | unclaim h₁ h₂ => exact .unclaim h₁ h₂
  | succeed h₁ => exact .succeed h₁ trivial
  | again h₁ => exact .again h₁ trivial
  | fail h₁ _ h₃ => exact .fail h₁ trivial h₃
  | discard h₁ h₂ => exact .discard h₁ h₂
  | mirror h₁ h₂ h₃ => exact .mirror h₁ h₂ h₃
  | cancelIdle h₁ h₂ h₃ h₄ => exact .cancelIdle h₁ h₂ h₃ h₄
  | cancelActive h₁ h₂ h₃ => exact .cancelActive h₁ h₂ h₃
  | visit h₁ h₂ => exact .visit h₁ h₂
  | interrupt h₁ h₂ => exact .interrupt h₁ h₂
  | close h₁ h₂ h₃ h₄ => exact .close h₁ h₂ h₃ h₄

end Labels

/-! ### Steps of the loop -/

variable (x) in
/-- A step that delivers nothing: no job succeeds, and a job that is skipped need not run. The
second component says whether the remaining jobs have been cancelled. -/
structure Moves (p q : LoopState × Bool) : Prop where
  /-- The log grows by what the net does. -/
  grown : ∃ new, q.1.frontier.log = p.1.frontier.log ++ new ∧
    Run (Fire (wiring x.topo) freely) (loopNet p.1 ∅ p.2) (writes new) (loopNet q.1 ∅ q.2) ∧
    (∀ id, (id, .succeeded) ∉ writes new) ∧
    ∀ id, (id, .skipped) ∈ writes new → id ∉ p.1.frontier.forceRerun
  forceRerun : q.1.frontier.forceRerun = p.1.frontier.forceRerun

variable (x) in
/-- A step that delivers a completion. -/
structure Delivers (p q : LoopState × Bool) (d : Delivery Hash) : Prop where
  /-- The job is one of the graph. -/
  known : x.graph.getJob d.job.id = some d.job
  /-- A job that becomes succeeded was running here or waited for a peer. -/
  open_of_commits : d.commits = true →
    p.1.frontier.statuses d.job.id = some .running ∨ p.1.frontier.statuses d.job.id = some .pending
  /-- The log grows by what the net does. -/
  grown : ∃ new, q.1.frontier.log = p.1.frontier.log ++ new ∧
    Run (Fire (wiring x.topo) freely) (loopNet p.1 ∅ p.2) (writes new) (loopNet q.1 ∅ q.2) ∧
    (∀ id, (id, .skipped) ∉ writes new) ∧
    ∀ id, (id, .succeeded) ∈ writes new ↔ d.commits = true ∧ id = d.job.id
  /-- Consumers of changed outputs are forced. -/
  forceRerun : ∀ dep, dep ∈ q.1.frontier.forceRerun ↔ dep ∈ p.1.frontier.forceRerun ∨
    d.commits = true ∧ d.changed = true ∧ dep ∈ x.graph.downstream d.job.id

variable (x) in
/-- Steps of the loop, labelled with what they deliver. -/
inductive LoopStep : LoopState × Bool → Option (Delivery Hash) → LoopState × Bool → Prop
  | moves {p q : LoopState × Bool} : Moves x p q → LoopStep p none q
  | delivers {p q : LoopState × Bool} {d : Delivery Hash} : Delivers x p q d → LoopStep p (some d) q

/-- Deliveries excluded, cache hits excluded: what the search and the ends of a run may do. -/
def unhitting : Discipline JobId :=
  ⟨True, False, True, fun _ _ => True, fun _ _ verdict => verdict ≠ .success⟩

theorem moves_of_simulates {k : Obs → Bool} {s t : LoopState} {closed closed' : Bool}
    (h : Simulates (wiring x.topo) unhitting k s.frontier (loopNet s ∅ closed) t.frontier
      (loopNet t ∅ closed')) (hforce : t.frontier.forceRerun = s.frontier.forceRerun) :
    Moves x (s, closed) (t, closed') := by
  obtain ⟨new, hlog, -, -, hrun⟩ := h
  have hverdict : ∀ id attempt, ¬ unhitting.verdict id attempt .success :=
    fun _ _ h => h rfl
  have hhit : ¬ unhitting.hit := fun h => h
  have hskipped := not_skipped_of_run hhit hrun
  exact ⟨⟨new, hlog, free_of_run hrun, not_succeeded_of_run hverdict hrun,
    fun id hmem => absurd hmem (hskipped id)⟩, hforce⟩

/-! ### Dispatching -/

/-- No job succeeds, and a job that is skipped is not forced. -/
def Unforced (force : List JobId) : Obs → Prop
  | .status _ .succeeded => False
  | .status id .skipped => id ∉ force
  | _ => True

theorem unforced_of_write {force : List JobId} {o : Obs} (h : o.write? = none) :
    Unforced force o := by
  cases o with
  | status => cases h
  | _ => trivial

theorem writes_of_unforced {force : List JobId} {obs : List Obs}
    (h : ∀ o ∈ obs, Unforced force o) :
    (∀ id, (id, .succeeded) ∉ writes obs) ∧ ∀ id, (id, .skipped) ∈ writes obs → id ∉ force := by
  have hmem : ∀ id st, (id, st) ∈ writes obs → Unforced force (.status id st) := by
    intro id st hwrite
    obtain ⟨o, ho, hsome⟩ := mem_filterMap.mp hwrite
    cases o with
    | status =>
      cases hsome
      exact h _ ho
    | _ => cases hsome
  exact ⟨fun id hwrite => hmem id _ hwrite, fun id hwrite => hmem id _ hwrite⟩

theorem commitDispatch_unforced (job : ConcreteJob) (id : JobId) (cached : Bool)
    (remaining : List JobId) (s : LoopState) :
    Adds (Unforced s.frontier.forceRerun) s.frontier
      (commitDispatch x job id cached remaining s).1.frontier := by
  have hdefer : ∀ (ids : List JobId) (f : Frontier),
      Adds (Unforced s.frontier.forceRerun) f (ids.foldl deferJob f) := by
    intro ids f
    refine Adds.foldl (v := fun f : Frontier => f) (fun f id => ?_) ids f
    have hoffered : Adds (Unforced s.frontier.forceRerun) f (f.offer id) := .of_same rfl rfl
    exact hoffered.setStatus trivial
  unfold commitDispatch
  dsimp only
  split
  · exact .refl _
  · split
    · next hskip =>
      have hskipped : Adds (Unforced s.frontier.forceRerun) s.frontier
          (s.frontier.setStatus id .skipped) := by
        exact (Adds.refl _).setStatus hskip.2
      refine (hskipped.promote x.graph id).note ?_
      intro o ho
      cases mem_singleton.mp ho
      exact ⟨unforced_of_write rfl, rfl⟩
    · split
      · exact hdefer [id] s.frontier
      · split
        · exact hdefer remaining s.frontier
        · refine Adds.note (Adds.setStatus (.of_same rfl rfl) trivial) ?_
          intro o ho
          simp only [mem_cons, not_mem_nil, or_false] at ho
          cases ho with
          | inl h => rw [h]; exact ⟨unforced_of_write rfl, rfl⟩
          | inr h => rw [h]; exact ⟨unforced_of_write rfl, rfl⟩

theorem dispatchJob_unforced (remaining : List JobId) (id : JobId) (s : LoopState) :
    Adds (Unforced s.frontier.forceRerun) s.frontier
      (dispatchJob x a remaining id s).1.frontier := by
  unfold dispatchJob
  split
  · exact .refl _
  · next job _ =>
    obtain ⟨_, hchecked, hchecks, -⟩ := checkCache_log (x := x) (a := a) id s
    obtain ⟨hclaimed, -⟩ := claimJob_log (x := x) (a := a) id (checkCache x a id s).2
      (checkCache x a id s).1
    have hforce : (claimJob x a id (checkCache x a id s).2
        (checkCache x a id s).1).1.frontier.forceRerun = s.frontier.forceRerun := by
      rw [hclaimed, hchecked]
      rfl
    have hbefore : Adds (Unforced s.frontier.forceRerun) s.frontier
        (claimJob x a id (checkCache x a id s).2 (checkCache x a id s).1).1.frontier := by
      rw [hclaimed, hchecked]
      refine Adds.note (Adds.note (.refl _) ?_) ?_
      · intro o ho
        rcases mem_cons.mp ho with rfl | ho
        · exact ⟨unforced_of_write rfl, rfl⟩
        · obtain ⟨_, rfl⟩ := hchecks o ho
          exact ⟨unforced_of_write rfl, rfl⟩
      · intro o ho
        obtain ⟨outcome, -, rfl⟩ := mem_map.mp ho
        exact ⟨unforced_of_write rfl, rfl⟩
    dsimp only
    generalize claimJob x a id (checkCache x a id s).2 (checkCache x a id s).1 = r
      at hforce hbefore ⊢
    obtain ⟨claimed, outcome⟩ := r
    split
    · next owner he =>
      cases he
      refine hbefore.trans ?_
      unfold parkJob
      split
      · refine ((Adds.refl _).setStatus trivial).note ?_
        intro o ho
        cases mem_singleton.mp ho
        exact ⟨unforced_of_write rfl, rfl⟩
      · exact .refl _
    · next he =>
      cases he
      split
      · exact hbefore
      · have hcommit := commitDispatch_unforced (x := x) job id (checkCache x a id s).2 remaining
          (releaseTasks x a id claimed)
        have hreleased : (releaseTasks x a id claimed).frontier.forceRerun =
            s.frontier.forceRerun := hforce
        rw [hreleased] at hcommit
        exact (hbefore.trans (.of_same rfl rfl)).trans hcommit

theorem dispatchLoop_unforced (rest : List JobId) (s : LoopState) (skipped : Bool) :
    Adds (Unforced s.frontier.forceRerun) s.frontier
        (dispatchLoop x a rest s skipped).1.frontier ∧
      (dispatchLoop x a rest s skipped).1.frontier.forceRerun = s.frontier.forceRerun := by
  induction rest generalizing s skipped with
  | nil => exact ⟨.refl _, rfl⟩
  | cons id rest ih =>
    have hone := dispatchJob_unforced (x := x) (a := a) (id :: rest) id s
    have hforce := dispatchJob_forceRerun (x := x) (a := a) (id :: rest) id s
    rw [dispatchLoop]
    split
    · next s' he =>
      rw [he] at hone hforce
      obtain ⟨hrest, hsame⟩ := ih s' skipped
      rw [hforce] at hrest
      exact ⟨hone.trans hrest, hsame.trans hforce⟩
    · next s' he =>
      rw [he] at hone hforce
      obtain ⟨hrest, hsame⟩ := ih s' true
      rw [hforce] at hrest
      exact ⟨hone.trans hrest, hsame.trans hforce⟩
    · next s' he =>
      rw [he] at hone hforce
      exact ⟨hone, hforce⟩

/-- The jobs that are ready, and the state in which they are attempted. -/
def searched (x : Setup) (a : Answers) (s : LoopState) : LoopState :=
  let found := findReadyJobs x a (entered s)
  { entered s with frontier := found.frontier, gatesSeen := found.gatesSeen }

def attempted (x : Setup) (a : Answers) (s : LoopState) : LoopState :=
  (dispatchLoop x a (findReadyJobs x a (entered s)).ready (searched x a s) false).1

theorem moves_dispatch {s : LoopState} (hplaced : Placed (wiring x.topo) (loopNet s ∅ false))
    (hnodup : s.frontier.readyFrontier.Nodup) (hgoing : s.terminateRequested = false) :
    Moves x (s, false) (attempted x a s, false) := by
  obtain ⟨⟨_, _⟩, new, hlog, -, -, hrun⟩ :=
    attempts_simulate (a := a) (obeys_freely x .free) trivial hplaced hnodup hgoing
  have hready : ∀ j ∈ (entered s).frontier.readyFrontier,
      (entered s).frontier.statuses j ≠ some .ready := by
    intro j _ hj
    obtain h | h := hplaced.ready j hj
    · exact h
    · exact absurd h (by simp [loopNet, net, hgoing])
  -- The search is observed apart, since only the attempts may skip.
  obtain ⟨⟨first, hfirst, -, -, hsearch⟩, -, -⟩ := findReadyJobs_simulates (x := x) (a := a)
    (D := unhitting) {j | j ∈ s.inFlight} {j | j ∈ s.peerWaits.map Prod.fst} s.terminateRequested
    (s := entered s) hnodup hready fun _ _ _ _ _ => trivial
  obtain ⟨⟨second, hsecond, -, hunforced⟩, hsame⟩ := dispatchLoop_unforced (x := x) (a := a)
    (findReadyJobs x a (entered s)).ready (searched x a s) false
  have hframed := (findReadyJobs_framed (x := x) (a := a) (entered s)).1.forceRerun
  have hnew : new = Obs.pass :: (first ++ second) := by
    have hwhole : s.frontier.log ++ new = s.frontier.log ++ (Obs.pass :: (first ++ second)) := by
      rw [← hlog]
      refine hsecond.trans ?_
      change (findReadyJobs x a (entered s)).frontier.log ++ second = _
      rw [hfirst]
      change (s.frontier.log ++ [Obs.pass]) ++ first ++ second = _
      simp only [append_assoc, cons_append, nil_append]
    exact append_cancel_left hwhole
  have hverdict : ∀ id attempt, ¬ unhitting.verdict id attempt .success := fun _ _ h => h rfl
  have hhit : ¬ unhitting.hit := fun h => h
  have hforce : (searched x a s).frontier.forceRerun = s.frontier.forceRerun := hframed
  obtain ⟨hsucceeded, hskipped⟩ := writes_of_unforced hunforced
  rw [hforce] at hskipped
  refine ⟨⟨new, hlog, hrun, ?_, ?_⟩, hsame.trans hforce⟩
  · intro id hmem
    rw [hnew] at hmem
    change _ ∈ writes (first ++ second) at hmem
    rw [writes_append] at hmem
    rcases mem_append.mp hmem with hmem | hmem
    · exact not_succeeded_of_run hverdict hsearch id hmem
    · exact hsucceeded id hmem
  · intro id hmem
    rw [hnew] at hmem
    change _ ∈ writes (first ++ second) at hmem
    rw [writes_append] at hmem
    rcases mem_append.mp hmem with hmem | hmem
    · exact absurd hmem (not_skipped_of_run hhit hsearch id)
    · exact hskipped id hmem

/-! ### Delivering -/

theorem mem_foldl_insert (ids set : List JobId) (id : JobId) :
    id ∈ ids.foldl (fun set id => set.insert id) set ↔ id ∈ set ∨ id ∈ ids := by
  induction ids generalizing set with
  | nil => simp
  | cons first ids ih =>
    rw [foldl_cons, ih, List.mem_insert_iff, mem_cons]
    tauto

theorem handleCompletion_passes (p : Policy) (msg : CompletionMsg) (terminateRequested : Bool)
    (f : Frontier) (hopen : f.getStatus msg.job.id ≠ some .cancelled)
    (hpass : passes msg.job msg.result.exitCode = true) :
    ∃ outputs, (handleCompletion p msg terminateRequested f).frontier =
      commitSuccess p msg outputs f := by
  unfold handleCompletion
  dsimp only
  rw [if_neg hopen]
  by_cases hzero : msg.result.exitCode = 0
  · rw [if_pos hzero]
    exact ⟨_, rfl⟩
  · rw [if_neg hzero]
    have hignore : msg.job.errorStrategy = .ignore := by
      unfold passes at hpass
      rw [decide_eq_false hzero, Bool.false_or] at hpass
      exact of_decide_eq_true hpass
    rw [hignore]
    exact ⟨_, rfl⟩

theorem handleCompletion_forceRerun (p : Policy) (msg : CompletionMsg) (terminateRequested : Bool)
    (f : Frontier) (h : f.getStatus msg.job.id = some .cancelled ∨
      passes msg.job msg.result.exitCode = false) :
    (handleCompletion p msg terminateRequested f).frontier.forceRerun = f.forceRerun := by
  have hcancel : ∀ f' : Frontier, f'.forceRerun = f.forceRerun →
      (cancelDownstream p.graph msg.job.id (recordFailure p msg f')).forceRerun =
        f.forceRerun := by
    intro f' hf'
    exact (cancelLoop_framed _ _ _ _ _ _).forceRerun.trans hf'
  unfold handleCompletion
  dsimp only
  split
  · rfl
  · next hopen =>
    have hfails := h.resolve_left hopen
    unfold passes at hfails
    rw [Bool.or_eq_false_iff, decide_eq_false_iff_not, decide_eq_false_iff_not] at hfails
    rw [if_neg hfails.1]
    split
    · next hignore => exact absurd hignore hfails.2
    · split
      · unfold scheduleRetry
        dsimp only
        split
        · rfl
        · rfl
      · exact hcancel _ rfl
    · exact hcancel _ rfl
    · exact hcancel _ rfl

theorem mem_commitSuccess_forceRerun (p : Policy) (msg : CompletionMsg) (outputs : List String)
    (f : Frontier) (dep : JobId) :
    dep ∈ (commitSuccess p msg outputs f).forceRerun ↔ dep ∈ f.forceRerun ∨
      msg.outputsChanged = true ∧ dep ∈ p.graph.downstream msg.job.id := by
  unfold commitSuccess
  dsimp only
  rw [(promoteDownstream_framed p.graph msg.job.id _).1]
  split
  · next hchanged =>
    rw [hchanged]
    change dep ∈ List.foldl _ f.forceRerun _ ↔ _
    rw [mem_foldl_insert]
    simp
  · next hchanged =>
    have hfalse : msg.outputsChanged = false := Bool.eq_false_of_not_eq_true hchanged
    rw [hfalse]
    simp

theorem consume_frontier (msg : CompletionMsg) (s : LoopState) :
    ∃ extra, writes extra = [] ∧ (consume x msg s).frontier =
      (handleCompletion x.policy msg s.terminateRequested
        (s.frontier.note [.delivered msg.job.id msg.result.exitCode])).frontier.note extra := by
  unfold consume
  dsimp only
  split
  · exact ⟨[.recorded msg.job.id], rfl, rfl⟩
  · exact ⟨[], rfl, by simp [note]⟩

theorem judge_ne_success {job : ConcreteJob} {exitCode : ℤ} (h : passes job exitCode = false)
    (attempt : ℕ) : judge job.errorStrategy attempt exitCode ≠ .success := by
  unfold passes at h
  rw [Bool.or_eq_false_iff, decide_eq_false_iff_not, decide_eq_false_iff_not] at h
  unfold judge
  rw [if_neg h.1]
  split
  · next hignore => exact absurd hignore h.2
  · split
    · exact nofun
    · exact nofun
  · exact nofun
  · exact nofun

theorem delivers_of_consume {s joined : LoopState} {msg : CompletionMsg} {d : Delivery Hash}
    (hjob : x.graph.getJob msg.job.id = some msg.job) (hdjob : d.job = msg.job)
    (hexit : d.exitCode = msg.result.exitCode)
    (hdiscarded : d.discarded = decide (s.frontier.getStatus msg.job.id = some .cancelled))
    (hchanged : passes msg.job msg.result.exitCode = true → msg.outputsChanged = d.changed)
    (hlog : joined.frontier.log = s.frontier.log)
    (hstatuses : joined.frontier.statuses = s.frontier.statuses)
    (hforce : joined.frontier.forceRerun = s.frontier.forceRerun)
    (hplace : s.frontier.statuses msg.job.id ≠ some .cancelled →
      s.frontier.statuses msg.job.id = some .running ∨
        s.frontier.statuses msg.job.id = some .pending)
    (hsim : ∀ D : Discipline JobId, D.stop → (s.frontier.statuses msg.job.id ≠ some .cancelled →
        ∀ attempt, D.verdict msg.job.id attempt
          (judge msg.job.errorStrategy attempt msg.result.exitCode)) →
      Simulates (wiring x.topo) D anything s.frontier (loopNet s ∅ false)
        (consume x msg joined).frontier (loopNet (consume x msg joined) ∅ false)) :
    Delivers x (s, false) (consume x msg joined, false) d := by
  obtain ⟨_, hextra, hfrontier⟩ := consume_frontier (x := x) msg joined
  have hdelivered : (joined.frontier.note [.delivered msg.job.id msg.result.exitCode]).getStatus
      msg.job.id = s.frontier.statuses msg.job.id := congrFun hstatuses msg.job.id
  have hcommits : d.commits = true ↔ s.frontier.statuses msg.job.id ≠ some .cancelled ∧
      passes msg.job msg.result.exitCode = true := by
    unfold Delivery.commits
    rw [Bool.and_eq_true, hdiscarded, hdjob, hexit, Bool.not_eq_true', decide_eq_false_iff_not]
    rfl
  by_cases hcommit : d.commits = true
  · obtain ⟨hopen, hpass⟩ := hcommits.mp hcommit
    obtain ⟨new, hgrown, -, -, hrun⟩ := hsim freely trivial fun _ _ => trivial
    obtain ⟨_, hsuccess⟩ := handleCompletion_passes x.policy msg joined.terminateRequested
      (joined.frontier.note [.delivered msg.job.id msg.result.exitCode]) (hdelivered ▸ hopen) hpass
    have hwrites : writes new = [(msg.job.id, .succeeded)] := by
      have hwhole := hgrown
      rw [hfrontier, hsuccess, note_log, commitSuccess_log, note_log, hlog] at hwhole
      simp only [append_assoc] at hwhole
      rw [← append_cancel_left hwhole, writes_append, writes_append, hextra]
      rfl
    refine ⟨hdjob ▸ hjob, fun _ => hdjob ▸ hplace hopen, ⟨new, hgrown, hrun, ?_, ?_⟩, ?_⟩
    · intro id hmem
      rw [hwrites, mem_singleton] at hmem
      cases hmem
    · intro id
      rw [hwrites, mem_singleton, hdjob, hcommit]
      simp
    · intro dep
      change dep ∈ (consume x msg joined).frontier.forceRerun ↔ _
      rw [hfrontier, hsuccess, note_forceRerun, mem_commitSuccess_forceRerun, hchanged hpass,
        hdjob, hcommit, note_forceRerun, hforce]
      simp only [true_and]
      rfl
  · have hfails : s.frontier.statuses msg.job.id = some .cancelled ∨
        passes msg.job msg.result.exitCode = false := by
      by_cases hcancelled : s.frontier.statuses msg.job.id = some .cancelled
      · exact .inl hcancelled
      · refine .inr (Bool.eq_false_of_not_eq_true fun hpass => ?_)
        exact hcommit (hcommits.mpr ⟨hcancelled, hpass⟩)
    obtain ⟨new, hgrown, -, -, hrun⟩ := hsim unhitting trivial
      fun hopen attempt => judge_ne_success (hfails.resolve_left hopen) attempt
    have hverdict : ∀ id attempt, ¬ unhitting.verdict id attempt .success := fun _ _ h => h rfl
    have hhit : ¬ unhitting.hit := fun h => h
    refine ⟨hdjob ▸ hjob, fun h => absurd h hcommit,
      ⟨new, hgrown, free_of_run hrun, not_skipped_of_run hhit hrun, ?_⟩, ?_⟩
    · intro id
      constructor
      · intro hmem
        exact absurd hmem (not_succeeded_of_run hverdict hrun id)
      · rintro ⟨h, -⟩
        exact absurd h hcommit
    · intro dep
      change dep ∈ (consume x msg joined).frontier.forceRerun ↔ _
      rw [hfrontier, note_forceRerun, handleCompletion_forceRerun _ _ _ _ (hdelivered ▸ hfails),
        note_forceRerun, hforce]
      constructor
      · exact .inl
      · rintro (h | ⟨h, -⟩)
        · exact h
        · exact absurd h hcommit

/-! ### Runs of the loop -/

theorem run_pollPeer {acc : LoopState × Bool} {id : JobId}
    (hplaced : Placed (wiring x.topo) (loopNet acc.1 ∅ false))
    (hid : id ∈ acc.1.peerWaits.map Prod.fst) :
    Run (LoopStep x) (acc.1, false) (pollDelivery x a acc.1 id : List (Delivery Hash))
      ((pollPeer x a acc id).1, false) := by
  have hone := fun (D : Discipline JobId) (hstop : x.config.keepGoing = false → D.stop) =>
    pollPeer_simulates (a := a) hplaced hid hstop
  obtain ⟨s, progressed⟩ := acc
  dsimp only at hplaced hid hone ⊢
  by_cases hp : s.frontier.getStatus id = some .pending
  · obtain ⟨job, hjob⟩ := getJob_of_placed hplaced hp
    have hname : job.id = id := getJob_id hjob
    have hquiet : (∀ exitCode, ¬ PeerReports a id exitCode) →
        (pollPeer x a (s, progressed) id).1.frontier.forceRerun = s.frontier.forceRerun →
        Run (LoopStep x) (s, false) ([] : List (Delivery Hash))
          ((pollPeer x a (s, progressed) id).1, false) := by
      intro hnone hforce
      have hsim := hone unhitting (fun _ => trivial)
        fun _ exitCode _ hreports => absurd hreports (hnone exitCode)
      exact Run.silent (.moves (moves_of_simulates hsim hforce))
    have hdeliver : ∀ exitCode, PeerReports a id exitCode →
        (pollPeer x a (s, progressed) id).1 = consume x (peerCompletion a job
          (ownerName ((s.peerWaits.lookup id).join)) exitCode) (unparkJob id s) →
        Run (LoopStep x) (s, false) ([⟨job, exitCode, none, [], false⟩] : List (Delivery Hash))
          ((pollPeer x a (s, progressed) id).1, false) := by
      intro exitCode hreports heq
      rw [heq]
      have hself : s.frontier.statuses job.id = some .pending := by
        rw [hname]
        exact hp
      refine Run.single (.delivers (delivers_of_consume (hname ▸ hjob) rfl rfl ?_ (fun _ => rfl)
        rfl rfl rfl (fun _ => .inr hself) ?_))
      · have hopen : s.frontier.getStatus job.id ≠ some .cancelled := by
          rw [getStatus_eq, hself]
          intro hsame
          cases hsame
        exact (decide_eq_false hopen).symm
      · intro D hstop hverdict
        have hsim := hone D (fun _ => hstop) ?_
        · rw [heq] at hsim
          exact Simulates.widen hsim
        · intro job' exitCode' hjob' hreports'
          rw [hjob] at hjob'
          cases hjob'
          have hsame : exitCode' = exitCode := by
            rcases hreports with ⟨hpeer, rfl⟩ | hpeer
            · rcases hreports' with ⟨-, rfl⟩ | hpeer'
              · rfl
              · rw [hpeer] at hpeer'
                cases hpeer'
            · rcases hreports' with ⟨hpeer', -⟩ | hpeer'
              · rw [hpeer] at hpeer'
                cases hpeer'
              · rw [hpeer] at hpeer'
                cases hpeer'
                rfl
          rw [hsame, ← hname]
          refine hverdict ?_
          change s.frontier.statuses job.id ≠ some .cancelled
          rw [hself]
          intro hsame
          cases hsame
    unfold pollDelivery
    rw [if_neg (not_not_intro hp), hjob]
    dsimp only
    obtain ⟨polled, hpoll⟩ : ∃ polled, pollPeer x a (s, progressed) id = polled := ⟨_, rfl⟩
    rw [hpoll] at hquiet hdeliver ⊢
    unfold pollPeer at hpoll
    dsimp only at hpoll
    rw [if_neg (not_not_intro hp), hjob] at hpoll
    cases hpeer : a.peer id with
    | running =>
      refine hquiet (fun _ h => ?_) ?_
      · rcases h with ⟨h, -⟩ | h
        · rw [hpeer] at h
          cases h
        · rw [hpeer] at h
          cases h
      · simp only [hpeer] at hpoll
        rw [← hpoll]
    | unclaimed =>
      refine hquiet (fun _ h => ?_) ?_
      · rcases h with ⟨h, -⟩ | h
        · rw [hpeer] at h
          cases h
        · rw [hpeer] at h
          cases h
      · simp only [hpeer] at hpoll
        rw [← hpoll]
        rfl
    | completed =>
      refine hdeliver 0 (.inl ⟨hpeer, rfl⟩) ?_
      simp only [hpeer] at hpoll
      rw [← hpoll]
    | failed exitCode =>
      refine hdeliver exitCode (.inr hpeer) ?_
      simp only [hpeer] at hpoll
      rw [← hpoll]
    | cancelled =>
      refine hquiet (fun _ h => ?_) ?_
      · rcases h with ⟨h, -⟩ | h
        · rw [hpeer] at h
          cases h
        · rw [hpeer] at h
          cases h
      · simp only [hpeer] at hpoll
        rw [← hpoll]
        exact (cancelLoop_framed _ _ _ _ _ _).forceRerun
  · have hpoll : pollPeer x a (s, progressed) id = (unparkJob id s, progressed) := by
      unfold pollPeer
      dsimp only
      rw [if_pos hp]
    unfold pollDelivery
    rw [if_pos hp, hpoll]
    refine Run.silent (.moves (moves_of_simulates (k := anything) ?_ rfl))
    refine .silent rfl (fun h => h) ?_
    unfold loopNet
    rw [parked_unpark]
    exact .unpark hid hp

theorem LoopStep.net {p q : LoopState × Bool} {label : Option (Delivery Hash)}
    (h : LoopStep x p label q) : ∃ new, q.1.frontier.log = p.1.frontier.log ++ new ∧
      Run (Fire (wiring x.topo) freely) (loopNet p.1 ∅ p.2) (writes new)
        (loopNet q.1 ∅ q.2) := by
  cases h with
  | moves hmoves =>
    obtain ⟨new, hlog, hrun, -⟩ := hmoves.grown
    exact ⟨new, hlog, hrun⟩
  | delivers hdelivers =>
    obtain ⟨new, hlog, hrun, -⟩ := hdelivers.grown
    exact ⟨new, hlog, hrun⟩

theorem placed_of_run {p q : LoopState × Bool} {ds : List (Delivery Hash)}
    (h : Run (LoopStep x) p ds q) (hplaced : Placed (wiring x.topo) (loopNet p.1 ∅ p.2)) :
    Placed (wiring x.topo) (loopNet q.1 ∅ q.2) := by
  refine h.invariant (fun p => Placed (wiring x.topo) (loopNet p.1 ∅ p.2)) ?_ hplaced
  intro p label q hp hstep
  obtain ⟨_, -, hrun⟩ := hstep.net
  exact hrun.invariant _ (fun _ _ _ hs hfire => hs.fire hfire) hp

theorem run_pollPeers {waiting : List JobId} {acc : LoopState × Bool}
    (hplaced : Placed (wiring x.topo) (loopNet acc.1 ∅ false)) (hnodup : waiting.Nodup)
    (hwaiting : ∀ j ∈ waiting, j ∈ acc.1.peerWaits.map Prod.fst) :
    Run (LoopStep x) (acc.1, false) (pollDeliveries x a waiting acc : List (Delivery Hash))
      ((waiting.foldl (pollPeer x a) acc).1, false) := by
  induction waiting generalizing acc with
  | nil => exact .refl _
  | cons id waiting ih =>
    obtain ⟨hid, hrest⟩ := nodup_cons.mp hnodup
    have hone : Run (LoopStep x) (acc.1, false) (pollDelivery x a acc.1 id : List (Delivery Hash))
        ((pollPeer x a acc id).1, false) := run_pollPeer hplaced (hwaiting id (by simp))
    obtain ⟨hpeers, -, -⟩ := pollPeer_peerWaits (x := x) (a := a) acc id
    have hstill : ∀ j ∈ waiting, j ∈ (pollPeer x a acc id).1.peerWaits.map Prod.fst := by
      intro j hj
      have hold := hwaiting j (by simp [hj])
      rcases hpeers with heq | heq
      · rw [heq]
        exact hold
      · have hne : j ≠ id := fun h => hid (h ▸ hj)
        have hmem : j ∈ {k | k ∈ (unparkJob id acc.1).peerWaits.map Prod.fst} := by
          rw [parked_unpark]
          exact ⟨hold, hne⟩
        rw [heq]
        exact hmem
    exact hone.trans (ih (placed_of_run hone hplaced) hrest hstill)

variable (Hash) in
theorem run_exitTests (s : LoopState) (skipped : Bool) :
    ∃ closed, Run (LoopStep x) (s, false) ([] : List (Delivery Hash))
        ((exitTests x s skipped).state, closed) ∧
      ((∀ t, exitTests x s skipped ≠ .returned t) → closed = false) := by
  have hfinish : ∀ (t : LoopState) (closed : Bool),
      Run (LoopStep x) (t, closed) ([] : List (Delivery Hash)) (finishRun x t, closed) := by
    intro t closed
    have hsim : Simulates (wiring x.topo) unhitting anything t.frontier (loopNet t ∅ closed)
        (finishRun x t).frontier (loopNet (finishRun x t) ∅ closed) :=
      .note (by simp [anything]) rfl
    exact Run.silent (.moves (moves_of_simulates hsim rfl))
  unfold exitTests
  split
  · exact ⟨false, hfinish s false, fun _ => rfl⟩
  · split
    · next hstop =>
      obtain ⟨closed, hcancel⟩ :=
        cancelRemaining_simulates (x := x) (D := unhitting) hstop.1 hstop.2
      have hforce : (cancelRemaining x s).frontier.forceRerun = s.frontier.forceRerun := by
        unfold cancelRemaining
        dsimp only
        generalize x.graph.jobIds.filter _ = ids
        generalize s.frontier = f
        induction ids generalizing f with
        | nil => rfl
        | cons id ids ih =>
          rw [foldl_cons, ih]
          rfl
      have hclosed : Run (LoopStep x) (s, false) ([] : List (Delivery Hash))
          (cancelRemaining x s, closed) :=
        Run.silent (.moves (moves_of_simulates hcancel hforce))
      exact ⟨closed, hclosed.trans (hfinish _ closed), fun h => absurd rfl (h _)⟩
    · split
      · exact ⟨false, hfinish s false, fun _ => rfl⟩
      · have hsim : Simulates (wiring x.topo) unhitting anything s.frontier (loopNet s ∅ false)
            (armHardKill s).frontier (loopNet (armHardKill s) ∅ false) := .refl
        exact ⟨false, Run.silent (.moves (moves_of_simulates hsim rfl)), fun _ => rfl⟩

variable (Hash) in
theorem run_pass {s : LoopState} (hplaced : Placed (wiring x.topo) (loopNet s ∅ false))
    (hregular : Regular x s) (hnodup : s.frontier.readyFrontier.Nodup) :
    ∃ closed, Run (LoopStep x) (s, false) (passDeliveries x a s : List (Delivery Hash))
        ((pass x a s).state, closed) ∧
      ((∀ t, pass x a s ≠ .returned t) → closed = false) := by
  unfold SchedulerLoop.pass passDeliveries
  dsimp only
  split
  · have hsim : Simulates (wiring x.topo) unhitting anything s.frontier (loopNet s ∅ false)
        (entered s).frontier (loopNet (entered s) ∅ false) := .note (by simp [anything]) rfl
    have henter : Run (LoopStep x) (s, false) ([] : List (Delivery Hash)) (entered s, false) :=
      Run.silent (.moves (moves_of_simulates hsim rfl))
    obtain ⟨closed, hexit, hopen⟩ := run_exitTests (x := x) Hash (entered s) false
    exact ⟨closed, henter.trans hexit, hopen⟩
  · next hgoing =>
    have hgoing : s.terminateRequested = false := Bool.eq_false_of_not_eq_true hgoing
    have hdispatched : Run (LoopStep x) (s, false) ([] : List (Delivery Hash))
        (attempted x a s, false) := Run.silent (.moves (moves_dispatch hplaced hnodup hgoing))
    have hregular' : Regular x (attempted x a s) :=
      Regular.dispatchLoop (s := searched x a s) ⟨hregular.peers, hregular.signalled⟩ _ false
    have hpolled : Run (LoopStep x) (s, false)
        (if x.claimer ∧ (attempted x a s).peerWaits ≠ [] then
          pollDeliveries x a (a.peerOrder ((attempted x a s).peerWaits.map Prod.fst))
            (attempted x a s, false)
        else [] : List (Delivery Hash)) ((dispatchPhase x a (entered s)).1, false) := by
      have hphase : (dispatchPhase x a (entered s)).1 =
          if x.claimer ∧ (attempted x a s).peerWaits ≠ [] then
            (pollPeerWaits x a (attempted x a s)).1
          else attempted x a s := by
        unfold dispatchPhase
        exact apply_ite Prod.fst _ _ _
      rw [hphase]
      split
      · have hperm := a.peerOrder_perm ((attempted x a s).peerWaits.map Prod.fst)
        exact hdispatched.trans (run_pollPeers (placed_of_run hdispatched hplaced)
          (hperm.nodup_iff.mpr hregular'.peers) fun j hj => hperm.mem_iff.mp hj)
      · exact hdispatched
    obtain ⟨closed, hexit, hopen⟩ := run_exitTests (x := x) Hash
      (dispatchPhase x a (entered s)).1 (dispatchPhase x a (entered s)).2
    have hwhole := hpolled.trans hexit
    rw [append_nil] at hwhole
    exact ⟨closed, hwhole, hopen⟩

variable (Hash) in
theorem run_await {s : LoopState} {skipped : Bool} {arm : Arm} {q : Point}
    (harm : ∀ msg, arm ≠ .completed msg) (hq : await x s skipped arm = some q) :
    Run (LoopStep x) (s, false) ([] : List (Delivery Hash)) (q.state, false) := by
  have hquiet : ∀ t : LoopState, Simulates (wiring x.topo) unhitting anything s.frontier
      (loopNet s ∅ false) t.frontier (loopNet t ∅ false) →
      t.frontier.forceRerun = s.frontier.forceRerun →
      Run (LoopStep x) (s, false) ([] : List (Delivery Hash)) (t, false) :=
    fun t hsim hforce => Run.silent (.moves (moves_of_simulates hsim hforce))
  cases await_cases x hq with
  | again | polled | retryElapsed => exact .refl _
  | @interrupted order _ _ _ hperm =>
    refine hquiet (interrupt order s) (interrupt_simulates trivial hperm) ?_
    have hfold : ∀ (ids : List JobId) (f : Frontier),
        (ids.foldl (fun f id => f.setStatus id .cancelled) f).forceRerun = f.forceRerun := by
      intro ids
      induction ids with
      | nil => exact fun _ => rfl
      | cons id ids ih => exact fun f => ih (f.setStatus id .cancelled)
    exact hfold order s.frontier
  | stopped => exact hquiet _ (.silent rfl (fun h => h) (.stop trivial)) rfl
  | completed => exact absurd rfl (harm _)
  | taskFailed | hardKill =>
    refine hquiet _ (.note (by simp [anything]) ?_) rfl
    simp [writes, Obs.write?]

theorem run_completed {s : LoopState} {skipped : Bool} {msg : CompletionMsg} {q : Point}
    {previous : Option (OutputHashes Hash)} {produced : OutputHashes Hash}
    (hplaced : Placed (wiring x.topo) (loopNet s ∅ false))
    (hq : await x s skipped (.completed msg) = some q)
    (hchanged : msg.outputsChanged = (if passes msg.job msg.result.exitCode then
      outputsChanged msg.job previous produced else true)) :
    Run (LoopStep x) (s, false) [executed s msg previous produced] (q.state, false) := by
  cases await_cases x hq with
  | completed hflight hjob =>
    refine Run.single (.delivers (delivers_of_consume hjob rfl rfl rfl ?_ rfl rfl rfl ?_ ?_))
    · intro hpass
      rw [hchanged, if_pos hpass]
      rfl
    · intro hopen
      exact .inl ((hplaced.flying msg.job.id hflight).resolve_right hopen)
    · intro D hstop hverdict
      have hleft : {j | j ∈ (joinTask x msg.job.id s).inFlight} =
          {j | j ∈ s.inFlight} \ {msg.job.id} := by
        ext j
        simp [joinTask]
      refine Simulates.widen (consume_simulates (s := joinTask x msg.job.id s) (fun _ => hstop)
        (fun j hj => (hplaced.known j).mpr hj) ?_)
      rcases hplaced.flying msg.job.id hflight with hrunning | hcancelled
      · have hopen : s.frontier.statuses msg.job.id ≠ some .cancelled := by
          change s.frontier.statuses msg.job.id = some .running at hrunning
          rw [hrunning]
          intro hsame
          cases hsame
        exact .inl ⟨.inl ⟨hflight, hrunning, hleft, rfl⟩, hverdict hopen _⟩
      · exact .inr ⟨hflight, hcancelled, hleft, rfl⟩

theorem recorded_run {p : Point} {ds : List (Delivery Hash)} (h : Recorded x p ds) :
    ∃ closed, Run (LoopStep x) (initial x, false) ds (p.state, closed) ∧
      ((∀ s, p ≠ .returned s) → closed = false) := by
  induction h with
  | start _ => exact ⟨false, .refl _, fun _ => rfl⟩
  | @pass s ds a hs ih =>
    obtain ⟨closed, hrun, hopen⟩ := ih
    obtain rfl := hopen nofun
    obtain ⟨_, _, hlinked⟩ := reachable_linked (obeys_freely x .free) hs.reachable
    obtain ⟨closed, hpass, hclosed⟩ := run_pass (a := a) Hash
      (placed_of_run hrun (initial_placed x)) hlinked.regular hlinked.nodup
    exact ⟨closed, hrun.trans hpass, hclosed⟩
  | await _ harm hq ih =>
    obtain ⟨closed, hrun, hopen⟩ := ih
    obtain rfl := hopen nofun
    have hwhole := hrun.trans (run_await Hash harm hq)
    rw [append_nil] at hwhole
    exact ⟨false, hwhole, fun _ => rfl⟩
  | completed previous produced _ hq hchanged ih =>
    obtain ⟨closed, hrun, hopen⟩ := ih
    obtain rfl := hopen nofun
    have hcompleted := run_completed (placed_of_run hrun (initial_placed x)) hq hchanged
    exact ⟨false, hrun.trans hcompleted, fun _ => rfl⟩

/-! ### Executed jobs -/

theorem Delivers.not_terminal {p q : LoopState × Bool} {d : Delivery Hash}
    (h : Delivers x p q d) (hcommits : d.commits = true) :
    terminal (p.1.frontier.statuses d.job.id) = false := by
  rcases h.open_of_commits hcommits with hstatus | hstatus
  · rw [hstatus]
    rfl
  · rw [hstatus]
    rfl

/-- The successes a run writes are those it delivers, one for each job. -/
structure Executed (x : Setup) (ds : List (Delivery Hash)) (p : LoopState × Bool) : Prop where
  /-- The net reaches the state, and the writes of the log are those of the deliveries. -/
  grown : ∃ obs, p.1.frontier.log = (initial x).frontier.log ++ obs ∧
    Run (Fire (wiring x.topo) freely) (loopNet (initial x) ∅ false) (writes obs)
      (loopNet p.1 ∅ p.2) ∧
    ∀ id, (id, .succeeded) ∈ writes obs ↔ ∃ d ∈ ds, d.commits = true ∧ d.job.id = id
  /-- The committed jobs are succeeded and were not finished at first. -/
  committed : ∀ d ∈ ds, d.commits = true → x.graph.getJob d.job.id = some d.job ∧
    p.1.frontier.statuses d.job.id = some .succeeded ∧
    terminal ((initial x).frontier.statuses d.job.id) = false
  once : ((ds.filter Delivery.commits).map fun d => d.job.id).Nodup

omit [DecidableEq Hash] in
theorem executed_initial : Executed x ([] : List (Delivery Hash)) (initial x, false) :=
  ⟨⟨[], by simp, .refl _, by simp [writes]⟩, by simp, by simp⟩

omit [DecidableEq Hash] in
theorem Executed.placed {ds : List (Delivery Hash)} {p : LoopState × Bool}
    (h : Executed x ds p) : Placed (wiring x.topo) (loopNet p.1 ∅ p.2) := by
  obtain ⟨_, -, hrun, -⟩ := h.grown
  exact hrun.invariant _ (fun _ _ _ hs hfire => hs.fire hfire) (initial_placed x)

omit [DecidableEq Hash] in
theorem Executed.moves {ds : List (Delivery Hash)} {p q : LoopState × Bool}
    (h : Executed x ds p) (hstep : Moves x p q) : Executed x ds q := by
  obtain ⟨obs, hlog, hrun, hsucceeded⟩ := h.grown
  obtain ⟨new, hnew, hmoves, hnone, -⟩ := hstep.grown
  refine ⟨⟨obs ++ new, ?_, ?_, ?_⟩, ?_, h.once⟩
  · rw [hnew, hlog, append_assoc]
  · rw [writes_append]
    exact hrun.trans hmoves
  · intro id
    rw [writes_append, mem_append, ← hsucceeded]
    constructor
    · exact fun hmem => hmem.resolve_right (hnone id)
    · exact .inl
  · intro d hd hcommits
    obtain ⟨hjob, hstatus, hfirst⟩ := h.committed d hd hcommits
    have hkept := h.placed.terminal_run hmoves (j := d.job.id) (by
      change terminal (p.1.frontier.statuses d.job.id) = true
      rw [hstatus]
      rfl)
    exact ⟨hjob, hkept.trans hstatus, hfirst⟩

theorem Executed.delivers {ds : List (Delivery Hash)} {d : Delivery Hash}
    {p q : LoopState × Bool} (h : Executed x ds p) (hstep : Delivers x p q d) :
    Executed x (ds ++ [d]) q := by
  obtain ⟨obs, hlog, hrun, hsucceeded⟩ := h.grown
  obtain ⟨new, hnew, hdelivers, -, hcommit⟩ := hstep.grown
  have hmem : ∀ e, e ∈ ds ++ [d] ↔ e ∈ ds ∨ e = d := by
    intro e
    rw [mem_append, mem_singleton]
  refine ⟨⟨obs ++ new, ?_, ?_, ?_⟩, ?_, ?_⟩
  · rw [hnew, hlog, append_assoc]
  · rw [writes_append]
    exact hrun.trans hdelivers
  · intro id
    rw [writes_append, mem_append, hsucceeded, hcommit]
    constructor
    · rintro (⟨e, he, hcommits, hid⟩ | ⟨hcommits, rfl⟩)
      · exact ⟨e, (hmem e).mpr (.inl he), hcommits, hid⟩
      · exact ⟨d, (hmem d).mpr (.inr rfl), hcommits, rfl⟩
    · rintro ⟨e, he, hcommits, hid⟩
      rcases (hmem e).mp he with he | rfl
      · exact .inl ⟨e, he, hcommits, hid⟩
      · exact .inr ⟨hcommits, hid.symm⟩
  · intro e he hcommits
    rcases (hmem e).mp he with he | rfl
    · obtain ⟨hjob, hstatus, hfirst⟩ := h.committed e he hcommits
      have hkept := h.placed.terminal_run hdelivers (j := e.job.id) (by
        change terminal (p.1.frontier.statuses e.job.id) = true
        rw [hstatus]
        rfl)
      exact ⟨hjob, hkept.trans hstatus, hfirst⟩
    · refine ⟨hstep.known, ?_, ?_⟩
      · have hwritten := (hcommit e.job.id).mpr ⟨hcommits, rfl⟩
        obtain ⟨_, _, hsplit⟩ := append_of_mem hwritten
        rw [hsplit] at hdelivers
        obtain ⟨m, m', hbefore, hfire, hafter⟩ := hdelivers.split_at
        have hm' : Placed (wiring x.topo) m' :=
          (hbefore.invariant _ (fun _ _ _ hs hfire => hs.fire hfire) h.placed).fire hfire
        have hstatus : m'.status e.job.id = some .succeeded := by
          rw [hfire.status_eq]
          exact Function.update_self ..
        have hkept := hm'.terminal_run hafter (j := e.job.id) (by
          rw [hstatus]
          rfl)
        exact hkept.trans hstatus
      · by_contra hfirst
        have hterm : terminal ((initial x).frontier.statuses e.job.id) = true :=
          Bool.eq_true_of_not_eq_false hfirst
        have hkept := (initial_placed x).terminal_run hrun hterm
        change p.1.frontier.statuses e.job.id = (initial x).frontier.statuses e.job.id at hkept
        have hsame := hstep.not_terminal hcommits
        rw [hkept, hterm] at hsame
        cases hsame
  · rw [filter_append, map_append]
    by_cases hcommits : d.commits = true
    · rw [filter_singleton, hcommits, cond_true, map_singleton]
      refine nodup_append.mpr ⟨h.once, nodup_singleton _, ?_⟩
      rintro id hid _ hlast rfl
      rw [mem_singleton.mp hlast] at hid
      obtain ⟨e, he, heq⟩ := mem_map.mp hid
      obtain ⟨hmem, hcommitted⟩ := mem_filter.mp he
      have hstatus := (h.committed e hmem hcommitted).2.1
      have hopen := hstep.not_terminal hcommits
      rw [← heq, hstatus] at hopen
      cases hopen
    · rw [filter_singleton, Bool.eq_false_of_not_eq_true hcommits, cond_false, map_nil,
        append_nil]
      exact h.once

theorem executed_of_run {ds : List (Delivery Hash)} {p : LoopState × Bool}
    (h : Run (LoopStep x) (initial x, false) ds p) : Executed x ds p := by
  refine h.recorded (Executed x) ?_ executed_initial
  intro past p label q hinv hstep
  cases hstep with
  | moves hmoves =>
    rw [Option.toList_none, append_nil]
    exact hinv.moves hmoves
  | delivers hdelivers => exact hinv.delivers hdelivers

omit [DecidableEq Hash] in
theorem Executed.succeeded_iff {ds : List (Delivery Hash)} {p : LoopState × Bool}
    (h : Executed x ds p) (id : JobId) : (p.1.frontier.statuses id = some .succeeded ∧
      (initial x).frontier.statuses id ≠ some .succeeded) ↔
    ∃ d ∈ ds, d.commits = true ∧ d.job.id = id := by
  obtain ⟨_, -, hrun, hsucceeded⟩ := h.grown
  constructor
  · rintro ⟨hstatus, hfirst⟩
    refine (hsucceeded id).mp (mem_of_replay ?_ hfirst)
    rw [← hstatus]
    exact (congrFun (status_of_run hrun) id).symm
  · rintro ⟨d, hd, hcommits, rfl⟩
    obtain ⟨-, hstatus, hfirst⟩ := h.committed d hd hcommits
    refine ⟨hstatus, fun hnow => ?_⟩
    rw [hnow] at hfirst
    cases hfirst

end OxyMake.DeliveredRuns
