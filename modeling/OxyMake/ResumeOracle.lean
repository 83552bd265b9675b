import OxyMake.TerminalStatuses

/-!
# A resumed frontier against the live one

The live counters follow a run write by write, the resumed ones are recounted
from the finished statuses. They agree when each job was satisfied while all
its downstream jobs were pending: a downstream job that is already skipped or
cancelled keeps its counter, and the recount does not.
-/

namespace OxyMake.ResumeOracle

open Function
open PhysicalGraph Observation SchedulingFrontier Frontier SchedulerLoop FrontierInitialisation
open LabelledRuns DependencyNet Net NetInvariants CompletionRefinement LoopRefinement
open DependencySafety TerminalStatuses

section Counting

variable {J : Type*} [DecidableEq J] {W : Wiring J} {D : Discipline J} {s t : Net J}

/-- Satisfying a job is counted where it matters: on its first satisfaction every
downstream job is pending, on a repeated one no pending downstream job still
counts. -/
def CountedOnce (W : Wiring J) (status : J → Option JobLifecycle) (j : J) : Prop :=
  ∀ d ∈ W.down j, if satisfied (status j) = true then
    status d = some .pending → unsat W status d = 0 else status d = some .pending

/-- Every write that satisfies a job is counted once. -/
def CountsTrue (W : Wiring J) (start : J → Option JobLifecycle)
    (ws : List (J × JobLifecycle)) : Prop :=
  ∀ earlier j st later, ws = earlier ++ (j, st) :: later → st.isSatisfied = true →
    CountedOnce W (replay start earlier) j

def AllCounted (W : Wiring J) (s : Net J) : Prop :=
  ∀ j, s.count j = if j ∈ W.nodes then some (unsat W s.status j) else none

theorem unsat_resatisfy {status : J → Option JobLifecycle} {j : J} {st : JobLifecycle}
    (hj : satisfied (status j) = true) (hst : st.isSatisfied = true) (k : J) :
    unsat W (Function.update status j (some st)) k = unsat W status k := by
  refine List.countP_congr fun u _ => ?_
  by_cases hu : u = j
  · subst hu; simp [hj, hst]
  · simp [hu]

theorem counted_satisfy {status : J → Option JobLifecycle} {count : J → Option ℕ}
    {j : J} {st : JobLifecycle}
    (h : ∀ k, count k = if k ∈ W.nodes then some (unsat W status k) else none)
    (hnode : j ∈ W.nodes) (hst : st.isSatisfied = true) (honce : CountedOnce W status j) (k : J) :
    (if k ∈ W.down j ∧ Function.update status j (some st) k = some .pending then
        (count k).map (· - 1) else count k) =
      if k ∈ W.nodes then some (unsat W (Function.update status j (some st)) k) else none := by
  by_cases hk : k ∈ W.nodes
  · have hadj := W.adjoint hnode hk
    have hcount : count k = some (unsat W status k) := by rw [h k, if_pos hk]
    rw [if_pos hk, hcount]
    by_cases hd : k ∈ W.down j
    · have hne : k ≠ j := by
        rintro rfl
        exact absurd (W.rank_lt hk (hadj.mpr hd)) (lt_irrefl _)
      have hk' := honce k hd
      rw [update_of_ne hne]
      by_cases hsat : satisfied (status j) = true
      · rw [if_pos hsat] at hk'
        rw [unsat_resatisfy hsat hst]
        split
        · next hp => simp [hk' hp.2]
        · rfl
      · rw [if_neg hsat] at hk'
        have hsplit := unsat_satisfy (W := W) (by simpa using hsat) hst k
        rw [if_pos (hadj.mpr hd)] at hsplit
        rw [if_pos ⟨hd, hk'⟩, hsplit]
        simp
    · rw [if_neg fun hp => hd hp.1]
      by_cases hsat : satisfied (status j) = true
      · rw [unsat_resatisfy hsat hst]
      · have hsplit := unsat_satisfy (W := W) (by simpa using hsat) hst k
        rw [if_neg fun hu => hd (hadj.mp hu), Nat.add_zero] at hsplit
        rw [hsplit]
  · have hcount : count k = none := by rw [h k, if_neg hk]
    rw [if_neg hk, hcount]
    split <;> rfl

theorem AllCounted.fire {label : Option (J × JobLifecycle)} (hs : AllCounted W s)
    (hp : Placed W s) (hlabel : CountsTrue W s.status label.toList) (h : Fire W D s label t) :
    AllCounted W t := by
  have hstatus := h.status_eq
  obtain ⟨hst, hcount⟩ | ⟨j, st, hst, hcount, hold, hnew, -⟩ | ⟨j, st, hst, hcount, hold, hnew⟩ :=
    hp.effect h
  · intro k
    rw [hcount, hst]
    exact hs k
  · intro k
    rw [hcount, hst, unsat_update hold hnew]
    exact hs k
  · have hnode : j ∈ W.nodes := (hp.known j).mp (by
      cases hj : s.status j with
      | none => rw [hj] at hold; cases hold
      | some => rfl)
    -- The status changed at the satisfied job, so that the label names it.
    have hchanged : s.status j ≠ some st := by
      intro hj
      rw [hj] at hold
      cases st <;> simp_all [JobLifecycle.isSatisfied, JobLifecycle.isTerminal]
    have hwritten : label = some (j, st) := by
      have hat := congrFun (hst.symm.trans hstatus) j
      rw [update_self] at hat
      cases label with
      | none => exact absurd hat.symm hchanged
      | some write =>
        obtain ⟨k, st'⟩ := write
        change some st = Function.update s.status k (some st') j at hat
        by_cases hk : j = k
        · subst hk
          rw [update_self] at hat
          rw [Option.some.inj hat]
        · rw [update_of_ne hk] at hat
          exact absurd hat.symm hchanged
    subst hwritten
    have honce : CountedOnce W s.status j := hlabel [] j st [] rfl hnew
    intro k
    rw [hcount, hst]
    exact counted_satisfy hs hnode hnew honce k

theorem AllCounted.run {labels : List (J × JobLifecycle)} (hs : AllCounted W s) (hp : Placed W s)
    (hlabels : CountsTrue W s.status labels) (h : Run (Fire W D) s labels t) : AllCounted W t := by
  induction h with
  | refl => exact hs
  | @cons s m t label labels hfire _ ih =>
    have hfirst : CountsTrue W s.status label.toList := fun earlier j st later he =>
      hlabels earlier j st (later ++ labels) (by simp [he])
    refine ih (hs.fire hp hfirst hfire) (hp.fire hfire) fun earlier j st later he hst => ?_
    have hrest := hlabels (label.toList ++ earlier) j st later (by simp [he]) hst
    rw [replay_append, ← hfire.status_eq] at hrest
    exact hrest

end Counting

variable {x : Setup}

def snapshotOf (x : Setup) (f : Frontier) : LedgerSnapshot :=
  x.topo.order.foldl (fun snapshot id =>
    match f.statuses id with
    | some status => snapshot.insert id status
    | none => snapshot) .new

/-- Resuming from the finished statuses of a frontier gives the same statuses,
counters and offers. -/
structure Rederived (x : Setup) (f : Frontier) : Prop where
  statuses : (resume x.topo.order x.graph (snapshotOf x f) x.budget).statuses = f.statuses
  pendingUpstream :
    (resume x.topo.order x.graph (snapshotOf x f) x.budget).pendingUpstream = f.pendingUpstream
  /-- Same ready frontier, as a set. -/
  readyFrontier : ∀ id,
    id ∈ (resume x.topo.order x.graph (snapshotOf x f) x.budget).readyFrontier ↔
      id ∈ f.readyFrontier

theorem snapshotOf_statuses (f : Frontier) {id : JobId} (hid : id ∈ x.topo.order) :
    (snapshotOf x f).statuses id =
      if terminal (f.statuses id) = true then f.statuses id else none := by
  have hfold : ∀ (ids : List JobId) (snapshot : LedgerSnapshot), (ids.foldl (fun snapshot id =>
        match f.statuses id with
        | some status => snapshot.insert id status
        | none => snapshot) snapshot).statuses id =
      if id ∈ ids ∧ terminal (f.statuses id) = true then f.statuses id
      else snapshot.statuses id := by
    intro ids
    induction ids with
    | nil => simp
    | cons k ids ih =>
      intro snapshot
      rw [List.foldl_cons, ih]
      by_cases hk : id = k
      · subst hk
        cases hst : f.statuses id with
        | none => simp
        | some st =>
          cases hterm : st.isTerminal <;> simp [LedgerSnapshot.insert, hterm]
      · cases hst : f.statuses k with
        | none => simp [hk]
        | some st =>
          cases hterm : st.isTerminal <;> simp [LedgerSnapshot.insert, hterm, hk]
  unfold snapshotOf
  rw [hfold]
  simp [hid, LedgerSnapshot.new]

theorem rederived_of_exact {f : Frontier}
    (hknown : ∀ id, (f.statuses id).isSome ↔ id ∈ x.topo.order)
    (hshape : ∀ id ∈ x.topo.order, f.statuses id = some .pending ∨ terminal (f.statuses id) = true)
    (hcount : ∀ k, f.pendingUpstream k =
      if k ∈ x.topo.order then some (unsat (wiring x.topo) f.statuses k) else none)
    (hfront : ReadyExact f) : Rederived x f := by
  have hstatuses :
      (resume x.topo.order x.graph (snapshotOf x f) x.budget).statuses = f.statuses := by
    funext id
    by_cases hid : id ∈ x.topo.order
    · simp only [resume, hid, if_true, adopted, snapshotOf_statuses f hid]
      obtain hp | hterm := hshape id hid
      · simp [hp, JobLifecycle.isTerminal]
      · obtain ⟨st, hst⟩ := Option.isSome_iff_exists.mp ((hknown id).mpr hid)
        rw [hst] at hterm ⊢
        have hterm : st.isTerminal = true := hterm
        simp [hterm]
    · have hnone : f.statuses id = none := by
        rw [← Option.not_isSome_iff_eq_none, hknown]
        exact hid
      simp [resume, hid, hnone]
  have hcounts : (resume x.topo.order x.graph (snapshotOf x f) x.budget).pendingUpstream =
      f.pendingUpstream := by
    funext id
    have hresumed : (resume x.topo.order x.graph (snapshotOf x f) x.budget).pendingUpstream id =
        if id ∈ x.topo.order then some (unsatisfiedUpstream x.graph
          (resume x.topo.order x.graph (snapshotOf x f) x.budget).statuses id) else none := rfl
    rw [hresumed, hstatuses, hcount id]
    rfl
  have hresumed : ReadyExact (resume x.topo.order x.graph (snapshotOf x f) x.budget) :=
    base_readyExact x.topo { x.config with resumeSnapshot := some (snapshotOf x f) } x.budget
  refine ⟨hstatuses, hcounts, fun id => ?_⟩
  rw [hresumed id, hfront id, hstatuses, hcounts]

theorem initial_allCounted (hcounts : CountsTrue (wiring x.topo) (adoptedStatuses x)
    (writes (initial x).frontier.log)) :
    AllCounted (wiring x.topo) (loopNet (initial x) ∅ false) := by
  have hfold : ∀ (ids : List JobId) (f : Frontier),
      (∀ id, (f.statuses id).isSome ↔ id ∈ x.topo.order) →
      (∀ k, f.pendingUpstream k =
        if k ∈ x.topo.order then some (unsat (wiring x.topo) f.statuses k) else none) →
      CountsTrue (wiring x.topo) f.statuses
        ((ids.filter fun id => id ∈ x.topo.order).map fun id => (id, .skipped)) →
      ∀ k, (ids.foldl (premark x.graph) f).pendingUpstream k =
        if k ∈ x.topo.order then
          some (unsat (wiring x.topo) (ids.foldl (premark x.graph) f).statuses k) else none := by
    intro ids
    induction ids with
    | nil => exact fun f _ hf _ => hf
    | cons id ids ih =>
      intro f hknown hf hcounts
      by_cases hid : id ∈ x.topo.order
      · have hmark : premark x.graph f id =
            ((f.setStatus id .skipped).withdraw id).promoteDownstream x.graph id := by
          rw [premark, if_pos ((hknown id).mpr hid)]
        have hstatuses : (premark x.graph f id).statuses =
            Function.update f.statuses id (some .skipped) := by
          rw [hmark, promoteDownstream_statuses, withdraw_statuses, setStatus_statuses]
        rw [List.filter_cons_of_pos (by simpa using hid), List.map_cons] at hcounts
        rw [List.foldl_cons]
        refine ih _ (fun j => ?_) (fun k => ?_) fun earlier j st later he hst => ?_
        · rw [hstatuses]
          by_cases hj : j = id
          · subst hj; simp [hid]
          · rw [update_of_ne hj]; exact hknown j
        · rw [hstatuses, hmark, promoteDownstream_pendingUpstream]
          exact counted_satisfy hf hid rfl (hcounts [] id .skipped _ rfl rfl) k
        · rw [hstatuses]
          exact hcounts ((id, .skipped) :: earlier) j st later (by simp [he]) hst
      · have hmark : premark x.graph f id = f := by
          rw [premark, if_neg fun h => hid ((hknown id).mp h)]
        rw [List.filter_cons_of_neg (by simpa using hid)] at hcounts
        rw [List.foldl_cons, hmark]
        exact ih f hknown hf hcounts
  have hbase : ∀ k, (base x.topo.order x.graph x.config x.budget).pendingUpstream k =
      if k ∈ x.topo.order then some (unsat (wiring x.topo)
        (base x.topo.order x.graph x.config x.budget).statuses k) else none := by
    intro k
    by_cases hk : k ∈ x.topo.order
    · rw [if_pos hk]
      exact base_pendingUpstream x.topo x.config x.budget hk
    · rw [if_neg hk]
      unfold base
      split <;> simp [resume, new, hk]
  rw [(initial_writes x).1] at hcounts
  exact hfold x.config.skipJobs
    { base x.topo.order x.graph x.config x.budget with
      forceRerun := x.config.forceRerun.foldl (fun set id => set.insert id) [] }
    (base_statuses_isSome x.topo.order x.config x.budget) hbase hcounts

theorem stopping_of_closed {W : Wiring JobId} {D : Discipline JobId} {s t : Net JobId}
    {labels : List (JobId × JobLifecycle)} (h : Run (Fire W D) s labels t)
    (hs : s.closed = true → s.stopping = true) : t.closed = true → t.stopping = true := by
  refine h.invariant (fun m => m.closed = true → m.stopping = true) ?_ hs
  intro m label n hm hfire
  cases hfire <;> simp_all [write, promoted]

theorem initial_exact (h : AllCounted (wiring x.topo) (loopNet (initial x) ∅ false)) :
    Sound (wiring x.topo) True (loopNet (initial x) ∅ false) := by
  have hsound : Sound (wiring x.topo) False (loopNet (initial x) ∅ false) :=
    initial_sound x False.elim
  refine ⟨hsound.placed, hsound.offered, hsound.released, fun j hj => ?_⟩
  have hnode : j ∈ (wiring x.topo).nodes := (hsound.placed.known j).mp (by
    cases hst : (loopNet (initial x) ∅ false).status j with
    | none => rw [hst] at hj; cases hj
    | some => rfl)
  exact ⟨_, by rw [h j, if_pos hnode], le_refl _, fun _ => rfl⟩

/-- The resume oracle: in every run that satisfies each job while its downstream
jobs are pending, a state with nothing in flight, no job parked or left ready,
and no job cancelled on return is rederived from its finished statuses. -/
theorem resume_rederives {p : Point} (h : Reachable x .free p)
    (hcounts : CountsTrue (wiring x.topo) (adoptedStatuses x) (writes p.state.frontier.log))
    (hflight : p.state.inFlight = []) (hpeers : p.state.peerWaits = [])
    (hready : ∀ id ∈ x.topo.order, p.state.frontier.statuses id ≠ some .ready)
    (hopen : ∀ s, p = .returned s → s.terminateRequested = false) :
    Rederived x p.state.frontier := by
  obtain ⟨closed, obs, hlinked⟩ := reachable_linked (obeys_freely x .free) h
  have hwrites : writes p.state.frontier.log =
      writes (initial x).frontier.log ++ writes obs := by
    rw [hlinked.log, writes_append]
  rw [hwrites] at hcounts
  have hstart : CountsTrue (wiring x.topo) (adoptedStatuses x) (writes (initial x).frontier.log) :=
    fun earlier j st later he => hcounts earlier j st (later ++ writes obs) (by simp [he])
  have hrest : CountsTrue (wiring x.topo) (initial x).frontier.statuses (writes obs) := by
    intro earlier j st later he hst
    rw [(initial_writes x).2, ← replay_append]
    exact hcounts _ j st later (by simp [he]) hst
  have hinit := initial_allCounted hstart
  have hcounted : AllCounted (wiring x.topo) (loopNet p.state ∅ closed) :=
    hinit.run (initial_placed x) hrest hlinked.run
  have hsound := (initial_exact hinit).run hlinked.run
  have htidy := (initial_tidy x).run (initial_exact hinit) hlinked.run
  have hclosed : closed = false := by
    cases hc : closed with
    | false => rfl
    | true =>
      have hstop : p.state.terminateRequested = true :=
        stopping_of_closed hlinked.run (fun h => by cases h) hc
      cases p with
      | returned s => rw [Point.state, hopen s rfl] at hstop; cases hstop
      | head | waiting | aborted => rw [hlinked.isOpen (by simp)] at hc; cases hc
  refine rederived_of_exact hsound.placed.known (fun id hid => ?_) hcounted fun id => ?_
  · obtain ⟨st, hst⟩ := Option.isSome_iff_exists.mp ((hsound.placed.known id).mpr hid)
    have hst : p.state.frontier.statuses id = some st := hst
    cases st with
    | pending => exact .inl hst
    | ready => exact absurd hst (hready id hid)
    | running =>
      have hfly : id ∈ p.state.inFlight := hsound.placed.running id hst
      rw [hflight] at hfly
      cases hfly
    | succeeded | failed | skipped | cancelled => exact .inr (by rw [hst]; rfl)
  · constructor
    · intro hid
      have hpending : p.state.frontier.statuses id = some .pending := htidy.front hclosed id hid
      exact ⟨hpending, hsound.released id (by
        change unfinished (p.state.frontier.statuses id) = true
        rw [hpending]; rfl) (.inl (.inl hid))⟩
    · rintro ⟨hpending, hzero⟩
      obtain h | h | h := hsound.offered id hpending hzero
      · exact h
      · exact h.elim
      · have hparked : id ∈ p.state.peerWaits.map Prod.fst := h
        rw [hpeers] at hparked
        cases hparked

/-- The chain with a list of jobs to skip. -/
def chain (skipJobs : List JobId) (skipNodup : skipJobs.Nodup) : Setup :=
  .plain chainGraph chainOrder (skipping skipJobs skipNodup)

def firstSucceeds : Completion.CompletionMsg where
  job := fileJob "a" [] ["a.txt"]
  result := ⟨0, 0, none, none, none⟩
  outputsChanged := true
  now := 0

def halfway (skipJobs : List JobId) (skipNodup : skipJobs.Nodup) : LoopState :=
  consume (chain skipJobs skipNodup) firstSucceeds (joinTask (chain skipJobs skipNodup) "a"
    (pass (chain skipJobs skipNodup) .plain (initial (chain skipJobs skipNodup))).state)

theorem reachable_halfway {skipJobs : List JobId} {skipNodup : skipJobs.Nodup}
    (hstart : refusedOverride (chain skipJobs skipNodup) = none)
    (hlaunched : "a" ∈ (pass (chain skipJobs skipNodup) .plain
      (initial (chain skipJobs skipNodup))).state.inFlight) :
    Reachable (chain skipJobs skipNodup) .free (.head (halfway skipJobs skipNodup)) := by
  have hpass : Reachable (chain skipJobs skipNodup) .free
      (pass (chain skipJobs skipNodup) .plain (initial (chain skipJobs skipNodup))) :=
    .pass (.start hstart) trivial
  obtain ⟨skipped, hwaiting⟩ := pass_waiting (chain skipJobs skipNodup) .plain
    (List.ne_nil_of_mem hlaunched)
  rw [hwaiting] at hpass
  have hcompleted : await (chain skipJobs skipNodup) (pass (chain skipJobs skipNodup) .plain
      (initial (chain skipJobs skipNodup))).state skipped (.completed firstSucceeds) =
      some (.head (halfway skipJobs skipNodup)) := if_pos ⟨hlaunched, rfl⟩
  exact .await hpass trivial hcompleted

/-- With nothing skipped the second job is pending when the first succeeds. -/
theorem resume_rederives_halfway :
    (halfway [] (by decide)).frontier.pendingUpstream "b" = some 0 ∧
    Rederived (chain [] (by decide)) (halfway [] (by decide)).frontier := by
  have hwrites : writes (halfway [] (by decide)).frontier.log =
      [("a", .ready), ("a", .running), ("a", .succeeded)] := by decide
  refine ⟨by decide, resume_rederives (reachable_halfway rfl (by decide)) ?_ (by decide) (by decide)
    (by decide) (fun s h => by cases h)⟩
  intro earlier j st later he hst
  rw [Point.state, hwrites] at he
  obtain _ | ⟨_, _ | ⟨_, _ | ⟨_, earlier⟩⟩⟩ := earlier <;> simp at he
  · obtain ⟨⟨-, rfl⟩, -⟩ := he
    cases hst
  · obtain ⟨-, ⟨-, rfl⟩, -⟩ := he
    cases hst
  · obtain ⟨rfl, rfl, ⟨rfl, rfl⟩, -⟩ := he
    unfold CountedOnce
    decide

/-- A skipped downstream job keeps counting an upstream job that succeeded. -/
theorem not_rederived_skipped :
    Reachable (chain ["b"] (by decide)) .free (.head (halfway ["b"] (by decide))) ∧
    (halfway ["b"] (by decide)).inFlight = [] ∧
    ¬ Rederived (chain ["b"] (by decide)) (halfway ["b"] (by decide)).frontier := by
  refine ⟨reachable_halfway rfl (by decide), by decide, fun h => ?_⟩
  have hcount := congrFun h.pendingUpstream "b"
  exact absurd hcount (by decide)

end OxyMake.ResumeOracle
