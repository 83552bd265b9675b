import Mathlib.Data.List.Induction
import OxyMake.DependencySafety
import OxyMake.RunLog

/-!
# Finished jobs stay finished and only real successes are recorded

The loop never overwrites the status of a finished job, and completions that
arrive late are discarded. The pre-marking of the skip list looks at no status:
it overwrites the status of a job that the snapshot records as finished in
another way.
-/

namespace OxyMake.TerminalStatuses

open List Function
open PhysicalGraph Observation SchedulingFrontier Frontier Completion SchedulerLoop
open FrontierInitialisation LabelledRuns DependencyNet NetInvariants CompletionRefinement
open LoopRefinement DependencySafety RunLog

section Replay

variable {J : Type*} [DecidableEq J] {start : J → Option JobLifecycle}
  {ws ws' : List (J × JobLifecycle)}

/-- A write to a finished job repeats its status. -/
def Absorbing (start : J → Option JobLifecycle) (ws : List (J × JobLifecycle)) : Prop :=
  ∀ earlier id st later, ws = earlier ++ (id, st) :: later →
    terminal (replay start earlier id) = true → replay start earlier id = some st

theorem replay_append (start : J → Option JobLifecycle) (ws ws' : List (J × JobLifecycle)) :
    replay start (ws ++ ws') = replay (replay start ws) ws' := foldl_append

theorem replay_of_not_mem {id : J} (h : ∀ st, (id, st) ∉ ws) : replay start ws id = start id := by
  induction ws using List.reverseRecOn with
  | nil => rfl
  | append_singleton ws w ih =>
    rw [replay_append]
    change Function.update (replay start ws) w.1 (some w.2) id = start id
    have hne : id ≠ w.1 := fun he => h w.2 (by simp [he])
    rw [update_of_ne hne]
    exact ih fun st hst => h st (mem_append_left _ hst)

theorem Absorbing.append (h : Absorbing start ws) (h' : Absorbing (replay start ws) ws') :
    Absorbing start (ws ++ ws') := by
  intro earlier id st later he hterm
  obtain ⟨mid, hearlier, hmid⟩ | ⟨mid, hws, hmid⟩ := append_eq_append_iff.mp he
  · rw [hearlier, replay_append] at hterm ⊢
    exact h' mid id st later hmid hterm
  · cases mid with
    | nil =>
      rw [append_nil] at hws
      subst hws
      exact h' [] id st later (by simpa using hmid.symm) hterm
    | cons w mid =>
      obtain ⟨rfl, -⟩ := cons_eq_cons.mp hmid
      exact h earlier id st mid hws hterm

theorem Absorbing.final (h : Absorbing start ws) {id : J} {st : JobLifecycle}
    (hst : st.isTerminal = true) (hmem : (id, st) ∈ ws) : replay start ws id = some st := by
  induction ws using List.reverseRecOn with
  | nil => cases hmem
  | append_singleton ws w ih =>
    have hstart : Absorbing start ws := fun earlier id st later he =>
      h earlier id st (later ++ [w]) (by simp [he])
    rw [replay_append]
    change Function.update (replay start ws) w.1 (some w.2) id = some st
    obtain hold | hlast := mem_append.mp hmem
    · have hval := ih hstart hold
      by_cases he : id = w.1
      · have hsame := h ws w.1 w.2 [] rfl (by rw [← he, hval]; exact hst)
        rw [he, update_self, ← hsame, ← he, hval]
      · rw [update_of_ne he, hval]
    · rw [← mem_singleton.mp hlast, update_self]

end Replay

variable {x : Setup}

section Start

def adoptedStatuses (x : Setup) : JobId → Option JobLifecycle :=
  (base x.topo.order x.graph x.config x.budget).statuses

theorem initial_writes (x : Setup) :
    writes (initial x).frontier.log = (skippedPre x).map (fun id => (id, .skipped)) ∧
    (initial x).frontier.statuses =
      replay (adoptedStatuses x) (writes (initial x).frontier.log) := by
  have hbase : writes (base x.topo.order x.graph x.config x.budget).log = [] := by
    unfold base
    split <;> rfl
  have hfold : ∀ (ids : List JobId) (f : Frontier),
      (∀ id, (f.statuses id).isSome ↔ id ∈ x.topo.order) →
      writes (ids.foldl (premark x.graph) f).log = writes f.log ++
        ((ids.filter fun id => id ∈ x.topo.order).map fun id => (id, .skipped)) ∧
      (ids.foldl (premark x.graph) f).statuses = replay f.statuses
        ((ids.filter fun id => id ∈ x.topo.order).map fun id => (id, .skipped)) := by
    intro ids
    induction ids with
    | nil => exact fun f _ => ⟨by simp, rfl⟩
    | cons id ids ih =>
      intro f hf
      by_cases hid : id ∈ x.topo.order
      · have hmark : premark x.graph f id =
            ((f.setStatus id .skipped).withdraw id).promoteDownstream x.graph id := by
          rw [premark, if_pos ((hf id).mpr hid)]
        obtain ⟨hwrites, hstatuses⟩ := ih (premark x.graph f id) (by
          intro j
          rw [hmark, promoteDownstream_statuses, withdraw_statuses, setStatus_statuses]
          by_cases hj : j = id
          · subst hj; simp [hid]
          · rw [update_of_ne hj]; exact hf j)
        rw [foldl_cons, hwrites, hstatuses, hmark, promoteDownstream_log, withdraw_log,
          setStatus_log, promoteDownstream_statuses, withdraw_statuses, setStatus_statuses,
          filter_cons_of_pos (by simpa using hid)]
        exact ⟨by simp, rfl⟩
      · have hmark : premark x.graph f id = f := by
          rw [premark, if_neg fun h => hid ((hf id).mp h)]
        rw [foldl_cons, hmark, filter_cons_of_neg (by simpa using hid)]
        exact ih f hf
  obtain ⟨hwrites, hstatuses⟩ := hfold x.config.skipJobs
    { base x.topo.order x.graph x.config x.budget with
      forceRerun := x.config.forceRerun.foldl (fun set id => set.insert id) [] }
    (base_statuses_isSome x.topo.order x.config x.budget)
  have hall : writes (initial x).frontier.log = (skippedPre x).map fun id => (id, .skipped) := by
    have hplan : writes ((planEvents x).map Obs.event) = [] :=
      filterMap_eq_nil_iff.mpr fun o ho => by
        obtain ⟨_, -, rfl⟩ := mem_map.mp ho
        rfl
    change writes ((init x.topo.order x.graph x.config x.budget).log ++ _) = _
    rw [writes_append, hplan, append_nil]
    exact hwrites.trans (by rw [hbase]; rfl)
  exact ⟨hall, by rw [hall]; exact hstatuses⟩

/-- Skip-listed jobs that the snapshot records as finished are recorded as skipped. -/
def SkipsKeepStatus (x : Setup) : Prop :=
  ∀ snapshot, x.config.resumeSnapshot = some snapshot → ∀ id ∈ x.config.skipJobs,
    id ∈ x.topo.order → terminal (snapshot.statuses id) = true →
      snapshot.statuses id = some .skipped

theorem skipsKeepStatus_iff : SkipsKeepStatus x ↔ ∀ id ∈ skippedPre x,
    terminal (adoptedStatuses x id) = true → adoptedStatuses x id = some .skipped := by
  have hmem : ∀ id, id ∈ skippedPre x ↔ id ∈ x.config.skipJobs ∧ id ∈ x.topo.order := fun id => by
    simp [skippedPre]
  unfold SkipsKeepStatus
  cases hsnap : x.config.resumeSnapshot with
  | none =>
    refine ⟨fun _ id hid hterm => ?_, fun _ snapshot h => by cases h⟩
    have hst : adoptedStatuses x id = some .pending := by
      simp [adoptedStatuses, base, hsnap, new, ((hmem id).mp hid).2]
    rw [hst] at hterm
    cases hterm
  | some snapshot =>
    have hadopted : ∀ id ∈ x.topo.order,
        (terminal (adoptedStatuses x id) = true ↔ terminal (snapshot.statuses id) = true) ∧
        (terminal (snapshot.statuses id) = true →
          adoptedStatuses x id = snapshot.statuses id) := by
      intro id hid
      have hst : adoptedStatuses x id = some (adopted snapshot id) := by
        simp [adoptedStatuses, base, hsnap, resume, hid]
      rw [hst, adopted]
      cases hrec : snapshot.statuses id with
      | none => simp [JobLifecycle.isTerminal]
      | some st => cases st <;> simp [JobLifecycle.isTerminal]
    constructor
    · intro h id hid hterm
      obtain ⟨hskip, hin⟩ := (hmem id).mp hid
      obtain ⟨hiff, hsame⟩ := hadopted id hin
      rw [hsame (hiff.mp hterm)]
      exact h snapshot rfl id hskip hin (hiff.mp hterm)
    · rintro h snapshot' hs id hskip hin hterm
      cases hs
      obtain ⟨hiff, hsame⟩ := hadopted id hin
      rw [← hsame hterm]
      exact h id ((hmem id).mpr ⟨hskip, hin⟩) (hiff.mpr hterm)

theorem initial_absorbing_iff :
    Absorbing (adoptedStatuses x) (writes (initial x).frontier.log) ↔ SkipsKeepStatus x := by
  have hnodup : ((skippedPre x).map fun id => (id, JobLifecycle.skipped)).Nodup :=
    (x.config.skipNodup.filter _).map fun _ _ h => (Prod.mk.inj h).1
  -- Each job is written once, so that it still has its adopted status then.
  have hfirst : ∀ {earlier later : List (JobId × JobLifecycle)} {id : JobId} {st : JobLifecycle},
      (skippedPre x).map (fun id => (id, JobLifecycle.skipped)) = earlier ++ (id, st) :: later →
      replay (adoptedStatuses x) earlier id = adoptedStatuses x id := by
    intro earlier later id st he
    have hskipped : ∀ w ∈ earlier ++ (id, st) :: later, w.2 = .skipped := by
      intro w hw
      rw [← he] at hw
      obtain ⟨j, -, rfl⟩ := mem_map.mp hw
      rfl
    refine replay_of_not_mem fun st' hst' => ?_
    rw [he] at hnodup
    have h1 : st' = .skipped := hskipped (id, st') (mem_append_left _ hst')
    have h2 : st = .skipped := hskipped (id, st) (by simp)
    exact (nodup_append.mp hnodup).2.2 _ hst' (id, st) (by simp) (by rw [h1, h2])
  rw [(initial_writes x).1, skipsKeepStatus_iff]
  constructor
  · intro h id hid hterm
    obtain ⟨earlier, later, he⟩ := append_of_mem
      (mem_map_of_mem (f := fun id => (id, JobLifecycle.skipped)) hid)
    have hval := hfirst he
    have hsame := h earlier id .skipped later he (by rw [hval]; exact hterm)
    rw [← hval, hsame]
  · intro h earlier id st later he hterm
    have hval := hfirst he
    have hin : (id, st) ∈ (skippedPre x).map fun id => (id, JobLifecycle.skipped) := by
      rw [he]
      simp
    obtain ⟨j, hj, hpair⟩ := mem_map.mp hin
    cases hpair
    rw [hval] at hterm ⊢
    exact h id hj hterm

end Start

section Recorded

theorem block_recorded {strict : Prop} {block : List Obs} (h : Block x strict block)
    {earlier later : List Obs} {id : JobId} (he : block = earlier ++ .recorded id :: later) :
    ∃ since, earlier = .delivered id 0 :: since ∧ (∀ id' code, .delivered id' code ∉ since) ∧
      (id, .succeeded) ∈ writes since := by
  have hmem : .recorded id ∈ block := by rw [he]; simp
  have hroutine : ∀ {mid : List Obs} {id : JobId}, (∀ o ∈ mid, routine o = true) →
      .recorded id ∉ mid := fun hmid hin => Bool.noConfusion (hmid _ hin)
  cases h with
  | quiet hmid => exact absurd hmem (hroutine hmid)
  | completion hmid => simp [hroutine hmid] at hmem
  | @recorded id' mid hmid hwritten =>
    have hfresh : .recorded id ∉ Obs.delivered id' 0 :: mid := by simp [hroutine hmid]
    obtain ⟨rfl, hid, -⟩ := eq_of_append_last he.symm hfresh
    cases hid
    exact ⟨mid, rfl, fun id' code hin => Bool.noConfusion (hmid _ hin), hwritten⟩
  | attempt hchecks hmid =>
    simp only [cons_append, mem_cons, reduceCtorEq, mem_append, hroutine hmid,
      or_false, false_or] at hmem
    obtain ⟨hit, h⟩ | ⟨outcome, h⟩ := hchecks _ hmem <;> cases h
  | launch hchecks hmid _ _ =>
    simp only [cons_append, mem_cons, reduceCtorEq, mem_append, hroutine hmid,
      or_false, false_or, not_mem_nil] at hmem
    obtain ⟨hit, h⟩ | ⟨outcome, h⟩ := hchecks _ hmem <;> cases h

end Recorded

section Runs

/-- Statuses, counters, offers, retries and forced jobs are the same. -/
structure Untouched (f f' : Frontier) : Prop where
  statuses : f'.statuses = f.statuses
  pendingUpstream : f'.pendingUpstream = f.pendingUpstream
  readyFrontier : f'.readyFrontier = f.readyFrontier
  retryCounts : f'.retryCounts = f.retryCounts
  retryReadyAt : f'.retryReadyAt = f.retryReadyAt
  forceRerun : f'.forceRerun = f.forceRerun

/-- Finished jobs are absorbing up to a point of a run, late completions change
nothing there, and the cache records so far belong to real successes. -/
structure Settled (x : Setup) (p : Point) : Prop where
  /-- The status map is the replay of every write since the frontier was built. -/
  statuses : p.state.frontier.statuses =
    replay (adoptedStatuses x) (writes p.state.frontier.log)
  /-- A write to a finished job repeats its status. -/
  absorbing : Absorbing (adoptedStatuses x) (writes p.state.frontier.log)
  /-- A completion of a finished job is only noted. -/
  late : ∀ s skipped msg q, p = .waiting s skipped →
    await x s skipped (.completed msg) = some q →
    terminal (s.frontier.statuses msg.job.id) = true →
      ∃ s', q = .head s' ∧ Untouched s.frontier s'.frontier ∧
        s'.terminateRequested = s.terminateRequested ∧
        s'.frontier.log = s.frontier.log ++ [.delivered msg.job.id msg.result.exitCode]
  /-- The outcome of a peer session for a finished job is dropped. -/
  latePeer : ∀ a flag id, terminal (p.state.frontier.statuses id) = true →
    (pollPeer x a (p.state, flag) id).1.frontier = p.state.frontier
  /-- A cache record follows a delivered success and the job is still succeeded. -/
  recorded : ∀ earlier id later, p.state.frontier.log = earlier ++ .recorded id :: later →
    (∃ before since, earlier = before ++ .delivered id 0 :: since ∧
      (∀ id' code, .delivered id' code ∉ since) ∧ (id, .succeeded) ∈ writes since) ∧
    p.state.frontier.statuses id = some .succeeded

theorem run_absorbing {W : Wiring JobId} {D : Discipline JobId} {s t : Net JobId}
    {labels : List (JobId × JobLifecycle)} (h : Run (Fire W D) s labels t) (hs : Placed W s) :
    Absorbing s.status labels := by
  rintro earlier id st later rfl hterm
  obtain ⟨m, n, hbefore, hwrite, -⟩ := h.split_at
  have hm : Placed W m := hbefore.invariant (Placed W) (fun _ _ _ hs hfire => hs.fire hfire) hs
  rw [← status_of_run hbefore] at hterm ⊢
  exact hm.absorbing hwrite hterm

theorem consume_cancelled {s : LoopState} {msg : CompletionMsg}
    (hcancelled : s.frontier.statuses msg.job.id = some .cancelled) :
    consume x msg s = { s with
      frontier := s.frontier.note [.delivered msg.job.id msg.result.exitCode] } := by
  have hst : (s.frontier.note [.delivered msg.job.id msg.result.exitCode]).getStatus msg.job.id =
      some .cancelled := hcancelled
  have hhandled : handleCompletion x.policy msg s.terminateRequested
      (s.frontier.note [.delivered msg.job.id msg.result.exitCode]) =
      ⟨s.frontier.note [.delivered msg.job.id msg.result.exitCode], s.terminateRequested, false⟩ := by
    rw [handleCompletion, if_pos hst]
  simp only [consume, hhandled, Bool.false_and, Bool.false_eq_true, if_false]

/-- Every point of every run is settled exactly when no skip-listed job is
recorded as finished in another way than skipped. -/
theorem reachable_settled_iff (hstart : refusedOverride x = none) :
    (∀ p, Reachable x .free p → Settled x p) ↔ SkipsKeepStatus x := by
  refine ⟨fun h => initial_absorbing_iff.mp (h _ (.start hstart)).absorbing, fun hskips p h => ?_⟩
  obtain ⟨closed, obs, hlinked⟩ := reachable_linked (obeys_freely x .free) h
  have hinit := (initial_writes x).2
  have hwrites : writes p.state.frontier.log =
      writes (initial x).frontier.log ++ writes obs := by
    rw [hlinked.log, writes_append]
  have hstatuses : p.state.frontier.statuses =
      replay (adoptedStatuses x) (writes p.state.frontier.log) := by
    rw [hwrites, replay_append, ← hinit]
    exact status_of_run hlinked.run
  have habsorbing : Absorbing (adoptedStatuses x) (writes p.state.frontier.log) := by
    rw [hwrites]
    refine (initial_absorbing_iff.mpr hskips).append ?_
    rw [← hinit]
    exact run_absorbing hlinked.run (initial_placed x)
  have hplaced : Placed (wiring x.topo) (loopNet p.state ∅ closed) :=
    hlinked.run.invariant (Placed (wiring x.topo)) (fun _ _ _ hs hfire => hs.fire hfire)
      (initial_placed x)
  refine ⟨hstatuses, habsorbing, ?_, ?_, ?_⟩
  · rintro s skipped msg q rfl hq hterm
    cases await_cases x hq with
    | completed hflight _ =>
      have hcancelled : s.frontier.statuses msg.job.id = some .cancelled := by
        refine (hplaced.flying msg.job.id hflight).resolve_left fun hrunning => ?_
        have hst : s.frontier.statuses msg.job.id = some .running := hrunning
        rw [hst] at hterm
        cases hterm
      refine ⟨_, rfl, ?_⟩
      rw [consume_cancelled (s := joinTask x msg.job.id s) hcancelled]
      exact ⟨⟨rfl, rfl, rfl, rfl, rfl, rfl⟩, rfl, rfl⟩
  · intro a flag id hterm
    have hne : p.state.frontier.getStatus id ≠ some .pending := by
      intro hp
      have hst : p.state.frontier.statuses id = some .pending := hp
      rw [hst] at hterm
      cases hterm
    rw [pollPeer, if_pos hne]
    rfl
  · intro earlier id later he
    have hblocks : Blocks x False p.state.frontier.log := reachable_blocks False.elim h
    obtain ⟨before, _, _, _, hblock, hearlier, hmid⟩ := hblocks.locate he
    obtain ⟨since, rfl, hdelivered, hsucceeded⟩ := block_recorded hblock hmid
    refine ⟨⟨before, since, hearlier, hdelivered, hsucceeded⟩, ?_⟩
    rw [hstatuses]
    refine habsorbing.final rfl ?_
    rw [he, hearlier, writes_append, writes_append]
    exact mem_append_left _ (mem_append_right _ hsucceeded)

/-- A run without a snapshot settles at every point, the first one included. -/
theorem reachable_settled_chain :
    Reachable skippedChain .free (.head (initial skippedChain)) ∧
      ∀ p, Reachable skippedChain .free p → Settled skippedChain p :=
  ⟨.start rfl, (reachable_settled_iff rfl).mpr fun _ h => by cases h⟩

/-- The join graph resumed with its first job both succeeded and skip-listed. -/
def overlapping : Setup := .plain joinGraph joinOrder overlapConfig

/-- The run starts by turning a succeeded job into a skipped one. -/
theorem not_settled_overlapping : refusedOverride overlapping = none ∧
    Reachable overlapping .free (.head (initial overlapping)) ∧
    adoptedStatuses overlapping "a" = some .succeeded ∧
    (initial overlapping).frontier.statuses "a" = some .skipped ∧
    ¬ Settled overlapping (.head (initial overlapping)) := by
  refine ⟨rfl, .start rfl, by decide, by decide, fun h => ?_⟩
  have hsame := h.absorbing [] "a" .skipped [] (by decide) (by decide)
  exact absurd hsame (by decide)

end Runs

end OxyMake.TerminalStatuses
