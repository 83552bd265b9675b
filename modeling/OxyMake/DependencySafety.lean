import OxyMake.LoopRefinement

/-!
# No job starts before its upstream jobs are satisfied

A run without a snapshot starts with exact counters. Whenever it writes the
status running, every upstream job is succeeded or skipped at that moment and
keeps that status.
-/

namespace OxyMake.DependencySafety

open PhysicalGraph Observation SchedulingFrontier SchedulerLoop FrontierInitialisation LabelledRuns
open DependencyNet NetInvariants CompletionRefinement LoopRefinement

variable {x : Setup}

def freely : Discipline JobId := ⟨True, True, True, fun _ _ => True, fun _ _ _ => True⟩

theorem obeys_freely (x : Setup) (c : Conduct) : Obeys x c freely :=
  ⟨fun _ => trivial, fun _ => trivial, fun _ => trivial, fun _ _ _ => trivial,
    fun _ _ _ _ _ => trivial, fun _ _ _ _ _ => trivial, fun _ _ => trivial⟩

theorem skipsCountOnce_of_fresh {order : List JobId} {g : JobGraph} {config : SchedulerConfig}
    (hfresh : config.resumeSnapshot = none) : SkipsCountOnce order g config := by
  intro id _ _ _
  left
  intro up _ _
  simp [recordedSatisfied, hfresh]

theorem reachable_run {c : Conduct} {p : Point} (h : Reachable x c p) {obs : List Obs}
    (hlog : p.state.frontier.log = (initial x).frontier.log ++ obs) :
    ∃ closed, Run (Fire (wiring x.topo) freely) (loopNet (initial x) ∅ false) (writes obs)
      (loopNet p.state ∅ closed) := by
  obtain ⟨closed, obs', hlinked⟩ := reachable_linked (obeys_freely x c) h
  have hsame : obs' = obs := List.append_cancel_left (hlinked.log.symm.trans hlog)
  exact ⟨closed, hsame ▸ hlinked.run⟩

theorem status_of_run {W : Wiring JobId} {D : Discipline JobId} {s t : Net JobId}
    {labels : List (JobId × JobLifecycle)} (h : Run (Fire W D) s labels t) :
    t.status = replay s.status labels :=
  h.replay_eq fun _ _ _ hfire => hfire.status_eq

/-- Dependency safety of a run without a snapshot: the status map is the replay
of the logged writes, and at each write of running every upstream job is
succeeded or skipped and keeps its status in every later state. -/
theorem running_after_upstream (hfresh : x.config.resumeSnapshot = none) {p : Point}
    (h : Reachable x .free p) (obs : List Obs)
    (hlog : p.state.frontier.log = (initial x).frontier.log ++ obs) :
    p.state.frontier.statuses = replay (initial x).frontier.statuses (writes obs) ∧
    ∀ earlier id later, writes obs = earlier ++ (id, .running) :: later →
      ∀ up ∈ x.graph.upstream id,
        satisfied (replay (initial x).frontier.statuses earlier up) = true ∧
        ∀ k, replay (initial x).frontier.statuses (earlier ++ (id, .running) :: later.take k) up =
          replay (initial x).frontier.statuses earlier up := by
  obtain ⟨_, hrun⟩ := reachable_run h hlog
  have hsound : Sound (wiring x.topo) True (loopNet (initial x) ∅ false) :=
    initial_sound x fun _ => skipsCountOnce_of_fresh hfresh
  refine ⟨status_of_run hrun, ?_⟩
  intro earlier id later hwrites up hup
  rw [hwrites] at hrun
  obtain ⟨m, n, hbefore, hlaunch, hafter⟩ := hrun.split_at
  have hm := hsound.run hbefore
  have hstatus : m.status = replay (initial x).frontier.statuses earlier := status_of_run hbefore
  have hsat := hm.launch_satisfied hlaunch up hup
  refine ⟨hstatus ▸ hsat, fun k => ?_⟩
  rw [← List.take_append_drop k later] at hafter
  obtain ⟨t, htake, -⟩ := hafter.split
  have hterm := terminal_of_satisfied hsat
  have hstep := hm.placed.terminal_fire hlaunch hterm
  have hrest := (hm.placed.fire hlaunch).terminal_run htake (hstep ▸ hterm)
  have htotal : Run (Fire (wiring x.topo) freely) (loopNet (initial x) ∅ false)
      (earlier ++ (id, .running) :: later.take k) t :=
    hbefore.trans (.cons hlaunch htake)
  rw [← hstatus]
  exact (congrFun (status_of_run htotal) up).symm.trans (hrest.trans hstep)

theorem nodup_chainJobs : ([fileJob "a" [] ["a.txt"], fileJob "b" ["a.txt"] ["b.txt"]].map
    ConcreteJob.id).Nodup := by decide

/-- Two jobs, the second consuming the output of the first. -/
def chainGraph : JobGraph where
  jobs := [fileJob "a" [] ["a.txt"], fileJob "b" ["a.txt"] ["b.txt"]]
  skipped := []
  gates := []
  idsNodup := nodup_chainJobs

theorem nodup_chainIds : (["a", "b"] : List JobId).Nodup := by decide

def chainOrder : TopologicalOrder chainGraph :=
  .ofPrefixes ["a", "b"] nodup_chainIds (by decide) (by decide)

/-- A configuration with one slot and a list of jobs to skip. -/
def skipping (skipJobs : List JobId) (skipNodup : skipJobs.Nodup) : SchedulerConfig where
  maxJobs := 1
  keepGoing := false
  skipJobs := skipJobs
  skipNodup := skipNodup
  notSelected := []
  forceRerun := []
  runReasons := fun _ => none
  rootCauseThreshold := 3
  resumeSnapshot := none

def skippedChain : Setup := .plain chainGraph chainOrder (skipping ["a"] (List.nodup_singleton "a"))

/-- The first iteration launches the second job behind the skipped one. -/
theorem running_after_upstream_chain :
    satisfied (replay (initial skippedChain).frontier.statuses [("b", .ready)] "a") = true :=
  ((running_after_upstream (x := skippedChain) rfl (.pass (a := .plain) (.start rfl) trivial)
    ((pass skippedChain .plain (initial skippedChain)).state.frontier.log.drop 5)
    (by decide)).2 [("b", .ready)] "b" [] (by decide) "a" (by decide)).1

end OxyMake.DependencySafety
