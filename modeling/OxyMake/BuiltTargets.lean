import OxyMake.Confluence
import OxyMake.FinalAccounting
import OxyMake.ResolvedRuns

/-!
# Targets of a run

A run over the graph of a resolution that returns without failed or cancelled jobs has
made every target that is no source. When a fresh run that keeps going is disturbed by
nothing but failing commands, a target that is not made has a cause: a failed job that
makes it, or one that a chain of dependencies leads back to.
-/

namespace OxyMake.BuiltTargets

open List
open PhysicalGraph Observation SchedulerLoop FinalAccounting Confluence NoStuckRun PathIdentity
open ResolvedRuns
open Wildcard (Text)
open RuleInstances (Rule)
open Resolver (Environment ResolveRequest ResolveResult resolveWithSourceFallbackAt)

variable {Body Rendered Path : Type} [DecidableEq Path]
  {view : Resolver.ConcreteJob Rendered → ConcreteJob} {x : Setup} {s : LoopState}

/-! ### The jobs of the targets -/

omit [DecidableEq Path] in
theorem mem_order_of_mem_jobs {result : ResolveResult Rendered Path}
    (hbuild : JobGraph.build (result.jobs.map view) = .ok x.graph)
    {job : Resolver.ConcreteJob Rendered} (hjob : job ∈ result.jobs) :
    (view job).id ∈ x.topo.order := by
  obtain ⟨hjobs, hskipped, -⟩ := accepted_of_build hbuild
  refine (x.topo.mem_iff _).mpr (mem_jobIds.mpr ⟨?_, ?_⟩)
  · rw [hjobs]
    exact mem_map_of_mem (mem_map_of_mem hjob)
  · unfold JobGraph.isSkipped
    rw [hskipped]
    rfl

theorem exists_maker {env : Environment Body Rendered Path} {rules : List (Rule Body)}
    {request : ResolveRequest Path} {result : ResolveResult Rendered Path}
    (h : resolveWithSourceFallbackAt env rules request = .ok result)
    (hbuild : JobGraph.build (result.jobs.map view) = .ok x.graph) {target : Text}
    (htarget : target ∈ request.targets) :
    env.pathBuf target ∈ result.sources ∨ ∃ maker ∈ result.jobs, target ∈ maker.outputPaths ∧
      (view maker).id ∈ x.topo.order := by
  obtain ⟨_, hclosed⟩ := closed_of_resolution h
  refine (hclosed.targets_made target htarget).imp_right ?_
  rintro ⟨maker, hmaker, hmade⟩
  exact ⟨maker, hmaker, hmade, mem_order_of_mem_jobs hbuild hmaker⟩

/-! ### Runs without failures -/

theorem satisfied_of_counts {c : Conduct} (hreach : Reachable x c (.returned s))
    (hfailed : (schedulerResult x s).failed = 0)
    (hcancelled : (schedulerResult x s).cancelled = 0) {id : JobId} (hid : id ∈ x.topo.order) :
    satisfied (s.frontier.statuses id) = true := by
  have hnot : ∀ holds : JobLifecycle → Bool, countStatus x s holds = 0 →
      (s.frontier.statuses id).any holds = false := by
    intro holds hzero
    exact Bool.eq_false_of_not_eq_true (countP_eq_zero.mp hzero id hid)
  have hfail := hnot _ hfailed
  have hcancel := hnot _ hcancelled
  have hterminal : terminal (s.frontier.statuses id) = true := returned_finished hreach id hid
  cases hstatus : s.frontier.statuses id with
  | none =>
    rw [hstatus] at hterminal
    cases hterminal
  | some st =>
    rw [hstatus] at hterminal hfail hcancel
    cases st with
    | succeeded | skipped => rfl
    | failed => cases hfail
    | cancelled => cases hcancel
    | pending | ready | running => cases hterminal

/-- When a run over the graph of a resolution returns and counts no failed and no cancelled job,
every target is a source, or a job that makes it has succeeded or was skipped; whatever other
sessions, signals, gates and the cache did meanwhile. -/
theorem returned_targets_made {env : Environment Body Rendered Path} {rules : List (Rule Body)}
    {request : ResolveRequest Path} {result : ResolveResult Rendered Path}
    (h : resolveWithSourceFallbackAt env rules request = .ok result)
    (hbuild : JobGraph.build (result.jobs.map view) = .ok x.graph) {c : Conduct}
    (hreach : Reachable x c (.returned s)) (hfailed : (schedulerResult x s).failed = 0)
    (hcancelled : (schedulerResult x s).cancelled = 0) :
    ∀ target ∈ request.targets, env.pathBuf target ∈ result.sources ∨
      ∃ maker ∈ result.jobs, target ∈ maker.outputPaths ∧
        satisfied (s.frontier.statuses (view maker).id) = true := by
  intro target htarget
  refine (exists_maker h hbuild htarget).imp_right ?_
  rintro ⟨maker, hmaker, hmade, horder⟩
  exact ⟨maker, hmaker, hmade, satisfied_of_counts hreach hfailed hcancelled horder⟩

/-- The target of the chain is made when both jobs have been executed. -/
theorem returned_targets_made_executed : ∃ maker ∈ chainResult.jobs,
    "b.txt".toList ∈ maker.outputPaths ∧
      satisfied ((pass plainChain .plain (afterSecond 0)).state.frontier.statuses
        (fileView maker).id) = true :=
  (returned_targets_made resolve_chain (x := plainChain) rfl
    ((reachable_afterSecond 0).pass (a := .plain) trivial) (by decide) (by decide) _
    mem_cons_self).resolve_left (Finset.notMem_empty _)

/-! ### Causes -/

/-- A failed job that a chain of dependencies of the given one leads back to. -/
def Blamed (x : Setup) (status : JobId → Option JobLifecycle) (id : JobId) : Prop :=
  ∃ cause message, Relation.ReflTransGen (fun a b => b ∈ x.graph.upstream a) id cause ∧
    status cause = some (.failed message)

theorem satisfied_or_blamed (outcome : JobId → ℕ → ℤ) {id : JobId} (hid : id ∈ x.topo.order) :
    (finalStatuses x outcome id).isSatisfied = true ∨
      Blamed x (fun job => some (finalStatuses x outcome job)) id := by
  have hall : ∀ earlier later, x.topo.order = earlier ++ later → ∀ id ∈ earlier,
      (finalStatuses x outcome id).isSatisfied = true ∨
        Blamed x (fun job => some (finalStatuses x outcome job)) id := by
    intro earlier
    induction earlier using List.reverseRecOn with
    | nil => exact fun _ _ _ hid => absurd hid not_mem_nil
    | append_singleton earlier id ih =>
      intro later hsplit
      rw [append_assoc, singleton_append] at hsplit
      intro id' hid'
      rcases mem_append.mp hid' with hid' | hid'
      · exact ih (id :: later) hsplit id' hid'
      rw [mem_singleton.mp hid']
      have hmem : id ∈ x.topo.order := hsplit ▸ mem_append_right _ mem_cons_self
      have hstatus := @finalStatuses_eq x outcome id hmem
      unfold settledStatus at hstatus
      by_cases hskip : id ∈ x.config.skipJobs
      · rw [if_pos hskip] at hstatus
        rw [hstatus]
        exact .inl rfl
      rw [if_neg hskip] at hstatus
      by_cases hbroken : ∃ up ∈ x.graph.upstream id,
          (finalStatuses x outcome up).isBroken = true
      · obtain ⟨up, hup, hup'⟩ := hbroken
        have hearlier := x.topo.before earlier id later hsplit up hup
        refine .inr ?_
        rcases ih (id :: later) hsplit up hearlier with hsat | ⟨cause, message, hpath, hcause⟩
        · revert hsat hup'
          cases finalStatuses x outcome up <;> exact nofun
        · exact ⟨cause, message, hpath.head hup, hcause⟩
      · rw [if_neg hbroken] at hstatus
        unfold attemptsEnd at hstatus
        by_cases hfail : attemptsFail (strategyOf x id) (outcome id) = true
        · rw [if_pos hfail] at hstatus
          exact .inr ⟨id, _, .refl, congrArg some hstatus⟩
        · rw [if_neg hfail] at hstatus
          rw [hstatus]
          exact .inl rfl
  exact hall x.topo.order [] (append_nil _).symm id hid

theorem blamed_order {a b : JobId} (ha : a ∈ x.topo.order)
    (h : Relation.ReflTransGen (fun a b => b ∈ x.graph.upstream a) a b) : b ∈ x.topo.order := by
  induction h with
  | refl => exact ha
  | tail _ hstep =>
    exact (x.topo.mem_iff _).mpr (bridgedNeighborsIds_mem_jobIds hstep)

/-- When an undisturbed run over the graph of a resolution returns, every target is a source, or
a job that makes it has succeeded or was skipped, or a chain of dependencies leads from that job
back to a failed one. -/
theorem missing_targets_blamed {env : Environment Body Rendered Path} {rules : List (Rule Body)}
    {request : ResolveRequest Path} {result : ResolveResult Rendered Path}
    (h : resolveWithSourceFallbackAt env rules request = .ok result)
    (hbuild : JobGraph.build (result.jobs.map view) = .ok x.graph) (hx : Undisturbed x)
    {outcome : JobId → ℕ → ℤ} (hreach : Reachable x (scripted x outcome) (.returned s)) :
    ∀ target ∈ request.targets, env.pathBuf target ∈ result.sources ∨
      ∃ maker ∈ result.jobs, target ∈ maker.outputPaths ∧
        (satisfied (s.frontier.statuses (view maker).id) = true ∨
          Blamed x s.frontier.statuses (view maker).id) := by
  intro target htarget
  refine (exists_maker h hbuild htarget).imp_right ?_
  rintro ⟨maker, hmaker, hmade, horder⟩
  refine ⟨maker, hmaker, hmade, ?_⟩
  rcases satisfied_or_blamed outcome horder with hsat | ⟨cause, message, hpath, hcause⟩
  · rw [returned_statuses hx hreach horder]
    exact .inl hsat
  · refine .inr ⟨cause, message, hpath, ?_⟩
    rw [returned_statuses hx hreach (blamed_order horder hpath)]
    exact hcause

def failedFirst : LoopState :=
  consume steadyChain (report (fileJob "a" [] ["a.txt"]) 1)
    (joinTask steadyChain "a" (pass steadyChain .plain (initial steadyChain)).state)

/-- The chain is undisturbed, and it returns after the failure. -/
theorem steadyChain_returns : Undisturbed steadyChain ∧
    Reachable steadyChain (scripted steadyChain fun _ _ => 1)
      (.returned (pass steadyChain .plain failedFirst).state) := by
  constructor
  · refine ⟨rfl, rfl, fun id => ?_, rfl, rfl, by decide⟩
    simp [JobGraph.blockingGates, steadyChain, Setup.plain, DependencySafety.chainGraph]
  · have hfirst : Reachable steadyChain (scripted steadyChain fun _ _ => 1)
        (.waiting (pass steadyChain .plain (initial steadyChain)).state false) :=
      .pass (a := .plain) (.start rfl) fun h => by cases h
    have hfailed : Reachable steadyChain (scripted steadyChain fun _ _ => 1)
        (.head failedFirst) :=
      .await hfirst (by rfl) (show await steadyChain _ _
        (.completed (report (fileJob "a" [] ["a.txt"]) 1)) = _ from rfl)
    exact .pass (a := .plain) hfailed fun h => by cases h

/-- The failure of the first job is to blame for the target of the chain. -/
theorem missing_targets_blamed_chain : ∃ maker ∈ chainResult.jobs,
    "b.txt".toList ∈ maker.outputPaths ∧
      (satisfied ((pass steadyChain .plain failedFirst).state.frontier.statuses
        (fileView maker).id) = true ∨
        Blamed steadyChain (pass steadyChain .plain failedFirst).state.frontier.statuses
          (fileView maker).id) :=
  (missing_targets_blamed resolve_chain (x := steadyChain) rfl steadyChain_returns.1
    steadyChain_returns.2 _ mem_cons_self).resolve_left (Finset.notMem_empty _)

end OxyMake.BuiltTargets
