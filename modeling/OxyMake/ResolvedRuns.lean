import OxyMake.DependencySafety
import OxyMake.PathIdentity
import OxyMake.PriorityOrder
import OxyMake.ResolverClosure

/-!
# From a resolution to a run

The jobs of a resolution become the nodes of the job graph. Where no source is also made
by a job, every edge leads from a job to a later one, so that the graph has no cycle and
the jobs are in topological order as they are. In a run over the graph every input of a
job that is started is a source, or a job that makes it has succeeded or was skipped.
-/

namespace OxyMake.ResolvedRuns

open List
open PhysicalGraph Observation SchedulerLoop NodeGraph PriorityOrder PathIdentity
open NetInvariants CompletionRefinement LoopRefinement
open DependencySafety
open Wildcard (Text)
open RuleInstances (Rule compileRules)
open Resolver (Environment ResolveRequest ResolveResult resolveWithSourceFallbackAt)
open ResolverClosure (Closed added_resolveTargets closed_of_added)

/-! ### Graphs whose edges lead forward -/

/-- What a job makes is read by later jobs only. -/
def Forward (jobs : List ConcreteJob) : Prop :=
  ∀ (i j : ℕ) (a b : ConcreteJob) (key : String), jobs[i]? = some a → jobs[j]? = some b →
    key ∈ a.produces → key ∈ b.consumes → i < j

/-- A node behind a job: a later job, or an output of this job or a later one. -/
def Behind (g : JobGraph) (slot : String → Option ℕ) (i v : ℕ) : Prop :=
  (i < v ∧ v < g.jobs.length) ∨
    ∃ j job key, i ≤ j ∧ g.jobs[j]? = some job ∧ key ∈ job.produces ∧ slot key = some v

theorem Behind.edge {g : JobGraph} {slot : String → Option ℕ} {base : ℕ}
    (layout : Layout g slot base) (hforward : Forward g.jobs) {i v w : ℕ}
    (h : Behind g slot i v ∨ v = i ∧ v < g.jobs.length) (hedge : (ofRecords g).Edge v w) :
    Behind g slot i w := by
  rcases h with (⟨hlt, hjob⟩ | ⟨j, job, key, hle, hjob, hkey, hslot⟩) | ⟨rfl, hjob⟩
  · obtain ⟨key, hkey, hslot⟩ := layout.edge_of_job (getElem?_eq_getElem hjob) hedge
    exact .inr ⟨v, _, key, hlt.le, getElem?_eq_getElem hjob, hkey, hslot⟩
  · obtain ⟨reader, hreader, hconsumes⟩ := layout.edge_of_slot hslot hedge
    have hlt := hforward j w job reader key hjob hreader hkey hconsumes
    exact .inl ⟨by omega, (List.getElem?_eq_some_iff.mp hreader).1⟩
  · obtain ⟨key, hkey, hslot⟩ := layout.edge_of_job (getElem?_eq_getElem hjob) hedge
    exact .inr ⟨v, _, key, le_rfl, getElem?_eq_getElem hjob, hkey, hslot⟩

theorem acyclic_of_forward {g : JobGraph} (hforward : Forward g.jobs) : Acyclic g := by
  obtain ⟨slot, _, layout, -⟩ := exists_layout g
  have hjobs : ∀ v, v < g.jobs.length → ¬ Relation.TransGen (ofRecords g).Edge v v := by
    intro v hv hcycle
    have hbehind : ∀ w, Relation.TransGen (ofRecords g).Edge v w → Behind g slot v w := by
      intro w hpath
      induction hpath with
      | single hedge => exact Behind.edge layout hforward (.inr ⟨rfl, hv⟩) hedge
      | tail _ hedge ih => exact Behind.edge layout hforward (.inl ih) hedge
    rcases hbehind v hcycle with ⟨hlt, -⟩ | ⟨-, -, key, -, -, -, hslot⟩
    · exact Nat.lt_irrefl v hlt
    · have hbounds := layout.slot_bounds key v hslot
      omega
  intro v hcycle
  obtain ⟨w, hedge, hback⟩ := Relation.TransGen.head'_iff.mp hcycle
  have hround : Relation.TransGen (ofRecords g).Edge w w := Relation.TransGen.tail' hback hedge
  rcases layout.edge v w hedge with ⟨job, _, hjob, -⟩ | ⟨job, _, hjob, -⟩ | ⟨-, hlt⟩
  · exact hjobs v (List.getElem?_eq_some_iff.mp hjob).1 hcycle
  · exact hjobs w (List.getElem?_eq_some_iff.mp hjob).1 hround
  · exact hjobs w hlt hround

theorem exists_topologicalOrder {g : JobGraph} (hskipped : g.skipped = [])
    (hforward : Forward g.jobs) :
    ∃ topo : TopologicalOrder g, topo.order = g.jobs.map ConcreteJob.id := by
  refine ⟨⟨g.jobs.map ConcreteJob.id, g.idsNodup, fun id => ?_, ?_⟩, rfl⟩
  · rw [mem_jobIds]
    unfold JobGraph.isSkipped
    rw [hskipped]
    exact ⟨fun h => ⟨h, rfl⟩, And.left⟩
  · intro earlier id later hsplit u hu
    obtain ⟨before, _, hjobs, rfl, hrest⟩ := map_eq_append_iff.mp hsplit
    obtain ⟨job, _, rfl, rfl, -⟩ := map_eq_cons_iff.mp hrest
    have hjob : job ∈ g.jobs := hjobs ▸ mem_append_right _ mem_cons_self
    obtain ⟨other, hother, rfl⟩ :=
      mem_map.mp (mem_jobIds.mp (bridgedNeighborsIds_mem_jobIds hu)).1
    have hne : other ≠ job := fun heq =>
      (mem_bridgedNeighborsIds.mp hu).1 (congrArg ConcreteJob.id heq)
    obtain ⟨key, hproduces, hconsumes⟩ := (mem_upstream_iff hskipped hother hjob hne).mp hu
    obtain ⟨i, hi⟩ := mem_iff_getElem?.mp hother
    have hat : g.jobs[before.length]? = some job := by
      rw [hjobs, getElem?_append_right le_rfl, Nat.sub_self]
      rfl
    have hlt := hforward i before.length other job key hi hat hproduces hconsumes
    rw [hjobs, getElem?_append_left hlt] at hi
    exact mem_map_of_mem (mem_of_getElem? hi)

/-! ### The graph of a resolution -/

section Resolution

variable {Body Rendered Path : Type} [DecidableEq Path]
  {view : Resolver.ConcreteJob Rendered → ConcreteJob}

/-- Graph jobs that read and make the files of the resolved ones. -/
def Views (view : Resolver.ConcreteJob Rendered → ConcreteJob) : Prop :=
  ∀ job, (view job).inputs = job.inputPaths.map (fun path => .file (String.ofList path)) ∧
    (view job).outputs = job.outputPaths.map fun path => .file (String.ofList path)

theorem Views.mem_produces (hview : Views view) {job : Resolver.ConcreteJob Rendered}
    {key : String} :
    key ∈ (view job).produces ↔ ∃ path ∈ job.outputPaths, String.ofList path = key := by
  rw [ConcreteJob.produces, (hview job).2, map_map, mem_map]
  rfl

theorem Views.mem_consumes (hview : Views view) {job : Resolver.ConcreteJob Rendered}
    {key : String} :
    key ∈ (view job).consumes ↔ ∃ path ∈ job.inputPaths, String.ofList path = key := by
  rw [ConcreteJob.consumes, (hview job).1, map_map, mem_map]
  rfl

theorem closed_of_resolution {env : Environment Body Rendered Path} {rules : List (Rule Body)}
    {request : ResolveRequest Path} {result : ResolveResult Rendered Path}
    (h : resolveWithSourceFallbackAt env rules request = .ok result) :
    ∃ compiled, Closed (env.context request compiled) request.targets result := by
  unfold resolveWithSourceFallbackAt Resolver.resolve at h
  split at h
  · cases h
  · split at h
    · cases h
    · rename_i hrun
      cases h
      obtain ⟨_, hnew⟩ := added_resolveTargets hrun
      exact ⟨_, closed_of_added hnew⟩

omit [DecidableEq Path] in
theorem Closed.exists_earlier {ctx : Resolver.Context Body Rendered Path} {targets : List Text}
    {result : ResolveResult Rendered Path} (h : Closed ctx targets result) {j : ℕ}
    {reader : Resolver.ConcreteJob Rendered} (hreader : result.jobs[j]? = some reader)
    {path : Text} (hpath : path ∈ reader.inputPaths) :
    ctx.pathBuf path ∈ result.sources ∨
      ∃ i maker, i < j ∧ result.jobs[i]? = some maker ∧ path ∈ maker.outputPaths := by
  obtain ⟨hlt, hget⟩ := List.getElem?_eq_some_iff.mp hreader
  have hsplit : result.jobs = result.jobs.take j ++ reader :: result.jobs.drop (j + 1) := by
    rw [← hget, ← drop_eq_getElem_cons hlt, take_append_drop]
  refine (h.inputs_made _ _ _ hsplit path hpath).imp_right ?_
  rintro ⟨maker, hmaker, hmade⟩
  obtain ⟨i, hi⟩ := mem_iff_getElem?.mp hmaker
  rw [getElem?_take] at hi
  split_ifs at hi with hij
  exact ⟨i, maker, hij, hi, hmade⟩

omit [DecidableEq Path] in
theorem forward_of_closed {ctx : Resolver.Context Body Rendered Path} {targets : List Text}
    {result : ResolveResult Rendered Path} (h : Closed ctx targets result) (hview : Views view)
    {g : JobGraph} (hbuild : JobGraph.build (result.jobs.map view) = .ok g)
    (hdisjoint : ∀ job ∈ result.jobs, ∀ output ∈ job.outputPaths,
      ctx.pathBuf output ∉ result.sources) : Forward g.jobs := by
  obtain ⟨hjobs, -, howned⟩ := accepted_of_build hbuild
  have hnodup : (result.jobs.map view).Nodup := hjobs ▸ g.idsNodup.of_map _
  intro i j a b key hi hj hproduces hconsumes
  rw [hjobs] at hi hj
  have hmem := mem_of_getElem? hi
  rw [getElem?_map] at hj
  obtain ⟨_, hreader, rfl⟩ := Option.map_eq_some_iff.mp hj
  obtain ⟨maker, hmaker, rfl⟩ := mem_map.mp hmem
  obtain ⟨output, houtput, rfl⟩ := hview.mem_produces.mp hproduces
  obtain ⟨_, hpath, heq⟩ := hview.mem_consumes.mp hconsumes
  cases String.ofList_injective heq
  rcases Closed.exists_earlier h hreader hpath with hsource | ⟨k, earlier, hk, hearlier, hmade⟩
  · exact absurd hsource (hdisjoint maker hmaker _ houtput)
  · have hsame := howned _ hmem _
      (mem_map_of_mem (mem_of_getElem? hearlier)) _ hproduces
      (hview.mem_produces.mpr ⟨_, hmade, rfl⟩)
    have hindex : (result.jobs.map view)[i]? = (result.jobs.map view)[k]? := by
      rw [hi, hsame, getElem?_map, hearlier]
      rfl
    rwa [(getElem?_inj (List.getElem?_eq_some_iff.mp hi).1 hnodup).mp hindex]

/-- The graph of the jobs of a resolution in which no source is made by a job has no cycle, and
the order in which they were resolved is topological. -/
theorem resolved_graph_acyclic {env : Environment Body Rendered Path} {rules : List (Rule Body)}
    {request : ResolveRequest Path} {result : ResolveResult Rendered Path}
    (h : resolveWithSourceFallbackAt env rules request = .ok result) (hview : Views view)
    {g : JobGraph} (hbuild : JobGraph.build (result.jobs.map view) = .ok g)
    (hdisjoint : ∀ job ∈ result.jobs, ∀ output ∈ job.outputPaths,
      env.pathBuf output ∉ result.sources) :
    Acyclic g ∧ ∃ topo : TopologicalOrder g,
      topo.order = result.jobs.map fun job => (view job).id := by
  obtain ⟨hjobs, hskipped, -⟩ := accepted_of_build hbuild
  obtain ⟨_, hclosed⟩ := closed_of_resolution h
  have hforward := forward_of_closed hclosed hview hbuild hdisjoint
  refine ⟨acyclic_of_forward hforward, ?_⟩
  obtain ⟨topo, horder⟩ := exists_topologicalOrder hskipped hforward
  refine ⟨topo, ?_⟩
  rw [horder, hjobs, map_map]
  rfl

/-- In a run without a snapshot over the graph of a resolution, each input of a job that is being
started is a source, or a job that makes it has succeeded or is skipped at that moment. -/
theorem started_inputs_made {env : Environment Body Rendered Path} {rules : List (Rule Body)}
    {request : ResolveRequest Path} {result : ResolveResult Rendered Path}
    (h : resolveWithSourceFallbackAt env rules request = .ok result) (hview : Views view)
    {x : Setup} (hbuild : JobGraph.build (result.jobs.map view) = .ok x.graph)
    (hfresh : x.config.resumeSnapshot = none) {p : Point} (hreach : Reachable x .free p)
    (obs : List Obs) (hlog : p.state.frontier.log = (initial x).frontier.log ++ obs)
    {earlier later : List (JobId × JobLifecycle)} {job : Resolver.ConcreteJob Rendered}
    (hjob : job ∈ result.jobs)
    (hwrites : writes obs = earlier ++ ((view job).id, .running) :: later) :
    ∀ input ∈ job.inputPaths, env.pathBuf input ∈ result.sources ∨
      ∃ maker ∈ result.jobs, input ∈ maker.outputPaths ∧
        satisfied (replay (initial x).frontier.statuses earlier (view maker).id) = true := by
  obtain ⟨hjobs, hskipped, -⟩ := accepted_of_build hbuild
  obtain ⟨_, hclosed⟩ := closed_of_resolution h
  intro input hinput
  obtain ⟨j, hj⟩ := mem_iff_getElem?.mp hjob
  refine (Closed.exists_earlier hclosed hj hinput).imp_right ?_
  rintro ⟨i, maker, _, hi, hmade⟩
  have hmaker := mem_of_getElem? hi
  refine ⟨maker, hmaker, hmade, ?_⟩
  have hne : view maker ≠ view job := by
    intro heq
    have hnodup : (result.jobs.map view).Nodup := hjobs ▸ x.graph.idsNodup.of_map _
    have hindex : (result.jobs.map view)[i]? = (result.jobs.map view)[j]? := by
      rw [getElem?_map, getElem?_map, hi, hj, Option.map_some, Option.map_some, heq]
    have hbound : i < (result.jobs.map view).length := by
      rw [length_map]
      exact (List.getElem?_eq_some_iff.mp hi).1
    have hsame := (getElem?_inj hbound hnodup).mp hindex
    omega
  have hup : (view maker).id ∈ x.graph.upstream (view job).id :=
    (mem_upstream_iff hskipped (hjobs ▸ mem_map_of_mem hmaker)
      (hjobs ▸ mem_map_of_mem hjob) hne).mpr
      ⟨_, hview.mem_produces.mpr ⟨input, hmade, rfl⟩,
        hview.mem_consumes.mpr ⟨input, hinput, rfl⟩⟩
  obtain ⟨_, hrun⟩ := reachable_run hreach hlog
  have hsound : Sound (wiring x.topo) True (loopNet (initial x) ∅ false) :=
    initial_sound x fun _ => skipsCountOnce_of_fresh hfresh
  rw [hwrites] at hrun
  obtain ⟨m, n, hbefore, hlaunch, -⟩ := hrun.split_at
  have hsat := (hsound.run hbefore).launch_satisfied hlaunch _ hup
  rwa [show m.status = replay (initial x).frontier.statuses earlier from status_of_run hbefore]
    at hsat

end Resolution

/-! ### A chain of two rules -/

/-- A resolved job as a graph job without settings. -/
def fileView (job : Resolver.ConcreteJob Unit) : ConcreteJob :=
  fileJob (String.ofList job.id) (job.inputPaths.map String.ofList)
    (job.outputPaths.map String.ofList)

theorem views_fileView : Views fileView := fun _ => ⟨map_map, map_map⟩

/-- The jobs of the chain for its last file. -/
def chainResult : ResolveResult Unit Text :=
  ⟨[Resolver.literalJob "a" [] ["a.txt"], Resolver.literalJob "b" ["a.txt"] ["b.txt"]], ∅⟩

theorem resolve_chain :
    resolveWithSourceFallbackAt (Resolver.literalEnvironment [])
      [Resolver.literalRule "b" none ["a.txt"] ["b.txt"],
        Resolver.literalRule "a" none [] ["a.txt"]]
      (Resolver.literalRequest ["b.txt"] []) = .ok chainResult := by
  with_unfolding_all decide

/-- The graph of the chain has no cycle. -/
theorem resolved_graph_acyclic_chain : Acyclic chainGraph :=
  (resolved_graph_acyclic resolve_chain views_fileView rfl
    fun _ _ _ _ => Finset.notMem_empty _).1

/-- The second job of the chain is started when the first one is skipped. -/
theorem started_inputs_made_chain : ∃ maker ∈ chainResult.jobs, "a.txt".toList ∈
    maker.outputPaths ∧ satisfied (replay (initial skippedChain).frontier.statuses
      [("b", .ready)] (fileView maker).id) = true :=
  (started_inputs_made resolve_chain views_fileView (x := skippedChain) rfl rfl
    (.pass (a := .plain) (.start rfl) trivial)
    ((pass skippedChain .plain (initial skippedChain)).state.frontier.log.drop 5) (by decide)
    (.tail _ (.head _))
    (show writes _ = [("b", .ready)] ++
      ((fileView (Resolver.literalJob "b" ["a.txt"] ["b.txt"])).id, .running) :: [] by decide)
    _ mem_cons_self).resolve_left (Finset.notMem_empty _)

end OxyMake.ResolvedRuns
