import OxyMake.ResolverSteps

/-!
# Closure of a resolution

A resolution that succeeds returns jobs in dependency order: every requested
target and every input of a job is a source or the output of an earlier job, and
every job and every source is there for a requested target or an input. A path can
be a source and an output at once only where a job makes a path that it was not
selected for.
-/

namespace OxyMake.ResolverClosure

open Wildcard PlanJournal RuleInstances Resolver

variable {Body Rendered Path : Type} [DecidableEq Path] {ctx : Context Body Rendered Path}

/-- A job is the instance of the producer of a path. -/
def MadeFor (ctx : Context Body Rendered Path) (job : ConcreteJob Rendered) (target : Text) :
    Prop :=
  ∃ compiled wildcards inputs, Selects ctx target compiled wildcards inputs ∧
    buildJob ctx compiled wildcards inputs = some job

/-- Why a path is a source: it is listed, no rule makes it and it is on disk, or an input of its
producer is missing. -/
def LeafReason (ctx : Context Body Rendered Path) (target : Text) : Prop :=
  ctx.pathBuf target ∈ ctx.existing ∨
    (NoRule ctx target ∧ ctx.isPresent target = true) ∨
    ∃ compiled wildcards inputs, Selects ctx target compiled wildcards inputs ∧
      ∃ input ∈ inputs, Missing ctx input.path

def domain (ctx : Context Body Rendered Path) : Domain Text (ConcreteJob Rendered) Path where
  inputs := ConcreteJob.inputPaths
  outputs := ConcreteJob.outputPaths
  leaf := ctx.pathBuf
  Made := MadeFor ctx
  IsLeaf := LeafReason ctx

omit [DecidableEq Path] in
theorem buildJob_spec {target : Text} {compiled : CompiledRule Body} {wildcards : Wildcards}
    {inputs : List ConcreteInput} {job : ConcreteJob Rendered}
    (hselects : Selects ctx target compiled wildcards inputs)
    (h : buildJob ctx compiled wildcards inputs = some job) :
    job.inputPaths = inputs.map ConcreteInput.path ∧ target ∈ job.outputPaths := by
  unfold buildJob at h
  split at h
  · cases h
  · rename_i outputs houtputs
    split at h
    · cases h
    · cases h
      refine ⟨?_, mem_outputs_of_findProducer hselects.found houtputs⟩
      unfold ConcreteJob.inputPaths
      rw [List.map_map]
      rfl

theorem added_resolveInputs
    {resolve : Text → State Rendered Path → Except DagError Unit × State Rendered Path}
    (hresolve : ∀ target s s', resolve target s = (.ok (), s') →
      ∃ new, Added (domain ctx) [target] new s.toPlan s'.toPlan)
    {target : Text} {passOver : ConcreteInput → Bool} {inputs : List ConcreteInput}
    {s s' : State Rendered Path}
    (h : resolveInputs resolve target passOver inputs false s = (.ok false, s')) :
    ∃ new, Added (domain ctx) (inputs.map ConcreteInput.path) new s.toPlan s'.toPlan := by
  induction inputs generalizing s with
  | nil =>
    cases h
    exact ⟨[], Added.nil _⟩
  | cons input inputs ih =>
    obtain ⟨-, ⟨hnil, -⟩ | ⟨_, _, _, heq, hfirst, hrest⟩⟩ := resolveInputs_eq_false h
    · cases hnil
    · cases heq
      obtain ⟨new, hnew⟩ := hresolve _ _ _ hfirst
      obtain ⟨new', hnew'⟩ := ih hrest
      exact ⟨new ++ new', hnew.append hnew'⟩

theorem added_resolveTarget {depth : ℕ} {target : Text} {s s' : State Rendered Path}
    (h : resolveTarget ctx depth target s = (.ok (), s')) :
    ∃ new, Added (domain ctx) [target] new s.toPlan s'.toPlan := by
  induction depth generalizing target s s' with
  | zero => cases h
  | succ depth ih =>
    have hstep := targetStep_resolveTarget ctx depth target s
    rw [h] at hstep
    generalize hresult : ((.ok (), s') : Except DagError Unit × State Rendered Path) = r at hstep
    cases hstep with
    | produced hproduced =>
      cases hresult
      exact ⟨[], Added.produced_root hproduced⟩
    | existing hproduced hshallow hexisting =>
      cases hresult
      exact ⟨[], Added.leaf_root (d := domain ctx) (.inl hexisting) s.toPlan⟩
    | leaf henters hnone hpresent =>
      cases hresult
      exact ⟨[], Added.leaf_root (d := domain ctx) (.inr (.inl ⟨hnone, hpresent⟩)) s.toPlan⟩
    | fallback henters hselects hloop =>
      cases hresult
      obtain ⟨input, hinput, -, _, _, hcall⟩ := exists_passed_of_resolveInputs hloop
      have hmissing := missing_of_resolveTarget hcall
      have hgrown := extends_of_resolveInputs hloop
      change s.toPlan.Extends _ at hgrown
      refine ⟨[], ?_⟩
      change Added _ _ _ s.toPlan (Plan.addSource _ (Plan.rollback _ _ _ _))
      rw [Plan.rollback_of_extends hgrown]
      exact Added.leaf_root (d := domain ctx)
        (.inr (.inr ⟨_, _, _, hselects, input, hinput, hmissing⟩)) s.toPlan
    | built henters hselects hloop hjob =>
      cases hresult
      obtain ⟨new, hnew⟩ := added_resolveInputs (fun _ _ _ hcall => ih hcall) hloop
      obtain ⟨job, hbuild, rfl⟩ := exists_job_of_addJob hjob
      obtain ⟨hinputs, houtput⟩ := buildJob_spec hselects hbuild
      rw [← hinputs] at hnew
      exact ⟨new ++ [job], Added.push (d := domain ctx) hnew houtput ⟨_, _, _, hselects, hbuild⟩⟩
    | tooDeep | cycle | missing | rejected | blocked | unbuilt => cases hresult

theorem added_resolveTargets {targets : List Text} {s s' : State Rendered Path}
    (h : resolveTargets ctx targets s = (.ok (), s')) :
    ∃ new, Added (domain ctx) targets new s.toPlan s'.toPlan := by
  induction targets generalizing s with
  | nil =>
    cases h
    exact ⟨[], Added.nil _⟩
  | cons target targets ih =>
    rw [resolveTargets] at h
    rcases hcall : resolveTarget ctx (maxResolveDepth + 1) target s with ⟨result, _⟩
    rw [hcall] at h
    cases result with
    | error => cases h
    | ok =>
      obtain ⟨new, hnew⟩ := added_resolveTarget hcall
      obtain ⟨new', hnew'⟩ := ih h
      exact ⟨new ++ new', hnew.append hnew'⟩

/-! ### Results -/

/-- A path is requested or an input of a listed job. -/
def Needed (targets : List Text) (jobs : List (ConcreteJob Rendered)) (path : Text) : Prop :=
  path ∈ targets ∨ ∃ job ∈ jobs, path ∈ job.inputPaths

/-- A needed path that a listed job makes is no explicit source, and the job is the instance of
its producer. -/
def Agreeing (ctx : Context Body Rendered Path) (targets : List Text)
    (jobs : List (ConcreteJob Rendered)) : Prop :=
  ∀ job ∈ jobs, ∀ output ∈ job.outputPaths, ∀ path, Needed targets jobs path →
    ctx.pathBuf path = ctx.pathBuf output →
      ctx.pathBuf path ∉ ctx.existing ∧ MadeFor ctx job path

/-- Jobs in dependency order that make what is needed and nothing else. -/
structure Closed (ctx : Context Body Rendered Path) (targets : List Text)
    (result : ResolveResult Rendered Path) : Prop where
  /-- Every target is a source or made by a job. -/
  targets_made : ∀ target ∈ targets, ctx.pathBuf target ∈ result.sources ∨
    ∃ job ∈ result.jobs, target ∈ job.outputPaths
  /-- Every input is a source or made by an earlier job. -/
  inputs_made : ∀ before job after, result.jobs = before ++ job :: after →
    ∀ input ∈ job.inputPaths, ctx.pathBuf input ∈ result.sources ∨
      ∃ earlier ∈ before, input ∈ earlier.outputPaths
  /-- Every job makes a needed path. -/
  jobs_needed : ∀ job ∈ result.jobs, ∃ output ∈ job.outputPaths,
    Needed targets result.jobs output
  /-- Every source is a needed path. -/
  sources_needed : ∀ source ∈ result.sources, ∃ path, ctx.pathBuf path = source ∧
    Needed targets result.jobs path
  /-- No source is made by a job where jobs make only what they are selected for. -/
  disjoint : Agreeing ctx targets result.jobs → ∀ job ∈ result.jobs,
    ∀ output ∈ job.outputPaths, ctx.pathBuf output ∉ result.sources

omit [DecidableEq Path] in
theorem not_leafReason_of_missing {path : Text} (h : Missing ctx path) :
    ¬ LeafReason ctx path := by
  rintro (hexisting | ⟨-, hpresent⟩ | ⟨_, _, _, hselects, -⟩)
  · exact h.unlisted hexisting
  · rw [h.absent] at hpresent
    cases hpresent
  · exact h.noRule.not_selects hselects

theorem closed_of_added {targets : List Text} {new : List (ConcreteJob Rendered)}
    {p : Plan Text (ConcreteJob Rendered) Path}
    (h : Added (domain ctx) targets new Plan.empty p) :
    Closed ctx targets ⟨p.jobs, p.sources.members⟩ := by
  have hjobs : p.jobs = new := h.jobs
  have hproduced : ∀ path, path ∈ p.produced.members ↔ ∃ job ∈ new, path ∈ job.outputPaths := by
    intro path
    rw [h.produced]
    exact or_iff_right (Finset.notMem_empty path)
  have hordered : ∀ before job after, new = before ++ job :: after → ∀ input ∈ job.inputPaths,
      (∃ earlier ∈ before, input ∈ earlier.outputPaths) ∨ (domain ctx).FoundIn p input := by
    intro before job after hsplit input hinput
    rcases h.ordered before job after hsplit input hinput with hmem | hmade
    · cases Finset.notMem_empty input hmem
    · exact hmade
  rw [hjobs]
  refine ⟨?_, ?_, ?_, ?_, ?_⟩
  · intro target htarget
    rcases h.satisfied target htarget with hmade | hfound
    · exact .inr ((hproduced target).mp hmade)
    · exact .inl hfound.2
  · intro before job after hsplit input hinput
    rcases hordered before job after hsplit input hinput with hmade | hfound
    · exact .inr hmade
    · exact .inl hfound.2
  · intro job hjob
    obtain ⟨output, houtput, -, hneeds⟩ := h.needed job hjob
    exact ⟨output, houtput, hneeds⟩
  · intro source hsource
    rcases h.sourced source hsource with hmem | ⟨path, hpath, -, hneeds⟩
    · cases Finset.notMem_empty source hmem
    · exact ⟨path, hpath, hneeds⟩
  · intro hagreeing job hjob output houtput hsource
    rcases h.sourced _ hsource with hmem | ⟨path, hpath, hleaf, hneeds⟩
    · cases Finset.notMem_empty _ hmem
    obtain ⟨hunlisted, _, _, _, hselects, hbuild⟩ :=
      hagreeing job hjob output houtput path hneeds hpath
    rcases hleaf with hexisting | ⟨hnone, -⟩ | ⟨_, _, _, hselects', input, hinput, hmissing⟩
    · exact hunlisted hexisting
    · exact hnone.not_selects hselects
    · obtain ⟨rfl, rfl, rfl⟩ := hselects.unique hselects'
      -- The job needs the missing input itself, so an earlier job makes it unselected.
      have hmem : input.path ∈ job.inputPaths := by
        rw [(buildJob_spec hselects hbuild).1]
        exact List.mem_map_of_mem hinput
      obtain ⟨before, after, hsplit⟩ : ∃ before after, new = before ++ job :: after :=
        List.append_of_mem hjob
      rcases hordered before job after hsplit _ hmem with ⟨earlier, hearlier, hmade⟩ | hfound
      · have hlisted : earlier ∈ new := by
          rw [hsplit]
          exact List.mem_append_left _ hearlier
        obtain ⟨-, _, _, _, hselects'', -⟩ :=
          hagreeing earlier hlisted _ hmade _ (.inr ⟨job, hjob, hmem⟩) rfl
        exact hmissing.noRule.not_selects hselects''
      · exact not_leafReason_of_missing hmissing hfound.1

/-- A resolution that succeeds is closed. -/
theorem closed_of_resolve {env : Environment Body Rendered Path} {rules : List (Rule Body)}
    {request : ResolveRequest Path} {result : ResolveResult Rendered Path}
    (h : resolveWithSourceFallbackAt env rules request = .ok result) :
    ∃ compiled, compileRules env.machine request.config rules = .ok compiled ∧
      Closed (env.context request compiled) request.targets result := by
  unfold resolveWithSourceFallbackAt at h
  split at h
  · cases h
  · rename_i compiled hcompiled
    refine ⟨compiled, hcompiled, ?_⟩
    unfold resolve at h
    split at h
    · cases h
    · rename_i s hrun
      cases h
      obtain ⟨_, hnew⟩ := added_resolveTargets hrun
      exact closed_of_added hnew

/-- A request for a report of a file whose own producer misses its input. -/
theorem closed_of_resolve_fallback :
    ∃ compiled,
      compileRules (literalMachine ["clean.csv".toList]) ⟨[], []⟩
          [literalRule "clean" none ["raw.csv"] ["clean.csv"],
            literalRule "report" none ["clean.csv"] ["report.html"]] = .ok compiled ∧
        Closed ((literalEnvironment ["clean.csv".toList]).context
            (literalRequest ["report.html"] []) compiled)
          ["report.html".toList]
          ⟨[literalJob "report" ["clean.csv"] ["report.html"]], {"clean.csv".toList}⟩ := by
  have hrun : resolveWithSourceFallbackAt (literalEnvironment ["clean.csv".toList])
      [literalRule "clean" none ["raw.csv"] ["clean.csv"],
        literalRule "report" none ["clean.csv"] ["report.html"]]
      (literalRequest ["report.html"] []) =
      .ok ⟨[literalJob "report" ["clean.csv"] ["report.html"]], {"clean.csv".toList}⟩ := by
    with_unfolding_all decide
  exact closed_of_resolve hrun

/-- An explicit source that a job for another target makes is a source and an output. -/
theorem not_disjoint_explicit :
    ¬ ∀ (env : Environment Unit Unit Text) (rules : List (Rule Unit))
      (request : ResolveRequest Text) (result : ResolveResult Unit Text),
      resolveWithSourceFallbackAt env rules request = .ok result →
        ∀ job ∈ result.jobs, ∀ output ∈ job.outputPaths,
          env.pathBuf output ∉ result.sources := by
  intro hdisjoint
  have hrun : resolveWithSourceFallbackAt (literalEnvironment ["in.txt".toList])
      [literalRule "split" none ["in.txt"] ["a.txt", "b.txt"]]
      (literalRequest ["a.txt", "b.txt"] ["a.txt"]) =
      .ok ⟨[literalJob "split" ["in.txt"] ["a.txt", "b.txt"]],
        {"in.txt".toList, "a.txt".toList}⟩ := by
    with_unfolding_all decide
  refine hdisjoint _ _ _ _ hrun _ List.mem_cons_self "a.txt".toList List.mem_cons_self ?_
  exact Finset.mem_insert_of_mem (Finset.mem_singleton_self _)

end OxyMake.ResolverClosure
