import OxyMake.Resolver

/-!
# What one call of the resolver does

A call of the resolver for a target returns at once, finds a source, fails, or
resolves the inputs of the target's producer and then adds its job or goes back to
the plan before. Failing or not, it takes nothing back of the plan it was given.
-/

namespace OxyMake.Resolver

open Wildcard PlanJournal RuleInstances

variable {Body Rendered Path : Type} [DecidableEq Path] {ctx : Context Body Rendered Path}

/-- The producer of a target with its wildcards and inputs. -/
structure Selects (ctx : Context Body Rendered Path) (target : Text)
    (compiled : CompiledRule Body) (wildcards : Wildcards) (inputs : List ConcreteInput) :
    Prop where
  /-- The rule is found for the target. -/
  found : findProducer ctx.machine ctx.rules target = .ok (compiled, wildcards)
  guarded : guardHolds ctx compiled wildcards = true
  inputs_eq : concreteInputs ctx.machine ctx.config compiled wildcards compiled.inputs = .ok inputs

def NoRule (ctx : Context Body Rendered Path) (target : Text) : Prop :=
  ∃ path, findProducer ctx.machine ctx.rules target = .error (.noProducer path)

omit [DecidableEq Path] in
theorem Selects.unique {target : Text} {compiled compiled' : CompiledRule Body}
    {wildcards wildcards' : Wildcards} {inputs inputs' : List ConcreteInput}
    (h : Selects ctx target compiled wildcards inputs)
    (h' : Selects ctx target compiled' wildcards' inputs') :
    compiled = compiled' ∧ wildcards = wildcards' ∧ inputs = inputs' := by
  have hfound := h.found
  rw [h'.found] at hfound
  cases hfound
  have hinputs := h.inputs_eq
  rw [h'.inputs_eq] at hinputs
  cases hinputs
  exact ⟨rfl, rfl, rfl⟩

omit [DecidableEq Path] in
theorem NoRule.not_selects {target : Text} (h : NoRule ctx target)
    {compiled : CompiledRule Body} {wildcards : Wildcards} {inputs : List ConcreteInput} :
    ¬ Selects ctx target compiled wildcards inputs := by
  intro hselects
  obtain ⟨_, hpath⟩ := h
  have hfound := hselects.found
  rw [hpath] at hfound
  cases hfound

/-- The producer of a target is ambiguous, or its guard or inputs fail. -/
def Rejects (ctx : Context Body Rendered Path) (target : Text) : Prop :=
  ¬ NoRule ctx target ∧ ∀ compiled wildcards inputs, ¬ Selects ctx target compiled wildcards inputs

/-- A target is looked up among the rules. -/
structure Enters (ctx : Context Body Rendered Path) (target : Text) (s : State Rendered Path) :
    Prop where
  unproduced : target ∉ s.produced.members
  /-- The chain is not too deep. -/
  shallow : s.resolving.card < maxResolveDepth
  unlisted : ctx.pathBuf target ∉ ctx.existing
  fresh : target ∉ s.resolving

/-- What a call for a target does, in terms of calls for its inputs. -/
inductive TargetStep (ctx : Context Body Rendered Path)
    (resolve : Text → State Rendered Path → Except DagError Unit × State Rendered Path)
    (target : Text) (s : State Rendered Path) : Except DagError Unit × State Rendered Path → Prop
  /-- A job makes the target already. -/
  | produced (h : target ∈ s.produced.members) : TargetStep ctx resolve target s (.ok (), s)
  | tooDeep (h : target ∉ s.produced.members) (hdeep : maxResolveDepth ≤ s.resolving.card) :
      TargetStep ctx resolve target s
        (.error (.dependencyChainTooDeep target maxResolveDepth), s)
  /-- The target is an explicit source. -/
  | existing (h : target ∉ s.produced.members) (hshallow : s.resolving.card < maxResolveDepth)
      (hexisting : ctx.pathBuf target ∈ ctx.existing) :
      TargetStep ctx resolve target s (.ok (), s.addSource (ctx.pathBuf target))
  | cycle (h : target ∉ s.produced.members) (hmem : target ∈ s.resolving)
      (hunlisted : ctx.pathBuf target ∉ ctx.existing) :
      TargetStep ctx resolve target s (.error (.cycleDetected s.resolving), s)
  /-- No rule makes the target, and it is on disk. -/
  | leaf (h : Enters ctx target s) (hnone : NoRule ctx target)
      (hpresent : ctx.isPresent target = true) :
      TargetStep ctx resolve target s
        (.ok (), ((s.enter target).addSource (ctx.pathBuf target)).leave target)
  /-- No rule makes the target, and it is not on disk. -/
  | missing (h : Enters ctx target s) (hnone : NoRule ctx target)
      (habsent : ctx.isPresent target = false) :
      TargetStep ctx resolve target s
        (.error (.wildcard (.missingSource target)), s.enter target)
  | rejected (h : Enters ctx target s) (hrejects : Rejects ctx target) (e : DagError)
      (he : ∀ path, e ≠ .wildcard (.missingSource path)) (s' : State Rendered Path)
      (hs' : s'.toPlan = s.toPlan) : TargetStep ctx resolve target s (.error e, s')
  | blocked (h : Enters ctx target s) {compiled : CompiledRule Body} {wildcards : Wildcards}
      {inputs : List ConcreteInput} (hselects : Selects ctx target compiled wildcards inputs)
      {e : DagError} {s' : State Rendered Path}
      (hinputs : resolveInputs resolve target (mayFallBack ctx target wildcards) inputs false
        (s.enter target) = (.error e, s')) :
      TargetStep ctx resolve target s (.error e, s')
  /-- A missing input was passed over, and the file of the target stands in. -/
  | fallback (h : Enters ctx target s) {compiled : CompiledRule Body} {wildcards : Wildcards}
      {inputs : List ConcreteInput} (hselects : Selects ctx target compiled wildcards inputs)
      {s' : State Rendered Path}
      (hinputs : resolveInputs resolve target (mayFallBack ctx target wildcards) inputs false
        (s.enter target) = (.ok true, s')) :
      TargetStep ctx resolve target s
        (.ok (), State.addSource (ctx.pathBuf target) (State.leave target { s' with
          toPlan := s'.toPlan.rollback s.jobs.length s.produced.log.length s.sources.log.length }))
  | unbuilt (h : Enters ctx target s) {compiled : CompiledRule Body} {wildcards : Wildcards}
      {inputs : List ConcreteInput} (hselects : Selects ctx target compiled wildcards inputs)
      {s' s'' : State Rendered Path} {e : DagError}
      (hinputs : resolveInputs resolve target (mayFallBack ctx target wildcards) inputs false
        (s.enter target) = (.ok false, s'))
      (hjob : addJob ctx compiled wildcards inputs s' = (.error e, s'')) :
      TargetStep ctx resolve target s (.error e, s'')
  | built (h : Enters ctx target s) {compiled : CompiledRule Body} {wildcards : Wildcards}
      {inputs : List ConcreteInput} (hselects : Selects ctx target compiled wildcards inputs)
      {s' s'' : State Rendered Path}
      (hinputs : resolveInputs resolve target (mayFallBack ctx target wildcards) inputs false
        (s.enter target) = (.ok false, s'))
      (hjob : addJob ctx compiled wildcards inputs s' = (.ok (), s'')) :
      TargetStep ctx resolve target s (.ok (), s''.leave target)

/-! ### Errors of the inputs -/

def NoMissing {α : Type} (x : Except WildcardError α) : Prop :=
  ∀ path, x ≠ .error (.missingSource path)

theorem noMissing_ok {α : Type} (a : α) : NoMissing (.ok a : Except WildcardError α) := by
  intro path h
  cases h

theorem NoMissing.bind {α β : Type} {x : Except WildcardError α} {f : α → Except WildcardError β}
    (hx : NoMissing x) (hf : ∀ a, NoMissing (f a)) : NoMissing (x >>= f) := by
  intro path h
  cases hresult : x with
  | error =>
    rw [hresult] at h
    cases h
    exact hx path hresult
  | ok a =>
    rw [hresult] at h
    exact hf a path h

theorem noMissing_interpolateSegments (w : Wildcards) (segments : List Segment) :
    NoMissing (interpolateSegments w segments) := by
  induction segments with
  | nil => exact noMissing_ok _
  | cons segment segments ih =>
    cases segment with
    | literal =>
      rw [interpolateSegments]
      exact ih.bind fun rest => noMissing_ok _
    | wildcard name =>
      rw [interpolateSegments]
      cases w.lookup name with
      | none =>
        intro path h
        cases h
      | some => exact ih.bind fun rest => noMissing_ok _

theorem noMissing_wildcardLists (config : Config) (names : List Text) :
    NoMissing (wildcardLists config names) := by
  induction names with
  | nil => exact noMissing_ok _
  | cons name names ih =>
    rw [wildcardLists]
    split
    · intro path h
      cases h
    · exact ih.bind fun rest => noMissing_ok _

theorem noMissing_zipLists (lists : List (Text × List Text)) : NoMissing (zipLists lists) := by
  have hlengths : ∀ first rest, NoMissing (checkLengths first rest) := by
    intro first rest
    induction rest with
    | nil => exact noMissing_ok _
    | cons entry rest ih =>
      rw [checkLengths]
      split_ifs
      · intro path h
        cases h
      · exact ih
  cases lists with
  | nil => exact noMissing_ok _
  | cons first rest => exact (hlengths first rest).bind fun _ => noMissing_ok _

theorem noMissing_validateConstraints (machine : Machine) (w : Wildcards)
    (constraints : List (Text × Text)) : NoMissing (validateConstraints machine w constraints) := by
  induction constraints with
  | nil => exact noMissing_ok _
  | cons entry constraints ih =>
    rw [validateConstraints]
    split
    · split_ifs
      · exact ih
      · intro path h
        cases h
    · exact ih

theorem noMissing_concreteInputs (machine : Machine) (config : Config)
    (compiled : CompiledRule Body) (w : Wildcards) (inputs : List (InputPattern × Pattern)) :
    NoMissing (concreteInputs machine config compiled w inputs) := by
  have hcombos : ∀ input combos, NoMissing (expandCombos machine compiled w input combos) := by
    intro input combos
    induction combos with
    | nil => exact noMissing_ok _
    | cons combo combos ih =>
      exact (noMissing_validateConstraints machine _ _).bind fun _ =>
        (noMissing_interpolateSegments _ _).bind fun _ => ih.bind fun _ => noMissing_ok _
  have hinput : ∀ input, NoMissing (expandInput machine config compiled w input) := by
    intro input
    unfold expandInput
    split
    · exact noMissing_ok _
    · refine (noMissing_wildcardLists config _).bind fun lists => ?_
      cases compiled.rule.expandMode with
      | product => exact (noMissing_ok _).bind fun combos => hcombos input combos
      | zip => exact (noMissing_zipLists lists).bind fun combos => hcombos input combos
    · rename_i e herror
      intro path h
      cases h
      exact noMissing_interpolateSegments w input.2.segments path herror
  induction inputs with
  | nil => exact noMissing_ok _
  | cons input inputs ih => exact (hinput input).bind fun _ => ih.bind fun _ => noMissing_ok _

theorem noMissing_concreteOutputs (w : Wildcards) (patterns : List (OutputPattern × Pattern)) :
    NoMissing (concreteOutputs w patterns) := by
  induction patterns with
  | nil => exact noMissing_ok _
  | cons first patterns ih =>
    rw [concreteOutputs]
    split
    · rename_i e herror
      intro path h
      cases h
      exact noMissing_interpolateSegments w first.2.segments path herror
    · split
      · rename_i e herror
        intro path h
        cases h
        exact ih path herror
      · exact noMissing_ok _

theorem noMissing_findProducer (machine : Machine) (rules : List (CompiledRule Body))
    (target : Text) : NoMissing (findProducer machine rules target) := by
  intro path h
  unfold findProducer at h
  split at h
  · cases h
  · cases h
  · split at h
    · split_ifs at h
      cases h
    · cases h

/-! ### Adding a job -/

theorem addOutputs_spec (wildcards : Wildcards) (patterns : List (OutputPattern × Pattern))
    (s : State Rendered Path) :
    (addOutputs wildcards patterns s).1 = concreteOutputs wildcards patterns ∧
      s.toPlan.Extends (addOutputs wildcards patterns s).2.toPlan ∧
      ∀ outputs, concreteOutputs wildcards patterns = .ok outputs →
        (addOutputs wildcards patterns s).2 =
          { s with toPlan := s.toPlan.addProduced (outputs.map ResolvedOutput.path) } := by
  induction patterns generalizing s with
  | nil =>
    refine ⟨rfl, Plan.Extends.refl _, ?_⟩
    intro outputs houtputs
    cases houtputs
    rfl
  | cons first patterns ih =>
    obtain ⟨_, pattern⟩ := first
    rw [addOutputs, concreteOutputs]
    cases pattern.interpolate wildcards with
    | error => exact ⟨rfl, Plan.Extends.refl _, fun outputs h => by cases h⟩
    | ok path =>
      obtain ⟨hresult, hgrown, hstate⟩ := ih { s with produced := s.produced.insert path }
      have hfirst : s.toPlan.Extends { s.toPlan with produced := s.produced.insert path } :=
        ⟨List.prefix_refl _, Journal.log_prefix_insert _ _, List.prefix_refl _⟩
      dsimp only
      rw [← hresult]
      rcases hrest : addOutputs wildcards patterns { s with produced := s.produced.insert path }
        with ⟨result, _⟩
      rw [hrest] at hgrown hresult hstate
      cases result with
      | error => exact ⟨rfl, hfirst.trans hgrown, fun outputs h => by cases h⟩
      | ok rest =>
        refine ⟨rfl, hfirst.trans hgrown, ?_⟩
        intro outputs houtputs
        cases houtputs
        exact hstate rest hresult.symm

variable (ctx) in
def buildJob (compiled : CompiledRule Body) (wildcards : Wildcards) (inputs : List ConcreteInput) :
    Option (ConcreteJob Rendered) :=
  match concreteOutputs wildcards compiled.outputs with
  | .error _ => none
  | .ok outputs =>
    match ctx.render ctx.config compiled.rule wildcards
      (inputs.map fun i => (i.path, i.source.name)) (outputs.map fun o => (o.path, o.name)) with
    | .error _ => none
    | .ok rendered =>
      some
        { id := buildJobId compiled.rule.name wildcards
          rule := compiled.rule.name
          wildcards := wildcards
          inputs := inputs.map fun i => ⟨i.path, i.source.name, i.source.format⟩
          outputs := outputs
          rendered := rendered }

def ConcreteJob.inputPaths (job : ConcreteJob Rendered) : List Text :=
  job.inputs.map ResolvedInput.path

def ConcreteJob.outputPaths (job : ConcreteJob Rendered) : List Text :=
  job.outputs.map ResolvedOutput.path

variable (ctx) in
theorem addJob_spec (compiled : CompiledRule Body) (wildcards : Wildcards)
    (inputs : List ConcreteInput) (s : State Rendered Path) :
    s.toPlan.Extends (addJob ctx compiled wildcards inputs s).2.toPlan ∧
      match buildJob ctx compiled wildcards inputs with
      | none => ∃ e, (addJob ctx compiled wildcards inputs s).1 = .error e ∧
          ∀ path, e ≠ .wildcard (.missingSource path)
      | some job => addJob ctx compiled wildcards inputs s =
          (.ok (), { s with toPlan := (s.toPlan.addProduced job.outputPaths).push job }) := by
  obtain ⟨hresult, hgrown, hstate⟩ := addOutputs_spec wildcards compiled.outputs s
  unfold addJob buildJob
  rw [← hresult]
  rcases hcall : addOutputs wildcards compiled.outputs s with ⟨result, _⟩
  rw [hcall] at hgrown hresult hstate
  cases result with
  | error =>
    refine ⟨hgrown, _, rfl, ?_⟩
    intro path h
    cases h
    exact absurd hresult.symm (noMissing_concreteOutputs wildcards compiled.outputs path)
  | ok outputs =>
    have hs' := hstate outputs hresult.symm
    dsimp only at hs' ⊢
    cases ctx.render ctx.config compiled.rule wildcards
      (inputs.map fun i => (i.path, i.source.name)) (outputs.map fun o => (o.path, o.name)) with
    | error unknown =>
      refine ⟨hgrown, _, rfl, ?_⟩
      intro path h
      cases h
    | ok rendered =>
      refine ⟨hgrown.trans (Plan.extends_push _ _), ?_⟩
      dsimp only
      rw [hs']
      rfl

theorem grown_addJob {compiled : CompiledRule Body} {wildcards : Wildcards}
    {inputs : List ConcreteInput} {s s' : State Rendered Path} {result : Except DagError Unit}
    (h : addJob ctx compiled wildcards inputs s = (result, s')) : s.toPlan.Extends s'.toPlan := by
  have hgrown := (addJob_spec ctx compiled wildcards inputs s).1
  rw [h] at hgrown
  exact hgrown

theorem noMissing_addJob {compiled : CompiledRule Body} {wildcards : Wildcards}
    {inputs : List ConcreteInput} {s s' : State Rendered Path} {e : DagError}
    (h : addJob ctx compiled wildcards inputs s = (.error e, s')) (path : Text) :
    e ≠ .wildcard (.missingSource path) := by
  obtain ⟨-, hbuild⟩ := addJob_spec ctx compiled wildcards inputs s
  split at hbuild
  · obtain ⟨_, he', hne⟩ := hbuild
    rw [h] at he'
    cases he'
    exact hne path
  · rw [h] at hbuild
    cases hbuild

theorem buildJob_of_addJob_error {compiled : CompiledRule Body} {wildcards : Wildcards}
    {inputs : List ConcreteInput} {s s' : State Rendered Path} {e : DagError}
    (h : addJob ctx compiled wildcards inputs s = (.error e, s')) :
    buildJob ctx compiled wildcards inputs = none := by
  obtain ⟨-, hbuild⟩ := addJob_spec ctx compiled wildcards inputs s
  cases hjob : buildJob ctx compiled wildcards inputs with
  | none => rfl
  | some =>
    rw [hjob, h] at hbuild
    cases hbuild

theorem exists_job_of_addJob {compiled : CompiledRule Body} {wildcards : Wildcards}
    {inputs : List ConcreteInput} {s s' : State Rendered Path}
    (h : addJob ctx compiled wildcards inputs s = (.ok (), s')) :
    ∃ job, buildJob ctx compiled wildcards inputs = some job ∧
      s' = { s with toPlan := (s.toPlan.addProduced job.outputPaths).push job } := by
  obtain ⟨-, hbuild⟩ := addJob_spec ctx compiled wildcards inputs s
  split at hbuild
  · obtain ⟨e, he, -⟩ := hbuild
    rw [h] at he
    cases he
  · rename_i job hjob
    rw [h] at hbuild
    cases hbuild
    exact ⟨job, hjob, rfl⟩

/-! ### One call -/

variable (ctx) in
theorem targetStep_resolveTarget (depth : ℕ) (target : Text) (s : State Rendered Path) :
    TargetStep ctx (resolveTarget ctx depth) target s (resolveTarget ctx (depth + 1) target s) := by
  rw [resolveTarget]
  by_cases hproduced : target ∈ s.produced.members
  · rw [if_pos hproduced]
    exact .produced hproduced
  rw [if_neg hproduced]
  by_cases hdeep : s.resolving.card ≥ maxResolveDepth
  · rw [if_pos hdeep]
    exact .tooDeep hproduced hdeep
  rw [if_neg hdeep]
  by_cases hexisting : ctx.pathBuf target ∈ ctx.existing
  · rw [if_pos hexisting]
    exact .existing hproduced (not_le.mp hdeep) hexisting
  rw [if_neg hexisting]
  by_cases hresolving : target ∈ s.resolving
  · rw [if_pos hresolving]
    exact .cycle hproduced hresolving hexisting
  · rw [if_neg hresolving]
    have henters : Enters ctx target s := ⟨hproduced, not_le.mp hdeep, hexisting, hresolving⟩
    dsimp only
    cases hfound : findProducer ctx.machine ctx.rules target with
    | error e =>
      by_cases hnone : ∃ path, e = .noProducer path
      · obtain ⟨path, rfl⟩ := hnone
        dsimp only
        split_ifs with hpresent
        · exact .leaf henters ⟨path, hfound⟩ hpresent
        · exact .missing henters ⟨path, hfound⟩ (Bool.eq_false_of_not_eq_true hpresent)
      · have hrejects : Rejects ctx target := by
          refine ⟨?_, ?_⟩
          · rintro ⟨path, hpath⟩
            rw [hfound] at hpath
            cases hpath
            exact hnone ⟨path, rfl⟩
          · intro compiled wildcards inputs hselects
            have := hselects.found
            rw [hfound] at this
            cases this
        have he : ∀ path, DagError.wildcard e ≠ .wildcard (.missingSource path) := by
          intro path h
          cases h
          exact noMissing_findProducer ctx.machine ctx.rules target path hfound
        cases e with
        | noProducer path => exact absurd ⟨path, rfl⟩ hnone
        | invalidPattern | unresolvableWildcard | missingSource | ambiguousProducer =>
          exact .rejected henters hrejects _ he _ rfl
        | constraintViolation =>
          exact .rejected henters hrejects _ he _ rfl
        | unknownConfigKey => exact .rejected henters hrejects _ he _ rfl
    | ok found =>
      obtain ⟨compiled, wildcards⟩ := found
      have hnoRule : ¬ NoRule ctx target := by
        rintro ⟨path, hpath⟩
        rw [hfound] at hpath
        cases hpath
      dsimp only
      split_ifs with hguard
      · refine .rejected henters ⟨hnoRule, ?_⟩ _ ?_ _ rfl
        · intro compiled' wildcards' inputs hselects
          have hsame := hselects.found
          rw [hfound] at hsame
          cases hsame
          have hholds := hselects.guarded
          rw [hguard] at hholds
          cases hholds
        · intro path h
          cases h
      · cases hinputs : concreteInputs ctx.machine ctx.config compiled wildcards
          compiled.inputs with
        | error e =>
          refine .rejected henters ⟨hnoRule, ?_⟩ _ ?_ _ rfl
          · intro compiled' wildcards' inputs hselects
            have hsame := hselects.found
            rw [hfound] at hsame
            cases hsame
            have hboth := hselects.inputs_eq
            rw [hinputs] at hboth
            cases hboth
          · intro path h
            cases h
            exact noMissing_concreteInputs _ _ _ _ _ path hinputs
        | ok inputs =>
          have hselects : Selects ctx target compiled wildcards inputs :=
            ⟨hfound, Bool.eq_true_of_not_eq_false hguard, hinputs⟩
          dsimp only
          rcases hloop : resolveInputs (resolveTarget ctx depth) target
            (mayFallBack ctx target wildcards) inputs false (s.enter target) with ⟨result, s'⟩
          cases result with
          | error => exact .blocked henters hselects hloop
          | ok useSourceFallback =>
            cases useSourceFallback with
            | true => exact .fallback henters hselects hloop
            | false =>
              dsimp only
              rcases hjob : addJob ctx compiled wildcards inputs s' with ⟨result, _⟩
              cases result with
              | error => exact .unbuilt henters hselects hloop hjob
              | ok => exact .built henters hselects hloop hjob

/-! ### Inputs and whole calls -/

section Inputs

variable {resolve : Text → State Rendered Path → Except DagError Unit × State Rendered Path}
  {target : Text} {passOver : ConcreteInput → Bool}

variable (target passOver) in
theorem grown_resolveInputs
    (h : ∀ path (s : State Rendered Path), s.toPlan.Extends (resolve path s).2.toPlan)
    (inputs : List ConcreteInput) (use : Bool) (s : State Rendered Path) :
    s.toPlan.Extends (resolveInputs resolve target passOver inputs use s).2.toPlan := by
  induction inputs generalizing use s with
  | nil => exact Plan.Extends.refl _
  | cons input inputs ih =>
    have hfirst := h input.path s
    rw [resolveInputs]
    rcases hcall : resolve input.path s with ⟨result, s'⟩
    rw [hcall] at hfirst
    cases result with
    | ok => exact hfirst.trans (ih use s')
    | error =>
      dsimp only
      split_ifs
      · exact hfirst.trans (ih true (s'.leave input.path))
      · exact hfirst

theorem resolveInputs_eq_false {inputs : List ConcreteInput} {use : Bool}
    {s s' : State Rendered Path}
    (h : resolveInputs resolve target passOver inputs use s = (.ok false, s')) :
    use = false ∧ (inputs = [] ∧ s' = s ∨ ∃ input rest s₁, inputs = input :: rest ∧
      resolve input.path s = (.ok (), s₁) ∧
      resolveInputs resolve target passOver rest false s₁ = (.ok false, s')) := by
  induction inputs generalizing use s with
  | nil =>
    cases h
    exact ⟨rfl, .inl ⟨rfl, rfl⟩⟩
  | cons input inputs ih =>
    rw [resolveInputs] at h
    rcases hcall : resolve input.path s with ⟨result, s₁⟩
    rw [hcall] at h
    cases result with
    | ok =>
      obtain ⟨rfl, -⟩ := ih h
      exact ⟨rfl, .inr ⟨input, inputs, s₁, rfl, hcall, h⟩⟩
    | error =>
      dsimp only at h
      split_ifs at h
      · obtain ⟨huse, -⟩ := ih h
        cases huse
      · cases h

theorem exists_passed_of_resolveInputs {inputs : List ConcreteInput} {s s' : State Rendered Path}
    (h : resolveInputs resolve target passOver inputs false s = (.ok true, s')) :
    ∃ input ∈ inputs, passOver input = true ∧ ∃ s₁ s₂,
      resolve input.path s₁ = (.error (.wildcard (.missingSource input.path)), s₂) := by
  induction inputs generalizing s with
  | nil => cases h
  | cons input inputs ih =>
    rw [resolveInputs] at h
    rcases hcall : resolve input.path s with ⟨result, s₁⟩
    rw [hcall] at h
    cases result with
    | ok =>
      obtain ⟨passed, hmem, hpassed⟩ := ih h
      exact ⟨passed, List.mem_cons_of_mem _ hmem, hpassed⟩
    | error =>
      dsimp only at h
      split_ifs at h with hmissing
      · obtain ⟨rfl, hpass⟩ := hmissing
        exact ⟨input, List.mem_cons_self, hpass, s, s₁, hcall⟩
      · cases h

theorem exists_error_of_resolveInputs {inputs : List ConcreteInput} {use : Bool}
    {s s' : State Rendered Path} {e : DagError}
    (h : resolveInputs resolve target passOver inputs use s = (.error e, s')) :
    ∃ input ∈ inputs, ∃ s₁ s₂, resolve input.path s₁ = (.error e, s₂) := by
  induction inputs generalizing use s with
  | nil => cases h
  | cons input inputs ih =>
    rw [resolveInputs] at h
    rcases hcall : resolve input.path s with ⟨result, s₁⟩
    rw [hcall] at h
    cases result with
    | ok =>
      obtain ⟨failed, hmem, hfailed⟩ := ih h
      exact ⟨failed, List.mem_cons_of_mem _ hmem, hfailed⟩
    | error =>
      dsimp only at h
      split_ifs at h with hmissing
      · obtain ⟨failed, hmem, hfailed⟩ := ih h
        exact ⟨failed, List.mem_cons_of_mem _ hmem, hfailed⟩
      · cases h
        exact ⟨input, List.mem_cons_self, s, s₁, hcall⟩

end Inputs

variable (ctx) in
theorem grown_resolveTarget (depth : ℕ) (target : Text) (s : State Rendered Path) :
    s.toPlan.Extends (resolveTarget ctx depth target s).2.toPlan := by
  induction depth generalizing target s with
  | zero => exact Plan.Extends.refl _
  | succ depth ih =>
    have hinputs : ∀ {passOver inputs result} {s' : State Rendered Path},
        resolveInputs (resolveTarget ctx depth) target passOver inputs false (s.enter target) =
          (result, s') → s.toPlan.Extends s'.toPlan := by
      intro passOver inputs result s' hloop
      have hgrown := grown_resolveInputs target passOver ih inputs false (s.enter target)
      rw [hloop] at hgrown
      exact hgrown
    have hstep := targetStep_resolveTarget ctx depth target s
    generalize resolveTarget ctx (depth + 1) target s = r at hstep ⊢
    cases hstep with
    | produced | tooDeep | cycle | missing => exact Plan.Extends.refl _
    | existing | leaf => exact Plan.extends_addSource _ _
    | rejected h hrejects e he s' hs' =>
      dsimp only
      rw [hs']
      exact Plan.Extends.refl _
    | blocked h hselects hloop => exact hinputs hloop
    | fallback h hselects hloop =>
      change s.toPlan.Extends (Plan.addSource _ (Plan.rollback _ _ _ _))
      rw [Plan.rollback_of_extends (hinputs hloop)]
      exact Plan.extends_addSource _ _
    | unbuilt h hselects hloop hjob => exact (hinputs hloop).trans (grown_addJob hjob)
    | built h hselects hloop hjob =>
      have hjob := grown_addJob hjob
      exact (hinputs hloop).trans hjob

theorem extends_of_resolveInputs {depth : ℕ} {target : Text} {passOver : ConcreteInput → Bool}
    {inputs : List ConcreteInput} {use : Bool} {s s' : State Rendered Path}
    {result : Except DagError Bool}
    (h : resolveInputs (resolveTarget ctx depth) target passOver inputs use s = (result, s')) :
    s.toPlan.Extends s'.toPlan := by
  have hgrown := grown_resolveInputs target passOver (grown_resolveTarget ctx depth) inputs use s
  rw [h] at hgrown
  exact hgrown

/-- A path that no rule makes, that is no explicit source and not on disk. -/
structure Missing (ctx : Context Body Rendered Path) (path : Text) : Prop where
  noRule : NoRule ctx path
  absent : ctx.isPresent path = false
  unlisted : ctx.pathBuf path ∉ ctx.existing

theorem missing_of_resolveTarget {depth : ℕ} {target path : Text} {s s' : State Rendered Path}
    (h : resolveTarget ctx depth target s = (.error (.wildcard (.missingSource path)), s')) :
    Missing ctx path := by
  induction depth generalizing target s s' with
  | zero => cases h
  | succ depth ih =>
    have hstep := targetStep_resolveTarget ctx depth target s
    rw [h] at hstep
    cases hstep with
    | missing henters hnone habsent => exact ⟨hnone, habsent, henters.unlisted⟩
    | rejected henters hrejects e he => exact absurd rfl (he path)
    | blocked henters hselects hloop =>
      obtain ⟨_, -, _, _, hcall⟩ := exists_error_of_resolveInputs hloop
      exact ih hcall
    | unbuilt henters hselects hloop hjob => exact absurd rfl (noMissing_addJob hjob path)

end OxyMake.Resolver
