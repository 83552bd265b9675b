import OxyMake.ResolverOutcomes

/-!
# Resolution in any order

The resolver follows the outcomes of its targets. Where no job makes a path that
another producer is selected for and no chain of dependencies exceeds the limit of
the resolver, whether a resolution succeeds, its jobs and its sources do not depend
on the order of the targets.
-/

namespace OxyMake.ResolverOrder

open List
open Wildcard PlanJournal RuleInstances BackwardChaining Resolver ResolverClosure ResolverOutcomes

variable {Body Rendered Path : Type} [DecidableEq Path] {ctx : Context Body Rendered Path}
  {targets : List Text}

/-! ### Resolutions -/

theorem found_resolveTargets (hcoherent : (scheme ctx).Coherent targets) {rest : List Text}
    (hrest : rest ⊆ targets) {s s' : State Rendered Path}
    (hsettled : Settled ctx targets s.toPlan) (h : resolveTargets ctx rest s = (.ok (), s')) :
    (∀ path ∈ rest, ∃ o, Has (node ctx) path o ∧ o ≠ .missing) ∧
      ∀ P, InputClosed ctx P → (∀ path ∈ rest, P path) →
        ∃ new, Added ((scheme ctx).domain P) rest new s.toPlan s'.toPlan := by
  induction rest generalizing s with
  | nil =>
    cases h
    refine ⟨?_, fun P _ _ => ⟨[], Added.nil _⟩⟩
    intro path hpath
    cases hpath
  | cons first rest ih =>
    rw [resolveTargets] at h
    rcases hcall : resolveTarget ctx (maxResolveDepth + 1) first s with ⟨result, _⟩
    rw [hcall] at h
    cases result with
    | error => cases h
    | ok =>
      have hfound := found_resolveTarget hcoherent (.root (hrest mem_cons_self)) hsettled hcall
      obtain ⟨houtcomes, hadded⟩ :=
        ih (fun path hpath => hrest (.tail _ hpath)) hfound.settled h
      refine ⟨?_, ?_⟩
      · intro path hpath
        rcases mem_cons.mp hpath with rfl | hpath
        · exact hfound.outcome
        · exact houtcomes path hpath
      · intro P hclosed hP
        obtain ⟨new, hnew⟩ := hfound.added P hclosed (hP first mem_cons_self)
        obtain ⟨new', hnew'⟩ := hadded P hclosed fun path hpath =>
          hP path (.tail _ hpath)
        exact ⟨new ++ new', hnew.append hnew'⟩

theorem resolveTargets_ends (hcoherent : (scheme ctx).Coherent targets)
    (hshallow : ∀ path ∈ targets, Shallow (node ctx) maxResolveDepth path) {rest : List Text}
    (hrest : rest ⊆ targets) (houtcomes : ∀ path ∈ rest, ∃ o, Has (node ctx) path o ∧ o ≠ .missing)
    {s : State Rendered Path} (hsettled : Settled ctx targets s.toPlan) (hstack : s.resolving = ∅) :
    ∃ s', resolveTargets ctx rest s = (.ok (), s') := by
  induction rest generalizing s with
  | nil => exact ⟨s, rfl⟩
  | cons first rest ih =>
    have hfirst := hrest mem_cons_self
    obtain ⟨o, ho, hne⟩ := houtcomes first mem_cons_self
    have hends : EndsAs first o s (resolveTarget ctx (maxResolveDepth + 1) first s) := by
      refine resolveTarget_ends hcoherent ((hshallow first hfirst).solves ho) (.root hfirst)
        hsettled ?_ ?_ (Nat.le_succ _)
      · rw [hstack]
        exact fun u hu => absurd hu (Finset.notMem_empty u)
      · rw [hstack, Finset.card_empty, Nat.zero_add]
    rw [resolveTargets]
    rcases hcall : resolveTarget ctx (maxResolveDepth + 1) first s with ⟨_, _⟩
    rw [hcall] at hends
    rcases hends with ⟨hmissing, -⟩ | ⟨-, hok, hsame⟩
    · exact absurd hmissing hne
    · cases hok
      exact ih (fun path hpath => hrest (.tail _ hpath))
        (fun path hpath => houtcomes path (.tail _ hpath))
        (found_resolveTarget hcoherent (.root hfirst) hsettled hcall).settled (hsame.trans hstack)

theorem settled_new : Settled ctx targets (State.new : State Rendered Path).toPlan := by
  intro path hpath
  cases Finset.notMem_empty path hpath

theorem resolve_isOk_iff (hcoherent : (scheme ctx).Coherent targets)
    (hshallow : ∀ path ∈ targets, Shallow (node ctx) maxResolveDepth path) :
    (∃ result, resolve ctx targets = .ok result) ↔
      ∀ path ∈ targets, ∃ o, Has (node ctx) path o ∧ o ≠ .missing := by
  unfold resolve
  constructor
  · rintro ⟨result, h⟩
    split at h
    · cases h
    · rename_i s hrun
      exact (found_resolveTargets hcoherent (List.Subset.refl _) settled_new hrun).1
  · intro houtcomes
    obtain ⟨s, hrun⟩ := resolveTargets_ends hcoherent hshallow (List.Subset.refl _) houtcomes
      settled_new rfl
    rw [hrun]
    exact ⟨_, rfl⟩

theorem inputClosed_live : InputClosed ctx ((scheme ctx).Live targets) :=
  fun _ _ hlive hmade _ hinput => .input hlive hmade hinput

theorem added_of_resolve (hcoherent : (scheme ctx).Coherent targets)
    {result : ResolveResult Rendered Path} (h : resolve ctx targets = .ok result) :
    ∃ p : Plan Text (ConcreteJob Rendered) Path,
      Added ((scheme ctx).domain ((scheme ctx).Live targets)) targets p.jobs Plan.empty p ∧
        result = ⟨p.jobs, p.sources.members⟩ := by
  unfold resolve at h
  split at h
  · cases h
  · rename_i s hrun
    cases h
    obtain ⟨new, hnew⟩ :=
      (found_resolveTargets hcoherent (List.Subset.refl _) settled_new hrun).2 _ inputClosed_live
        fun path hpath => .root hpath
    have hjobs : s.jobs = new := hnew.jobs
    rw [← hjobs] at hnew
    exact ⟨s.toPlan, hnew, rfl⟩

/-! ### Order of the targets -/

variable (ctx) in
/-- A path is an input of the producer of another path. -/
def DependsOn (path input : Text) : Prop :=
  ctx.pathBuf path ∉ ctx.existing ∧ ∃ compiled wildcards inputs,
    Selects ctx path compiled wildcards inputs ∧ ∃ i ∈ inputs, i.path = input

variable (ctx) in
/-- A path is a target or is needed for one, perhaps by a producer that is abandoned. -/
def AskedFor (targets : List Text) (path : Text) : Prop :=
  ∃ target ∈ targets, Relation.ReflTransGen (DependsOn ctx) target path

variable (ctx) in
/-- Where the instance of a producer makes another path that is asked for, that path is no explicit
source and the same instance is selected for it. -/
def Consistent (targets : List Text) : Prop :=
  ∀ path output job, AskedFor ctx targets path → AskedFor ctx targets output →
    ctx.pathBuf path ∉ ctx.existing → MadeFor ctx job path → output ∈ job.outputPaths →
      ctx.pathBuf output ∉ ctx.existing ∧ MadeFor ctx job output

variable (ctx) in
/-- No chain of distinct paths that depend on each other exceeds the limit of the resolver. -/
def WithinDepth (targets : List Text) : Prop :=
  ∀ target ∈ targets, ∀ chain, List.IsChain (DependsOn ctx) (target :: chain) →
    (target :: chain).Nodup → (target :: chain).length ≤ maxResolveDepth

theorem requires_eq_dependsOn : Requires (node ctx) = DependsOn ctx := by
  funext path input
  refine propext ⟨?_, ?_⟩
  · rintro ⟨_, _, hnode, _, hmem⟩
    obtain ⟨hunlisted, compiled, wildcards, inputs, hselects, rfl, -⟩ := selects_of_node hnode
    obtain ⟨i, hi, heq⟩ := mem_map.mp hmem
    cases heq
    exact ⟨hunlisted, compiled, wildcards, inputs, hselects, i, hi, rfl⟩
  · rintro ⟨hunlisted, compiled, wildcards, inputs, hselects, i, hi, rfl⟩
    exact ⟨_, _, node_of_selects hunlisted hselects, _, mem_map_of_mem hi⟩

theorem Consistent.coherent (h : Consistent ctx targets) : (scheme ctx).Coherent targets := by
  intro path output is job hpath houtput hnode hmem
  change Reaches (node ctx) targets path at hpath
  change Reaches (node ctx) targets output at houtput
  unfold Reaches at hpath houtput
  rw [requires_eq_dependsOn] at hpath houtput
  obtain ⟨hunlisted, hmade⟩ := madeFor_of_node hnode
  obtain ⟨hunlisted', hmade'⟩ := h path output job hpath houtput hunlisted hmade hmem
  exact node_of_madeFor hunlisted' hmade'

theorem WithinDepth.shallow (h : WithinDepth ctx targets) :
    ∀ path ∈ targets, Shallow (node ctx) maxResolveDepth path := by
  unfold Shallow
  rw [requires_eq_dependsOn]
  exact h

omit [DecidableEq Path] in
theorem consistent_of_perm {targets' : List Text} (hperm : targets.Perm targets')
    (h : Consistent ctx targets) : Consistent ctx targets' := by
  intro path output job hpath houtput
  obtain ⟨target, htarget, hpath⟩ := hpath
  obtain ⟨target', htarget', houtput⟩ := houtput
  exact h path output job ⟨target, hperm.mem_iff.mpr htarget, hpath⟩
    ⟨target', hperm.mem_iff.mpr htarget', houtput⟩

theorem same_result {targets' : List Text} (hperm : targets.Perm targets')
    (hcoherent : (scheme ctx).Coherent targets) (hcoherent' : (scheme ctx).Coherent targets')
    {result result' : ResolveResult Rendered Path} (h : resolve ctx targets = .ok result)
    (h' : resolve ctx targets' = .ok result') :
    (∀ job, job ∈ result.jobs ↔ job ∈ result'.jobs) ∧ result.sources = result'.sources := by
  obtain ⟨p, hp, rfl⟩ := added_of_resolve hcoherent h
  obtain ⟨_, hp', rfl⟩ := added_of_resolve hcoherent' h'
  have hlive : ∀ path, (scheme ctx).Live targets path ↔ (scheme ctx).Live targets' path :=
    fun path => ⟨fun hpath => hpath.mono hperm.subset, fun hpath => hpath.mono hperm.symm.subset⟩
  constructor
  · intro job
    dsimp only
    rw [Scheme.mem_jobs_iff hcoherent hp, Scheme.mem_jobs_iff hcoherent' hp']
    simp only [hlive]
  · ext source
    dsimp only
    rw [Scheme.mem_sources_iff hcoherent hp, Scheme.mem_sources_iff hcoherent' hp']
    simp only [hlive]

theorem madeFor_of_resolve (hcoherent : (scheme ctx).Coherent targets)
    {result : ResolveResult Rendered Path} (h : resolve ctx targets = .ok result)
    {job : ConcreteJob Rendered} (hjob : job ∈ result.jobs) {output : Text}
    (houtput : output ∈ job.outputPaths) (hneeded : Needed targets result.jobs output) :
    MadeFor ctx job output := by
  obtain ⟨p, hp, rfl⟩ := added_of_resolve hcoherent h
  have hlive : (scheme ctx).Live targets output := by
    rcases hneeded with htarget | ⟨job', hjob', hinput⟩
    · exact .root htarget
    · obtain ⟨_, hpath, hmade⟩ := (Scheme.mem_jobs_iff hcoherent hp job').mp hjob'
      exact .input hpath hmade hinput
  obtain ⟨_, hnode, -⟩ :=
    (Scheme.has_made_of_mem hcoherent hp hlive hjob houtput).inputs_of_made
  exact (madeFor_of_node hnode).2

theorem conditions_of_covered (covered : List Text) (htargets : targets ⊆ covered)
    (hinputs : ∀ path ∈ covered, ∀ input ∈ (node ctx path).inputs, input ∈ covered)
    (hlength : covered.length ≤ maxResolveDepth)
    (hjobs : ∀ path ∈ covered, ∀ job ∈ (node ctx path).job, ∀ output ∈ covered,
      output ∈ job.outputPaths → (node ctx output).job = some job) :
    Consistent ctx targets ∧ WithinDepth ctx targets := by
  have hasked : ∀ {path}, AskedFor ctx targets path → path ∈ covered := by
    unfold AskedFor
    rw [← requires_eq_dependsOn]
    exact fun h => mem_of_reaches hinputs htargets h
  constructor
  · intro path output job hpath houtput hunlisted hmade hmem
    obtain ⟨_, hnode⟩ := node_of_madeFor hunlisted hmade
    have hjob : job ∈ (node ctx path).job := by
      rw [hnode]
      rfl
    have hsame := hjobs path (hasked hpath) job hjob output (hasked houtput) hmem
    cases hnode' : node ctx output with
    | needs =>
      rw [hnode'] at hsame
      cases hsame
      exact madeFor_of_node hnode'
    | leaf | missing | stuck =>
      rw [hnode'] at hsame
      cases hsame
  · intro target htarget
    have hshallow := shallow_of_covered hinputs (htargets htarget) hlength
    unfold Shallow at hshallow
    rw [requires_eq_dependsOn] at hshallow
    exact hshallow

/-- The order of the targets changes neither whether a resolution succeeds nor its jobs and
sources, and needed paths are made by the instances of their producers. -/
theorem resolution_order_independent (env : Environment Body Rendered Path)
    (rules : List (Rule Body)) (request : ResolveRequest Path) {targets' : List Text}
    (hperm : request.targets.Perm targets')
    (hconditions : ∀ compiled, compileRules env.machine request.config rules = .ok compiled →
      Consistent (env.context request compiled) request.targets ∧
        WithinDepth (env.context request compiled) request.targets) :
    ((∃ result, resolveWithSourceFallbackAt env rules request = .ok result) ↔
      ∃ result, resolveWithSourceFallbackAt env rules { request with targets := targets' } =
        .ok result) ∧
      ∀ result result', resolveWithSourceFallbackAt env rules request = .ok result →
        resolveWithSourceFallbackAt env rules { request with targets := targets' } = .ok result' →
        (∀ job, job ∈ result.jobs ↔ job ∈ result'.jobs) ∧ result.sources = result'.sources ∧
          ∃ compiled, compileRules env.machine request.config rules = .ok compiled ∧
            ∀ job ∈ result.jobs, ∀ output ∈ job.outputPaths,
              Needed request.targets result.jobs output →
                MadeFor (env.context request compiled) job output := by
  unfold resolveWithSourceFallbackAt
  dsimp only
  cases hcompiled : compileRules env.machine request.config rules with
  | error =>
    refine ⟨Iff.rfl, ?_⟩
    intro result result' h
    cases h
  | ok compiled =>
    obtain ⟨hconsistent, hdepth⟩ := hconditions compiled hcompiled
    have hcoherent := hconsistent.coherent
    have hcoherent' := (consistent_of_perm hperm hconsistent).coherent
    have hdepth' : WithinDepth (env.context request compiled) targets' :=
      fun target htarget => hdepth target (hperm.mem_iff.mpr htarget)
    refine ⟨?_, ?_⟩
    · refine (resolve_isOk_iff hcoherent hdepth.shallow).trans
        (Iff.trans ?_ (resolve_isOk_iff hcoherent' hdepth'.shallow).symm)
      exact ⟨fun h path hpath => h path (hperm.mem_iff.mpr hpath),
        fun h path hpath => h path (hperm.mem_iff.mp hpath)⟩
    · intro result result' h h'
      obtain ⟨hjobs, hsources⟩ := same_result hperm hcoherent hcoherent' h h'
      exact ⟨hjobs, hsources, compiled, rfl, fun job hjob output houtput hneeded =>
        madeFor_of_resolve hcoherent h hjob houtput hneeded⟩

/-- A rule with two outputs, and a rule that needs both. -/
def splitRules : List (Rule Unit) :=
  [literalRule "split" none ["in.txt"] ["a.txt", "b.txt"],
    literalRule "merge" none ["a.txt", "b.txt"] ["out.txt"]]

/-- An intermediate file and the file made of it, in both orders. -/
theorem resolution_order_independent_split :
    ∃ result result',
      resolveWithSourceFallbackAt (literalEnvironment ["in.txt".toList]) splitRules
        (literalRequest ["b.txt", "out.txt"] []) = .ok result ∧
      resolveWithSourceFallbackAt (literalEnvironment ["in.txt".toList]) splitRules
        (literalRequest ["out.txt", "b.txt"] []) = .ok result' ∧
      (∀ job, job ∈ result.jobs ↔ job ∈ result'.jobs) ∧ result.sources = result'.sources := by
  have hrun : resolveWithSourceFallbackAt (literalEnvironment ["in.txt".toList]) splitRules
      (literalRequest ["b.txt", "out.txt"] []) =
      .ok ⟨[literalJob "split" ["in.txt"] ["a.txt", "b.txt"],
        literalJob "merge" ["a.txt", "b.txt"] ["out.txt"]], {"in.txt".toList}⟩ := by
    with_unfolding_all decide
  have hconditions : ∀ compiled, compileRules (literalMachine ["in.txt".toList]) ⟨[], []⟩
      splitRules = .ok compiled →
      Consistent ((literalEnvironment ["in.txt".toList]).context
          (literalRequest ["b.txt", "out.txt"] []) compiled) ["b.txt".toList, "out.txt".toList] ∧
        WithinDepth ((literalEnvironment ["in.txt".toList]).context
          (literalRequest ["b.txt", "out.txt"] []) compiled)
            ["b.txt".toList, "out.txt".toList] := by
    intro compiled hcompiled
    obtain rfl : (compileRules (literalMachine ["in.txt".toList]) ⟨[], []⟩
        splitRules).toOption.getD [] = compiled := by
      rw [hcompiled]
      rfl
    exact conditions_of_covered
      ["b.txt".toList, "out.txt".toList, "a.txt".toList, "in.txt".toList]
      (by decide) (by with_unfolding_all decide) (by with_unfolding_all decide) (by with_unfolding_all decide)
  obtain ⟨hiff, hsame⟩ := resolution_order_independent (literalEnvironment ["in.txt".toList])
    splitRules (literalRequest ["b.txt", "out.txt"] []) (List.Perm.swap _ _ []) hconditions
  obtain ⟨result', hrun'⟩ := hiff.mp ⟨_, hrun⟩
  obtain ⟨hjobs, hsources, -⟩ := hsame _ result' hrun hrun'
  exact ⟨_, result', hrun, hrun', hjobs, hsources⟩

/-! ### Chains at the limit -/

/-- Values of the pattern that begins with a letter. -/
def chainCaptures : List Segment → Text → Option (List Text)
  | [.literal ['x'], .wildcard _], 'x' :: c :: rest =>
    if '/' ∈ c :: rest then none else some [c :: rest]
  | _, _ => none

theorem fills_of_chainCaptures {segments : List Segment} {path : Text} {values : List Text}
    (h : chainCaptures segments path = some values) : Fills segments values path := by
  unfold chainCaptures at h
  split at h
  · rename_i name c rest
    split_ifs at h
    cases h
    have hfills := Fills.literal ['x'] (Fills.wildcard name (c :: rest) Fills.nil)
    rw [append_nil] at hfills
    exact hfills
  · cases h

def chainEnvironment : Environment Unit Unit Text where
  machine :=
    { alphanumeric := Char.isAlphanum
      regexes :=
        { valid := fun _ => true
          isMatch := fun expression text => decide (expression <:+: text)
          captures := fun segments _ path => chainCaptures segments path
          fills := fills_of_chainCaptures }
      envVar := fun _ => none
      fileExists := fun path => path = ['x'] }
  pathBuf := id
  isPresent := fun path => path = ['x']
  isFile := fun path => path = ['x']
  allowSourceFallback := fun _ => false
  render := fun _ _ _ _ _ => .ok ()

/-- A rule that makes a path from the path with one letter less. -/
def chainRule : Rule Unit := literalRule "next" none ["\x7bn\x7d"] ["x\x7bn\x7d"]

def chainCompiled : CompiledRule Unit where
  rule := chainRule
  inputs := [(literalInput "\x7bn\x7d", ⟨"\x7bn\x7d".toList, [.wildcard ['n']]⟩)]
  outputs := [(literalOutput "x\x7bn\x7d",
    ⟨"x\x7bn\x7d".toList, [.literal ['x'], .wildcard ['n']]⟩)]

theorem compileRules_chain (config : Config) :
    compileRules chainEnvironment.machine config [chainRule] = .ok [chainCompiled] := by
  with_unfolding_all rfl

def chainPath (k : ℕ) : Text := List.replicate (k + 1) 'x'

def chainRequest (ks : List ℕ) : ResolveRequest Text := ⟨ks.map chainPath, ⟨[], []⟩, []⟩

def chainContext : Context Unit Unit Text :=
  chainEnvironment.context (chainRequest []) [chainCompiled]

theorem matchRule_chain (k : ℕ) :
    matchRule chainContext.machine chainCompiled (chainPath (k + 1)) =
      some [(['n'], chainPath k)] := by
  have hslash : '/' ∉ 'x' :: List.replicate k 'x' := by
    intro h
    have := eq_of_mem_replicate (n := k + 1) h
    cases this
  have hcaptures : chainContext.machine.regexes.captures [.literal ['x'], .wildcard ['n']] []
      (chainPath (k + 1)) = some [chainPath k] := by
    change (if '/' ∈ 'x' :: List.replicate k 'x' then none
      else some ['x' :: List.replicate k 'x']) = _
    rw [if_neg hslash]
    rfl
  have hresolve : resolvePattern chainContext.machine chainCompiled.rule.wildcardConstraints
      ⟨"x\x7bn\x7d".toList, [.literal ['x'], .wildcard ['n']]⟩ (chainPath (k + 1)) =
      some [(['n'], chainPath k)] := by
    unfold resolvePattern
    rw [show chainCompiled.rule.wildcardConstraints = [] from rfl, hcaptures]
    rfl
  change List.findSome? _ [_] = _
  rw [findSome?_cons]
  dsimp only
  rw [hresolve]

theorem selects_chain (k : ℕ) :
    Selects chainContext (chainPath (k + 1)) chainCompiled [(['n'], chainPath k)]
      [⟨chainPath k, literalInput "\x7bn\x7d", true⟩] := by
  refine ⟨?_, rfl, ?_⟩
  · unfold findProducer candidates
    rw [show chainContext.rules = [chainCompiled] from rfl, filterMap_cons, matchRule_chain]
    rfl
  · have hpath : (⟨"\x7bn\x7d".toList, [.wildcard ['n']]⟩ : Pattern).interpolate
        [(['n'], chainPath k)] = .ok (chainPath k) := by
      change Except.ok (chainPath k ++ []) = _
      rw [append_nil]
    rw [show chainCompiled.inputs = [(literalInput "\x7bn\x7d",
      ⟨"\x7bn\x7d".toList, [.wildcard ['n']]⟩)] from rfl, concreteInputs]
    unfold expandInput
    dsimp only
    rw [hpath]
    rfl

theorem not_existing_chain (k : ℕ) :
    chainContext.pathBuf (chainPath k) ∉ chainContext.existing := by
  intro h
  cases h

theorem resolveInputs_chain {depth k : ℕ} {target : Text} {s : State Unit Text} :
    resolveInputs (resolveTarget chainContext depth) target
        (mayFallBack chainContext target [(['n'], chainPath k)])
        [⟨chainPath k, literalInput "\x7bn\x7d", true⟩] false s =
      match resolveTarget chainContext depth (chainPath k) s with
      | (.ok (), s') => (.ok false, s')
      | (.error e, s') => (.error e, (s'.leave (chainPath k)).leave target) := by
  have hmay : ∀ input, mayFallBack chainContext target [(['n'], chainPath k)] input = false :=
    fun input => Bool.and_false _
  rw [resolveInputs]
  rcases resolveTarget chainContext depth (chainPath k) s with ⟨result, s'⟩
  cases result with
  | ok => rfl
  | error =>
    dsimp only
    rw [if_neg]
    rw [hmay]
    exact fun h => Bool.false_ne_true h.2

theorem chain_fails {depth k : ℕ} {s : State Unit Text}
    (hproduced : ∀ j ≤ k, chainPath j ∉ s.produced.members)
    (hcard : maxResolveDepth ≤ s.resolving.card + k) :
    ∃ e, (resolveTarget chainContext depth (chainPath k) s).1 = .error e := by
  induction k generalizing depth s with
  | zero =>
    cases depth with
    | zero => exact ⟨_, rfl⟩
    | succ =>
      rw [resolveTarget, if_neg (hproduced 0 (le_refl 0)), if_pos (by exact hcard)]
      exact ⟨_, rfl⟩
  | succ k ih =>
    cases depth with
    | zero => exact ⟨_, rfl⟩
    | succ depth =>
      have hstep := targetStep_resolveTarget chainContext depth (chainPath (k + 1)) s
      generalize resolveTarget chainContext (depth + 1) (chainPath (k + 1)) s = r at hstep ⊢
      have hinput : Enters chainContext (chainPath (k + 1)) s → ∃ e,
          (resolveTarget chainContext depth (chainPath k) (s.enter (chainPath (k + 1)))).1 =
            .error e := by
        intro henters
        refine ih (fun j hj => hproduced j (Nat.le_succ_of_le hj)) ?_
        change maxResolveDepth ≤ (insert (chainPath (k + 1)) s.resolving).card + k
        rw [Finset.card_insert_of_notMem henters.fresh]
        omega
      have hselected : ∀ {compiled wildcards inputs use} {s' : State Unit Text},
          Enters chainContext (chainPath (k + 1)) s →
          Selects chainContext (chainPath (k + 1)) compiled wildcards inputs →
          resolveInputs (resolveTarget chainContext depth) (chainPath (k + 1))
            (mayFallBack chainContext (chainPath (k + 1)) wildcards) inputs false
            (s.enter (chainPath (k + 1))) ≠ (.ok use, s') := by
        intro compiled wildcards inputs use s' henters hselects hloop
        obtain ⟨rfl, rfl, rfl⟩ := (selects_chain k).unique hselects
        obtain ⟨e, he⟩ := hinput henters
        rw [resolveInputs_chain] at hloop
        rcases hcall : resolveTarget chainContext depth (chainPath k)
          (s.enter (chainPath (k + 1))) with ⟨_, _⟩
        rw [hcall] at hloop he
        cases he
        cases hloop
      cases hstep with
      | produced h => exact absurd h (hproduced (k + 1) (le_refl _))
      | existing _ _ h => exact absurd h (not_existing_chain (k + 1))
      | leaf _ hnone => exact absurd (selects_chain k) hnone.not_selects
      | fallback henters hselects hloop => exact absurd hloop (hselected henters hselects)
      | built henters hselects hloop => exact absurd hloop (hselected henters hselects)
      | tooDeep _ _ => exact ⟨_, rfl⟩
      | cycle _ _ _ => exact ⟨_, rfl⟩
      | missing _ _ _ => exact ⟨_, rfl⟩
      | rejected _ _ _ _ _ _ => exact ⟨_, rfl⟩
      | blocked _ _ _ => exact ⟨_, rfl⟩
      | unbuilt _ _ _ _ => exact ⟨_, rfl⟩

theorem buildJob_chain (k : ℕ) :
    buildJob chainContext chainCompiled [(['n'], chainPath k)]
      [⟨chainPath k, literalInput "\x7bn\x7d", true⟩] ≠ none := by
  intro h
  cases h

theorem chain_resolves {depth k : ℕ} {s : State Unit Text}
    (hproduced : chainPath 1 ∈ s.produced.members)
    (hfresh : ∀ j ≤ k + 1, chainPath j ∉ s.resolving)
    (hcard : s.resolving.card + k ≤ maxResolveDepth) (hfuel : k < depth) :
    (resolveTarget chainContext depth (chainPath (k + 1)) s).1 = .ok () := by
  induction k generalizing depth s with
  | zero =>
    obtain ⟨depth, rfl⟩ := Nat.exists_eq_add_of_lt hfuel
    rw [resolveTarget, if_pos hproduced]
  | succ k ih =>
    obtain ⟨depth, rfl⟩ : ∃ d, depth = d + 1 := ⟨depth - 1, by omega⟩
    have hstep := targetStep_resolveTarget chainContext depth (chainPath (k + 2)) s
    generalize resolveTarget chainContext (depth + 1) (chainPath (k + 2)) s = r at hstep ⊢
    have hselected : ∀ {compiled wildcards inputs},
        Enters chainContext (chainPath (k + 2)) s →
        Selects chainContext (chainPath (k + 2)) compiled wildcards inputs → ∃ s',
        resolveInputs (resolveTarget chainContext depth) (chainPath (k + 2))
          (mayFallBack chainContext (chainPath (k + 2)) wildcards) inputs false
          (s.enter (chainPath (k + 2))) = (.ok false, s') := by
      intro compiled wildcards inputs henters hselects
      obtain ⟨rfl, rfl, rfl⟩ := (selects_chain (k + 1)).unique hselects
      have hcall : (resolveTarget chainContext depth (chainPath (k + 1))
          (s.enter (chainPath (k + 2)))).1 = .ok () := by
        refine ih hproduced ?_ ?_ (by omega)
        · intro j hj hmem
          rcases Finset.mem_insert.mp hmem with heq | hmem
          · have hlength := congrArg List.length heq
            simp only [chainPath, length_replicate] at hlength
            omega
          · exact hfresh j (Nat.le_succ_of_le hj) hmem
        · change (insert (chainPath (k + 2)) s.resolving).card + k ≤ maxResolveDepth
          rw [Finset.card_insert_of_notMem henters.fresh]
          omega
      rw [resolveInputs_chain]
      rcases hresult : resolveTarget chainContext depth (chainPath (k + 1))
        (s.enter (chainPath (k + 2))) with ⟨_, s₁⟩
      rw [hresult] at hcall
      cases hcall
      exact ⟨s₁, rfl⟩
    cases hstep with
    | produced | existing | leaf | fallback | built => rfl
    | tooDeep => omega
    | cycle _ hmem _ => exact absurd hmem (hfresh (k + 2) (le_refl _))
    | missing _ hnone => exact absurd (selects_chain (k + 1)) hnone.not_selects
    | rejected _ hrejects _ _ _ _ => exact absurd (selects_chain (k + 1)) (hrejects.2 _ _ _)
    | blocked henters hselects hloop =>
      obtain ⟨s', hok⟩ := hselected henters hselects
      cases hloop.symm.trans hok
    | unbuilt _ hselects _ hjob =>
      obtain ⟨rfl, rfl, rfl⟩ := (selects_chain (k + 1)).unique hselects
      exact absurd (buildJob_of_addJob_error hjob) (buildJob_chain (k + 1))

theorem chain_start :
    (resolveTarget chainContext (maxResolveDepth + 1) (chainPath 1) State.new).1 = .ok () ∧
      chainPath 1 ∈
        (resolveTarget chainContext (maxResolveDepth + 1) (chainPath 1)
          State.new).2.produced.members ∧
      (resolveTarget chainContext (maxResolveDepth + 1) (chainPath 1) State.new).2.resolving = ∅ := by
  with_unfolding_all decide

theorem chain_last {s : State Unit Text} (hproduced : chainPath 1 ∈ s.produced.members)
    (hstack : s.resolving = ∅) :
    (resolveTarget chainContext (maxResolveDepth + 1) (chainPath maxResolveDepth) s).1 = .ok () := by
  obtain ⟨m, hm⟩ : ∃ m, maxResolveDepth = m + 1 := ⟨999, rfl⟩
  rw [hm]
  refine chain_resolves hproduced ?_ ?_ (Nat.lt_succ_of_lt (Nat.lt_succ_self m))
  · rw [hstack]
    exact fun j _ => Finset.notMem_empty _
  · rw [hstack, hm, Finset.card_empty, Nat.zero_add]
    exact Nat.le_succ m

theorem resolve_pair {first second : Text}
    (hfirst : (resolveTarget ctx (maxResolveDepth + 1) first State.new).1 = .ok ())
    (hsecond : (resolveTarget ctx (maxResolveDepth + 1) second
      (resolveTarget ctx (maxResolveDepth + 1) first State.new).2).1 = .ok ()) :
    ∃ result, resolve ctx [first, second] = .ok result := by
  unfold resolve
  rcases hcall : resolveTarget ctx (maxResolveDepth + 1) first State.new with ⟨result, s⟩
  rw [hcall] at hfirst hsecond
  cases hfirst
  rcases hcall' : resolveTarget ctx (maxResolveDepth + 1) second s with ⟨_, _⟩
  rw [hcall'] at hsecond
  cases hsecond
  rw [resolveTargets, hcall]
  dsimp only
  rw [resolveTargets, hcall']
  exact ⟨_, rfl⟩

theorem not_resolve_cons {first : Text} {rest : List Text} {e : DagError}
    (hfirst : (resolveTarget ctx (maxResolveDepth + 1) first State.new).1 = .error e) :
    ¬ ∃ result, resolve ctx (first :: rest) = .ok result := by
  unfold resolve
  rintro ⟨result, h⟩
  rcases hcall : resolveTarget ctx (maxResolveDepth + 1) first State.new with ⟨_, s⟩
  rw [hcall] at hfirst
  cases hfirst
  rw [resolveTargets, hcall] at h
  cases h

theorem resolve_chain (ks : List ℕ) :
    resolveWithSourceFallbackAt chainEnvironment [chainRule] (chainRequest ks) =
      resolve chainContext (ks.map chainPath) := by
  unfold resolveWithSourceFallbackAt
  rw [compileRules_chain]
  rfl

theorem chain_order :
    (∃ result, resolveWithSourceFallbackAt chainEnvironment [chainRule]
      (chainRequest [1, maxResolveDepth]) = .ok result) ∧
      ¬ ∃ result, resolveWithSourceFallbackAt chainEnvironment [chainRule]
        (chainRequest [maxResolveDepth, 1]) = .ok result := by
  simp only [resolve_chain, map_cons, map_nil]
  constructor
  · obtain ⟨hok, hproduced, hstack⟩ := chain_start
    exact resolve_pair hok (chain_last hproduced hstack)
  · obtain ⟨e, he⟩ := chain_fails (s := State.new) (k := maxResolveDepth)
      (fun j _ => Finset.notMem_empty _) (Nat.le_add_left _ _)
    exact not_resolve_cons he

/-- An output that a rule with a higher priority makes as well. -/
def priorityRules : List (Rule Unit) :=
  [literalRule "both" none [] ["p", "q"], literalRule "better" (some 10) [] ["q"]]

/-- Without the conditions the order decides whether a chain at the limit is resolved and which of
two producers makes a path. -/
theorem not_order_independent :
    (¬ ∀ (env : Environment Unit Unit Text) (rules : List (Rule Unit))
      (request : ResolveRequest Text) (targets' : List Text),
      request.targets.Perm targets' →
        ((∃ result, resolveWithSourceFallbackAt env rules request = .ok result) ↔
          ∃ result, resolveWithSourceFallbackAt env rules { request with targets := targets' } =
            .ok result)) ∧
      ¬ ∀ (env : Environment Unit Unit Text) (rules : List (Rule Unit))
        (request : ResolveRequest Text) (targets' : List Text),
        request.targets.Perm targets' → ∀ result result',
          resolveWithSourceFallbackAt env rules request = .ok result →
          resolveWithSourceFallbackAt env rules { request with targets := targets' } =
            .ok result' →
          ∀ job, job ∈ result.jobs ↔ job ∈ result'.jobs := by
  constructor
  · intro hsame
    obtain ⟨hok, hfails⟩ := chain_order
    exact hfails ((hsame chainEnvironment [chainRule] (chainRequest [1, maxResolveDepth])
      [chainPath maxResolveDepth, chainPath 1] (List.Perm.swap _ _ [])).mp hok)
  · intro hsame
    have hrun : resolveWithSourceFallbackAt (literalEnvironment []) priorityRules
        (literalRequest ["p", "q"] []) = .ok ⟨[literalJob "both" [] ["p", "q"]], ∅⟩ := by
      with_unfolding_all decide
    have hrun' : resolveWithSourceFallbackAt (literalEnvironment []) priorityRules
        (literalRequest ["q", "p"] []) =
        .ok ⟨[literalJob "better" [] ["q"], literalJob "both" [] ["p", "q"]], ∅⟩ := by
      with_unfolding_all decide
    have hjob := (hsame _ _ _ _ (List.Perm.swap _ _ []) _ _ hrun hrun'
      (literalJob "better" [] ["q"])).mpr mem_cons_self
    exact absurd hjob (by decide)

end OxyMake.ResolverOrder
