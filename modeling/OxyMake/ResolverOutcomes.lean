import OxyMake.BackwardChaining
import OxyMake.ResolverClosure

/-!
# Outcomes of targets

The rules and the disk alone say what becomes of a path: it is a source, it is
missing, or the instance of its producer makes it after its inputs. A call of the
resolver that succeeds has found this outcome, whatever was resolved before, and
a call for a path with an outcome succeeds as long as the chain of targets being
resolved stays below the limit.
-/

namespace OxyMake.ResolverOutcomes

open List
open Wildcard PlanJournal RuleInstances BackwardChaining Resolver ResolverClosure

variable {Body Rendered Path : Type} [DecidableEq Path]

/-! ### Paths as goals -/

/-- What the rules and the disk say about a path. -/
def node (ctx : Context Body Rendered Path) (target : Text) : Node Text (ConcreteJob Rendered) :=
  if ctx.pathBuf target ∈ ctx.existing then .leaf
  else
    match findProducer ctx.machine ctx.rules target with
    | .error (.noProducer _) => if ctx.isPresent target then .leaf else .missing
    | .error _ => .stuck
    | .ok (compiled, wildcards) =>
      if guardHolds ctx compiled wildcards = false then .stuck
      else
        match concreteInputs ctx.machine ctx.config compiled wildcards compiled.inputs with
        | .error _ => .stuck
        | .ok inputs =>
          .needs (inputs.map fun input => (input.path, mayFallBack ctx target wildcards input))
            (buildJob ctx compiled wildcards inputs)

variable {ctx : Context Body Rendered Path} {target : Text}

theorem node_of_existing (h : ctx.pathBuf target ∈ ctx.existing) : node ctx target = .leaf := by
  unfold node
  rw [if_pos h]

theorem node_of_noRule (hunlisted : ctx.pathBuf target ∉ ctx.existing)
    (h : NoRule ctx target) :
    node ctx target = if ctx.isPresent target then .leaf else .missing := by
  obtain ⟨_, hpath⟩ := h
  unfold node
  rw [if_neg hunlisted, hpath]

theorem node_of_selects (hunlisted : ctx.pathBuf target ∉ ctx.existing)
    {compiled : CompiledRule Body} {wildcards : Wildcards} {inputs : List ConcreteInput}
    (h : Selects ctx target compiled wildcards inputs) :
    node ctx target =
      .needs (inputs.map fun input => (input.path, mayFallBack ctx target wildcards input))
        (buildJob ctx compiled wildcards inputs) := by
  unfold node
  rw [if_neg hunlisted, h.found]
  dsimp only
  rw [if_neg (by rw [h.guarded]; decide), h.inputs_eq]

theorem selects_of_node {is : List (Text × Bool)} {job : Option (ConcreteJob Rendered)}
    (h : node ctx target = .needs is job) :
    ctx.pathBuf target ∉ ctx.existing ∧ ∃ compiled wildcards inputs,
      Selects ctx target compiled wildcards inputs ∧
      is = inputs.map (fun input => (input.path, mayFallBack ctx target wildcards input)) ∧
      job = buildJob ctx compiled wildcards inputs := by
  unfold node at h
  by_cases hexisting : ctx.pathBuf target ∈ ctx.existing
  · rw [if_pos hexisting] at h
    cases h
  rw [if_neg hexisting] at h
  refine ⟨hexisting, ?_⟩
  split at h
  · split_ifs at h
  · cases h
  · rename_i compiled wildcards hfound
    split_ifs at h with hguard
    split at h
    · cases h
    · rename_i inputs hinputs
      cases h
      exact ⟨compiled, wildcards, inputs,
        ⟨hfound, Bool.eq_true_of_not_eq_false hguard, hinputs⟩, rfl, rfl⟩

theorem node_of_rejects (hunlisted : ctx.pathBuf target ∉ ctx.existing)
    (h : Rejects ctx target) : node ctx target = .stuck := by
  unfold node
  rw [if_neg hunlisted]
  split
  · rename_i path hpath
    exact absurd ⟨path, hpath⟩ h.1
  · rfl
  · rename_i compiled wildcards hfound
    split_ifs with hguard
    · rfl
    · split
      · rfl
      · rename_i inputs hinputs
        exact absurd ⟨hfound, Bool.eq_true_of_not_eq_false hguard, hinputs⟩
          (h.2 compiled wildcards inputs)

theorem node_of_missing (h : Missing ctx target) : node ctx target = .missing := by
  rw [node_of_noRule h.unlisted h.noRule, h.absent]
  rfl

variable (ctx) in
def scheme : Scheme Text (ConcreteJob Rendered) Path where
  node := node ctx
  inputs := ConcreteJob.inputPaths
  outputs := ConcreteJob.outputPaths
  leaf := ctx.pathBuf
  inputs_eq := by
    intro target is job h
    obtain ⟨-, _, _, inputs, hselects, rfl, hjob⟩ := selects_of_node h
    rw [(buildJob_spec hselects hjob.symm).1, map_map]
    rfl

theorem node_of_madeFor (hunlisted : ctx.pathBuf target ∉ ctx.existing)
    {job : ConcreteJob Rendered} (h : MadeFor ctx job target) :
    ∃ is, node ctx target = .needs is (some job) := by
  obtain ⟨_, _, _, hselects, hbuild⟩ := h
  rw [node_of_selects hunlisted hselects, hbuild]
  exact ⟨_, rfl⟩

theorem madeFor_of_node {is : List (Text × Bool)} {job : ConcreteJob Rendered}
    (h : node ctx target = .needs is (some job)) :
    ctx.pathBuf target ∉ ctx.existing ∧ MadeFor ctx job target := by
  obtain ⟨hunlisted, compiled, wildcards, inputs, hselects, -, hjob⟩ := selects_of_node h
  exact ⟨hunlisted, compiled, wildcards, inputs, hselects, hjob.symm⟩

/-! ### What a call finds -/

variable {targets : List Text}

variable (ctx) in
/-- The jobs of a plan are the outcomes of the paths they make. -/
def Settled (targets : List Text) (p : Plan Text (ConcreteJob Rendered) Path) : Prop :=
  ∀ path ∈ p.produced.members, Reaches (node ctx) targets path →
    ∃ job, Has (node ctx) path (.made job)

variable (ctx) in
/-- A set of paths contains the inputs of the jobs that make its paths. -/
def InputClosed (P : Text → Prop) : Prop :=
  ∀ path job, P path → Has (node ctx) path (.made job) → ∀ input ∈ job.inputPaths, P input

variable (ctx) in
/-- A call found the outcome of its target and added what it needs. -/
structure Found (targets : List Text) (path : Text) (s s' : State Rendered Path) : Prop where
  settled : Settled ctx targets s'.toPlan
  outcome : ∃ o, Has (node ctx) path o ∧ o ≠ .missing
  added : ∀ P, InputClosed ctx P → P path →
    ∃ new, Added ((scheme ctx).domain P) [path] new s.toPlan s'.toPlan

theorem found_leaf {path : Text} {s s' : State Rendered Path}
    (hsettled : Settled ctx targets s.toPlan) (hleaf : Has (node ctx) path .leaf)
    (hs' : s'.toPlan = s.toPlan.addSource (ctx.pathBuf path)) : Found ctx targets path s s' where
  settled := by
    rw [hs']
    exact hsettled
  outcome := ⟨.leaf, hleaf, Outcome.leaf_ne_missing⟩
  added := by
    intro P hclosed hpath
    rw [hs']
    exact ⟨[], Added.leaf_root (d := (scheme ctx).domain P) ⟨hpath, hleaf⟩ s.toPlan⟩

theorem found_job {path : Text} {job : ConcreteJob Rendered} {s s₁ s' : State Rendered Path}
    (hcoherent : (scheme ctx).Coherent targets) (hreach : Reaches (node ctx) targets path)
    (hmade : Has (node ctx) path (.made job)) (houtput : path ∈ job.outputPaths)
    (hsettled : Settled ctx targets s₁.toPlan)
    (hinputs : ∀ P, InputClosed ctx P → (∀ input ∈ job.inputPaths, P input) →
      ∃ new, Added ((scheme ctx).domain P) job.inputPaths new s.toPlan s₁.toPlan)
    (hs' : s'.toPlan = (s₁.toPlan.addProduced job.outputPaths).push job) :
    Found ctx targets path s s' where
  settled := by
    rw [hs']
    intro g hg hreach'
    rcases (Plan.mem_addProduced _ _ _).mp hg with hg | hg
    · exact hsettled g hg hreach'
    · exact ⟨job, hcoherent.has_made hreach hreach' hmade hg⟩
  outcome := ⟨.made job, hmade, Outcome.made_ne_missing job⟩
  added := by
    intro P hclosed hpath
    obtain ⟨new, hnew⟩ := hinputs P hclosed (hclosed path job hpath hmade)
    rw [hs']
    exact ⟨new ++ [job],
      Added.push (d := (scheme ctx).domain P) hnew houtput ⟨hpath, hmade⟩⟩

theorem missing_of_call {depth : ℕ} {s s' : State Rendered Path}
    (h : resolveTarget ctx depth target s =
      (.error (.wildcard (.missingSource target)), s')) :
    Missing ctx target ∧ s' = s.enter target := by
  have hmissing := missing_of_resolveTarget h
  refine ⟨hmissing, ?_⟩
  cases depth with
  | zero => cases h
  | succ depth =>
    have hstep := targetStep_resolveTarget ctx depth target s
    rw [h] at hstep
    cases hstep with
    | missing => rfl
    | rejected _ _ e he => exact absurd rfl (he target)
    | blocked _ hselects => exact absurd hselects hmissing.noRule.not_selects
    | unbuilt _ hselects => exact absurd hselects hmissing.noRule.not_selects

variable (ctx) in
/-- Resolving inputs found their outcomes; `use` and `use'` say whether an input was passed over
before and after. -/
structure FoundInputs (targets : List Text) (passOver : ConcreteInput → Bool)
    (inputs : List ConcreteInput) (use use' : Bool) (s s' : State Rendered Path) : Prop where
  settled : Settled ctx targets s'.toPlan
  /-- Only inputs that may be passed over are missing. -/
  outcomes : ∀ input ∈ inputs, ∃ o, Has (node ctx) input.path o ∧
    (o = .missing → passOver input = true ∧ use' = true)
  keeps : use = true → use' = true
  /-- Inputs are passed over where one is missing. -/
  passed : use' = true → use = true ∨ ∃ input ∈ inputs, Has (node ctx) input.path .missing
  /-- If none is passed over, the plan follows the outcomes. -/
  added : use' = false → ∀ P, InputClosed ctx P → (∀ input ∈ inputs, P input.path) →
    ∃ new, Added ((scheme ctx).domain P) (inputs.map ConcreteInput.path) new s.toPlan s'.toPlan

theorem found_resolveInputs {depth : ℕ}
    (hcall : ∀ path s s', Reaches (node ctx) targets path → Settled ctx targets s.toPlan →
      resolveTarget ctx depth path s = (.ok (), s') → Found ctx targets path s s')
    {passOver : ConcreteInput → Bool} {inputs : List ConcreteInput} {use use' : Bool}
    {s s' : State Rendered Path}
    (h : resolveInputs (resolveTarget ctx depth) target passOver inputs use s = (.ok use', s'))
    (hreach : ∀ input ∈ inputs, Reaches (node ctx) targets input.path)
    (hsettled : Settled ctx targets s.toPlan) :
    FoundInputs ctx targets passOver inputs use use' s s' := by
  induction inputs generalizing use s with
  | nil =>
    cases h
    refine ⟨hsettled, ?_, id, .inl, fun _ P _ _ => ⟨[], Added.nil _⟩⟩
    intro input hinput
    cases hinput
  | cons input inputs ih =>
    have hrest : ∀ input ∈ inputs, Reaches (node ctx) targets input.path :=
      fun i hi => hreach i (.tail _ hi)
    rw [resolveInputs] at h
    rcases hfirst : resolveTarget ctx depth input.path s with ⟨result, _⟩
    rw [hfirst] at h
    cases result with
    | ok =>
      have hfound := hcall _ _ _ (hreach input mem_cons_self) hsettled hfirst
      have hinputs := ih h hrest hfound.settled
      refine ⟨hinputs.settled, ?_, hinputs.keeps, ?_, ?_⟩
      · intro i hi
        rcases mem_cons.mp hi with rfl | hi
        · obtain ⟨o, ho, hne⟩ := hfound.outcome
          exact ⟨o, ho, fun heq => absurd heq hne⟩
        · exact hinputs.outcomes i hi
      · intro huse'
        rcases hinputs.passed huse' with huse | ⟨i, hi, hmissing⟩
        · exact .inl huse
        · exact .inr ⟨i, mem_cons_of_mem _ hi, hmissing⟩
      · intro huse' P hclosed hP
        obtain ⟨new, hnew⟩ := hfound.added P hclosed (hP input mem_cons_self)
        obtain ⟨new', hnew'⟩ :=
          hinputs.added huse' P hclosed fun i hi => hP i (.tail _ hi)
        exact ⟨new ++ new', hnew.append hnew'⟩
    | error =>
      dsimp only at h
      split_ifs at h with hpass
      · obtain ⟨rfl, hmay⟩ := hpass
        obtain ⟨hmissing, rfl⟩ := missing_of_call hfirst
        have houtcome : Has (node ctx) input.path .missing := ⟨1, .missing (node_of_missing hmissing)⟩
        have hinputs := ih h hrest hsettled
        have huse' := hinputs.keeps rfl
        refine ⟨hinputs.settled, ?_, fun _ => huse', ?_, ?_⟩
        · intro i hi
          rcases mem_cons.mp hi with rfl | hi
          · exact ⟨.missing, houtcome, fun _ => ⟨hmay, huse'⟩⟩
          · exact hinputs.outcomes i hi
        · exact fun _ => .inr ⟨input, mem_cons_self, houtcome⟩
        · intro hfalse
          rw [huse'] at hfalse
          cases hfalse
      · cases h

theorem found_resolveTarget (hcoherent : (scheme ctx).Coherent targets) {depth : ℕ} {path : Text}
    {s s' : State Rendered Path} (hreach : Reaches (node ctx) targets path)
    (hsettled : Settled ctx targets s.toPlan)
    (h : resolveTarget ctx depth path s = (.ok (), s')) : Found ctx targets path s s' := by
  induction depth generalizing path s s' with
  | zero => cases h
  | succ depth ih =>
    have hstep := targetStep_resolveTarget ctx depth path s
    rw [h] at hstep
    generalize hresult : ((.ok (), s') : Except DagError Unit × State Rendered Path) = r at hstep
    cases hstep with
    | produced hproduced =>
      cases hresult
      obtain ⟨job, hjob⟩ := hsettled path hproduced hreach
      exact ⟨hsettled, ⟨.made job, hjob, Outcome.made_ne_missing job⟩,
        fun P _ _ => ⟨[], Added.produced_root hproduced⟩⟩
    | existing _ _ hexisting =>
      cases hresult
      exact found_leaf hsettled ⟨1, .leaf (node_of_existing hexisting)⟩ rfl
    | leaf henters hnone hpresent =>
      cases hresult
      have hnode : node ctx path = .leaf := by
        rw [node_of_noRule henters.unlisted hnone, hpresent]
        rfl
      exact found_leaf hsettled ⟨1, .leaf hnode⟩ rfl
    | fallback henters hselects hloop =>
      cases hresult
      have hnode := node_of_selects henters.unlisted hselects
      have hinputs := found_resolveInputs (fun _ _ _ hr hs hc => ih hr hs hc) hloop
        (fun input hinput => hreach.input hnode (mem_map_of_mem hinput)) hsettled
      have hgrown := extends_of_resolveInputs hloop
      change s.toPlan.Extends _ at hgrown
      refine found_leaf hsettled ?_
        (congrArg (Plan.addSource (ctx.pathBuf path)) (Plan.rollback_of_extends hgrown))
      obtain hfalse | ⟨input, hinput, hmissing⟩ := hinputs.passed rfl
      · cases hfalse
      · refine Has.abandoned hnode ?_ (mem_map_of_mem hinput) hmissing
        intro i hi
        obtain ⟨input', hinput', rfl⟩ := mem_map.mp hi
        obtain ⟨o, ho, hpass⟩ := hinputs.outcomes input' hinput'
        exact ⟨o, ho, fun heq => (hpass heq).1⟩
    | built henters hselects hloop hjob =>
      cases hresult
      obtain ⟨job, hbuild, rfl⟩ := exists_job_of_addJob hjob
      have hnode := node_of_selects henters.unlisted hselects
      have hinputs := found_resolveInputs (fun _ _ _ hr hs hc => ih hr hs hc) hloop
        (fun input hinput => hreach.input hnode (mem_map_of_mem hinput)) hsettled
      obtain ⟨hpaths, houtput⟩ := buildJob_spec hselects hbuild
      rw [hbuild] at hnode
      refine found_job hcoherent hreach ?_ houtput hinputs.settled ?_ rfl
      · refine Has.made hnode ?_
        intro i hi
        obtain ⟨input, hinput, rfl⟩ := mem_map.mp hi
        obtain ⟨o, ho, hpass⟩ := hinputs.outcomes input hinput
        exact ⟨o, ho, fun heq => nomatch (hpass heq).2⟩
      · intro P hclosed hP
        rw [hpaths] at hP ⊢
        exact hinputs.added rfl P hclosed fun input hinput => hP _ (mem_map_of_mem hinput)
    | tooDeep | cycle | missing | rejected | blocked | unbuilt => cases hresult

/-! ### What a call does not miss -/

theorem erase_enter {s : State Rendered Path} {path : Text} (h : path ∉ s.resolving) :
    (s.enter path).resolving.erase path = s.resolving :=
  Finset.erase_insert h

variable (ctx) in
/-- A call ends as the outcome of its target says, with the same targets being resolved. -/
def EndsAs (path : Text) (o : Outcome (ConcreteJob Rendered)) (s : State Rendered Path)
    (r : Except DagError Unit × State Rendered Path) : Prop :=
  (o = .missing ∧ path ∉ s.resolving ∧
      r = (.error (.wildcard (.missingSource path)), s.enter path)) ∨
    o ≠ .missing ∧ r.1 = .ok () ∧ r.2.resolving = s.resolving

theorem resolveInputs_ends {depth : ℕ} {passOver : ConcreteInput → Bool}
    {inputs : List ConcreteInput} {use : Bool} {s : State Rendered Path} {stack : Finset Text}
    (hcall : ∀ input ∈ inputs, ∀ s : State Rendered Path, Settled ctx targets s.toPlan →
      s.resolving = stack → ∃ o, (o = .missing → passOver input = true) ∧
        EndsAs input.path o s (resolveTarget ctx depth input.path s) ∧
        ∀ s', resolveTarget ctx depth input.path s = (.ok (), s') → Settled ctx targets s'.toPlan)
    (hsettled : Settled ctx targets s.toPlan) (hstack : s.resolving = stack) :
    ∃ use' s', resolveInputs (resolveTarget ctx depth) target passOver inputs use s =
      (.ok use', s') ∧ s'.resolving = stack := by
  induction inputs generalizing use s with
  | nil => exact ⟨use, s, rfl, hstack⟩
  | cons input inputs ih =>
    have hrest := fun i hi => hcall i (.tail _ hi)
    obtain ⟨o, hmay, hends, hsettles⟩ := hcall input mem_cons_self s hsettled hstack
    rw [resolveInputs]
    rcases hends with ⟨hmissing, hfresh, hcalled⟩ | ⟨-, hok, hsame⟩
    · rw [hcalled]
      dsimp only
      rw [if_pos ⟨rfl, hmay hmissing⟩]
      exact ih hrest hsettled ((erase_enter hfresh).trans hstack)
    · rcases hcalled : resolveTarget ctx depth input.path s with ⟨_, s₁⟩
      rw [hcalled] at hok hsame
      cases hok
      exact ih hrest (hsettles s₁ hcalled) (hsame.trans hstack)

theorem resolveTarget_ends (hcoherent : (scheme ctx).Coherent targets) {n depth : ℕ} {path : Text}
    {o : Outcome (ConcreteJob Rendered)} {s : State Rendered Path}
    (hsolves : Solves (node ctx) n path o) (hreach : Reaches (node ctx) targets path)
    (hsettled : Settled ctx targets s.toPlan)
    (hstack : ∀ u ∈ s.resolving, ∀ o', ¬ Solves (node ctx) n u o')
    (hcard : s.resolving.card + n ≤ maxResolveDepth) (hfuel : n ≤ depth) :
    EndsAs path o s (resolveTarget ctx depth path s) := by
  induction n using Nat.strong_induction_on generalizing depth path o s with
  | _ n ih =>
    obtain ⟨m, hm, hleast, hbelow⟩ := hsolves.exists_least
    obtain ⟨depth, rfl⟩ : ∃ d, depth = d + 1 := ⟨depth - 1, by omega⟩
    have hends : ∀ {compiled wildcards inputs}, Enters ctx path s →
        Selects ctx path compiled wildcards inputs → ∃ use' s',
          resolveInputs (resolveTarget ctx depth) path (mayFallBack ctx path wildcards) inputs false
            (s.enter path) = (.ok use', s') ∧ s'.resolving = insert path s.resolving := by
      intro compiled wildcards inputs henters hselects
      have hnode := node_of_selects henters.unlisted hselects
      obtain ⟨-, o', hinputs, hmarked, -⟩ := hleast.inputs hnode
      refine resolveInputs_ends ?_ hsettled rfl
      intro input hinput s₁ hsettled₁ hstack₁
      have hmem := mem_map_of_mem (f := fun i : ConcreteInput =>
        (i.path, mayFallBack ctx path wildcards i)) hinput
      have hreach₁ := hreach.input hnode hmem
      refine ⟨o' input.path, hmarked _ hmem, ?_, ?_⟩
      · refine ih m hm (hinputs _ hmem) hreach₁ hsettled₁ ?_ ?_ (by omega)
        · -- The target itself is found only above its inputs.
          intro u hu
          rw [hstack₁] at hu
          rcases Finset.mem_insert.mp hu with rfl | hu
          · exact hbelow
          · exact fun o'' hu' => hstack u hu o'' (hu'.mono hm.le)
        · rw [hstack₁, Finset.card_insert_of_notMem henters.fresh]
          omega
      · exact fun s' hcalled => (found_resolveTarget hcoherent hreach₁ hsettled₁ hcalled).settled
    have hstep := targetStep_resolveTarget ctx depth path s
    generalize hresult : resolveTarget ctx (depth + 1) path s = r at hstep ⊢
    cases hstep with
    | produced hproduced =>
      obtain ⟨job, hjob⟩ := hsettled path hproduced hreach
      obtain rfl := Has.unique ⟨n, hsolves⟩ hjob
      exact .inr ⟨Outcome.made_ne_missing job, rfl, rfl⟩
    | tooDeep => omega
    | existing _ _ hexisting =>
      obtain rfl := hsolves.unique (m := 1) (.leaf (node_of_existing hexisting))
      exact .inr ⟨Outcome.leaf_ne_missing, rfl, rfl⟩
    | cycle _ hmem => exact absurd hsolves (hstack path hmem o)
    | leaf henters hnone hpresent =>
      have hnode : node ctx path = .leaf := by
        rw [node_of_noRule henters.unlisted hnone, hpresent]
        rfl
      obtain rfl := hsolves.unique (m := 1) (.leaf hnode)
      exact .inr ⟨Outcome.leaf_ne_missing, rfl, erase_enter henters.fresh⟩
    | missing henters hnone habsent =>
      have hnode := node_of_missing ⟨hnone, habsent, henters.unlisted⟩
      obtain rfl := hsolves.unique (m := 1) (.missing hnode)
      exact .inl ⟨rfl, henters.fresh, rfl⟩
    | rejected henters hrejects =>
      exact absurd (node_of_rejects henters.unlisted hrejects) hsolves.not_stuck
    | blocked henters hselects hloop =>
      obtain ⟨use', s', hends, -⟩ := hends henters hselects
      cases hloop.symm.trans hends
    | fallback henters hselects hloop =>
      obtain ⟨use', s', hends, hsame⟩ := hends henters hselects
      cases hloop.symm.trans hends
      refine .inr ⟨(hleast.inputs (node_of_selects henters.unlisted hselects)).1, rfl, ?_⟩
      change Finset.erase _ path = _
      rw [hsame]
      exact Finset.erase_insert henters.fresh
    | unbuilt henters hselects hloop hjob =>
      have hnode := node_of_selects henters.unlisted hselects
      obtain ⟨-, o', hinputs, -, hnone⟩ := hleast.inputs hnode
      obtain ⟨i, hi, hmissing⟩ := hnone (buildJob_of_addJob_error hjob)
      have hfound := found_resolveInputs
        (fun _ _ _ hr hs hc => found_resolveTarget hcoherent hr hs hc) hloop
        (fun input hinput => hreach.input hnode (mem_map_of_mem hinput)) hsettled
      obtain ⟨input, hinput, rfl⟩ := mem_map.mp hi
      obtain ⟨o'', ho'', hpass⟩ := hfound.outcomes input hinput
      have hsame := ho''.unique ⟨m, hinputs _ hi⟩
      cases (hpass (hsame.trans hmissing)).2
    | built henters hselects hloop hjob =>
      obtain ⟨use', s', hends, hsame⟩ := hends henters hselects
      cases hloop.symm.trans hends
      obtain ⟨job, -, rfl⟩ := exists_job_of_addJob hjob
      refine .inr ⟨(hleast.inputs (node_of_selects henters.unlisted hselects)).1, rfl, ?_⟩
      change Finset.erase _ path = _
      rw [hsame]
      exact Finset.erase_insert henters.fresh

end OxyMake.ResolverOutcomes
