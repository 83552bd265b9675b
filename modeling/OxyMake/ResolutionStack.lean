import OxyMake.ResolverOrder
import Mathlib.Data.List.Chain

/-!
# The stack of the resolver

A call of the resolver for a target is made while the calls for other targets
wait for their inputs. The set of the targets being resolved is put together by
hand, and what is left in it after an error is taken out by the caller. At every
call it holds the targets of the waiting calls, each of them once, so its size
bounds the depth, and a target that is found in it needs itself.
-/

namespace OxyMake.ResolutionStack

open List
open Wildcard RuleInstances Resolver ResolverOrder

variable {Body Rendered Path : Type} [DecidableEq Path] (ctx : Context Body Rendered Path)

/-- Resolve the requested targets one after another, with calls nested to a depth at most. -/
def resolveTargetsWithin (bound : ℕ) :
    List Text → State Rendered Path → Except DagError Unit × State Rendered Path
  | [], s => (.ok (), s)
  | target :: targets, s =>
    match resolveTarget ctx bound target s with
    | (.error e, s) => (.error e, s)
    | (.ok (), s) => resolveTargetsWithin bound targets s

/-- A call that is made in a resolution: how deep it may go, the targets of the calls that wait,
from the innermost one outwards, its own target and the state it starts from. -/
inductive Invoked (bound : ℕ) (targets : List Text) :
    ℕ → List Text → Text → State Rendered Path → Prop
  /-- A target is requested, and those in front of it were resolved. -/
  | request {before after : List Text} {target : Text} {s : State Rendered Path} :
      targets = before ++ target :: after →
      resolveTargetsWithin ctx bound before State.new = (.ok (), s) →
      Invoked bound targets bound [] target s
  /-- An input of a target is resolved, and those in front of it were resolved or passed over. -/
  | input {depth : ℕ} {stack : List Text} {target : Text} {s s' : State Rendered Path}
      {compiled : CompiledRule Body} {wildcards : Wildcards}
      {before after : List ConcreteInput} {input : ConcreteInput} {use : Bool} :
      Invoked bound targets (depth + 1) stack target s → Enters ctx target s →
      Selects ctx target compiled wildcards (before ++ input :: after) →
      resolveInputs (resolveTarget ctx depth) target (mayFallBack ctx target wildcards) before
        false (s.enter target) = (.ok use, s') →
      Invoked bound targets depth (target :: stack) input.path s'

/-! ### What a call leaves of the set -/

/-- What a call leaves of the targets being resolved: all of them after a success, and its own
target besides after it was missing. -/
structure Keeps (resolve : Text → State Rendered Path → Except DagError Unit × State Rendered Path) :
    Prop where
  /-- A success leaves the set as it was. -/
  ok : ∀ target s s', resolve target s = (.ok (), s') → s'.resolving = s.resolving
  /-- A missing source was not being resolved. -/
  fresh : ∀ target s s' path,
    resolve target s = (.error (.wildcard (.missingSource path)), s') → path ∉ s.resolving
  /-- A target that is missing is left in the set. -/
  missing : ∀ target s s', resolve target s = (.error (.wildcard (.missingSource target)), s') →
    s'.resolving = insert target s.resolving

variable {resolve : Text → State Rendered Path → Except DagError Unit × State Rendered Path}

theorem resolving_of_resolveInputs (h : Keeps resolve) {target : Text}
    {passOver : ConcreteInput → Bool} {inputs : List ConcreteInput} :
    ∀ {use use' : Bool} {s s' : State Rendered Path},
      resolveInputs resolve target passOver inputs use s = (.ok use', s') →
      s'.resolving = s.resolving := by
  induction inputs with
  | nil =>
    intro use use' s s' hloop
    cases hloop
    rfl
  | cons input rest ih =>
    intro use use' s s' hloop
    rw [resolveInputs] at hloop
    rcases hcall : resolve input.path s with ⟨result, s₁⟩
    rw [hcall] at hloop
    cases result with
    | ok =>
      have hfirst := h.ok input.path s s₁ hcall
      exact (ih hloop).trans hfirst
    | error e =>
      dsimp only at hloop
      by_cases hpass : e = .wildcard (.missingSource input.path) ∧ passOver input = true
      · rw [if_pos hpass] at hloop
        have hcall' := hcall
        rw [hpass.1] at hcall'
        have hfresh := h.fresh input.path s s₁ input.path hcall'
        have hleft := h.missing input.path s s₁ hcall'
        have hback : (s₁.leave input.path).resolving = s.resolving := by
          rw [State.leave, hleft, Finset.erase_insert hfresh]
        exact (ih hloop).trans hback
      · rw [if_neg hpass] at hloop
        cases hloop

theorem exists_failed {target : Text} {passOver : ConcreteInput → Bool}
    {inputs : List ConcreteInput} :
    ∀ {use : Bool} {s s' : State Rendered Path} {e : DagError},
      resolveInputs resolve target passOver inputs use s = (.error e, s') →
      ∃ before input after use' s₁ s₂, inputs = before ++ input :: after ∧
        resolveInputs resolve target passOver before use s = (.ok use', s₁) ∧
        resolve input.path s₁ = (.error e, s₂) := by
  induction inputs with
  | nil =>
    intro use s s' e hloop
    cases hloop
  | cons input rest ih =>
    intro use s s' e hloop
    rw [resolveInputs] at hloop
    rcases hcall : resolve input.path s with ⟨result, s₁⟩
    rw [hcall] at hloop
    have hfurther : ∀ {use₁ : Bool} {s₂ : State Rendered Path},
        resolveInputs resolve target passOver rest use₁ s₂ = (.error e, s') →
        (∀ before, resolveInputs resolve target passOver (input :: before) use s =
          resolveInputs resolve target passOver before use₁ s₂) →
        ∃ before failed after use' s₃ s₄, input :: rest = before ++ failed :: after ∧
          resolveInputs resolve target passOver before use s = (.ok use', s₃) ∧
          resolve failed.path s₃ = (.error e, s₄) := by
      intro use₁ s₂ hrest hstep
      obtain ⟨before, failed, after, use', s₃, s₄, hsplit, hbefore, hfailed⟩ := ih hrest
      refine ⟨input :: before, failed, after, use', s₃, s₄, ?_, ?_, hfailed⟩
      · rw [hsplit, cons_append]
      · rw [hstep]
        exact hbefore
    cases result with
    | ok =>
      apply hfurther hloop
      intro before
      rw [resolveInputs, hcall]
    | error e' =>
      dsimp only at hloop
      by_cases hpass : e' = .wildcard (.missingSource input.path) ∧ passOver input = true
      · rw [if_pos hpass] at hloop
        apply hfurther hloop
        intro before
        rw [resolveInputs, hcall]
        dsimp only
        rw [if_pos hpass]
      · rw [if_neg hpass] at hloop
        cases hloop
        exact ⟨[], input, rest, use, s, s₁, rfl, rfl, hcall⟩

theorem resolving_of_addJob {compiled : CompiledRule Body} {wildcards : Wildcards}
    {inputs : List ConcreteInput} {s s' : State Rendered Path}
    (h : addJob ctx compiled wildcards inputs s = (.ok (), s')) : s'.resolving = s.resolving := by
  obtain ⟨-, hbuild⟩ := addJob_spec ctx compiled wildcards inputs s
  cases hjob : buildJob ctx compiled wildcards inputs with
  | none =>
    rw [hjob] at hbuild
    obtain ⟨e, he, -⟩ := hbuild
    rw [h] at he
    cases he
  | some =>
    rw [hjob] at hbuild
    dsimp only at hbuild
    rw [h] at hbuild
    cases hbuild
    rfl

theorem keeps_resolveTarget (depth : ℕ) : Keeps (resolveTarget ctx depth) := by
  induction depth with
  | zero => exact ⟨nofun, nofun, nofun⟩
  | succ depth ih =>
    have hblocked : ∀ {target path : Text} {s s' : State Rendered Path} {passOver inputs},
        resolveInputs (resolveTarget ctx depth) target passOver inputs false (s.enter target) =
          (.error (.wildcard (.missingSource path)), s') → path ∉ insert target s.resolving := by
      intro target path s s' passOver inputs hloop
      obtain ⟨_, input, _, _, s₁, s₂, -, hbefore, hfailed⟩ := exists_failed hloop
      have hset := resolving_of_resolveInputs ih hbefore
      have hfresh := ih.fresh input.path s₁ s₂ path hfailed
      rw [hset] at hfresh
      exact hfresh
    constructor
    · intro target s s' hcall
      have hstep := targetStep_resolveTarget ctx depth target s
      rw [hcall] at hstep
      cases hstep with
      | produced | existing => rfl
      | leaf henters =>
        exact Finset.erase_insert henters.fresh
      | fallback henters hselects hloop =>
        have hset := resolving_of_resolveInputs ih hloop
        show Finset.erase _ target = _
        rw [hset]
        exact Finset.erase_insert henters.fresh
      | built henters hselects hloop hjob =>
        have hset := resolving_of_resolveInputs ih hloop
        have hadded := resolving_of_addJob ctx hjob
        show Finset.erase _ target = _
        rw [hadded, hset]
        exact Finset.erase_insert henters.fresh
    · intro target s s' path hcall
      have hstep := targetStep_resolveTarget ctx depth target s
      rw [hcall] at hstep
      cases hstep with
      | missing henters => exact henters.fresh
      | rejected henters hrejects e he => exact absurd rfl (he path)
      | blocked henters hselects hloop =>
        intro hmem
        exact hblocked hloop (Finset.mem_insert_of_mem hmem)
      | unbuilt henters hselects hloop hjob => exact absurd rfl (noMissing_addJob hjob path)
    · intro target s s' hcall
      have hstep := targetStep_resolveTarget ctx depth target s
      rw [hcall] at hstep
      cases hstep with
      | missing => rfl
      | rejected henters hrejects e he => exact absurd rfl (he target)
      | blocked henters hselects hloop =>
        exact absurd (Finset.mem_insert_self target s.resolving) (hblocked hloop)
      | unbuilt henters hselects hloop hjob => exact absurd rfl (noMissing_addJob hjob target)

/-! ### The stack -/

/-- What holds at a call: the set has the targets of the waiting calls, each of them once, there
are not too many, and each call waits for the next one. -/
structure OnStack (bound depth : ℕ) (stack : List Text) (target : Text)
    (s : State Rendered Path) : Prop where
  /-- The set has the targets of the waiting calls. -/
  resolving : s.resolving = stack.toFinset
  nodup : stack.Nodup
  /-- The stack is within the limit. -/
  shallow : stack.length ≤ maxResolveDepth
  /-- The calls are nested to the bound at most. -/
  depth : depth + stack.length = bound
  /-- Every target is an input of the producer of the next one. -/
  needed : (target :: stack).IsChain fun input path => DependsOn ctx path input

theorem resolving_of_resolveTargetsWithin (bound : ℕ) {targets : List Text} :
    ∀ {s s' : State Rendered Path}, resolveTargetsWithin ctx bound targets s = (.ok (), s') →
      s'.resolving = s.resolving := by
  induction targets with
  | nil =>
    intro s s' h
    cases h
    rfl
  | cons target rest ih =>
    intro s s' h
    rw [resolveTargetsWithin] at h
    rcases hcall : resolveTarget ctx bound target s with ⟨result, s₁⟩
    rw [hcall] at h
    cases result with
    | error => cases h
    | ok => exact (ih h).trans ((keeps_resolveTarget ctx bound).ok target s s₁ hcall)

theorem onStack_of_invoked {bound : ℕ} {targets : List Text} {depth : ℕ} {stack : List Text}
    {target : Text} {s : State Rendered Path}
    (h : Invoked ctx bound targets depth stack target s) :
    OnStack ctx bound depth stack target s := by
  induction h with
  | request hsplit hbefore =>
    refine ⟨resolving_of_resolveTargetsWithin ctx bound hbefore, nodup_nil, ?_, rfl,
      .singleton _⟩
    exact Nat.zero_le _
  | @input depth stack target s s' compiled wildcards before after input use hcall henters
      hselects hloop ih =>
    have hset := resolving_of_resolveInputs (keeps_resolveTarget ctx depth) hloop
    have hnot : target ∉ stack := by
      intro hmem
      apply henters.fresh
      rw [ih.resolving]
      exact mem_toFinset.mpr hmem
    have hcard : s.resolving.card = stack.length := by
      rw [ih.resolving]
      exact toFinset_card_of_nodup ih.nodup
    have hshallow := henters.shallow
    have hdepth := ih.depth
    refine ⟨?_, nodup_cons.mpr ⟨hnot, ih.nodup⟩, ?_, ?_, ?_⟩
    · rw [hset, toFinset_cons, ← ih.resolving]
      rfl
    · rw [length_cons]
      omega
    · rw [length_cons]
      omega
    · refine isChain_cons_cons.mpr ⟨?_, ih.needed⟩
      exact ⟨henters.unlisted, compiled, wildcards, _, hselects, input,
        mem_append_right before mem_cons_self, rfl⟩

/-! ### The bound -/

/-- The answers to the calls that a loop makes are all that it depends on. -/
theorem resolveInputs_congr {other : Text → State Rendered Path →
      Except DagError Unit × State Rendered Path} {target : Text}
    {passOver : ConcreteInput → Bool} {inputs : List ConcreteInput} :
    ∀ {use : Bool} {s : State Rendered Path},
      (∀ before input after use' s', inputs = before ++ input :: after →
        resolveInputs resolve target passOver before use s = (.ok use', s') →
        resolve input.path s' = other input.path s') →
      resolveInputs resolve target passOver inputs use s =
        resolveInputs other target passOver inputs use s := by
  induction inputs with
  | nil =>
    intro use s _
    rfl
  | cons input rest ih =>
    intro use s hsame
    rw [resolveInputs, resolveInputs, ← hsame [] input rest use s rfl rfl]
    rcases hcall : resolve input.path s with ⟨result, s₁⟩
    cases result with
    | ok =>
      dsimp only
      refine ih fun before next after use' s' hsplit hbefore => ?_
      refine hsame (input :: before) next after use' s' (congrArg _ hsplit) ?_
      rw [resolveInputs, hcall]
      exact hbefore
    | error e =>
      dsimp only
      by_cases hpass : e = .wildcard (.missingSource input.path) ∧ passOver input = true
      · rw [if_pos hpass, if_pos hpass]
        refine ih fun before next after use' s' hsplit hbefore => ?_
        refine hsame (input :: before) next after use' s' (congrArg _ hsplit) ?_
        rw [resolveInputs, hcall]
        dsimp only
        rw [if_pos hpass]
        exact hbefore
      · rw [if_neg hpass, if_neg hpass]

/-- The calls that `Invoked` has below a call are those that its loop makes. -/
theorem resolveInputs_of_invoked {bound depth : ℕ} {targets stack : List Text} {target : Text}
    {s : State Rendered Path} {compiled : CompiledRule Body} {wildcards : Wildcards}
    {inputs : List ConcreteInput} {other : Text → State Rendered Path →
      Except DagError Unit × State Rendered Path}
    (hcall : Invoked ctx bound targets (depth + 1) stack target s) (henters : Enters ctx target s)
    (hselects : Selects ctx target compiled wildcards inputs)
    (hsame : ∀ path s', Invoked ctx bound targets depth (target :: stack) path s' →
      resolveTarget ctx depth path s' = other path s') :
    resolveInputs (resolveTarget ctx depth) target (mayFallBack ctx target wildcards) inputs false
        (s.enter target) =
      resolveInputs other target (mayFallBack ctx target wildcards) inputs false
        (s.enter target) := by
  refine resolveInputs_congr ?_
  rintro before input after use s' rfl hbefore
  exact hsame input.path s' (.input hcall henters hselects hbefore)

theorem resolveTarget_succ (depth : ℕ) : ∀ (target : Text) (s : State Rendered Path),
    s.resolving.card ≤ maxResolveDepth → maxResolveDepth + 1 ≤ s.resolving.card + depth →
      resolveTarget ctx depth target s = resolveTarget ctx (depth + 1) target s := by
  induction depth with
  | zero =>
    intro target s hle hlt
    omega
  | succ depth ih =>
    intro target s hle hlt
    rw [resolveTarget, resolveTarget]
    by_cases hproduced : target ∈ s.produced.members
    · rw [if_pos hproduced, if_pos hproduced]
    rw [if_neg hproduced, if_neg hproduced]
    by_cases hdeep : s.resolving.card ≥ maxResolveDepth
    · rw [if_pos hdeep, if_pos hdeep]
    rw [if_neg hdeep, if_neg hdeep]
    by_cases hexisting : ctx.pathBuf target ∈ ctx.existing
    · rw [if_pos hexisting, if_pos hexisting]
    rw [if_neg hexisting, if_neg hexisting]
    by_cases hmem : target ∈ s.resolving
    · rw [if_pos hmem, if_pos hmem]
    rw [if_neg hmem, if_neg hmem]
    have hcard : (s.enter target).resolving.card = s.resolving.card + 1 :=
      Finset.card_insert_of_notMem hmem
    have hinputs : ∀ passOver inputs,
        resolveInputs (resolveTarget ctx depth) target passOver inputs false (s.enter target) =
          resolveInputs (resolveTarget ctx (depth + 1)) target passOver inputs false
            (s.enter target) := by
      intro passOver inputs
      refine resolveInputs_congr fun before input _ _ s₁ _ hbefore => ?_
      have hset := resolving_of_resolveInputs (keeps_resolveTarget ctx depth) hbefore
      apply ih input.path s₁
      · rw [hset]
        omega
      · rw [hset]
        omega
    dsimp only
    simp only [hinputs]

theorem resolveTarget_deeper {depth : ℕ} (more : ℕ) (target : Text) (s : State Rendered Path)
    (hle : s.resolving.card ≤ maxResolveDepth)
    (hlt : maxResolveDepth + 1 ≤ s.resolving.card + depth) :
    resolveTarget ctx (depth + more) target s = resolveTarget ctx depth target s := by
  induction more with
  | zero => rfl
  | succ more ih =>
    rw [← ih, ← Nat.add_assoc]
    exact (resolveTarget_succ ctx (depth + more) target s hle (by omega)).symm

theorem resolveTargetsWithin_eq {bound : ℕ} (hbound : maxResolveDepth + 1 ≤ bound)
    (targets : List Text) : ∀ {s : State Rendered Path}, s.resolving = ∅ →
      resolveTargetsWithin ctx bound targets s = resolveTargets ctx targets s := by
  induction targets with
  | nil =>
    intro s _
    rfl
  | cons target rest ih =>
    intro s hs
    obtain ⟨more, rfl⟩ := Nat.exists_eq_add_of_le hbound
    have hcard : s.resolving.card = 0 := Finset.card_eq_zero.mpr hs
    have hcall := resolveTarget_deeper ctx more target s (by omega)
      (show maxResolveDepth + 1 ≤ s.resolving.card + (maxResolveDepth + 1) by omega)
    rw [resolveTargetsWithin, resolveTargets, hcall]
    rcases hfirst : resolveTarget ctx (maxResolveDepth + 1) target s with ⟨result, s₁⟩
    cases result with
    | error => rfl
    | ok =>
      have hset := (keeps_resolveTarget ctx _).ok target s s₁ hfirst
      exact ih (hset.trans hs)

/-! ### Cycles -/

theorem cycle_cases {depth : ℕ} {target : Text} {s s' : State Rendered Path} {cycle : Finset Text}
    (h : resolveTarget ctx (depth + 1) target s = (.error (.cycleDetected cycle), s')) :
    target ∈ s.resolving ∨ ∃ compiled wildcards inputs, Enters ctx target s ∧
      Selects ctx target compiled wildcards inputs ∧
      resolveInputs (resolveTarget ctx depth) target (mayFallBack ctx target wildcards) inputs
        false (s.enter target) = (.error (.cycleDetected cycle), s') := by
  rw [resolveTarget] at h
  by_cases hproduced : target ∈ s.produced.members
  · rw [if_pos hproduced] at h
    cases h
  rw [if_neg hproduced] at h
  by_cases hdeep : s.resolving.card ≥ maxResolveDepth
  · rw [if_pos hdeep] at h
    cases h
  rw [if_neg hdeep] at h
  by_cases hexisting : ctx.pathBuf target ∈ ctx.existing
  · rw [if_pos hexisting] at h
    cases h
  rw [if_neg hexisting] at h
  by_cases hmem : target ∈ s.resolving
  · exact .inl hmem
  rw [if_neg hmem] at h
  have henters : Enters ctx target s := ⟨hproduced, not_le.mp hdeep, hexisting, hmem⟩
  dsimp only at h
  cases hfound : findProducer ctx.machine ctx.rules target with
  | error e =>
    rw [hfound] at h
    cases e with
    | noProducer =>
      dsimp only at h
      by_cases hpresent : ctx.isPresent target = true
      · rw [if_pos hpresent] at h
        cases h
      · rw [if_neg hpresent] at h
        cases h
    | invalidPattern | unresolvableWildcard | missingSource | ambiguousProducer |
      constraintViolation | unknownConfigKey => cases h
  | ok found =>
    obtain ⟨compiled, wildcards⟩ := found
    rw [hfound] at h
    dsimp only at h
    by_cases hguard : guardHolds ctx compiled wildcards = false
    · rw [if_pos hguard] at h
      cases h
    rw [if_neg hguard] at h
    cases hinputs : concreteInputs ctx.machine ctx.config compiled wildcards compiled.inputs with
    | error =>
      rw [hinputs] at h
      cases h
    | ok inputs =>
      rw [hinputs] at h
      have hselects : Selects ctx target compiled wildcards inputs :=
        ⟨hfound, Bool.eq_true_of_not_eq_false hguard, hinputs⟩
      refine .inr ⟨compiled, wildcards, inputs, henters, hselects, ?_⟩
      dsimp only at h
      rcases hloop : resolveInputs (resolveTarget ctx depth) target
        (mayFallBack ctx target wildcards) inputs false (s.enter target) with ⟨result, s₁⟩
      rw [hloop] at h
      cases result with
      | error =>
        cases h
        rfl
      | ok use =>
        cases use with
        | true => cases h
        | false =>
          dsimp only at h
          rw [addJob] at h
          rcases hadd : addOutputs wildcards compiled.outputs s₁ with ⟨added, _⟩
          rw [hadd] at h
          cases added with
          | error => cases h
          | ok outputs =>
            dsimp only at h
            cases hrender : ctx.render ctx.config compiled.rule wildcards
                (inputs.map fun i => (i.path, i.source.name))
                (outputs.map fun o => (o.path, o.name)) with
            | error unknown =>
              rw [hrender] at h
              cases h
            | ok rendered =>
              rw [hrender] at h
              cases h

theorem exists_invoked_of_cycle {bound : ℕ} {targets : List Text} (depth : ℕ) :
    ∀ {stack : List Text} {target : Text} {s s' : State Rendered Path} {cycle : Finset Text},
      Invoked ctx bound targets depth stack target s →
      resolveTarget ctx depth target s = (.error (.cycleDetected cycle), s') →
      ∃ depth' stack' target', ∃ s₁ : State Rendered Path,
        Invoked ctx bound targets depth' stack' target' s₁ ∧ target' ∈ s₁.resolving := by
  induction depth with
  | zero =>
    intro stack target s s' cycle _ h
    cases h
  | succ depth ih =>
    intro stack target s s' cycle hinvoked h
    rcases cycle_cases ctx h with hmem | ⟨compiled, wildcards, inputs, henters, hselects, hloop⟩
    · exact ⟨depth + 1, stack, target, s, hinvoked, hmem⟩
    · obtain ⟨_, _, _, _, s₁, _, rfl, hbefore, hfailed⟩ := exists_failed hloop
      exact ih (.input hinvoked henters hselects hbefore) hfailed

theorem exists_failed_request {bound : ℕ} {targets : List Text} {e : DagError} :
    ∀ {s s' : State Rendered Path}, resolveTargetsWithin ctx bound targets s = (.error e, s') →
      ∃ before target after s₁ s₂, targets = before ++ target :: after ∧
        resolveTargetsWithin ctx bound before s = (.ok (), s₁) ∧
        resolveTarget ctx bound target s₁ = (.error e, s₂) := by
  induction targets with
  | nil =>
    intro s s' h
    cases h
  | cons target rest ih =>
    intro s s' h
    rw [resolveTargetsWithin] at h
    rcases hcall : resolveTarget ctx bound target s with ⟨result, s₁⟩
    rw [hcall] at h
    cases result with
    | error =>
      cases h
      exact ⟨[], target, rest, s, s', rfl, rfl, hcall⟩
    | ok =>
      obtain ⟨before, failed, after, s₂, s₃, rfl, hbefore, hfailed⟩ := ih h
      refine ⟨target :: before, failed, after, s₂, s₃, rfl, ?_, hfailed⟩
      rw [resolveTargetsWithin, hcall]
      exact hbefore

theorem transGen_of_isChain {α : Type} {R : α → α → Prop} {a b : α} {l : List α}
    (h : (a :: l).IsChain fun x y => R y x) (hb : b ∈ l) : Relation.TransGen R b a := by
  induction l generalizing a with
  | nil => cases hb
  | cons c l ih =>
    obtain ⟨hca, hrest⟩ := isChain_cons_cons.mp h
    rcases mem_cons.mp hb with rfl | hb
    · exact .single hca
    · exact .tail (ih hrest hb) hca

theorem askedFor_of_invoked {bound : ℕ} {targets : List Text} {depth : ℕ} {stack : List Text}
    {target : Text} {s : State Rendered Path}
    (h : Invoked ctx bound targets depth stack target s) : AskedFor ctx targets target := by
  induction h with
  | request hsplit _ =>
    rw [hsplit]
    exact ⟨_, mem_append_right _ mem_cons_self, .refl⟩
  | @input depth stack target s s' compiled wildcards before after input use hcall henters
      hselects hloop ih =>
    obtain ⟨request, hrequest, hpath⟩ := ih
    refine ⟨request, hrequest, hpath.tail ?_⟩
    exact ⟨henters.unlisted, compiled, wildcards, _, hselects, input,
      mem_append_right before mem_cons_self, rfl⟩

/-- A resolution ends, and nested calls do not go deeper than the limit: at every call the set
has the targets of the waiting calls, none of them twice, the target of a call that goes on is not
among them, and the outcome is the same for every bound above the limit. A reported cycle is a
target that needs itself. -/
theorem resolution_stack (targets : List Text) (more : ℕ) :
    resolveTargetsWithin ctx (maxResolveDepth + 1 + more) targets
          (State.new : State Rendered Path) =
        resolveTargets ctx targets State.new ∧
      (∀ depth stack target, ∀ s : State Rendered Path,
        Invoked ctx (maxResolveDepth + 1 + more) targets depth stack target s →
          s.resolving = stack.toFinset ∧ stack.Nodup ∧ stack.length ≤ maxResolveDepth ∧
            0 < depth ∧ (Enters ctx target s → target ∉ stack)) ∧
      ∀ cycle, ∀ s : State Rendered Path,
        resolveTargets ctx targets State.new = (.error (.cycleDetected cycle), s) →
          ∃ target, AskedFor ctx targets target ∧
            Relation.TransGen (DependsOn ctx) target target := by
  have hnone : (State.new : State Rendered Path).resolving = ∅ := rfl
  have hsame := resolveTargetsWithin_eq ctx (Nat.le_add_right (maxResolveDepth + 1) more) targets
    hnone
  refine ⟨hsame, ?_, ?_⟩
  · intro depth stack target s hinvoked
    have hstack := onStack_of_invoked ctx hinvoked
    have hdepth := hstack.depth
    have hshallow := hstack.shallow
    refine ⟨hstack.resolving, hstack.nodup, hshallow, by omega, ?_⟩
    intro henters hmem
    apply henters.fresh
    rw [hstack.resolving]
    exact mem_toFinset.mpr hmem
  · intro cycle s h
    rw [← hsame] at h
    obtain ⟨_, _, _, _, _, hsplit, hbefore, hfailed⟩ :=
      exists_failed_request ctx h
    obtain ⟨depth, stack, target, _, hinvoked, hmem⟩ :=
      exists_invoked_of_cycle ctx _ (.request hsplit hbefore) hfailed
    have hstack := onStack_of_invoked ctx hinvoked
    refine ⟨target, askedFor_of_invoked ctx hinvoked, transGen_of_isChain hstack.needed ?_⟩
    rw [hstack.resolving] at hmem
    exact mem_toFinset.mp hmem

end OxyMake.ResolutionStack
