import OxyMake.PhysicalGraph
import OxyMake.ResolverClosure

/-!
# One job per rule instance

The jobs of a rule bind the same wildcard names, so their ids are different when
their values are. A path that a job makes is not resolved again, and a job is added
only after its inputs were resolved: two jobs are of one instance exactly when a
kept job was begun for a path while another path of its instance was being
resolved.
-/

namespace OxyMake.InstanceUniqueness

open List
open Wildcard PlanJournal RuleInstances Resolver ResolverClosure

/-! ### Names of an instance -/

theorem keys_of_extractWildcards {names values : List Text} {m w : Wildcards}
    (hsorted : SortedMap.Sorted m) (h : extractWildcards names values m = some w) :
    SortedMap.Sorted w ∧ ∀ n, n ∈ w.map Prod.fst ↔ n ∈ names ∨ n ∈ m.map Prod.fst := by
  induction names generalizing values m with
  | nil =>
    cases h
    refine ⟨hsorted, ?_⟩
    intro n
    rw [or_iff_right not_mem_nil]
  | cons name names ih =>
    have hrest : extractWildcards names values.tail
        (SortedMap.insert name (values.headD []) m) = some w := by
      rw [extractWildcards] at h
      split at h
      · split_ifs at h
        exact h
      · exact h
    obtain ⟨hw, hkeys⟩ := ih (hsorted.insert _ _) hrest
    refine ⟨hw, ?_⟩
    intro n
    rw [hkeys, SortedMap.mem_keys_insert, mem_cons]
    constructor
    · rintro (hn | rfl | hn)
      · exact .inl (.inr hn)
      · exact .inl (.inl rfl)
      · exact .inr hn
    · rintro ((rfl | hn) | hn)
      · exact .inr (.inl rfl)
      · exact .inl hn
      · exact .inr (.inr hn)

theorem mem_keys_of_lookup {w : Wildcards} {n v : Text} (h : w.lookup n = some v) :
    n ∈ w.map Prod.fst := by
  obtain ⟨_, _, rfl, -⟩ := lookup_eq_some_iff.mp h
  rw [map_append, map_cons]
  exact mem_append_right _ mem_cons_self

theorem mem_keys_of_interpolateSegments {w : Wildcards} {segments : List Segment} {path : Text}
    (h : interpolateSegments w segments = .ok path) {n : Text}
    (hn : n ∈ segmentNames segments) : n ∈ w.map Prod.fst := by
  induction segments generalizing path with
  | nil => cases hn
  | cons segment segments ih =>
    cases segment with
    | literal =>
      cases hrest : interpolateSegments w segments with
      | error =>
        rw [interpolateSegments, hrest] at h
        cases h
      | ok => exact ih hrest hn
    | wildcard name =>
      cases hvalue : w.lookup name with
      | none =>
        rw [interpolateSegments, hvalue] at h
        cases h
      | some =>
        cases hrest : interpolateSegments w segments with
        | error =>
          rw [interpolateSegments, hvalue, hrest] at h
          cases h
        | ok =>
          rcases mem_cons.mp hn with rfl | hn
          · exact mem_keys_of_lookup hvalue
          · exact ih hrest hn

theorem interpolate_of_concreteOutputs {w : Wildcards}
    {patterns : List (OutputPattern × Pattern)} {outputs : List ResolvedOutput}
    (h : concreteOutputs w patterns = .ok outputs) {output : OutputPattern × Pattern}
    (hmem : output ∈ patterns) : ∃ path, output.2.interpolate w = .ok path := by
  induction patterns generalizing outputs with
  | nil => cases hmem
  | cons first patterns ih =>
    rw [concreteOutputs] at h
    cases hfirst : first.2.interpolate w with
    | error =>
      rw [hfirst] at h
      cases h
    | ok path =>
      rw [hfirst] at h
      dsimp only at h
      cases hrest : concreteOutputs w patterns with
      | error =>
        rw [hrest] at h
        cases h
      | ok =>
        rcases mem_cons.mp hmem with rfl | hmem
        · exact ⟨path, hfirst⟩
        · exact ih hrest hmem

/-- Wildcards bind exactly the names of the output patterns, in order. -/
structure Binds {Body : Type} (compiled : CompiledRule Body) (w : Wildcards) : Prop where
  sorted : SortedMap.Sorted w
  /-- They are the names of the outputs. -/
  names : ∀ n, n ∈ w.map Prod.fst ↔ ∃ output ∈ compiled.outputs, n ∈ output.2.wildcardNames

theorem Binds.keys_eq {Body : Type} {compiled : CompiledRule Body} {w w' : Wildcards}
    (h : Binds compiled w) (h' : Binds compiled w') : w.map Prod.fst = w'.map Prod.fst := by
  refine List.Pairwise.eq_of_mem_iff (r := fun a b : Text => a < b) h.sorted h'.sorted ?_
  intro n
  rw [h.names, h'.names]

/-! ### Ids -/

theorem not_mem_escapeValue (value : Text) : '-' ∉ escapeValue value := by
  intro h
  obtain ⟨c, -, hc⟩ := mem_flatMap.mp h
  split_ifs at hc with hpercent hdash
  · revert hc
    decide
  · revert hc
    decide
  · rw [mem_singleton] at hc
    exact hdash hc.symm

def escapeChar (c : Char) : Text :=
  if c = '%' then "%25".toList else if c = '-' then "%2D".toList else [c]

theorem eq_of_escapeChar_append {c c' : Char} {x y : Text}
    (h : escapeChar c ++ x = escapeChar c' ++ y) : c = c' ∧ x = y := by
  have hpercent : "%25".toList = ['%', '2', '5'] := rfl
  have hdash : "%2D".toList = ['%', '2', 'D'] := rfl
  unfold escapeChar at h
  rw [hpercent, hdash] at h
  split_ifs at h with h₁ h₂ h₃ h₄ h₅ h₆ <;> simp_all
  · exact absurd h.1.symm h₂
  · exact absurd h.1.symm h₅

theorem escapeValue_injective : Function.Injective escapeValue := by
  have hunfold : ∀ value, escapeValue value = value.flatMap escapeChar := fun value => rfl
  have hne : ∀ c, escapeChar c ≠ [] := by
    intro c
    unfold escapeChar
    split_ifs
    · decide
    · decide
    · exact cons_ne_nil _ _
  intro value
  induction value with
  | nil =>
    intro value' h
    cases value' with
    | nil => rfl
    | cons c' =>
      rw [hunfold, hunfold, flatMap_cons, flatMap_nil] at h
      exact absurd (append_eq_nil_iff.mp h.symm).1 (hne c')
  | cons c rest ih =>
    intro value' h
    cases value' with
    | nil =>
      rw [hunfold, hunfold, flatMap_cons, flatMap_nil] at h
      exact absurd (append_eq_nil_iff.mp h).1 (hne c)
    | cons =>
      rw [hunfold, hunfold, flatMap_cons, flatMap_cons] at h
      obtain ⟨rfl, hrest⟩ := eq_of_escapeChar_append h
      rw [ih hrest]

theorem eq_of_buildJobId {name : Text} {w w' : Wildcards}
    (hkeys : w.map Prod.fst = w'.map Prod.fst) (h : buildJobId name w = buildJobId name w') :
    w = w' := by
  have hlength : w.length = w'.length := by
    have := congrArg List.length hkeys
    rw [length_map, length_map] at this
    exact this
  cases w with
  | nil => exact (length_eq_zero_iff.mp hlength.symm).symm
  | cons e w =>
    cases w' with
    | nil => cases hlength
    | cons e' w' =>
      have hsplit : ∀ (f : Text × Text) (v : Wildcards),
          (List.intercalate ['-'] ((f :: v).map fun e => escapeValue e.2)).splitOn '-' =
            (f :: v).map fun e => escapeValue e.2 := by
        intro f v
        apply splitOn_intercalate
        · intro l hl
          obtain ⟨entry, -, rfl⟩ := mem_map.mp hl
          exact not_mem_escapeValue entry.2
        · exact cons_ne_nil _ _
      have hid : ∀ (f : Text × Text) (v : Wildcards), buildJobId name (f :: v) =
          name ++ '-' :: List.intercalate ['-'] ((f :: v).map fun e => escapeValue e.2) :=
        fun f v => rfl
      rw [hid, hid] at h
      have hjoined := (List.cons.inj (append_cancel_left h)).2
      have hescaped := congrArg (List.splitOn '-') hjoined
      rw [hsplit, hsplit] at hescaped
      have hvalues : (e :: w).map Prod.snd = (e' :: w').map Prod.snd := by
        apply map_injective_iff.mpr escapeValue_injective
        rw [map_map, map_map]
        exact hescaped
      have hzip : ∀ v : Wildcards, v = (v.map Prod.fst).zip (v.map Prod.snd) :=
        fun v => zip_of_prod rfl rfl
      rw [hzip (e :: w), hzip (e' :: w'), hkeys, hvalues]

/-! ### Kept calls -/

variable {Body Rendered Path : Type} [DecidableEq Path] {ctx : Context Body Rendered Path}

/-- A call that added a job: its target, the targets being resolved around it, and the job. -/
structure Call (Rendered : Type) where
  target : Text
  resolving : Finset Text
  job : ConcreteJob Rendered

/-- The calls of inputs that are resolved one after another. -/
def keptInputs (resolve : Text → State Rendered Path → Except DagError Unit × State Rendered Path)
    (kept : Text → State Rendered Path → List (Call Rendered)) :
    List ConcreteInput → State Rendered Path → List (Call Rendered)
  | [], _ => []
  | input :: inputs, s =>
    kept input.path s ++ keptInputs resolve kept inputs (resolve input.path s).2

variable (ctx) in
/-- The calls below a call whose jobs were kept, in the order of the jobs. -/
def keptCalls : ℕ → Text → State Rendered Path → List (Call Rendered)
  | 0, _, _ => []
  | depth + 1, target, s =>
    if target ∈ s.produced.members ∨ ctx.pathBuf target ∈ ctx.existing then []
    else
      match findProducer ctx.machine ctx.rules target with
      | .error _ => []
      | .ok (compiled, wildcards) =>
        match concreteInputs ctx.machine ctx.config compiled wildcards compiled.inputs with
        | .error _ => []
        | .ok inputs =>
          match (resolveInputs (resolveTarget ctx depth) target (mayFallBack ctx target wildcards)
            inputs false (s.enter target)).1, buildJob ctx compiled wildcards inputs with
          | .ok false, some job =>
            keptInputs (resolveTarget ctx depth) (keptCalls depth) inputs (s.enter target) ++
              [⟨target, s.resolving, job⟩]
          | _, _ => []

variable (ctx) in
def keptOfTargets : List Text → State Rendered Path → List (Call Rendered)
  | [], _ => []
  | target :: targets, s =>
    keptCalls ctx (maxResolveDepth + 1) target s ++
      keptOfTargets targets (resolveTarget ctx (maxResolveDepth + 1) target s).2

variable (ctx) in
def SameInstance (path other : Text) : Prop :=
  ∃ compiled wildcards inputs, Selects ctx path compiled wildcards inputs ∧
    Selects ctx other compiled wildcards inputs

/-! ### Targets being resolved -/

theorem resolving_resolveInputs {depth : ℕ}
    (hcall : ∀ path (s s' : State Rendered Path),
      (resolveTarget ctx depth path s = (.ok (), s') → s'.resolving = s.resolving) ∧
        (resolveTarget ctx depth path s = (.error (.wildcard (.missingSource path)), s') →
          s'.resolving.erase path = s.resolving))
    {target : Text} {passOver : ConcreteInput → Bool} {inputs : List ConcreteInput}
    {use use' : Bool} {s s' : State Rendered Path}
    (h : resolveInputs (resolveTarget ctx depth) target passOver inputs use s = (.ok use', s')) :
    s'.resolving = s.resolving := by
  induction inputs generalizing use s with
  | nil =>
    cases h
    rfl
  | cons input inputs ih =>
    rw [resolveInputs] at h
    rcases hfirst : resolveTarget ctx depth input.path s with ⟨result, _⟩
    rw [hfirst] at h
    cases result with
    | ok => exact (ih h).trans ((hcall _ _ _).1 hfirst)
    | error =>
      dsimp only at h
      split_ifs at h with hmissing
      · obtain ⟨rfl, -⟩ := hmissing
        exact (ih h).trans ((hcall _ _ _).2 hfirst)
      · cases h

theorem resolving_resolveTarget {depth : ℕ} (target : Text) (s s' : State Rendered Path) :
    (resolveTarget ctx depth target s = (.ok (), s') → s'.resolving = s.resolving) ∧
      (resolveTarget ctx depth target s = (.error (.wildcard (.missingSource target)), s') →
        s'.resolving.erase target = s.resolving) := by
  induction depth generalizing target s s' with
  | zero =>
    constructor
    · intro h
      cases h
    · intro h
      cases h
  | succ depth ih =>
    have hstep := targetStep_resolveTarget ctx depth target s
    have hentered : ∀ {stack : Finset Text}, target ∉ s.resolving →
        stack = (s.enter target).resolving → stack.erase target = s.resolving := by
      intro stack hfresh h
      rw [h]
      exact Finset.erase_insert hfresh
    constructor
    · intro h
      rw [h] at hstep
      generalize hresult : ((.ok (), s') : Except DagError Unit × State Rendered Path) = r at hstep
      cases hstep with
      | produced | existing =>
        cases hresult
        rfl
      | leaf henters =>
        cases hresult
        exact hentered henters.fresh rfl
      | fallback henters hselects hloop =>
        cases hresult
        have hsame := resolving_resolveInputs ih hloop
        exact hentered henters.fresh hsame
      | built henters hselects hloop hjob =>
        cases hresult
        obtain ⟨_, -, rfl⟩ := exists_job_of_addJob hjob
        have hsame := resolving_resolveInputs ih hloop
        exact hentered henters.fresh hsame
      | tooDeep | cycle | missing | rejected | blocked | unbuilt => cases hresult
    · intro h
      have hmissing := missing_of_resolveTarget h
      rw [h] at hstep
      generalize hresult : ((.error (.wildcard (.missingSource target)), s') :
        Except DagError Unit × State Rendered Path) = r at hstep
      cases hstep with
      | missing henters =>
        cases hresult
        exact hentered henters.fresh rfl
      | rejected henters hrejects e he =>
        cases hresult
        exact absurd rfl (he target)
      | blocked henters hselects => exact absurd hselects hmissing.noRule.not_selects
      | unbuilt henters hselects => exact absurd hselects hmissing.noRule.not_selects
      | produced | tooDeep | existing | cycle | leaf | fallback | built => cases hresult

/-! ### What kept calls do -/

variable (ctx) in
/-- The calls that take one state to another. -/
structure Traced (s s' : State Rendered Path) (calls : List (Call Rendered)) : Prop where
  jobs : s'.jobs = s.jobs ++ calls.map Call.job
  /-- The outputs of their jobs are produced. -/
  produced : ∀ path, path ∈ s'.produced.members ↔
    path ∈ s.produced.members ∨ ∃ call ∈ calls, path ∈ call.job.outputPaths
  /-- The same targets are being resolved afterwards. -/
  resolving : s'.resolving = s.resolving
  /-- Every job is made for its target. -/
  made : ∀ call ∈ calls, MadeFor ctx call.job call.target
  /-- The targets being resolved before are being resolved around them. -/
  around : ∀ call ∈ calls, s.resolving ⊆ call.resolving
  fresh : ∀ call ∈ calls, call.target ∉ s.produced.members
  /-- A later call for an output was under way. -/
  apart : calls.Pairwise fun call later =>
    later.target ∈ call.job.outputPaths → later.target ∈ call.resolving
  /-- A target that was being resolved gets its job later. -/
  pending : ∀ before call after, calls = before ++ call :: after → ∀ other ∈ call.resolving,
    other ∈ s.resolving ∨ ∃ later ∈ after, later.target = other

theorem Traced.nil {s s' : State Rendered Path} (hjobs : s'.jobs = s.jobs)
    (hproduced : s'.produced = s.produced) (hresolving : s'.resolving = s.resolving) :
    Traced ctx s s' [] where
  jobs := by
    rw [hjobs]
    exact (append_nil _).symm
  produced := by
    intro path
    rw [hproduced]
    simp
  resolving := hresolving
  made := forall_mem_nil _
  around := forall_mem_nil _
  fresh := forall_mem_nil _
  apart := List.Pairwise.nil
  pending := by
    intro before call after h
    cases before with
    | nil | cons => cases h

theorem Traced.append {s s₁ s' : State Rendered Path} {calls calls' : List (Call Rendered)}
    (h : Traced ctx s s₁ calls) (h' : Traced ctx s₁ s' calls') :
    Traced ctx s s' (calls ++ calls') where
  jobs := by rw [h'.jobs, h.jobs, map_append, append_assoc]
  produced := by
    intro path
    rw [h'.produced, h.produced, or_assoc]
    simp only [mem_append, or_and_right, exists_or]
  resolving := h'.resolving.trans h.resolving
  made := by
    intro call hcall
    rcases mem_append.mp hcall with hcall | hcall
    · exact h.made call hcall
    · exact h'.made call hcall
  around := by
    intro call hcall
    rcases mem_append.mp hcall with hcall | hcall
    · exact h.around call hcall
    · rw [← h.resolving]
      exact h'.around call hcall
  fresh := by
    intro call hcall
    rcases mem_append.mp hcall with hcall | hcall
    · exact h.fresh call hcall
    · intro hmem
      exact h'.fresh call hcall ((h.produced _).mpr (.inl hmem))
  apart := by
    refine pairwise_append.mpr ⟨h.apart, h'.apart, ?_⟩
    intro call hcall later hlater hmem
    exact absurd ((h.produced _).mpr (.inr ⟨call, hcall, hmem⟩)) (h'.fresh later hlater)
  pending := by
    intro before call after hsplit other hother
    rcases append_eq_append_iff.mp hsplit with
      ⟨skipped, _, hcalls'⟩ | ⟨rest, hcalls, hafter⟩
    · have hdone := h'.pending skipped call after hcalls' other hother
      rw [h.resolving] at hdone
      exact hdone
    · cases rest with
      | nil =>
        have hdone := h'.pending [] call after hafter.symm other hother
        rw [h.resolving] at hdone
        exact hdone
      | cons first rest =>
        cases hafter
        rcases h.pending before call rest hcalls other hother with hmem | ⟨later, hlater, heq⟩
        · exact .inl hmem
        · exact .inr ⟨later, mem_append_left _ hlater, heq⟩

theorem Traced.push {s s₁ : State Rendered Path} {target : Text} {job : ConcreteJob Rendered}
    {calls : List (Call Rendered)} (h : Traced ctx (s.enter target) s₁ calls)
    (hunproduced : target ∉ s.produced.members) (hunresolved : target ∉ s.resolving)
    (hmade : MadeFor ctx job target) :
    Traced ctx s
      (State.leave target { s₁ with toPlan := (s₁.toPlan.addProduced job.outputPaths).push job })
      (calls ++ [⟨target, s.resolving, job⟩]) where
  jobs := by
    have hjobs := h.jobs
    change s₁.jobs ++ [job] = _
    rw [hjobs, map_append, append_assoc]
    rfl
  produced := by
    intro path
    have hproduced := h.produced path
    change path ∈ (s₁.toPlan.addProduced job.outputPaths).produced.members ↔ _
    rw [Plan.mem_addProduced, hproduced]
    change (path ∈ s.produced.members ∨ _) ∨ _ ↔ _
    simp only [mem_append, mem_singleton, or_and_right, exists_or, exists_eq_left,
      or_assoc]
  resolving := by
    change s₁.resolving.erase target = _
    rw [h.resolving]
    exact Finset.erase_insert hunresolved
  made := by
    intro call hcall
    rcases mem_append.mp hcall with hcall | hcall
    · exact h.made call hcall
    · cases mem_singleton.mp hcall
      exact hmade
  around := by
    intro call hcall
    rcases mem_append.mp hcall with hcall | hcall
    · exact (Finset.subset_insert target _).trans (h.around call hcall)
    · cases mem_singleton.mp hcall
      exact Finset.Subset.refl _
  fresh := by
    intro call hcall
    rcases mem_append.mp hcall with hcall | hcall
    · exact h.fresh call hcall
    · cases mem_singleton.mp hcall
      exact hunproduced
  apart := by
    refine pairwise_append.mpr ⟨h.apart, pairwise_singleton _ _, ?_⟩
    intro call hcall later hlater _
    cases mem_singleton.mp hlater
    exact h.around call hcall (Finset.mem_insert_self target _)
  pending := by
    intro before call after hsplit other hother
    rcases eq_nil_or_concat after with rfl | ⟨after', last, rfl⟩
    · obtain ⟨-, hlast⟩ := append_inj' hsplit rfl
      cases hlast
      exact .inl hother
    · rw [concat_eq_append] at hsplit ⊢
      rw [← cons_append, ← append_assoc] at hsplit
      obtain ⟨hcalls, hlast⟩ := append_inj' hsplit rfl
      cases hlast
      rcases h.pending before call after' hcalls other hother with hmem | ⟨later, hlater, heq⟩
      · rcases Finset.mem_insert.mp hmem with rfl | hmem
        · exact .inr ⟨_, mem_append_right _ mem_cons_self, rfl⟩
        · exact .inl hmem
      · exact .inr ⟨later, mem_append_left _ hlater, heq⟩

theorem traced_resolveInputs {depth : ℕ}
    (hcall : ∀ path (s s' : State Rendered Path),
      resolveTarget ctx depth path s = (.ok (), s') →
        Traced ctx s s' (keptCalls ctx depth path s))
    {target : Text} {passOver : ConcreteInput → Bool} {inputs : List ConcreteInput}
    {s s' : State Rendered Path}
    (h : resolveInputs (resolveTarget ctx depth) target passOver inputs false s =
      (.ok false, s')) :
    Traced ctx s s' (keptInputs (resolveTarget ctx depth) (keptCalls ctx depth) inputs s) := by
  induction inputs generalizing s with
  | nil =>
    cases h
    exact Traced.nil rfl rfl rfl
  | cons input inputs ih =>
    obtain ⟨-, ⟨hnil, -⟩ | ⟨_, _, _, heq, hfirst, hrest⟩⟩ := resolveInputs_eq_false h
    · cases hnil
    · cases heq
      rw [keptInputs, hfirst]
      exact (hcall _ _ _ hfirst).append (ih hrest)

omit [DecidableEq Path] in
theorem exists_error_of_noRule {target : Text} (h : NoRule ctx target) :
    ∃ e, findProducer ctx.machine ctx.rules target = .error e := by
  obtain ⟨_, hpath⟩ := h
  exact ⟨_, hpath⟩

theorem traced_resolveTarget {depth : ℕ} (target : Text) (s s' : State Rendered Path)
    (h : resolveTarget ctx depth target s = (.ok (), s')) :
    Traced ctx s s' (keptCalls ctx depth target s) := by
  induction depth generalizing target s s' with
  | zero => cases h
  | succ depth ih =>
    have hresolving := (resolving_resolveTarget target s s').1 h
    have hstep := targetStep_resolveTarget ctx depth target s
    rw [h] at hstep
    generalize hresult : ((.ok (), s') : Except DagError Unit × State Rendered Path) = r at hstep
    rw [keptCalls]
    cases hstep with
    | produced hproduced =>
      cases hresult
      rw [if_pos (.inl hproduced)]
      exact Traced.nil rfl rfl rfl
    | existing hproduced hshallow hexisting =>
      cases hresult
      rw [if_pos (.inr hexisting)]
      exact Traced.nil rfl rfl rfl
    | leaf henters hnone =>
      cases hresult
      obtain ⟨e, he⟩ := exists_error_of_noRule hnone
      rw [if_neg (not_or.mpr ⟨henters.unproduced, henters.unlisted⟩), he]
      exact Traced.nil rfl rfl hresolving
    | fallback henters hselects hloop =>
      cases hresult
      rw [if_neg (not_or.mpr ⟨henters.unproduced, henters.unlisted⟩), hselects.found]
      dsimp only
      rw [hselects.inputs_eq]
      dsimp only
      rw [hloop]
      have hgrown := extends_of_resolveInputs hloop
      change s.toPlan.Extends _ at hgrown
      have hback := Plan.rollback_of_extends hgrown
      have hjobs := congrArg Plan.jobs hback
      have hproduced := congrArg Plan.produced hback
      exact Traced.nil hjobs hproduced hresolving
    | built henters hselects hloop hjob =>
      cases hresult
      obtain ⟨_, hbuild, rfl⟩ := exists_job_of_addJob hjob
      rw [if_neg (not_or.mpr ⟨henters.unproduced, henters.unlisted⟩), hselects.found]
      dsimp only
      rw [hselects.inputs_eq]
      dsimp only
      rw [hloop, hbuild]
      exact (traced_resolveInputs ih hloop).push henters.unproduced henters.fresh
        ⟨_, _, _, hselects, hbuild⟩
    | tooDeep | cycle | missing | rejected | blocked | unbuilt => cases hresult

theorem traced_resolveTargets {targets : List Text} {s s' : State Rendered Path}
    (h : resolveTargets ctx targets s = (.ok (), s')) :
    Traced ctx s s' (keptOfTargets ctx targets s) := by
  induction targets generalizing s with
  | nil =>
    cases h
    exact Traced.nil rfl rfl rfl
  | cons target targets ih =>
    rw [resolveTargets] at h
    rcases hcall : resolveTarget ctx (maxResolveDepth + 1) target s with ⟨result, s₁⟩
    rw [hcall] at h
    cases result with
    | error => cases h
    | ok =>
      rw [keptOfTargets, hcall]
      exact (traced_resolveTarget target s s₁ hcall).append (ih h)

/-! ### Uniqueness -/

omit [DecidableEq Path] in
theorem fields_of_buildJob {compiled : CompiledRule Body} {w : Wildcards}
    {inputs : List ConcreteInput} {job : ConcreteJob Rendered}
    (h : buildJob ctx compiled w inputs = some job) :
    job.rule = compiled.rule.name ∧ job.wildcards = w ∧
      job.id = buildJobId compiled.rule.name w ∧
      concreteOutputs w compiled.outputs = .ok job.outputs := by
  unfold buildJob at h
  split at h
  · cases h
  · rename_i outputs houtputs
    split at h
    · cases h
    · cases h
      exact ⟨rfl, rfl, rfl, houtputs⟩

omit [DecidableEq Path] in
theorem binds_of_buildJob {target : Text} {compiled : CompiledRule Body} {w : Wildcards}
    {inputs : List ConcreteInput} {job : ConcreteJob Rendered}
    (hselects : Selects ctx target compiled w inputs)
    (h : buildJob ctx compiled w inputs = some job) : Binds compiled w := by
  obtain ⟨-, -, -, houtputs⟩ := fields_of_buildJob h
  obtain ⟨-, hmatch⟩ := matchRule_of_findProducer hselects.found
  obtain ⟨output, houtput, hresolve⟩ := exists_of_findSome?_eq_some hmatch
  unfold resolvePattern at hresolve
  split at hresolve
  · cases hresolve
  · have hempty : SortedMap.Sorted ([] : Wildcards) := List.Pairwise.nil
    obtain ⟨hsorted, hkeys⟩ := keys_of_extractWildcards hempty hresolve
    refine ⟨hsorted, ?_⟩
    intro n
    constructor
    · intro hn
      rcases (hkeys n).mp hn with hn | hn
      · exact ⟨output, houtput, hn⟩
      · cases hn
    · rintro ⟨_, hother, hn⟩
      obtain ⟨_, hpath⟩ := interpolate_of_concreteOutputs houtputs hother
      exact mem_keys_of_interpolateSegments hpath hn

variable (ctx) in
def NamesApart : Prop :=
  ∀ compiled ∈ ctx.rules, ∀ other ∈ ctx.rules, compiled.rule.name = other.rule.name →
    compiled = other

omit [DecidableEq Path] in
theorem namesApart_of_nodup {machine : Machine} {config : Config} {rules : List (Rule Body)}
    {compiled : List (CompiledRule Body)} (hnames : (rules.map Rule.name).Nodup)
    (h : compileRules machine config rules = .ok compiled) :
    ∀ c ∈ compiled, ∀ other ∈ compiled, c.rule.name = other.rule.name → c = other := by
  have hall := forall₂_of_compileRules h
  have hmap : compiled.map (fun c => c.rule.name) = rules.map Rule.name := by
    clear hnames h
    induction hall with
    | nil => rfl
    | cons hfirst _ ih => rw [map_cons, map_cons, ih, hfirst.rule_eq]
  rw [← hmap] at hnames
  intro c hc other hother heq
  exact inj_on_of_nodup_map hnames hc hother heq

omit [DecidableEq Path] in
theorem made_same (hapart : NamesApart ctx) {path path' : Text}
    {job job' : ConcreteJob Rendered} (h : MadeFor ctx job path) (h' : MadeFor ctx job' path')
    (hrule : job.rule = job'.rule) : ∃ compiled inputs inputs',
      Selects ctx path compiled job.wildcards inputs ∧
        buildJob ctx compiled job.wildcards inputs = some job ∧
        Selects ctx path' compiled job'.wildcards inputs' ∧
        buildJob ctx compiled job'.wildcards inputs' = some job' := by
  obtain ⟨compiled, w, inputs, hselects, hbuild⟩ := h
  obtain ⟨compiled', _, inputs', hselects', hbuild'⟩ := h'
  obtain ⟨hname, rfl, -, -⟩ := fields_of_buildJob hbuild
  obtain ⟨hname', rfl, -, -⟩ := fields_of_buildJob hbuild'
  have hmem := (matchRule_of_findProducer hselects.found).1
  have hmem' := (matchRule_of_findProducer hselects'.found).1
  rw [hname, hname'] at hrule
  have heq := hapart compiled hmem compiled' hmem' hrule
  subst heq
  exact ⟨compiled, inputs, inputs', hselects, hbuild, hselects', hbuild'⟩

theorem rel_of_firstDuplicate {R : PhysicalGraph.ConcreteJob → PhysicalGraph.ConcreteJob → Prop}
    {seen jobs : List PhysicalGraph.ConcreteJob} {earlier job : PhysicalGraph.ConcreteJob}
    (h : PhysicalGraph.firstDuplicate seen jobs = some (earlier, job))
    (hpair : (seen ++ jobs).Pairwise R) : R earlier job ∧ earlier.id = job.id := by
  induction jobs generalizing seen with
  | nil => cases h
  | cons first jobs ih =>
    rw [PhysicalGraph.firstDuplicate] at h
    cases hfind : seen.find? (fun earlier => earlier.id == first.id) with
    | some =>
      rw [hfind] at h
      cases h
      have hid := find?_some hfind
      refine ⟨?_, beq_iff_eq.mp hid⟩
      exact (pairwise_append.mp hpair).2.2 _ (mem_of_find?_eq_some hfind) _
        mem_cons_self
    | none =>
      rw [hfind] at h
      refine ih h ?_
      rw [append_assoc]
      exact hpair

/-- Jobs of one rule have different wildcards and ids and bind the same names, and the graph of the
jobs reports no id twice for a rule. -/
structure OneJobPerInstance (jobs : List (ConcreteJob Rendered)) : Prop where
  instances : jobs.Pairwise fun job later =>
    ¬ (job.rule = later.rule ∧ job.wildcards = later.wildcards)
  /-- No id stands for two jobs of a rule. -/
  ids : jobs.Pairwise fun job later => job.rule = later.rule → job.id ≠ later.id
  /-- Jobs of a rule bind the same names. -/
  names : ∀ job ∈ jobs, ∀ other ∈ jobs, job.rule = other.rule →
    job.wildcards.map Prod.fst = other.wildcards.map Prod.fst
  /-- The graph does not report a duplicate id for a rule. -/
  graph : ∀ view : ConcreteJob Rendered → PhysicalGraph.ConcreteJob,
    (∀ job, (view job).id = String.ofList job.id ∧ (view job).rule = String.ofList job.rule) →
      ∀ id rule, PhysicalGraph.JobGraph.build (jobs.map view) ≠
        .error (.duplicateJobId id rule rule)

variable (ctx) in
/-- No kept job was begun for a path while another path of its instance was being resolved. -/
def NoRestart (targets : List Text) : Prop :=
  ∀ call ∈ keptOfTargets ctx targets (State.new : State Rendered Path),
    ∀ other ∈ call.resolving, ¬ SameInstance ctx other call.target

theorem instances_iff (hapart : NamesApart ctx) {targets : List Text} {s : State Rendered Path}
    (h : resolveTargets ctx targets State.new = (.ok (), s)) :
    (s.jobs.Pairwise fun job later =>
      ¬ (job.rule = later.rule ∧ job.wildcards = later.wildcards)) ↔ NoRestart ctx targets := by
  have htraced := traced_resolveTargets h
  have hjobs : s.jobs = (keptOfTargets ctx targets State.new).map Call.job := htraced.jobs
  rw [hjobs, pairwise_map]
  constructor
  · intro hdistinct call hcall other hother hsame
    obtain ⟨compiled, w, inputs, hselects, hselects'⟩ := hsame
    obtain ⟨before, after, hsplit⟩ := append_of_mem hcall
    rcases htraced.pending before call after hsplit other hother with hmem | ⟨later, hlater, rfl⟩
    · cases Finset.notMem_empty other hmem
    have hmem : later ∈ keptOfTargets ctx targets State.new := by
      rw [hsplit]
      exact mem_append_right _ (.tail _ hlater)
    obtain ⟨c, _, i, hc, hbuild⟩ := htraced.made call hcall
    obtain ⟨_, _, _, hc', hbuild'⟩ := htraced.made later hmem
    obtain ⟨rfl, rfl, rfl⟩ := hc.unique hselects'
    obtain ⟨rfl, rfl, rfl⟩ := hc'.unique hselects
    obtain ⟨hname, hw, -, -⟩ := fields_of_buildJob hbuild
    obtain ⟨hname', hw', -, -⟩ := fields_of_buildJob hbuild'
    rw [hsplit] at hdistinct
    have hrest := (pairwise_append.mp hdistinct).2.1
    exact rel_of_pairwise_cons hrest hlater ⟨hname.trans hname'.symm, hw.trans hw'.symm⟩
  · intro hrestart
    refine htraced.apart.imp_of_mem ?_
    rintro call later hcall hlater hapartCalls ⟨hrule, hwildcards⟩
    obtain ⟨compiled, inputs, _, hselects, hbuild, hselects', hbuild'⟩ :=
      made_same hapart (htraced.made call hcall) (htraced.made later hlater) hrule
    obtain ⟨-, -, -, houtputs⟩ := fields_of_buildJob hbuild
    rw [hwildcards] at houtputs hselects
    have hmem : later.target ∈ call.job.outputPaths :=
      mem_outputs_of_findProducer hselects'.found houtputs
    have hinputs := hselects.inputs_eq
    rw [hselects'.inputs_eq] at hinputs
    cases hinputs
    exact hrestart call hcall later.target (hapartCalls hmem) ⟨_, _, _, hselects', hselects⟩

omit [DecidableEq Path] in
theorem oneJobPerInstance_of_instances (hapart : NamesApart ctx)
    {jobs : List (ConcreteJob Rendered)} (hmade : ∀ job ∈ jobs, ∃ path, MadeFor ctx job path)
    (h : jobs.Pairwise fun job later =>
      ¬ (job.rule = later.rule ∧ job.wildcards = later.wildcards)) : OneJobPerInstance jobs := by
  have hnames : ∀ job ∈ jobs, ∀ other ∈ jobs, job.rule = other.rule →
      job.wildcards.map Prod.fst = other.wildcards.map Prod.fst := by
    intro job hjob other hother hrule
    obtain ⟨path, hpath⟩ := hmade job hjob
    obtain ⟨_, hpath'⟩ := hmade other hother
    obtain ⟨compiled, inputs, _, hselects, hbuild, hselects', hbuild'⟩ :=
      made_same hapart hpath hpath' hrule
    exact (binds_of_buildJob hselects hbuild).keys_eq (binds_of_buildJob hselects' hbuild')
  have hid : ∀ job ∈ jobs, job.id = buildJobId job.rule job.wildcards := by
    intro job hjob
    obtain ⟨path, compiled, w, inputs, -, hbuild⟩ := hmade job hjob
    obtain ⟨hrule, hw, hid, -⟩ := fields_of_buildJob hbuild
    rw [hrule, hw, hid]
  have hids : jobs.Pairwise fun job later => job.rule = later.rule → job.id ≠ later.id := by
    refine h.imp_of_mem ?_
    intro job later hjob hlater hdistinct hrule heq
    rw [hid job hjob, hid later hlater, ← hrule] at heq
    exact hdistinct ⟨hrule, eq_of_buildJobId (hnames job hjob later hlater hrule) heq⟩
  refine ⟨h, hids, hnames, ?_⟩
  intro view hview id rule hbuild
  unfold PhysicalGraph.JobGraph.build at hbuild
  split at hbuild
  · rename_i earlier job hduplicate
    obtain ⟨-, hearlier, hlater⟩ :=
      PhysicalGraph.DagError.duplicateJobId.inj (Except.error.inj hbuild)
    have hpair : (jobs.map view).Pairwise fun job later => job.rule = later.rule →
        job.id ≠ later.id := by
      rw [pairwise_map]
      refine hids.imp ?_
      intro job later hne hrule hsame
      rw [(hview job).2, (hview later).2] at hrule
      rw [(hview job).1, (hview later).1] at hsame
      exact hne (String.ofList_injective hrule) (String.ofList_injective hsame)
    rw [← nil_append (jobs.map view)] at hpair
    obtain ⟨hrel, hsame⟩ := rel_of_firstDuplicate hduplicate hpair
    exact hrel (hearlier.trans hlater.symm) hsame
  · split at hbuild
    · cases hbuild
    · cases hbuild

/-- A resolution with distinct rule names has one job per rule instance exactly when no kept job
was begun for a path while another path of its instance was being resolved. -/
theorem one_job_per_instance (env : Environment Body Rendered Path) (rules : List (Rule Body))
    (request : ResolveRequest Path) (result : ResolveResult Rendered Path)
    (hnames : (rules.map Rule.name).Nodup)
    (h : resolveWithSourceFallbackAt env rules request = .ok result) :
    ∃ compiled, compileRules env.machine request.config rules = .ok compiled ∧
      (OneJobPerInstance result.jobs ↔
        NoRestart (env.context request compiled) request.targets) := by
  unfold resolveWithSourceFallbackAt at h
  split at h
  · cases h
  · rename_i compiled hcompiled
    refine ⟨compiled, hcompiled, ?_⟩
    have hapart : NamesApart (env.context request compiled) := namesApart_of_nodup hnames hcompiled
    unfold resolve at h
    split at h
    · cases h
    · rename_i s hrun
      cases h
      have hmade : ∀ job ∈ s.jobs, ∃ path, MadeFor (env.context request compiled) job path := by
        have htraced := traced_resolveTargets hrun
        have hjobs : s.jobs = (keptOfTargets _ request.targets State.new).map Call.job :=
          htraced.jobs
        intro job hjob
        rw [hjobs] at hjob
        obtain ⟨call, hcall, rfl⟩ := mem_map.mp hjob
        exact ⟨call.target, htraced.made call hcall⟩
      rw [← instances_iff hapart hrun]
      constructor
      · intro hone
        exact hone.instances
      · intro hinstances
        exact oneJobPerInstance_of_instances hapart hmade hinstances

/-- A report and its figure are made by one job. -/
theorem one_job_per_instance_report :
    OneJobPerInstance [literalJob "count" [] ["counts.json"],
      literalJob "plot" ["counts.json"] ["report.html", "figure.png"]] := by
  have hrun : resolveWithSourceFallbackAt (literalEnvironment [])
      [literalRule "count" none [] ["counts.json"],
        literalRule "plot" none ["counts.json"] ["report.html", "figure.png"]]
      (literalRequest ["report.html", "figure.png"] []) =
      .ok ⟨[literalJob "count" [] ["counts.json"],
        literalJob "plot" ["counts.json"] ["report.html", "figure.png"]], ∅⟩ := by
    with_unfolding_all decide
  obtain ⟨compiled, hcompiled, hiff⟩ := one_job_per_instance _ _ _ _ (by decide) hrun
  refine hiff.mpr ?_
  unfold resolveWithSourceFallbackAt at hrun
  rw [hcompiled] at hrun
  dsimp only [resolve] at hrun
  split at hrun
  · cases hrun
  · rename_i s hs
    refine (instances_iff (namesApart_of_nodup (by decide) hcompiled) hs).mp ?_
    rw [show s.jobs = _ from congrArg ResolveResult.jobs (Except.ok.inj hrun)]
    decide

/-- Statistics that are counted beside and merged with a figure of the plot that reads them give the
plot two jobs. -/
theorem not_one_job_per_instance :
    ¬ ∀ (env : Environment Unit Unit Text) (rules : List (Rule Unit))
      (request : ResolveRequest Text) (result : ResolveResult Unit Text),
      (rules.map Rule.name).Nodup → resolveWithSourceFallbackAt env rules request = .ok result →
        OneJobPerInstance result.jobs := by
  intro hone
  have hrun : resolveWithSourceFallbackAt (literalEnvironment [])
      [literalRule "plot" none ["stats.json"] ["figure.png", "report.html"],
        literalRule "merge" (some 1) ["counts.json", "figure.png"] ["stats.json"],
        literalRule "count" none [] ["counts.json", "stats.json"]]
      (literalRequest ["report.html"] []) =
      .ok ⟨[literalJob "count" [] ["counts.json", "stats.json"],
        literalJob "plot" ["stats.json"] ["figure.png", "report.html"],
        literalJob "merge" ["counts.json", "figure.png"] ["stats.json"],
        literalJob "plot" ["stats.json"] ["figure.png", "report.html"]], ∅⟩ := by
    with_unfolding_all decide
  have hinstances := (hone _ _ _ _ (by decide) hrun).instances
  have hrest := (pairwise_cons.mp hinstances).2
  have hplot := (pairwise_cons.mp hrest).1
  exact hplot (literalJob "plot" ["stats.json"] ["figure.png", "report.html"])
    (.tail _ (.head _)) ⟨rfl, rfl⟩

end OxyMake.InstanceUniqueness
