import OxyMake.PrioritySelection
import OxyMake.Resolver

/-!
# The producer of a target

The index of producers holds every output pattern, compiled once, with the number
of its rule; the public search parses and compiles the patterns of one rule after
another. Both take the first matching pattern of a rule and select among the
matching rules by priority. On rules whose patterns compile and refer to no
configuration they give one answer, and the order of the rules does not matter.
-/

namespace OxyMake.ProducerSelection

open List Option
open Wildcard hiding extractWildcards
open RuleInstances hiding findProducer candidates priorityOf
open PrioritySelection
open Resolver (literalRule literalMachine literalOutput)

/-- A pattern with the constraints that it was compiled with. -/
structure CompiledPattern where
  pattern : Pattern
  constraints : List (Text × Text)

section Search

variable {Body : Type} (machine : Machine)

def CompiledPattern.new (pattern : Pattern) (constraints : List (Text × Text)) :
    Except WildcardError CompiledPattern := do
  checkPatternConstraints machine constraints pattern pattern.wildcardNames
  return ⟨pattern, constraints⟩

def CompiledPattern.resolve (compiled : CompiledPattern) (path : Text) : Option Wildcards :=
  resolvePattern machine compiled.constraints compiled.pattern path

/-- Compile a pattern and match it against a path. -/
def resolveWithConstraints (pattern : Pattern) (path : Text) (constraints : List (Text × Text)) :
    Except WildcardError (Option Wildcards) := do
  checkPatternConstraints machine constraints pattern pattern.wildcardNames
  return resolvePattern machine constraints pattern path

/-! ### The index -/

/-- An output pattern in the index. -/
structure ProducerEntry where
  ruleIdx : ℕ
  compiled : CompiledPattern

/-- Output patterns of all rules. -/
structure ProducerIndex where
  entries : List ProducerEntry

def indexOutputs (scalars : List (Text × Text)) (ruleIdx : ℕ) (rule : Rule Body) :
    List OutputPattern → Except WildcardError (List ProducerEntry)
  | [] => .ok []
  | output :: outputs => do
    let expanded ← substituteConfigScalars scalars output.pattern
    let pattern ← parse machine.alphanumeric expanded
    let compiled ← CompiledPattern.new machine pattern rule.wildcardConstraints
    let rest ← indexOutputs scalars ruleIdx rule outputs
    return ⟨ruleIdx, compiled⟩ :: rest

def indexRules (scalars : List (Text × Text)) :
    ℕ → List (Rule Body) → Except WildcardError (List ProducerEntry)
  | _, [] => .ok []
  | ruleIdx, rule :: rules => do
    let first ← indexOutputs machine scalars ruleIdx rule rule.outputs
    let rest ← indexRules scalars (ruleIdx + 1) rules
    return first ++ rest

def ProducerIndex.build (rules : List (Rule Body)) (scalars : List (Text × Text)) :
    Except WildcardError ProducerIndex :=
  (indexRules machine scalars 0 rules).map ProducerIndex.mk

/-- Matching entries, passing over those of the rule that matched last. -/
def scanEntries (target : Text) : List ProducerEntry → Option ℕ → List (ℕ × Wildcards)
  | [], _ => []
  | entry :: entries, lastRuleIdx =>
    if lastRuleIdx = some entry.ruleIdx then scanEntries target entries lastRuleIdx
    else
      match entry.compiled.resolve machine target with
      | some wildcards =>
        (entry.ruleIdx, wildcards) :: scanEntries target entries (some entry.ruleIdx)
      | none => scanEntries target entries lastRuleIdx

/-- A matching rule with its number and wildcards. -/
structure Candidate (Body : Type) where
  ruleIdx : ℕ
  rule : Rule Body
  wildcards : Wildcards

def ProducerIndex.candidates (index : ProducerIndex) (rules : List (Rule Body)) (target : Text) :
    List (Candidate Body) :=
  (scanEntries machine target index.entries none).filterMap fun found =>
    rules[found.1]?.map fun rule => ⟨found.1, rule, found.2⟩

def priorityOf (rule : Rule Body) : ℕ := rule.priority.getD 0

/-- The answer of a search among the matching rules. -/
def answer {α : Type} (ruleOf : α → Rule Body) (target : Text) :
    Selection α → Except WildcardError α
  | .none => .error (.noProducer target)
  | .sole a => .ok a
  | .tied all => .error (.ambiguousProducer target (all.map fun a => (ruleOf a).name))

/-- Find the rule whose output pattern matches a target with the index. -/
def ProducerIndex.findProducer (index : ProducerIndex) (rules : List (Rule Body))
    (target : Text) : Except WildcardError (Candidate Body) :=
  answer Candidate.rule target
    (select (fun c => priorityOf c.rule) (index.candidates machine rules target))

/-! ### The public search -/

def matchOutputs (rule : Rule Body) (target : Text) :
    List OutputPattern → Except WildcardError (Option Wildcards)
  | [] => .ok none
  | output :: outputs => do
    let pattern ← parse machine.alphanumeric output.pattern
    match ← resolveWithConstraints machine pattern target rule.wildcardConstraints with
    | some wildcards => return some wildcards
    | none => matchOutputs rule target outputs

def candidates (target : Text) :
    List (Rule Body) → Except WildcardError (List (Rule Body × Wildcards))
  | [] => .ok []
  | rule :: rules => do
    let first ← matchOutputs machine rule target rule.outputs
    let rest ← candidates target rules
    return (first.map (rule, ·)).toList ++ rest

/-- Find the rule whose output pattern matches a target. -/
def findProducer (rules : List (Rule Body)) (target : Text) :
    Except WildcardError (Rule Body × Wildcards) := do
  let found ← candidates machine target rules
  answer Prod.fst target (select (fun c => priorityOf c.1) found)

end Search

/-! ### Rules that compile -/

section Agreement

variable {Body : Type} (machine : Machine)

/-- The output pattern of a rule refers to no configuration, parses and compiles. -/
def Compiles (rule : Rule Body) (output : OutputPattern) : Prop :=
  findConfig output.pattern = none ∧
    ∃ pattern compiled, parse machine.alphanumeric output.pattern = .ok pattern ∧
      CompiledPattern.new machine pattern rule.wildcardConstraints = .ok compiled

def matching (rule : Rule Body) (target : Text) : Option Wildcards :=
  match matchOutputs machine rule target rule.outputs with
  | .ok found => found
  | .error _ => none

/-- The same rule and wildcards, or an error of the same kind that names the same rules. -/
inductive SameAnswer : Except WildcardError (Rule Body × Wildcards) →
    Except WildcardError (Rule Body × Wildcards) → Prop
  | ok (found : Rule Body × Wildcards) : SameAnswer (.ok found) (.ok found)
  | noProducer (target : Text) :
      SameAnswer (.error (.noProducer target)) (.error (.noProducer target))
  | ambiguousProducer (target : Text) {names names' : List Text} :
      (∀ name, name ∈ names ↔ name ∈ names') →
        SameAnswer (.error (.ambiguousProducer target names))
          (.error (.ambiguousProducer target names'))

variable {machine}

theorem substituteConfigScalars_of_none {scalars : List (Text × Text)} {pattern : Text}
    (h : findConfig pattern = none) : substituteConfigScalars scalars pattern = .ok pattern := by
  rw [substituteConfigScalars, h]
  rfl

theorem resolve_of_new {pattern : Pattern} {constraints : List (Text × Text)}
    {compiled : CompiledPattern}
    (h : CompiledPattern.new machine pattern constraints = .ok compiled) (target : Text) :
    resolveWithConstraints machine pattern target constraints =
      .ok (compiled.resolve machine target) := by
  unfold CompiledPattern.new at h
  unfold resolveWithConstraints CompiledPattern.resolve
  cases hcheck : checkPatternConstraints machine constraints pattern pattern.wildcardNames with
  | error =>
    rw [hcheck] at h
    cases h
  | ok =>
    rw [hcheck] at h
    cases h
    rfl

theorem indexOutputs_of_compiles {rule : Rule Body} (scalars : List (Text × Text))
    (ruleIdx : ℕ) {outputs : List OutputPattern}
    (h : ∀ output ∈ outputs, Compiles machine rule output) :
    ∃ entries, indexOutputs machine scalars ruleIdx rule outputs = .ok entries ∧
      (∀ entry ∈ entries, entry.ruleIdx = ruleIdx) ∧
      ∀ target, matchOutputs machine rule target outputs =
        .ok (entries.findSome? fun entry => entry.compiled.resolve machine target) := by
  induction outputs with
  | nil => exact ⟨[], rfl, forall_mem_nil _, fun _ => rfl⟩
  | cons output outputs ih =>
    obtain ⟨entries, hentries, hidx, hmatch⟩ := ih fun o ho => h o (.tail _ ho)
    obtain ⟨hnone, _, compiled, hparse, hcompile⟩ := h output mem_cons_self
    refine ⟨⟨ruleIdx, compiled⟩ :: entries, ?_, ?_, ?_⟩
    · rw [indexOutputs, substituteConfigScalars_of_none hnone]
      dsimp only [bind, Except.bind]
      rw [hparse]
      dsimp only
      rw [hcompile]
      dsimp only
      rw [hentries]
      rfl
    · intro entry hentry
      cases mem_cons.mp hentry with
      | inl heq => rw [heq]
      | inr htail => exact hidx entry htail
    · intro target
      rw [matchOutputs, hparse]
      dsimp only [bind, Except.bind]
      rw [resolve_of_new hcompile target, findSome?_cons]
      dsimp only
      cases compiled.resolve machine target with
      | some => rfl
      | none => exact hmatch target

theorem scanEntries_skip {target : Text} {ruleIdx : ℕ} {entries rest : List ProducerEntry}
    (hidx : ∀ entry ∈ entries, entry.ruleIdx = ruleIdx) :
    scanEntries machine target (entries ++ rest) (some ruleIdx) =
      scanEntries machine target rest (some ruleIdx) := by
  induction entries with
  | nil => rfl
  | cons entry entries ih =>
    have hsame := hidx entry mem_cons_self
    rw [cons_append, scanEntries, if_pos (by rw [hsame])]
    exact ih fun e he => hidx e (.tail _ he)

theorem scanEntries_rule {target : Text} {ruleIdx : ℕ} {entries rest : List ProducerEntry}
    {last : Option ℕ} (hidx : ∀ entry ∈ entries, entry.ruleIdx = ruleIdx)
    (hlast : last ≠ some ruleIdx) :
    scanEntries machine target (entries ++ rest) last =
      match entries.findSome? fun entry => entry.compiled.resolve machine target with
      | some wildcards => (ruleIdx, wildcards) :: scanEntries machine target rest (some ruleIdx)
      | none => scanEntries machine target rest last := by
  induction entries with
  | nil => rfl
  | cons entry entries ih =>
    have hsame := hidx entry mem_cons_self
    have htail : ∀ e ∈ entries, e.ruleIdx = ruleIdx := fun e he =>
      hidx e (.tail _ he)
    rw [cons_append, scanEntries, hsame, if_neg hlast, findSome?_cons]
    cases hresolve : entry.compiled.resolve machine target with
    | some =>
      dsimp only
      rw [scanEntries_skip htail]
    | none => exact ih htail

theorem candidates_of_compiles {rules : List (Rule Body)} (target : Text)
    (h : ∀ rule ∈ rules, ∀ output ∈ rule.outputs, Compiles machine rule output) :
    candidates machine target rules =
      .ok (rules.filterMap fun rule => (matching machine rule target).map (rule, ·)) := by
  induction rules with
  | nil => rfl
  | cons rule rules ih =>
    have hrest := ih fun r hr => h r (.tail _ hr)
    obtain ⟨_, -, -, hmatch⟩ :=
      indexOutputs_of_compiles [] 0 (h rule mem_cons_self)
    have hmatching : matchOutputs machine rule target rule.outputs =
        .ok (matching machine rule target) := by
      unfold matching
      rw [hmatch target]
    rw [candidates, hmatching]
    dsimp only [bind, Except.bind]
    rw [hrest, filterMap_cons]
    cases matching machine rule target with
    | none | some => rfl

theorem scanEntries_of_compiles (scalars : List (Text × Text)) (target : Text)
    {rules : List (Rule Body)}
    (h : ∀ rule ∈ rules, ∀ output ∈ rule.outputs, Compiles machine rule output) (first : ℕ) :
    ∃ entries, indexRules machine scalars first rules = .ok entries ∧
      ∀ last : Option ℕ, (∀ i, last = some i → i < first) →
        scanEntries machine target entries last =
          (rules.zipIdx first).filterMap fun rule =>
            (matching machine rule.1 target).map (rule.2, ·) := by
  induction rules generalizing first with
  | nil => exact ⟨[], rfl, fun _ _ => rfl⟩
  | cons rule rules ih =>
    obtain ⟨rest, hrest, hscan⟩ := ih (fun r hr => h r (.tail _ hr)) (first + 1)
    obtain ⟨entries, hentries, hidx, hmatch⟩ :=
      indexOutputs_of_compiles scalars first (h rule mem_cons_self)
    refine ⟨entries ++ rest, ?_, ?_⟩
    · rw [indexRules, hentries]
      dsimp only [bind, Except.bind]
      rw [hrest]
      rfl
    · intro last hlast
      have hne : last ≠ some first := by
        intro heq
        have hlt := hlast first heq
        omega
      have hmatching : matching machine rule target =
          entries.findSome? fun entry => entry.compiled.resolve machine target := by
        unfold matching
        rw [hmatch target]
      rw [scanEntries_rule hidx hne, ← hmatching, zipIdx_cons, filterMap_cons]
      cases matching machine rule target with
      | some =>
        dsimp only [map_some]
        rw [hscan (some first) fun i hi => by cases hi; omega]
      | none =>
        dsimp only [map_none]
        rw [hscan last fun i hi => by have := hlast i hi; omega]

theorem candidates_of_index (scalars : List (Text × Text)) {rules : List (Rule Body)}
    (h : ∀ rule ∈ rules, ∀ output ∈ rule.outputs, Compiles machine rule output) :
    ∃ index, ProducerIndex.build machine rules scalars = .ok index ∧ ∀ target,
      candidates machine target rules =
        .ok ((index.candidates machine rules target).map fun c => (c.rule, c.wildcards)) := by
  obtain ⟨entries, hentries, -⟩ := scanEntries_of_compiles scalars [] h 0
  refine ⟨⟨entries⟩, by rw [ProducerIndex.build, hentries]; rfl, ?_⟩
  intro target
  obtain ⟨_, hentries', hscan⟩ := scanEntries_of_compiles scalars target h 0
  rw [hentries] at hentries'
  cases hentries'
  have hnumbered : (scanEntries machine target entries none).filterMap (fun found =>
        rules[found.1]?.map fun rule => (⟨found.1, rule, found.2⟩ : Candidate Body)) =
      rules.zipIdx.filterMap fun rule =>
        (matching machine rule.1 target).map fun w => ⟨rule.2, rule.1, w⟩ := by
    rw [hscan none nofun, filterMap_filterMap]
    refine filterMap_congr fun rule hrule => ?_
    have hget : rules[rule.2]? = some rule.1 := mem_zipIdx_iff_getElem?.mp hrule
    cases matching machine rule.1 target with
    | none => rfl
    | some =>
      dsimp only [map_some, bind_some]
      rw [hget]
      rfl
  rw [candidates_of_compiles target h, ProducerIndex.candidates, hnumbered, map_filterMap]
  congr 1
  have hfst : rules = rules.zipIdx.map Prod.fst := (zipIdx_map_fst 0 rules).symm
  conv_lhs => rw [hfst]
  rw [filterMap_map]
  refine filterMap_congr fun rule _ => ?_
  cases h' : matching machine rule.1 target with
  | none | some =>
    dsimp only [Function.comp]
    rw [h']
    rfl

/-! ### One answer -/

theorem answer_select_map {α β : Type} (f : α → β) (ruleOf : β → Rule Body) (target : Text)
    (cs : List α) :
    (answer (fun a => ruleOf (f a)) target
      (select (fun a => priorityOf (ruleOf (f a))) cs)).map f =
      answer ruleOf target (select (fun b => priorityOf (ruleOf b)) (cs.map f)) := by
  rw [select_map f (fun b => priorityOf (ruleOf b)) cs]
  cases select (fun a => priorityOf (ruleOf (f a))) cs with
  | none | sole => rfl
  | tied all =>
    have hnames : (all.map f).map (fun b => (ruleOf b).name) =
        all.map fun a => (ruleOf (f a)).name := by
      rw [List.map_map]
      rfl
    dsimp only [Selection.map, answer, Except.map]
    rw [hnames]

theorem sameAnswer_of_same {target : Text} {a b : Selection (Rule Body × Wildcards)}
    (h : a.Same b) : SameAnswer (answer Prod.fst target a) (answer Prod.fst target b) := by
  cases h with
  | none => exact .noProducer target
  | sole found => exact .ok found
  | tied hperm =>
    exact .ambiguousProducer target fun name => (hperm.map _).mem_iff

/-- The rule is the only matching rule of maximal priority, and these are its wildcards. -/
def Selected (machine : Machine) (rules : List (Rule Body)) (target : Text) (rule : Rule Body)
    (wildcards : Wildcards) : Prop :=
  matching machine rule target = some wildcards ∧
    ∃ before after, rules = before ++ rule :: after ∧
      ∀ other ∈ before ++ after, (matching machine other target).isSome = true →
        priorityOf other < priorityOf rule

theorem soleMax_matching_iff {rules : List (Rule Body)} {target : Text} {rule : Rule Body}
    {wildcards : Wildcards} :
    SoleMax (fun c => priorityOf c.1)
        (rules.filterMap fun rule => (matching machine rule target).map (rule, ·))
        (rule, wildcards) ↔
      Selected machine rules target rule wildcards := by
  constructor
  · rintro ⟨before, after, heq, hlower⟩
    obtain ⟨first, _, rfl, hfirst, hrest⟩ := filterMap_eq_append_iff.mp heq
    obtain ⟨skipped, _, last, rfl, hskipped, hrule', hlast⟩ :=
      filterMap_eq_cons_iff.mp hrest
    obtain ⟨_, hmatching, hpair⟩ := map_eq_some_iff.mp hrule'
    cases hpair
    refine ⟨hmatching, first ++ skipped, last, by rw [append_assoc], ?_⟩
    intro other hother hsome
    obtain ⟨w, hw⟩ := isSome_iff_exists.mp hsome
    have himage : (matching machine other target).map (other, ·) = some (other, w) := by
      rw [hw]
      rfl
    have hin : (other, w) ∈ before ++ after := by
      rw [← hfirst, ← hlast]
      rw [append_assoc] at hother
      cases mem_append.mp hother with
      | inl hmem => exact mem_append_left _ (mem_filterMap.mpr ⟨other, hmem, himage⟩)
      | inr hmem =>
        cases mem_append.mp hmem with
        | inl hmem =>
          have hnone := hskipped other hmem
          rw [himage] at hnone
          cases hnone
        | inr hmem =>
          exact mem_append_right _ (mem_filterMap.mpr ⟨other, hmem, himage⟩)
    exact hlower (other, w) hin
  · rintro ⟨hmatching, before, after, rfl, hlower⟩
    refine ⟨before.filterMap fun rule => (matching machine rule target).map (rule, ·),
      after.filterMap fun rule => (matching machine rule target).map (rule, ·), ?_, ?_⟩
    · rw [filterMap_append, filterMap_cons, hmatching]
      rfl
    · intro c hc
      rw [← filterMap_append] at hc
      obtain ⟨other, hother, himage⟩ := mem_filterMap.mp hc
      obtain ⟨w, hw, rfl⟩ := map_eq_some_iff.mp himage
      exact hlower other hother (by rw [hw]; rfl)

theorem findProducer_eq_ok_iff {rules : List (Rule Body)} {target : Text}
    (h : ∀ rule ∈ rules, ∀ output ∈ rule.outputs, Compiles machine rule output)
    {rule : Rule Body} {wildcards : Wildcards} :
    findProducer machine rules target = .ok (rule, wildcards) ↔
      Selected machine rules target rule wildcards := by
  rw [← soleMax_matching_iff, ← select_eq_sole_iff, findProducer, candidates_of_compiles target h]
  dsimp only [bind, Except.bind]
  cases select (fun c => priorityOf c.1)
      (rules.filterMap fun rule => (matching machine rule target).map (rule, ·)) with
  | none => exact ⟨nofun, nofun⟩
  | sole a =>
    constructor
    · intro hok
      rw [Except.ok.inj hok]
    · intro hsole
      cases hsole
      rfl
  | tied all => exact ⟨nofun, nofun⟩

theorem findProducer_perm {rules rules' : List (Rule Body)} (target : Text)
    (h : ∀ rule ∈ rules, ∀ output ∈ rule.outputs, Compiles machine rule output)
    (hperm : rules.Perm rules') :
    SameAnswer (findProducer machine rules target) (findProducer machine rules' target) := by
  have h' : ∀ rule ∈ rules', ∀ output ∈ rule.outputs, Compiles machine rule output :=
    fun rule hrule => h rule (hperm.symm.subset hrule)
  rw [findProducer, findProducer, candidates_of_compiles target h, candidates_of_compiles target h']
  exact sameAnswer_of_same (select_perm (hperm.filterMap _))

/-! ### The producer of the resolver -/

theorem indexOutputs_eq (config : Config) (ruleIdx : ℕ) (rule : Rule Body)
    (outputs : List OutputPattern) :
    indexOutputs machine config.scalars ruleIdx rule outputs =
      (compileOutputs machine config rule outputs).map fun patterns =>
        patterns.map fun output => ⟨ruleIdx, ⟨output.2, rule.wildcardConstraints⟩⟩ := by
  induction outputs with
  | nil => rfl
  | cons output outputs ih =>
    rw [indexOutputs, compileOutputs, parsePattern, ih]
    dsimp only [bind, Except.bind]
    cases substituteConfigScalars config.scalars output.pattern with
    | error => rfl
    | ok expanded =>
      dsimp only
      cases parse machine.alphanumeric expanded with
      | error => rfl
      | ok pattern =>
        dsimp only [CompiledPattern.new, bind, Except.bind]
        cases checkPatternConstraints machine rule.wildcardConstraints pattern
            pattern.wildcardNames with
        | error e => rfl
        | ok _ =>
          dsimp only
          cases compileOutputs machine config rule outputs with
          | error | ok => rfl

theorem scanEntries_of_compiled {config : Config} (target : Text) {rules : List (Rule Body)}
    {compiled : List (CompiledRule Body)}
    (h : List.Forall₂ (CompiledFrom machine config) rules compiled) (first : ℕ) :
    ∃ entries, indexRules machine config.scalars first rules = .ok entries ∧
      ∀ last : Option ℕ, (∀ i, last = some i → i < first) →
        scanEntries machine target entries last =
          (compiled.zipIdx first).filterMap fun rule =>
            (matchRule machine rule.1 target).map (rule.2, ·) := by
  induction h generalizing first with
  | nil => exact ⟨[], rfl, fun _ _ => rfl⟩
  | @cons rule compiledRule rules compiled hrule _ ih =>
    obtain ⟨rest, hrest, hscan⟩ := ih (first + 1)
    refine ⟨(compiledRule.outputs.map fun output =>
      (⟨first, ⟨output.2, rule.wildcardConstraints⟩⟩ : ProducerEntry)) ++ rest, ?_, ?_⟩
    · rw [indexRules, indexOutputs_eq, hrule.outputs, hrest]
      rfl
    · intro last hlast
      have hidx : ∀ entry ∈ compiledRule.outputs.map (fun output =>
          (⟨first, ⟨output.2, rule.wildcardConstraints⟩⟩ : ProducerEntry)),
          entry.ruleIdx = first := by
        intro entry hentry
        obtain ⟨output, -, rfl⟩ := List.mem_map.mp hentry
        rfl
      have hne : last ≠ some first := by
        intro heq
        have hlt := hlast first heq
        omega
      have hmatch : (compiledRule.outputs.map fun output =>
          (⟨first, ⟨output.2, rule.wildcardConstraints⟩⟩ : ProducerEntry)).findSome?
            (fun entry => entry.compiled.resolve machine target) =
          matchRule machine compiledRule target := by
        rw [findSome?_map, matchRule, hrule.rule_eq]
        rfl
      rw [scanEntries_rule hidx hne, hmatch, zipIdx_cons, filterMap_cons]
      cases matchRule machine compiledRule target with
      | some =>
        dsimp only [map_some]
        rw [hscan (some first) fun i hi => by cases hi; omega]
      | none =>
        dsimp only [map_none]
        rw [hscan last fun i hi => by have := hlast i hi; omega]

theorem findProducer_eq_select (compiled : List (CompiledRule Body)) (target : Text) :
    RuleInstances.findProducer machine compiled target =
      answer (fun c => c.1.rule) target
        (select RuleInstances.priorityOf (RuleInstances.candidates machine compiled target)) := by
  unfold RuleInstances.findProducer
  cases hcs : RuleInstances.candidates machine compiled target with
  | nil => rfl
  | cons c cs =>
    cases cs with
    | nil => rfl
    | cons d cs =>
      have hlen : 2 ≤ (c :: d :: cs).length := by
        simp only [length_cons]
        omega
      obtain ⟨_, _, _, hsorted, hselect⟩ :=
        select_sorted RuleInstances.priorityOf hlen
      rw [hselect]
      dsimp only
      rw [hsorted]
      dsimp only
      split_ifs with hbest
      · rfl
      · rfl

/-- The resolver finds producers with the index. -/
theorem findProducer_of_compileRules {config : Config} {rules : List (Rule Body)}
    {compiled : List (CompiledRule Body)}
    (h : compileRules machine config rules = .ok compiled) :
    ∃ index, ProducerIndex.build machine rules config.scalars = .ok index ∧ ∀ target,
      (index.findProducer machine rules target).map (fun c => (c.rule, c.wildcards)) =
        (RuleInstances.findProducer machine compiled target).map fun c => (c.1.rule, c.2) := by
  have hcompiled := forall₂_of_compileRules h
  obtain ⟨entries, hentries, -⟩ := scanEntries_of_compiled [] hcompiled 0
  refine ⟨⟨entries⟩, by rw [ProducerIndex.build, hentries]; rfl, fun target => ?_⟩
  obtain ⟨_, hentries', hscan⟩ := scanEntries_of_compiled target hcompiled 0
  rw [hentries] at hentries'
  cases hentries'
  have hmatched : ((ProducerIndex.mk entries).candidates machine rules target).map
        (fun c => (c.rule, c.wildcards)) =
      (RuleInstances.candidates machine compiled target).map fun c => (c.1.rule, c.2) := by
    rw [ProducerIndex.candidates, hscan none nofun, filterMap_filterMap, map_filterMap,
      RuleInstances.candidates, map_filterMap]
    have hfst : compiled = compiled.zipIdx.map Prod.fst := (zipIdx_map_fst 0 compiled).symm
    conv_rhs => rw [hfst]
    rw [filterMap_map]
    refine filterMap_congr fun c hc => ?_
    have hget : compiled[c.2]? = some c.1 := mem_zipIdx_iff_getElem?.mp hc
    have hrule : rules[c.2]? = some c.1.rule := by
      obtain ⟨hlt, hc1⟩ := List.getElem?_eq_some_iff.mp hget
      have hlt' : c.2 < rules.length := by
        rw [hcompiled.length_eq]
        exact hlt
      have hfrom := hcompiled.get hlt' hlt
      rw [get_eq_getElem, get_eq_getElem, hc1] at hfrom
      rw [hfrom.rule_eq]
      exact getElem?_eq_getElem hlt'
    dsimp only [Function.comp]
    cases matchRule machine c.1 target with
    | none => rfl
    | some =>
      dsimp only [map_some, bind_some]
      rw [hrule]
      rfl
  rw [findProducer_eq_select]
  have hleft := answer_select_map (fun c : Candidate Body => (c.rule, c.wildcards)) Prod.fst target
    ((ProducerIndex.mk entries).candidates machine rules target)
  have hright := answer_select_map
    (fun c : CompiledRule Body × Wildcards => (c.1.rule, c.2)) Prod.fst target
    (RuleInstances.candidates machine compiled target)
  rw [hmatched] at hleft
  exact hleft.trans hright.symm

theorem findProducer_of_index (scalars : List (Text × Text)) {rules : List (Rule Body)}
    (h : ∀ rule ∈ rules, ∀ output ∈ rule.outputs, Compiles machine rule output) :
    ∃ index, ProducerIndex.build machine rules scalars = .ok index ∧ ∀ target,
      (index.findProducer machine rules target).map (fun c => (c.rule, c.wildcards)) =
        findProducer machine rules target := by
  obtain ⟨index, hbuild, hcandidates⟩ := candidates_of_index scalars h
  refine ⟨index, hbuild, fun target => ?_⟩
  rw [findProducer, hcandidates target]
  exact answer_select_map (fun c : Candidate Body => (c.rule, c.wildcards)) Prod.fst target
    (index.candidates machine rules target)

/-- The index and the public search select the only matching rule of maximal priority, or fail
alike, in every order of the rules. -/
theorem producer_selection (scalars : List (Text × Text)) {rules rules' : List (Rule Body)}
    (h : ∀ rule ∈ rules, ∀ output ∈ rule.outputs, Compiles machine rule output)
    (hperm : rules.Perm rules') :
    ∃ index index', ProducerIndex.build machine rules scalars = .ok index ∧
      ProducerIndex.build machine rules' scalars = .ok index' ∧ ∀ target,
        (index.findProducer machine rules target).map (fun c => (c.rule, c.wildcards)) =
          findProducer machine rules target ∧
        SameAnswer (findProducer machine rules target) (findProducer machine rules' target) ∧
        SameAnswer
          ((index.findProducer machine rules target).map fun c => (c.rule, c.wildcards))
          ((index'.findProducer machine rules' target).map fun c => (c.rule, c.wildcards)) ∧
        ∀ rule wildcards, findProducer machine rules target = .ok (rule, wildcards) ↔
          Selected machine rules target rule wildcards := by
  have h' : ∀ rule ∈ rules', ∀ output ∈ rule.outputs, Compiles machine rule output :=
    fun rule hrule => h rule (hperm.symm.subset hrule)
  obtain ⟨index, hbuild, hindex⟩ := findProducer_of_index scalars h
  obtain ⟨index', hbuild', hindex'⟩ := findProducer_of_index scalars h'
  refine ⟨index, index', hbuild, hbuild', fun target => ?_⟩
  have hsame := findProducer_perm target h hperm
  refine ⟨hindex target, hsame, ?_, fun rule wildcards => findProducer_eq_ok_iff h⟩
  rw [hindex target, hindex' target]
  exact hsame

end Agreement

/-! ### Two rules for one path -/

/-- Two rules that make the path `x`; the second one has a priority. -/
def sharedRules : List (Rule Unit) :=
  [literalRule "plain" none [] ["x"], literalRule "urgent" (some 1) [] ["x"]]

theorem parse_x : parse Char.isAlphanum ['x'] = .ok ⟨['x'], [.literal ['x']]⟩ := by
  rw [parse, parseLoop_literal (by decide) (by decide), parseLoop]
  rfl

theorem compiles_sharedRules :
    ∀ rule ∈ sharedRules, ∀ output ∈ rule.outputs, Compiles (literalMachine []) rule output := by
  have hcompiles : ∀ rule : Rule Unit, Compiles (literalMachine []) rule (literalOutput "x") :=
    fun rule => ⟨by decide, _, _, parse_x, rfl⟩
  intro rule hrule output houtput
  have hx : output = literalOutput "x" := by
    simp only [sharedRules, mem_cons, not_mem_nil, or_false] at hrule
    cases hrule with
    | inl heq =>
      rw [heq] at houtput
      exact mem_singleton.mp houtput
    | inr heq =>
      rw [heq] at houtput
      exact mem_singleton.mp houtput
  rw [hx]
  exact hcompiles rule

theorem matching_sharedRules (name : String) (priority : Option ℕ) :
    matching (literalMachine []) (literalRule name priority [] ["x"]) ['x'] = some [] := by
  have hmatch : matchOutputs (literalMachine []) (literalRule name priority [] ["x"]) ['x']
      [literalOutput "x"] = .ok (some []) := by
    have hparse : parse (literalMachine []).alphanumeric (literalOutput "x").pattern =
        .ok ⟨['x'], [.literal ['x']]⟩ := parse_x
    rw [matchOutputs, hparse]
    rfl
  unfold matching
  rw [show (literalRule name priority [] ["x"]).outputs = [literalOutput "x"] from rfl, hmatch]

/-- The rule with the priority is selected for `x` in both orders. -/
theorem producer_selection_shared :
    ∃ index index', ProducerIndex.build (literalMachine []) sharedRules [] = .ok index ∧
      ProducerIndex.build (literalMachine []) sharedRules.reverse [] = .ok index' ∧
      (index.findProducer (literalMachine []) sharedRules ['x']).map
          (fun c => (c.rule, c.wildcards)) =
        .ok (literalRule "urgent" (some 1) [] ["x"], []) ∧
      SameAnswer (.ok (literalRule "urgent" (some 1) [] ["x"], []))
        ((index'.findProducer (literalMachine []) sharedRules.reverse ['x']).map
          fun c => (c.rule, c.wildcards)) := by
  obtain ⟨index, index', hbuild, hbuild', hall⟩ :=
    producer_selection [] compiles_sharedRules (reverse_perm sharedRules).symm
  obtain ⟨hindex, -, hsame, hselected⟩ := hall ['x']
  have hurgent : Selected (literalMachine []) sharedRules ['x']
      (literalRule "urgent" (some 1) [] ["x"]) [] := by
    refine ⟨matching_sharedRules "urgent" (some 1), [literalRule "plain" none [] ["x"]], [],
      rfl, ?_⟩
    intro other hother _
    rw [append_nil] at hother
    rw [mem_singleton.mp hother]
    decide
  have hfound := hindex.trans ((hselected _ _).mpr hurgent)
  rw [hfound] at hsame
  exact ⟨index, index', hbuild, hbuild', hfound, hsame⟩

def directed : Config := ⟨[], [("out".toList, "res".toList)]⟩

/-- A rule whose output is named by the configuration is indexed as it is compiled. -/
theorem findProducer_of_compileRules_directed : ∃ compiled index,
    compileRules (literalMachine []) directed [literalRule "r" none [] ["{config.out}"]] =
      .ok compiled ∧
    ProducerIndex.build (literalMachine []) [literalRule "r" none [] ["{config.out}"]]
      directed.scalars = .ok index ∧ ∀ target,
        (index.findProducer (literalMachine []) [literalRule "r" none [] ["{config.out}"]]
          target).map (fun c => (c.rule, c.wildcards)) =
        (RuleInstances.findProducer (literalMachine []) compiled target).map
          fun c => (c.1.rule, c.2) := by
  have hok : (compileRules (literalMachine []) directed
      [literalRule "r" none [] ["{config.out}"]]).toOption.isSome = true := by
    with_unfolding_all decide
  cases hcompiled : compileRules (literalMachine []) directed
      [literalRule "r" none [] ["{config.out}"]] with
  | error e =>
    rw [hcompiled] at hok
    cases hok
  | ok compiled =>
    obtain ⟨index, hbuild, hall⟩ := findProducer_of_compileRules hcompiled
    exact ⟨compiled, index, rfl, hbuild, hall⟩

end OxyMake.ProducerSelection
