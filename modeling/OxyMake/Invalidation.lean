import OxyMake.CacheRecords
import OxyMake.IncludeGraph
import OxyMake.RuleCascade
import OxyMake.RunSelection

/-!
# Invalidating what a rule made

The rules that a filter names, and with a cascade those downstream of them in the
rule graph, have their output patterns expanded against the lists of the
configuration. The cache entries that record one of these paths are removed and the
files there are deleted. The entries are about concrete paths, which a wildcard may
take from elsewhere: an entry is missed exactly when it records an output of such a
rule but none of the texts that the command looks up, the first spelling of each path
that the configuration spells.
-/

namespace OxyMake.Invalidation

open List
open KeyedTable
open CacheKey (Str)
open Wildcard RuleInstances CacheStore
open ConfigStages (Workflow RuleBody workflowConfig expandTarget expandPattern extractWildcards
  substituteConfigRefs expandCombination)
open ValueAssignments (mem_assignments)
open WildcardExpansion (targetListed expandPattern_eq)
open IncludeGraph (components)
open PhysicalGraph (JobGraph JobId)
open RuleCascade
open RunSelection (Compile)

/-- A loaded workflow. The names of its rules are keys of tables, and merging an
included file refuses a name that is taken. -/
structure LoadedWorkflow (Other : Type) extends Workflow Other where
  namesNodup : (rules.map Rule.name).Nodup

/-- The arguments of the command. -/
structure InvalidateArgs where
  rule : Option String
  outputs : List String
  cascade : Bool
  all : Bool
  dryRun : Bool
  keepOutputs : Bool
  deriving DecidableEq, Repr

inductive InvalidateError
  /-- Neither a rule, nor an output, nor all. -/
  | unspecified
  | workflow
  /-- The expression of the filter cannot be compiled. -/
  | invalidRegex
  /-- Both slashes are cut off a single one. -/
  | panicked
  | noRules (filter : String)
  /-- The rule graph cannot be built or is inconsistent. -/
  | graph (error : RuleGraphs.DagError)
  deriving DecidableEq, Repr

/-- What the command works on. -/
structure Disk where
  cache : Store
  files : Files

/-- What the command uses from outside. -/
structure Surroundings where
  compile : Compile
  removable : String → Bool

/-! ### The store -/

def isEmpty (cache : Store) : Bool := cache.entries.rows.isEmpty

def allOutputPaths (cache : Store) : List String := (cache.outputs.rows.map fun e => e.1.2).dedup

def clear (cache : Store) : Store := { cache with entries := Table.empty, outputs := Table.empty }

/-- Two texts name one path: they have the same components. -/
abbrev SamePath (p q : String) : Prop := components p.toList = components q.toList

/-- Insert a path into a set of paths; a path that is in it keeps its spelling. -/
def insertPath (paths : List String) (path : String) : List String :=
  if paths.any fun p => decide (SamePath p path) then paths else paths ++ [path]

def pathSet (paths : List String) : List String := paths.foldl insertPath []

/-- Delete the files at some paths, as far as they can be removed. -/
def deleteOutputFiles (removable : String → Bool) (paths : List String) (files : Files) : Files :=
  fun path => if ∃ p ∈ paths, SamePath p path ∧ removable p = true then none else files path

theorem deleteOutputFiles_nil (removable : String → Bool) (files : Files) :
    deleteOutputFiles removable [] files = files := by
  funext path
  rw [deleteOutputFiles, if_neg fun ⟨_, h, _⟩ => not_mem_nil h]

/-! ### The rules -/

variable {Other : Type}

def graphRule (rule : Rule (RuleBody Other)) : RuleGraphs.Rule where
  name := String.ofList rule.name
  inputs := rule.inputs.map fun input => String.ofList input.pattern
  outputs := rule.outputs.map fun output => String.ofList output.pattern

/-- What a filter selects: the rules that an expression between slashes matches, or
the rule of a name. -/
def selector (compile : Compile) (filter : String) : Except InvalidateError (String → Bool) :=
  if filter.toList.head? = some '/' ∧ filter.toList.getLast? = some '/' then
    if filter.toList.length - 1 < 1 then .error .panicked
    else
      match compile (String.ofList (filter.toList.drop 1).dropLast) with
      | none => .error .invalidRegex
      | some re => .ok re
  else .ok fun name => name == filter

def matchingRules (rules : List RuleGraphs.Rule) (select : String → Bool) : List String :=
  (rules.map RuleGraphs.Rule.name).filter select

/-- The rules to invalidate: those that match, and with a cascade what is downstream. -/
def allRules (rules : List RuleGraphs.Rule) (names : List String) (cascade : Bool) :
    Except InvalidateError (List String) :=
  if cascade then
    match RuleGraphs.RuleGraph.build rules with
    | .error e => .error (.graph e)
    | .ok g =>
      match RuleCascade.cascade g names with
      | .error e => .error (.graph e)
      | .ok all => .ok all
  else .ok names

/-- Concrete output paths of a rule: its patterns, expanded against the configuration. -/
def outputPaths (config : Config) (rule : Rule (RuleBody Other)) : List String :=
  rule.outputs.flatMap fun output => (expandTarget config output.pattern).map String.ofList

/-- Concrete output paths of the first rules of some names. -/
def pathsOf (workflow : Workflow Other) (names : List String) : List String :=
  names.flatMap fun name =>
    match workflow.rules.find? fun rule => (graphRule rule).name == name with
    | none => []
    | some rule => outputPaths (workflowConfig workflow) rule

def rulePaths (compile : Compile) (workflow : Option (LoadedWorkflow Other)) (cascade : Bool)
    (filter : String) : Except InvalidateError (List String) :=
  match workflow with
  | none => .error .workflow
  | some workflow => do
    let select ← selector compile filter
    let rules := workflow.rules.map graphRule
    let names := matchingRules rules select
    if names.isEmpty then .error (.noRules filter)
    else
      let all ← allRules rules names cascade
      return pathsOf workflow.toWorkflow all

def pathsToInvalidate (compile : Compile) (workflow : Option (LoadedWorkflow Other))
    (args : InvalidateArgs) : Except InvalidateError (List String) :=
  match args.rule with
  | none => .ok (pathSet args.outputs)
  | some filter => do
    let paths ← rulePaths compile workflow args.cascade filter
    return pathSet (args.outputs ++ paths)

/-- The command: what it returns and what it leaves behind. -/
def cmdInvalidate (around : Surroundings) (workflow : Option (LoadedWorkflow Other))
    (args : InvalidateArgs) (disk : Disk) : Except InvalidateError Unit × Disk :=
  if isEmpty disk.cache then (.ok (), disk)
  else if args.all then
    if args.dryRun then (.ok (), disk)
    else
      let paths := if args.keepOutputs then [] else allOutputPaths disk.cache
      (.ok (), ⟨clear disk.cache, deleteOutputFiles around.removable paths disk.files⟩)
  else if args.rule.isNone && args.outputs.isEmpty then (.error .unspecified, disk)
  else
    match pathsToInvalidate around.compile workflow args with
    | .error e => (.error e, disk)
    | .ok paths =>
      if paths.isEmpty || args.dryRun then (.ok (), disk)
      else
        (.ok (), ⟨(Store.invalidate paths disk.cache).2,
          if args.keepOutputs then disk.files
          else deleteOutputFiles around.removable paths disk.files⟩)

/-! ### Removing entries -/

/-- An entry of the cache records an output path. -/
def Records (cache : Store) (key : Str) (path : String) : Prop :=
  (cache.entries.get key).isSome = true ∧ (cache.outputs.get (key, path)).isSome = true

/-- The entry of a key and its records are as before. -/
def Same (before after : Store) (key : Str) : Prop :=
  after.entries.get key = before.entries.get key ∧
    ∀ path, after.outputs.get (key, path) = before.outputs.get (key, path)

/-- There is neither an entry nor a record of a key. -/
def Gone (cache : Store) (key : Str) : Prop :=
  cache.entries.get key = none ∧ ∀ path, cache.outputs.get (key, path) = none

theorem Same.trans {a b c : Store} {key : Str} (h : Same a b key) (h' : Same b c key) :
    Same a c key :=
  ⟨h'.1.trans h.1, fun path => (h'.2 path).trans (h.2 path)⟩

theorem Gone.same {a b : Store} {key : Str} (h : Gone a key) (h' : Same a b key) : Gone b key :=
  ⟨h'.1.trans h.1, fun path => (h'.2 path).trans (h.2 path)⟩

theorem Gone.not_records {cache : Store} {key : Str} (h : Gone cache key) (path : String) :
    ¬ Records cache key path := by
  rintro ⟨hentry, -⟩
  rw [h.1] at hentry
  cases hentry

theorem Same.records_iff {a b : Store} {key : Str} (h : Same a b key) (path : String) :
    Records b key path ↔ Records a key path := by
  rw [Records, Records, h.1, h.2]

theorem gone_removeEntry (cache : Store) (key : Str) : Gone (cache.removeEntry key) key := by
  constructor
  · rw [Store.removeEntry, Table.get_delete, if_pos (decide_eq_true rfl)]
  · intro path
    rw [get_removeEntry, if_pos rfl]

theorem same_removeEntry (cache : Store) {key key' : Str} (h : key' ≠ key) :
    Same cache (cache.removeEntry key) key' := by
  constructor
  · rw [Store.removeEntry, Table.get_delete, if_neg fun heq => h (of_decide_eq_true heq)]
  · intro path
    rw [get_removeEntry, if_neg h]

theorem removeEntries_spec (keys : List Str) (cache : Store) (key : Str) :
    (key ∈ keys → (cache.entries.get key).isSome = true →
      Gone (Store.removeEntries keys cache).2 key) ∧
    ((key ∈ keys → (cache.entries.get key).isSome = false) →
      Same cache (Store.removeEntries keys cache).2 key) := by
  induction keys generalizing cache with
  | nil => exact ⟨fun h => absurd h not_mem_nil, fun _ => ⟨rfl, fun _ => rfl⟩⟩
  | cons first keys ih =>
    rw [Store.removeEntries]
    by_cases hnone : (cache.entries.get first).isNone = true
    · rw [if_pos hnone]
      obtain ⟨hgone, hsame⟩ := ih cache
      refine ⟨?_, fun h => hsame fun hmem => h (.tail first hmem)⟩
      intro hmem hsome
      rcases mem_cons.mp hmem with rfl | hmem
      · rw [Option.isNone_iff_eq_none.mp hnone] at hsome
        cases hsome
      · exact hgone hmem hsome
    · rw [if_neg hnone]
      obtain ⟨hgone, hsame⟩ := ih (cache.removeEntry first)
      by_cases hfirst : key = first
      · subst hfirst
        have hremoved := gone_removeEntry cache key
        have hkept := hsame fun _ => by rw [hremoved.1]; rfl
        refine ⟨fun _ _ => hremoved.same hkept, fun h => ?_⟩
        rw [Bool.not_eq_true, Option.isNone_eq_false_iff, h mem_cons_self] at hnone
        cases hnone
      · have hstep := same_removeEntry cache hfirst
        refine ⟨?_, fun h => hstep.trans (hsame fun hmem => ?_)⟩
        · intro hmem hsome
          refine hgone ((mem_cons.mp hmem).resolve_left hfirst) ?_
          rwa [hstep.1]
        · rw [hstep.1]
          exact h (.tail first hmem)

theorem mem_keysOf {cache : Store} {path : String} {key : Str} :
    key ∈ cache.keysOf path ↔ (cache.outputs.get (key, path)).isSome = true := by
  rw [Store.keysOf, mem_dedup, mem_map]
  constructor
  · rintro ⟨⟨_, _⟩, hmem, rfl⟩
    obtain ⟨row, hrow, hpath⟩ := (Table.mem_select_iff _ _ _).mp hmem
    rw [← of_decide_eq_true hpath, hrow]
    rfl
  · intro h
    obtain ⟨row, hrow⟩ := Option.isSome_iff_exists.mp h
    exact ⟨(key, path), (Table.mem_select_iff _ _ _).mpr ⟨row, hrow, decide_eq_true rfl⟩, rfl⟩

theorem invalidate_spec (paths : List String) (cache : Store) (key : Str) :
    ((∃ path ∈ paths, Records cache key path) → Gone (Store.invalidate paths cache).2 key) ∧
    ((∀ path ∈ paths, ¬ Records cache key path) →
      Same cache (Store.invalidate paths cache).2 key) := by
  induction paths generalizing cache with
  | nil =>
    refine ⟨?_, fun _ => ⟨rfl, fun _ => rfl⟩⟩
    rintro ⟨path, hmem, -⟩
    cases hmem
  | cons path paths ih =>
    obtain ⟨hgone, hsame⟩ := removeEntries_spec (cache.keysOf path) cache key
    obtain ⟨hlater, hkept⟩ := ih (Store.removeEntries (cache.keysOf path) cache).2
    by_cases hpath : Records cache key path
    · have hremoved := hgone (mem_keysOf.mpr hpath.2) hpath.1
      refine ⟨fun _ => hremoved.same (hkept fun p _ => hremoved.not_records p), fun h => ?_⟩
      exact absurd hpath (h path mem_cons_self)
    · have hstep := hsame fun hmem => by
        by_contra hsome
        exact hpath ⟨Bool.eq_true_of_not_eq_false hsome, mem_keysOf.mp hmem⟩
      refine ⟨?_, fun h => hstep.trans (hkept fun p hp => ?_)⟩
      · rintro ⟨p, hmem, hp⟩
        rcases mem_cons.mp hmem with rfl | hmem
        · exact absurd hp hpath
        · exact hlater ⟨p, hmem, (hstep.records_iff p).mpr hp⟩
      · rw [hstep.records_iff]
        exact h p (.tail path hp)

/-! ### Spellings of paths -/

/-- The text is the first of a list that names its path. -/
def Foremost (order : List String) (path : String) : Prop :=
  ∃ pre post, order = pre ++ path :: post ∧ ∀ q ∈ pre, ¬ SamePath q path

theorem Foremost.mem {order : List String} {path : String} (h : Foremost order path) :
    path ∈ order := by
  obtain ⟨_, _, rfl, -⟩ := h
  exact mem_append_right _ mem_cons_self

theorem foremost_concat {order : List String} {x path : String} :
    Foremost (order ++ [x]) path ↔
      Foremost order path ∨ (path = x ∧ ∀ q ∈ order, ¬ SamePath q x) := by
  constructor
  · rintro ⟨pre, post, heq, hfirst⟩
    rcases eq_nil_or_concat post with rfl | ⟨post', y, rfl⟩
    · obtain ⟨rfl, hx⟩ := append_inj' heq rfl
      cases hx
      exact .inr ⟨rfl, hfirst⟩
    · rw [concat_eq_append, ← cons_append, ← append_assoc] at heq
      obtain ⟨rfl, -⟩ := append_inj' heq rfl
      exact .inl ⟨pre, post', rfl, hfirst⟩
  · rintro (⟨pre, post, rfl, hfirst⟩ | ⟨rfl, hfirst⟩)
    · exact ⟨pre, post ++ [x], by rw [append_assoc, cons_append], hfirst⟩
    · exact ⟨order, [], rfl, hfirst⟩

/-- Every path of a list has a first spelling in it. -/
theorem exists_foremost {order : List String} {path : String} (h : path ∈ order) :
    ∃ p, Foremost order p ∧ SamePath p path := by
  induction order with
  | nil => cases h
  | cons x rest ih =>
    by_cases hx : SamePath x path
    · exact ⟨x, ⟨[], rest, rfl, fun q hq => absurd hq not_mem_nil⟩, hx⟩
    · rcases mem_cons.mp h with rfl | h
      · exact absurd rfl hx
      · obtain ⟨p, ⟨pre, post, rfl, hfirst⟩, hp⟩ := ih h
        refine ⟨p, ⟨x :: pre, post, rfl, ?_⟩, hp⟩
        intro q hq hsame
        rcases mem_cons.mp hq with rfl | hq
        · exact hx (hsame.trans hp)
        · exact hfirst q hq hsame

theorem mem_pathSet (order : List String) (path : String) :
    path ∈ pathSet order ↔ Foremost order path := by
  induction order using List.reverseRecOn generalizing path with
  | nil =>
    refine iff_of_false not_mem_nil ?_
    intro h
    cases h.mem
  | append_singleton order x ih =>
    have hstep : pathSet (order ++ [x]) = insertPath (pathSet order) x := by
      rw [pathSet, foldl_append]
      rfl
    rw [hstep, foremost_concat, insertPath]
    split_ifs with hany
    · rw [ih]
      refine ⟨Or.inl, fun h => h.resolve_right ?_⟩
      rintro ⟨-, hfirst⟩
      obtain ⟨p, hp, hsame⟩ := any_eq_true.mp hany
      exact hfirst p ((ih p).mp hp).mem (of_decide_eq_true hsame)
    · rw [mem_append, ih, mem_singleton]
      refine or_congr_right (iff_self_and.mpr ?_)
      intro _ q hq hsame
      obtain ⟨p, hp, hpq⟩ := exists_foremost hq
      exact hany (any_eq_true.mpr ⟨p, (ih p).mpr hp, decide_eq_true (hpq.trans hsame)⟩)

/-- The configuration spells a text for a pattern: its references are replaced by scalars,
and each of its wildcards by a value that the configuration lists for it. -/
def Spells (config : Config) (pattern text : Text) : Prop :=
  if '\x7b' ∈ pattern then
    ∃ values, values.map Prod.fst = extractWildcards (substituteConfigRefs pattern config.scalars) ∧
      (∀ e ∈ values, e.2 ∈ targetListed config e.1) ∧
      text = expandCombination (substituteConfigRefs pattern config.scalars) values
  else text = pattern

theorem mem_expandTarget {config : Config} {pattern text : Text} :
    text ∈ expandTarget config pattern ↔ Spells config pattern text := by
  unfold expandTarget Spells
  split_ifs with hbrace
  · rw [expandPattern_eq, mem_map]
    constructor
    · rintro ⟨values, hvalues, rfl⟩
      obtain ⟨hkeys, hlisted⟩ := mem_assignments.mp hvalues
      exact ⟨values, hkeys, hlisted, rfl⟩
    · rintro ⟨values, hkeys, hlisted, rfl⟩
      exact ⟨values, mem_assignments.mpr ⟨hkeys, hlisted⟩, rfl⟩
  · exact mem_singleton

/-! ### The paths of a filter -/

def Selects (compile : Compile) (filter name : String) : Prop :=
  ∃ select, selector compile filter = .ok select ∧ select name = true

/-- A chain of equal patterns leads to a rule name from one that is selected; without a
cascade the chain is empty. -/
def Reached (rules : List RuleGraphs.Rule) (selected : String → Prop) (cascade : Bool)
    (name : String) : Prop :=
  ∃ r ∈ rules, selected r.name ∧
    (name = r.name ∨
      cascade = true ∧ Relation.ReflTransGen (CycleReports.Feeds rules) r.name name)

/-- The configuration spells a path of a rule that is reached. -/
def Spelled (workflow : LoadedWorkflow Other) (selected : String → Prop) (cascade : Bool)
    (path : String) : Prop :=
  ∃ rule ∈ workflow.rules,
    Reached (workflow.rules.map graphRule) selected cascade (graphRule rule).name ∧
      ∃ output ∈ rule.outputs, Spells (workflowConfig workflow.toWorkflow) output.pattern
        path.toList

theorem mem_outputPaths {config : Config} {rule : Rule (RuleBody Other)} {path : String} :
    path ∈ outputPaths config rule ↔
      ∃ output ∈ rule.outputs, Spells config output.pattern path.toList := by
  rw [outputPaths, mem_flatMap]
  refine exists_congr fun output => and_congr_right fun _ => ?_
  rw [← mem_expandTarget, mem_map]
  constructor
  · rintro ⟨_, _, rfl⟩
    rwa [String.toList_ofList]
  · exact fun h => ⟨_, h, String.ofList_toList⟩

theorem graphRule_nodup (workflow : LoadedWorkflow Other) :
    ((workflow.rules.map graphRule).map RuleGraphs.Rule.name).Nodup := by
  have hmap : (workflow.rules.map graphRule).map RuleGraphs.Rule.name =
      (workflow.rules.map Rule.name).map String.ofList := by
    rw [map_map, map_map]
    rfl
  rw [hmap]
  exact workflow.namesNodup.map fun _ _ heq => String.ofList_injective heq

theorem mem_allRules {rules : List RuleGraphs.Rule}
    (hnames : (rules.map RuleGraphs.Rule.name).Nodup) {select : String → Bool} {cascade : Bool}
    {all : List String} (h : allRules rules (matchingRules rules select) cascade = .ok all)
    (name : String) : name ∈ all ↔ Reached rules (fun n => select n = true) cascade name := by
  have hmatching : ∀ n, n ∈ matchingRules rules select ↔
      ∃ r ∈ rules, select r.name = true ∧ n = r.name := by
    intro n
    rw [matchingRules, mem_filter, mem_map]
    constructor
    · rintro ⟨⟨r, hr, rfl⟩, hselect⟩
      exact ⟨r, hr, hselect, rfl⟩
    · rintro ⟨r, hr, hselect, rfl⟩
      exact ⟨⟨r, hr, rfl⟩, hselect⟩
  unfold allRules at h
  cases cascade with
  | false =>
    rw [if_neg Bool.false_ne_true] at h
    cases h
    rw [hmatching]
    refine exists_congr fun r => and_congr_right fun _ => and_congr_right fun _ => ?_
    exact ⟨Or.inl, fun h => h.resolve_right fun h => Bool.false_ne_true h.1⟩
  | true =>
    rw [if_pos rfl] at h
    cases hbuild : RuleGraphs.RuleGraph.build rules with
    | error =>
      rw [hbuild] at h
      cases h
    | ok =>
      obtain ⟨_, hcascade, hmem⟩ := cascade_spec hbuild hnames (matchingRules rules select)
      rw [hbuild] at h
      dsimp only at h
      rw [hcascade] at h
      cases h
      rw [hmem]
      constructor
      · rintro ⟨a, ha, hreach⟩
        obtain ⟨r, hr, hselect, rfl⟩ := (hmatching a).mp ha
        exact ⟨r, hr, hselect, Or.inr ⟨rfl, hreach⟩⟩
      · rintro ⟨r, hr, hselect, rfl | ⟨-, hreach⟩⟩
        · exact ⟨r.name, (hmatching _).mpr ⟨r, hr, hselect, rfl⟩, Relation.ReflTransGen.refl⟩
        · exact ⟨r.name, (hmatching _).mpr ⟨r, hr, hselect, rfl⟩, hreach⟩

theorem mem_pathsOf (workflow : LoadedWorkflow Other) (names : List String) (path : String) :
    path ∈ pathsOf workflow.toWorkflow names ↔
      ∃ rule ∈ workflow.rules, (graphRule rule).name ∈ names ∧
        path ∈ outputPaths (workflowConfig workflow.toWorkflow) rule := by
  rw [pathsOf, mem_flatMap]
  constructor
  · rintro ⟨name, hname, hpath⟩
    cases hfind : workflow.rules.find? fun rule => (graphRule rule).name == name with
    | none =>
      rw [hfind] at hpath
      cases hpath
    | some rule =>
      rw [hfind] at hpath
      have heq := find?_some hfind
      refine ⟨rule, mem_of_find?_eq_some hfind, ?_, hpath⟩
      rwa [eq_of_beq heq]
  · rintro ⟨rule, hrule, hname, hpath⟩
    refine ⟨(graphRule rule).name, hname, ?_⟩
    cases hfind : workflow.rules.find? fun r => (graphRule r).name == (graphRule rule).name with
    | none =>
      have hnot := find?_eq_none.mp hfind rule hrule
      exact absurd (beq_self_eq_true _) hnot
    | some rule' =>
      have heq := find?_some hfind
      have hsame : rule' = rule := inj_on_of_nodup_map workflow.namesNodup
        (mem_of_find?_eq_some hfind) hrule (String.ofList_injective (eq_of_beq heq))
      rw [hsame]
      exact hpath

theorem mem_rulePaths {compile : Compile} {workflow : LoadedWorkflow Other} {cascade : Bool}
    {filter : String} {paths : List String}
    (h : rulePaths compile (some workflow) cascade filter = .ok paths) (path : String) :
    path ∈ paths ↔ Spelled workflow (Selects compile filter) cascade path := by
  obtain ⟨select, hselect, h⟩ := ResourceNormalization.bind_eq_ok
    (show (selector compile filter >>= _) = _ from h)
  dsimp only at h
  split_ifs at h
  obtain ⟨_, hall, h⟩ := ResourceNormalization.bind_eq_ok h
  cases h
  have hselects : (fun n => select n = true) = Selects compile filter := by
    funext n
    apply propext
    constructor
    · exact fun hn => ⟨select, hselect, hn⟩
    · rintro ⟨_, hselect', hn⟩
      rw [hselect] at hselect'
      cases hselect'
      exact hn
  rw [mem_pathsOf, Spelled, ← hselects]
  refine exists_congr fun rule => and_congr_right fun _ => ?_
  rw [mem_allRules (graphRule_nodup workflow) hall, mem_outputPaths]

/-! ### What the command is to do -/

def ruleArgs (filter : String) (cascade keepOutputs : Bool) : InvalidateArgs where
  rule := some filter
  outputs := []
  cascade := cascade
  all := false
  dryRun := false
  keepOutputs := keepOutputs

/-- What the jobs of a run are resolved with, and the graph of its jobs. -/
structure Resolution where
  machine : Machine
  config : Config
  graph : JobGraph

/-- A rule is selected, or with a cascade it has a job downstream of a job of a rule
that is selected. -/
def Affected (run : Resolution) (selected : String → Prop) (cascade : Bool) (name : String) :
    Prop :=
  selected name ∨
    cascade = true ∧ ∃ a b job dependent, run.graph.getJob a = some job ∧ selected job.rule ∧
      Relation.TransGen (SkippedReachability.Feeds run.graph) a b ∧
      run.graph.getJob b = some dependent ∧ dependent.rule = name

/-- A path is an output of a rule for some wildcard values. -/
def IsOutput (run : Resolution) (rule : Rule (RuleBody Other)) (path : String) : Prop :=
  ∃ output ∈ rule.outputs, ∃ pattern values text,
    parsePattern run.machine run.config output.pattern = .ok pattern ∧
      pattern.interpolate values = .ok text ∧ path = String.ofList text

/-- A path is an output of an affected rule. -/
def Stale (run : Resolution) (workflow : LoadedWorkflow Other) (selected : String → Prop)
    (cascade : Bool) (path : String) : Prop :=
  ∃ rule ∈ workflow.rules, Affected run selected cascade (graphRule rule).name ∧
    IsOutput run rule path

/-- Invalidation is complete and confined. -/
structure Invalidates (before after : Disk) (stale : String → Prop) : Prop where
  /-- No entry that records a stale path remains. -/
  complete : ∀ key path, Records after.cache key path → ¬ stale path
  /-- The other entries are as they were. -/
  confined : ∀ key, (∀ path, Records before.cache key path → ¬ stale path) →
    Same before.cache after.cache key
  /-- The files at no stale path are as they were. -/
  files : ∀ path, (∀ p, stale p → ¬ SamePath p path) → after.files path = before.files path

/-- The entries and the files tell the stale paths and those that are looked up, the first
spellings in an order, not apart. -/
structure Coincide (removable : String → Bool) (disk : Disk) (stale : String → Prop)
    (order : List String) (keepOutputs : Bool) : Prop where
  /-- An entry with a stale path has one that is looked up. -/
  complete : ∀ key path, Records disk.cache key path → stale path →
    ∃ other, Foremost order other ∧ Records disk.cache key other
  /-- An entry with a path that is looked up has a stale one. -/
  confined : ∀ key path, Records disk.cache key path → Foremost order path →
    ∃ other, stale other ∧ Records disk.cache key other
  /-- A file to delete is at a stale path. -/
  files : keepOutputs = false → ∀ path, (disk.files path).isSome = true → ∀ spelling,
    Foremost order spelling → SamePath spelling path → removable spelling = true →
    ∃ p, stale p ∧ SamePath p path

theorem cmdInvalidate_ok {around : Surroundings} {workflow : LoadedWorkflow Other}
    {filter : String} {cascade keepOutputs : Bool} {disk after : Disk}
    (h : cmdInvalidate around (some workflow) (ruleArgs filter cascade keepOutputs) disk =
      (.ok (), after)) :
    (isEmpty disk.cache = true ∧ after = disk) ∨
      isEmpty disk.cache = false ∧ ∃ order,
        rulePaths around.compile (some workflow) cascade filter = .ok order ∧
        (∀ path, path ∈ order ↔
          Spelled workflow (Selects around.compile filter) cascade path) ∧
        after = ⟨(Store.invalidate (pathSet order) disk.cache).2,
          if keepOutputs then disk.files
          else deleteOutputFiles around.removable (pathSet order) disk.files⟩ := by
  unfold cmdInvalidate at h
  by_cases hempty : isEmpty disk.cache = true
  · rw [if_pos hempty] at h
    cases h
    exact Or.inl ⟨hempty, rfl⟩
  · rw [if_neg hempty] at h
    refine Or.inr ⟨Bool.eq_false_of_not_eq_true hempty, ?_⟩
    cases hpaths : pathsToInvalidate around.compile (some workflow)
        (ruleArgs filter cascade keepOutputs) with
    | error e =>
      rw [hpaths] at h
      cases h
    | ok paths =>
      obtain ⟨found, hfound, hdedup⟩ := ResourceNormalization.bind_eq_ok
        (show (rulePaths around.compile (some workflow) cascade filter >>= _) = _ from hpaths)
      cases hdedup
      rw [hpaths] at h
      refine ⟨found, hfound, mem_rulePaths hfound, ?_⟩
      · change (if ((pathSet found).isEmpty || false) = true then _ else _) = _ at h
        rw [Bool.or_false] at h
        by_cases hnone : (pathSet found).isEmpty = true
        · rw [if_pos hnone] at h
          cases h
          rw [List.isEmpty_iff.mp hnone, deleteOutputFiles_nil, ite_self]
          rfl
        · rw [if_neg hnone] at h
          exact (congrArg Prod.snd h).symm

theorem not_records_of_isEmpty {cache : Store} (h : isEmpty cache = true) (key : Str)
    (path : String) : ¬ Records cache key path := by
  rintro ⟨hentry, -⟩
  rw [Table.get, List.isEmpty_iff.mp h] at hentry
  cases hentry

theorem invalidates_iff {removable : String → Bool} {disk : Disk} {order : List String}
    {stale : String → Prop} {keepOutputs : Bool} :
    Invalidates disk ⟨(Store.invalidate (pathSet order) disk.cache).2,
        if keepOutputs then disk.files
        else deleteOutputFiles removable (pathSet order) disk.files⟩ stale ↔
      Coincide removable disk stale order keepOutputs := by
  have hspec := invalidate_spec (pathSet order) disk.cache
  constructor
  · intro h
    refine ⟨?_, ?_, ?_⟩
    · intro key path hrecords hstale
      by_contra hnot
      have hsame := (hspec key).2 fun other hother hr =>
        hnot ⟨other, (mem_pathSet order other).mp hother, hr⟩
      exact h.complete key path ((hsame.records_iff path).mpr hrecords) hstale
    · intro key path hrecords hfirst
      by_contra hnot
      have hgone := (hspec key).1 ⟨path, (mem_pathSet order path).mpr hfirst, hrecords⟩
      have hsame := h.confined key fun other hr hstale => hnot ⟨other, hstale, hr⟩
      exact hgone.not_records path ((hsame.records_iff path).mpr hrecords)
    · intro hkeep path hfile spelling hfirst hsame hremovable
      by_contra hnot
      have hfiles := h.files path fun p hstale hp => hnot ⟨p, hstale, hp⟩
      rw [hkeep] at hfiles
      dsimp only at hfiles
      rw [if_neg Bool.false_ne_true, deleteOutputFiles,
        if_pos ⟨spelling, (mem_pathSet order spelling).mpr hfirst, hsame, hremovable⟩] at hfiles
      rw [← hfiles] at hfile
      cases hfile
  · intro h
    refine ⟨?_, ?_, ?_⟩
    · intro key path hrecords hstale
      by_cases hremoved : ∃ other ∈ pathSet order, Records disk.cache key other
      · exact ((hspec key).1 hremoved).not_records path hrecords
      · have hsame := (hspec key).2 fun other hother hr => hremoved ⟨other, hother, hr⟩
        obtain ⟨other, hfirst, hr⟩ :=
          h.complete key path ((hsame.records_iff path).mp hrecords) hstale
        exact hremoved ⟨other, (mem_pathSet order other).mpr hfirst, hr⟩
    · intro key hfresh
      refine (hspec key).2 fun path hpath hrecords => ?_
      obtain ⟨other, hstale, hr⟩ :=
        h.confined key path hrecords ((mem_pathSet order path).mp hpath)
      exact hfresh other hr hstale
    · intro path hfresh
      cases keepOutputs with
      | true => rfl
      | false =>
        dsimp only
        rw [if_neg Bool.false_ne_true, deleteOutputFiles]
        split_ifs with hdeleted
        · obtain ⟨spelling, hmem, hsame, hremovable⟩ := hdeleted
          cases hfile : disk.files path with
          | none => rfl
          | some =>
            have hsome : (disk.files path).isSome = true := by
              rw [hfile]
              rfl
            obtain ⟨p, hstale, hp⟩ := h.files rfl path hsome spelling
              ((mem_pathSet order spelling).mp hmem) hsame hremovable
            exact absurd hp (hfresh p hstale)
        · rfl

/-- A successful invalidation of what a rule made is complete and confined when the cache is
empty. Otherwise it is so exactly when the entries and files tell the outputs of the affected
rules and the looked up texts not apart: those that come first, in the order in which the
command spells them, among the texts of one path that the configuration spells. -/
theorem cmdInvalidate_invalidates_iff {around : Surroundings} {workflow : LoadedWorkflow Other}
    (run : Resolution) {filter : String} {cascade keepOutputs : Bool} {disk after : Disk}
    (h : cmdInvalidate around (some workflow) (ruleArgs filter cascade keepOutputs) disk =
      (.ok (), after)) :
    (isEmpty disk.cache = true ∧
      Invalidates disk after (Stale run workflow (Selects around.compile filter) cascade)) ∨
    isEmpty disk.cache = false ∧ ∃ order,
      rulePaths around.compile (some workflow) cascade filter = .ok order ∧
      (∀ path, path ∈ order ↔ Spelled workflow (Selects around.compile filter) cascade path) ∧
      (Invalidates disk after (Stale run workflow (Selects around.compile filter) cascade) ↔
        Coincide around.removable disk
          (Stale run workflow (Selects around.compile filter) cascade) order keepOutputs) := by
  rcases cmdInvalidate_ok h with ⟨hempty, rfl⟩ | ⟨hfull, order, hpaths, horder, rfl⟩
  · refine .inl ⟨hempty, ?_, fun _ _ => ⟨rfl, fun _ => rfl⟩, fun _ _ => rfl⟩
    intro key path hrecords
    exact absurd hrecords (not_records_of_isEmpty hempty key path)
  · exact .inr ⟨hfull, order, hpaths, horder, invalidates_iff⟩

/-! ### A path that the configuration spells -/

/-- A rule whose wildcard has a list, of one value. -/
def listedWorkflow : LoadedWorkflow Unit where
  config := [("sample".toList, .list ["a".toList])]
  sorted := pairwise_singleton _ _
  rules := [⟨"make".toList, none, [], [Resolver.literalOutput "out/\x7bsample\x7d.txt"], [], none,
    .product, ⟨[], ()⟩⟩]
  namesNodup := nodup_singleton _

/-- A key, and the text of a hash and of a platform. -/
def sampleText : Str := ⟨[], CacheKey.nil_bounded⟩

/-- The cache after a run that made the output. -/
def sampleCache : Store :=
  { Store.open .mtime with
    entries := Table.empty.put sampleText ⟨0, none, sampleText, .exact, false⟩
    outputs := Table.empty.put (sampleText, "out/a.txt") ⟨sampleText, 0, 0⟩ }

def sampleDisk : Disk := ⟨sampleCache, fun _ => none⟩

def sampleAround : Surroundings := ⟨fun _ => none, fun _ => true⟩

/-- The run that made the output, with its graph forgotten. -/
def sampleRun : Resolution where
  machine := Resolver.literalMachine []
  config := ⟨[], []⟩
  graph := ⟨[], [], [], nodup_nil⟩

def listedFile : Node := ⟨0, 1, some [0], zero_bounded, one_bounded⟩

/-- The output, and another file. -/
def listedDisk : Disk :=
  ⟨sampleCache, fun path =>
    if path = "out/a.txt" ∨ path = "in.txt" then some listedFile else none⟩

def listedAfter : Disk :=
  ⟨(Store.invalidate ["out/a.txt"] sampleCache).2,
    deleteOutputFiles sampleAround.removable ["out/a.txt"] listedDisk.files⟩

theorem rulePaths_listed :
    rulePaths sampleAround.compile (some listedWorkflow) false "make" = .ok ["out/a.txt"] := by
  with_unfolding_all decide

theorem cmdInvalidate_listed :
    cmdInvalidate sampleAround (some listedWorkflow) (ruleArgs "make" false false) listedDisk =
      (.ok (), listedAfter) := by
  have hfull : isEmpty listedDisk.cache = false := by decide
  have hpaths : pathsToInvalidate sampleAround.compile (some listedWorkflow)
      (ruleArgs "make" false false) = .ok ["out/a.txt"] := by
    change (rulePaths sampleAround.compile (some listedWorkflow) false "make" >>= _) = _
    rw [rulePaths_listed]
    rfl
  rw [cmdInvalidate, hfull, hpaths]
  rfl

/-- The output of a rule is stale for a value that its wildcard takes. -/
theorem stale_of_make (workflow : LoadedWorkflow Unit) {rule : Rule (RuleBody Unit)}
    (hrule : rule ∈ workflow.rules) (hname : rule.name = "make".toList)
    (houtput : Resolver.literalOutput "out/\x7bsample\x7d.txt" ∈ rule.outputs) :
    Stale sampleRun workflow (Selects sampleAround.compile "make") false "out/a.txt" := by
  have hselected : Selects sampleAround.compile "make" (graphRule rule).name := by
    refine ⟨fun name => name == "make", rfl, ?_⟩
    change (String.ofList rule.name == "make") = true
    rw [hname]
    decide
  refine ⟨rule, hrule, .inl hselected, _, houtput, ⟨"out/\x7bsample\x7d.txt".toList,
    [.literal "out/".toList, .wildcard "sample".toList, .literal ".txt".toList]⟩,
    [("sample".toList, "a".toList)], "out/a.txt".toList, ?_, rfl, rfl⟩
  with_unfolding_all rfl

/-- The invalidation removes the entry and the output of the rule and keeps the other file. -/
theorem cmdInvalidate_invalidates_listed :
    Invalidates listedDisk listedAfter
        (Stale sampleRun listedWorkflow (Selects sampleAround.compile "make") false) ∧
      listedAfter.cache.entries.get sampleText = none ∧
      listedAfter.files "out/a.txt" = none ∧ listedAfter.files "in.txt" = some listedFile := by
  refine ⟨?_, by decide, by decide, rfl⟩
  rcases cmdInvalidate_invalidates_iff sampleRun cmdInvalidate_listed with
    ⟨hempty, -⟩ | ⟨-, _, hpaths, -, hiff⟩
  · cases hempty
  · cases rulePaths_listed.symm.trans hpaths
    have hstale := stale_of_make listedWorkflow mem_cons_self rfl
      mem_cons_self
    have hfirst : Foremost ["out/a.txt"] "out/a.txt" :=
      ⟨[], [], rfl, fun q hq => absurd hq not_mem_nil⟩
    refine hiff.mpr ⟨?_, ?_, ?_⟩
    · rintro key path ⟨hentry, -⟩ -
      have hkey : key = sampleText := by
        by_contra hne
        change ((Table.empty.put sampleText _).get key).isSome = true at hentry
        rw [Table.get_put, if_neg hne] at hentry
        cases hentry
      subst hkey
      exact ⟨"out/a.txt", hfirst, rfl, rfl⟩
    · intro key path hrecords hpath
      rw [mem_singleton.mp hpath.mem] at hrecords
      exact ⟨_, hstale, hrecords⟩
    · intro _ path _ spelling hspelling hsame _
      rw [mem_singleton.mp hspelling.mem] at hsame
      exact ⟨_, hstale, hsame⟩

/-! ### A path that a target binds -/

/-- Rules with a wildcard that no list of the configuration has: `report` asks for the
output of `make` for one value. -/
def sampleWorkflow : LoadedWorkflow Unit where
  config := []
  sorted := List.Pairwise.nil
  rules := [⟨"make".toList, none, [], [Resolver.literalOutput "out/\x7bsample\x7d.txt"], [], none,
      .product, ⟨[], ()⟩⟩,
    ⟨"report".toList, none, [Resolver.literalInput "out/a.txt"],
      [Resolver.literalOutput "report.txt"], [], none, .product, ⟨[], ()⟩⟩]
  namesNodup := by decide

theorem pathsToInvalidate_sample :
    pathsToInvalidate sampleAround.compile (some sampleWorkflow) (ruleArgs "make" false false) =
      .ok [] := by
  with_unfolding_all decide

theorem cmdInvalidate_sample :
    cmdInvalidate sampleAround (some sampleWorkflow) (ruleArgs "make" false false) sampleDisk =
      (.ok (), sampleDisk) := by
  have hfull : isEmpty sampleDisk.cache = false := by decide
  rw [cmdInvalidate, hfull, pathsToInvalidate_sample]
  rfl

theorem stale_sample :
    Stale sampleRun sampleWorkflow (Selects sampleAround.compile "make") false "out/a.txt" :=
  stale_of_make _ mem_cons_self rfl mem_cons_self

/-- Invalidation of what a rule made is not complete: the target of another rule binds a
wildcard that no list of the configuration has. -/
theorem not_cmdInvalidate_invalidates :
    ¬ ∀ (around : Surroundings) (workflow : LoadedWorkflow Unit) (run : Resolution)
      (filter : String) (cascade keepOutputs : Bool) (disk after : Disk),
      cmdInvalidate around (some workflow) (ruleArgs filter cascade keepOutputs) disk =
        (.ok (), after) →
      Invalidates disk after (Stale run workflow (Selects around.compile filter) cascade) := by
  intro h
  have hall := h sampleAround sampleWorkflow sampleRun "make" false false sampleDisk sampleDisk
    cmdInvalidate_sample
  exact hall.complete sampleText "out/a.txt" ⟨rfl, rfl⟩ stale_sample

end OxyMake.Invalidation
