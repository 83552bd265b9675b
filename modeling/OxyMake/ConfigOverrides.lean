import OxyMake.ConfigStages
import OxyMake.IncludeGraph

/-!
# Overrides as edits of the configuration

An override edits a key of the configuration. Parsing the edited file expands a
tilde in front of the value, which an override keeps. The stages before the
overrides read the configuration as it stands in the file, and an override
leaves the value of the other kind in the resolver's maps. A run with overrides
derives what the edited workflow derives when no overridden key changes its
kind, no override has a tilde to expand and the stages before the overrides read
no value that the overrides change.
-/

namespace OxyMake.ConfigOverrides

open List Option
open Wildcard RuleInstances
open Resolver (Environment)
open ResourceNormalization (ResourceValue FloatValue trim)
open ConfigStages
open IncludeGraph (expandTilde)

variable {Other : Type}

/-- The value that an override gives its key: a comma-separated list or a scalar. -/
def overrideValue (value : Text) : ConfigValue :=
  if ',' ∈ value then .list ((value.splitOnP (· == ',')).map trim) else .scalar value

/-- The edit of an override of the form KEY=VALUE. -/
def edit (entry : Text) : Option (Text × ConfigValue) :=
  (splitOnce '=' entry).map fun e => (trim e.1, overrideValue (trim e.2))

/-- The edits of a profile and of the command line, in their order. -/
def edits (profile : Option (List (Text × Text))) (overrides : List Text) :
    List (Text × ConfigValue) :=
  (profile.getD []).map (fun e => (e.1, overrideValue (trim e.2))) ++ overrides.filterMap edit

/-- The parsed workflow with a key of its configuration replaced. -/
def editKey (workflow : Workflow Other) (e : Text × ConfigValue) : Workflow Other where
  config := SortedMap.insert e.1 e.2 workflow.config
  sorted := workflow.sorted.insert e.1 e.2
  rules := workflow.rules

def replaced (workflow : Workflow Other) (changes : List (Text × ConfigValue)) : Workflow Other :=
  changes.foldl editKey workflow

/-- What parsing makes of a value in the file. -/
def parsedValue (home : Option Text) : ConfigValue → ConfigValue
  | .scalar value => .scalar (expandTilde home value)
  | .list items => .list (items.map (expandTilde home))
  | .fileSource => .fileSource

/-- What parsing makes of the file with keys of its configuration replaced. -/
def edited (home : Option Text) (workflow : Workflow Other)
    (changes : List (Text × ConfigValue)) : Workflow Other :=
  replaced workflow (changes.map fun e => (e.1, parsedValue home e.2))

/-- A value may be replaced by one of its kind. -/
def SameKind : Option ConfigValue → ConfigValue → Prop
  | none, _ => True
  | some (.scalar _), .scalar _ => True
  | some (.scalar _), _ => False
  | some _, .scalar _ => False
  | some _, _ => True

def KeepsKinds : List (Text × ConfigValue) → List (Text × ConfigValue) → Prop
  | _, [] => True
  | config, e :: rest =>
    SameKind (config.lookup e.1) e.2 ∧ KeepsKinds (SortedMap.insert e.1 e.2 config) rest

def configRefs (rest : Text) : List Text :=
  match _h : findConfig rest with
  | none => []
  | some (_, after) =>
    match _h' : scanName after with
    | none => []
    | some (key, rest') => key :: configRefs rest'
  termination_by rest.length
  decreasing_by
    have h₁ := findConfig_length _h
    have h₂ := scanName_length _h'
    omega

/-- Two configurations give the references of a pattern the same values. -/
def SameScalars (old new : Config) (pattern : Text) : Prop :=
  ∀ key ∈ configRefs pattern, old.scalars.lookup key = new.scalars.lookup key

/-- Two configurations give the wildcards of a pattern the same values, too. -/
def SameReads (old new : Config) (pattern : Text) : Prop :=
  SameScalars old new pattern ∧
    ∀ wc ∈ extractWildcards (substituteConfigRefs pattern old.scalars),
      axis old.lists wc = axis new.lists wc

/-- The interpolation of a text meets no reference to a stale entry. -/
def Unread (stale : Text × Text → Prop) : List (Text × Text) → Text → Prop
  | [], _ => True
  | e :: rest, text =>
    (stale e → ¬ reference e.1 <:+: text) ∧ Unread stale rest (replaceAll (reference e.1) e.2 text)

/-- The overrides edit the keys they name, keep the kinds of all keys, have no tilde to expand,
and change nothing that loading and target expansion read. -/
structure Unaffected (home : Option Text) (workflow : Workflow Other) (profile : Option (List (Text × Text)))
    (overrides userTargets : List Text) : Prop where
  /-- The keys of the profile contain no separator and no white space at their ends. -/
  names : ∀ set, profile = some set → ∀ e ∈ set, '=' ∉ e.1 ∧ trim e.1 = e.1
  /-- No key changes between a scalar and a list. -/
  kinds : KeepsKinds workflow.config (edits profile overrides)
  /-- Parsing would leave every overriding value as it is. -/
  tildes : ∀ e ∈ edits profile overrides, parsedValue home e.2 = e.2
  /-- No resource string meets a reference to a changed scalar. -/
  resources : ∀ rule ∈ workflow.rules, ∀ name s, (name, .str s) ∈ rule.body.resources →
    let old := loadScalars workflow.config
    let new := loadScalars (edited home workflow (edits profile overrides)).config
    Unread (· ∉ new) old s.toList ∧ Unread (· ∉ old) new s.toList
  /-- No explicit target refers to a changed scalar. -/
  explicit : ∀ target ∈ userTargets,
    SameScalars (workflowConfig workflow)
      (workflowConfig (edited home workflow (edits profile overrides))) target
  /-- Without explicit targets, no default target reads a changed value. -/
  default : userTargets = [] → ∀ pattern ∈ defaultPatterns workflow,
    SameReads (workflowConfig workflow)
      (workflowConfig (edited home workflow (edits profile overrides))) pattern

/-! ### The configuration of the resolver -/

/-- The list that a value adds to the resolver's lists. -/
def listOf : ConfigValue → Option (List Text)
  | .list items => some items
  | .fileSource => some []
  | .scalar _ => none

/-- The scalar that a value adds to the resolver's scalars. -/
def scalarOf : ConfigValue → Option Text
  | .scalar value => some value
  | _ => none

theorem lookup_lists_addValue (config : Config) (e : Text × ConfigValue) (k : Text) :
    (addValue config e).lists.lookup k =
      if k = e.1 then (listOf e.2).or (config.lists.lookup k) else config.lists.lookup k := by
  obtain ⟨_, value⟩ := e
  cases value with
  | list | fileSource =>
    rw [addValue, SortedMap.lookup_insert]
    rfl
  | scalar =>
    rw [listOf, none_or, ite_self]
    rfl

theorem lookup_scalars_addValue (config : Config) (e : Text × ConfigValue) (k : Text) :
    (addValue config e).scalars.lookup k =
      if k = e.1 then (scalarOf e.2).or (config.scalars.lookup k)
      else config.scalars.lookup k := by
  obtain ⟨_, value⟩ := e
  cases value with
  | scalar =>
    rw [addValue, SortedMap.lookup_insert]
    rfl
  | fileSource | list =>
    rw [scalarOf, none_or, ite_self]
    · rfl
    · intro value hvalue
      cases hvalue

theorem lookup_foldl_addValue {entries : List (Text × ConfigValue)}
    (hnodup : (entries.map Prod.fst).Nodup) (config : Config) (k : Text) :
    (entries.foldl addValue config).lists.lookup k =
        ((entries.lookup k).bind listOf).or (config.lists.lookup k) ∧
      (entries.foldl addValue config).scalars.lookup k =
        ((entries.lookup k).bind scalarOf).or (config.scalars.lookup k) := by
  induction entries generalizing config with
  | nil => exact ⟨rfl, rfl⟩
  | cons e entries ih =>
    obtain ⟨hnot, hrest⟩ := nodup_cons.mp hnodup
    obtain ⟨hlists, hscalars⟩ := ih hrest (addValue config e)
    rw [foldl_cons, hlists, hscalars, lookup_lists_addValue, lookup_scalars_addValue,
      lookup_cons]
    by_cases hk : k = e.1
    · have hnone : entries.lookup k = none := by
        rw [hk]
        apply lookup_eq_none_iff.mpr
        intro p hp
        apply bne_iff_ne.mpr
        intro heq
        exact hnot (heq ▸ List.mem_map_of_mem hp)
      rw [if_pos hk, if_pos hk, hnone, hk, beq_self_eq_true]
      exact ⟨rfl, rfl⟩
    · rw [if_neg hk, if_neg hk, beq_eq_false_iff_ne.mpr hk]
      exact ⟨rfl, rfl⟩

theorem lookup_lists (workflow : Workflow Other) (k : Text) :
    (workflowConfig workflow).lists.lookup k = (workflow.config.lookup k).bind listOf := by
  rw [workflowConfig, (lookup_foldl_addValue workflow.sorted.nodup _ k).1]
  exact or_none

theorem lookup_scalars (workflow : Workflow Other) (k : Text) :
    (workflowConfig workflow).scalars.lookup k = (workflow.config.lookup k).bind scalarOf := by
  rw [workflowConfig, (lookup_foldl_addValue workflow.sorted.nodup _ k).2]
  exact or_none

/-- Both maps of a configuration are in order. -/
structure InOrder (config : Config) : Prop where
  lists : SortedMap.Sorted config.lists
  scalars : SortedMap.Sorted config.scalars

theorem InOrder.addValue {config : Config} (h : InOrder config) (e : Text × ConfigValue) :
    InOrder (addValue config e) := by
  obtain ⟨key, value⟩ := e
  cases value with
  | list items => exact ⟨h.lists.insert key items, h.scalars⟩
  | fileSource => exact ⟨h.lists.insert key [], h.scalars⟩
  | scalar value => exact ⟨h.lists, h.scalars.insert key value⟩

theorem inOrder_workflowConfig (workflow : Workflow Other) : InOrder (workflowConfig workflow) := by
  have hfold : ∀ (entries : List (Text × ConfigValue)) (config : Config), InOrder config →
      InOrder (entries.foldl addValue config) := by
    intro entries
    induction entries with
    | nil => exact fun _ h => h
    | cons e entries ih => exact fun config h => ih _ (h.addValue e)
  exact hfold _ _ ⟨List.Pairwise.nil, List.Pairwise.nil⟩

theorem InOrder.ext {config config' : Config} (h : InOrder config) (h' : InOrder config')
    (hlists : ∀ k, config.lists.lookup k = config'.lists.lookup k)
    (hscalars : ∀ k, config.scalars.lookup k = config'.scalars.lookup k) : config = config' := by
  obtain ⟨lists, scalars⟩ := config
  obtain ⟨lists', scalars'⟩ := config'
  have hl : lists = lists' := h.lists.ext_lookup h'.lists hlists
  have hs : scalars = scalars' := h.scalars.ext_lookup h'.scalars hscalars
  rw [hl, hs]

/-- Set a key in the resolver's maps as an override does. -/
def setKey (config : Config) (e : Text × ConfigValue) : Config :=
  match e.2 with
  | .list items => { config with lists := SortedMap.insert e.1 items config.lists }
  | .scalar value =>
    { scalars := SortedMap.insert e.1 value config.scalars
      lists := if (config.lists.lookup e.1).isSome then
          SortedMap.insert e.1 [value] config.lists
        else config.lists }
  | .fileSource => config

theorem applyOverride_eq (config : Config) (entry : Text) :
    applyOverride config entry = match edit entry with
      | none => config
      | some e => setKey config e := by
  rw [applyOverride, edit]
  cases splitOnce '=' entry with
  | none => rfl
  | some e =>
    obtain ⟨_, value⟩ := e
    dsimp only [map_some, overrideValue]
    by_cases hcomma : ',' ∈ trim value
    · rw [if_pos hcomma, if_pos hcomma]
      rfl
    · rw [if_neg hcomma, if_neg hcomma]
      rfl

theorem setKey_workflowConfig (workflow : Workflow Other) {e : Text × ConfigValue}
    (hne : e.2 ≠ .fileSource) (hkind : SameKind (workflow.config.lookup e.1) e.2) :
    setKey (workflowConfig workflow) e = workflowConfig (editKey workflow e) := by
  obtain ⟨key, value⟩ := e
  have horder := inOrder_workflowConfig workflow
  have hlookup : ∀ k, (editKey workflow (key, value)).config.lookup k =
      if k = key then some value else workflow.config.lookup k :=
    fun k => SortedMap.lookup_insert key value workflow.config k
  cases value with
  | fileSource => exact absurd rfl hne
  | list items =>
    have hnone : (workflow.config.lookup key).bind scalarOf = none := by
      cases hvalue : workflow.config.lookup key with
      | none => rfl
      | some old =>
        rw [hvalue] at hkind
        cases old with
        | scalar => exact absurd hkind id
        | list | fileSource => rfl
    have hset : InOrder (setKey (workflowConfig workflow) (key, .list items)) :=
      ⟨horder.lists.insert key items, horder.scalars⟩
    apply hset.ext (inOrder_workflowConfig _)
    · intro k
      rw [lookup_lists, hlookup]
      dsimp only [setKey]
      rw [SortedMap.lookup_insert, lookup_lists]
      split_ifs with hk
      · rfl
      · rfl
    · intro k
      rw [lookup_scalars, hlookup]
      dsimp only [setKey]
      rw [lookup_scalars]
      split_ifs with hk
      · rw [hk, hnone]
        rfl
      · rfl
  | scalar s =>
    have hnone : (workflow.config.lookup key).bind listOf = none := by
      cases hvalue : workflow.config.lookup key with
      | none => rfl
      | some old =>
        rw [hvalue] at hkind
        cases old with
        | scalar => rfl
        | list | fileSource => exact absurd hkind id
    have hset : setKey (workflowConfig workflow) (key, .scalar s) =
        { workflowConfig workflow with
          scalars := SortedMap.insert key s (workflowConfig workflow).scalars } := by
      dsimp only [setKey]
      rw [lookup_lists, hnone, if_neg (by exact Bool.false_ne_true)]
    have hsorted : InOrder (setKey (workflowConfig workflow) (key, .scalar s)) := by
      rw [hset]
      exact ⟨horder.lists, horder.scalars.insert key s⟩
    apply hsorted.ext (inOrder_workflowConfig _)
    · intro k
      rw [hset, lookup_lists, lookup_lists, hlookup]
      split_ifs with hk
      · rw [hk, hnone]
        rfl
      · rfl
    · intro k
      rw [hset, lookup_scalars, hlookup]
      dsimp only
      rw [SortedMap.lookup_insert, lookup_scalars]
      split_ifs with hk
      · rfl
      · rfl

theorem overrideValue_ne (value : Text) : overrideValue value ≠ .fileSource := by
  rw [overrideValue]
  split_ifs
  · exact nofun
  · exact nofun

theorem foldl_setKey {changes : List (Text × ConfigValue)} {workflow : Workflow Other}
    (hne : ∀ e ∈ changes, e.2 ≠ .fileSource) (hkinds : KeepsKinds workflow.config changes) :
    changes.foldl setKey (workflowConfig workflow) = workflowConfig (replaced workflow changes) := by
  induction changes generalizing workflow with
  | nil => rfl
  | cons e changes ih =>
    obtain ⟨hkind, hrest⟩ := hkinds
    rw [foldl_cons, setKey_workflowConfig workflow (hne e mem_cons_self) hkind]
    exact ih (fun e he => hne e (.tail _ he)) hrest

theorem applyOverrides_eq (config : Config) (overrides : List Text) :
    applyOverrides config overrides = (overrides.filterMap edit).foldl setKey config := by
  induction overrides generalizing config with
  | nil => rfl
  | cons entry overrides ih =>
    rw [applyOverrides, foldl_cons, applyOverride_eq, filterMap_cons]
    cases edit entry with
    | none => exact ih config
    | some e => exact ih (setKey config e)

/-- A key that is in both maps of the resolver. -/
def Both (config : Config) (key : Text) : Prop :=
  (config.lists.lookup key).isSome ∧ (config.scalars.lookup key).isSome

theorem Both.setKey {config : Config} {key : Text} (h : Both config key)
    (e : Text × ConfigValue) : Both (setKey config e) key := by
  obtain ⟨key', value⟩ := e
  have hkept : ∀ {V : Type} (m : List (Text × V)) (v : V), (m.lookup key).isSome →
      ((SortedMap.insert key' v m).lookup key).isSome := by
    intro V m v hm
    rw [SortedMap.lookup_insert]
    split_ifs
    · rfl
    · exact hm
  cases value with
  | list => exact ⟨hkept _ _ h.1, h.2⟩
  | fileSource => exact h
  | scalar =>
    constructor
    · dsimp only [ConfigOverrides.setKey]
      split_ifs
      · exact hkept _ _ h.1
      · exact h.1
    · exact hkept _ _ h.2

theorem both_setKey {workflow : Workflow Other} {e : Text × ConfigValue} (hne : e.2 ≠ .fileSource)
    (hkind : ¬ SameKind (workflow.config.lookup e.1) e.2) :
    Both (setKey (workflowConfig workflow) e) e.1 := by
  obtain ⟨key, value⟩ := e
  cases hold : workflow.config.lookup key with
  | none =>
    rw [hold] at hkind
    exact absurd trivial hkind
  | some old =>
    rw [hold] at hkind
    have hlists := lookup_lists workflow key
    have hscalars := lookup_scalars workflow key
    rw [hold] at hlists hscalars
    cases value with
    | fileSource => exact absurd rfl hne
    | list =>
      cases old with
      | list | fileSource => exact absurd trivial hkind
      | scalar =>
        constructor
        · dsimp only [setKey]
          rw [SortedMap.lookup_insert, if_pos rfl]
          rfl
        · dsimp only [setKey]
          rw [hscalars]
          rfl
    | scalar s =>
      have hlist : ((workflowConfig workflow).lists.lookup key).isSome := by
        rw [hlists]
        cases old with
        | list | fileSource => rfl
        | scalar => exact absurd trivial hkind
      constructor
      · dsimp only [setKey]
        rw [if_pos hlist, SortedMap.lookup_insert, if_pos rfl]
        rfl
      · dsimp only [setKey]
        rw [SortedMap.lookup_insert, if_pos rfl]
        rfl

theorem foldl_setKey_iff {changes : List (Text × ConfigValue)} {workflow : Workflow Other}
    (hne : ∀ e ∈ changes, e.2 ≠ .fileSource) :
    changes.foldl setKey (workflowConfig workflow) = workflowConfig (replaced workflow changes) ↔
      KeepsKinds workflow.config changes := by
  constructor
  · intro heq
    by_contra hkinds
    have hboth : ∃ key, Both (changes.foldl setKey (workflowConfig workflow)) key := by
      have hfold : ∀ (changes : List (Text × ConfigValue)) (config : Config) (key : Text),
          Both config key → Both (changes.foldl setKey config) key := by
        intro changes
        induction changes with
        | nil => exact fun _ _ h => h
        | cons e changes ih => exact fun config key h => ih _ key (h.setKey e)
      clear heq
      induction changes generalizing workflow with
      | nil => exact absurd trivial hkinds
      | cons e changes ih =>
        have hhead := hne e mem_cons_self
        by_cases hkind : SameKind (workflow.config.lookup e.1) e.2
        · rw [foldl_cons, setKey_workflowConfig workflow hhead hkind]
          exact ih (fun e he => hne e (.tail _ he)) fun h => hkinds ⟨hkind, h⟩
        · exact ⟨e.1, hfold changes _ e.1 (both_setKey hhead hkind)⟩
    obtain ⟨key, hlists, hscalars⟩ := hboth
    rw [heq] at hlists hscalars
    rw [lookup_lists] at hlists
    rw [lookup_scalars] at hscalars
    cases hvalue : (replaced workflow changes).config.lookup key with
    | none =>
      rw [hvalue] at hlists
      cases hlists
    | some value =>
      rw [hvalue] at hlists hscalars
      cases value with
      | scalar => cases hlists
      | list | fileSource => cases hscalars
  · exact foldl_setKey hne

theorem edit_profile {e : Text × Text} (hseparator : '=' ∉ e.1) (htrim : trim e.1 = e.1) :
    edit (e.1 ++ '=' :: e.2) = some (e.1, overrideValue (trim e.2)) := by
  have hkey : ∀ c ∈ e.1, decide (c ≠ '=') = true := by
    intro c hc
    apply decide_eq_true
    intro heq
    exact hseparator (heq ▸ hc)
  have hsplit : splitOnce '=' (e.1 ++ '=' :: e.2) = some (e.1, e.2) := by
    rw [splitOnce, dropWhile_append_of_pos hkey, takeWhile_append_of_pos hkey,
      dropWhile_cons_of_neg (by decide), takeWhile_cons_of_neg (by decide),
      append_nil]
  rw [edit, hsplit, map_some, htrim]

theorem overridden_eq (config : Config) {profile : Option (List (Text × Text))}
    {overrides : List Text}
    (hnames : ∀ set, profile = some set → ∀ e ∈ set, '=' ∉ e.1 ∧ trim e.1 = e.1) :
    overriddenConfig config profile overrides =
      (edits profile overrides).foldl setKey config := by
  rw [edits, foldl_append]
  cases profile with
  | none => exact applyOverrides_eq config overrides
  | some set =>
    have hset : (set.map fun e => e.1 ++ '=' :: e.2).filterMap edit =
        set.map fun e => (e.1, overrideValue (trim e.2)) := by
      rw [filterMap_map]
      have hall : ∀ e ∈ set, (edit ∘ fun e => e.1 ++ '=' :: e.2) e =
          (some ∘ fun e : Text × Text => (e.1, overrideValue (trim e.2))) e :=
        fun e he => edit_profile (hnames set rfl e he).1 (hnames set rfl e he).2
      rw [filterMap_congr hall, filterMap_eq_map]
    dsimp only [overriddenConfig, getD_some]
    rw [applyOverrides_eq, applyProfileConfig, applyOverrides_eq, hset]

/-! ### Loading -/

theorem replaceAll_eq_self {pattern replacement text : Text} (h : ¬ pattern <:+: text) :
    replaceAll pattern replacement text = text := by
  induction text with
  | nil => rw [replaceAll]
  | cons c rest ih =>
    have hstarts : ¬ pattern <+: c :: rest := fun hp => h hp.isInfix
    have hrest : ¬ pattern <:+: rest := fun hi => h (hi.trans (suffix_cons c rest).isInfix)
    rw [replaceAll, if_neg hstarts, ih hrest]

theorem interpolate_filter {stale : Text × Text → Prop} [DecidablePred stale]
    {scalars : List (Text × Text)} {text : Text} (h : Unread stale scalars text) :
    interpolate scalars text = interpolate (scalars.filter fun e => ¬ stale e) text := by
  induction scalars generalizing text with
  | nil => rfl
  | cons e rest ih =>
    obtain ⟨hhead, hrest⟩ := h
    have hstep : interpolate (e :: rest) text =
        interpolate rest (replaceAll (reference e.1) e.2 text) := rfl
    rw [hstep, ih hrest]
    by_cases hstale : stale e
    · rw [filter_cons_of_neg (by rw [decide_eq_true_eq]; exact fun hn => hn hstale),
        replaceAll_eq_self (hhead hstale)]
    · rw [filter_cons_of_pos (by rw [decide_eq_true_eq]; exact hstale)]
      rfl

theorem sorted_loadScalars {config : List (Text × ConfigValue)} (h : SortedMap.Sorted config) :
    SortedMap.Sorted (loadScalars config) := by
  have hkeys : ((loadScalars config).map Prod.fst).Sublist (config.map Prod.fst) := by
    rw [loadScalars, map_filterMap]
    induction config with
    | nil => exact List.Sublist.refl _
    | cons e config ih =>
      have hrest := ih (pairwise_cons.mp h).2
      rw [filterMap_cons, map_cons]
      split
      · exact hrest.cons e.1
      · rename_i key hkey
        have hfst : key = e.1 := by
          obtain ⟨_, hentry, rfl⟩ := map_eq_some_iff.mp hkey
          split at hentry
          · cases hentry
            rfl
          · cases hentry
            rfl
          · cases hentry
        rw [hfst]
        exact hrest.cons_cons e.1
  exact List.Pairwise.sublist hkeys h

theorem filter_mem_comm {m m' : List (Text × Text)} (h : SortedMap.Sorted m)
    (h' : SortedMap.Sorted m') :
    (m.filter fun e => ¬ e ∉ m') = m'.filter fun e => ¬ e ∉ m := by
  have hsub : ∀ {l : List (Text × Text)} (p : Text × Text → Bool), SortedMap.Sorted l →
      SortedMap.Sorted (l.filter p) :=
    fun p hl => List.Pairwise.sublist (filter_sublist.map Prod.fst) hl
  apply SortedMap.Sorted.ext (hsub _ h) (hsub _ h')
  intro e
  rw [mem_filter, mem_filter, decide_eq_true_eq, decide_eq_true_eq, not_not, not_not]
  exact and_comm

theorem interpolate_congr {m m' : List (Text × Text)} (h : SortedMap.Sorted m)
    (h' : SortedMap.Sorted m') {text : Text} (hold : Unread (· ∉ m') m text)
    (hnew : Unread (· ∉ m) m' text) : interpolate m text = interpolate m' text := by
  rw [interpolate_filter hold, interpolate_filter hnew, filter_mem_comm h h']

theorem loadRule_congr {parseF64 : Text → Option FloatValue} {m m' : List (Text × Text)}
    (h : SortedMap.Sorted m) (h' : SortedMap.Sorted m') {rule : Rule (RuleBody Other)}
    (hunread : ∀ name s, (name, .str s) ∈ rule.body.resources →
      Unread (· ∉ m') m s.toList ∧ Unread (· ∉ m) m' s.toList) :
    loadRule parseF64 m rule = loadRule parseF64 m' rule := by
  have hresources : rule.body.resources.map (fun e => (e.1, loadResource parseF64 m e.2)) =
      rule.body.resources.map fun e => (e.1, loadResource parseF64 m' e.2) := by
    apply map_congr_left
    intro e he
    obtain ⟨name, value⟩ := e
    cases value with
    | int | float => rfl
    | str s =>
      obtain ⟨hold, hnew⟩ := hunread name s he
      have heq := interpolate_congr h h' hold hnew
      dsimp only [loadResource]
      rw [heq]
  rw [loadRule, loadRule, hresources]

/-! ### Targets -/

theorem substituteRefs_congr {scalars scalars' : List (Text × Text)} {rest : Text}
    (h : ∀ key ∈ configRefs rest, scalars.lookup key = scalars'.lookup key) :
    substituteRefs scalars rest = substituteRefs scalars' rest := by
  fun_induction substituteRefs scalars rest with
  | case1 rest hnone =>
    rw [substituteRefs, hnone]
  | case2 rest before after hfind hscan =>
    rw [substituteRefs, hfind]
    dsimp only
    rw [hscan]
  | case3 rest before after hfind key rest' hscan ih =>
    have hrefs : configRefs rest = key :: configRefs rest' := by
      rw [configRefs, hfind]
      dsimp only
      rw [hscan]
    rw [hrefs] at h
    have hkey := h key mem_cons_self
    have hrest := ih fun k hk => h k (.tail key hk)
    rw [hkey, hrest]
    conv_rhs => rw [substituteRefs, hfind]
    dsimp only
    rw [hscan]

theorem substituteConfigRefs_congr {old new : Config} {pattern : Text}
    (h : SameScalars old new pattern) :
    substituteConfigRefs pattern old.scalars = substituteConfigRefs pattern new.scalars := by
  rw [substituteConfigRefs, substituteConfigRefs, substituteRefs_congr h]

theorem mapM_congr {α β : Type} {f g : α → Option β} {l : List α} (h : ∀ a ∈ l, f a = g a) :
    l.mapM f = l.mapM g := by
  induction l with
  | nil => rfl
  | cons a l ih =>
    have hrest := ih fun b hb => h b (.tail a hb)
    rw [mapM_cons, mapM_cons, h a mem_cons_self, hrest]

theorem expandTarget_congr {old new : Config} {pattern : Text} (h : SameReads old new pattern) :
    expandTarget old pattern = expandTarget new pattern := by
  obtain ⟨hscalars, haxes⟩ := h
  have hsubstituted := substituteConfigRefs_congr hscalars
  have hmap : (extractWildcards (substituteConfigRefs pattern old.scalars)).mapM
        (fun wc => (axis old.lists wc).map (wc, ·)) =
      (extractWildcards (substituteConfigRefs pattern old.scalars)).mapM
        fun wc => (axis new.lists wc).map (wc, ·) := by
    apply mapM_congr
    intro wc hwc
    rw [haxes wc hwc]
  rw [expandTarget, expandTarget, expandPattern, expandPattern, ← hsubstituted, hmap]

theorem rules_replaced (workflow : Workflow Other) (changes : List (Text × ConfigValue)) :
    (replaced workflow changes).rules = workflow.rules := by
  induction changes generalizing workflow with
  | nil => rfl
  | cons e changes ih => exact ih (editKey workflow e)

theorem resolveTargets_congr {old new : Workflow Other} {userTargets : List Text}
    (hpatterns : defaultPatterns old = defaultPatterns new)
    (hexplicit : ∀ target ∈ userTargets,
      SameScalars (workflowConfig old) (workflowConfig new) target)
    (hdefault : userTargets = [] → ∀ pattern ∈ defaultPatterns old,
      SameReads (workflowConfig old) (workflowConfig new) pattern) :
    resolveTargets old userTargets = resolveTargets new userTargets := by
  rw [resolveTargets, resolveTargets]
  cases userTargets with
  | nil =>
    rw [← hpatterns]
    apply flatMap_congr
    intro pattern hpattern
    exact expandTarget_congr (hdefault rfl pattern hpattern)
  | cons =>
    apply map_congr_left
    intro t ht
    exact substituteConfigRefs_congr (hexplicit t ht)

theorem defaultPatterns_load (parseF64 : Text → Option FloatValue) (workflow : Workflow Other) :
    defaultPatterns (loadWorkflow parseF64 workflow) = defaultPatterns workflow := by
  have hrule : defaultRule (loadWorkflow parseF64 workflow) =
      (defaultRule workflow).map (loadRule parseF64 (loadScalars workflow.config)) := by
    rw [defaultRule, defaultRule, map_or, loadWorkflow, find?_map, head?_map]
    rfl
  rw [defaultPatterns, defaultPatterns, hrule]
  cases defaultRule workflow with
  | none | some => rfl

/-! ### The run -/

variable {Rendered Path : Type} [DecidableEq Path]

/-- A directory with some files where jobs carry their resources. -/
def plainSurroundings (files : List Text) :
    Surroundings Unit (List (Text × ResourceValue)) Text where
  environment :=
    { machine := Resolver.literalMachine files
      pathBuf := id
      isPresent := fun path => files.contains path
      isFile := fun path => files.contains path
      allowSourceFallback := fun _ => true
      render := fun _ rule _ _ _ => .ok rule.body.resources }
  parseF64 := fun _ => none
  discoverSourceFiles := fun _ _ => files

/-- A workflow that builds a file of the output directory. -/
def outdirWorkflow : Workflow Unit where
  config := [("genome".toList, .scalar "hg19".toList), ("outdir".toList, .scalar "out".toList)]
  sorted := by
    unfold SortedMap.Sorted
    decide
  rules :=
    [{ name := "all".toList
       priority := none
       inputs := [Resolver.literalInput "{config.outdir}/x"]
       outputs := []
       wildcardConstraints := []
       when := none
       expandMode := .product
       body := ⟨[("cpu".toList, .int 4)], ()⟩ }]

/-- A home directory. -/
def home : Option Text := some "/home/ox".toList

end OxyMake.ConfigOverrides
