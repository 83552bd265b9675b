import OxyMake.PatternText
import OxyMake.TemplatePieces
import OxyMake.ValueAssignments

/-!
# Three expansions of wildcards

The resolver expands the inputs of a rule from lists of the configuration, the
targets are expanded before there are rules to match, and an aggregation rule is
expanded on its own. The three read the names of a pattern, look up their lists
and write the values each in its own way. They agree when every wildcard has its
own list, a name that is repeated has one value, the pattern has no escapes, and
no value completes a placeholder of another wildcard, or when none has values.
-/

namespace OxyMake.WildcardExpansion

open List
open Wildcard hiding extractWildcards
open RuleInstances hiding validateConstraints
open ConfigStages
open PatternText
open TemplatePieces
open ValueAssignments

/-! ### Aggregation -/

section Aggregation

variable {Body : Type} (machine : Machine) (config : Config)

/-- The distinct names of some inputs, after those found before. -/
def collectNames : List InputPattern → List Text → Except WildcardError (List Text)
  | [], allNames => .ok allNames
  | input :: inputs, allNames => do
    let pattern ← parsePattern machine config input.pattern
    collectNames inputs (addNames allNames pattern.wildcardNames)

/-- The lists of some wildcards under their own names. -/
def ownLists : List Text → Except WildcardError (List (Text × List Text))
  | [] => .ok []
  | name :: names =>
    match config.lists.lookup name with
    | none => .error (.unresolvableWildcard name)
    | some values => do
      let rest ← ownLists names
      return (name, values) :: rest

/-- Wildcard values match the constraints, compiled one by one. -/
def validateConstraints (wildcards : Wildcards) (contextPattern : Text) :
    List (Text × Text) → Except WildcardError Unit
  | [] => .ok ()
  | (name, constraint) :: rest =>
    match wildcards.lookup name with
    | none => validateConstraints wildcards contextPattern rest
    | some value =>
      if !machine.regexes.valid (anchored constraint) then
        .error (.invalidPattern contextPattern (invalidConstraint name constraint))
      else if !machine.regexes.isMatch (anchored constraint) value then
        .error (.constraintViolation name value contextPattern constraint)
      else validateConstraints wildcards contextPattern rest

/-- The paths of some inputs for one combination of values. -/
def comboPaths (combo : Wildcards) : List InputPattern → Except WildcardError (List Text)
  | [] => .ok []
  | input :: inputs => do
    let pattern ← parsePattern machine config input.pattern
    let path ← pattern.interpolate combo
    let rest ← comboPaths combo inputs
    return path :: rest

/-- Expand the inputs of an aggregation rule from lists of the configuration. -/
def expandAggregation (rule : Rule Body) : Except WildcardError (List Text) := do
  let allNames ← collectNames machine config rule.inputs []
  if allNames.isEmpty then
    rule.inputs.mapM fun input => substituteConfigScalars config.scalars input.pattern
  else
    let lists ← ownLists config allNames
    let combos ← match rule.expandMode with
      | .product => .ok (cartesianProduct lists)
      | .zip => zipLists lists
    if !rule.wildcardConstraints.isEmpty then
      combos.forM fun combo =>
        validateConstraints machine combo rule.name rule.wildcardConstraints
    let paths ← combos.mapM fun combo => comboPaths machine config combo rule.inputs
    return paths.flatten

end Aggregation

/-! ### What is compared -/

/-- What an expansion gives; one that fails gives no path. -/
def obtained (result : Except WildcardError (List Text)) : List Text :=
  match result with
  | .ok paths => paths
  | .error _ => []

def placeholder (name : Text) : Text := '{' :: name ++ ['}']

/-- The values listed under the name of a wildcard. -/
def listed (config : Config) (name : Text) : List Text := (config.lists.lookup name).getD []

/-- The values listed under the name of a wildcard or its plural. -/
def pluralListed (config : Config) (name : Text) : List Text :=
  ((config.lists.lookup name).or (config.lists.lookup (name ++ ['s']))).getD []

/-- The values listed under the name of a wildcard, its plural or its singular. -/
def targetListed (config : Config) (name : Text) : List Text := (axis config.lists name).getD []

def pieces (segments : List Segment) : List Piece :=
  segments.map fun
    | .literal text => .kept text
    | .wildcard name => .hole (placeholder name)

def placeholders (combo : List (Text × Text)) : List (Text × Text) :=
  combo.map fun e => (placeholder e.1, e.2)

section Comparison

variable {Body : Type} (machine : Machine) (config : Config) (compiled : CompiledRule Body)
  (wildcards : Wildcards) (input : InputPattern) (pattern : Pattern)

/-- The paths that the resolver makes of the input of a rule. -/
def resolvedPaths : Except WildcardError (List Text) :=
  (expandInput machine config compiled wildcards (input, pattern)).map fun inputs =>
    inputs.map fun concrete => concrete.path

/-- The rule has this input alone, no constraints and the product mode, and its output binds no
wildcard of the input. -/
structure Alone : Prop where
  /-- The input is the only one. -/
  inputs : compiled.rule.inputs = [input]
  constraints : compiled.rule.wildcardConstraints = []
  product : compiled.rule.expandMode = .product
  /-- The input is a pattern after the substitution of the configuration. -/
  parsed : parsePattern machine config input.pattern = .ok pattern
  /-- The output binds no wildcard of the input. -/
  free : ∀ name ∈ pattern.wildcardNames, wildcards.lookup name = none

/-- The three expansions give the same paths, one for each assignment of listed values to the
distinct names, each the interpolation of its assignment. -/
def Agree : Prop :=
  obtained (resolvedPaths machine config compiled wildcards input pattern) =
      expandPattern input.pattern config ∧
    obtained (expandAggregation machine config compiled.rule) =
      expandPattern input.pattern config ∧
    ∃ combos : List Wildcards,
      combos.Perm (assignments (listed config) pattern.wildcardNames.eraseDups) ∧
        List.Forall₂ (fun combo path => pattern.interpolate combo = .ok path) combos
          (expandPattern input.pattern config)

/-- Each of the three look-ups leaves some name without a value. -/
structure Barren : Prop where
  own : ∃ name ∈ pattern.wildcardNames, listed config name = []
  /-- Under its own name or its plural. -/
  plural : ∃ name ∈ pattern.wildcardNames, pluralListed config name = []
  /-- Among the names that the targets scan, under all three. -/
  target : ∃ name ∈ extractWildcards pattern.raw, targetListed config name = []

/-- What the three expansions do alike. -/
structure Expandable : Prop where
  /-- Every wildcard has values under its own name. -/
  own : ∀ name ∈ pattern.wildcardNames, listed config name ≠ []
  settled : Settled (listed config) pattern.wildcardNames
  unescaped : ¬ ['{', '{'] <:+: pattern.raw
  /-- No value completes a placeholder of another wildcard. -/
  undisturbed : ∀ combo ∈ assignments (listed config) pattern.wildcardNames.eraseDups,
    Undisturbed (placeholders combo) (pieces pattern.segments)

/-- No name of a list and no value has an opening brace. -/
def Braceless : Prop :=
  ∀ e ∈ config.lists, '{' ∉ e.1 ∧ ∀ value ∈ e.2, '{' ∉ value

end Comparison

/-! ### Combinations -/

theorem cartesian_keeps {P : Wildcards → Prop} (hinsert : ∀ n v m, P m → P (SortedMap.insert n v m))
    {lists : List (Text × List Text)} {result : List Wildcards} (hresult : ∀ m ∈ result, P m) :
    ∀ combo ∈ lists.foldl (fun result entry =>
      result.flatMap fun combo => entry.2.map fun value => SortedMap.insert entry.1 value combo)
        result, P combo := by
  induction lists generalizing result with
  | nil => exact hresult
  | cons entry lists ih =>
    refine ih fun combo hcombo => ?_
    obtain ⟨m, hm, hvalue⟩ := mem_flatMap.mp hcombo
    obtain ⟨value, -, rfl⟩ := mem_map.mp hvalue
    exact hinsert entry.1 value m (hresult m hm)

theorem sorted_of_cartesian {lists : List (Text × List Text)} {combo : Wildcards}
    (h : combo ∈ cartesianProduct lists) : SortedMap.Sorted combo := by
  refine cartesian_keeps (fun n v m hm => hm.insert n v) (fun m hm => ?_) combo h
  rw [mem_singleton.mp hm]
  exact List.Pairwise.nil

theorem isSome_insert {n : Text} (k v : Text) {m : Wildcards} (h : (m.lookup n).isSome = true) :
    ((SortedMap.insert k v m).lookup n).isSome = true := by
  rw [SortedMap.lookup_insert]
  split_ifs with heq
  · rfl
  · exact h

theorem isSome_of_cartesian {lists : List (Text × List Text)} {combo : Wildcards}
    (h : combo ∈ cartesianProduct lists) {e : Text × List Text} (he : e ∈ lists) :
    (combo.lookup e.1).isSome = true := by
  rw [cartesianProduct] at h
  generalize ([[]] : List Wildcards) = result at h
  induction lists generalizing result with
  | nil => cases he
  | cons entry lists ih =>
    rw [foldl_cons] at h
    cases mem_cons.mp he with
    | inl heq =>
      refine cartesian_keeps (P := fun m => (m.lookup e.1).isSome = true)
        (fun n v m => isSome_insert n v) (fun m hm => ?_) combo h
      obtain ⟨_, -, hvalue⟩ := mem_flatMap.mp hm
      obtain ⟨_, -, rfl⟩ := mem_map.mp hvalue
      rw [SortedMap.lookup_insert, if_pos (congrArg Prod.fst heq)]
      rfl
    | inr hlater => exact ih hlater _ h

theorem map_cartesian (base : Text → Text) (values : Text → List Text) (names : List Text) :
    (cartesianProduct (names.map fun n => (n, values n))).map (reads base) =
      assign values names base := by
  have hadd : ∀ n v (m : Wildcards),
      reads base (SortedMap.insert n v m) = Function.update (reads base m) n v := by
    intro n v m
    funext k
    dsimp only [reads]
    rw [SortedMap.lookup_insert]
    by_cases heq : k = n
    · rw [if_pos heq, heq, Function.update_self]
      rfl
    · rw [if_neg heq, Function.update_of_ne heq]
      rfl
  have hbase : reads base [] = base := rfl
  rw [cartesianProduct, map_foldl_eq_assign (reads base) SortedMap.insert hadd,
    flatMap_singleton, hbase]

theorem lookup_extend {m w : Wildcards} (hnodup : (m.map Prod.fst).Nodup) (n : Text) :
    (SortedMap.extend w m).lookup n = (m.lookup n).or (w.lookup n) := by
  induction m generalizing w with
  | nil => rfl
  | cons e m ih =>
    obtain ⟨hnot, hrest⟩ := nodup_cons.mp hnodup
    have hstep : SortedMap.extend w (e :: m) = SortedMap.extend (SortedMap.insert e.1 e.2 w) m := rfl
    rw [hstep, ih hrest, SortedMap.lookup_insert, lookup_cons]
    by_cases heq : n = e.1
    · have hnone : m.lookup n = none := by
        rw [lookup_eq_none_iff]
        intro e' he'
        refine bne_iff_ne.mpr fun h => hnot ?_
        rw [← heq, h]
        exact mem_map_of_mem he'
      rw [hnone, if_pos heq, beq_iff_eq.mpr heq]
      rfl
    · rw [if_neg heq, beq_eq_false_iff_ne.mpr heq]

theorem assign_eq_nil {values : Text → List Text} {names : List Text}
    (h : ∃ n ∈ names, values n = []) (env : Text → Text) : assign values names env = [] := by
  obtain ⟨n, hn, hempty⟩ := h
  refine eq_nil_of_length_eq_zero ?_
  rw [length_assign, prod_eq_zero_iff, mem_map]
  exact ⟨n, hn, by rw [hempty]; rfl⟩

theorem mapM_eq_ok {α β ε : Type} {f : α → Except ε β} {g : α → β} {l : List α}
    (h : ∀ a ∈ l, f a = .ok (g a)) : l.mapM f = .ok (l.map g) := by
  induction l with
  | nil => rfl
  | cons a l ih =>
    rw [mapM_cons, h a mem_cons_self, ih fun b hb => h b (.tail a hb)]
    rfl

/-! ### The resolver -/

section Resolver

variable {Body : Type} {machine : Machine} {config : Config} {compiled : CompiledRule Body}
  {wildcards : Wildcards} {input : InputPattern} {pattern : Pattern}

theorem wildcardLists_eq {names : List Text} (h : ∀ n ∈ names,
    ((config.lists.lookup n).or (config.lists.lookup (n ++ ['s']))).isSome = true) :
    wildcardLists config names = .ok (names.map fun n => (n, pluralListed config n)) := by
  induction names with
  | nil => rfl
  | cons n names ih =>
    obtain ⟨values, hvalues⟩ := Option.isSome_iff_exists.mp (h n mem_cons_self)
    have hlisted : pluralListed config n = values := by rw [pluralListed, hvalues]; rfl
    rw [wildcardLists, hvalues, map_cons, hlisted]
    dsimp only
    rw [ih fun m hm => h m (.tail n hm)]
    rfl

theorem wildcardLists_error {names : List Text} (h : ∃ n ∈ names,
    (config.lists.lookup n).or (config.lists.lookup (n ++ ['s'])) = none) :
    ∃ e, wildcardLists config names = .error e := by
  obtain ⟨n, hn, hnone⟩ := h
  induction names with
  | nil => cases hn
  | cons m names ih =>
    rw [wildcardLists]
    cases hm : (config.lists.lookup m).or (config.lists.lookup (m ++ ['s'])) with
    | none => exact ⟨_, rfl⟩
    | some =>
      have hne : n ≠ m := by
        rintro rfl
        rw [hm] at hnone
        cases hnone
      obtain ⟨e, he⟩ := ih ((mem_cons.mp hn).resolve_left hne)
      refine ⟨e, ?_⟩
      dsimp only
      rw [he]
      rfl

theorem expandCombos_eq (hconstraints : compiled.rule.wildcardConstraints = [])
    {combos : List Wildcards} (h : ∀ combo ∈ combos, SortedMap.Sorted combo ∧
      ∀ n ∈ pattern.wildcardNames, (combo.lookup n).isSome = true) :
    expandCombos machine compiled wildcards (input, pattern) combos =
      .ok (combos.map fun combo =>
        ⟨written (reads (fun n => (wildcards.lookup n).getD []) combo) pattern.segments, input,
          pattern.hasWildcards⟩) := by
  induction combos with
  | nil => rfl
  | cons combo combos ih =>
    obtain ⟨hsorted, hbound⟩ := h combo mem_cons_self
    have hlookup := lookup_extend (w := wildcards) hsorted.nodup
    have hall : ∀ n ∈ segmentNames pattern.segments,
        ((SortedMap.extend wildcards combo).lookup n).isSome = true := by
      intro n hn
      rw [hlookup, Option.isSome_or, hbound n hn]
      rfl
    have hpath : pattern.interpolate (SortedMap.extend wildcards combo) = .ok
        (written (reads (fun n => (wildcards.lookup n).getD []) combo) pattern.segments) := by
      rw [Pattern.interpolate, interpolateSegments_eq hall]
      refine congrArg Except.ok (written_congr fun n hn => ?_)
      dsimp only [reads]
      rw [hlookup]
      obtain ⟨_, hvalue⟩ := Option.isSome_iff_exists.mp (hbound n hn)
      rw [hvalue, Option.some_or, Option.getD_some, Option.getD_some]
    rw [expandCombos]
    dsimp only
    rw [hconstraints, hpath, ih fun c hc => h c (.tail combo hc)]
    rfl

theorem obtained_of_cases {values : Text → List Text} {names : List Text} {env : Text → Text}
    {result : Except WildcardError (List Text)} {listedAt : Text → Option (List Text)}
    (hvalues : ∀ n, values n = (listedAt n).getD [])
    (hok : (∀ n ∈ names, (listedAt n).isSome = true) →
      result = .ok ((assign values names env).map fun e => written e pattern.segments))
    (herror : (∃ n ∈ names, listedAt n = none) → ∃ e, result = .error e) :
    obtained result = (assign values names env).map fun e => written e pattern.segments := by
  by_cases hall : ∀ n ∈ names, (listedAt n).isSome = true
  · rw [hok hall]
    rfl
  · push Not at hall
    obtain ⟨n, hn, hnone⟩ := hall
    have hmissing : listedAt n = none := Option.not_isSome_iff_eq_none.mp hnone
    obtain ⟨e, he⟩ := herror ⟨n, hn, hmissing⟩
    have hempty : values n = [] := by rw [hvalues, hmissing]; rfl
    rw [he, assign_eq_nil ⟨n, hn, hempty⟩]
    rfl

theorem obtained_resolvedPaths (h : Alone machine config compiled wildcards input pattern) :
    obtained (resolvedPaths machine config compiled wildcards input pattern) =
      (assign (pluralListed config) pattern.wildcardNames
        (fun n => (wildcards.lookup n).getD [])).map fun e => written e pattern.segments := by
  by_cases hnames : pattern.wildcardNames = []
  · have hpath : pattern.interpolate wildcards =
        .ok (written (fun n => (wildcards.lookup n).getD []) pattern.segments) := by
      refine interpolateSegments_eq fun n hn => ?_
      have hin : n ∈ pattern.wildcardNames := hn
      rw [hnames] at hin
      cases hin
    rw [resolvedPaths, expandInput, hpath, hnames]
    rfl
  · obtain ⟨n, hn⟩ := interpolateSegments_unbound hnames h.free
    have hunbound : pattern.interpolate wildcards = .error (.unresolvableWildcard n) := hn
    have hfilter : pattern.wildcardNames.filter (fun name => (wildcards.lookup name).isNone) =
        pattern.wildcardNames := by
      refine filter_eq_self.mpr fun name hname => ?_
      rw [h.free name hname]
      rfl
    refine obtained_of_cases (fun _ => rfl) (fun hall => ?_) (fun hmissing => ?_)
    · have hcombos : ∀ combo ∈ cartesianProduct
          (pattern.wildcardNames.map fun n => (n, pluralListed config n)),
          SortedMap.Sorted combo ∧
            ∀ n ∈ pattern.wildcardNames, (combo.lookup n).isSome = true := by
        intro combo hcombo
        refine ⟨sorted_of_cartesian hcombo, fun n hn => ?_⟩
        exact isSome_of_cartesian hcombo (mem_map_of_mem hn)
      rw [resolvedPaths, expandInput, hunbound]
      dsimp only
      rw [hfilter, wildcardLists_eq hall, h.product]
      dsimp only [bind, Except.bind]
      rw [expandCombos_eq h.constraints hcombos, ← map_cartesian]
      dsimp only [Except.map]
      rw [map_map, map_map]
      rfl
    · obtain ⟨e, he⟩ := wildcardLists_error hmissing
      refine ⟨e, ?_⟩
      rw [resolvedPaths, expandInput, hunbound]
      dsimp only
      rw [hfilter, he]
      rfl

end Resolver

/-! ### The aggregation -/

section Aggregated

variable {Body : Type} {machine : Machine} {config : Config} {compiled : CompiledRule Body}
  {wildcards : Wildcards} {input : InputPattern} {pattern : Pattern}

theorem of_parsePattern {text : Text} (h : parsePattern machine config text = .ok pattern) :
    substituteConfigScalars config.scalars text = .ok pattern.raw ∧
      parseLoop machine.alphanumeric pattern.raw pattern.raw [] [] = .ok pattern.segments ∧
      pattern.raw = substituteConfigRefs text config.scalars := by
  rw [parsePattern] at h
  cases hsubstitute : substituteConfigScalars config.scalars text with
  | error =>
    rw [hsubstitute] at h
    cases h
  | ok out =>
    rw [hsubstitute] at h
    have hparse : parse machine.alphanumeric out = .ok pattern := h
    have hagree := ReferenceScanning.eq_substituteConfigRefs_of_parse hsubstitute hparse
    rw [parse] at hparse
    cases hloop : parseLoop machine.alphanumeric out out [] [] with
    | error =>
      rw [hloop] at hparse
      cases hparse
    | ok =>
      rw [hloop] at hparse
      cases hparse
      exact ⟨rfl, hloop, hagree⟩

theorem ownLists_eq {names : List Text}
    (h : ∀ n ∈ names, (config.lists.lookup n).isSome = true) :
    ownLists config names = .ok (names.map fun n => (n, listed config n)) := by
  induction names with
  | nil => rfl
  | cons n names ih =>
    obtain ⟨values, hvalues⟩ := Option.isSome_iff_exists.mp (h n mem_cons_self)
    have hlisted : listed config n = values := by rw [listed, hvalues]; rfl
    rw [ownLists, hvalues, map_cons, hlisted]
    dsimp only
    rw [ih fun m hm => h m (.tail n hm)]
    rfl

theorem ownLists_error {names : List Text} (h : ∃ n ∈ names, config.lists.lookup n = none) :
    ∃ e, ownLists config names = .error e := by
  obtain ⟨n, hn, hnone⟩ := h
  induction names with
  | nil => cases hn
  | cons m names ih =>
    rw [ownLists]
    cases hm : config.lists.lookup m with
    | none => exact ⟨_, rfl⟩
    | some =>
      have hne : n ≠ m := by
        rintro rfl
        rw [hm] at hnone
        cases hnone
      obtain ⟨e, he⟩ := ih ((mem_cons.mp hn).resolve_left hne)
      refine ⟨e, ?_⟩
      dsimp only
      rw [he]
      rfl

theorem comboPaths_eq (hparsed : parsePattern machine config input.pattern = .ok pattern)
    {combo : Wildcards} (h : ∀ n ∈ pattern.wildcardNames, (combo.lookup n).isSome = true) :
    comboPaths machine config combo [input] =
      .ok [written (reads (fun _ => []) combo) pattern.segments] := by
  have hpath : pattern.interpolate combo =
      .ok (written (reads (fun _ => []) combo) pattern.segments) := interpolateSegments_eq h
  rw [comboPaths, hparsed]
  dsimp only [bind, Except.bind]
  rw [hpath]
  rfl

theorem obtained_expandAggregation_nil
    (h : Alone machine config compiled wildcards input pattern)
    (hnames : pattern.wildcardNames = []) :
    obtained (expandAggregation machine config compiled.rule) = [pattern.raw] := by
  obtain ⟨hsubstitute, -, -⟩ := of_parsePattern h.parsed
  have hcollect : collectNames machine config [input] [] = .ok [] := by
    rw [collectNames, h.parsed]
    dsimp only [bind, Except.bind]
    rw [hnames]
    rfl
  rw [expandAggregation, h.inputs, hcollect]
  dsimp only [bind, Except.bind]
  rw [if_pos isEmpty_nil, mapM_cons, hsubstitute]
  rfl

theorem obtained_expandAggregation (h : Alone machine config compiled wildcards input pattern)
    (hnames : pattern.wildcardNames ≠ []) :
    obtained (expandAggregation machine config compiled.rule) =
      (assign (listed config) pattern.wildcardNames.eraseDups fun _ => []).map
        fun e => written e pattern.segments := by
  have hcollect : collectNames machine config [input] [] =
      .ok pattern.wildcardNames.eraseDups := by
    rw [collectNames, h.parsed]
    dsimp only [bind, Except.bind]
    rw [addNames_nil]
    rfl
  have hne : pattern.wildcardNames.eraseDups.isEmpty = false := by
    refine isEmpty_eq_false_iff.mpr fun hempty => ?_
    obtain ⟨n, hn⟩ := exists_mem_of_ne_nil _ hnames
    have hin := mem_eraseDups.mpr hn
    rw [hempty] at hin
    cases hin
  refine obtained_of_cases (fun _ => rfl) (fun hall => ?_) (fun hmissing => ?_)
  · have hpaths : ∀ combo ∈ cartesianProduct
        (pattern.wildcardNames.eraseDups.map fun n => (n, listed config n)),
        comboPaths machine config combo [input] =
          .ok [written (reads (fun _ => []) combo) pattern.segments] := by
      intro combo hcombo
      refine comboPaths_eq h.parsed fun n hn => ?_
      exact isSome_of_cartesian hcombo (mem_map_of_mem (mem_eraseDups.mpr hn))
    rw [expandAggregation, h.inputs, hcollect]
    dsimp only [bind, Except.bind]
    rw [hne, ownLists_eq hall, h.product, h.constraints]
    dsimp only
    have hfree : (!([] : List (Text × Text)).isEmpty) = false := rfl
    rw [mapM_eq_ok hpaths, ← map_cartesian, map_map, hfree, if_neg Bool.false_ne_true,
      if_neg Bool.false_ne_true]
    exact congrArg Except.ok map_eq_flatMap.symm
  · obtain ⟨e, he⟩ := ownLists_error hmissing
    refine ⟨e, ?_⟩
    rw [expandAggregation, h.inputs, hcollect]
    dsimp only [bind, Except.bind]
    rw [hne, he]
    rfl

end Aggregated

/-! ### The targets -/

theorem mapM_axis_eq {config : Config} {names : List Text}
    (h : ∀ n ∈ names, (axis config.lists n).isSome = true) :
    (names.mapM fun n => (axis config.lists n).map (n, ·)) =
      some (names.map fun n => (n, targetListed config n)) := by
  induction names with
  | nil => rfl
  | cons n names ih =>
    obtain ⟨values, hvalues⟩ := Option.isSome_iff_exists.mp (h n mem_cons_self)
    have hlisted : targetListed config n = values := by rw [targetListed, hvalues]; rfl
    rw [mapM_cons, hvalues, ih fun m hm => h m (.tail n hm), map_cons,
      hlisted]
    rfl

theorem mapM_axis_none {config : Config} {names : List Text}
    (h : ∃ n ∈ names, axis config.lists n = none) :
    (names.mapM fun n => (axis config.lists n).map (n, ·)) = none := by
  obtain ⟨n, hn, hnone⟩ := h
  induction names with
  | nil => cases hn
  | cons m names ih =>
    rw [mapM_cons]
    cases hm : axis config.lists m with
    | none => rfl
    | some =>
      have hne : n ≠ m := by
        rintro rfl
        rw [hm] at hnone
        cases hnone
      rw [ih ((mem_cons.mp hn).resolve_left hne)]
      rfl

section Targets

variable {Body : Type} {machine : Machine} {config : Config} {compiled : CompiledRule Body}
  {wildcards : Wildcards} {input : InputPattern} {pattern : Pattern}

/-- A pattern is expanded by all assignments of listed values to its wildcards. -/
theorem expandPattern_eq (config : Config) (pattern : Text) :
    expandPattern pattern config =
      (assignments (targetListed config)
        (extractWildcards (substituteConfigRefs pattern config.scalars))).map
          (expandCombination (substituteConfigRefs pattern config.scalars)) := by
  rw [expandPattern]
  generalize substituteConfigRefs pattern config.scalars = raw
  by_cases hempty : extractWildcards raw = []
  · rw [hempty]
    rfl
  · rw [if_neg (by rw [List.isEmpty_iff]; exact hempty)]
    by_cases hall : ∀ n ∈ extractWildcards raw, (axis config.lists n).isSome = true
    · have hcombos := @foldl_append_eq_assignments _ _ (targetListed config)
        (extractWildcards raw) [[]]
      have hnil : ∀ combos : List (List (Text × Text)), combos.map (([] : List _) ++ ·) = combos :=
        fun combos => List.map_id' combos
      rw [flatMap_singleton, hnil] at hcombos
      rw [mapM_axis_eq hall]
      dsimp only
      rw [combinations, hcombos]
    · push Not at hall
      obtain ⟨n, hn, hnone⟩ := hall
      have hmissing : axis config.lists n = none := Option.not_isSome_iff_eq_none.mp hnone
      have hvalues : targetListed config n = [] := by rw [targetListed, hmissing]; rfl
      have hlength : (assignments (targetListed config) (extractWildcards raw)).length =
          0 := by
        rw [length_assignments, prod_eq_zero_iff, mem_map]
        exact ⟨n, hn, by rw [hvalues]; rfl⟩
      rw [mapM_axis_none ⟨n, hn, hmissing⟩, eq_nil_of_length_eq_zero hlength]
      rfl

theorem expandPattern_of_parsed
    (hparsed : parsePattern machine config input.pattern = .ok pattern) :
    expandPattern input.pattern config =
      (assignments (targetListed config) (extractWildcards pattern.raw)).map
        (expandCombination pattern.raw) := by
  rw [expandPattern_eq, (of_parsePattern hparsed).2.2]

theorem exists_plain_tokens (halnum : machine.alphanumeric '{' = false)
    (hparsed : parsePattern machine config input.pattern = .ok pattern) :
    ∃ tokens : List ConfigSubstitution.Token, (∀ token ∈ tokens, Readable token) ∧
      pattern.raw = tokens.flatMap ConfigSubstitution.Token.text ∧
      pattern.wildcardNames = tokens.flatMap names ∧
      ∀ env, written env pattern.segments = tokens.flatMap (shown env) := by
  obtain ⟨-, hloop, -⟩ := of_parsePattern hparsed
  obtain ⟨tokens, hread, htext, hnames, hshown⟩ := exists_tokens halnum hloop
  exact ⟨tokens, hread, htext, hnames, hshown⟩

theorem render_pieces (segments : List Segment) :
    render (pieces segments) = written placeholder segments := by
  rw [render, pieces, flatMap_map, written]
  refine flatMap_congr fun segment _ => ?_
  cases segment with
  | literal | wildcard => rfl

theorem render_pieces_eq_raw {tokens : List ConfigSubstitution.Token}
    (hread : ∀ token ∈ tokens, Readable token)
    (hplain : ∀ inner, ConfigSubstitution.Token.escape inner ∉ tokens)
    (hraw : pattern.raw = tokens.flatMap ConfigSubstitution.Token.text)
    (hshown : ∀ env, written env pattern.segments = tokens.flatMap (shown env)) :
    render (pieces pattern.segments) = pattern.raw := by
  rw [render_pieces, hshown, hraw]
  refine flatMap_congr fun token htoken => ?_
  cases token with
  | char | wildcard => rfl
  | escape inner => exact absurd htoken (hplain inner)
  | reference => exact absurd (hread _ htoken) fun h => h

theorem lookup_placeholders (combo : List (Text × Text)) (name : Text) :
    (placeholders combo).lookup (placeholder name) = combo.lookup name := by
  induction combo with
  | nil => rfl
  | cons e combo ih =>
    have hcons : placeholders (e :: combo) = (placeholder e.1, e.2) :: placeholders combo := rfl
    rw [hcons, lookup_cons, lookup_cons, ih]
    have hbeq : (placeholder name == placeholder e.1) = (name == e.1) := by
      rw [Bool.eq_iff_iff, beq_iff_eq, beq_iff_eq]
      refine ⟨fun h => ?_, fun h => h ▸ rfl⟩
      exact append_cancel_right (List.cons.inj h).2
    rw [hbeq]

theorem render_fillAll {combo : List (Text × Text)} {segments : List Segment}
    (h : ∀ n ∈ segmentNames segments, (combo.lookup n).isSome = true) :
    render (fillAll (placeholders combo) (pieces segments)) =
      written (reads (fun _ => []) combo) segments := by
  rw [fillAll_eq, pieces, map_map, render, flatMap_map]
  induction segments with
  | nil => rfl
  | cons segment segments ih =>
    have hcons : written (reads (fun _ => []) combo) (segment :: segments) =
        written (reads (fun _ => []) combo) [segment] ++
          written (reads (fun _ => []) combo) segments := written_append _ [segment] segments
    rw [flatMap_cons, hcons]
    cases segment with
    | literal text =>
      have hsingle : written (reads (fun _ => []) combo) [.literal text] = text :=
        append_nil text
      rw [ih h, hsingle]
      rfl
    | wildcard name =>
      obtain ⟨value, hvalue⟩ := Option.isSome_iff_exists.mp (h name mem_cons_self)
      have hsingle : written (reads (fun _ => []) combo) [.wildcard name] = value := by
        have hread : reads (fun _ => []) combo name = value := by rw [reads, hvalue]; rfl
        exact (append_nil _).trans hread
      rw [ih fun n hn => h n (.tail name hn), hsingle]
      dsimp only [Function.comp_apply, Piece.settle]
      rw [lookup_placeholders, hvalue]
      rfl

theorem isSome_of_assignments {values : Text → List Text} {names : List Text}
    {combo : List (Text × Text)} (h : combo ∈ assignments values names.eraseDups) {n : Text}
    (hn : n ∈ names) : (combo.lookup n).isSome = true := by
  have hin : n ∈ combo.map Prod.fst := by
    rw [keys_of_mem_assignments h]
    exact mem_eraseDups.mpr hn
  obtain ⟨e, he, hen⟩ := mem_map.mp hin
  exact lookup_isSome_iff.mpr ⟨e, he, beq_iff_eq.mpr hen.symm⟩

theorem of_unescaped (halnum : machine.alphanumeric '{' = false)
    (hparsed : parsePattern machine config input.pattern = .ok pattern)
    (h : ¬ ['{', '{'] <:+: pattern.raw) :
    extractWildcards pattern.raw = pattern.wildcardNames.eraseDups ∧
      render (pieces pattern.segments) = pattern.raw := by
  obtain ⟨tokens, hread, hraw, hnames, hshown⟩ := exists_plain_tokens halnum hparsed
  have hplain : ∀ inner, ConfigSubstitution.Token.escape inner ∉ tokens := by
    intro inner hin
    refine h ?_
    rw [hraw]
    exact (exists_escape_iff hread).mp ⟨inner, hin⟩
  constructor
  · rw [extractWildcards, hraw, scanWildcards_plain hread hplain, addNames_nil, hnames]
  · exact render_pieces_eq_raw hread hplain hraw hshown

theorem listed_eq {n : Text} (h : listed config n ≠ []) :
    pluralListed config n = listed config n ∧ targetListed config n = listed config n := by
  cases hlookup : config.lists.lookup n with
  | none =>
    rw [listed, hlookup] at h
    exact absurd rfl h
  | some =>
    constructor
    · rw [pluralListed, listed, hlookup, Option.some_or]
    · rw [targetListed, listed, axis, hlookup]

theorem expandPattern_of_expandable (halnum : machine.alphanumeric '{' = false)
    (hparsed : parsePattern machine config input.pattern = .ok pattern)
    (h : Expandable config pattern) :
    expandPattern input.pattern config =
      (assignments (listed config) pattern.wildcardNames.eraseDups).map fun combo =>
        written (reads (fun _ => []) combo) pattern.segments := by
  obtain ⟨hextract, hrender⟩ := of_unescaped halnum hparsed h.unescaped
  have hvalues : ∀ n ∈ pattern.wildcardNames.eraseDups,
      targetListed config n = listed config n :=
    fun n hn => (listed_eq (h.own n (mem_eraseDups.mp hn))).2
  rw [expandPattern_of_parsed hparsed, hextract, assignments_congr hvalues]
  refine map_congr_left fun combo hcombo => ?_
  have hne : ∀ e ∈ placeholders combo, e.1 ≠ [] := by
    intro e he
    obtain ⟨_, -, rfl⟩ := mem_map.mp he
    exact cons_ne_nil _ _
  have heach : expandCombination pattern.raw combo =
      replaceEach (placeholders combo) pattern.raw := by
    rw [expandCombination, replaceEach, placeholders, foldl_map]
    rfl
  have hbound : ∀ n ∈ segmentNames pattern.segments, (combo.lookup n).isSome = true :=
    fun n hn => isSome_of_assignments hcombo hn
  rw [heach, ← hrender, replaceEach_render hne (h.undisturbed combo hcombo),
    render_fillAll hbound]

/-! ### Agreement -/

theorem agree_of_expandable (halnum : machine.alphanumeric '{' = false)
    (halone : Alone machine config compiled wildcards input pattern)
    (h : Expandable config pattern) :
    Agree machine config compiled wildcards input pattern := by
  have htargets := expandPattern_of_expandable halnum halone.parsed h
  have hassign : (assign (listed config) pattern.wildcardNames.eraseDups fun _ => []).map
        (fun e => written e pattern.segments) = expandPattern input.pattern config := by
    rw [htargets, ← map_assignments (nodup_eraseDups _), map_map]
    rfl
  refine ⟨?_, ?_, assignments (listed config) pattern.wildcardNames.eraseDups, List.Perm.refl _,
    ?_⟩
  · have hvalues : ∀ n ∈ pattern.wildcardNames, pluralListed config n = listed config n :=
      fun n hn => (listed_eq (h.own n hn)).1
    have hread : ∀ env env' : Text → Text, (∀ n ∈ pattern.wildcardNames, env n = env' n) →
        written env pattern.segments = written env' pattern.segments :=
      fun env env' henv => written_congr henv
    have hbase : ∀ n ∈ pattern.wildcardNames, n ∉ pattern.wildcardNames.eraseDups →
        (wildcards.lookup n).getD [] = ([] : Text) :=
      fun n hn hnot => absurd (mem_eraseDups.mpr hn) hnot
    rw [obtained_resolvedPaths halone, assign_congr hvalues, ← assign_eraseDups h.settled,
      map_assign_congr hread hbase, hassign]
  · by_cases hnames : pattern.wildcardNames = []
    · obtain ⟨hextract, -⟩ := of_unescaped halnum halone.parsed h.unescaped
      rw [obtained_expandAggregation_nil halone hnames, expandPattern_of_parsed halone.parsed, hextract,
        hnames]
      rfl
    · rw [obtained_expandAggregation halone hnames, hassign]
  · rw [htargets, forall₂_map_right_iff, forall₂_same]
    intro combo hcombo
    exact interpolateSegments_eq fun n hn => isSome_of_assignments hcombo hn

theorem assignments_eq_nil {values : Text → List Text} {names : List Text}
    (h : ∃ n ∈ names, values n = []) : assignments values names = [] := by
  obtain ⟨n, hn, hempty⟩ := h
  refine eq_nil_of_length_eq_zero ?_
  rw [length_assignments, prod_eq_zero_iff, mem_map]
  exact ⟨n, hn, by rw [hempty]; rfl⟩

theorem agree_of_barren (halone : Alone machine config compiled wildcards input pattern)
    (h : Barren config pattern) : Agree machine config compiled wildcards input pattern := by
  obtain ⟨n, hn, hempty⟩ := h.own
  have hnames : pattern.wildcardNames ≠ [] := ne_nil_of_mem hn
  have hown : ∃ n ∈ pattern.wildcardNames.eraseDups, listed config n = [] :=
    ⟨n, mem_eraseDups.mpr hn, hempty⟩
  have htargets : expandPattern input.pattern config = [] := by
    rw [expandPattern_of_parsed halone.parsed, assignments_eq_nil h.target]
    rfl
  refine ⟨?_, ?_, [], ?_, ?_⟩
  · rw [htargets, obtained_resolvedPaths halone, assign_eq_nil h.plural]
    rfl
  · rw [htargets, obtained_expandAggregation halone hnames, assign_eq_nil hown]
    rfl
  · rw [assignments_eq_nil hown]
  · rw [htargets]
    exact List.Forall₂.nil

theorem ne_nil_of_prod {values : Text → List Text} {names : List Text}
    (h : (names.map fun n => (values n).length).prod ≠ 0) : ∀ n ∈ names, values n ≠ [] := by
  intro n hn hempty
  refine h ?_
  rw [prod_eq_zero_iff, mem_map]
  exact ⟨n, hn, by rw [hempty]; rfl⟩

theorem exists_nil_of_prod {values : Text → List Text} {names : List Text}
    (h : (names.map fun n => (values n).length).prod = 0) : ∃ n ∈ names, values n = [] := by
  rw [prod_eq_zero_iff, mem_map] at h
  obtain ⟨n, hn, hzero⟩ := h
  exact ⟨n, hn, eq_nil_of_length_eq_zero hzero⟩

theorem barren_or_settled (halone : Alone machine config compiled wildcards input pattern)
    (h : Agree machine config compiled wildcards input pattern) :
    Barren config pattern ∨
      (∀ n ∈ pattern.wildcardNames, listed config n ≠ []) ∧
        Settled (listed config) pattern.wildcardNames ∧
        ∀ n ∈ extractWildcards pattern.raw, targetListed config n ≠ [] := by
  obtain ⟨hresolved, haggregated, -⟩ := h
  have hr := congrArg List.length hresolved
  rw [obtained_resolvedPaths halone, length_map, length_assign, expandPattern_of_parsed halone.parsed,
    length_map, length_assignments] at hr
  have ha : pattern.wildcardNames ≠ [] →
      (pattern.wildcardNames.eraseDups.map fun n => (listed config n).length).prod =
        ((extractWildcards pattern.raw).map fun n => (targetListed config n).length).prod := by
    intro hnames
    have hlength := congrArg List.length haggregated
    rw [obtained_expandAggregation halone hnames, length_map, length_assign,
      expandPattern_of_parsed halone.parsed, length_map, length_assignments] at hlength
    exact hlength
  by_cases hzero :
      ((extractWildcards pattern.raw).map fun n => (targetListed config n).length).prod = 0
  · rw [hzero] at hr ha
    obtain ⟨m, hm, hplural⟩ := exists_nil_of_prod hr
    obtain ⟨n, hn, hown⟩ := exists_nil_of_prod (ha (ne_nil_of_mem hm))
    exact Or.inl ⟨⟨n, mem_eraseDups.mp hn, hown⟩, ⟨m, hm, hplural⟩,
      exists_nil_of_prod hzero⟩
  · have hown : ∀ n ∈ pattern.wildcardNames, listed config n ≠ [] := by
      intro n hn
      have hprod := ha (ne_nil_of_mem hn)
      exact ne_nil_of_prod (by rw [hprod]; exact hzero) n (mem_eraseDups.mpr hn)
    refine Or.inr ⟨hown, ?_, ne_nil_of_prod hzero⟩
    by_cases hnames : pattern.wildcardNames = []
    · intro n hn
      rw [hnames, count_nil] at hn
      omega
    · have hplural : (pattern.wildcardNames.map fun n => (pluralListed config n).length) =
          pattern.wildcardNames.map fun n => (listed config n).length :=
        map_congr_left fun n hn => congrArg List.length (listed_eq (hown n hn)).1
      rw [hplural, ← ha hnames] at hr
      cases settled_of_prod hr.symm with
      | inl hempty =>
        obtain ⟨n, hn, hnil⟩ := hempty
        exact absurd hnil (hown n hn)
      | inr hsettled => exact hsettled

/-! ### Configurations without braces -/

/-- A template whose kept text opens no placeholder and whose holes have plain names. -/
def Calm (pieces : List Piece) : Prop :=
  ∀ piece ∈ pieces, (∃ text, piece = .kept text ∧ '{' ∉ text) ∨
    ∃ name, piece = .hole (placeholder name) ∧ '{' ∉ name ∧ '}' ∉ name

theorem notWithin_of_notMem {name text : Text} (h : '{' ∉ text) (rest : Text) :
    NotWithin (placeholder name) text rest := by
  intro s hs hne hstarts
  have hsuffix := (mem_tails _ _).mp hs
  cases s with
  | nil => exact hne rfl
  | cons c =>
    obtain ⟨t, ht⟩ := hstarts
    have hc : '{' = c := (List.cons.inj ht).1
    exact h (hsuffix.subset (hc ▸ mem_cons_self))

theorem clean_of_calm {name : Text} (hclose : '}' ∉ name) {pieces : List Piece}
    (h : Calm pieces) : Clean (placeholder name) pieces := by
  induction pieces with
  | nil => trivial
  | cons piece back ih =>
    refine ⟨?_, ih fun p hp => h p (.tail piece hp)⟩
    cases h piece mem_cons_self with
    | inl hkept =>
      obtain ⟨_, rfl, hopen⟩ := hkept
      exact Or.inr (notWithin_of_notMem hopen _)
    | inr hhole =>
      obtain ⟨other, rfl, hopen, hclose'⟩ := hhole
      by_cases heq : other = name
      · exact Or.inl (heq ▸ rfl)
      · refine Or.inr fun s hs hne hstarts => ?_
        cases suffix_cons_iff.mp ((mem_tails _ _).mp hs) with
        | inl hwhole =>
          rw [hwhole] at hstarts
          obtain ⟨t, ht⟩ := hstarts
          have hform : ∀ n rest : Text, placeholder n ++ rest = '{' :: (n ++ '}' :: rest) := by
            intro n rest
            simp only [placeholder, cons_append, append_assoc, nil_append]
          have htail : name ++ '}' :: t = other ++ '}' :: render back := by
            have hwritten : placeholder name ++ t = placeholder other ++ render back := ht
            rw [hform, hform] at hwritten
            exact (List.cons.inj hwritten).2
          have hscan : scanName (name ++ '}' :: t) = some (name, t) :=
            ReferenceScanning.scanName_append hclose
          rw [htail, ReferenceScanning.scanName_append hclose'] at hscan
          exact heq (congrArg Prod.fst (Option.some.inj hscan))
        | inr hrest =>
          have hplain : '{' ∉ other ++ ['}'] := by
            rw [mem_append]
            exact fun hmem => hmem.elim hopen (by decide)
          exact notWithin_of_notMem hplain (render back) s ((mem_tails _ _).mpr hrest) hne
            hstarts

theorem Calm.fill {pieces : List Piece} (h : Calm pieces) (p : Text) {value : Text}
    (hvalue : '{' ∉ value) : Calm (fill p value pieces) := by
  intro piece hpiece
  obtain ⟨before, hbefore, rfl⟩ := mem_map.mp hpiece
  cases h before hbefore with
  | inl hkept =>
    obtain ⟨text, rfl, hopen⟩ := hkept
    exact Or.inl ⟨text, rfl, hopen⟩
  | inr hhole =>
    obtain ⟨name, rfl, hopen, hclose⟩ := hhole
    dsimp only [Piece.fill]
    split_ifs with heq
    · exact Or.inl ⟨value, rfl, hvalue⟩
    · exact Or.inr ⟨name, rfl, hopen, hclose⟩

theorem undisturbed_of_calm {combo : List (Text × Text)}
    (hcombo : ∀ e ∈ combo, '}' ∉ e.1 ∧ '{' ∉ e.2) {pieces : List Piece} (h : Calm pieces) :
    Undisturbed (placeholders combo) pieces := by
  induction combo generalizing pieces with
  | nil => trivial
  | cons e combo ih =>
    obtain ⟨hclose, hvalue⟩ := hcombo e mem_cons_self
    exact ⟨clean_of_calm hclose h, ih (fun e' he' => hcombo e' (.tail e he'))
      (h.fill _ hvalue)⟩

theorem mem_of_assignments {values : Text → List Text} {names : List Text}
    {combo : List (Text × Text)} (h : combo ∈ assignments values names) {e : Text × Text}
    (he : e ∈ combo) : e.1 ∈ names ∧ e.2 ∈ values e.1 := by
  induction names generalizing combo with
  | nil =>
    rw [mem_singleton.mp h] at he
    cases he
  | cons n names ih =>
    obtain ⟨v, hv, hrest⟩ := mem_flatMap.mp h
    obtain ⟨_, hmem, rfl⟩ := mem_map.mp hrest
    cases mem_cons.mp he with
    | inl heq =>
      rw [heq]
      exact ⟨mem_cons_self, hv⟩
    | inr hin =>
      obtain ⟨hname, hvalue⟩ := ih hmem hin
      exact ⟨mem_cons_of_mem n hname, hvalue⟩

theorem Braceless.listed {config : Config} (h : Braceless config) {name value : Text}
    (hvalue : value ∈ listed config name) : '{' ∉ value := by
  cases hlookup : config.lists.lookup name with
  | none =>
    rw [WildcardExpansion.listed, hlookup] at hvalue
    cases hvalue
  | some values =>
    obtain ⟨before, _, heq, -⟩ := lookup_eq_some_iff.mp hlookup
    rw [WildcardExpansion.listed, hlookup] at hvalue
    have hin : (name, values) ∈ config.lists := heq ▸ mem_append_right before mem_cons_self
    exact (h _ hin).2 value hvalue

theorem Braceless.targetListed {config : Config} (h : Braceless config) (name : Text) :
    targetListed config ('{' :: name) = [] := by
  have hnone : ∀ key : Text, '{' ∈ key → config.lists.lookup key = none := by
    intro key hkey
    rw [lookup_eq_none_iff]
    intro e he
    exact bne_iff_ne.mpr fun heq => (h e he).1 (heq ▸ hkey)
  have hlast : ('{' :: name).getLast? = some 's' → '{' ∈ ('{' :: name).dropLast := by
    intro hs
    cases name with
    | nil => exact absurd hs (by decide)
    | cons => exact mem_cons_self
  rw [WildcardExpansion.targetListed, axis, hnone _ mem_cons_self,
    hnone _ (mem_append_left _ mem_cons_self)]
  dsimp only
  split_ifs with hs
  · rw [hnone _ (hlast hs)]
    rfl
  · rfl

theorem calm_pieces (halnum : machine.alphanumeric '{' = false)
    (hparsed : parsePattern machine config input.pattern = .ok pattern)
    (h : ¬ ['{', '{'] <:+: pattern.raw) :
    Calm (pieces pattern.segments) ∧ ∀ name ∈ pattern.wildcardNames, '}' ∉ name := by
  obtain ⟨tokens, hread, hraw, hnames, hshown⟩ := exists_plain_tokens halnum hparsed
  have hplain : ∀ inner, ConfigSubstitution.Token.escape inner ∉ tokens := by
    intro inner hin
    refine h ?_
    rw [hraw]
    exact (exists_escape_iff hread).mp ⟨inner, hin⟩
  have hname : ∀ name ∈ pattern.wildcardNames, '{' ∉ name ∧ '}' ∉ name := by
    intro name hin
    rw [hnames] at hin
    obtain ⟨token, htoken, hmem⟩ := mem_flatMap.mp hin
    cases token with
    | char | escape | reference => cases hmem
    | wildcard =>
      rw [mem_singleton.mp hmem]
      exact (hread _ htoken).2
  have hliteral : '{' ∉ written (fun _ => []) pattern.segments := by
    rw [hshown]
    intro hin
    obtain ⟨token, htoken, hmem⟩ := mem_flatMap.mp hin
    cases token with
    | char => exact (hread _ htoken).1 (mem_singleton.mp hmem).symm
    | escape inner => exact hplain inner htoken
    | reference | wildcard => cases hmem
  refine ⟨fun piece hpiece => ?_, fun name hin => (hname name hin).2⟩
  obtain ⟨segment, hsegment, rfl⟩ := mem_map.mp hpiece
  cases segment with
  | literal text =>
    exact Or.inl ⟨text, rfl, fun hin => hliteral (mem_flatMap.mpr ⟨_, hsegment, hin⟩)⟩
  | wildcard name =>
    have hin : ∀ {segments : List Segment}, Segment.wildcard name ∈ segments →
        name ∈ segmentNames segments := by
      intro segments hmem
      induction segments with
      | nil => cases hmem
      | cons first segments ih =>
        cases mem_cons.mp hmem with
        | inl heq =>
          rw [← heq]
          exact mem_cons_self
        | inr hlater =>
          cases first with
          | literal => exact ih hlater
          | wildcard other => exact mem_cons_of_mem other (ih hlater)
    exact Or.inr ⟨name, rfl, hname name (hin hsegment)⟩

/-- The three expansions agree on a pattern when none has values for all names, or when every
wildcard has values of its own, one for a repeated name, the pattern has no escape and no value
completes a placeholder; where no name of a list and no value has an opening brace, they agree on no
other pattern. -/
theorem expansions_agree (machine : Machine) (config : Config) (compiled : CompiledRule Body)
    (wildcards : Wildcards) (input : InputPattern) (pattern : Pattern)
    (halnum : machine.alphanumeric '{' = false)
    (halone : Alone machine config compiled wildcards input pattern) :
    (Barren config pattern ∨ Expandable config pattern →
      Agree machine config compiled wildcards input pattern) ∧
    (Braceless config → Agree machine config compiled wildcards input pattern →
      Barren config pattern ∨ Expandable config pattern) := by
  constructor
  · intro h
    cases h with
    | inl hbarren => exact agree_of_barren halone hbarren
    | inr hexpandable => exact agree_of_expandable halnum halone hexpandable
  · intro hbraceless hagree
    cases barren_or_settled halone hagree with
    | inl hbarren => exact Or.inl hbarren
    | inr hrest =>
      obtain ⟨hown, hsettled, htarget⟩ := hrest
      have hunescaped : ¬ ['{', '{'] <:+: pattern.raw := by
        intro hinfix
        obtain ⟨_, hread, hraw, -, -⟩ := exists_plain_tokens halnum halone.parsed
        rw [hraw] at hinfix
        obtain ⟨inner, hin⟩ := (exists_escape_iff hread).mpr hinfix
        obtain ⟨name, hname⟩ := (scanWildcards_tokens hread []).2.2 inner hin
        rw [extractWildcards, hraw] at htarget
        exact htarget _ hname (hbraceless.targetListed name)
      obtain ⟨hcalm, hclose⟩ := calm_pieces halnum halone.parsed hunescaped
      refine Or.inr ⟨hown, hsettled, hunescaped, fun combo hcombo => ?_⟩
      refine undisturbed_of_calm (fun e he => ?_) hcalm
      obtain ⟨hname, hvalue⟩ := mem_of_assignments hcombo he
      exact ⟨hclose _ (mem_eraseDups.mp hname), hbraceless.listed hvalue⟩

end Targets

/-! ### Two patterns -/

def oneInput (pattern : Pattern) : CompiledRule Unit where
  rule :=
    { name := "all".toList, priority := none, inputs := [⟨pattern.raw, none, none⟩], outputs := []
      wildcardConstraints := [], when := none, expandMode := .product, body := () }
  inputs := [(⟨pattern.raw, none, none⟩, pattern)]
  outputs := []

def twoLists : Config := ⟨[(['x'], [['a'], ['b']]), (['y'], [['c'], ['d']])], []⟩

theorem alone_oneInput {pattern : Pattern} (hfind : findConfig pattern.raw = none)
    (hparse : parse Char.isAlphanum pattern.raw = .ok pattern) :
    Alone (Resolver.literalMachine []) twoLists (oneInput pattern) [] ⟨pattern.raw, none, none⟩
      pattern where
  inputs := rfl
  constraints := rfl
  product := rfl
  parsed := by
    have hsubstitute : substituteConfigScalars twoLists.scalars pattern.raw = .ok pattern.raw :=
      if_pos (by rw [hfind]; rfl)
    rw [parsePattern, hsubstitute]
    exact hparse
  free := fun _ _ => rfl

/-- The three expansions of `{x}.{y}` agree. -/
theorem expansions_agree_dotted :
    Agree (Resolver.literalMachine []) twoLists (oneInput PatternMatching.dotted) []
      ⟨PatternMatching.dotted.raw, none, none⟩ PatternMatching.dotted := by
  refine (expansions_agree (Resolver.literalMachine []) twoLists
    (oneInput PatternMatching.dotted) [] ⟨PatternMatching.dotted.raw, none, none⟩
    PatternMatching.dotted rfl (alone_oneInput rfl PatternMatching.parse_dotted)).1 (Or.inr ?_)
  exact {
    own := by decide
    settled := by
      intro n hn
      have hle : PatternMatching.dotted.wildcardNames.count n ≤ 1 :=
        nodup_iff_count_le_one.mp (by decide) n
      omega
    unescaped := by decide
    undisturbed := by decide }

/-- The resolver makes four paths of `{x}-{x}` and two values, the others two. -/
theorem not_expansions_agree :
    Alone (Resolver.literalMachine []) twoLists (oneInput PatternMatching.twice) []
        ⟨PatternMatching.twice.raw, none, none⟩ PatternMatching.twice ∧
      ¬ Agree (Resolver.literalMachine []) twoLists (oneInput PatternMatching.twice) []
        ⟨PatternMatching.twice.raw, none, none⟩ PatternMatching.twice := by
  refine ⟨alone_oneInput rfl PatternMatching.parse_twice, fun hagree => ?_⟩
  cases barren_or_settled (alone_oneInput rfl PatternMatching.parse_twice) hagree with
  | inl hbarren =>
    obtain ⟨n, hn, hempty⟩ := hbarren.own
    have hown : ∀ n ∈ PatternMatching.twice.wildcardNames, listed twoLists n ≠ [] := by decide
    exact hown n hn hempty
  | inr hrest => exact absurd (hrest.2.1 ['x'] (by decide)) (by decide)

end OxyMake.WildcardExpansion
