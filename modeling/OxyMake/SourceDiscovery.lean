import OxyMake.ProducerSelection
import OxyMake.ReferenceScanning

/-!
# Discovery of source files

The files below the directory of a workflow are its sources, less those that an
output pattern of a rule matches. The patterns are compiled apart from the
resolver, and a set of literal prefixes picks the patterns that are tried on a
path. A file is left out exactly when the index of the resolver matches it.
-/

namespace OxyMake.SourceDiscovery

open List
open Wildcard hiding extractWildcards
open RuleInstances hiding findProducer candidates priorityOf
open ConfigStages (substituteConfigRefs)
open ProducerSelection
open ReferenceScanning
open Resolver (literalRule literalMachine literalOutput)

/-- Sets of regular expressions that are matched in one scan. -/
structure RegexSets where
  Compiled : Type
  escape : Text → Text
  /-- Compile a set of expressions, unless it exceeds the size limit. -/
  new : List Text → Option Compiled
  «matches» : Compiled → Text → List ℕ

def RegexSets.anchor (sets : RegexSets) (literal : Text) : Text := '^' :: sets.escape literal

/-- An anchored literal matches the texts that begin with it. -/
def RegexSets.MatchesPrefixes (sets : RegexSets) : Prop :=
  ∀ (literals : List Text) (compiled : sets.Compiled),
    sets.new (literals.map sets.anchor) = some compiled →
      ∀ text i, i ∈ sets.matches compiled text ↔
        ∃ literal, literals[i]? = some literal ∧ literal <+: text

/-- An entry of the cache, as the discovery reads it. -/
structure CacheEntry (Path : Type) where
  adopted : Bool
  provenance : Option (List Path)
  outputHashes : List (Path × Text)

/-- What the discovery finds on the disk. -/
structure Snapshot (Path : Type) where
  discovered : List Path
  text : Path → Text
  pathExists : Path → Bool
  hashFile : Path → Option Text
  /-- The cache entry of an output, if the cache can be opened. -/
  cache : Option (Path → Option (CacheEntry Path))

section Discover

variable {Body Path : Type} (machine : Machine) (sets : RegexSets)

/-- Compiled output patterns of the rules; invalid ones are left out. -/
def outputPatterns (rules : List (Rule Body)) (scalars : List (Text × Text)) :
    List CompiledPattern :=
  rules.flatMap fun rule => rule.outputs.filterMap fun output =>
    match parse machine.alphanumeric (substituteConfigRefs output.pattern scalars) with
    | .error _ => none
    | .ok pattern => (CompiledPattern.new machine pattern rule.wildcardConstraints).toOption

def literalPrefix (compiled : CompiledPattern) : Text :=
  match compiled.pattern.segments.head? with
  | some (.literal text) => text
  | _ => []

def prefixExpressions (patterns : List CompiledPattern) : List Text :=
  (patterns.map literalPrefix).map sets.anchor

def isOutput (patterns : List CompiledPattern) (text : Text) : Bool :=
  match sets.new (prefixExpressions sets patterns) with
  | some prefixes =>
    let found := sets.matches prefixes text
    !found.isEmpty && found.any fun i =>
      match patterns[i]? with
      | some pattern => (pattern.resolve machine text).isSome
      | none => false
  | none => patterns.any fun pattern => (pattern.resolve machine text).isSome

/-- An adopted output may stand in for its producer. -/
def standsIn (snapshot : Snapshot Path) (entry : CacheEntry Path) : Bool :=
  match entry.provenance with
  | none => false
  | some inputs =>
    entry.adopted && (inputs.any fun input => !snapshot.pathExists input) &&
      entry.outputHashes.all fun output => snapshot.hashFile output.1 = some output.2

def discoverSourceFiles (snapshot : Snapshot Path) (rules : List (Rule Body)) (config : Config)
    (honourAdopted : Bool) : List Path :=
  let patterns := outputPatterns machine rules config.scalars
  let cache := if honourAdopted then snapshot.cache else none
  snapshot.discovered.filter fun path =>
    if isOutput machine sets patterns (snapshot.text path) then
      match cache.bind fun entryForOutput => entryForOutput path with
      | some entry => standsIn snapshot entry
      | none => false
    else true

/-! ### The patterns of the index -/

variable {machine sets}

theorem outputPatterns_of_indexOutputs {scalars : List (Text × Text)} {ruleIdx : ℕ}
    {rule : Rule Body} {outputs : List OutputPattern} {entries : List ProducerEntry}
    (h : indexOutputs machine scalars ruleIdx rule outputs = .ok entries) :
    (outputs.filterMap fun output =>
      match parse machine.alphanumeric (substituteConfigRefs output.pattern scalars) with
      | .error _ => none
      | .ok pattern => (CompiledPattern.new machine pattern rule.wildcardConstraints).toOption) =
      entries.map ProducerEntry.compiled := by
  induction outputs generalizing entries with
  | nil =>
    cases h
    rfl
  | cons output outputs ih =>
    rw [indexOutputs] at h
    dsimp only [bind, Except.bind] at h
    cases hexpanded : substituteConfigScalars scalars output.pattern with
    | error =>
      rw [hexpanded] at h
      cases h
    | ok expanded =>
      rw [hexpanded] at h
      dsimp only at h
      cases hparse : parse machine.alphanumeric expanded with
      | error =>
        rw [hparse] at h
        cases h
      | ok pattern =>
        rw [hparse] at h
        dsimp only at h
        cases hnew : CompiledPattern.new machine pattern rule.wildcardConstraints with
        | error =>
          rw [hnew] at h
          cases h
        | ok =>
          rw [hnew] at h
          dsimp only at h
          cases hrest : indexOutputs machine scalars ruleIdx rule outputs with
          | error =>
            rw [hrest] at h
            cases h
          | ok =>
            rw [hrest] at h
            cases h
            have hsame := eq_substituteConfigRefs_of_parse hexpanded hparse
            rw [filterMap_cons, ← hsame, hparse]
            dsimp only
            rw [hnew, map_cons, ← ih hrest]
            rfl

theorem outputPatterns_of_indexRules {scalars : List (Text × Text)} {first : ℕ}
    {rules : List (Rule Body)} {entries : List ProducerEntry}
    (h : indexRules machine scalars first rules = .ok entries) :
    outputPatterns machine rules scalars = entries.map ProducerEntry.compiled := by
  induction rules generalizing first entries with
  | nil =>
    cases h
    rfl
  | cons rule rules ih =>
    rw [indexRules] at h
    dsimp only [bind, Except.bind] at h
    cases hfirst : indexOutputs machine scalars first rule rule.outputs with
    | error =>
      rw [hfirst] at h
      cases h
    | ok =>
      rw [hfirst] at h
      dsimp only at h
      cases hrest : indexRules machine scalars (first + 1) rules with
      | error =>
        rw [hrest] at h
        cases h
      | ok rest =>
        rw [hrest] at h
        cases h
        have htail : outputPatterns machine rules scalars = rest.map ProducerEntry.compiled :=
          ih hrest
        rw [outputPatterns, flatMap_cons, outputPatterns_of_indexOutputs hfirst,
          map_append, ← htail]
        rfl

/-! ### The prefixes -/

theorem literalPrefix_of_fills {segments : List Segment} {values : List Text} {path text : Text}
    (h : Fills segments values path) (hhead : segments.head? = some (.literal text)) :
    text <+: path := by
  cases h with
  | nil | wildcard => cases hhead
  | literal _ _ =>
    cases hhead
    exact prefix_append _ _

theorem literalPrefix_of_resolve {compiled : CompiledPattern} {text : Text}
    (h : (compiled.resolve machine text).isSome = true) : literalPrefix compiled <+: text := by
  unfold CompiledPattern.resolve resolvePattern at h
  cases hcaptures : machine.regexes.captures compiled.pattern.segments compiled.constraints text with
  | none =>
    rw [hcaptures] at h
    cases h
  | some values =>
    unfold literalPrefix
    split
    · rename_i literal hhead
      exact literalPrefix_of_fills (machine.regexes.fills hcaptures) hhead
    · exact nil_prefix

theorem mem_matches_of_resolve (hsets : sets.MatchesPrefixes) {patterns : List CompiledPattern}
    {prefixes : sets.Compiled}
    (hnew : sets.new (prefixExpressions sets patterns) = some prefixes) {text : Text} {i : ℕ}
    {pattern : CompiledPattern} (hget : patterns[i]? = some pattern)
    (hresolve : (pattern.resolve machine text).isSome = true) :
    i ∈ sets.matches prefixes text := by
  refine (hsets _ _ hnew text i).mpr ⟨literalPrefix pattern, ?_, ?_⟩
  · rw [getElem?_map, hget]
    rfl
  · exact literalPrefix_of_resolve hresolve

theorem isOutput_iff (hsets : sets.MatchesPrefixes) (patterns : List CompiledPattern)
    (text : Text) :
    isOutput machine sets patterns text = true ↔
      ∃ pattern ∈ patterns, (pattern.resolve machine text).isSome = true := by
  unfold isOutput
  cases hnew : sets.new (prefixExpressions sets patterns) with
  | none => exact any_eq_true
  | some =>
    dsimp only
    rw [Bool.and_eq_true, any_eq_true]
    constructor
    · rintro ⟨-, i, -, hi⟩
      cases hget : patterns[i]? with
      | none =>
        rw [hget] at hi
        cases hi
      | some pattern =>
        rw [hget] at hi
        exact ⟨pattern, mem_of_getElem? hget, hi⟩
    · rintro ⟨pattern, hpattern, hresolve⟩
      obtain ⟨i, hget⟩ := mem_iff_getElem?.mp hpattern
      have hmem := mem_matches_of_resolve hsets hnew hget hresolve
      refine ⟨?_, i, hmem, ?_⟩
      · rw [Bool.not_eq_true', isEmpty_eq_false_iff]
        exact ne_nil_of_mem hmem
      · rw [hget]
        exact hresolve

/-- Without adopted outputs, a discovered file is left out exactly when the index of the resolver
matches it, and the prefixes drop no pattern that matches. -/
theorem discoverSourceFiles_exact (hsets : sets.MatchesPrefixes) {rules : List (Rule Body)}
    (config : Config) {index : ProducerIndex}
    (hbuild : ProducerIndex.build machine rules config.scalars = .ok index)
    (snapshot : Snapshot Path) :
    (∀ path ∈ snapshot.discovered,
      path ∉ discoverSourceFiles machine sets snapshot rules config false ↔
        ∃ entry ∈ index.entries,
          (entry.compiled.resolve machine (snapshot.text path)).isSome = true) ∧
      ∀ (patterns : List CompiledPattern) (prefixes : sets.Compiled),
        sets.new (prefixExpressions sets patterns) = some prefixes →
          ∀ text i pattern, patterns[i]? = some pattern →
            (pattern.resolve machine text).isSome = true → i ∈ sets.matches prefixes text := by
  constructor
  · intro path hpath
    obtain ⟨entries, hentries, rfl⟩ : ∃ entries,
        indexRules machine config.scalars 0 rules = .ok entries ∧ ⟨entries⟩ = index := by
      unfold ProducerIndex.build at hbuild
      cases hrules : indexRules machine config.scalars 0 rules with
      | error =>
        rw [hrules] at hbuild
        cases hbuild
      | ok entries =>
        rw [hrules] at hbuild
        cases hbuild
        exact ⟨entries, rfl, rfl⟩
    have hpatterns := outputPatterns_of_indexRules hentries
    have hkeep : path ∉ discoverSourceFiles machine sets snapshot rules config false ↔
        isOutput machine sets (outputPatterns machine rules config.scalars)
          (snapshot.text path) = true := by
      unfold discoverSourceFiles
      dsimp only
      rw [mem_filter]
      by_cases hout : isOutput machine sets (outputPatterns machine rules config.scalars)
          (snapshot.text path) = true
      · rw [if_pos hout]
        exact ⟨fun _ => hout, fun _ hmem => Bool.false_ne_true hmem.2⟩
      · rw [if_neg hout]
        exact ⟨fun h => absurd ⟨hpath, rfl⟩ h, fun h => absurd h hout⟩
    rw [hkeep, isOutput_iff hsets, hpatterns]
    constructor
    · rintro ⟨pattern, hpattern, hresolve⟩
      obtain ⟨entry, hentry, rfl⟩ := mem_map.mp hpattern
      exact ⟨entry, hentry, hresolve⟩
    · rintro ⟨entry, hentry, hresolve⟩
      exact ⟨entry.compiled, mem_map_of_mem hentry, hresolve⟩
  · intro patterns prefixes hnew text i pattern hget hresolve
    exact mem_matches_of_resolve hsets hnew hget hresolve

end Discover

/-! ### A file that a rule makes -/

def literalSets : RegexSets where
  Compiled := List Text
  escape := id
  new := some
  «matches» := fun expressions text =>
    (List.range expressions.length).filter fun i =>
      match expressions[i]? with
      | some ('^' :: literal) => decide (literal <+: text)
      | _ => false

theorem matchesPrefixes_literalSets : literalSets.MatchesPrefixes := by
  intro literals compiled hnew text i
  cases hnew
  have hget : (literals.map literalSets.anchor)[i]? = literals[i]?.map literalSets.anchor :=
    getElem?_map
  have hmem : i ∈ literalSets.matches (literals.map literalSets.anchor) text ↔
      i < literals.length ∧ (match (literals.map literalSets.anchor)[i]? with
        | some ('^' :: literal) => decide (literal <+: text)
        | _ => false) = true := by
    unfold RegexSets.matches literalSets
    dsimp only
    rw [mem_filter, mem_range, length_map]
  rw [hmem, hget]
  cases hliteral : literals[i]? with
  | none =>
    constructor
    · exact fun h => absurd h.2 Bool.false_ne_true
    · rintro ⟨literal, heq, -⟩
      cases heq
  | some literal =>
    have hlt : i < literals.length := (List.getElem?_eq_some_iff.mp hliteral).1
    constructor
    · exact fun h => ⟨literal, rfl, of_decide_eq_true h.2⟩
    · rintro ⟨_, heq, hstarts⟩
      cases heq
      exact ⟨hlt, decide_eq_true hstarts⟩

def twoFiles : Snapshot Text where
  discovered := [['x'], ['y']]
  text := id
  pathExists := fun _ => true
  hashFile := fun _ => none
  cache := none

/-- The file that a rule makes is left out, and the other one stays. -/
theorem discoverSourceFiles_exact_twoFiles :
    ['x'] ∉ discoverSourceFiles (literalMachine []) literalSets twoFiles
        [literalRule "make" none [] ["x"]] ⟨[], []⟩ false ∧
      ['y'] ∈ discoverSourceFiles (literalMachine []) literalSets twoFiles
        [literalRule "make" none [] ["x"]] ⟨[], []⟩ false := by
  have hbuild : ProducerIndex.build (literalMachine []) [literalRule "make" none [] ["x"]] [] =
      .ok ⟨[⟨0, ⟨⟨['x'], [.literal ['x']]⟩, []⟩⟩]⟩ := by
    have hparse : parse (literalMachine []).alphanumeric ['x'] = .ok ⟨['x'], [.literal ['x']]⟩ :=
      parse_x
    have hsame : substituteConfigScalars [] (literalOutput "x").pattern = .ok ['x'] := by decide
    have houtputs : (literalRule "make" none [] ["x"]).outputs = [literalOutput "x"] := rfl
    rw [ProducerIndex.build, indexRules, houtputs, indexOutputs, hsame]
    dsimp only [bind, Except.bind]
    rw [hparse]
    rfl
  obtain ⟨hexact, -⟩ :=
    discoverSourceFiles_exact matchesPrefixes_literalSets ⟨[], []⟩ hbuild twoFiles
  constructor
  · refine (hexact ['x'] (by decide)).mpr ⟨_, mem_singleton_self _, ?_⟩
    decide
  · have hy := (not_congr (hexact ['y'] (by decide))).mpr ?_
    · exact not_not.mp hy
    · rintro ⟨_, hentry, hresolve⟩
      rw [mem_singleton.mp hentry] at hresolve
      exact absurd hresolve (by decide)

end OxyMake.SourceDiscovery
