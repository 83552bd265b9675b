import OxyMake.PatternMatching
import Mathlib.Data.List.Sort

/-!
# Rules and their instances

The rules are compiled once: references to the configuration are substituted,
patterns are parsed and constraints are checked. The producer of a path is the
rule with the highest priority among those with an output pattern that matches,
and its wildcards are read off the match. The inputs of an instance are its
patterns with the wildcards written in; wildcards that the output does not bind
are expanded from lists of the configuration.
-/

namespace OxyMake.RuleInstances

open List
open Wildcard PatternMatching

/-- An input pattern of a rule. -/
structure InputPattern where
  pattern : Text
  name : Option Text
  format : Option Text
  deriving DecidableEq, Repr

/-- How long an output is kept. -/
inductive OutputLifecycle
  | permanent
  | temporary
  | «protected»
  deriving DecidableEq, Repr

/-- When an output is written to disk. -/
inductive MaterializePolicy
  | always
  | auto
  | never
  | final
  deriving DecidableEq, Repr

/-- An output pattern of a rule. -/
structure OutputPattern where
  pattern : Text
  name : Option Text
  format : Option Text
  lifecycle : OutputLifecycle
  materialize : MaterializePolicy
  deriving DecidableEq, Repr

/-- How lists of wildcard values are combined. -/
inductive ExpandMode
  | product
  | zip
  deriving DecidableEq, Repr

/-- A condition on wildcard values, the configuration and the machine. -/
inductive GuardExpr
  | isIn (field : Text) (values : List Text)
  | notIn (field : Text) (values : List Text)
  | eq (field value : Text)
  | notEq (field value : Text)
  | regex (field pattern : Text)
  | configEq (key value : Text)
  | envSet (var : Text)
  | envEq (var value : Text)
  | fileExists (path : Text)
  | and (conditions : List GuardExpr)
  | or (conditions : List GuardExpr)
  | not (condition : GuardExpr)

/-- What the resolver reads of a rule. The fields that are only rendered into its jobs are of
the type `Body`. -/
structure Rule (Body : Type) where
  name : Text
  priority : Option ℕ
  inputs : List InputPattern
  outputs : List OutputPattern
  wildcardConstraints : List (Text × Text)
  when : Option GuardExpr
  expandMode : ExpandMode
  body : Body

structure Config where
  lists : List (Text × List Text)
  scalars : List (Text × Text)

/-- The values stand for the wildcards of the segments in a path. -/
inductive Fills : List Segment → List Text → Text → Prop
  | nil : Fills [] [] []
  | literal (text : Text) {segments : List Segment} {values : List Text} {path : Text} :
      Fills segments values path → Fills (.literal text :: segments) values (text ++ path)
  | wildcard (name value : Text) {segments : List Segment} {values : List Text} {path : Text} :
      Fills segments values path →
        Fills (.wildcard name :: segments) (value :: values) (value ++ path)

/-- The engine of regular expressions. The groups of an anchored match fill in the segments. -/
structure Regexes where
  valid : Text → Bool
  isMatch : Text → Text → Bool
  /-- The wildcard groups of the expression compiled from segments and constraints. -/
  captures : List Segment → List (Text × Text) → Text → Option (List Text)
  /-- Literals are matched as they are and the match covers the whole path. -/
  fills : ∀ {segments constraints path values},
    captures segments constraints path = some values → Fills segments values path

/-- What the resolver asks of the machine. -/
structure Machine where
  alphanumeric : Char → Bool
  regexes : Regexes
  envVar : Text → Option Text
  fileExists : Text → Bool

/-! ### Compiling rules -/

/-- The text before the first reference to the configuration and the text after its opening. -/
def findConfig : Text → Option (Text × Text)
  | [] => none
  | c :: rest =>
    if "\x7bconfig.".toList <+: c :: rest then some ([], (c :: rest).drop 8)
    else (findConfig rest).map fun (before, after) => (c :: before, after)

theorem findConfig_length {s before after : Text} (h : findConfig s = some (before, after)) :
    after.length < s.length := by
  induction s generalizing before with
  | nil => cases h
  | cons c rest ih =>
    rw [findConfig] at h
    split_ifs at h with hstart
    · cases h
      simp only [length_drop, length_cons]
      omega
    · obtain ⟨⟨_, _⟩, hrest, heq⟩ := Option.map_eq_some_iff.mp h
      cases heq
      have := ih hrest
      simp only [length_cons]
      omega

/-- Substitute references from left to right; a reference without closing brace ends the loop, and
the text not yet passed over is appended once more. -/
def substituteLoop (scalars : List (Text × Text)) (pattern : Text) :
    Text → Text → Except WildcardError Text
  | result, rest =>
    match _h : findConfig rest with
    | none => .ok (result ++ rest)
    | some (before, after) =>
      match _h' : scanName after with
      | none => .ok (result ++ before ++ "\x7bconfig.".toList ++ after ++ rest)
      | some (key, rest') =>
        match scalars.lookup key with
        | none => .error (.unknownConfigKey key pattern)
        | some value => substituteLoop scalars pattern (result ++ before ++ value) rest'
  termination_by _ rest => rest.length
  decreasing_by
    have h₁ := findConfig_length _h
    have h₂ := scanName_length _h'
    omega

def substituteConfigScalars (scalars : List (Text × Text)) (pattern : Text) :
    Except WildcardError Text :=
  if (findConfig pattern).isNone then .ok pattern else substituteLoop scalars pattern [] pattern

/-- A rule with its parsed patterns. -/
structure CompiledRule (Body : Type) where
  rule : Rule Body
  inputs : List (InputPattern × Pattern)
  outputs : List (OutputPattern × Pattern)

section Compile

variable {Body : Type} (machine : Machine) (config : Config)

def parsePattern (pattern : Text) : Except WildcardError Pattern := do
  let expanded ← substituteConfigScalars config.scalars pattern
  parse machine.alphanumeric expanded

/-- The text of a constraint that cannot be compiled. -/
def invalidConstraint (name constraint : Text) : String :=
  "invalid regex constraint `" ++ String.ofList constraint ++ "` for wildcard `" ++
    String.ofList name ++ "`"

/-- The constraints of a pattern's wildcards can be compiled. -/
def checkPatternConstraints (constraints : List (Text × Text)) (pattern : Pattern) :
    List Text → Except WildcardError Unit
  | [] => .ok ()
  | name :: names =>
    match constraints.lookup name with
    | some constraint =>
      if machine.regexes.valid constraint then checkPatternConstraints constraints pattern names
      else .error (.invalidPattern pattern.raw (invalidConstraint name constraint))
    | none => checkPatternConstraints constraints pattern names

/-- A constraint that has to match a whole value. -/
def anchored (constraint : Text) : Text := "^(?:".toList ++ constraint ++ ")$".toList

def checkRuleConstraints (rule : Rule Body) : List (Text × Text) → Except WildcardError Unit
  | [] => .ok ()
  | (name, constraint) :: rest =>
    if machine.regexes.valid (anchored constraint) then checkRuleConstraints rule rest
    else .error (.invalidPattern rule.name (invalidConstraint name constraint))

/-- Parse the output patterns of a rule for the index of producers. -/
def compileOutputs (rule : Rule Body) :
    List OutputPattern → Except WildcardError (List (OutputPattern × Pattern))
  | [] => .ok []
  | output :: outputs => do
    let pattern ← parsePattern machine config output.pattern
    checkPatternConstraints machine rule.wildcardConstraints pattern pattern.wildcardNames
    let rest ← compileOutputs rule outputs
    return (output, pattern) :: rest

def compileInputs : List InputPattern → Except WildcardError (List (InputPattern × Pattern))
  | [] => .ok []
  | input :: inputs => do
    let pattern ← parsePattern machine config input.pattern
    let rest ← compileInputs inputs
    return (input, pattern) :: rest

/-- Compile the rules: all output patterns, then all constraints, then all input patterns. -/
def compileRules (rules : List (Rule Body)) : Except WildcardError (List (CompiledRule Body)) := do
  let outputs ← rules.mapM fun rule => compileOutputs machine config rule rule.outputs
  let _ ← rules.mapM fun rule => checkRuleConstraints machine rule rule.wildcardConstraints
  let inputs ← rules.mapM fun rule => compileInputs machine config rule.inputs
  return (rules.zip (inputs.zip outputs)).map fun e => ⟨e.1, e.2.1, e.2.2⟩

end Compile

/-! ### Guards -/

section Guards

variable (machine : Machine) (config : Config) (wildcards : Wildcards)

/-- Values of a guard; a name after `@` stands for a list of the configuration. -/
def effectiveValues (values : List Text) : List Text :=
  values.flatMap fun
    | '@' :: listName => (config.lists.lookup listName).getD []
    | value => [value]

mutual

def evaluateGuard : GuardExpr → Bool
  | .isIn field values =>
    match wildcards.lookup field with
    | some value => (effectiveValues config values).contains value
    | none => false
  | .notIn field values =>
    match wildcards.lookup field with
    | some value => !(effectiveValues config values).contains value
    | none => true
  | .eq field value => wildcards.lookup field = some value
  | .notEq field value =>
    match wildcards.lookup field with
    | some value' => value' ≠ value
    | none => true
  | .regex field pattern =>
    match wildcards.lookup field with
    | some value => machine.regexes.valid pattern && machine.regexes.isMatch pattern value
    | none => false
  | .configEq key value => config.scalars.lookup key = some value
  | .envSet var =>
    match machine.envVar var with
    | some value => !value.isEmpty
    | none => false
  | .envEq var value => machine.envVar var = some value
  | .fileExists path => machine.fileExists path
  | .and conditions => evaluateAll conditions
  | .or conditions => evaluateAny conditions
  | .not condition => !evaluateGuard condition

def evaluateAll : List GuardExpr → Bool
  | [] => true
  | condition :: conditions => evaluateGuard condition && evaluateAll conditions

def evaluateAny : List GuardExpr → Bool
  | [] => false
  | condition :: conditions => evaluateGuard condition || evaluateAny conditions

end

end Guards

/-! ### Producers -/

section Instances

variable {Body : Type} (machine : Machine) (config : Config)

def resolvePattern (constraints : List (Text × Text)) (pattern : Pattern) (path : Text) :
    Option Wildcards :=
  match machine.regexes.captures pattern.segments constraints path with
  | none => none
  | some values => extractWildcards pattern.wildcardNames values []

/-- The wildcards of the first output pattern of a rule that matches. -/
def matchRule (compiled : CompiledRule Body) (target : Text) : Option Wildcards :=
  compiled.outputs.findSome? fun output =>
    resolvePattern machine compiled.rule.wildcardConstraints output.2 target

/-- Rules with a matching output pattern, in the order of the rules. -/
def candidates (rules : List (CompiledRule Body)) (target : Text) :
    List (CompiledRule Body × Wildcards) :=
  rules.filterMap fun compiled => (matchRule machine compiled target).map (compiled, ·)

def priorityOf (candidate : CompiledRule Body × Wildcards) : ℕ :=
  candidate.1.rule.priority.getD 0

/-- The rule that makes a path: the only candidate, or the one with the highest priority. -/
def findProducer (rules : List (CompiledRule Body)) (target : Text) :
    Except WildcardError (CompiledRule Body × Wildcards) :=
  match candidates machine rules target with
  | [] => .error (.noProducer target)
  | [candidate] => .ok candidate
  | several =>
    match several.insertionSort fun a b => priorityOf b ≤ priorityOf a with
    | best :: second :: rest =>
      if priorityOf best > priorityOf second then .ok best
      else
        .error (.ambiguousProducer target
          ((best :: second :: rest).map fun candidate => candidate.1.rule.name))
    | _ => .error (.noProducer target)

/-! ### Inputs -/

/-- Combine every value of each list with every value of the others. -/
def cartesianProduct (lists : List (Text × List Text)) : List Wildcards :=
  lists.foldl (fun result entry =>
    result.flatMap fun combo => entry.2.map fun value => SortedMap.insert entry.1 value combo) [[]]

/-- The lists have the length of the first one. -/
def checkLengths (first : Text × List Text) : List (Text × List Text) → Except WildcardError Unit
  | [] => .ok ()
  | (name, values) :: rest =>
    if values.length ≠ first.2.length then
      .error (.invalidPattern ("zip(".toList ++ first.1 ++ ", ".toList ++ name ++ ")".toList)
        ("zip requires equal-length lists, but `" ++ String.ofList first.1 ++ "` has " ++
          toString first.2.length ++ " values and `" ++ String.ofList name ++ "` has " ++
          toString values.length))
    else checkLengths first rest

/-- Combine the values of lists of equal length position by position. -/
def zipLists : List (Text × List Text) → Except WildcardError (List Wildcards)
  | [] => .ok [[]]
  | first :: rest => do
    checkLengths first rest
    return (List.range first.2.length).map fun i =>
      (first :: rest).foldl (fun combo entry =>
        SortedMap.insert entry.1 (entry.2.getD i []) combo) []

/-- The lists of the configuration for some wildcards; a list may have the plural name. -/
def wildcardLists : List Text → Except WildcardError (List (Text × List Text))
  | [] => .ok []
  | name :: names =>
    match (config.lists.lookup name).or (config.lists.lookup (name ++ ['s'])) with
    | none => .error (.unresolvableWildcard name)
    | some values => do
      let rest ← wildcardLists names
      return (name, values) :: rest

def validateConstraints (wildcards : Wildcards) : List (Text × Text) → Except WildcardError Unit
  | [] => .ok ()
  | (name, constraint) :: rest =>
    match wildcards.lookup name with
    | some value =>
      if machine.regexes.isMatch (anchored constraint) value then
        validateConstraints wildcards rest
      else .error (.constraintViolation name value [] (anchored constraint))
    | none => validateConstraints wildcards rest

/-- An input of an instance. -/
structure ConcreteInput where
  path : Text
  source : InputPattern
  hasWildcards : Bool
  deriving DecidableEq, Repr

/-- The inputs of one pattern for some combinations of further wildcard values. -/
def expandCombos (compiled : CompiledRule Body) (wildcards : Wildcards)
    (input : InputPattern × Pattern) : List Wildcards → Except WildcardError (List ConcreteInput)
  | [] => .ok []
  | combo :: combos => do
    let merged := SortedMap.extend wildcards combo
    validateConstraints machine merged compiled.rule.wildcardConstraints
    let path ← input.2.interpolate merged
    let rest ← expandCombos compiled wildcards input combos
    return ⟨path, input.1, input.2.hasWildcards⟩ :: rest

def expandInput (compiled : CompiledRule Body) (wildcards : Wildcards)
    (input : InputPattern × Pattern) : Except WildcardError (List ConcreteInput) :=
  match input.2.interpolate wildcards with
  | .ok path => .ok [⟨path, input.1, input.2.hasWildcards⟩]
  | .error (.unresolvableWildcard _) => do
    let lists ← wildcardLists config
      (input.2.wildcardNames.filter fun name => (wildcards.lookup name).isNone)
    let combos ← match compiled.rule.expandMode with
      | .product => .ok (cartesianProduct lists)
      | .zip => zipLists lists
    expandCombos machine compiled wildcards input combos
  | .error e => .error e

def concreteInputs (compiled : CompiledRule Body) (wildcards : Wildcards) :
    List (InputPattern × Pattern) → Except WildcardError (List ConcreteInput)
  | [] => .ok []
  | input :: inputs => do
    let first ← expandInput machine config compiled wildcards input
    let rest ← concreteInputs compiled wildcards inputs
    return first ++ rest

structure ResolvedOutput where
  path : Text
  name : Option Text
  format : Option Text
  lifecycle : OutputLifecycle
  materialize : MaterializePolicy
  deriving DecidableEq, Repr

def OutputPattern.resolved (output : OutputPattern) (path : Text) : ResolvedOutput :=
  ⟨path, output.name, output.format, output.lifecycle, output.materialize⟩

def concreteOutputs (wildcards : Wildcards) :
    List (OutputPattern × Pattern) → Except WildcardError (List ResolvedOutput)
  | [] => .ok []
  | output :: outputs =>
    match output.2.interpolate wildcards with
    | .error e => .error e
    | .ok path =>
      match concreteOutputs wildcards outputs with
      | .error e => .error e
      | .ok rest => .ok (output.1.resolved path :: rest)

end Instances

/-! ### What is compiled -/

theorem forall₂_of_mapM {α β ε : Type} {f : α → Except ε β} {as : List α} {bs : List β}
    (h : as.mapM f = .ok bs) : List.Forall₂ (fun a b => f a = .ok b) as bs := by
  induction as generalizing bs with
  | nil =>
    cases h
    exact .nil
  | cons a as ih =>
    rw [mapM_cons] at h
    cases ha : f a with
    | error =>
      rw [ha] at h
      cases h
    | ok =>
      rw [ha] at h
      cases has : as.mapM f with
      | error =>
        rw [has] at h
        cases h
      | ok =>
        rw [has] at h
        cases h
        exact .cons ha (ih has)

/-- A compiled rule holds the parsed patterns of its rule. -/
structure CompiledFrom {Body : Type} (machine : Machine) (config : Config) (rule : Rule Body)
    (compiled : CompiledRule Body) : Prop where
  rule_eq : compiled.rule = rule
  inputs : compileInputs machine config rule.inputs = .ok compiled.inputs
  /-- Its outputs are parsed and can be compiled. -/
  outputs : compileOutputs machine config rule rule.outputs = .ok compiled.outputs

theorem forall₂_of_compileRules {Body : Type} {machine : Machine} {config : Config}
    {rules : List (Rule Body)} {compiled : List (CompiledRule Body)}
    (h : compileRules machine config rules = .ok compiled) :
    List.Forall₂ (CompiledFrom machine config) rules compiled := by
  unfold compileRules at h
  cases houtputs : rules.mapM fun rule => compileOutputs machine config rule rule.outputs with
  | error =>
    rw [houtputs] at h
    cases h
  | ok outputs =>
    rw [houtputs] at h
    dsimp only [bind, Except.bind] at h
    split at h
    · cases h
    · rename_i hconstraints
      cases hinputs : rules.mapM fun rule => compileInputs machine config rule.inputs with
      | error =>
        rw [hinputs] at h
        cases h
      | ok inputs =>
        rw [hinputs] at h
        cases h
        have hout := forall₂_of_mapM houtputs
        have hin := forall₂_of_mapM hinputs
        clear houtputs hinputs hconstraints
        induction hout generalizing inputs with
        | nil => exact .nil
        | cons houtput _ ih =>
          cases hin with
          | cons hinput hin => exact .cons ⟨rfl, hinput, houtput⟩ (ih _ hin)

/-! ### What an instance makes -/

theorem Fills.length_eq {segments : List Segment} {values : List Text} {path : Text}
    (h : Fills segments values path) : values.length = (segmentNames segments).length := by
  induction h with
  | nil => rfl
  | literal text _ ih => exact ih
  | wildcard name value _ ih => simp only [segmentNames, length_cons, ih]

theorem interpolateSegments_of_fills {segments : List Segment} {values : List Text} {path : Text}
    (h : Fills segments values path) {w : Wildcards}
    (hw : ∀ n v, (n, v) ∈ (segmentNames segments).zip values → w.lookup n = some v) :
    interpolateSegments w segments = .ok path := by
  induction h with
  | nil => rfl
  | literal text _ ih =>
    rw [interpolateSegments, ih hw]
    rfl
  | wildcard name value _ ih =>
    have hrest := ih fun n v hmem => hw n v (.tail _ hmem)
    rw [interpolateSegments, hw name value mem_cons_self]
    dsimp only
    rw [hrest]
    rfl

variable {Body : Type} {machine : Machine} {config : Config}

theorem interpolate_of_resolvePattern {constraints : List (Text × Text)} {pattern : Pattern}
    {path : Text} {w : Wildcards}
    (h : resolvePattern machine constraints pattern path = some w) :
    pattern.interpolate w = .ok path := by
  unfold resolvePattern at h
  split at h
  · cases h
  · rename_i values hcaptures
    have hfills := machine.regexes.fills hcaptures
    exact interpolateSegments_of_fills hfills (lookup_of_extractWildcards hfills.length_eq h).2.1

theorem matchRule_of_findProducer {rules : List (CompiledRule Body)} {target : Text}
    {compiled : CompiledRule Body} {w : Wildcards}
    (h : findProducer machine rules target = .ok (compiled, w)) :
    compiled ∈ rules ∧ matchRule machine compiled target = some w := by
  have hmem : (compiled, w) ∈ candidates machine rules target := by
    unfold findProducer at h
    split at h
    · cases h
    · rename_i candidate hcandidates
      cases h
      rw [hcandidates]
      exact mem_cons_self
    · split at h
      · rename_i best second rest hsorted
        split_ifs at h
        cases h
        have hfirst : (compiled, w) ∈ (candidates machine rules target).insertionSort
            fun a b => priorityOf b ≤ priorityOf a := by
          rw [hsorted]
          exact mem_cons_self
        exact (mem_insertionSort _).mp hfirst
      · cases h
  unfold candidates at hmem
  obtain ⟨_, hcompiled', hmatch⟩ := mem_filterMap.mp hmem
  obtain ⟨_, hw', heq⟩ := Option.map_eq_some_iff.mp hmatch
  cases heq
  exact ⟨hcompiled', hw'⟩

theorem mem_concreteOutputs {w : Wildcards} {patterns : List (OutputPattern × Pattern)}
    {outputs : List ResolvedOutput} (h : concreteOutputs w patterns = .ok outputs)
    {output : OutputPattern × Pattern} (hmem : output ∈ patterns) {path : Text}
    (hpath : output.2.interpolate w = .ok path) : path ∈ outputs.map ResolvedOutput.path := by
  induction patterns generalizing outputs with
  | nil => cases hmem
  | cons first patterns ih =>
    rw [concreteOutputs] at h
    cases hfirst : first.2.interpolate w with
    | error =>
      rw [hfirst] at h
      cases h
    | ok =>
      rw [hfirst] at h
      dsimp only at h
      cases hrest : concreteOutputs w patterns with
      | error =>
        rw [hrest] at h
        cases h
      | ok =>
        rw [hrest] at h
        cases h
        rcases mem_cons.mp hmem with rfl | hmem
        · rw [hfirst] at hpath
          cases hpath
          exact mem_cons_self
        · exact mem_cons_of_mem _ (ih hrest hmem)

theorem mem_outputs_of_findProducer {rules : List (CompiledRule Body)} {target : Text}
    {compiled : CompiledRule Body} {w : Wildcards}
    (h : findProducer machine rules target = .ok (compiled, w))
    {outputs : List ResolvedOutput} (houtputs : concreteOutputs w compiled.outputs = .ok outputs) :
    target ∈ outputs.map ResolvedOutput.path := by
  obtain ⟨-, hmatch⟩ := matchRule_of_findProducer h
  obtain ⟨_, houtput, hresolve⟩ := exists_of_findSome?_eq_some hmatch
  exact mem_concreteOutputs houtputs houtput (interpolate_of_resolvePattern hresolve)

end OxyMake.RuleInstances
