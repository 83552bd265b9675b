import OxyMake.Resolver
import OxyMake.ResourceNormalization
import OxyMake.DecimalText

/-!
# Where a run reads the configuration

Loading a workflow writes scalars into resource values, the targets are expanded
against the configuration of the workflow, and the source files are discovered
and the jobs resolved with the configuration after the overrides of the profile
and of the command line.
-/

namespace OxyMake.ConfigStages

open Wildcard RuleInstances
open Resolver (Environment ResolveResult DagError resolveWithSourceFallbackAt)
open ResourceNormalization (ResourceValue FloatValue trim)
open DecimalText

inductive ConfigValue
  | list (items : List Text)
  | fileSource
  | scalar (value : Text)
  deriving DecidableEq

/-- Fields of a rule that the resolver only renders. -/
structure RuleBody (Other : Type) where
  resources : List (Text × ResourceValue)
  other : Other

structure Workflow (Other : Type) where
  config : List (Text × ConfigValue)
  sorted : SortedMap.Sorted config
  rules : List (Rule (RuleBody Other))

/-! ### Loading -/

/-- Replace the occurrences of a pattern from left to right. -/
def replaceAll (pattern replacement : Text) : Text → Text
  | [] => []
  | c :: rest =>
    if pattern <+: c :: rest then
      replacement ++ replaceAll pattern replacement (rest.drop (pattern.length - 1))
    else c :: replaceAll pattern replacement rest
  termination_by text => text.length
  decreasing_by
    · simp only [List.length_drop, List.length_cons]
      omega
    · simp only [List.length_cons]
      omega

def reference (key : Text) : Text := "\x7bconfig.".toList ++ key ++ ['}']

/-- Replace the references to scalars, one key after another. -/
def interpolate (scalars : List (Text × Text)) (text : Text) : Text :=
  scalars.foldl (fun text e => replaceAll (reference e.1) e.2 text) text

def readBounded (bound : ℕ) (digits : Text) : Option ℕ :=
  (readNumeral digits).filter fun n => n < bound

def parseI64 : Text → Option ℤ
  | '-' :: digits => (readBounded (2 ^ 63 + 1) digits).map fun n => -n
  | '+' :: digits => (readBounded (2 ^ 63) digits).map fun n => n
  | digits => (readBounded (2 ^ 63) digits).map fun n => n

/-- Scalars for resource values; a list of one item counts as a scalar. -/
def loadScalars (config : List (Text × ConfigValue)) : List (Text × Text) :=
  config.filterMap fun e =>
    match e.2 with
    | .scalar s => some (e.1, s)
    | .list [s] => some (e.1, s)
    | _ => none

/-- Resolve references in a resource value; a changed string may become a number. -/
def loadResource (parseF64 : Text → Option FloatValue) (scalars : List (Text × Text)) :
    ResourceValue → ResourceValue
  | .str s =>
    let resolved := interpolate scalars s.toList
    if resolved ≠ s.toList then
      match parseI64 resolved with
      | some n => .int n
      | none =>
        match parseF64 resolved with
        | some f => .float f
        | none => .str (String.ofList resolved)
    else .str s
  | value => value

variable {Other : Type}

/-- Resolve references in the resource values of a rule. -/
def loadRule (parseF64 : Text → Option FloatValue) (scalars : List (Text × Text))
    (rule : Rule (RuleBody Other)) : Rule (RuleBody Other) :=
  { rule with
    body := { rule.body with
      resources := rule.body.resources.map fun e => (e.1, loadResource parseF64 scalars e.2) } }

def loadWorkflow (parseF64 : Text → Option FloatValue) (workflow : Workflow Other) :
    Workflow Other :=
  { workflow with rules := workflow.rules.map (loadRule parseF64 (loadScalars workflow.config)) }

/-! ### The configuration of the resolver -/

def addValue (config : Config) (e : Text × ConfigValue) : Config :=
  match e.2 with
  | .list items => { config with lists := SortedMap.insert e.1 items config.lists }
  | .scalar s => { config with scalars := SortedMap.insert e.1 s config.scalars }
  | .fileSource => { config with lists := SortedMap.insert e.1 [] config.lists }

def workflowConfig (workflow : Workflow Other) : Config :=
  workflow.config.foldl addValue ⟨[], []⟩

/-- The text before the first occurrence of a separator and the text after it. -/
def splitOnce (separator : Char) (text : Text) : Option (Text × Text) :=
  match text.dropWhile (· ≠ separator) with
  | [] => none
  | _ :: rest => some (text.takeWhile (· ≠ separator), rest)

def applyOverride (config : Config) (entry : Text) : Config :=
  match splitOnce '=' entry with
  | none => config
  | some (key, value) =>
    let key := trim key
    let value := trim value
    if ',' ∈ value then
      { config with
        lists := SortedMap.insert key ((value.splitOnP (· == ',')).map trim) config.lists }
    else
      { scalars := SortedMap.insert key value config.scalars
        lists := if (config.lists.lookup key).isSome then
            SortedMap.insert key [value] config.lists
          else config.lists }

def applyOverrides (config : Config) (overrides : List Text) : Config :=
  overrides.foldl applyOverride config

def applyProfileConfig (config : Config) (set : List (Text × Text)) : Config :=
  applyOverrides config (set.map fun e => e.1 ++ '=' :: e.2)

/-- Configuration after the overrides of the profile and then of the command line. -/
def overriddenConfig (config : Config) (profile : Option (List (Text × Text)))
    (overrides : List Text) : Config :=
  match profile with
  | some set => applyOverrides (applyProfileConfig config set) overrides
  | none => applyOverrides config overrides

/-! ### Targets -/

/-- Substitute references to scalars; unknown keys stay as they are. -/
def substituteRefs (scalars : List (Text × Text)) (rest : Text) : Text :=
  match _h : findConfig rest with
  | none => rest
  | some (before, after) =>
    match _h' : scanName after with
    | none => before ++ "\x7bconfig.".toList ++ after
    | some (key, rest') =>
      before ++ (scalars.lookup key).getD (reference key) ++ substituteRefs scalars rest'
  termination_by rest.length
  decreasing_by
    have h₁ := findConfig_length _h
    have h₂ := scanName_length _h'
    omega

def substituteConfigRefs (pattern : Text) (scalars : List (Text × Text)) : Text :=
  if (findConfig pattern).isNone then pattern else substituteRefs scalars pattern

/-- Wildcard names that the rest of a pattern adds. -/
def scanWildcards : Text → List Text → List Text
  | [], names => names
  | c :: rest, names =>
    if c = '\x7b' then
      let name := rest.takeWhile (· ≠ '}')
      scanWildcards (rest.dropWhile (· ≠ '}')).tail
        (if name.isEmpty || names.contains name then names else names ++ [name])
    else scanWildcards rest names
  termination_by text => text.length
  decreasing_by
    · have hle := (List.dropWhile_sublist (l := rest) fun c => decide (c ≠ '}')).length_le
      simp only [List.length_tail, List.length_cons]
      omega
    · simp only [List.length_cons]
      omega

def extractWildcards (pattern : Text) : List Text := scanWildcards pattern []

/-- Values of a wildcard: the list of its name, of its plural or of its singular. -/
def axis (lists : List (Text × List Text)) (wildcard : Text) : Option (List Text) :=
  match lists.lookup wildcard with
  | some values => some values
  | none =>
    match lists.lookup (wildcard ++ ['s']) with
    | some values => some values
    | none =>
      if wildcard.getLast? = some 's' then lists.lookup wildcard.dropLast else none

def combinations (axes : List (Text × List Text)) : List (List (Text × Text)) :=
  axes.foldl (fun combos axis =>
    combos.flatMap fun combo => axis.2.map fun value => combo ++ [(axis.1, value)]) [[]]

/-- Write the values of a combination into a pattern. -/
def expandCombination (pattern : Text) (combo : List (Text × Text)) : Text :=
  combo.foldl (fun text e => replaceAll ('\x7b' :: e.1 ++ ['}']) e.2 text) pattern

/-- Expand a pattern against the configuration; nothing when a wildcard has no values. -/
def expandPattern (pattern : Text) (config : Config) : List Text :=
  let pattern := substituteConfigRefs pattern config.scalars
  let wildcards := extractWildcards pattern
  if wildcards.isEmpty then [pattern]
  else
    match wildcards.mapM fun wc => (axis config.lists wc).map (wc, ·) with
    | none => []
    | some axes => (combinations axes).map (expandCombination pattern)

def expandTarget (config : Config) (pattern : Text) : List Text :=
  if '\x7b' ∈ pattern then expandPattern pattern config else [pattern]

def defaultRule (workflow : Workflow Other) : Option (Rule (RuleBody Other)) :=
  (workflow.rules.find? fun r => r.name = "all".toList).or workflow.rules.head?

/-- Patterns of the default targets: the inputs of a rule without outputs, or the outputs. -/
def defaultPatterns (workflow : Workflow Other) : List Text :=
  match defaultRule workflow with
  | none => []
  | some rule =>
    if rule.outputs.isEmpty then rule.inputs.map fun input => input.pattern
    else rule.outputs.map fun output => output.pattern

/-- Targets of a run, from the arguments or by default. -/
def resolveTargets (workflow : Workflow Other) (userTargets : List Text) : List Text :=
  let config := workflowConfig workflow
  if userTargets.isEmpty then (defaultPatterns workflow).flatMap (expandTarget config)
  else userTargets.map fun target => substituteConfigRefs target config.scalars

/-! ### The run -/

/-- What a run derives: its targets, and the jobs and sources for them. -/
abbrev Derived (Rendered Path : Type) :=
  Option (List Text × Except DagError (ResolveResult Rendered Path))

/-- What a run has besides its workflow and arguments: the disk and the policies
of the resolver, the floating-point numbers, and the discovery of source files. -/
structure Surroundings (Other Rendered Path : Type) where
  environment : Environment (RuleBody Other) Rendered Path
  parseF64 : Text → Option FloatValue
  /-- Files on the disk that no output pattern claims. -/
  discoverSourceFiles : List (Rule (RuleBody Other)) → Config → List Path

variable {Rendered Path : Type} [DecidableEq Path]

/-- Derive the targets and the jobs of a run. -/
def cmdRun (around : Surroundings Other Rendered Path) (workflow : Workflow Other)
    (profile : Option (List (Text × Text))) (overrides userTargets : List Text) :
    Derived Rendered Path :=
  let workflow := loadWorkflow around.parseF64 workflow
  let config := overriddenConfig (workflowConfig workflow) profile overrides
  let targets := resolveTargets workflow userTargets
  if targets.isEmpty then none
  else
    let existing := around.discoverSourceFiles workflow.rules config
    some (targets,
      resolveWithSourceFallbackAt around.environment workflow.rules ⟨targets, config, existing⟩)

end OxyMake.ConfigStages
