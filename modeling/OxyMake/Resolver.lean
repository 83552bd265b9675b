import OxyMake.PlanJournal
import OxyMake.RuleInstances
import Mathlib.Data.Finset.Card

/-!
# The resolver

Targets are resolved by backward chaining: a path is a source, or the instance of
its producer becomes a job after the paths it needs were resolved. A producer
whose own input is missing may be abandoned for a file that is there; what was
added for it is taken back. The result holds for every path it needs an earlier
job or a source, and nothing that is not needed.
-/

namespace OxyMake.Resolver

open Wildcard PlanJournal RuleInstances

inductive DagError
  | cycleDetected (cycle : Finset Text)
  | dependencyChainTooDeep (target : Text) (limit : ℕ)
  | wildcard (e : WildcardError)
  deriving DecidableEq

def maxResolveDepth : ℕ := 1000

structure ResolvedInput where
  path : Text
  name : Option Text
  format : Option Text
  deriving DecidableEq, Repr

/-- A job. What is rendered from the other fields of its rule is of the type `Rendered`. -/
structure ConcreteJob (Rendered : Type) where
  id : Text
  rule : Text
  wildcards : Wildcards
  inputs : List ResolvedInput
  outputs : List ResolvedOutput
  rendered : Rendered
  deriving DecidableEq, Repr

abbrev NamedPath := Text × Option Text

/-- What surrounds a resolution: the machine, the disk below the base directory, the policy of the
fallback and how the other fields of a job are rendered. Rendering fails only at an unknown
configuration key. -/
structure Environment (Body Rendered Path : Type) where
  machine : Machine
  pathBuf : Text → Path
  isPresent : Text → Bool
  /-- A path is a regular file below the base directory. -/
  isFile : Text → Bool
  allowSourceFallback : Path → Bool
  /-- Render the other fields of a job, or name an unknown key and the template it is in. -/
  render : Config → Rule Body → Wildcards → List NamedPath → List NamedPath →
    Except (Text × Text) Rendered

/-- A request to resolve targets. -/
structure ResolveRequest (Path : Type) where
  targets : List Text
  config : Config
  existingFiles : List Path

structure Context (Body Rendered Path : Type) extends Environment Body Rendered Path where
  config : Config
  rules : List (CompiledRule Body)
  existing : List Path

/-- The plan so far and the targets being resolved. -/
structure State (Rendered Path : Type) [DecidableEq Path] extends
    Plan Text (ConcreteJob Rendered) Path where
  resolving : Finset Text

section Resolve

variable {Body Rendered Path : Type} [DecidableEq Path] (ctx : Context Body Rendered Path)

def escapeValue (value : Text) : Text :=
  value.flatMap fun c => if c = '%' then "%25".toList else if c = '-' then "%2D".toList else [c]

/-- Build a job id from the name of a rule and wildcard values. -/
def buildJobId (name : Text) (wildcards : Wildcards) : Text :=
  if wildcards.isEmpty then name
  else name ++ '-' :: List.intercalate ['-'] (wildcards.map fun e => escapeValue e.2)

def State.leave (target : Text) (s : State Rendered Path) : State Rendered Path :=
  { s with resolving := s.resolving.erase target }

def State.enter (target : Text) (s : State Rendered Path) : State Rendered Path :=
  { s with resolving := insert target s.resolving }

def State.addSource (path : Path) (s : State Rendered Path) : State Rendered Path :=
  { s with toPlan := s.toPlan.addSource path }

/-- Resolve the inputs of a target one after another. An input that is missing itself is passed
over where a file may stand in for the target; any other error ends the resolution. -/
def resolveInputs (resolve : Text → State Rendered Path → Except DagError Unit × State Rendered Path)
    (target : Text) (mayFallBack : ConcreteInput → Bool) :
    List ConcreteInput → Bool → State Rendered Path → Except DagError Bool × State Rendered Path
  | [], useSourceFallback, s => (.ok useSourceFallback, s)
  | input :: inputs, useSourceFallback, s =>
    match resolve input.path s with
    | (.ok (), s) => resolveInputs resolve target mayFallBack inputs useSourceFallback s
    | (.error e, s) =>
      if e = .wildcard (.missingSource input.path) ∧ mayFallBack input = true then
        resolveInputs resolve target mayFallBack inputs true (s.leave input.path)
      else (.error e, (s.leave input.path).leave target)

/-- Interpolate the outputs of an instance and mark them as produced. -/
def addOutputs (wildcards : Wildcards) :
    List (OutputPattern × Pattern) → State Rendered Path →
      Except WildcardError (List ResolvedOutput) × State Rendered Path
  | [], s => (.ok [], s)
  | (output, pattern) :: outputs, s =>
    match pattern.interpolate wildcards with
    | .error e => (.error e, s)
    | .ok path =>
      match addOutputs wildcards outputs { s with produced := s.produced.insert path } with
      | (.error e, s) => (.error e, s)
      | (.ok rest, s) =>
        (.ok (output.resolved path :: rest), s)

/-- Build the job of an instance whose inputs are resolved. -/
def addJob (compiled : CompiledRule Body) (wildcards : Wildcards) (inputs : List ConcreteInput)
    (s : State Rendered Path) : Except DagError Unit × State Rendered Path :=
  match addOutputs wildcards compiled.outputs s with
  | (.error e, s) => (.error (.wildcard e), s)
  | (.ok outputs, s) =>
    match ctx.render ctx.config compiled.rule wildcards
      (inputs.map fun i => (i.path, i.source.name)) (outputs.map fun o => (o.path, o.name)) with
    | .error (key, template) => (.error (.wildcard (.unknownConfigKey key template)), s)
    | .ok rendered =>
      (.ok (), { s with
        toPlan := s.toPlan.push
          { id := buildJobId compiled.rule.name wildcards
            rule := compiled.rule.name
            wildcards := wildcards
            inputs := inputs.map fun i => ⟨i.path, i.source.name, i.source.format⟩
            outputs := outputs
            rendered := rendered } })

/-- A missing input of the target's producer may be passed over. -/
def mayFallBack (target : Text) (wildcards : Wildcards) (input : ConcreteInput) : Bool :=
  (wildcards.isEmpty || input.hasWildcards) && ctx.isFile target &&
    ctx.allowSourceFallback (ctx.pathBuf target)

/-- The guard of a rule holds, if it has one. -/
def guardHolds (compiled : CompiledRule Body) (wildcards : Wildcards) : Bool :=
  match compiled.rule.when with
  | some guard => evaluateGuard ctx.machine ctx.config wildcards guard
  | none => true

/-- Resolve a target, recursing into its dependencies. The first argument bounds the depth of the
recursion. -/
def resolveTarget : ℕ → Text → State Rendered Path → Except DagError Unit × State Rendered Path
  | 0, target, s => (.error (.dependencyChainTooDeep target maxResolveDepth), s)
  | depth + 1, target, s =>
    if target ∈ s.produced.members then (.ok (), s)
    else if s.resolving.card ≥ maxResolveDepth then
      (.error (.dependencyChainTooDeep target maxResolveDepth), s)
    else if ctx.pathBuf target ∈ ctx.existing then (.ok (), s.addSource (ctx.pathBuf target))
    else if target ∈ s.resolving then (.error (.cycleDetected s.resolving), s)
    else
      let s := s.enter target
      match findProducer ctx.machine ctx.rules target with
      | .error (.noProducer _) =>
        if ctx.isPresent target then
          (.ok (), (s.addSource (ctx.pathBuf target)).leave target)
        else (.error (.wildcard (.missingSource target)), s)
      | .error e => (.error (.wildcard e), s)
      | .ok (compiled, wildcards) =>
        if guardHolds ctx compiled wildcards = false then
          (.error (.wildcard (.noProducer target)), s.leave target)
        else
          match concreteInputs ctx.machine ctx.config compiled wildcards compiled.inputs with
          | .error e => (.error (.wildcard e), s)
          | .ok inputs =>
            match resolveInputs (resolveTarget depth) target (mayFallBack ctx target wildcards)
              inputs false s with
            | (.error e, s') => (.error e, s')
            | (.ok true, s') =>
              (.ok (), State.addSource (ctx.pathBuf target) (State.leave target { s' with
                toPlan := s'.toPlan.rollback s.jobs.length s.produced.log.length
                  s.sources.log.length }))
            | (.ok false, s') =>
              match addJob ctx compiled wildcards inputs s' with
              | (.error e, s') => (.error e, s')
              | (.ok (), s') => (.ok (), s'.leave target)

def resolveTargets : List Text → State Rendered Path → Except DagError Unit × State Rendered Path
  | [], s => (.ok (), s)
  | target :: targets, s =>
    match resolveTarget ctx (maxResolveDepth + 1) target s with
    | (.error e, s) => (.error e, s)
    | (.ok (), s) => resolveTargets targets s

def State.new : State Rendered Path := { Plan.empty with resolving := ∅ }

end Resolve

/-- Jobs in dependency order and source files. -/
structure ResolveResult (Rendered Path : Type) where
  jobs : List (ConcreteJob Rendered)
  sources : Finset Path
  deriving DecidableEq

def resolve {Body Rendered Path : Type} [DecidableEq Path] (ctx : Context Body Rendered Path)
    (targets : List Text) : Except DagError (ResolveResult Rendered Path) :=
  match resolveTargets ctx targets State.new with
  | (.error e, _) => .error e
  | (.ok (), s) => .ok ⟨s.jobs, s.sources.members⟩

def Environment.context {Body Rendered Path : Type} (env : Environment Body Rendered Path)
    (request : ResolveRequest Path) (rules : List (CompiledRule Body)) :
    Context Body Rendered Path :=
  { env with config := request.config, rules := rules, existing := request.existingFiles }

def resolveWithSourceFallbackAt {Body Rendered Path : Type} [DecidableEq Path]
    (env : Environment Body Rendered Path) (rules : List (Rule Body))
    (request : ResolveRequest Path) : Except DagError (ResolveResult Rendered Path) :=
  match compileRules env.machine request.config rules with
  | .error e => .error (.wildcard e)
  | .ok compiled => resolve (env.context request compiled) request.targets

/-! ### Workflows without wildcards -/

def literalText : List Segment → Option Text
  | [] => some []
  | .literal text :: segments => (literalText segments).map (text ++ ·)
  | .wildcard _ :: _ => none

theorem fills_of_literalText {segments : List Segment} {path : Text}
    (h : literalText segments = some path) : Fills segments [] path := by
  induction segments generalizing path with
  | nil =>
    cases h
    exact Fills.nil
  | cons segment segments ih =>
    cases segment with
    | literal text =>
      obtain ⟨_, hrest, rfl⟩ := Option.map_eq_some_iff.mp h
      exact Fills.literal text (ih hrest)
    | wildcard => cases h

def literalRegexes : Regexes where
  valid := fun _ => true
  isMatch := fun expression text => decide (expression <:+: text)
  captures := fun segments _ path => if literalText segments = some path then some [] else none
  fills := by
    intro segments constraints path values h
    split_ifs at h with htext
    cases h
    exact fills_of_literalText htext

/-- A machine for workflows without wildcards, with some files. -/
def literalMachine (files : List Text) : Machine where
  alphanumeric := Char.isAlphanum
  regexes := literalRegexes
  envVar := fun _ => none
  fileExists := fun path => files.contains path

def literalEnvironment (files : List Text) : Environment Unit Unit Text where
  machine := literalMachine files
  pathBuf := id
  isPresent := fun path => files.contains path
  isFile := fun path => files.contains path
  allowSourceFallback := fun _ => true
  render := fun _ _ _ _ _ => .ok ()

def literalInput (pattern : String) : InputPattern := ⟨pattern.toList, none, none⟩

def literalOutput (pattern : String) : OutputPattern :=
  ⟨pattern.toList, none, none, .permanent, .always⟩

def literalRule (name : String) (priority : Option ℕ) (inputs outputs : List String) :
    Rule Unit where
  name := name.toList
  priority := priority
  inputs := inputs.map literalInput
  outputs := outputs.map literalOutput
  wildcardConstraints := []
  when := none
  expandMode := .product
  body := ()

def literalRequest (targets existing : List String) : ResolveRequest Text where
  targets := targets.map String.toList
  config := ⟨[], []⟩
  existingFiles := existing.map String.toList

def literalJob (name : String) (inputs outputs : List String) : ConcreteJob Unit where
  id := name.toList
  rule := name.toList
  wildcards := []
  inputs := inputs.map fun input => ⟨input.toList, none, none⟩
  outputs := outputs.map fun output => (literalOutput output).resolved output.toList
  rendered := ()

end OxyMake.Resolver
