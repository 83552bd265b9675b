import OxyMake.LinkedTree
import OxyMake.KeyedTable
import OxyMake.RuleFields
import Mathlib.Data.String.Basic

/-!
# Included files

A workflow file names other files to include. A first traversal reads the files,
checks their schema and collects their texts; a second one parses the collected
texts and merges what the files define. Both keep a stack of the files that are
being traversed, by canonical path, and they spell the paths of the included
files in their own ways.
-/

namespace OxyMake.IncludeGraph

open Wildcard LinkedTree
open RuleFields (Value)
open RuleFields renaming Table → TomlTable

/-! ### Paths -/

instance lawfulBEq_path : LawfulBEq (Path Text) := inferInstance

/-- The component that a part of a path stands for. -/
def component (part : Text) : Option (Component Text) :=
  if part = [] ∨ part = ['.'] then none
  else if part = ['.', '.'] then some .parentDir
  else some (.normal part)

def components (s : Text) : Path Text :=
  match s.splitOn '/' with
  | [] => []
  | first :: rest =>
    (if first = [] then if s = [] then [] else [.rootDir]
      else if first = ['.'] then [.curDir]
      else (component first).toList) ++ rest.filterMap component

def expandTilde (home : Option Text) (s : Text) : Text :=
  if s = ['~'] then home.getD s
  else
    match s with
    | '~' :: '/' :: rest =>
      match home with
      | some home => home ++ '/' :: rest
      | none => s
    | _ => s

def join (base path : Path Text) : Path Text :=
  if isAbsolute path then path
  else if base = [] then path
  else base ++ path.filter (· ≠ .curDir)

/-- Where the first traversal looks for the included files of a file. -/
def collectBase (path : Path Text) : Path Text := (parent path).getD [.curDir]

/-- Where the second traversal looks for the included files of a file. -/
def expandBase (path : Path Text) : Path Text :=
  match parent path with
  | none => [.curDir]
  | some base => if base = [] then [.curDir] else base

/-! ### Files -/

/-- Types of what the traversals only pass on. -/
structure Kinds where
  Value : Type
  /-- The fields of a rule besides its name and its environment variables. -/
  Body : Type
  Gate : Type
  Profile : Type
  Executor : Type
  Class : Type
  Warning : Type

structure Env where
  entries : List (String × String)
  sorted : SortedMap.Sorted entries

def Env.get (env : Env) (name : String) : Option String := env.entries.lookup name

def Env.extend (env others : Env) : Env :=
  ⟨SortedMap.extend env.entries others.entries, env.sorted.extend others.entries⟩

structure Rule (K : Kinds) where
  name : String
  env : Env
  body : K.Body

structure Own (K : Kinds) where
  config : List (String × K.Value)
  rules : List (Rule K)
  nodup_names : (rules.map Rule.name).Nodup
  globalEnv : Env
  gates : List K.Gate
  profiles : List K.Profile
  executor : K.Executor
  resourceClasses : List (String × K.Class)
  /-- Class of a rule, by the name of the rule. -/
  ruleResourceClasses : List (String × String)
  warnings : List K.Warning

structure Workflow (K : Kinds) where
  config : List (String × K.Value)
  rules : List (Rule K)
  /-- Environment variables of the rules of the file and its included files. -/
  globalEnv : Env
  gates : List K.Gate
  profiles : List K.Profile
  executor : K.Executor
  resourceClasses : List (String × K.Class)
  resourceClassOrigins : List (String × Path Text)
  /-- Class of a rule, by the name of the rule. -/
  ruleResourceClasses : List (String × String)
  warnings : List K.Warning

/-- Why a workflow is rejected. -/
inductive ParseError (E : Type)
  | includeNotFound (path : Path Text)
  | circularInclude (chain : List (Path Text))
  | toml (file : Path Text) (message : String)
  | invalidField (field reason : String)
  | duplicateRule (name : String) (first second : Path Text)
  | duplicateResourceClass (name : String) (first second : Path Text)
  | other (error : E)

/-- What the traversals are given. -/
structure World (T E : Type) (K : Kinds) where
  fs : FileSystem Text
  files : List (Location Text)
  mem_files : ∀ loc, fs.node loc = some .file → loc ∈ files
  /-- The text of a file that can be read. -/
  text : Location Text → Option T
  home : Option Text
  /-- The entries of a TOML document, or a message. -/
  toml : T → Except String TomlTable
  check : TomlTable → Path Text → Except E Unit
  /-- What a file defines, with its configuration sources read and the rules parsed. -/
  own : Path Text → TomlTable → Except E (Own K)
  /-- The configuration of the executors where there is none. -/
  isDefault : K.Executor → Bool
  display : Path Text → String

variable {T E : Type} {K : Kinds}

namespace World

variable (w : World T E K)

def read (path : Path Text) : Option T :=
  if path = [] then none
  else
    match w.fs.resolve path with
    | .error _ => none
    | .ok loc => if w.fs.node loc = some .file then w.text loc else none

/-- The canonical path, or the path itself where there is none. -/
def canonId (path : Path Text) : Path Text :=
  match w.fs.canonicalize path with
  | .ok canonical => canonical
  | .error _ => path

/-- The path of an included file, as it is written. -/
def includePath (item : String) : Path Text := components (expandTilde w.home item.toList)

/-! ### Collecting the texts -/

abbrev Sources (T : Type) := KeyedTable.Table (Path Text) T

def includeItems (path : Path Text) (table : TomlTable) : Except (ParseError E) (List Value) :=
  match table.lookup "include" with
  | none => .ok []
  | some value =>
    match value.asArray with
    | some items => .ok items
    | none => .error (.toml path "include must be an array of paths")

/-- Visit the included files one after another. `child` visits a file with a path and a text.
There is no outcome where the fuel of a visit has run out. -/
def visitIncludes
    (child : Path Text → T → Sources T → Option (Except (ParseError E) (Sources T)))
    (path : Path Text) : List Value → Sources T → Option (Except (ParseError E) (Sources T))
  | [], sources => some (.ok sources)
  | item :: rest, sources =>
    match item.asStr with
    | none => some (.error (.toml path "include must contain string paths"))
    | some inc =>
      let childPath := join (collectBase path) (w.includePath inc)
      match w.read childPath with
      | none => some (.error (.includeNotFound childPath))
      | some text =>
        match child childPath text sources with
        | some (.ok sources) => visitIncludes child path rest sources
        | outcome => outcome

/-- Visit a file while the files of the stack are being visited. -/
def visit : ℕ → List (Path Text) → Path Text → T → Sources T →
    Option (Except (ParseError E) (Sources T))
  | 0, _, _, _, _ => none
  | n + 1, active, path, content, sources =>
    let id := w.canonId path
    if id ∈ active then some (.error (.circularInclude (active ++ [id])))
    else
      let content := (sources.get id).getD content
      match w.toml content with
      | .error message => some (.error (.toml path message))
      | .ok table =>
        match w.check table path with
        | .error e => some (.error (.other e))
        | .ok () =>
          match includeItems path table with
          | .error e => some (.error e)
          | .ok items =>
            match w.visitIncludes (visit n (active ++ [id])) path items sources with
            | some (.ok sources) => some (.ok (sources.put id content))
            | outcome => outcome

/-- Collect the texts of a file and the files it includes. -/
def collectSources (fuel : ℕ) (content : T) (path : Path Text) :
    Option (Except (ParseError E) (Sources T)) :=
  w.visit fuel [] path content .empty

/-! ### Merging what the files define -/

/-- The includes of a file as they are deserialized. -/
def rawIncludes (table : TomlTable) : Except String (List String) :=
  match table.lookup "include" with
  | none => .ok []
  | some (.array items) =>
    match items.mapM Value.asStr with
    | some includes => .ok includes
    | none => .error "invalid type, expected a string"
  | some _ => .error "invalid type, expected a sequence"

def addRules (globalEnv : Env) (filePath incPath : Path Text) :
    List (Rule K) → List (Rule K) → Except (ParseError E) (List (Rule K))
  | [], rules => .ok rules
  | rule :: rest, rules =>
    if rules.any (·.name = rule.name) then .error (.duplicateRule rule.name filePath incPath)
    else addRules globalEnv filePath incPath rest
      (rules ++ [{ rule with env := globalEnv.extend rule.env }])

/-- Add the resource classes of an included file, with the files that define them. -/
def addClasses (incPath : Path Text) (incOrigins : List (String × Path Text)) :
    List (String × K.Class) → List (String × K.Class) × List (String × Path Text) →
      Except (ParseError E) (List (String × K.Class) × List (String × Path Text))
  | [], acc => .ok acc
  | (name, resources) :: rest, (classes, origins) =>
    let second := (incOrigins.lookup name).getD incPath
    match origins.lookup name with
    | some first => .error (.duplicateResourceClass name first second)
    | none => addClasses incPath incOrigins rest
        (SortedMap.insert name resources classes, SortedMap.insert name second origins)

/-- Merge an included workflow into the one that includes it. -/
def merge (filePath incPath : Path Text) (workflow inc : Workflow K) :
    Except (ParseError E) (Workflow K) :=
  if inc.profiles.isEmpty = false then
    .error (.invalidField "include" ("included file " ++ w.display incPath ++
      " defines [profile.*] — profiles are only allowed in the root Oxymakefile"))
  else if w.isDefault inc.executor = false then
    .error (.invalidField "include" ("included file " ++ w.display incPath ++
      " defines [executor.*] — executor config is only allowed in the root Oxymakefile"))
  else do
    let rules ← addRules workflow.globalEnv filePath incPath inc.rules workflow.rules
    let classes ← addClasses incPath inc.resourceClassOrigins inc.resourceClasses
      (workflow.resourceClasses, workflow.resourceClassOrigins)
    return { workflow with
      warnings := workflow.warnings ++ inc.warnings
      rules := rules
      config := SortedMap.fill workflow.config inc.config
      resourceClasses := classes.1
      resourceClassOrigins := classes.2
      ruleResourceClasses :=
        SortedMap.extend workflow.ruleResourceClasses inc.ruleResourceClasses
      gates := workflow.gates ++ inc.gates }

/-- The workflow of a file without its included files. -/
def ownWorkflow (path : Path Text) (own : Own K) : Workflow K where
  config := own.config
  rules := own.rules.map fun rule => { rule with env := own.globalEnv.extend rule.env }
  globalEnv := own.globalEnv
  gates := own.gates
  profiles := own.profiles
  executor := own.executor
  resourceClasses := own.resourceClasses
  resourceClassOrigins := own.resourceClasses.map fun e => (e.1, path)
  ruleResourceClasses := own.ruleResourceClasses
  warnings := own.warnings

/-- Merge the included files one after another. `child` parses a file under a stack. -/
def expandIncludes
    (child : List (Path Text) → Path Text → T → Option (Except (ParseError E) (Workflow K)))
    (sources : Sources T) (visited : List (Path Text)) (filePath : Path Text) :
    List String → Workflow K → Option (Except (ParseError E) (Workflow K))
  | [], workflow => some (.ok workflow)
  | inc :: rest, workflow =>
    let incPath := join (expandBase filePath) (w.includePath inc)
    match w.fs.canonicalize incPath with
    | .error _ => some (.error (.includeNotFound incPath))
    | .ok canon =>
      if canon ∈ visited then some (.error (.circularInclude (visited ++ [canon])))
      else
        match sources.get canon with
        | none => some (.error (.includeNotFound incPath))
        | some content =>
          match child (visited ++ [canon]) incPath content with
          | some (.ok incWorkflow) =>
            match w.merge filePath incPath workflow incWorkflow with
            | .error e => some (.error e)
            | .ok workflow => expandIncludes child sources visited filePath rest workflow
          | outcome => outcome

def parseWorkflowInner (sources : Sources T) : ℕ → List (Path Text) → Path Text → T →
    Option (Except (ParseError E) (Workflow K))
  | 0, _, _, _ => none
  | n + 1, visited, path, content =>
    match w.toml content with
    | .error message => some (.error (.toml path message))
    | .ok table =>
      match rawIncludes table with
      | .error message => some (.error (.toml path message))
      | .ok includes =>
        match w.own path table with
        | .error e => some (.error (.other e))
        | .ok own =>
          w.expandIncludes (parseWorkflowInner sources n) sources visited path includes
            (ownWorkflow path own)

def parseSources (fuel : ℕ) (content : T) (path : Path Text) (sources : Sources T) :
    Option (Except (ParseError E) (Workflow K)) :=
  w.parseWorkflowInner sources fuel [w.canonId path] path content

end World

end OxyMake.IncludeGraph
