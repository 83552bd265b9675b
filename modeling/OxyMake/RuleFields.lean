import OxyMake.RuleInstances
import OxyMake.ResourceNormalization
import OxyMake.DecimalText

/-!
# Decoding the fields of a rule

A rule table is checked and decoded field by field. A timeout is a text with a
unit, an error strategy is a text or a table, a guard is a tree of tables and
the other fields are texts of a small vocabulary. Each field has a decoder of
its own. Inputs, outputs, execution and environment are decoded elsewhere, ahead
of these fields.
-/

namespace OxyMake.RuleFields

open Wildcard
open RuleInstances (ExpandMode GuardExpr)
open ResourceNormalization (trim)
open DecimalText

/-- A TOML value, with what the decoders read of it. -/
inductive Value
  | string (text : String)
  | integer (value : BitVec 64)
  | float
  | boolean
  | datetime
  | array (items : List Value)
  | table (entries : List (String × Value))

abbrev Table := List (String × Value)

def Value.asStr : Value → Option String
  | .string text => some text
  | _ => none

def Value.asInteger : Value → Option (BitVec 64)
  | .integer value => some value
  | _ => none

def Value.asArray : Value → Option (List Value)
  | .array items => some items
  | _ => none

/-- Why a rule is not decoded. -/
inductive Failure (E : Type)
  | invalidField (field reason : String)
  | other (error : E)
  /-- The arithmetic overflows in a build that checks it. -/
  | panicked
  deriving DecidableEq, Repr

variable {E : Type}

/-! ### Guards -/

def requireStr (tbl : Table) (key context : String) : Except (Failure E) String :=
  match (tbl.lookup key).bind Value.asStr with
  | some text => .ok text
  | none => .error (.invalidField (context ++ "." ++ key) ("missing or non-string '" ++ key ++ "'"))

def nonArray (key context : String) : Failure E :=
  .invalidField (context ++ "." ++ key) ("missing or non-array '" ++ key ++ "'")

/-- The strings in the array at a key of a table. -/
def requireStrArray (tbl : Table) (key context : String) : Except (Failure E) (List String) :=
  match (tbl.lookup key).bind Value.asArray with
  | some items => .ok (items.filterMap Value.asStr)
  | none => .error (nonArray key context)

section Guards

variable (debug : String → String)

mutual

/-- Decode a guard. `debug` renders a text with quotes. -/
def parseGuardExpr : Value → Except (Failure E) GuardExpr
  | .table tbl =>
    match (tbl.lookup "op").bind Value.asStr with
    | none => .error (.invalidField "when.op" "missing or non-string 'op' key")
    | some op =>
      match op with
      | "eq" => do
        let field ← requireStr tbl "field" "when"
        let value ← requireStr tbl "value" "when"
        return .eq field.toList value.toList
      | "not_eq" => do
        let field ← requireStr tbl "field" "when"
        let value ← requireStr tbl "value" "when"
        return .notEq field.toList value.toList
      | "in" => do
        let field ← requireStr tbl "field" "when"
        let values ← requireStrArray tbl "values" "when"
        return .isIn field.toList (values.map String.toList)
      | "not_in" => do
        let field ← requireStr tbl "field" "when"
        let values ← requireStrArray tbl "values" "when"
        return .notIn field.toList (values.map String.toList)
      | "regex" => do
        let field ← requireStr tbl "field" "when"
        let pattern ← requireStr tbl "pattern" "when"
        return .regex field.toList pattern.toList
      | "config_eq" => do
        let key ← requireStr tbl "key" "when"
        let value ← requireStr tbl "value" "when"
        return .configEq key.toList value.toList
      | "env_set" => do
        let var ← requireStr tbl "var" "when"
        return .envSet var.toList
      | "env_eq" => do
        let var ← requireStr tbl "var" "when"
        let value ← requireStr tbl "value" "when"
        return .envEq var.toList value.toList
      | "file_exists" => do
        let path ← requireStr tbl "path" "when"
        return .fileExists path.toList
      | "and" => do
        let conditions ← requireGuardArray "conditions" "when" tbl
        return .and conditions
      | "or" => do
        let conditions ← requireGuardArray "conditions" "when" tbl
        return .or conditions
      | "not" => do
        let condition ← requireCondition tbl
        return .not condition
      | other => .error (.invalidField "when.op" ("unknown guard op: " ++ debug other))
  | _ => .error (.invalidField "when" "expected a table with an 'op' key")

/-- The guards in the array at a key of a table. -/
def requireGuardArray (key context : String) : Table → Except (Failure E) (List GuardExpr)
  | [] => .error (nonArray key context)
  | (k, value) :: rest =>
    if k = key then
      match value with
      | .array items => parseGuardExprs items
      | _ => .error (nonArray key context)
    else requireGuardArray key context rest

/-- The guards of an array, up to the first one that is rejected. -/
def parseGuardExprs : List Value → Except (Failure E) (List GuardExpr)
  | [] => .ok []
  | value :: rest => do
    let condition ← parseGuardExpr value
    let conditions ← parseGuardExprs rest
    return condition :: conditions

def requireCondition : Table → Except (Failure E) GuardExpr
  | [] => .error (.invalidField "when.condition" "missing 'condition' for 'not' op")
  | (k, value) :: rest => if k = "condition" then parseGuardExpr value else requireCondition rest

end

end Guards

/-! ### Texts of a small vocabulary -/

def modeName : ExpandMode → String
  | .product => "product"
  | .zip => "zip"

def parseExpandMode : Option String → ExpandMode
  | some "zip" => .zip
  | _ => .product

/-- How long a job waits for its next attempt. -/
inductive Backoff
  | constant
  | linear
  | exponential
  deriving DecidableEq, Repr

def Backoff.name : Backoff → String
  | .constant => "constant"
  | .linear => "linear"
  | .exponential => "exponential"

/-- How far the outputs of a rule can be reproduced. -/
inductive ReproducibilityClass
  | deterministic
  | seedDeterministic
  | approximate
  | nonReproducible
  deriving DecidableEq, Repr

def ReproducibilityClass.name : ReproducibilityClass → String
  | .deterministic => "deterministic"
  | .seedDeterministic => "seed_deterministic"
  | .approximate => "approximate"
  | .nonReproducible => "non_reproducible"

def parseReproducibility : Option String → ReproducibilityClass
  | some "deterministic" => .deterministic
  | some "seed_deterministic" => .seedDeterministic
  | some "approximate" => .approximate
  | some "non_reproducible" => .nonReproducible
  | _ => .deterministic

/-- Platforms on which a cached output is used. -/
inductive PlatformScope
  | exact
  | any
  deriving DecidableEq, Repr

def parsePlatformScope (debug : String → String) :
    Option String → Except (Failure E) PlatformScope
  | none => .ok .exact
  | some "exact" => .ok .exact
  | some "any" => .ok .any
  | some value => .error (.invalidField "cache_platform"
      ("unknown value " ++ debug value ++ "; expected one of: exact, any"))

/-- When the outputs of a job are removed. -/
inductive CleanOutputs
  | always
  | onFailure
  | never
  deriving DecidableEq, Repr

def parseCleanOutputs (debug : String → String) : Option String → Except (Failure E) CleanOutputs
  | none => .ok .always
  | some "always" => .ok .always
  | some "on-failure" => .ok .onFailure
  | some "never" => .ok .never
  | some value => .error (.invalidField "clean_outputs"
      ("unknown value " ++ debug value ++ "; expected one of: always, on-failure, never"))

/-! ### Error strategies -/

/-- What happens after a failure. -/
inductive ErrorStrategy
  | terminate
  | retry (count : BitVec 32) (backoff : Backoff)
  | ignore
  | finish
  deriving DecidableEq, Repr

def parseBackoff : String → Backoff
  | "constant" => .constant
  | "linear" => .linear
  | _ => .exponential

def parseErrorStrategy : Option Value → Except (Failure E) ErrorStrategy
  | none => .ok .terminate
  | some (.string s) =>
    match s with
    | "terminate" => .ok .terminate
    | "ignore" => .ok .ignore
    | "finish" => .ok .finish
    | _ => .ok .terminate
  | some (.table tbl) =>
    if (tbl.lookup "jitter").isSome then
      .error (.invalidField "error_strategy.jitter"
        "the `jitter` option is not supported; remove it from your Oxymakefile")
    else
      let count := (((tbl.lookup "retry").bind Value.asInteger).getD 1).setWidth 32
      let backoff := (((tbl.lookup "backoff").bind Value.asStr).map parseBackoff).getD .exponential
      .ok (.retry count backoff)
  | some _ => .ok .terminate

/-! ### Timeouts -/

/-- Multiplication of 64-bit values, in a build that checks the arithmetic or in one that
wraps. -/
def mulU64 (checks : Bool) (a b : ℕ) : Except (Failure E) ℕ :=
  if a * b < 2 ^ 64 then .ok (a * b)
  else if checks then .error .panicked
  else .ok (a * b % 2 ^ 64)

/-- Read digits, perhaps with a plus sign, as a 64-bit value. -/
def parseU64 (text : Text) : Option ℕ :=
  (readNumeral (if text.head? = some '+' then text.tail else text)).filter (· < 2 ^ 64)

/-- Digits of a duration and the seconds of its unit. -/
def splitUnit (s : Text) : Text × ℕ :=
  if s.getLast? = some 's' then (s.dropLast, 1)
  else if s.getLast? = some 'm' then (s.dropLast, 60)
  else if s.getLast? = some 'h' then (s.dropLast, 3600)
  else if s.getLast? = some 'd' then (s.dropLast, 86400)
  else (s, 1)

def parseDuration (checks : Bool) (s : Text) : Except (Failure E) (Option ℕ) :=
  let s := trim s
  if s = [] then .ok none
  else
    match parseU64 (splitUnit s).1 with
    | none => .ok none
    | some num => (mulU64 checks num (splitUnit s).2).map some

/-! ### Rules -/

/-- A rule as it is deserialized. -/
structure RawRule (B : Type) where
  /-- Backend, which is not a choice of the rule. -/
  executor : Option String
  expand : Option String
  retries : Option (BitVec 32)
  errorStrategy : Option Value
  timeout : Option String
  when : Option Value
  cachePlatform : Option String
  reproducibility : Option String
  cleanOutputs : Option String
  body : B

structure Rule (R : Type) where
  executor : Option String
  expandMode : ExpandMode
  errorStrategy : ErrorStrategy
  retries : Option (BitVec 32)
  timeout : Option ℕ
  when : Option GuardExpr
  platformScope : PlatformScope
  reproducibility : ReproducibilityClass
  cleanOutputs : CleanOutputs
  body : R

variable {B R : Type}

/-- What the decoders are given besides the table. -/
structure Decoders (B R E : Type) where
  checks : Bool
  debug : String → String
  /-- The inputs, outputs, execution, resources, environment and variables of the rule with a
  name. -/
  body : String → B → Except E R

def checkExecutor (debug : String → String) (name : String) :
    Option String → Except (Failure E) Unit
  | none => .ok ()
  | some value =>
    if value = "local" then .ok ()
    else .error (.invalidField ("rule." ++ name ++ ".executor")
      ("unsupported value " ++ debug value ++ "; accepted value: \"local\". Choosing a backend " ++
        "is a property of the run (ox run --executor), not of a rule"))

/-- The strategy of a rule. The number of attempts counts where no strategy is given. -/
def chooseStrategy (retries : Option (BitVec 32)) (errorStrategy : Option Value) :
    Except (Failure E) ErrorStrategy :=
  match retries with
  | some n =>
    if errorStrategy.isSome then parseErrorStrategy errorStrategy
    else .ok (.retry n .exponential)
  | none => parseErrorStrategy errorStrategy

def mapTranspose {α β : Type} (f : α → Except (Failure E) β) :
    Option α → Except (Failure E) (Option β)
  | none => .ok none
  | some a => (f a).map some

def parseRule (d : Decoders B R E) (name : String) (raw : RawRule B) :
    Except (Failure E) (Rule R) := do
  checkExecutor d.debug name raw.executor
  let body ← (d.body name raw.body).mapError Failure.other
  let expandMode := parseExpandMode raw.expand
  let errorStrategy ← chooseStrategy raw.retries raw.errorStrategy
  let timeout ← mapTranspose (fun s => parseDuration d.checks s.toList) raw.timeout
  let when ← mapTranspose (parseGuardExpr d.debug) raw.when
  let platformScope ← parsePlatformScope d.debug raw.cachePlatform
  let reproducibility := parseReproducibility raw.reproducibility
  if platformScope = .any ∧ reproducibility = .nonReproducible then
    .error (.invalidField "cache_platform"
      "value \"any\" cannot be combined with reproducibility = \"non_reproducible\"")
  else do
    let cleanOutputs ← parseCleanOutputs d.debug raw.cleanOutputs
    return { executor := raw.executor, expandMode := expandMode, errorStrategy := errorStrategy,
             retries := raw.retries, timeout := timeout.join, when := when,
             platformScope := platformScope, reproducibility := reproducibility,
             cleanOutputs := cleanOutputs, body := body }

end OxyMake.RuleFields
