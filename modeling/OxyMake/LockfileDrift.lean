import Mathlib.Data.String.Basic
import OxyMake.JobCacheKey
import OxyMake.SortedMap

/-!
# The lockfile and its drift

A lockfile records the hash of the workflow file, the platform, every rule, every
environment and the hashes of the inputs. Verification compares the hash, the
platform, the execution and parameters of every rule and the inputs with the
present; environments and patterns are recorded but not compared. A report is
clean exactly if what is compared has not changed.
-/

namespace OxyMake.LockfileDrift

open List Option
open CacheKey CacheStore JobCacheKey
open SortedMap (Sorted)

structure PlatformInfo where
  os : String
  arch : String
  deriving DecidableEq, Repr

/-- What a lockfile holds for a rule. -/
structure LockedRule where
  executionHash : Str
  environment : Option String
  inputs : List String
  outputs : List String
  paramsHash : Option Str
  deriving DecidableEq

/-- What a lockfile holds for an environment. -/
structure LockedEnvironment where
  kind : String
  specHash : Option Str
  image : Option String
  flake : Option String
  deriving DecidableEq

/-- A lockfile; its tables are sorted by key. -/
structure Lockfile where
  schemaVersion : ℕ
  createdAt : ℕ
  oxymakefileHash : Str
  platform : PlatformInfo
  rules : List (String × LockedRule)
  environments : List (String × LockedEnvironment)
  inputs : List (String × Str)
  deriving DecidableEq

/-- What is locked of a rule. -/
structure Rule where
  name : String
  inputs : List String
  outputs : List String
  execution : ExecutionBlock
  environment : Option EnvSpec
  params : List (String × String)

/-- What is given when a lockfile is written or verified. -/
structure Workflow where
  oxymakefileHash : Str
  rules : List Rule
  inputFileHashes : List (String × Str)
  sorted : Sorted inputFileHashes

/-- The machine at a time. -/
structure Machine where
  platform : PlatformInfo
  files : Files

inductive LockError
  | io
  | tomlSerialize (message : String)
  | tomlParse (message : String)
  | notFound (path : String)
  deriving DecidableEq, Repr

structure Toml where
  toStringPretty : Lockfile → Except String String
  fromStr : String → Except String Lockfile

def schemaVersion : ℕ := 2

section Writer

variable (host : Host) (machine : Machine)

/-- Hash of the execution block, with the content of a script. -/
def hashExecutionBlock (rule : Rule) : Str :=
  let serialized := updateField "execution" (host.executionSource rule.execution).bytes
  match rule.execution with
  | .script path _ =>
    host.blake3 (serialized ++ updateOptField "script_content" (readFile machine.files path))
  | _ => host.blake3 serialized

def hashRuleParams (rule : Rule) : Option Str :=
  if rule.params.isEmpty then none else some (hashKvMap host rule.params)

def envSpecLabel : EnvSpec → String
  | .system => "system"
  | .uv project requirements =>
    match requirements <|> project with
    | some req => "uv:" ++ req
    | none => "uv"
  | .conda env => "conda:" ++ env
  | .docker image => "docker:" ++ image
  | .nix expr => "nix:" ++ expr
  | .apptainer image => "apptainer:" ++ image

def specHash (path : String) : Option Str := (readFile machine.files path).map host.blake3

def lockEnvironment : EnvSpec → LockedEnvironment
  | .system => ⟨"system", none, none, none⟩
  | .uv project requirements =>
    ⟨"uv", (requirements <|> project).bind (specHash host machine), none, none⟩
  | .conda env => ⟨"conda", specHash host machine env, none, none⟩
  | .docker image => ⟨"docker", none, some image, none⟩
  | .nix expr => ⟨"nix", specHash host machine expr, none, some expr⟩
  | .apptainer image => ⟨"apptainer", none, some image, none⟩

def lockedRule (rule : Rule) : LockedRule where
  executionHash := hashExecutionBlock host machine rule
  environment := rule.environment.map envSpecLabel
  inputs := rule.inputs
  outputs := rule.outputs
  paramsHash := hashRuleParams host rule

/-- Register the environment of a rule, if its label is not there yet. -/
def registerEnvironment (environments : List (String × LockedEnvironment)) (rule : Rule) :
    List (String × LockedEnvironment) :=
  match rule.environment with
  | some env =>
    if (environments.lookup (envSpecLabel env)).isSome then environments
    else SortedMap.insert (envSpecLabel env) (lockEnvironment host machine env) environments
  | none => environments

def lockRule (lockfile : Lockfile) (rule : Rule) : Lockfile :=
  { lockfile with
    environments := registerEnvironment host machine lockfile.environments rule
    rules := SortedMap.insert rule.name (lockedRule host machine rule) lockfile.rules }

def newLockfile (now : ℕ) (oxymakefileHash : Str) : Lockfile :=
  ⟨schemaVersion, now, oxymakefileHash, machine.platform, [], [], []⟩

def lock (now : ℕ) (workflow : Workflow) : Lockfile :=
  { workflow.rules.foldl (lockRule host machine) (newLockfile machine now workflow.oxymakefileHash)
    with inputs := workflow.inputFileHashes }

/-- Write a lockfile: the lockfile, and the bytes stored at its path. The file system may
refuse. -/
def writeLockfile (toml : Toml) (now : ℕ) (workflow : Workflow) (stores : Bool) :
    Except LockError (Lockfile × List Byte) :=
  let lockfile := lock host machine now workflow
  match toml.toStringPretty lockfile with
  | .error message => .error (.tomlSerialize message)
  | .ok text => if stores then .ok (lockfile, utf8 text) else .error .io

def fromUtf8 (bytes : List Byte) : Option String :=
  String.fromUTF8? (bytes.map UInt8.ofFin).toByteArray

def readLockfile (toml : Toml) (path : String) : Except LockError Lockfile :=
  match machine.files path with
  | none => .error (.notFound path)
  | some node =>
    match node.content.bind fromUtf8 with
    | none => .error .io
    | some text =>
      match toml.fromStr text with
      | .error message => .error (.tomlParse message)
      | .ok lockfile => .ok lockfile

end Writer

inductive DriftKind
  | oxymakefileChanged
  | platformChanged
  | ruleAdded
  | ruleRemoved
  | ruleExecutionChanged
  | ruleParamsChanged
  | ruleEnvironmentChanged
  | inputChanged
  | inputAdded
  | inputRemoved
  deriving DecidableEq, Repr

structure Drift where
  kind : DriftKind
  message : String
  deriving DecidableEq, Repr

abbrev DriftReport := List Drift

def DriftReport.isClean (report : DriftReport) : Bool := report.isEmpty

section Verification

variable (host : Host) (machine : Machine)

def hashPrefix (hash : Str) : String :=
  .ofList ((hash.bytes.take 16).map fun b => Char.ofNat b.val)

/-- Rules by name, a later one in the place of an earlier one of the same name. -/
def currentRules (rules : List Rule) : List (String × Rule) :=
  SortedMap.extend [] (rules.map fun rule => (rule.name, rule))

def ruleDrift (locked : Lockfile) (name : String) (rule : Rule) : List Drift :=
  match locked.rules.lookup name with
  | none => [⟨.ruleAdded, "Rule added: " ++ name⟩]
  | some lockedRule =>
    (if lockedRule.executionHash = hashExecutionBlock host machine rule then []
      else [⟨.ruleExecutionChanged, "Rule '" ++ name ++ "' execution changed"⟩]) ++
    (if lockedRule.paramsHash = hashRuleParams host rule then []
      else [⟨.ruleParamsChanged, "Rule '" ++ name ++ "' parameters changed"⟩])

def inputDrift (current : List (String × Str)) (path : String) (hash : Str) : List Drift :=
  match current.lookup path with
  | none => [⟨.inputRemoved, "Input removed: " ++ path⟩]
  | some currentHash =>
    if hash = currentHash then [] else [⟨.inputChanged, "Input changed: " ++ path⟩]

def oxymakefileDrift (locked current : Str) : List Drift :=
  if locked = current then []
  else [⟨.oxymakefileChanged, "Oxymakefile changed: locked=" ++ hashPrefix locked ++
    " current=" ++ hashPrefix current⟩]

def platformDrift (locked current : PlatformInfo) : List Drift :=
  if locked.os ≠ current.os ∨ locked.arch ≠ current.arch then
    [⟨.platformChanged, "Platform changed: locked=" ++ locked.os ++ "/" ++ locked.arch ++
      " current=" ++ current.os ++ "/" ++ current.arch⟩]
  else []

def compare (locked : Lockfile) (workflow : Workflow) : DriftReport :=
  let current := currentRules workflow.rules
  oxymakefileDrift locked.oxymakefileHash workflow.oxymakefileHash ++
  platformDrift locked.platform machine.platform ++
  (locked.rules.flatMap fun e =>
    if (current.lookup e.1).isSome then []
    else [⟨.ruleRemoved, "Rule removed: " ++ e.1⟩]) ++
  (current.flatMap fun e => ruleDrift host machine locked e.1 e.2) ++
  (locked.inputs.flatMap fun e => inputDrift workflow.inputFileHashes e.1 e.2) ++
  (workflow.inputFileHashes.flatMap fun e =>
    if (locked.inputs.lookup e.1).isSome then []
    else [⟨.inputAdded, "Input added: " ++ e.1⟩])

def verifyLockfile (toml : Toml) (path : String) (workflow : Workflow) :
    Except LockError DriftReport :=
  (readLockfile machine toml path).map fun locked => compare host machine locked workflow

end Verification

/-! ### What is compared and what is not -/

def LockedRule.checked (rule : LockedRule) : Str × Option Str :=
  (rule.executionHash, rule.paramsHash)

/-- What verification does not compare of a rule: the label and the patterns. -/
def LockedRule.unchecked (rule : LockedRule) : Option String × List String × List String :=
  (rule.environment, rule.inputs, rule.outputs)

/-- What verification compares is the same in two lockfiles. -/
structure SameChecked (locked now : Lockfile) : Prop where
  oxymakefileHash : locked.oxymakefileHash = now.oxymakefileHash
  platform : locked.platform = now.platform
  /-- The rules, and how they do their work. -/
  rules : ∀ name, (locked.rules.lookup name).map LockedRule.checked =
    (now.rules.lookup name).map LockedRule.checked
  inputs : locked.inputs = now.inputs

/-- What verification does not compare is the same in two lockfiles. -/
structure SameUnchecked (locked now : Lockfile) : Prop where
  environments : locked.environments = now.environments
  /-- Labels and patterns of the rules. -/
  rules : ∀ name, (locked.rules.lookup name).map LockedRule.unchecked =
    (now.rules.lookup name).map LockedRule.unchecked

/-- Every fact recorded in one lockfile is in the other. -/
structure SameFacts (locked now : Lockfile) : Prop where
  oxymakefileHash : locked.oxymakefileHash = now.oxymakefileHash
  platform : locked.platform = now.platform
  rules : locked.rules = now.rules
  environments : locked.environments = now.environments
  inputs : locked.inputs = now.inputs

theorem LockedRule.ext_parts {a b : LockedRule} (hchecked : a.checked = b.checked)
    (hunchecked : a.unchecked = b.unchecked) : a = b := by
  cases a
  cases b
  simp only [LockedRule.checked, LockedRule.unchecked, Prod.mk.injEq] at hchecked hunchecked
  simp only [LockedRule.mk.injEq]
  tauto

theorem sameFacts_iff {locked now : Lockfile} (hlocked : Sorted locked.rules)
    (hnow : Sorted now.rules) :
    SameFacts locked now ↔ SameChecked locked now ∧ SameUnchecked locked now := by
  constructor
  · intro h
    have hrules := h.rules
    refine ⟨⟨h.oxymakefileHash, h.platform, fun name => ?_, h.inputs⟩,
      ⟨h.environments, fun name => ?_⟩⟩
    · rw [hrules]
    · rw [hrules]
  · rintro ⟨hchecked, hunchecked⟩
    refine ⟨hchecked.oxymakefileHash, hchecked.platform, ?_, hunchecked.environments,
      hchecked.inputs⟩
    refine hlocked.ext_lookup hnow fun name => ?_
    have hfirst := hchecked.rules name
    have hsecond := hunchecked.rules name
    cases ha : locked.rules.lookup name with
    | none =>
      rw [ha] at hfirst
      exact (map_eq_none_iff.mp hfirst.symm).symm
    | some =>
      cases hb : now.rules.lookup name with
      | none =>
        rw [ha, hb] at hfirst
        cases hfirst
      | some =>
        rw [ha, hb] at hfirst hsecond
        exact congrArg some (LockedRule.ext_parts (Option.some.inj hfirst)
          (Option.some.inj hsecond))

section Locking

variable (host : Host) (machine : Machine)

theorem sorted_registerEnvironment {environments : List (String × LockedEnvironment)}
    (h : Sorted environments) (rule : Rule) :
    Sorted (registerEnvironment host machine environments rule) := by
  unfold registerEnvironment
  cases rule.environment with
  | none => exact h
  | some =>
    dsimp only
    split
    · exact h
    · exact h.insert _ _

theorem sorted_foldl_lockRule (rules : List Rule) (lockfile : Lockfile)
    (hrules : Sorted lockfile.rules) (henvironments : Sorted lockfile.environments) :
    Sorted (rules.foldl (lockRule host machine) lockfile).rules ∧
      Sorted (rules.foldl (lockRule host machine) lockfile).environments := by
  induction rules generalizing lockfile with
  | nil => exact ⟨hrules, henvironments⟩
  | cons rule rules ih =>
    exact ih (lockRule host machine lockfile rule) (hrules.insert _ _)
      (sorted_registerEnvironment host machine henvironments rule)

theorem foldl_lockRule_frame (rules : List Rule) (lockfile : Lockfile) :
    (rules.foldl (lockRule host machine) lockfile).oxymakefileHash = lockfile.oxymakefileHash ∧
      (rules.foldl (lockRule host machine) lockfile).platform = lockfile.platform := by
  induction rules generalizing lockfile with
  | nil => exact ⟨rfl, rfl⟩
  | cons rule rules ih => exact ih (lockRule host machine lockfile rule)

theorem lookup_foldl_lockRule (rules : List Rule) (lockfile : Lockfile)
    (m : List (String × Rule))
    (h : ∀ name, lockfile.rules.lookup name = (m.lookup name).map (lockedRule host machine))
    (name : String) :
    (rules.foldl (lockRule host machine) lockfile).rules.lookup name =
      ((SortedMap.extend m (rules.map fun rule => (rule.name, rule))).lookup name).map
        (lockedRule host machine) := by
  induction rules generalizing lockfile m with
  | nil => exact h name
  | cons rule rules ih =>
    rw [foldl_cons, map_cons]
    refine ih (lockRule host machine lockfile rule) (SortedMap.insert rule.name rule m)
      fun other => ?_
    have hlocked : (lockRule host machine lockfile rule).rules.lookup other =
        if other = rule.name then some (lockedRule host machine rule)
        else lockfile.rules.lookup other := SortedMap.lookup_insert _ _ _ _
    rw [hlocked, SortedMap.lookup_insert]
    by_cases hname : other = rule.name
    · rw [if_pos hname, if_pos hname]
      rfl
    · rw [if_neg hname, if_neg hname]
      exact h other

theorem sorted_lock (now : ℕ) (workflow : Workflow) :
    Sorted (lock host machine now workflow).rules ∧
      Sorted (lock host machine now workflow).environments :=
  sorted_foldl_lockRule host machine workflow.rules
    (newLockfile machine now workflow.oxymakefileHash) List.Pairwise.nil List.Pairwise.nil

theorem lookup_lock (now : ℕ) (workflow : Workflow) (name : String) :
    (lock host machine now workflow).rules.lookup name =
      ((currentRules workflow.rules).lookup name).map (lockedRule host machine) :=
  lookup_foldl_lockRule host machine workflow.rules
    (newLockfile machine now workflow.oxymakefileHash) [] (fun _ => rfl) name

theorem lock_frame (now : ℕ) (workflow : Workflow) :
    (lock host machine now workflow).oxymakefileHash = workflow.oxymakefileHash ∧
      (lock host machine now workflow).platform = machine.platform :=
  foldl_lockRule_frame host machine workflow.rules
    (newLockfile machine now workflow.oxymakefileHash)

end Locking

section Comparing

variable (host : Host) (machine : Machine)

theorem oxymakefileDrift_eq_nil (locked current : Str) :
    oxymakefileDrift locked current = [] ↔ locked = current := by
  unfold oxymakefileDrift
  by_cases h : locked = current
  · rw [if_pos h]
    exact iff_of_true rfl h
  · rw [if_neg h]
    exact iff_of_false (cons_ne_nil _ _) h

theorem platformDrift_eq_nil (locked current : PlatformInfo) :
    platformDrift locked current = [] ↔ locked = current := by
  have heq : locked = current ↔ locked.os = current.os ∧ locked.arch = current.arch := by
    cases locked
    cases current
    rw [PlatformInfo.mk.injEq]
  unfold platformDrift
  rw [heq]
  by_cases h : locked.os = current.os ∧ locked.arch = current.arch
  · rw [if_neg (by tauto)]
    exact iff_of_true rfl h
  · rw [if_pos (by tauto)]
    exact iff_of_false (cons_ne_nil _ _) h

theorem ruleDrift_eq_nil (locked : Lockfile) (name : String) (rule : Rule) :
    ruleDrift host machine locked name rule = [] ↔
      (locked.rules.lookup name).map LockedRule.checked =
        some (lockedRule host machine rule).checked := by
  unfold ruleDrift
  cases locked.rules.lookup name with
  | none => exact iff_of_false (cons_ne_nil _ _) (by simp)
  | some old =>
    dsimp only
    rw [append_eq_nil_iff, map_some, Option.some.injEq, LockedRule.checked,
      LockedRule.checked, Prod.mk.injEq]
    dsimp only [lockedRule]
    refine and_congr ?_ ?_
    · by_cases h : old.executionHash = hashExecutionBlock host machine rule
      · rw [if_pos h]
        exact iff_of_true rfl h
      · rw [if_neg h]
        exact iff_of_false (cons_ne_nil _ _) h
    · by_cases h : old.paramsHash = hashRuleParams host rule
      · rw [if_pos h]
        exact iff_of_true rfl h
      · rw [if_neg h]
        exact iff_of_false (cons_ne_nil _ _) h

theorem inputDrift_eq_nil (current : List (String × Str)) (path : String) (hash : Str) :
    inputDrift current path hash = [] ↔ current.lookup path = some hash := by
  unfold inputDrift
  cases current.lookup path with
  | none => exact iff_of_false (cons_ne_nil _ _) (by simp)
  | some currentHash =>
    dsimp only
    rw [Option.some.injEq, eq_comm (a := currentHash)]
    by_cases h : hash = currentHash
    · rw [if_pos h]
      exact iff_of_true rfl h
    · rw [if_neg h]
      exact iff_of_false (cons_ne_nil _ _) h

theorem unless_eq_nil (found : Bool) (drift : Drift) :
    (if found = true then [] else [drift]) = [] ↔ found = true := by
  by_cases h : found = true
  · rw [if_pos h]
    exact iff_of_true rfl h
  · rw [if_neg h]
    exact iff_of_false (cons_ne_nil _ _) h

theorem eq_iff_lookups {V : Type} {m m' : List (String × V)} (h : Sorted m) (h' : Sorted m') :
    m = m' ↔ (∀ e ∈ m, m'.lookup e.1 = some e.2) ∧
      ∀ e ∈ m', (m.lookup e.1).isSome = true := by
  constructor
  · rintro rfl
    refine ⟨fun e he => (h.mem_iff_lookup e).mp he, fun e he => ?_⟩
    rw [(h.mem_iff_lookup e).mp he]
    rfl
  · rintro ⟨hentries, hkeys⟩
    refine h.ext_lookup h' fun key => ?_
    cases hkey : m.lookup key with
    | some v => exact (hentries (key, v) ((h.mem_iff_lookup (key, v)).mpr hkey)).symm
    | none =>
      cases hkey' : m'.lookup key with
      | none => rfl
      | some v =>
        have hsome := hkeys (key, v) ((h'.mem_iff_lookup (key, v)).mpr hkey')
        rw [hkey] at hsome
        cases hsome

theorem sorted_currentRules (rules : List Rule) : Sorted (currentRules rules) :=
  Sorted.extend (m := []) List.Pairwise.nil _

theorem rules_unreported_iff {locked : Lockfile} (hlocked : Sorted locked.rules)
    (rules : List Rule) :
    ((∀ e ∈ locked.rules, ((currentRules rules).lookup e.1).isSome = true) ∧
        ∀ e ∈ currentRules rules, ruleDrift host machine locked e.1 e.2 = []) ↔
      ∀ name, (locked.rules.lookup name).map LockedRule.checked =
        (((currentRules rules).lookup name).map (lockedRule host machine)).map
          LockedRule.checked := by
  have hcurrent := sorted_currentRules rules
  constructor
  · rintro ⟨hremoved, hchanged⟩ name
    cases hname : (currentRules rules).lookup name with
    | some rule =>
      have hmem := (hcurrent.mem_iff_lookup (name, rule)).mpr hname
      exact (ruleDrift_eq_nil host machine locked name rule).mp (hchanged (name, rule) hmem)
    | none =>
      cases hold : locked.rules.lookup name with
      | none => rfl
      | some old =>
        have hmem := (hlocked.mem_iff_lookup (name, old)).mpr hold
        have hsome := hremoved (name, old) hmem
        rw [hname] at hsome
        cases hsome
  · intro hsame
    constructor
    · intro e he
      have hname := hsame e.1
      rw [(hlocked.mem_iff_lookup e).mp he] at hname
      cases hnow : (currentRules rules).lookup e.1 with
      | none =>
        rw [hnow] at hname
        cases hname
      | some => rfl
    · intro e he
      have hname := hsame e.1
      rw [(hcurrent.mem_iff_lookup e).mp he] at hname
      exact (ruleDrift_eq_nil host machine locked e.1 e.2).mpr hname

theorem compare_isClean_iff {locked : Lockfile} (hrules : Sorted locked.rules)
    (hinputs : Sorted locked.inputs) (workflow : Workflow) (now : ℕ) :
    DriftReport.isClean (compare host machine locked workflow) = true ↔
      SameChecked locked (lock host machine now workflow) := by
  have hframe := lock_frame host machine now workflow
  have hinput := eq_iff_lookups hinputs workflow.sorted
  have hrule := rules_unreported_iff host machine hrules workflow.rules
  rw [DriftReport.isClean, List.isEmpty_iff, compare]
  simp only [append_eq_nil_iff, flatMap_eq_nil_iff, oxymakefileDrift_eq_nil,
    platformDrift_eq_nil, unless_eq_nil, inputDrift_eq_nil]
  constructor
  · rintro ⟨⟨⟨⟨⟨hhash, hplatform⟩, hremoved⟩, hchanged⟩, hold⟩, hnew⟩
    refine ⟨hhash.trans hframe.1.symm, hplatform.trans hframe.2.symm, fun name => ?_,
      hinput.mpr ⟨hold, hnew⟩⟩
    rw [lookup_lock]
    exact hrule.mp ⟨hremoved, hchanged⟩ name
  · intro hsame
    have hnames : ∀ name, (locked.rules.lookup name).map LockedRule.checked =
        (((currentRules workflow.rules).lookup name).map (lockedRule host machine)).map
          LockedRule.checked := by
      intro name
      rw [← lookup_lock host machine now]
      exact hsame.rules name
    obtain ⟨hremoved, hchanged⟩ := hrule.mpr hnames
    obtain ⟨hold, hnew⟩ := hinput.mp hsame.inputs
    exact ⟨⟨⟨⟨⟨hsame.oxymakefileHash.trans hframe.1, hsame.platform.trans hframe.2⟩,
      hremoved⟩, hchanged⟩, hold⟩, hnew⟩

end Comparing

/-! ### Lockfiles on disk -/

theorem toList_loop (bytes : ByteArray) (i : ℕ) (read : List UInt8) :
    ByteArray.toList.loop bytes i read = read.reverse ++ bytes.data.toList.drop i := by
  fun_induction ByteArray.toList.loop bytes i read with
  | case1 i read hlt ih =>
    have hlength : i < bytes.data.toList.length := hlt
    have hget : bytes.get! i = bytes.data.toList[i] := getElem!_pos bytes.data i hlt
    rw [ih, reverse_cons, append_assoc, singleton_append, hget,
      ← drop_eq_getElem_cons hlength]
  | case2 i read hge =>
    have hdrop : bytes.data.toList.drop i = [] := drop_eq_nil_of_le (Nat.not_lt.mp hge)
    rw [hdrop, append_nil]

theorem fromUtf8_utf8 (text : String) : fromUtf8 (utf8 text) = some text := by
  have hbytes : (utf8 text).map UInt8.ofFin = text.toUTF8.toList := by
    rw [utf8, List.map_map]
    exact List.map_id _
  have hlist : text.toUTF8.toList = text.toUTF8.data.toList := toList_loop text.toUTF8 0 []
  have harray : text.toUTF8.data.toList.toByteArray = text.toUTF8 := by
    apply ByteArray.ext
    apply Array.toList_inj.mp
    exact toList_data_toByteArray
  rw [fromUtf8, hbytes, hlist, harray, String.fromUTF8?]
  exact dif_pos text.isValidUTF8

theorem readLockfile_stored {machine : Machine} {toml : Toml} {path text : String}
    {lockfile : Lockfile} (hstored : readFile machine.files path = some (utf8 text))
    (hparse : toml.fromStr text = .ok lockfile) :
    readLockfile machine toml path = .ok lockfile := by
  obtain ⟨_, hnode, hcontent⟩ := bind_eq_some_iff.mp hstored
  rw [readLockfile, hnode]
  dsimp only
  rw [hcontent, bind_some, fromUtf8_utf8]
  dsimp only
  rw [hparse]

theorem writeLockfile_eq_ok {host : Host} {machine : Machine} {toml : Toml} {now : ℕ}
    {workflow : Workflow} {stores : Bool} {lockfile : Lockfile} {bytes : List Byte}
    (h : writeLockfile host machine toml now workflow stores = .ok (lockfile, bytes)) :
    lockfile = lock host machine now workflow ∧
      ∃ text, toml.toStringPretty lockfile = .ok text ∧ bytes = utf8 text := by
  rw [writeLockfile] at h
  split at h
  · cases h
  · rename_i text htext
    split at h
    · cases h
      exact ⟨rfl, text, htext, rfl⟩
    · cases h

/-! ### Changes of the workflow and the files -/

/-- The environment that is recorded under a label: the first of the rules' that has it. -/
def firstEnvironment (rules : List Rule) (label : String) : Option EnvSpec :=
  (rules.filterMap Rule.environment).find? fun env => envSpecLabel env == label

/-- The workflow file, the platform, the work of every rule and the inputs have not changed. -/
structure WorkUnchanged (host : Host) (before later : Machine) (written workflow : Workflow) :
    Prop where
  oxymakefileHash : written.oxymakefileHash = workflow.oxymakefileHash
  platform : before.platform = later.platform
  /-- The rules in effect, with the hashes of their execution and parameters. -/
  rules : ∀ name,
    ((currentRules written.rules).lookup name).map (fun rule =>
        (hashExecutionBlock host before rule, hashRuleParams host rule)) =
      ((currentRules workflow.rules).lookup name).map (fun rule =>
        (hashExecutionBlock host later rule, hashRuleParams host rule))
  inputs : written.inputFileHashes = workflow.inputFileHashes

/-- Environments and patterns have not changed. -/
structure SetupUnchanged (host : Host) (before later : Machine) (written workflow : Workflow) :
    Prop where
  /-- The environments, with the hashes of the files that describe them. -/
  environments : ∀ label,
    (firstEnvironment written.rules label).map (lockEnvironment host before) =
      (firstEnvironment workflow.rules label).map (lockEnvironment host later)
  /-- Labels and patterns of the rules in effect. -/
  rules : ∀ name,
    ((currentRules written.rules).lookup name).map (fun rule =>
        (rule.environment.map envSpecLabel, rule.inputs, rule.outputs)) =
      ((currentRules workflow.rules).lookup name).map (fun rule =>
        (rule.environment.map envSpecLabel, rule.inputs, rule.outputs))

section Changes

variable {host : Host} {machine before later : Machine}

theorem lookup_registerEnvironment (environments : List (String × LockedEnvironment))
    (rule : Rule) (label : String) :
    (registerEnvironment host machine environments rule).lookup label =
      (environments.lookup label).or
        ((firstEnvironment [rule] label).map (lockEnvironment host machine)) := by
  unfold registerEnvironment firstEnvironment
  rw [filterMap_cons]
  cases rule.environment with
  | none => exact (or_none).symm
  | some env =>
    dsimp only
    rw [filterMap_nil, find?_singleton]
    by_cases hlabel : envSpecLabel env = label
    · subst hlabel
      rw [if_pos (beq_self_eq_true _), map_some]
      cases hold : environments.lookup (envSpecLabel env) with
      | none =>
        rw [if_neg (by simp), SortedMap.lookup_insert, if_pos rfl]
        rfl
      | some =>
        rw [if_pos isSome_some, hold]
        rfl
    · have hne : (envSpecLabel env == label) = false := beq_eq_false_iff_ne.mpr hlabel
      rw [hne, if_neg Bool.false_ne_true, map_none, or_none]
      split
      · rfl
      · rw [SortedMap.lookup_insert, if_neg (Ne.symm hlabel)]

theorem lookup_foldl_environments (rules : List Rule) (lockfile : Lockfile) (label : String) :
    (rules.foldl (lockRule host machine) lockfile).environments.lookup label =
      (lockfile.environments.lookup label).or
        ((firstEnvironment rules label).map (lockEnvironment host machine)) := by
  induction rules generalizing lockfile with
  | nil => exact (or_none).symm
  | cons rule rules ih =>
    have hfirst : firstEnvironment (rule :: rules) label =
        (firstEnvironment [rule] label).or (firstEnvironment rules label) := by
      have hsplit : rule :: rules = [rule] ++ rules := rfl
      rw [firstEnvironment, hsplit, filterMap_append, find?_append]
      rfl
    have hregister : (registerEnvironment host machine lockfile.environments rule).lookup label =
        _ := lookup_registerEnvironment lockfile.environments rule label
    rw [foldl_cons, ih, hfirst, map_or, ← Option.or_assoc, ← hregister]
    rfl

theorem lookup_environments (now : ℕ) (workflow : Workflow) (label : String) :
    (lock host machine now workflow).environments.lookup label =
      (firstEnvironment workflow.rules label).map (lockEnvironment host machine) :=
  lookup_foldl_environments workflow.rules
    (newLockfile machine now workflow.oxymakefileHash) label

theorem sameChecked_iff (now now' : ℕ) (written workflow : Workflow) :
    SameChecked (lock host before now written) (lock host later now' workflow) ↔
      WorkUnchanged host before later written workflow := by
  have hbefore := lock_frame host before now written
  have hlater := lock_frame host later now' workflow
  have hrules : ∀ name,
      (((lock host before now written).rules.lookup name).map LockedRule.checked =
        ((lock host later now' workflow).rules.lookup name).map LockedRule.checked) ↔
      ((currentRules written.rules).lookup name).map (fun rule =>
          (hashExecutionBlock host before rule, hashRuleParams host rule)) =
        ((currentRules workflow.rules).lookup name).map (fun rule =>
          (hashExecutionBlock host later rule, hashRuleParams host rule)) := by
    intro name
    rw [lookup_lock, lookup_lock, Option.map_map, Option.map_map]
    exact Iff.rfl
  constructor
  · intro h
    exact ⟨hbefore.1.symm.trans (h.oxymakefileHash.trans hlater.1),
      hbefore.2.symm.trans (h.platform.trans hlater.2),
      fun name => (hrules name).mp (h.rules name), h.inputs⟩
  · intro h
    exact ⟨hbefore.1.trans (h.oxymakefileHash.trans hlater.1.symm),
      hbefore.2.trans (h.platform.trans hlater.2.symm),
      fun name => (hrules name).mpr (h.rules name), h.inputs⟩

theorem sameUnchecked_iff (now now' : ℕ) (written workflow : Workflow) :
    SameUnchecked (lock host before now written) (lock host later now' workflow) ↔
      SetupUnchanged host before later written workflow := by
  have hrules : ∀ name,
      (((lock host before now written).rules.lookup name).map LockedRule.unchecked =
        ((lock host later now' workflow).rules.lookup name).map LockedRule.unchecked) ↔
      ((currentRules written.rules).lookup name).map (fun rule =>
          (rule.environment.map envSpecLabel, rule.inputs, rule.outputs)) =
        ((currentRules workflow.rules).lookup name).map (fun rule =>
          (rule.environment.map envSpecLabel, rule.inputs, rule.outputs)) := by
    intro name
    rw [lookup_lock, lookup_lock, Option.map_map, Option.map_map]
    exact Iff.rfl
  constructor
  · intro h
    refine ⟨fun label => ?_, fun name => (hrules name).mp (h.rules name)⟩
    rw [← lookup_environments now, ← lookup_environments now', h.environments]
  · intro h
    refine ⟨?_, fun name => (hrules name).mpr (h.rules name)⟩
    refine (sorted_lock host before now written).2.ext_lookup
      (sorted_lock host later now' workflow).2 fun label => ?_
    rw [lookup_environments, lookup_environments]
    exact h.environments label

def specFiles : EnvSpec → List String
  | .uv project requirements => (requirements <|> project).toList
  | .conda env => [env]
  | .nix expr => [expr]
  | _ => []

def referencedFiles (rules : List Rule) : List String :=
  rules.flatMap fun rule =>
    rule.execution.scriptPath ++ rule.environment.toList.flatMap specFiles

theorem hashExecutionBlock_congr {rule : Rule}
    (h : ∀ path ∈ rule.execution.scriptPath,
      readFile before.files path = readFile later.files path) :
    hashExecutionBlock host before rule = hashExecutionBlock host later rule := by
  unfold hashExecutionBlock
  cases hexecution : rule.execution with
  | script path =>
    have hpath : path ∈ rule.execution.scriptPath := by
      rw [hexecution]
      exact mem_singleton_self path
    dsimp only
    rw [h path hpath]
  | shell | run | call => rfl

theorem lockEnvironment_congr {env : EnvSpec}
    (h : ∀ path ∈ specFiles env, readFile before.files path = readFile later.files path) :
    lockEnvironment host before env = lockEnvironment host later env := by
  cases env with
  | uv project requirements =>
    dsimp only [lockEnvironment]
    cases hreq : (requirements <|> project) with
    | none => rfl
    | some req =>
      have hpath := h req (by rw [specFiles, hreq]; exact mem_singleton_self req)
      rw [bind_some, bind_some, specHash, specHash, hpath]
  | conda env =>
    have hpath := h env (mem_singleton_self env)
    rw [lockEnvironment, lockEnvironment, specHash, specHash, hpath]
  | nix expr =>
    have hpath := h expr (mem_singleton_self expr)
    rw [lockEnvironment, lockEnvironment, specHash, specHash, hpath]
  | system | docker | apptainer => rfl

theorem mem_of_currentRules {rules : List Rule} {name : String} {rule : Rule}
    (h : (currentRules rules).lookup name = some rule) : rule ∈ rules := by
  have hmem := ((sorted_currentRules rules).mem_iff_lookup (name, rule)).mpr h
  cases SortedMap.mem_extend hmem with
  | inl hentry =>
    obtain ⟨_, hother, heq⟩ := List.mem_map.mp hentry
    cases heq
    exact hother
  | inr hnone => cases hnone

theorem unchanged_of_files (workflow : Workflow) (hplatform : before.platform = later.platform)
    (hfiles : ∀ path ∈ referencedFiles workflow.rules,
      readFile before.files path = readFile later.files path) :
    WorkUnchanged host before later workflow workflow ∧
      SetupUnchanged host before later workflow workflow := by
  have hscript : ∀ rule ∈ workflow.rules,
      hashExecutionBlock host before rule = hashExecutionBlock host later rule := by
    intro rule hrule
    refine hashExecutionBlock_congr fun path hpath => hfiles path ?_
    exact mem_flatMap.mpr ⟨rule, hrule, mem_append_left _ hpath⟩
  have hspec : ∀ rule ∈ workflow.rules, ∀ env, rule.environment = some env →
      lockEnvironment host before env = lockEnvironment host later env := by
    intro rule hrule env henv
    refine lockEnvironment_congr fun path hpath => hfiles path ?_
    refine mem_flatMap.mpr ⟨rule, hrule, mem_append_right _ ?_⟩
    rw [henv, toList_some, flatMap_singleton]
    exact hpath
  refine ⟨⟨rfl, hplatform, fun name => ?_, rfl⟩, ⟨fun label => ?_, fun _ => rfl⟩⟩
  · cases hname : (currentRules workflow.rules).lookup name with
    | none => rfl
    | some rule =>
      rw [map_some, map_some, hscript rule (mem_of_currentRules hname)]
  · cases hlabel : firstEnvironment workflow.rules label with
    | none => rfl
    | some env =>
      obtain ⟨rule, hrule, henv⟩ := mem_filterMap.mp (mem_of_find?_eq_some hlabel)
      rw [map_some, map_some, hspec rule hrule env henv]

end Changes

/-- Verification succeeds, and it finds no drift exactly if every recorded fact is what would be
recorded now. -/
def VerifiesExactly (host : Host) (toml : Toml) (path : String) (locked : Lockfile)
    (later : Machine) (workflow : Workflow) : Prop :=
  ∃ report, verifyLockfile host later toml path workflow = .ok report ∧
    (report.isClean = true ↔ SameFacts locked (lock host later 0 workflow))

theorem verifyLockfile_stored {host : Host} {before later : Machine} {toml : Toml} {path : String}
    {now : ℕ} {written : Workflow} {stores : Bool} {lockfile : Lockfile} {bytes : List Byte}
    (hwrite : writeLockfile host before toml now written stores = .ok (lockfile, bytes))
    (hround : ∀ text, toml.toStringPretty lockfile = .ok text →
      toml.fromStr text = .ok lockfile)
    (hstored : readFile later.files path = some bytes) (workflow : Workflow) :
    ∃ report, verifyLockfile host later toml path workflow = .ok report ∧
      (report.isClean = true ↔ WorkUnchanged host before later written workflow) := by
  obtain ⟨hlockfile, text, htext, hbytes⟩ := writeLockfile_eq_ok hwrite
  have hread := readLockfile_stored (hbytes ▸ hstored) (hround text htext)
  refine ⟨compare host later lockfile workflow, ?_, ?_⟩
  · rw [verifyLockfile, hread]
    rfl
  · rw [hlockfile, compare_isClean_iff host later (sorted_lock host before now written).1
      written.sorted workflow 0, sameChecked_iff]

theorem verifiesExactly_stored {host : Host} {before later : Machine} {toml : Toml}
    {path : String} {now : ℕ} {written : Workflow} {stores : Bool} {lockfile : Lockfile}
    {bytes : List Byte}
    (hwrite : writeLockfile host before toml now written stores = .ok (lockfile, bytes))
    (hround : ∀ text, toml.toStringPretty lockfile = .ok text →
      toml.fromStr text = .ok lockfile)
    (hstored : readFile later.files path = some bytes) (workflow : Workflow) :
    VerifiesExactly host toml path lockfile later workflow ↔
      (WorkUnchanged host before later written workflow →
        SetupUnchanged host before later written workflow) := by
  obtain ⟨report, hreport, hclean⟩ := verifyLockfile_stored hwrite hround hstored workflow
  have hfacts : SameFacts lockfile (lock host later 0 workflow) ↔
      WorkUnchanged host before later written workflow ∧
        SetupUnchanged host before later written workflow := by
    rw [(writeLockfile_eq_ok hwrite).1, sameFacts_iff (sorted_lock host before now written).1
      (sorted_lock host later 0 workflow).1, sameChecked_iff, sameUnchecked_iff]
  constructor
  · rintro ⟨_, hother, hexact⟩ hwork
    rw [hreport] at hother
    cases hother
    exact (hfacts.mp (hexact.mp (hclean.mpr hwork))).2
  · intro hsetup
    refine ⟨report, hreport, ?_⟩
    rw [hclean, hfacts]
    constructor
    · intro hwork
      exact ⟨hwork, hsetup hwork⟩
    · exact And.left

/-- Verification is exact if and only if environments and patterns do not change on their own;
where nothing has changed it is clean. -/
theorem verifiesExactly_iff (host : Host) (toml : Toml) (path : String) (before later : Machine)
    (now : ℕ) (written workflow : Workflow) (stores : Bool) (lockfile : Lockfile)
    (bytes : List Byte)
    (hwrite : writeLockfile host before toml now written stores = .ok (lockfile, bytes))
    (hround : ∀ text, toml.toStringPretty lockfile = .ok text →
      toml.fromStr text = .ok lockfile)
    (hstored : readFile later.files path = some bytes) :
    (VerifiesExactly host toml path lockfile later workflow ↔
        (WorkUnchanged host before later written workflow →
          SetupUnchanged host before later written workflow)) ∧
      (before.platform = later.platform →
        (∀ path ∈ referencedFiles written.rules,
          readFile before.files path = readFile later.files path) →
        ∃ report, verifyLockfile host later toml path written = .ok report ∧
          report.isClean = true) := by
  constructor
  · exact verifiesExactly_stored hwrite hround hstored workflow
  · intro hplatform hfiles
    obtain ⟨report, hreport, hclean⟩ := verifyLockfile_stored hwrite hround hstored written
    exact ⟨report, hreport, hclean.mpr (unchanged_of_files written hplatform hfiles).1⟩

def workflowHash : Str :=
  ⟨ascii "6e726ba2357b39c52defa07050a59f6e3bdde5249ca7bedc64064896292a3289", by decide⟩

def commandHash : Str :=
  ⟨ascii "8c56bf599a077e2bf208f812dc77ff1d8b55a3c595a0169830930b7bd495a0d1", by decide⟩

def numpyHash : Str :=
  ⟨ascii "9f6c73c321f9b39756deb9bbce07f50a4fdcd13103a04eb2be121930f1f93472", by decide⟩

def scipyHash : Str :=
  ⟨ascii "fda0d81d73ce4ad7917bb88401a7316ebd83f50f3a226fe7453397bc646218dd", by decide⟩

def sampleHost : Host where
  blake3 bytes :=
    if bytes = ascii "dependencies: [numpy]\n" then numpyHash
    else if bytes = ascii "dependencies: [scipy]\n" then scipyHash
    else commandHash
  executionSource _ :=
    ⟨ascii "\x7b\"type\":\"shell\",\"command\":\"true\"\x7d", by decide⟩
  workflowRelativePath _ := workflowHash
  lockPath path := path
  pinPaths := []
  platform := workflowHash

def sampleRule : Rule where
  name := "fit"
  inputs := []
  outputs := []
  execution := .shell "true"
  environment := some (.conda "env.yml")
  params := []

def sampleWorkflow : Workflow := ⟨workflowHash, [sampleRule], [], List.Pairwise.nil⟩

def environmentFile (content : String) : Node :=
  ⟨0, 22, some (ascii content), zero_bounded, by decide⟩

def sampleBefore : Machine where
  platform := ⟨"linux", "x86_64"⟩
  files path :=
    if path = "env.yml" then some (environmentFile "dependencies: [numpy]\n") else none

def sampleLockfile : Lockfile := lock sampleHost sampleBefore 1700000000 sampleWorkflow

def sampleText : String :=
  "schema_version = 2\ncreated_at = 1700000000\noxymakefile_hash = " ++
  "\"6e726ba2357b39c52defa07050a59f6e3bdde5249ca7bedc64064896292a3289\"\n\n" ++
  "[platform]\nos = \"linux\"\narch = \"x86_64\"\n\n[rules.fit]\nexecution_hash = " ++
  "\"8c56bf599a077e2bf208f812dc77ff1d8b55a3c595a0169830930b7bd495a0d1\"\n" ++
  "environment = \"conda:env.yml\"\ninputs = []\noutputs = []\n\n" ++
  "[environments.\"conda:env.yml\"]\nkind = \"conda\"\nspec_hash = " ++
  "\"9f6c73c321f9b39756deb9bbce07f50a4fdcd13103a04eb2be121930f1f93472\"\n"

def sampleToml : Toml where
  toStringPretty lockfile :=
    if lockfile = sampleLockfile then .ok sampleText else .error "unsupported"
  fromStr text := if text = sampleText then .ok sampleLockfile else .error "invalid"

/-- The machine afterwards, with the contents of the environment file then. -/
def sampleLater (content : String) : Machine where
  platform := ⟨"linux", "x86_64"⟩
  files path :=
    if path = "ox.lock" then some ⟨0, 420, some (utf8 sampleText), zero_bounded, by decide⟩
    else if path = "env.yml" then some (environmentFile content)
    else none

theorem toStringPretty_sample : sampleToml.toStringPretty sampleLockfile = .ok sampleText := by
  simp only [sampleToml, if_true]

theorem writeLockfile_sample :
    writeLockfile sampleHost sampleBefore sampleToml 1700000000 sampleWorkflow true =
      .ok (sampleLockfile, utf8 sampleText) := by
  have hlock : lock sampleHost sampleBefore 1700000000 sampleWorkflow = sampleLockfile := rfl
  simp only [writeLockfile, hlock, toStringPretty_sample, if_true]

theorem fromStr_sample (text : String) (h : sampleToml.toStringPretty sampleLockfile = .ok text) :
    sampleToml.fromStr text = .ok sampleLockfile := by
  have heq : sampleText = text := Except.ok.inj (toStringPretty_sample.symm.trans h)
  rw [← heq]
  simp only [sampleToml, if_true]

theorem readFile_sample (content : String) :
    readFile (sampleLater content).files "ox.lock" = some (utf8 sampleText) := rfl

/-- Where the environment file has not changed verification is exact and clean. -/
theorem verifiesExactly_sample :
    VerifiesExactly sampleHost sampleToml "ox.lock" sampleLockfile
        (sampleLater "dependencies: [numpy]\n") sampleWorkflow ∧
      ∃ report, verifyLockfile sampleHost (sampleLater "dependencies: [numpy]\n") sampleToml
        "ox.lock" sampleWorkflow = .ok report ∧ report.isClean = true := by
  have hplatform : sampleBefore.platform = (sampleLater "dependencies: [numpy]\n").platform := rfl
  have hfiles : ∀ path ∈ referencedFiles sampleWorkflow.rules,
      readFile sampleBefore.files path =
        readFile (sampleLater "dependencies: [numpy]\n").files path := by
    intro path hpath
    rw [mem_singleton.mp (show path ∈ ["env.yml"] from hpath)]
    rfl
  obtain ⟨hexact, hclean⟩ := verifiesExactly_iff sampleHost sampleToml "ox.lock" sampleBefore _
    1700000000 sampleWorkflow sampleWorkflow true sampleLockfile (utf8 sampleText)
    writeLockfile_sample fromStr_sample (readFile_sample _)
  exact ⟨hexact.mpr fun _ => (unchanged_of_files sampleWorkflow hplatform hfiles).2,
    hclean hplatform hfiles⟩

/-- A new content of an environment file is not reported. -/
theorem not_verifiesExactly_environment :
    ¬ ∀ (host : Host) (toml : Toml) (path : String) (before later : Machine) (now : ℕ)
      (written workflow : Workflow) (lockfile : Lockfile) (bytes : List Byte),
      writeLockfile host before toml now written true = .ok (lockfile, bytes) →
      (∀ text, toml.toStringPretty lockfile = .ok text → toml.fromStr text = .ok lockfile) →
      readFile later.files path = some bytes →
      VerifiesExactly host toml path lockfile later workflow := by
  intro hall
  have hexact := hall sampleHost sampleToml "ox.lock" sampleBefore
    (sampleLater "dependencies: [scipy]\n") 1700000000 sampleWorkflow sampleWorkflow
    sampleLockfile (utf8 sampleText) writeLockfile_sample fromStr_sample (readFile_sample _)
  have hiff := verifiesExactly_stored writeLockfile_sample fromStr_sample
    (readFile_sample "dependencies: [scipy]\n") sampleWorkflow
  have hwork : WorkUnchanged sampleHost sampleBefore (sampleLater "dependencies: [scipy]\n")
      sampleWorkflow sampleWorkflow := by
    refine ⟨rfl, rfl, fun name => ?_, rfl⟩
    cases hname : (currentRules sampleWorkflow.rules).lookup name with
    | none => rfl
    | some =>
      have hrule := mem_of_currentRules hname
      cases mem_singleton.mp hrule
      rfl
  have hlabel := (hiff.mp hexact hwork).environments "conda:env.yml"
  have hfirst : firstEnvironment sampleWorkflow.rules "conda:env.yml" =
      some (.conda "env.yml") := by decide
  rw [hfirst, map_some, map_some] at hlabel
  exact absurd hlabel (by decide)

end OxyMake.LockfileDrift
