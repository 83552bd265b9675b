import OxyMake.InputHashing

/-!
# The cache key of a job

The key of a job is computed from its execution block, wildcards, environment
and policies and from the content hashes of its tracked files: file inputs,
parameter files and the script. The hashes go through the store's session memo
and its table by metadata, and computing keys does not change which hash a file
has for the store.
-/

namespace OxyMake.JobCacheKey

open CacheKey CacheStore

/-- How a job does its work. -/
inductive ExecutionBlock
  | shell (command : String)
  | run (code lang : String)
  | script (path : String) (lang : Option String)
  | call (function lang : String)
  deriving DecidableEq, Repr

/-- Software environment of a job. -/
inductive EnvSpec
  | system
  | uv (project requirements : Option String)
  | conda (env : String)
  | docker (image : String)
  | nix (expr : String)
  | apptainer (image : String)
  deriving DecidableEq, Repr

/-- What an input or an output stands for. -/
inductive OutputRef
  | file (path : String)
  | virtual (id check : String)
  | inMemory (typeHint : Option String)
  deriving DecidableEq, Repr

/-- What the cache reads of a job. -/
structure Job where
  execution : ExecutionBlock
  wildcards : List (String × String)
  env : List (String × String)
  environment : Option EnvSpec
  shellExecutable : Option Str
  cleanOutputs : CleanOutputs
  platformScope : PlatformScope
  reproducibility : ReproducibilityClass
  inputs : List OutputRef
  paramFiles : List String
  outputs : List OutputRef
  bounded : inputs.length + paramFiles.length + 1 < 2 ^ 63

/-- What the machine provides: the hash function, the serializer, the paths it resolves and its
platform. -/
structure Host where
  blake3 : List Byte → Str
  executionSource : ExecutionBlock → Str
  workflowRelativePath : String → Str
  lockPath : String → String
  /-- The interpreter pins of the working directory and its ancestors, from the inside out. -/
  pinPaths : List String
  platform : Str

def utf8 (s : String) : List Byte := s.toUTF8.toList.map UInt8.toFin

def filePaths (refs : List OutputRef) : List String :=
  refs.filterMap fun
    | .file path => some path
    | _ => none

def Job.outputFilePaths (job : Job) : List String := filePaths job.outputs

def ExecutionBlock.scriptPath : ExecutionBlock → List String
  | .script path _ => [path]
  | _ => []

/-- The content-tracked files of a job, in the order they are hashed. -/
def Job.trackedFiles (job : Job) : List String :=
  filePaths job.inputs ++ job.paramFiles ++ job.execution.scriptPath

theorem Job.length_trackedFiles_lt (job : Job) : job.trackedFiles.length < 2 ^ 63 := by
  have hinputs : (filePaths job.inputs).length ≤ job.inputs.length := List.length_filterMap_le _ _
  have hscript : job.execution.scriptPath.length ≤ 1 := by
    cases job.execution with
    | script => exact le_refl 1
    | shell | run | call => exact Nat.zero_le 1
  have hbounded := job.bounded
  rw [Job.trackedFiles, List.length_append, List.length_append]
  omega

section Spec

variable (host : Host) (files : Files)

/-- Bytes of a file, if it can be read. -/
def readFile (path : String) : Option (List Byte) := (files path).bind Node.content

def hashKvMap (map : List (String × String)) : Str :=
  host.blake3 (leBytes 8 map.length ++
    map.flatMap fun e => block (utf8 e.1) ++ block (utf8 e.2))

/-- Stream of the interpreter pins, each with its distance. -/
def pinStream : ℕ → List String → List Byte
  | _, [] => []
  | depth, path :: rest =>
    (match readFile files path with
    | some content =>
      updateField "env.uv.python_version.depth" (utf8 (toString depth)) ++
        updateField "env.uv.python_version.content" content
    | none => []) ++ pinStream (depth + 1) rest

def envSpecContentHash : EnvSpec → Str
  | .system => host.blake3 (updateField "env.system" [])
  | .uv project requirements =>
    host.blake3
      (updateOptField "env.uv.requirements" (requirements.map utf8) ++
        updateOptField "env.uv.requirements_content" (requirements.bind (readFile files)) ++
        updateOptField "env.uv.project" (project.map utf8) ++
        updateOptField "env.uv.project_content" (project.bind (readFile files)) ++
        updateOptField "env.uv.lock_content"
          ((project.map host.lockPath).bind (readFile files)) ++
        pinStream files 0 host.pinPaths)
  | .conda env =>
    host.blake3 (updateField "env.conda.spec" (utf8 env) ++
      updateOptField "env.conda.content" (readFile files env))
  | .docker image => host.blake3 (updateField "env.docker.image" (utf8 image))
  | .nix expr =>
    host.blake3 (updateField "env.nix.expr" (utf8 expr) ++
      updateOptField "env.nix.content" (readFile files expr))
  | .apptainer image => host.blake3 (updateField "env.apptainer.image" (utf8 image))

/-- Hash of the wildcard values, when there are any. -/
def paramsHash (job : Job) : Option Str :=
  if job.wildcards.isEmpty then none else some (hashKvMap host job.wildcards)

/-- Hash of the environment: the software alone, or with the variables when there are any. -/
def envHash (job : Job) : Option Str :=
  let software := job.environment.map (envSpecContentHash host files)
  if job.env.isEmpty then software
  else
    some (host.blake3 (updateOptField "software" (software.map Str.bytes) ++
      updateField "variables" (hashKvMap host job.env).bytes))

def jobSpecHash (job : Job) : Str :=
  host.blake3
    (updateField "rule" (host.executionSource job.execution).bytes ++
      updateOptField "params" ((paramsHash host job).map Str.bytes) ++
      updateOptField "env" ((envHash host files job).map Str.bytes) ++
      updateOptField "shell" (job.shellExecutable.map Str.bytes) ++
      updateField "clean_outputs" (ascii job.cleanOutputs.toText))

/-- As many pairs of a path and a content hash. -/
abbrev Pairs (n : ℕ) := { pairs : List (Str × Str) // pairs.length = n }

/-- Hash the tracked files one after another; the key of a job needs all of them. -/
def hashInto : (paths : List String) → Store → Option (Pairs paths.length) × Store
  | [], store => (some ⟨[], rfl⟩, store)
  | path :: rest, store =>
    if (files path).isNone then (none, store)
    else
      match store.hashInputCached host.blake3 files path with
      | (.error _, store) => (none, store)
      | (.ok hash, store) =>
        match hashInto rest store with
        | (none, store) => (none, store)
        | (some pairs, store) =>
          (some ⟨(host.workflowRelativePath path, hash) :: pairs.1,
            congrArg (· + 1) pairs.2⟩, store)

/-- A cache key with what it was computed from. -/
structure CacheKeyComponents where
  cacheKey : Str
  inputHashes : List (Str × Str)
  jobSpecHash : Str
  paramsHash : Option Str
  envHash : Option Str
  deriving DecidableEq

/-- The ingredients of a job's key, given the hashes of its tracked files. -/
def cacheKeySpec (job : Job) (pairs : Pairs job.trackedFiles.length) : CacheKeySpec where
  ruleSource := host.executionSource job.execution
  inputs := pairs.1
  inputs_bounded := lt_of_eq_of_lt pairs.2 job.length_trackedFiles_lt
  paramsHash := paramsHash host job
  envHash := envHash host files job
  shellExecutable := job.shellExecutable
  cleanOutputs := job.cleanOutputs
  platformScope := job.platformScope
  platform := host.platform

/-- The components of a job's key, given the hashes of its tracked files. -/
def components (job : Job) (pairs : Pairs job.trackedFiles.length) : CacheKeyComponents where
  cacheKey := computeCacheKey host.blake3 (cacheKeySpec host files job pairs)
  inputHashes := pairs.1
  jobSpecHash := jobSpecHash host files job
  paramsHash := paramsHash host job
  envHash := envHash host files job

/-- Compute the cache key of a job with its components. -/
def jobCacheKeyWithComponents (job : Job) (store : Store) : Option CacheKeyComponents × Store :=
  match hashInto host files job.trackedFiles store with
  | (none, store) => (none, store)
  | (some pairs, store) => (some (components host files job pairs), store)

/-- The pairs of tracked files, given a hash for every file. -/
def pairsOf (hashOf : String → Option Str) : (paths : List String) → Option (Pairs paths.length)
  | [] => some ⟨[], rfl⟩
  | path :: rest =>
    if (files path).isNone then none
    else
      match hashOf path with
      | none => none
      | some hash =>
        match pairsOf hashOf rest with
        | none => none
        | some pairs =>
          some ⟨(host.workflowRelativePath path, hash) :: pairs.1, congrArg (· + 1) pairs.2⟩

/-- The components of a job's key, given a hash for every file. -/
def componentsOf (hashOf : String → Option Str) (job : Job) : Option CacheKeyComponents :=
  (pairsOf host files hashOf job.trackedFiles).map (components host files job)

theorem hashInto_spec (paths : List String) (store : Store) :
    (hashInto host files paths store).1 =
        pairsOf host files (store.inputHash host.blake3 files) paths ∧
      Agrees host.blake3 files store (hashInto host files paths store).2 := by
  induction paths generalizing store with
  | nil => exact ⟨rfl, Agrees.refl store⟩
  | cons path rest ih =>
    have hagrees := agrees_hashInputCached host.blake3 files store path
    rw [hashInto, pairsOf]
    split_ifs with hnone
    · exact ⟨rfl, Agrees.refl store⟩
    · have hview : store.inputHash host.blake3 files path =
          (store.hashInputCached host.blake3 files path).1.toOption := rfl
      rw [hview]
      rcases hcached : store.hashInputCached host.blake3 files path with ⟨result, store'⟩
      rw [hcached] at hagrees
      cases result with
      | error => exact ⟨rfl, hagrees⟩
      | ok =>
        obtain ⟨hpairs, hagrees'⟩ := ih store'
        have hsame : store'.inputHash host.blake3 files = store.inputHash host.blake3 files :=
          funext hagrees.inputHash
        rw [hsame] at hpairs
        dsimp only [Except.toOption]
        rw [← hpairs]
        rcases hrest : hashInto host files rest store' with ⟨result', _⟩
        rw [hrest] at hagrees'
        cases result' with
        | none | some => exact ⟨rfl, hagrees.trans hagrees'⟩

theorem jobCacheKeyWithComponents_spec (job : Job) (store : Store) :
    (jobCacheKeyWithComponents host files job store).1 =
        componentsOf host files (store.inputHash host.blake3 files) job ∧
      Agrees host.blake3 files store (jobCacheKeyWithComponents host files job store).2 := by
  obtain ⟨hpairs, hagrees⟩ := hashInto_spec host files job.trackedFiles store
  unfold jobCacheKeyWithComponents componentsOf
  rw [← hpairs]
  rcases hhash : hashInto host files job.trackedFiles store with ⟨result, _⟩
  rw [hhash] at hagrees
  cases result with
  | none | some => exact ⟨rfl, hagrees⟩

end Spec

/-! ### A small machine -/

def shellSource : ExecutionBlock → List Byte
  | .shell command => ascii ("\x7b\"type\":\"shell\",\"command\":\"" ++ command ++ "\"\x7d")
  | _ => []

def firstBytes (bytes : List Byte) : Str :=
  ⟨bytes.take 120, (List.length_take_le _ _).trans_lt (by decide)⟩

def firstBytesHost : Host where
  blake3 := firstBytes
  executionSource := fun block => firstBytes (shellSource block)
  workflowRelativePath := fun path => firstBytes (ascii path)
  lockPath := fun path => path
  pinPaths := []
  platform := firstBytes (ascii "linux-x86_64")

def shellJob (command : String) (input : Option String) (output : String) : Job where
  execution := .shell command
  wildcards := []
  env := []
  environment := none
  shellExecutable := none
  cleanOutputs := .always
  platformScope := .any
  reproducibility := .deterministic
  inputs := (input.map OutputRef.file).toList
  paramFiles := []
  outputs := [.file output]
  bounded := by cases input <;> simp

end OxyMake.JobCacheKey
