import OxyMake.JobCacheKey

/-!
# The cache of the scheduler

One store answers for every job of a session: the prescan over the plan and the
scheduler ask it whether a job is up to date, and completed jobs are recorded in
it. Each call computes the job's key anew from the hashes the store has for the
job's tracked files. A remote cache may write the outputs of a known entry.
-/

namespace OxyMake.SchedulerCache

open CacheKey CacheStore JobCacheKey

/-- Why a job may execute. -/
inductive RunReason
  | cacheMiss
  | outputMissing (path : String)
  | outputStale (path : String)
  | upstreamRebuilt
  | notCacheable
  deriving DecidableEq, Repr

/-- The store of a session and the file system. -/
structure World where
  store : Store
  files : Files

abbrev OutputHashes := String → Option Str

/-- A remote cache fetches the bytes of a hash into a file. -/
abbrev Remote := Str → String → Files → Except Unit Bool × Files

/-- The result of a lookup as a reason to run. -/
def cacheStatusReason : CacheHitStatus → Except RunReason Unit
  | .hit => .ok ()
  | .miss => .error .cacheMiss
  | .outputMissing path => .error (.outputMissing path)
  | .mismatch path => .error (.outputStale path)

section Metadata

variable (files : Files)

/-- The newest modification time of the inputs, unless one is missing. -/
def maxInputMtime : ℕ → List String → Option ℕ
  | newest, [] => some newest
  | newest, path :: rest =>
    match files path with
    | none => none
    | some node => maxInputMtime (if node.mtime > newest then node.mtime else newest) rest

/-- The outputs exist and are newer than every input, output by output. -/
def outputsNewer (newest : ℕ) : List String → CacheHitStatus
  | [] => .hit
  | path :: rest =>
    match files path with
    | none => .outputMissing path
    | some node => if node.mtime ≤ newest then .mismatch path else outputsNewer newest rest

def checkMtimeStateless (inputs outputs : List String) : CacheHitStatus :=
  match maxInputMtime files 0 inputs with
  | none => .miss
  | some newest => outputsNewer files newest outputs

end Metadata

def outputHashes (store : Store) (key : Str) : Option OutputHashes :=
  (store.entries.get key).map fun _ path =>
    (store.outputs.get (key, path)).map OutputRecord.contentHash

def fetchOutputs (remote : Remote) (hashes : OutputHashes) : List String → Files → Bool × Files
  | [], files => (true, files)
  | path :: rest, files =>
    match hashes path with
    | none => (false, files)
    | some hash =>
      match remote hash path files with
      | (.ok true, files) => fetchOutputs remote hashes rest files
      | (_, files) => (false, files)

section Session

variable (host : Host) (remote : Option Remote)

def isUpToDate (w : World) (key : Str) (outputs : List String) : Bool :=
  (w.store.isCached host.blake3 w.files key outputs).result = .ok true

/-- Restore the outputs of a known entry from the remote cache. -/
def restoreRemoteOutputs (remote : Remote) (key : Str) (outputs : List String) (w : World) :
    Bool × World :=
  if isUpToDate host w key outputs then (true, w)
  else
    match outputHashes w.store key with
    | none => (false, w)
    | some hashes =>
      match fetchOutputs remote hashes outputs w.files with
      | (false, files) => (false, { w with files })
      | (true, files) => (isUpToDate host { w with files } key outputs, { w with files })

/-- Restore the outputs when there is a remote cache. -/
def restore (key : Str) (outputs : List String) (w : World) : Bool × World :=
  match remote with
  | none => (false, w)
  | some remote => restoreRemoteOutputs host remote key outputs w

def checkKey (key : Str) (outputs : List String) (w : World) : Except RunReason Unit × World :=
  match w.store.checkCached host.blake3 w.files key outputs with
  | (lookup, store) =>
    (match lookup.result with
      | .ok status => cacheStatusReason status
      | .error _ => .error .cacheMiss, { w with store })

/-- Whether a job is up to date, and why not. -/
def checkWithReason (job : Job) (w : World) : Except RunReason Unit × World :=
  if job.outputFilePaths.isEmpty then (.error .notCacheable, w)
  else if w.store.validation = .mtime then
    (cacheStatusReason (checkMtimeStateless w.files (filePaths job.inputs) job.outputFilePaths), w)
  else
    match jobCacheKeyWithComponents host w.files job w.store with
    | (none, store) => (.error .notCacheable, { w with store })
    | (some components, store) =>
      match restore host remote components.cacheKey job.outputFilePaths { w with store } with
      | (true, w) => (.ok (), w)
      | (false, w) => checkKey host components.cacheKey job.outputFilePaths w

def OutputRef.isFile : OutputRef → Bool
  | .file _ => true
  | _ => false

/-- The output hashes last recorded under a job's key. -/
def recordedOutputHashes (job : Job) (w : World) : Option OutputHashes × World :=
  if job.outputs.isEmpty || job.outputs.any (!OutputRef.isFile ·) then (none, w)
  else if w.store.validation = .mtime then (none, w)
  else
    match jobCacheKeyWithComponents host w.files job w.store with
    | (none, store) => (none, { w with store })
    | (some components, store) => (outputHashes store components.cacheKey, { w with store })

def entryOf (job : Job) (completedAt : ℕ) (components : CacheKeyComponents) : Entry where
  completedAt := completedAt
  provenance := some ⟨components.inputHashes, components.jobSpecHash, job.reproducibility⟩
  platform := host.platform
  platformScope := job.platformScope
  adopted := false

/-- Record a job under its key; what it was keyed on is noted when that succeeds. -/
def recordJob (files : Files) (job : Job) (completedAt : ℕ) (hashes : OutputHashes)
    (store : Store) : Option CacheKeyComponents × Store :=
  match jobCacheKeyWithComponents host files job store with
  | (none, store) => (none, store)
  | (some components, store) =>
    match store.recordWithHashes host.blake3 files components.cacheKey job.outputFilePaths
      (entryOf host job completedAt components) hashes with
    | (.error _, store) => (none, store)
    | (.ok (), store) => (some components, store)

/-- Record a completed job, if it has outputs and all exist. -/
def recordWithHashes (job : Job) (completedAt : ℕ) (hashes : OutputHashes) (w : World) :
    Option CacheKeyComponents × World :=
  if job.outputFilePaths.isEmpty then (none, w)
  else if job.outputFilePaths.any fun path => (w.files path).isNone then (none, w)
  else
    match recordJob host w.files job completedAt hashes w.store with
    | (noted, store) => (noted, { w with store })

/-! ### The prescan -/

/-- The plan: what the prescan decides for each job it visits. -/
abbrev Decisions := List (String × Except RunReason Unit)

/-- Visit the jobs in topological order; a job behind a stale one is stale, and any other is
checked. -/
def prescan (jobOf : String → Job) (downstream : String → List String) :
    List String → List String → World → Decisions × World
  | [], _, w => ([], w)
  | id :: rest, stale, w =>
    if id ∈ stale then
      let (decisions, w) := prescan jobOf downstream rest (downstream id ++ stale) w
      ((id, .error .upstreamRebuilt) :: decisions, w)
    else
      match checkWithReason host remote (jobOf id) w with
      | (.ok (), w) =>
        let (decisions, w) := prescan jobOf downstream rest stale w
        ((id, .ok ()) :: decisions, w)
      | (.error reason, w) =>
        let (decisions, w) := prescan jobOf downstream rest (downstream id ++ stale) w
        ((id, .error reason) :: decisions, w)

/-- Determine which jobs would execute for the current files and cache. -/
def determineExecution (jobOf : String → Job) (downstream : String → List String)
    (topologicalOrder : List String) (w : World) : Decisions × World :=
  prescan host remote jobOf downstream topologicalOrder [] w

end Session

end OxyMake.SchedulerCache
