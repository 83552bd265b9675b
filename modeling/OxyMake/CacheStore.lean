import OxyMake.CacheKey
import OxyMake.KeyedTable
import Mathlib.Logic.Function.Basic
import Mathlib.Data.Int.Notation

/-!
# The cache store

The store maps cache keys to entries and each entry's outputs to a content hash
with the modification time and size at recording. A lookup compares the files on
disk with the records, trusting equal metadata in one mode and reading the bytes
otherwise; a missing output turns off the trust in the metadata of its entry,
and a changed one removes the entry. The hashes of input files are kept in a
table by modification time and size, and in memory for a session.
-/

namespace OxyMake.CacheStore

open KeyedTable CacheKey

/-- What the file system has at a path. -/
structure Node where
  mtime : ℕ
  size : ℕ
  content : Option (List Byte)
  /-- The modification time is a 64-bit value. -/
  mtime_lt : mtime < 2 ^ 64
  /-- The length is a file offset. -/
  size_lt : size < 2 ^ 63

theorem zero_bounded : 0 < 2 ^ 64 := by decide

theorem one_bounded : 1 < 2 ^ 63 := by decide

abbrev Files := String → Option Node

inductive CacheError
  | io (path : String)
  | manifest
  deriving DecidableEq, Repr

/-- How output files are validated against cache entries. -/
inductive CacheValidation
  | mtime
  | mtimeHash
  | contentHash
  deriving DecidableEq, Repr

/-- Result of checking a job's outputs. -/
inductive CacheHitStatus
  | hit
  | miss
  | outputMissing (path : String)
  | mismatch (path : String)
  deriving DecidableEq, Repr

/-- Declared reproducibility of a rule. -/
inductive ReproducibilityClass
  | deterministic
  | seedDeterministic
  | approximate
  | nonReproducible
  deriving DecidableEq, Repr

/-- What the outputs of an entry were computed from. -/
structure ArtifactProvenance where
  inputHashes : List (Str × Str)
  jobSpecHash : Str
  reproducibility : ReproducibilityClass
  deriving DecidableEq

/-- A row of `cache_entries`, without its key. -/
structure Entry where
  completedAt : ℕ
  provenance : Option ArtifactProvenance
  platform : Str
  platformScope : PlatformScope
  adopted : Bool
  deriving DecidableEq

/-- A row of `output_records`, without its key. Integers are signed in the database. -/
structure OutputRecord where
  contentHash : Str
  mtimeSecs : ℤ
  /-- Recorded size, or `-1` when the metadata is not to be trusted. -/
  size : ℤ
  deriving DecidableEq

/-- A row of `input_file_hashes`, without its key. -/
structure InputHash where
  contentHash : Str
  mtimeNanos : ℤ
  size : ℤ
  deriving DecidableEq

/-- The tables, the validation mode and the session memo. -/
structure Store where
  entries : Table Str Entry
  outputs : Table (Str × String) OutputRecord
  inputHashes : Table String InputHash
  validation : CacheValidation
  inputMemo : String → Option Str

def Store.open (validation : CacheValidation) : Store :=
  ⟨Table.empty, Table.empty, Table.empty, validation, fun _ => none⟩

/-! ### Files -/

def toI64 (n : ℕ) : ℤ := if n < 2 ^ 63 then n else n - 2 ^ 64

def toU64 (n : ℤ) : ℕ := (n % 2 ^ 64).toNat

theorem toU64_toI64 {n : ℕ} (h : n < 2 ^ 64) : toU64 (toI64 n) = n := by
  unfold toU64 toI64
  split_ifs with hsmall
  · rw [Int.emod_eq_of_lt (by omega) (by omega), Int.toNat_natCast]
  · rw [Int.sub_emod_right, Int.emod_eq_of_lt (by omega) (by omega), Int.toNat_natCast]

theorem lt_toU64_neg_one : 2 ^ 63 < toU64 (-1) := by decide

section Files

variable (blake3 : List Byte → Str) (files : Files)

def hashFile (path : String) : Except CacheError Str :=
  match (files path).bind Node.content with
  | some bytes => .ok (blake3 bytes)
  | none => .error (.io path)

def fileMeta (path : String) : Except CacheError (ℕ × ℕ) :=
  match files path with
  | some node => .ok (node.mtime, node.size)
  | none => .error (.io path)

/-- A file has the cached modification time and size. -/
def mtimeMatches (path : String) (cachedMtime cachedSize : ℕ) : Bool :=
  match fileMeta files path with
  | .ok (mtime, size) => mtime = cachedMtime && size = cachedSize
  | .error _ => false

end Files

/-! ### Lookups -/

/-- Result of a lookup and the outputs whose bytes it read. -/
@[ext]
structure Lookup (α : Type) where
  result : Except CacheError α
  hashed : List String
  deriving DecidableEq

def Lookup.reading {α : Type} (path : String) (l : Lookup α) : Lookup α :=
  { l with hashed := path :: l.hashed }

namespace Store

variable (blake3 : List Byte → Str) (files : Files)

/-- The outputs are up to date, output by output. -/
def isCachedLoop (store : Store) (key : Str) : List String → Lookup Bool
  | [] => ⟨.ok true, []⟩
  | path :: rest =>
    match store.outputs.get (key, path) with
    | none => ⟨.ok false, []⟩
    | some row =>
      if (files path).isNone then ⟨.ok false, []⟩
      else
        match store.validation with
        | .mtime =>
          if mtimeMatches files path (toU64 row.mtimeSecs) (toU64 row.size) then
            isCachedLoop store key rest
          else ⟨.ok false, []⟩
        | .mtimeHash =>
          if mtimeMatches files path (toU64 row.mtimeSecs) (toU64 row.size) then
            isCachedLoop store key rest
          else
            match hashFile blake3 files path with
            | .error e => ⟨.error e, [path]⟩
            | .ok actual =>
              if actual ≠ row.contentHash then ⟨.ok false, [path]⟩
              else (isCachedLoop store key rest).reading path
        | .contentHash =>
          match hashFile blake3 files path with
          | .error e => ⟨.error e, [path]⟩
          | .ok actual =>
            if actual ≠ row.contentHash then ⟨.ok false, [path]⟩
            else (isCachedLoop store key rest).reading path

/-- A job's outputs are up to date with respect to the cache. -/
def isCached (store : Store) (key : Str) (outputs : List String) : Lookup Bool :=
  if (store.entries.get key).isNone then ⟨.ok false, []⟩
  else isCachedLoop blake3 files store key outputs

def removeEntry (store : Store) (key : Str) : Store :=
  { store with
    entries := store.entries.delete (· = key)
    outputs := store.outputs.delete (·.1 = key) }

def distrust (store : Store) (key : Str) : Store :=
  { store with outputs := store.outputs.update (fun k _ => k.1 = key) fun row =>
      { row with size := -1 } }

def checkCachedLoop (store : Store) (key : Str) : List String → Lookup CacheHitStatus × Store
  | [] => (⟨.ok .hit, []⟩, store)
  | path :: rest =>
    match store.outputs.get (key, path) with
    | none => (⟨.ok .miss, []⟩, store)
    | some row =>
      if (files path).isNone then (⟨.ok (.outputMissing path), []⟩, store.distrust key)
      else
        match store.validation with
        | .mtime =>
          if mtimeMatches files path (toU64 row.mtimeSecs) (toU64 row.size) then
            checkCachedLoop store key rest
          else (⟨.ok (.mismatch path), []⟩, store.removeEntry key)
        | .mtimeHash =>
          if mtimeMatches files path (toU64 row.mtimeSecs) (toU64 row.size) then
            checkCachedLoop store key rest
          else
            match hashFile blake3 files path with
            | .error e => (⟨.error e, [path]⟩, store)
            | .ok actual =>
              if actual ≠ row.contentHash then
                (⟨.ok (.mismatch path), [path]⟩, store.removeEntry key)
              else
                let (l, store') := checkCachedLoop store key rest
                (l.reading path, store')
        | .contentHash =>
          match hashFile blake3 files path with
          | .error e => (⟨.error e, [path]⟩, store)
          | .ok actual =>
            if actual ≠ row.contentHash then
              (⟨.ok (.mismatch path), [path]⟩, store.removeEntry key)
            else
              let (l, store') := checkCachedLoop store key rest
              (l.reading path, store')

def checkCached (store : Store) (key : Str) (outputs : List String) :
    Lookup CacheHitStatus × Store :=
  if (store.entries.get key).isNone then (⟨.ok .miss, []⟩, store)
  else checkCachedLoop blake3 files store key outputs

/-! ### Recording -/

def hashOutputs (hashes : String → Option Str) :
    List String → Except CacheError (List (String × Str))
  | [] => .ok []
  | path :: rest => do
    let hash ← match hashes path with
      | some hash => .ok hash
      | none => hashFile blake3 files path
    let others ← hashOutputs hashes rest
    .ok ((path, hash) :: others)

/-- Insert the output records of a key one after another. -/
def insertOutputs (key : Str) :
    List (String × Str) → Table (Str × String) OutputRecord →
      Except CacheError (Table (Str × String) OutputRecord)
  | [], outputs => .ok outputs
  | (path, hash) :: rest, outputs => do
    let (mtime, size) ← fileMeta files path
    match outputs.insertNew (key, path) ⟨hash, toI64 mtime, toI64 size⟩ with
    | none => .error .manifest
    | some outputs => insertOutputs key rest outputs

/-- Replace an entry and its output records in one transaction. -/
def recordWithPlatform (store : Store) (key : Str) (outputs : List (String × Str))
    (entry : Entry) : Except CacheError Unit × Store :=
  match insertOutputs files key outputs (store.outputs.delete (·.1 = key)) with
  | .error e => (.error e, store)
  | .ok rows => (.ok (), { store with entries := store.entries.put key entry, outputs := rows })

/-- Record a completed job's outputs, reusing hashes computed after execution. -/
def recordWithHashes (store : Store) (key : Str) (outputs : List String) (entry : Entry)
    (hashes : String → Option Str) : Except CacheError Unit × Store :=
  match hashOutputs blake3 files hashes outputs with
  | .error e => (.error e, store)
  | .ok pairs => recordWithPlatform files store key pairs { entry with adopted := false }

def record (store : Store) (key : Str) (outputs : List String) (entry : Entry) :
    Except CacheError Unit × Store :=
  recordWithHashes blake3 files store key outputs entry fun _ => none

def recordAdopted (store : Store) (key : Str) (outputs : List String) (entry : Entry) :
    Except CacheError Unit × Store :=
  match hashOutputs blake3 files (fun _ => none) outputs with
  | .error e => (.error e, store)
  | .ok pairs => recordWithPlatform files store key pairs { entry with adopted := true }

/-! ### Removing -/

/-- Remove the entries of some keys and count them. -/
def removeEntries : List Str → Store → ℕ × Store
  | [], store => (0, store)
  | key :: rest, store =>
    if (store.entries.get key).isNone then removeEntries rest store
    else
      let (removed, store') := removeEntries rest (store.removeEntry key)
      (removed + 1, store')

/-- The keys whose entries list a path as an output. -/
def keysOf (store : Store) (path : String) : List Str :=
  ((store.outputs.select fun k _ => k.2 = path).map Prod.fst).dedup

/-- Remove the entries that list one of some outputs, path by path. -/
def invalidate : List String → Store → ℕ × Store
  | [], store => (0, store)
  | path :: rest, store =>
    let (removed, store') := removeEntries (store.keysOf path) store
    let (others, store'') := invalidate rest store'
    (removed + others, store'')

def isOrphan (store : Store) (key : Str) : Bool :=
  (store.outputs.select fun k _ => k.1 = key).any fun k => (files k.2).isNone

def removeOrphans (store : Store) : ℕ × Store :=
  removeEntries (store.entries.rows.map Prod.fst |>.filter fun key => isOrphan files store key) store

/-! ### Input hashes -/

/-- Remember the hash of an input file for the session. -/
def remember (store : Store) (path : String) (hash : Str) : Store :=
  { store with inputMemo := Function.update store.inputMemo path (some hash) }

/-- The stored hash of a file with the given metadata. -/
def storedHash (store : Store) (path : String) (mtime size : ℕ) : Option Str :=
  match store.inputHashes.get path with
  | some row => if toU64 row.mtimeNanos = mtime ∧ toU64 row.size = size then
      some row.contentHash else none
  | none => none

/-- Hash an input file through the session memo and the table by metadata. -/
def hashInputCached (store : Store) (path : String) : Except CacheError Str × Store :=
  match store.inputMemo path with
  | some hash => (.ok hash, store)
  | none =>
    match fileMeta files path with
    | .error e => (.error e, store)
    | .ok (mtime, size) =>
      match store.storedHash path mtime size with
      | some hash => (.ok hash, store.remember path hash)
      | none =>
        match hashFile blake3 files path with
        | .error e => (.error e, store)
        | .ok hash =>
          (.ok hash, { store with
            inputHashes := store.inputHashes.put path ⟨hash, toI64 mtime, toI64 size⟩ }.remember
              path hash)

end Store

end OxyMake.CacheStore
