import OxyMake.OutputCommit
import OxyMake.RemoteSync

/-!
# Records of the tasks of a Ray driver

The wrapper of a task runs its command, finalises the declared outputs and
publishes a record of how the task ended, as an object that is decoded later by
another process. The record carries the status and the exit code side by side,
and each is set at a place of its own. Numbers with a fraction are kept to the
whole seconds that are used of them; removals that fail are ignored by the
wrapper and always succeed here.
-/

namespace OxyMake.TaskRecords

open List
open KeyedTable StagedRename OutputCommit RemoteSync
open CacheKey (CleanOutputs)

variable {β : Type}

/-! ### Finalising the outputs -/

/-- What the system says and does about the renames of a finalisation. -/
structure Renames where
  refused : Phase → String → Bool
  /-- The text of the error of a rename that fails. -/
  message : Phase → String → String

/-- Remove outputs, unless the policy keeps them, and their staging files. -/
def cleanupOutputs (cleanOutputs : CleanOutputs) (outputs : List String)
    (files : String → Option β) : String → Option β :=
  outputs.foldl (fun files path =>
    remove (if cleanOutputs ≠ .never then remove files path else files) (tempPath path)) files

/-- Finalise the outputs of a command that exited with code 0, with the text of the exception. -/
def finalizeOutputs (outputs : List String) (cleanOutputs : CleanOutputs) (os : Renames)
    (files : String → Option β) : Except String Unit × (String → Option β) :=
  match outputs.find? fun path => (files path).isNone with
  | some path => (.error ("OutputMissing: " ++ path), cleanupOutputs cleanOutputs outputs files)
  | none =>
    if cleanOutputs = .never then
      (.ok (), outputs.foldl (fun files path => remove files (tempPath path)) files)
    else
      match stageFrom tempPath (os.refused .stage) [] outputs files with
      | (some path, files) =>
        (.error ("AtomicWriteFailed: " ++ path ++ ": stage rename failed: " ++
          os.message .stage path), files)
      | (none, files) =>
        match commitFrom tempPath (os.refused .commit) outputs outputs files with
        | (some path, files) =>
          (.error ("AtomicWriteFailed: " ++ path ++ ": commit rename failed: " ++
            os.message .commit path), files)
        | (none, files) => (.ok (), files)

/-- Every output is in place with the bytes the command left and without a staging file. -/
def Committed (outputs : List String) (before after : String → Option β) : Prop :=
  ∀ p ∈ outputs, before p ≠ none ∧ after p = before p ∧ after (tempPath p) = none

/-- The outputs exist, none is the staging name of one, and unless the policy keeps them
where they are they differ and their renames are not refused. -/
structure Finalizable (outputs : List String) (cleanOutputs : CleanOutputs) (os : Renames)
    (files : String → Option β) : Prop where
  exist : ∀ p ∈ outputs, files p ≠ none
  apart : Apart tempPath outputs
  nodup : cleanOutputs ≠ .never → outputs.Nodup
  granted : cleanOutputs ≠ .never → ∀ p ∈ outputs, ∀ phase, os.refused phase p = false

/-! ### The wrapper of a task -/

/-- A value of a record. -/
inductive Json
  | null
  | int (n : ℤ)
  | seconds (s : ℕ)
  | str (s : String)
  deriving DecidableEq

abbrev Dict := Table String Json

def update (d : Dict) (entries : List (String × Json)) : Dict :=
  entries.foldl (fun d e => d.put e.1 e.2) d

def optionalStr (s : Option String) : Json := s.elim .null .str

def optionalInt (n : Option UInt64) : Json := n.elim .null fun n => .int n.toNat

def tail (n : ℕ) (s : String) : String := String.ofList (s.toList.drop (s.length - n))

/-- How the command of a task ended. -/
inductive Launch
  /-- An exception kept the command from being started or waited for. -/
  | raised (error : String)
  /-- The command exited; the code is negative for a signal. -/
  | exited (code : Int32) (stderr : String)

/-- A task as it is submitted. -/
structure Task where
  jobId : String
  outputs : List String
  cleanOutputs : CleanOutputs

/-- What the task meets on its node. -/
structure Host (β : Type) where
  launch : Launch
  files : String → Option β
  os : Renames
  start : ℕ
  finish : ℕ
  wallTimeMs : UInt64
  /-- CPU milliseconds of the child, where they can be read. -/
  cpuTimeMs : Option UInt64
  /-- Peak memory of the child in bytes, where it can be read. -/
  peakRssBytes : Option UInt64
  nodeId : Option String
  hostname : String

def newRecord (t : Task) (h : Host β) : Dict :=
  update .empty [("job_id", .str t.jobId), ("started_at", .seconds h.start),
    ("node_id", optionalStr h.nodeId), ("hostname", .str h.hostname)]

/-- The record of a command that was not run. -/
def raisedRecord (t : Task) (h : Host β) (error : String) : Dict :=
  update (newRecord t h) [("status", .str "failed"), ("exit_code", .null),
    ("ended_at", .seconds h.finish), ("wall_time_ms", .int h.wallTimeMs.toNat),
    ("cpu_time_ms", .null), ("peak_rss_bytes", .null), ("error", .str (tail 500 error))]

def exitedRecord (t : Task) (h : Host β) (code : Int32) : Dict :=
  update (newRecord t h) [("status", .str (if code = 0 then "completed" else "failed")),
    ("exit_code", .int code.toInt), ("ended_at", .seconds h.finish),
    ("wall_time_ms", .int h.wallTimeMs.toNat), ("cpu_time_ms", optionalInt h.cpuTimeMs),
    ("peak_rss_bytes", optionalInt h.peakRssBytes)]

/-- What a failure says of the error output of its command. -/
def stderrText (stderr : String) : String :=
  if stderr = "" then "(no stderr)" else tail 2000 stderr

/-- Run one command and publish its record, wherever and however it ends. -/
def runMeasured (t : Task) (h : Host β) : Dict × (String → Option β) :=
  match h.launch with
  | .raised error => (raisedRecord t h error, cleanupOutputs t.cleanOutputs t.outputs h.files)
  | .exited code stderr =>
    let record := exitedRecord t h code
    if code ≠ 0 then
      (update record [("error", .str (tail 500 (stderrText stderr)))],
        cleanupOutputs t.cleanOutputs t.outputs h.files)
    else
      match finalizeOutputs t.outputs t.cleanOutputs h.os h.files with
      | (.error e, files) =>
        (update record [("status", .str "failed"), ("error", .str (tail 500 e))], files)
      | (.ok _, files) => (record, files)

/-! ### Reading a record -/

def Dict.str (d : Dict) (key : String) : Option String :=
  match d.get key with
  | some (.str s) => some s
  | _ => none

def Dict.seconds (d : Dict) (key : String) : Option ℕ :=
  match d.get key with
  | some (.seconds s) => some s
  | some (.int n) => some n.toNat
  | _ => none

def Dict.int? (d : Dict) (low high : ℤ) (key : String) : Option (Option ℤ) :=
  match d.get key with
  | none => some none
  | some .null => some none
  | some (.int n) => if low ≤ n ∧ n < high then some (some n) else none
  | _ => none

def Dict.str? (d : Dict) (key : String) : Option (Option String) :=
  match d.get key with
  | none => some none
  | some .null => some none
  | some (.str s) => some (some s)
  | _ => none

def taskStatus (s : String) : Option TaskStatus :=
  if s = "completed" then some .completed
  else if s = "failed" then some .failed
  else none

/-- Decode a record, of which the other fields are only checked. -/
def decode (d : Dict) : Option TaskRecord := do
  let jobId ← Dict.str d "job_id"
  let status ← taskStatus (← Dict.str d "status")
  let exitCode ← Dict.int? d (-2 ^ 31) (2 ^ 31) "exit_code"
  let startedAt ← Dict.seconds d "started_at"
  let endedAt ← Dict.seconds d "ended_at"
  let wallTimeMs ← Dict.int? d 0 (2 ^ 64) "wall_time_ms"
  let _ ← wallTimeMs
  let _ ← Dict.int? d 0 (2 ^ 64) "cpu_time_ms"
  let _ ← Dict.int? d 0 (2 ^ 64) "peak_rss_bytes"
  let _ ← Dict.str? d "node_id"
  let _ ← Dict.str? d "hostname"
  let _ ← Dict.str? d "error"
  return ⟨jobId, status, exitCode, startedAt, endedAt⟩

theorem int?_optionalInt {d : Dict} {key : String} {n : Option UInt64}
    (h : d.get key = some (optionalInt n)) :
    Dict.int? d 0 (2 ^ 64) key = some (n.map fun n => (n.toNat : ℤ)) := by
  unfold Dict.int?
  rw [h]
  cases n with
  | none => rfl
  | some n =>
    have hbound := n.toNat_lt
    have hrange : (0 : ℤ) ≤ n.toNat ∧ (n.toNat : ℤ) < 2 ^ 64 := by omega
    dsimp only [optionalInt, Option.elim_some]
    rw [if_pos hrange]
    rfl

theorem str?_optionalStr {d : Dict} {key : String} {s : Option String}
    (h : d.get key = some (optionalStr s)) : Dict.str? d key = some s := by
  unfold Dict.str?
  rw [h]
  cases s <;> rfl

theorem int?_eq_some {d : Dict} {key : String} {low high n : ℤ} (h : d.get key = some (.int n))
    (hlow : low ≤ n) (hhigh : n < high) : Dict.int? d low high key = some (some n) := by
  unfold Dict.int?
  rw [h]
  exact if_pos ⟨hlow, hhigh⟩

/-- The parts of a record that is decoded. -/
structure Readable (d : Dict) (r : TaskRecord) : Prop where
  jobId : Dict.str d "job_id" = some r.jobId
  status : (Dict.str d "status").bind taskStatus = some r.status
  exitCode : Dict.int? d (-2 ^ 31) (2 ^ 31) "exit_code" = some r.exitCode
  startedAt : Dict.seconds d "started_at" = some r.startedAt
  endedAt : Dict.seconds d "ended_at" = some r.endedAt
  /-- The wall time is a number. -/
  wallTimeMs : ∃ n, Dict.int? d 0 (2 ^ 64) "wall_time_ms" = some (some n)
  /-- The CPU time is a number, if there is one. -/
  cpuTimeMs : ∃ n, Dict.int? d 0 (2 ^ 64) "cpu_time_ms" = some n
  /-- The peak memory is a number, if there is one. -/
  peakRssBytes : ∃ n, Dict.int? d 0 (2 ^ 64) "peak_rss_bytes" = some n
  /-- The node is a string, if there is one. -/
  nodeId : ∃ s, Dict.str? d "node_id" = some s
  /-- The host is a string, if there is one. -/
  hostname : ∃ s, Dict.str? d "hostname" = some s
  /-- The error is a string, if there is one. -/
  error : ∃ s, Dict.str? d "error" = some s

theorem Readable.decode {d : Dict} {r : TaskRecord} (h : Readable d r) : decode d = some r := by
  obtain ⟨n, hwall⟩ := h.wallTimeMs
  obtain ⟨_, hcpu⟩ := h.cpuTimeMs
  obtain ⟨_, hrss⟩ := h.peakRssBytes
  obtain ⟨_, hnode⟩ := h.nodeId
  obtain ⟨_, hhost⟩ := h.hostname
  obtain ⟨_, herror⟩ := h.error
  obtain ⟨_, hname, hstatus⟩ := Option.bind_eq_some_iff.mp h.status
  unfold TaskRecords.decode
  rw [h.jobId, hname, h.exitCode, h.startedAt, h.endedAt, hwall, hcpu, hrss, hnode, hhost, herror]
  dsimp only [Option.bind_eq_bind, Option.bind_some]
  rw [hstatus]
  rfl

theorem update_update (d : Dict) (first second : List (String × Json)) :
    update (update d first) second = update d (first ++ second) :=
  (foldl_append ..).symm

theorem get_update (entries : List (String × Json)) (key : String) :
    (update .empty entries).get key = entries.reverse.lookup key := by
  induction entries using List.reverseRecOn with
  | nil => rfl
  | append_singleton entries e ih =>
    have hlast : update .empty (entries ++ [e]) = (update .empty entries).put e.1 e.2 :=
      (update_update .empty entries [e]).symm
    rw [hlast, Table.get_put, reverse_append, reverse_singleton, singleton_append,
      lookup_cons, ih]
    by_cases hkey : key = e.1
    · rw [if_pos hkey, beq_iff_eq.mpr hkey]
    · rw [if_neg hkey, beq_eq_false_iff_ne.mpr hkey]

theorem readable_raisedRecord (t : Task) (h : Host β) (error : String) :
    Readable (raisedRecord t h error) ⟨t.jobId, .failed, none, h.start, h.finish⟩ := by
  have hw := h.wallTimeMs.toNat_lt
  have hget : ∀ key, (raisedRecord t h error).get key = _ := fun key => by
    rw [raisedRecord, newRecord, update_update, get_update]
  constructor
  · unfold Dict.str
    rw [hget]
    rfl
  · unfold Dict.str
    rw [hget]
    rfl
  · unfold Dict.int?
    rw [hget]
    rfl
  · unfold Dict.seconds
    rw [hget]
    rfl
  · unfold Dict.seconds
    rw [hget]
    rfl
  · exact ⟨_, int?_eq_some ((hget _).trans rfl) (by omega) (by omega)⟩
  · exact ⟨_, int?_optionalInt (n := none) ((hget _).trans rfl)⟩
  · exact ⟨_, int?_optionalInt (n := none) ((hget _).trans rfl)⟩
  · exact ⟨_, str?_optionalStr ((hget _).trans rfl)⟩
  · exact ⟨_, str?_optionalStr (s := some h.hostname) ((hget _).trans rfl)⟩
  · exact ⟨_, str?_optionalStr (s := some _) ((hget _).trans rfl)⟩

theorem readable_exitedRecord (t : Task) (h : Host β) (code : Int32) :
    Readable (exitedRecord t h code) ⟨t.jobId, if code = 0 then .completed else .failed,
      some code.toInt, h.start, h.finish⟩ := by
  have hw := h.wallTimeMs.toNat_lt
  have hget : ∀ key, (exitedRecord t h code).get key = _ := fun key => by
    rw [exitedRecord, newRecord, update_update, get_update]
  constructor
  · unfold Dict.str
    rw [hget]
    rfl
  · unfold Dict.str
    rw [hget]
    by_cases hcode : code = 0
    · rw [if_pos hcode, if_pos hcode]
      rfl
    · rw [if_neg hcode, if_neg hcode]
      rfl
  · exact int?_eq_some ((hget _).trans rfl) code.le_toInt code.toInt_lt
  · unfold Dict.seconds
    rw [hget]
    rfl
  · unfold Dict.seconds
    rw [hget]
    rfl
  · exact ⟨_, int?_eq_some ((hget _).trans rfl) (by omega) (by omega)⟩
  · exact ⟨_, int?_optionalInt ((hget _).trans rfl)⟩
  · exact ⟨_, int?_optionalInt ((hget _).trans rfl)⟩
  · exact ⟨_, str?_optionalStr ((hget _).trans rfl)⟩
  · exact ⟨_, str?_optionalStr (s := some h.hostname) ((hget _).trans rfl)⟩
  · refine ⟨none, ?_⟩
    unfold Dict.str?
    rw [hget]
    rfl

theorem Readable.replace {d d' : Dict} {r : TaskRecord} (h : Readable d r) {status : TaskStatus}
    (hstatus : (Dict.str d' "status").bind taskStatus = some status)
    (herror : ∃ s, Dict.str? d' "error" = some s)
    (hother : ∀ key, key ≠ "status" → key ≠ "error" → d'.get key = d.get key) :
    Readable d' { r with status := status } := by
  have hstr : ∀ key, key ≠ "status" → key ≠ "error" → Dict.str d' key = Dict.str d key := by
    intro key hs he
    unfold Dict.str
    rw [hother key hs he]
  have hseconds : ∀ key, key ≠ "status" → key ≠ "error" →
      Dict.seconds d' key = Dict.seconds d key := by
    intro key hs he
    unfold Dict.seconds
    rw [hother key hs he]
  have hint : ∀ low high key, key ≠ "status" → key ≠ "error" →
      Dict.int? d' low high key = Dict.int? d low high key := by
    intro low high key hs he
    unfold Dict.int?
    rw [hother key hs he]
  have hstr? : ∀ key, key ≠ "status" → key ≠ "error" → Dict.str? d' key = Dict.str? d key := by
    intro key hs he
    unfold Dict.str?
    rw [hother key hs he]
  constructor
  · exact (hstr _ (by decide) (by decide)).trans h.jobId
  · exact hstatus
  · exact (hint _ _ _ (by decide) (by decide)).trans h.exitCode
  · exact (hseconds _ (by decide) (by decide)).trans h.startedAt
  · exact (hseconds _ (by decide) (by decide)).trans h.endedAt
  · rw [hint _ _ _ (by decide) (by decide)]
    exact h.wallTimeMs
  · rw [hint _ _ _ (by decide) (by decide)]
    exact h.cpuTimeMs
  · rw [hint _ _ _ (by decide) (by decide)]
    exact h.peakRssBytes
  · rw [hstr? _ (by decide) (by decide)]
    exact h.nodeId
  · rw [hstr? _ (by decide) (by decide)]
    exact h.hostname
  · exact herror

theorem Readable.error_put {d : Dict} {r : TaskRecord} (h : Readable d r) (e : String) :
    Readable (update d [("error", .str e)]) r := by
  have hput : ∀ key, (update d [("error", .str e)]).get key =
      if key = "error" then some (.str e) else d.get key := Table.get_put "error" _ d
  refine h.replace ?_ ⟨_, str?_optionalStr (s := some e) ((hput _).trans (if_pos rfl))⟩
    fun key _ hkey => (hput key).trans (if_neg hkey)
  unfold Dict.str
  rw [hput, if_neg (by decide)]
  exact h.status

theorem Readable.fail {d : Dict} {r : TaskRecord} (h : Readable d r) (e : String) :
    Readable (update d [("status", .str "failed"), ("error", .str e)])
      { r with status := .failed } := by
  have hput : ∀ key, (update d [("status", .str "failed"), ("error", .str e)]).get key =
      if key = "error" then some (.str e)
      else if key = "status" then some (.str "failed") else d.get key := by
    intro key
    have hlast := Table.get_put "error" (.str e) (d.put "status" (.str "failed")) key
    rw [Table.get_put "status" _ d] at hlast
    exact hlast
  refine h.replace ?_ ⟨_, str?_optionalStr (s := some e) ((hput _).trans (if_pos rfl))⟩
    fun key hs he => (hput key).trans ((if_neg he).trans (if_neg hs))
  unfold Dict.str
  rw [hput, if_neg (by decide), if_pos rfl]
  rfl
/-! ### What a finalisation commits -/

theorem removeTemps_spec (outputs : List String) (files : String → Option β) (x : String) :
    outputs.foldl (fun files path => remove files (tempPath path)) files x =
      if x ∈ outputs.map tempPath then none else files x := by
  induction outputs generalizing files with
  | nil => rfl
  | cons p outputs ih =>
    rw [foldl_cons, ih, map_cons]
    by_cases hrest : x ∈ outputs.map tempPath
    · rw [if_pos hrest, if_pos (.tail _ hrest)]
    · rw [if_neg hrest]
      by_cases hp : x = tempPath p
      · rw [if_pos (hp ▸ mem_cons_self), hp]
        exact Function.update_self _ _ _
      · rw [if_neg (mem_cons.not.mpr (not_or.mpr ⟨hp, hrest⟩))]
        exact Function.update_of_ne hp _ _

theorem Committed.apart {outputs : List String} {before after : String → Option β}
    (h : Committed outputs before after) : Apart tempPath outputs := by
  intro p hp q hq heq
  obtain ⟨-, -, hnone⟩ := h p hp
  obtain ⟨hexist, hback, -⟩ := h q hq
  rw [heq, hback] at hnone
  exact hexist hnone

theorem granted_of_stageFrom {fails : String → Bool} {outputs staged : List String}
    {files after : String → Option β}
    (h : stageFrom tempPath fails staged outputs files = (none, after)) :
    ∀ p ∈ outputs, fails p = false := by
  induction outputs generalizing staged files with
  | nil => exact fun p hp => absurd hp not_mem_nil
  | cons p outputs ih =>
    unfold stageFrom at h
    cases hp : fails p with
    | true =>
      rw [hp, if_pos rfl] at h
      cases h
    | false =>
      rw [hp, if_neg Bool.false_ne_true] at h
      cases hrename : rename files p (tempPath p) with
      | none =>
        rw [hrename] at h
        cases h
      | some =>
        rw [hrename] at h
        intro q hq
        rcases mem_cons.mp hq with rfl | hq
        · exact hp
        · exact ih h q hq

theorem granted_of_commitFrom {fails : String → Bool} {all outputs : List String}
    {files after : String → Option β}
    (h : commitFrom tempPath fails all outputs files = (none, after)) :
    ∀ p ∈ outputs, fails p = false := by
  induction outputs generalizing files with
  | nil => exact fun p hp => absurd hp not_mem_nil
  | cons p outputs ih =>
    unfold commitFrom at h
    cases hp : fails p with
    | true =>
      rw [hp, if_pos rfl] at h
      cases h
    | false =>
      rw [hp, if_neg Bool.false_ne_true] at h
      cases hrename : rename files (tempPath p) p with
      | none =>
        rw [hrename] at h
        cases h
      | some =>
        rw [hrename] at h
        intro q hq
        rcases mem_cons.mp hq with rfl | hq
        · exact hp
        · exact ih h q hq

theorem first_repetition {α : Type} {l : List α} (h : ¬ l.Nodup) :
    ∃ done p rest, l = done ++ p :: rest ∧ done.Nodup ∧ p ∈ done := by
  induction l using List.reverseRecOn with
  | nil => exact absurd nodup_nil h
  | append_singleton l a ih =>
    by_cases hl : l.Nodup
    · refine ⟨l, a, [], rfl, hl, ?_⟩
      by_contra hnot
      exact h (nodup_append.mpr ⟨hl, nodup_singleton a, fun x hx y hy heq =>
        hnot (mem_singleton.mp hy ▸ heq ▸ hx)⟩)
    · obtain ⟨done, p, rest, hsplit, hdone, hp⟩ := ih hl
      exact ⟨done, p, rest ++ [a], by rw [hsplit, append_assoc, cons_append], hdone, hp⟩

theorem nodup_of_stageFrom {fails : String → Bool} {outputs : List String}
    {files after : String → Option β} (hapart : Apart tempPath outputs)
    (hexist : ∀ p ∈ outputs, files p ≠ none)
    (h : stageFrom tempPath fails [] outputs files = (none, after)) : outputs.Nodup := by
  have hgranted := granted_of_stageFrom h
  by_contra hdup
  obtain ⟨done, p, rest, hsplit, hnodup, hp⟩ := first_repetition hdup
  have hsub : ∀ q ∈ done, q ∈ outputs := fun q hq => hsplit ▸ mem_append_left _ hq
  obtain ⟨staged, hstaged, hrun⟩ := stageFrom_apart tempPath_injective tempPath_ne fails done
    (p :: rest) hnodup (fun a ha b hb => hapart a (hsub a ha) b (hsub b hb))
    (fun q hq => hgranted q (hsub q hq)) (fun q hq => hexist q (hsub q hq))
  rw [hsplit, hrun, stageFrom, hgranted p (hsub p hp), if_neg Bool.false_ne_true] at h
  have hgone : rename staged p (tempPath p) = none := by
    rw [StagedRename.rename, hstaged.gone p hp]
  rw [hgone] at h
  cases h

theorem finalizeOutputs_committed_iff (outputs : List String) (cleanOutputs : CleanOutputs)
    (os : Renames) (files : String → Option β) :
    ((finalizeOutputs outputs cleanOutputs os files).1 = .ok () ∧
      Committed outputs files (finalizeOutputs outputs cleanOutputs os files).2) ↔
      Finalizable outputs cleanOutputs os files := by
  unfold finalizeOutputs
  cases hfind : outputs.find? fun path => (files path).isNone with
  | some path =>
    dsimp only
    refine iff_of_false (fun h => nomatch h.1) fun h => ?_
    have hnone := find?_some hfind
    exact h.exist path (mem_of_find?_eq_some hfind) (Option.isNone_iff_eq_none.mp hnone)
  | none =>
    have hexist : ∀ p ∈ outputs, files p ≠ none := by
      intro p hp hnone
      exact find?_eq_none.mp hfind p hp (Option.isNone_iff_eq_none.mpr hnone)
    dsimp only
    by_cases hclean : cleanOutputs = .never
    · rw [if_pos hclean]
      constructor
      · exact fun h => ⟨hexist, h.2.apart, fun hne => absurd hclean hne,
          fun hne => absurd hclean hne⟩
      · intro h
        refine ⟨rfl, fun p hp => ⟨hexist p hp, ?_, ?_⟩⟩
        · dsimp only
          rw [removeTemps_spec, if_neg]
          intro hmem
          obtain ⟨q, hq, heq⟩ := mem_map.mp hmem
          exact h.apart q hq p hp heq
        · dsimp only
          rw [removeTemps_spec, if_pos (mem_map_of_mem hp)]
    · rw [if_neg hclean]
      constructor
      · intro h
        cases hstage : stageFrom tempPath (os.refused .stage) [] outputs files with
        | mk failed staged =>
          rw [hstage] at h
          cases failed with
          | some => exact nomatch h.1
          | none =>
            dsimp only at h
            cases hcommit : commitFrom tempPath (os.refused .commit) outputs outputs staged with
            | mk failed =>
              rw [hcommit] at h
              cases failed with
              | some => exact nomatch h.1
              | none =>
                have hapart := h.2.apart
                refine ⟨hexist, hapart, fun _ => nodup_of_stageFrom hapart hexist hstage, ?_⟩
                intro _ p hp phase
                cases phase with
                | stage => exact granted_of_stageFrom hstage p hp
                | commit => exact granted_of_commitFrom hcommit p hp
      · intro h
        obtain ⟨staged, hstaged, hstage⟩ := stageFrom_apart tempPath_injective tempPath_ne
          (os.refused .stage) outputs [] (h.nodup hclean) h.apart
          (fun p hp => h.granted hclean p hp .stage) hexist
        obtain ⟨_, hrestored, hcommit, -⟩ := restore_apart tempPath_injective
          (os.refused .commit) outputs outputs staged [] (h.nodup hclean) h.apart
          (fun p hp => h.granted hclean p hp .commit) fun p hp => by
            rw [hstaged.held p hp]
            exact hexist p hp
        rw [append_nil] at hstage hcommit
        rw [hstage]
        dsimp only [stageFrom]
        rw [hcommit]
        exact ⟨rfl, fun p hp => ⟨hexist p hp, (hrestored.back p hp).trans (hstaged.held p hp),
          hrestored.cleared p hp⟩⟩

/-! ### What a record says -/

def published (t : Task) (h : Host β) : TaskRecord :=
  match h.launch with
  | .raised _ => ⟨t.jobId, .failed, none, h.start, h.finish⟩
  | .exited code _ =>
    let committed := (finalizeOutputs t.outputs t.cleanOutputs h.os h.files).1.isOk
    ⟨t.jobId, if code = 0 ∧ committed then .completed else .failed, some code.toInt, h.start,
      h.finish⟩

theorem decode_runMeasured (t : Task) (h : Host β) :
    decode (runMeasured t h).1 = some (published t h) := by
  have hreadable : Readable (runMeasured t h).1 (published t h) := by
    unfold runMeasured published
    cases h.launch with
    | raised error =>
      dsimp only
      exact readable_raisedRecord t h error
    | exited code stderr =>
      dsimp only
      have hread := readable_exitedRecord t h code
      by_cases hcode : code = 0
      · rw [if_neg (not_not.mpr hcode)]
        rw [if_pos hcode] at hread
        cases finalizeOutputs t.outputs t.cleanOutputs h.os h.files with
        | mk result =>
          cases result with
          | error e =>
            dsimp only
            rw [if_neg fun hboth => nomatch hboth.2]
            exact hread.fail (tail 500 e)
          | ok =>
            dsimp only
            rw [if_pos ⟨hcode, rfl⟩]
            exact hread
      · rw [if_pos hcode, if_neg fun hboth => hcode hboth.1]
        rw [if_neg hcode] at hread
        dsimp only
        exact hread.error_put (tail 500 (stderrText stderr))
  exact hreadable.decode

/-- The command exited with code 0 and the outputs were all committed. -/
structure Succeeded (t : Task) (h : Host β) : Prop where
  /-- The command exited with code 0. -/
  exited : ∃ stderr, h.launch = .exited 0 stderr
  finalized : (finalizeOutputs t.outputs t.cleanOutputs h.os h.files).1 = .ok ()
  committed : Committed t.outputs h.files (finalizeOutputs t.outputs t.cleanOutputs h.os h.files).2

/-- A command that exited with code 0 has outputs that can be finalised. -/
def NoLateFailure (t : Task) (h : Host β) : Prop :=
  ∀ stderr, h.launch = .exited 0 stderr → Finalizable t.outputs t.cleanOutputs h.os h.files

theorem published_completed_iff (t : Task) (h : Host β) : (published t h).status = .completed ↔
    (∃ stderr, h.launch = .exited 0 stderr) ∧
      (finalizeOutputs t.outputs t.cleanOutputs h.os h.files).1 = .ok () := by
  have hok : ∀ r : Except String Unit, r.isOk = true ↔ r = .ok () := by
    intro r
    cases r with
    | error => exact iff_of_false Bool.false_ne_true (fun heq => nomatch heq)
    | ok => exact iff_of_true rfl rfl
  unfold published
  cases h.launch with
  | raised =>
    exact iff_of_false (fun heq => nomatch heq) fun hboth => nomatch hboth.1
  | exited code stderr =>
    dsimp only
    rw [← hok]
    constructor
    · intro hstatus
      by_contra hnot
      rw [if_neg] at hstatus
      · cases hstatus
      · exact fun hboth => hnot ⟨⟨stderr, by rw [hboth.1]⟩, hboth.2⟩
    · rintro ⟨⟨_, heq⟩, hfinal⟩
      cases heq
      exact if_pos ⟨rfl, hfinal⟩

theorem noLateFailure_iff (t : Task) (h : Host β) : NoLateFailure t h ↔
    ((published t h).status = .failed → (published t h).exitCodeOrDefault ≠ 0) ∧
      ((published t h).status = .completed → Succeeded t h) := by
  have hcompleted := published_completed_iff t h
  have hcode : ∀ code stderr, h.launch = .exited code stderr →
      (published t h).exitCodeOrDefault = code.toInt := by
    intro code stderr hlaunch
    unfold published
    rw [hlaunch]
    rfl
  constructor
  · intro hlate
    constructor
    · intro hfailed hzero
      cases hlaunch : h.launch with
      | raised =>
        have hone : (published t h).exitCodeOrDefault = 1 := by
          unfold published
          rw [hlaunch]
          rfl
        rw [hone] at hzero
        cases hzero
      | exited code stderr =>
        have hexit : code = 0 := Int32.toInt_inj.mp ((hcode code stderr hlaunch).symm.trans hzero)
        subst hexit
        have hfinal := (finalizeOutputs_committed_iff _ _ _ _).mpr (hlate stderr hlaunch)
        rw [hcompleted.mpr ⟨⟨stderr, hlaunch⟩, hfinal.1⟩] at hfailed
        cases hfailed
    · intro hstatus
      obtain ⟨⟨stderr, hlaunch⟩, hfinal⟩ := hcompleted.mp hstatus
      have hcommitted := (finalizeOutputs_committed_iff _ _ _ _).mpr (hlate stderr hlaunch)
      exact ⟨⟨stderr, hlaunch⟩, hfinal, hcommitted.2⟩
  · rintro ⟨hfailed, hsucceeded⟩ stderr hlaunch
    cases hstatus : (published t h).status with
    | completed =>
      have hdone := hsucceeded hstatus
      exact (finalizeOutputs_committed_iff _ _ _ _).mp ⟨hdone.finalized, hdone.committed⟩
    | failed =>
      exact absurd (hcode 0 stderr hlaunch) (hfailed hstatus)

end OxyMake.TaskRecords
