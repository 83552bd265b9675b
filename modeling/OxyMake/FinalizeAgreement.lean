import OxyMake.OutputCommit

/-!
# Two finalisations of one job

The local executor and the Python driver on Ray finalise the outputs of a job
with programs of their own. Both verify the outputs, move them to their staging
names and back, and meet the same failing renames on the same files. They differ
in what they clear: the driver removes the staging files after a missing output
and with the policy that keeps outputs, the local executor does not.
-/

namespace OxyMake.FinalizeAgreement

open List
open OutputCommit
open CacheKey (CleanOutputs)
open StagedRename (Phase)

variable {β : Type}

/-! ### Files -/

/-- What may be at a path. -/
inductive Entry (β : Type)
  /-- A file, or a link to something that exists. -/
  | file (content : β)
  | directory (content : β)
  | dangling (content : β)

def Entry.found : Entry β → Bool
  | .dangling _ => false
  | _ => true

def Entry.removable : Entry β → Bool
  | .directory _ => false
  | _ => true

/-- Files, and the number of renames that were tried. -/
@[ext]
structure Disk (β : Type) where
  files : String → Option (Entry β)
  renames : ℕ

def Disk.present (disk : Disk β) (path : String) : Bool := (disk.files path).any Entry.found

/-- Remove a file; a failure changes nothing and is ignored. -/
def Disk.removeFile (disk : Disk β) (path : String) : Disk β :=
  match disk.files path with
  | some entry =>
    if entry.removable then { disk with files := Function.update disk.files path none } else disk
  | none => disk

/-- Rename what is at a path. The pattern says which renames the system refuses. -/
def Disk.rename (refused : ℕ → Bool) (disk : Disk β) (source target : String) : Bool × Disk β :=
  let tried := { disk with renames := disk.renames + 1 }
  if refused disk.renames then (false, tried)
  else
    match disk.files source with
    | none => (false, tried)
    | some entry =>
      (true, { tried with
        files := Function.update (Function.update disk.files source none) target (some entry) })

inductive Failure
  | outputMissing (path : String)
  | atomicWriteFailed (phase : Phase) (path : String)
  deriving DecidableEq

/-! ### The two phases -/

def rollback (refused : ℕ → Bool) : List String → Disk β → Disk β
  | [], disk => disk
  | path :: rest, disk => rollback refused rest (disk.rename refused (tempPath path) path).2

def stage (refused : ℕ → Bool) : List String → List String → Disk β →
    Except Failure Unit × Disk β
  | _, [], disk => (.ok (), disk)
  | staged, path :: rest, disk =>
    match disk.rename refused path (tempPath path) with
    | (false, disk) => (.error (.atomicWriteFailed .stage path), rollback refused staged disk)
    | (true, disk) => stage refused (staged ++ [path]) rest disk

def commit (refused : ℕ → Bool) (clean : Disk β → Disk β) : List String → Disk β →
    Except Failure Unit × Disk β
  | [], disk => (.ok (), disk)
  | path :: rest, disk =>
    match disk.rename refused (tempPath path) path with
    | (false, disk) => (.error (.atomicWriteFailed .commit path), clean disk)
    | (true, disk) => commit refused clean rest disk

def twoPhase (refused : ℕ → Bool) (clean : Disk β → Disk β) (outputs : List String)
    (disk : Disk β) : Except Failure Unit × Disk β :=
  match stage refused [] outputs disk with
  | (.error e, disk) => (.error e, disk)
  | (.ok _, disk) => commit refused clean outputs disk

/-! ### The local executor -/

def removeOutputs (outputs : List String) (disk : Disk β) : Disk β :=
  outputs.foldl Disk.removeFile disk

/-- Remove the outputs of a failed command, unless the policy keeps them, and their staging
files. -/
def clearFailed (policy : CleanOutputs) (outputs : List String) (disk : Disk β) : Disk β :=
  outputs.foldl (fun disk path =>
    (if policy ≠ .never then disk.removeFile path else disk).removeFile (tempPath path)) disk

/-- Remove the staging files and the outputs after a failed commit. -/
def clearCommit (outputs : List String) (disk : Disk β) : Disk β :=
  outputs.foldl (fun disk path => (disk.removeFile (tempPath path)).removeFile path) disk

def finalizeWorkspace (outputs : List String) (policy : CleanOutputs) (exitCode : ℤ)
    (refused : ℕ → Bool) (disk : Disk β) : Except Failure Unit × Disk β :=
  if outputs.isEmpty then (.ok (), disk)
  else if exitCode ≠ 0 then (.ok (), clearFailed policy outputs disk)
  else
    match outputs.find? fun path => !disk.present path with
    | some path =>
      (.error (.outputMissing path),
        if policy ≠ .never then removeOutputs outputs disk else disk)
    | none =>
      if policy = .never then (.ok (), disk)
      else twoPhase refused (clearCommit outputs) outputs disk

/-! ### The driver on Ray -/

/-- Remove the outputs, unless the policy keeps them, and their staging files. -/
def cleanupOutputs (policy : CleanOutputs) (outputs : List String) (disk : Disk β) : Disk β :=
  outputs.foldl (fun disk path =>
    (if policy ≠ .never then disk.removeFile path else disk).removeFile (tempPath path)) disk

/-- Finalise the outputs of a command that exited with code 0. -/
def finalizeOutputs (outputs : List String) (policy : CleanOutputs) (refused : ℕ → Bool)
    (disk : Disk β) : Except Failure Unit × Disk β :=
  match outputs.find? fun path => !disk.present path with
  | some path => (.error (.outputMissing path), cleanupOutputs policy outputs disk)
  | none =>
    if policy = .never then
      (.ok (), outputs.foldl (fun disk path => disk.removeFile (tempPath path)) disk)
    else twoPhase refused (cleanupOutputs policy outputs) outputs disk

/-- Finalise after the command of a task, whatever code it exited with. -/
def finalizeTask (outputs : List String) (policy : CleanOutputs) (exitCode : ℤ)
    (refused : ℕ → Bool) (disk : Disk β) : Except Failure Unit × Disk β :=
  if exitCode ≠ 0 then (.ok (), cleanupOutputs policy outputs disk)
  else finalizeOutputs outputs policy refused disk

/-! ### Removing files -/

theorem files_removeFile (disk : Disk β) (path x : String) :
    (disk.removeFile path).files x =
      if x = path ∧ (disk.files x).any Entry.removable then none else disk.files x := by
  rw [Disk.removeFile]
  by_cases hx : x = path
  · subst hx
    cases hentry : disk.files x with
    | none =>
      rw [if_neg fun h => Bool.false_ne_true h.2]
      exact hentry
    | some entry =>
      dsimp only [Option.any_some]
      by_cases hremovable : entry.removable = true
      · rw [if_pos hremovable, if_pos ⟨rfl, hremovable⟩]
        exact Function.update_self _ _ _
      · rw [if_neg hremovable, if_neg fun h => hremovable h.2, hentry]
  · rw [if_neg fun h => hx h.1]
    cases disk.files path with
    | none => rfl
    | some entry =>
      dsimp only
      by_cases hremovable : entry.removable = true
      · rw [if_pos hremovable]
        exact Function.update_of_ne hx _ _
      · rw [if_neg hremovable]

theorem renames_removeFile (disk : Disk β) (path : String) :
    (disk.removeFile path).renames = disk.renames := by
  rw [Disk.removeFile]
  cases disk.files path with
  | none => rfl
  | some =>
    dsimp only
    split <;> rfl

def without (paths : List String) (disk : Disk β) : Disk β where
  files x := if x ∈ paths ∧ (disk.files x).any Entry.removable then none else disk.files x
  renames := disk.renames

theorem removeFile_eq (disk : Disk β) (path : String) :
    disk.removeFile path = without [path] disk := by
  apply Disk.ext
  · funext x
    rw [files_removeFile, without]
    simp only [mem_singleton]
  · exact renames_removeFile disk path

theorem without_without (first second : List String) (disk : Disk β) :
    without second (without first disk) = without (first ++ second) disk := by
  apply Disk.ext
  · funext x
    by_cases hremovable : (disk.files x).any Entry.removable = true
    · by_cases hfirst : x ∈ first
      · simp [without, hremovable, hfirst]
      · simp [without, hremovable, hfirst]
    · simp [without, hremovable]
  · rfl

theorem foldl_without (paths : String → List String) (outputs : List String) (disk : Disk β) :
    outputs.foldl (fun disk path => without (paths path) disk) disk =
      without (outputs.flatMap paths) disk := by
  induction outputs generalizing disk with
  | nil =>
    cases disk with
    | mk =>
      simp only [foldl_nil, flatMap_nil, without, not_mem_nil, false_and, if_false]
  | cons path rest ih => rw [foldl_cons, ih, without_without, flatMap_cons]

theorem without_congr {first second : List String} (h : ∀ x, x ∈ first ↔ x ∈ second)
    (disk : Disk β) : without first disk = without second disk := by
  simp only [without, h]

/-- The paths that are cleared after a failed command. -/
def clearedPaths (policy : CleanOutputs) (outputs : List String) : List String :=
  outputs.flatMap fun path => (if policy ≠ .never then [path] else []) ++ [tempPath path]

theorem cleanupOutputs_eq (policy : CleanOutputs) (outputs : List String) (disk : Disk β) :
    cleanupOutputs policy outputs disk = without (clearedPaths policy outputs) disk := by
  rw [clearedPaths, ← foldl_without, cleanupOutputs]
  congr 1
  funext disk path
  by_cases hpolicy : policy ≠ .never
  · rw [if_pos hpolicy, if_pos hpolicy, removeFile_eq, removeFile_eq, without_without]
  · rw [if_neg hpolicy, if_neg hpolicy, removeFile_eq, nil_append]

theorem removeOutputs_eq (outputs : List String) (disk : Disk β) :
    removeOutputs outputs disk = without outputs disk := by
  have hflat : outputs.flatMap (fun path => [path]) = outputs := flatMap_singleton' outputs
  rw [← congrArg (without · disk) hflat, ← foldl_without, removeOutputs]
  congr 1
  funext disk path
  exact removeFile_eq disk path

theorem removeStaged_eq (outputs : List String) (disk : Disk β) :
    outputs.foldl (fun disk path => disk.removeFile (tempPath path)) disk =
      without (outputs.map tempPath) disk := by
  rw [map_eq_flatMap, ← foldl_without]
  congr 1
  funext disk path
  exact removeFile_eq disk (tempPath path)

theorem clearCommit_eq {policy : CleanOutputs} (h : policy ≠ .never) (outputs : List String) :
    clearCommit (β := β) outputs = cleanupOutputs policy outputs := by
  funext disk
  have hclear : clearCommit outputs disk =
      without (outputs.flatMap fun path => [tempPath path] ++ [path]) disk := by
    rw [← foldl_without, clearCommit]
    congr 1
    funext disk path
    rw [removeFile_eq, removeFile_eq, without_without]
  rw [hclear, cleanupOutputs_eq]
  apply without_congr
  intro x
  simp only [clearedPaths, if_pos h, mem_flatMap, mem_append, or_comm]

/-! ### Agreement -/

/-- Both succeed or fail in the same way, and leave the same at every output and every staging
path. -/
def Agree (outputs : List String) (first second : Except Failure Unit × Disk β) : Prop :=
  first.1 = second.1 ∧ ∀ path ∈ outputs, first.2.files path = second.2.files path ∧
    first.2.files (tempPath path) = second.2.files (tempPath path)

/-- Something that can be removed is left at the staging path of an output, unless the path is
an output itself and the policy gives outputs up. -/
def Scratch (outputs : List String) (policy : CleanOutputs) (disk : Disk β) : Prop :=
  ∃ path ∈ outputs, (disk.files (tempPath path)).any Entry.removable = true ∧
    ¬ (policy ≠ .never ∧ tempPath path ∈ outputs)

theorem without_eq_iff (paths more : List String) (disk : Disk β) (x : String) :
    (without paths disk).files x = (without more disk).files x ↔
      ((disk.files x).any Entry.removable = true → (x ∈ paths ↔ x ∈ more)) := by
  by_cases hremovable : (disk.files x).any Entry.removable = true
  · obtain ⟨entry, hentry⟩ : ∃ entry, disk.files x = some entry := by
      cases hfile : disk.files x with
      | none =>
        rw [hfile] at hremovable
        cases hremovable
      | some entry => exact ⟨entry, rfl⟩
    by_cases hpaths : x ∈ paths <;> by_cases hmore : x ∈ more <;>
      simp [without, hpaths, hmore, hentry]
  · simp [without, hremovable]

theorem without_nil (disk : Disk β) : without [] disk = disk := by
  apply Disk.ext
  · funext x
    simp only [without, not_mem_nil, false_and, if_false]
  · rfl

theorem agree_without_iff {outputs kept cleared : List String} {policy : CleanOutputs}
    {disk : Disk β} (result : Except Failure Unit)
    (hkept : ∀ x, x ∈ kept ↔ policy ≠ .never ∧ x ∈ outputs)
    (hcleared : ∀ x, x ∈ cleared ↔ x ∈ kept ∨ x ∈ outputs.map tempPath) :
    Agree outputs (result, without kept disk) (result, without cleared disk) ↔
      ¬ Scratch outputs policy disk := by
  have hsame : ∀ x, (without kept disk).files x = (without cleared disk).files x ↔
      ((disk.files x).any Entry.removable = true → x ∈ outputs.map tempPath →
        policy ≠ .never ∧ x ∈ outputs) := by
    intro x
    rw [without_eq_iff, hcleared, ← hkept]
    tauto
  constructor
  · rintro ⟨-, hall⟩ ⟨path, hpath, hremovable, hnot⟩
    exact hnot ((hsame _).mp (hall path hpath).2 hremovable (mem_map_of_mem hpath))
  · intro hnone
    have hstaged : ∀ x, (without kept disk).files x = (without cleared disk).files x := by
      intro x
      rw [hsame]
      intro hremovable hmem
      obtain ⟨path, hpath, rfl⟩ := mem_map.mp hmem
      by_contra hnot
      exact hnone ⟨path, hpath, hremovable, hnot⟩
    exact ⟨rfl, fun path _ => ⟨hstaged path, hstaged (tempPath path)⟩⟩

/-- The two finalisations agree exactly when the command failed, or there is no output, or all
outputs are there under a policy that gives outputs up, or nothing is left at a staging path
that only the driver clears. -/
theorem agree_iff (outputs : List String) (policy : CleanOutputs) (exitCode : ℤ)
    (refused : ℕ → Bool) (disk : Disk β) :
    Agree outputs (finalizeWorkspace outputs policy exitCode refused disk)
        (finalizeTask outputs policy exitCode refused disk) ↔
      exitCode ≠ 0 ∨ (policy ≠ .never ∧ ∀ path ∈ outputs, disk.present path = true) ∨
        ¬ Scratch outputs policy disk := by
  have hself : ∀ result : Except Failure Unit × Disk β, Agree outputs result result :=
    fun _ => ⟨rfl, fun _ _ => ⟨rfl, rfl⟩⟩
  rw [finalizeWorkspace, finalizeTask]
  by_cases hcode : exitCode = 0
  · by_cases hempty : outputs.isEmpty = true
    · have hnil : outputs = [] := List.isEmpty_iff.mp hempty
      subst hnil
      refine iff_of_true ?_ (.inr (.inr fun ⟨_, h, _⟩ => absurd h not_mem_nil))
      rw [if_pos hempty, if_neg (not_not.mpr hcode), finalizeOutputs, find?_nil]
      dsimp only
      by_cases hpolicy : policy = .never
      · rw [if_pos hpolicy]
        exact hself _
      · rw [if_neg hpolicy]
        exact hself _
    · rw [if_neg hempty, if_neg (not_not.mpr hcode), if_neg (not_not.mpr hcode), finalizeOutputs]
      cases hfind : outputs.find? fun path => !disk.present path with
      | some path =>
        have habsent : ¬ ∀ path ∈ outputs, disk.present path = true := by
          intro hall
          have hmissing := find?_some hfind
          rw [hall path (mem_of_find?_eq_some hfind)] at hmissing
          cases hmissing
        have hkept : (if policy ≠ .never then removeOutputs outputs disk else disk) =
            without (if policy ≠ .never then outputs else []) disk := by
          by_cases hpolicy : policy ≠ .never
          · rw [if_pos hpolicy, if_pos hpolicy, removeOutputs_eq]
          · rw [if_neg hpolicy, if_neg hpolicy, without_nil]
        dsimp only
        rw [hkept, cleanupOutputs_eq, agree_without_iff]
        · constructor
          · intro h
            exact .inr (.inr h)
          · rintro (h | ⟨-, h⟩ | h)
            · exact absurd hcode h
            · exact absurd h habsent
            · exact h
        · intro x
          by_cases hpolicy : policy ≠ .never <;> simp [hpolicy]
        · intro x
          by_cases hpolicy : policy ≠ .never
          · simp only [clearedPaths, if_pos hpolicy, mem_flatMap, mem_append,
              mem_singleton, mem_map]
            constructor
            · rintro ⟨path, hpath, rfl | rfl⟩
              · exact .inl hpath
              · exact .inr ⟨path, hpath, rfl⟩
            · rintro (hx | ⟨path, hpath, rfl⟩)
              · exact ⟨x, hx, .inl rfl⟩
              · exact ⟨path, hpath, .inr rfl⟩
          · simp only [clearedPaths, if_neg hpolicy, nil_append, mem_flatMap,
              mem_singleton, mem_map, not_mem_nil, false_or, eq_comm]
      | none =>
        have hpresent : ∀ path ∈ outputs, disk.present path = true := by
          intro path hpath
          have h := find?_eq_none.mp hfind path hpath
          rw [Bool.not_eq_true', Bool.not_eq_false] at h
          exact h
        dsimp only
        by_cases hpolicy : policy = .never
        · rw [if_pos hpolicy, if_pos hpolicy, removeStaged_eq, ← congrArg (Prod.mk _)
            (without_nil disk), agree_without_iff]
          · constructor
            · intro h
              exact .inr (.inr h)
            · rintro (h | ⟨h, -⟩ | h)
              · exact absurd hcode h
              · exact absurd hpolicy h
              · exact h
          · intro x
            simp [hpolicy]
          · intro x
            simp only [not_mem_nil, false_or]
        · rw [if_neg hpolicy, if_neg hpolicy, clearCommit_eq hpolicy]
          exact iff_of_true (hself _) (.inr (.inl ⟨hpolicy, hpresent⟩))
  · refine iff_of_true ?_ (.inl hcode)
    by_cases hempty : outputs.isEmpty = true
    · rw [if_pos hempty, if_pos hcode, List.isEmpty_iff.mp hempty]
      exact ⟨rfl, nofun⟩
    · rw [if_neg hempty, if_pos hcode, if_pos hcode]
      exact hself _

/-- A command leaves its output and something at the staging path. -/
def leftover : Disk String where
  files path := if path = "out.txt" ∨ path = "out.txt.oxytmp" then some (.file path) else none
  renames := 0

/-- With the policy that keeps outputs the driver removes what the local executor leaves. -/
theorem not_agree : ¬ ∀ (outputs : List String) (policy : CleanOutputs) (exitCode : ℤ)
    (refused : ℕ → Bool) (disk : Disk String),
    Agree outputs (finalizeWorkspace outputs policy exitCode refused disk)
      (finalizeTask outputs policy exitCode refused disk) := by
  intro h
  have hstaged := ((h ["out.txt"] .never 0 (fun _ => false) leftover).2 "out.txt"
    mem_cons_self).2
  have hlocal : ((finalizeWorkspace ["out.txt"] .never 0 (fun _ => false) leftover).2.files
      (tempPath "out.txt")).isSome = true := by decide
  have hdriver : ((finalizeTask ["out.txt"] .never 0 (fun _ => false) leftover).2.files
      (tempPath "out.txt")).isSome = false := by decide
  rw [hstaged, hdriver] at hlocal
  cases hlocal

end OxyMake.FinalizeAgreement
