import OxyMake.CacheKey
import OxyMake.StagedRename

/-!
# Committing the outputs of a job

After a job has ended its declared outputs are removed, left alone or committed
by renaming each to a staging name and back. The staging name appends a suffix
to the whole path. Whatever renames fail, the outputs are committed all or none,
provided that no declared output is the staging name of another one.
-/

namespace OxyMake.OutputCommit

open StagedRename
open CacheKey (CleanOutputs)

variable {β : Type}

def atomicTempSuffix : String := ".oxytmp"

/-- The staging name of an output: the suffix after the complete path. -/
def tempPath (path : String) : String := path ++ atomicTempSuffix

/-- What the workspace carries from preparation to finalization. -/
structure AtomicOutputState where
  outputFiles : List String
  cleanOutputs : CleanOutputs

inductive ExecLocalError
  /-- A declared output does not exist after a successful run. -/
  | outputMissing (path : String)
  /-- A rename of one of the two phases failed. -/
  | atomicWriteFailed (path : String) (phase : Phase) (error : String)
  deriving DecidableEq, Repr

/-- What the system reports when there is no file to rename. -/
def missingSource : String := "No such file or directory (os error 2)"

def reason (phase : Phase) (error : String) : String :=
  match phase with
  | .stage => "stage rename failed: " ++ error
  | .commit => "commit rename failed: " ++ error

/-- Renames that the system refuses, with the error it reports. -/
abbrev Refusals := Phase → String → Option String

def renameError (refused : Refusals) (phase : Phase) (path : String) : ExecLocalError :=
  .atomicWriteFailed path phase ((refused phase path).getD missingSource)

/-- Finalize the workspace after execution. Removals that fail are ignored, and
so are the renames of a roll-back. -/
def finalizeWorkspace (state : AtomicOutputState) (exitCode : ℤ) (refused : Refusals)
    (files : String → Option β) : Except ExecLocalError Unit × (String → Option β) :=
  if state.outputFiles = [] then (.ok (), files)
  else if exitCode ≠ 0 then
    (.ok (), state.outputFiles.foldl (fun files path =>
      remove (if state.cleanOutputs ≠ .never then remove files path else files) (tempPath path))
      files)
  else
    match state.outputFiles.find? fun path => (files path).isNone with
    | some path =>
      (.error (.outputMissing path),
        if state.cleanOutputs ≠ .never then state.outputFiles.foldl remove files else files)
    | none =>
      if state.cleanOutputs = .never then (.ok (), files)
      else
        match stageFrom tempPath (fun p => (refused .stage p).isSome) [] state.outputFiles files with
        | (some path, files) => (.error (renameError refused .stage path), files)
        | (none, files) =>
          match commitFrom tempPath (fun p => (refused .commit p).isSome) state.outputFiles
              state.outputFiles files with
          | (some path, files) => (.error (renameError refused .commit path), files)
          | (none, files) => (.ok (), files)

/-- The outputs were committed all or none. -/
structure CommitsAllOrNone (outputs : List String) (before : String → Option β)
    (result : Except ExecLocalError Unit × (String → Option β)) : Prop where
  /-- After a success every output has the bytes of the job and no staging file is left. -/
  committed : result.1 = .ok () → ∀ p ∈ outputs, result.2 p = before p ∧ result.2 (tempPath p) = none
  /-- After a failed stage every output is back. -/
  rolledBack : ∀ q e, result.1 = .error (.atomicWriteFailed q .stage e) →
    ∀ p ∈ outputs, result.2 p = before p
  /-- After a failed commit no output is there. -/
  removed : ∀ q e, result.1 = .error (.atomicWriteFailed q .commit e) →
    ∀ p ∈ outputs, result.2 p = none
  found : ∀ q, result.1 ≠ .error (.outputMissing q)
  others : ∀ x, x ∉ outputs → x ∉ outputs.map tempPath → result.2 x = before x

theorem tempPath_injective : Function.Injective tempPath := by
  intro p q h
  have hlist := congrArg String.toList h
  rw [tempPath, tempPath, String.toList_append, String.toList_append] at hlist
  exact String.toList_inj.mp (List.append_cancel_right hlist)

theorem tempPath_ne (p : String) : tempPath p ≠ p := by
  intro h
  have hlen := congrArg String.length h
  rw [tempPath, String.length_append] at hlen
  have hsuffix : atomicTempSuffix.length = 7 := by decide
  omega

/-- What the result of the two phases is reported as. -/
def reported (refused : Refusals) : Option (Phase × String) → Except ExecLocalError Unit
  | none => .ok ()
  | some (phase, path) => .error (renameError refused phase path)

section

variable {outputs : List String} {clean : CleanOutputs} {before : String → Option β}
  (hclean : clean ≠ .never) (hexist : ∀ p ∈ outputs, before p ≠ none)

include hclean hexist in
theorem finalizeWorkspace_eq (refused : Refusals) :
    finalizeWorkspace ⟨outputs, clean⟩ 0 refused before =
      (reported refused
        (twoPhase tempPath (fun phase p => (refused phase p).isSome) outputs before).1,
      (twoPhase tempPath (fun phase p => (refused phase p).isSome) outputs before).2) := by
  have hfind : outputs.find? (fun path => (before path).isNone) = none := by
    rw [List.find?_eq_none]
    intro p hp hnone
    exact hexist p hp (Option.isNone_iff_eq_none.mp hnone)
  rw [finalizeWorkspace]
  dsimp only
  by_cases hnil : outputs = []
  · rw [if_pos hnil, hnil]
    rfl
  · rw [if_neg hnil, if_neg (not_not.mpr rfl), hfind]
    dsimp only
    rw [if_neg hclean, twoPhase]
    cases stageFrom tempPath (fun p => (refused .stage p).isSome) [] outputs before with
    | mk failed files =>
      cases failed with
      | some => rfl
      | none =>
        dsimp only
        cases commitFrom tempPath (fun p => (refused .commit p).isSome) outputs outputs files with
        | mk failed => cases failed <;> rfl

theorem commitsAllOrNone_iff (refused : Refusals)
    (result : Option (Phase × String) × (String → Option β)) :
    CommitsAllOrNone outputs before (reported refused result.1, result.2) ↔
      AllOrNothing tempPath outputs before result := by
  obtain ⟨failed, _⟩ := result
  cases failed with
  | none =>
    constructor
    · intro h
      exact ⟨fun _ => h.committed rfl, fun _ h => (by cases h), fun _ h => (by cases h), h.others⟩
    · intro h
      exact ⟨fun _ => h.committed rfl, fun _ _ h => (by cases h), fun _ _ h => (by cases h),
        fun _ h => (by cases h), h.others⟩
  | some failure =>
    obtain ⟨phase, path⟩ := failure
    cases phase with
    | stage =>
      constructor
      · intro h
        exact ⟨fun h => (by cases h), fun _ _ => h.rolledBack path _ rfl, fun _ h => (by cases h),
          h.others⟩
      · intro h
        exact ⟨fun h => (by cases h), fun _ _ _ => h.rolledBack path rfl,
          fun _ _ h => (by cases h), fun _ h => (by cases h), h.others⟩
    | commit =>
      constructor
      · intro h
        exact ⟨fun h => (by cases h), fun _ h => (by cases h), fun _ _ => h.removed path _ rfl,
          h.others⟩
      · intro h
        exact ⟨fun h => (by cases h), fun _ _ h => (by cases h), fun _ _ _ => h.removed path rfl,
          fun _ h => (by cases h), h.others⟩

end

end OxyMake.OutputCommit
