import Mathlib.Logic.Function.Basic
import Mathlib.Data.List.Basic

/-!
# Trees of files and directories

A tree says what is at each path. Directories are created from the root on,
files are copied, read and moved; each operation may be refused, and a copy may
break off. What an operation changes and what it leaves is stated path by path.
-/

namespace OxyMake.FileTree

open Function

/-! ### Files and directories -/

/-- Components of a path, from the root of the file system. -/
abbrev Path := List (List Char)

abbrev Bytes := List UInt8

/-- What is at a path. -/
inductive Node
  | file (bytes : Bytes)
  | directory
  deriving DecidableEq

abbrev Tree := Path → Option Node

/-- The directories a path lies in, from the root on. -/
def parents (p : Path) : List Path := (List.range p.length).map p.take

/-- Create the directories that are missing, until one cannot be created. -/
def createDirs (refused : Path → Bool) : List Path → Tree → Bool × Tree
  | [], tree => (true, tree)
  | p :: rest, tree =>
    match tree p with
    | some .directory => createDirs refused rest tree
    | some (.file _) => (false, tree)
    | none =>
      if refused p then (false, tree)
      else createDirs refused rest (Function.update tree p (some .directory))

inductive CopyFault
  | opening
  /-- The copy breaks off after some bytes were written. -/
  | writing (written : Bytes)

/-- Copy a file. The target is emptied when it is opened, so a file copied to
itself ends up empty. -/
def copyFile (fault : Option CopyFault) (source target : Path) (tree : Tree) : Bool × Tree :=
  match tree source with
  | some (.file bytes) =>
    if tree target = some .directory then (false, tree)
    else
      match fault with
      | some .opening => (false, tree)
      | some (.writing written) => (false, Function.update tree target (some (.file written)))
      | none =>
        (true, Function.update tree target (some (.file (if source = target then [] else bytes))))
  | _ => (false, tree)

/-- The copy gets as far as opening its target. -/
def opensTarget (fault : Option CopyFault) (source target : Path) (tree : Tree) : Prop :=
  (∃ bytes, tree source = some (.file bytes)) ∧ tree target ≠ some .directory ∧
    ∀ f, fault = some f → ∃ written, f = .writing written

def readFile (refused : Bool) (p : Path) (tree : Tree) : Option Bytes :=
  match tree p with
  | some (.file bytes) => if refused then none else some bytes
  | _ => none

/-- Move a file over what is at the target, unless that is a directory. -/
def renameFile (refused : Bool) (source target : Path) (tree : Tree) : Bool × Tree :=
  match tree source, tree target with
  | some (.file _), some .directory => (false, tree)
  | some (.file bytes), _ =>
    if refused then (false, tree)
    else (true, Function.update (Function.update tree source none) target (some (.file bytes)))
  | _, _ => (false, tree)

/-! ### Directories and copies -/

theorem notMem_parents (p : Path) : p ∉ parents p := by
  intro h
  obtain ⟨n, hn, hp⟩ := List.mem_map.mp h
  have hlen := congrArg List.length hp
  rw [List.length_take] at hlen
  have hlt := List.mem_range.mp hn
  omega

theorem createDirs_other (refused : Path → Bool) {ps : List Path} (tree : Tree) {q : Path}
    (h : q ∉ ps) : (createDirs refused ps tree).2 q = tree q := by
  induction ps generalizing tree with
  | nil => rfl
  | cons p ps ih =>
    obtain ⟨hne, hrest⟩ := not_or.mp (List.mem_cons.not.mp h)
    rw [createDirs]
    cases tree p with
    | some node =>
      cases node with
      | file => rfl
      | directory => exact ih tree hrest
    | none =>
      dsimp only
      split_ifs
      · rfl
      · rw [ih _ hrest, update_of_ne hne]

theorem createDirs_of_some (refused : Path → Bool) (ps : List Path) {tree : Tree} {q : Path}
    {node : Node} (h : tree q = some node) : (createDirs refused ps tree).2 q = some node := by
  induction ps generalizing tree with
  | nil => exact h
  | cons p ps ih =>
    rw [createDirs]
    cases hp : tree p with
    | some found =>
      cases found with
      | file => exact h
      | directory => exact ih h
    | none =>
      dsimp only
      split_ifs
      · exact h
      · have hne : q ≠ p := fun heq => nomatch (heq ▸ h).symm.trans hp
        exact ih ((update_of_ne hne _ _).trans h)

theorem createDirs_eq_true {ps : List Path} {tree : Tree}
    (h : ∀ p ∈ ps, ∀ bytes, tree p ≠ some (.file bytes)) :
    (createDirs (fun _ => false) ps tree).1 = true := by
  induction ps generalizing tree with
  | nil => rfl
  | cons p ps ih =>
    obtain ⟨hfirst, hrest⟩ := List.forall_mem_cons.mp h
    rw [createDirs]
    cases hp : tree p with
    | some node =>
      cases node with
      | file bytes => exact absurd hp (hfirst bytes)
      | directory => exact ih hrest
    | none =>
      refine ih fun q hq bytes => ?_
      by_cases hqp : q = p
      · rw [hqp, update_self]
        exact nofun
      · rw [update_of_ne hqp]
        exact hrest q hq bytes

theorem copyFile_of_not_opens {fault : Option CopyFault} {source target : Path} {tree : Tree}
    (h : ¬ opensTarget fault source target tree) :
    copyFile fault source target tree = (false, tree) := by
  rw [copyFile]
  split
  · rename_i bytes hsource
    by_cases htarget : tree target = some .directory
    · rw [if_pos htarget]
    · rw [if_neg htarget]
      cases fault with
      | none => exact absurd ⟨⟨bytes, hsource⟩, htarget, nofun⟩ h
      | some f =>
        cases f with
        | opening => rfl
        | writing written =>
          refine absurd ⟨⟨bytes, hsource⟩, htarget, fun f hf => ?_⟩ h
          cases hf
          exact ⟨written, rfl⟩
  · rfl

theorem copyFile_eq_true {fault : Option CopyFault} {source target : Path} {tree tree' : Tree}
    (h : copyFile fault source target tree = (true, tree')) :
    ∃ bytes, tree source = some (.file bytes) ∧ tree' =
      Function.update tree target (some (.file (if source = target then [] else bytes))) := by
  rw [copyFile] at h
  split at h
  · rename_i bytes hsource
    by_cases htarget : tree target = some .directory
    · rw [if_pos htarget] at h
      cases h
    · rw [if_neg htarget] at h
      cases fault with
      | none =>
        cases h
        exact ⟨bytes, hsource, rfl⟩
      | some f => cases f <;> cases h
  · cases h

theorem copyFile_other (fault : Option CopyFault) (source : Path) {target q : Path} (tree : Tree)
    (h : q ≠ target) : (copyFile fault source target tree).2 q = tree q := by
  rw [copyFile]
  split
  · by_cases htarget : tree target = some .directory
    · rw [if_pos htarget]
    · rw [if_neg htarget]
      cases fault with
      | none => exact update_of_ne h _ _
      | some f =>
        cases f with
        | opening => rfl
        | writing => exact update_of_ne h _ _
  · rfl

theorem renameFile_other (refused : Bool) {source target q : Path} (tree : Tree)
    (hs : q ≠ source) (ht : q ≠ target) :
    (renameFile refused source target tree).2 q = tree q := by
  rw [renameFile]
  split
  · rfl
  · split_ifs
    · rfl
    · exact (update_of_ne ht _ _).trans (update_of_ne hs _ _)
  · rfl

theorem renameFile_eq_true {refused : Bool} {source target : Path} {tree tree' : Tree}
    (h : renameFile refused source target tree = (true, tree')) :
    ∃ bytes, tree source = some (.file bytes) ∧ tree' =
      Function.update (Function.update tree source none) target (some (.file bytes)) := by
  rw [renameFile] at h
  split at h
  · cases h
  · rename_i bytes hsource _
    by_cases hrefused : refused = true
    · rw [if_pos hrefused] at h
      cases h
    · rw [if_neg hrefused] at h
      cases h
      exact ⟨bytes, hsource, rfl⟩
  · cases h

theorem readFile_eq_some {refused : Bool} {p : Path} {tree : Tree} {bytes : Bytes}
    (h : readFile refused p tree = some bytes) : tree p = some (.file bytes) := by
  rw [readFile] at h
  split at h
  · rename_i found hfile
    by_cases hrefused : refused = true
    · rw [if_pos hrefused] at h
      cases h
    · rw [if_neg hrefused] at h
      cases h
      exact hfile
  · cases h

end OxyMake.FileTree
