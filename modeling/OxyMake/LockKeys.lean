import Mathlib.Data.List.Destutter
import Mathlib.Data.List.Lex
import Mathlib.Data.List.Sort
import Mathlib.Data.Prod.Lex

/-!
# Keys of output paths

A path is locked under a key: the canonical form of its deepest existing ancestor
with the remaining names appended. The key is the location that the path resolves to
when its directories are entered one after another, links included, and what does not
exist yet is created under its own name. A set of paths is locked key by key in
sorted order, each key once.
-/

namespace OxyMake.LockKeys

open List

abbrev Location (N : Type) := List N

/-- Existing directories, and links to existing directories. -/
structure DirTree (N : Type) where
  dir : Location N → Bool
  link : Location N → N → Option (Location N)
  root_dir : dir [] = true
  parent_dir : ∀ loc name, dir (loc ++ [name]) = true → dir loc = true
  link_dir : ∀ loc name target, link loc name = some target → dir target = true
  /-- A link is not a directory itself. -/
  link_free : ∀ loc name target, link loc name = some target → dir (loc ++ [name]) = false

namespace DirTree

variable {N : Type} (tree : DirTree N)

def enter (loc : Location N) (name : N) : Option (Location N) :=
  if tree.dir (loc ++ [name]) then some (loc ++ [name]) else tree.link loc name

def canonicalize (path : List N) : Option (Location N) := path.foldlM tree.enter []

/-- Where a path leads to from a directory: its directories are entered as long as they exist,
and its last name is an entry of the last one. -/
def locateFrom : Location N → List N → Location N
  | loc, [] => loc
  | loc, [name] => loc ++ [name]
  | loc, name :: next :: rest =>
    match tree.enter loc name with
    | some inside => locateFrom inside (next :: rest)
    | none => loc ++ name :: next :: rest

def locate (path : List N) : Location N := tree.locateFrom [] path

/-- Canonicalise an ancestor, its deepest name first, or else the next one above, and append
the names that were taken off. -/
def lockKeyLoop (path : List N) : List N → List N → Location N
  | [], tail =>
    match tree.canonicalize [] with
    | some canonical => canonical ++ tail
    | none => path
  | name :: above, tail =>
    match tree.canonicalize (name :: above).reverse with
    | some canonical => canonical ++ tail
    | none => lockKeyLoop path above (name :: tail)

def lockKey (path : List N) : Location N :=
  match path.reverse with
  | [] => path
  | fileName :: ancestor => tree.lockKeyLoop path ancestor [fileName]

end DirTree

section Plan

variable {N : Type} [LinearOrder N] (tree : DirTree N)

/-- A path with its key, ordered by the key first. -/
abbrev Keyed (N : Type) := List N ×ₗ List N

def key (entry : Keyed N) : Location N := (ofLex entry).1

def original (entry : Keyed N) : List N := (ofLex entry).2

def keyed (outputs : List (List N)) : List (Keyed N) :=
  ((outputs.map fun path => toLex (tree.lockKey path, path)).insertionSort (· ≤ ·)).destutter
    fun a b => key b ≠ key a

end Plan

/-! ### Keys are locations -/

namespace DirTree

variable {N : Type} {tree : DirTree N}

theorem canonicalize_append (front rest : List N) :
    tree.canonicalize (front ++ rest) =
      (tree.canonicalize front).bind fun loc => rest.foldlM tree.enter loc :=
  foldlM_append

theorem locateFrom_append {front rest : List N} {loc inside : Location N}
    (h : front.foldlM tree.enter loc = some inside) (hrest : rest ≠ []) :
    tree.locateFrom loc (front ++ rest) = tree.locateFrom inside rest := by
  induction front generalizing loc with
  | nil =>
    cases h
    rfl
  | cons name front ih =>
    rw [foldlM_cons] at h
    obtain ⟨_, hnext, hfront⟩ := Option.bind_eq_some_iff.mp h
    have hne : front ++ rest ≠ [] := append_ne_nil_of_right_ne_nil front hrest
    obtain ⟨_, _, hcons⟩ := exists_cons_of_ne_nil hne
    rw [cons_append, hcons, locateFrom, hnext]
    dsimp only
    rw [← hcons]
    exact ih hfront

theorem locateFrom_missing {loc : Location N} {name : N} (h : tree.enter loc name = none)
    (rest : List N) : tree.locateFrom loc (name :: rest) = loc ++ name :: rest := by
  cases rest with
  | nil => rfl
  | cons => rw [locateFrom, h]

theorem locate_of_canonicalize {front rest : List N} {loc : Location N}
    (h : tree.canonicalize front = some loc) (hrest : rest ≠ [])
    (hmissing : ∀ name next others, rest = name :: next :: others →
      tree.canonicalize (front ++ [name]) = none) :
    tree.locate (front ++ rest) = loc ++ rest := by
  rw [locate, locateFrom_append h hrest]
  cases rest with
  | nil => exact absurd rfl hrest
  | cons name rest =>
    cases rest with
    | nil => rfl
    | cons next others =>
      have hnone := hmissing name next others rfl
      rw [canonicalize_append, h] at hnone
      refine locateFrom_missing ?_ _
      cases henter : tree.enter loc name with
      | none => rfl
      | some =>
        rw [Option.bind_some, foldlM_cons, henter] at hnone
        cases hnone

theorem lockKeyLoop_eq (path : List N) : ∀ ancestor tail : List N, tail ≠ [] →
    (∀ name next others, tail = name :: next :: others →
      tree.canonicalize (ancestor.reverse ++ [name]) = none) →
    tree.lockKeyLoop path ancestor tail = tree.locate (ancestor.reverse ++ tail) := by
  intro ancestor
  induction ancestor with
  | nil =>
    intro tail htail hmissing
    exact (locate_of_canonicalize rfl htail hmissing).symm
  | cons name above ih =>
    intro tail htail hmissing
    rw [lockKeyLoop]
    cases hcanonical : tree.canonicalize (name :: above).reverse with
    | some => exact (locate_of_canonicalize hcanonical htail hmissing).symm
    | none =>
      dsimp only
      rw [ih (name :: tail) (cons_ne_nil _ _), reverse_cons, append_assoc,
        singleton_append]
      rintro _ _ _ ⟨⟩
      rw [← reverse_cons]
      exact hcanonical

theorem lockKey_eq (path : List N) : tree.lockKey path = tree.locate path := by
  rw [lockKey]
  cases hreverse : path.reverse with
  | nil =>
    rw [reverse_eq_nil_iff.mp hreverse]
    rfl
  | cons fileName ancestor =>
    have hpath : path = ancestor.reverse ++ [fileName] := by
      rw [← reverse_cons, ← hreverse, reverse_reverse]
    dsimp only
    rw [lockKeyLoop_eq path ancestor [fileName] (cons_ne_nil _ _), ← hpath]
    intro _ _ _ h
    cases h

theorem getLast?_locateFrom (loc : Location N) (path : List N) (name : N) :
    (tree.locateFrom loc (path ++ [name])).getLast? = some name := by
  induction path generalizing loc with
  | nil => exact getLast?_concat ..
  | cons first path ih =>
    obtain ⟨_, _, hcons⟩ := exists_cons_of_ne_nil
      (append_ne_nil_of_right_ne_nil path (cons_ne_nil name []))
    rw [cons_append, hcons, locateFrom]
    cases tree.enter loc first with
    | some inside =>
      dsimp only
      rw [← hcons]
      exact ih inside
    | none =>
      dsimp only
      rw [← hcons, ← cons_append, ← append_assoc]
      exact getLast?_concat ..

end DirTree

/-! ### The plan of an acquisition -/

section Plan

variable {N : Type} [LinearOrder N] (tree : DirTree N)

def sortedEntries (outputs : List (List N)) : List (Keyed N) :=
  (outputs.map fun path => toLex (tree.lockKey path, path)).insertionSort (· ≤ ·)

theorem mem_sortedEntries {outputs : List (List N)} {entry : Keyed N} :
    entry ∈ sortedEntries tree outputs ↔
      original entry ∈ outputs ∧ key entry = tree.lockKey (original entry) := by
  rw [sortedEntries, mem_insertionSort, mem_map]
  constructor
  · rintro ⟨_, hpath, rfl⟩
    exact ⟨hpath, rfl⟩
  · rintro ⟨hpath, hkey⟩
    refine ⟨original entry, hpath, ?_⟩
    rw [← hkey]
    rfl

theorem key_le_key {a b : Keyed N} (h : a ≤ b) : key a ≤ key b := by
  rcases Prod.Lex.le_iff.mp h with hlt | ⟨heq, -⟩
  · exact hlt.le
  · exact heq.le

theorem pairwise_key_lt {entries : List (Keyed N)} (hsorted : entries.Pairwise (· ≤ ·))
    (hchain : entries.IsChain fun a b => key b ≠ key a) :
    entries.Pairwise fun a b => key a < key b := by
  induction entries with
  | nil => exact .nil
  | cons a entries ih =>
    obtain ⟨hfirst, hrest⟩ := pairwise_cons.mp hsorted
    cases entries with
    | nil => exact pairwise_singleton _ _
    | cons b =>
      obtain ⟨hne, htail⟩ := isChain_cons_cons.mp hchain
      have hlater := ih hrest htail
      have hlt : key a < key b :=
        lt_of_le_of_ne (key_le_key (hfirst b mem_cons_self)) (Ne.symm hne)
      refine pairwise_cons.mpr ⟨fun x hx => ?_, hlater⟩
      rcases mem_cons.mp hx with rfl | hx
      · exact hlt
      · exact hlt.trans ((pairwise_cons.mp hlater).1 x hx)

theorem exists_mem_destutter' (entries : List (Keyed N)) (a : Keyed N) :
    ∀ x ∈ a :: entries, ∃ y ∈ entries.destutter' (fun a b => key b ≠ key a) a, key y = key x := by
  induction entries generalizing a with
  | nil => exact fun x hx => ⟨x, hx, rfl⟩
  | cons b entries ih =>
    intro x hx
    rw [destutter'_cons]
    by_cases hkey : key b ≠ key a
    · rw [if_pos hkey]
      rcases mem_cons.mp hx with rfl | hx
      · exact ⟨x, mem_cons_self, rfl⟩
      · obtain ⟨y, hy, heq⟩ := ih b x hx
        exact ⟨y, mem_cons_of_mem a hy, heq⟩
    · rw [if_neg hkey]
      rcases mem_cons.mp hx with rfl | hx
      · exact ih x x mem_cons_self
      · rcases mem_cons.mp hx with rfl | hx
        · obtain ⟨y, hy, heq⟩ := ih a a mem_cons_self
          exact ⟨y, hy, heq.trans (not_not.mp hkey).symm⟩
        · exact ih a x (.tail a hx)

theorem exists_mem_keyed {outputs : List (List N)} {path : List N} (h : path ∈ outputs) :
    ∃ entry ∈ keyed tree outputs, key entry = tree.locate path := by
  have hmem : toLex (tree.lockKey path, path) ∈ sortedEntries tree outputs :=
    (mem_sortedEntries tree).mpr ⟨h, rfl⟩
  rw [← DirTree.lockKey_eq]
  change ∃ entry ∈ (sortedEntries tree outputs).destutter _, _
  cases hsorted : sortedEntries tree outputs with
  | nil =>
    rw [hsorted] at hmem
    cases hmem
  | cons a entries =>
    rw [hsorted] at hmem
    exact exists_mem_destutter' entries a _ hmem

theorem of_mem_keyed {outputs : List (List N)} {entry : Keyed N} (h : entry ∈ keyed tree outputs) :
    original entry ∈ outputs ∧ key entry = tree.locate (original entry) := by
  have hmem := (destutter_sublist _ _).subset h
  rw [← DirTree.lockKey_eq]
  exact (mem_sortedEntries tree).mp hmem

theorem keyed_nodup (outputs : List (List N)) : ((keyed tree outputs).map key).Nodup := by
  have hsorted : (sortedEntries tree outputs).Pairwise (· ≤ ·) := pairwise_insertionSort _ _
  have hkeyed : (keyed tree outputs).Pairwise (· ≤ ·) :=
    hsorted.sublist (destutter_sublist _ _)
  have hchain : (keyed tree outputs).IsChain fun a b => key b ≠ key a :=
    isChain_destutter _ _
  rw [List.Nodup, pairwise_map]
  exact (pairwise_key_lt hkeyed hchain).imp fun h => h.ne

end Plan

end OxyMake.LockKeys
