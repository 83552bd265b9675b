import Mathlib.Logic.Function.Basic
import Mathlib.Data.List.Basic
import Mathlib.Data.List.Infix

/-!
# File systems with symbolic links

A path is walked component by component. A symbolic link is replaced by its
target, and the number of links that one walk may follow is bounded. Missing
directories are created from the deepest existing one on. The location that a
path resolves to need not have the names of the path.
-/

namespace OxyMake.LinkedTree

open List Function

inductive Component (N : Type)
  | rootDir
  | curDir
  | parentDir
  | normal (name : N)
  deriving DecidableEq, Repr

abbrev Path (N : Type) := List (Component N)

/-- Names from the root on, without a symbolic link among them. -/
abbrev Location (N : Type) := List N

section Paths

variable {N : Type}

def isAbsolute (path : Path N) : Bool :=
  match path with
  | .rootDir :: _ => true
  | _ => false

def parent (path : Path N) : Option (Path N) :=
  match path.getLast? with
  | none => none
  | some .rootDir => none
  | some _ => some path.dropLast

def locationPath (loc : Location N) : Path N := .rootDir :: loc.map .normal

end Paths

/-- What is at a location. -/
inductive Node (N : Type)
  | dir
  | file
  | link (target : Path N)
  deriving DecidableEq, Repr

inductive Errno
  | notFound
  | notADirectory
  | tooManyLinks
  | alreadyExists
  | refused
  deriving DecidableEq, Repr

/-- A file system and a working directory. -/
structure FileSystem (N : Type) where
  node : Location N → Option (Node N)
  cwd : Location N
  /-- Number of symbolic links that one walk may follow. -/
  maxLinks : ℕ
  /-- No directory can be created at a location, for want of permission or space. -/
  refuses : Location N → Bool
  root_dir : node [] = some .dir
  /-- The working directory is a directory. -/
  cwd_dir : node cwd = some .dir
  /-- What exists lies in a directory. -/
  parent_dir : ∀ loc name, (node (loc ++ [name])).isSome → node loc = some .dir

namespace FileSystem

variable {N : Type}

/-! ### Walking a path -/

/-- Walk a path from a directory. `jump` walks on from the first symbolic link. -/
def follow (fs : FileSystem N) (jump : Location N → Path N → Except Errno (Location N)) :
    Location N → Path N → Except Errno (Location N)
  | loc, [] => .ok loc
  | _, .rootDir :: rest => follow fs jump [] rest
  | loc, .curDir :: rest => follow fs jump loc rest
  | loc, .parentDir :: rest => follow fs jump loc.dropLast rest
  | loc, .normal name :: rest =>
    match fs.node (loc ++ [name]) with
    | none => .error .notFound
    | some .dir => follow fs jump (loc ++ [name]) rest
    | some .file => if rest.isEmpty then .ok (loc ++ [name]) else .error .notADirectory
    | some (.link target) => jump loc (target ++ rest)

/-- Walk a path from a directory and follow a number of symbolic links at most. -/
def walk (fs : FileSystem N) : ℕ → Location N → Path N → Except Errno (Location N)
  | 0 => follow fs fun _ _ => .error .tooManyLinks
  | n + 1 => follow fs (walk fs n)

def resolve (fs : FileSystem N) (path : Path N) : Except Errno (Location N) :=
  fs.walk fs.maxLinks fs.cwd path

/-- The path of the location that a path resolves to. -/
def canonicalize (fs : FileSystem N) (path : Path N) : Except Errno (Path N) :=
  if path = [] then .error .notFound
  else (fs.resolve path).map locationPath

def isDir (fs : FileSystem N) (path : Path N) : Bool :=
  match fs.resolve path with
  | .error _ => false
  | .ok loc =>
    match fs.node loc with
    | some .dir => true
    | _ => false

theorem exists_of_canonicalize {fs : FileSystem N} {path canonical : Path N}
    (h : fs.canonicalize path = .ok canonical) :
    ∃ loc, fs.resolve path = .ok loc ∧ canonical = locationPath loc := by
  rw [canonicalize] at h
  by_cases hnil : path = []
  · rw [if_pos hnil] at h
    cases h
  · rw [if_neg hnil] at h
    cases hresolve : fs.resolve path with
    | error =>
      rw [hresolve] at h
      cases h
    | ok loc =>
      rw [hresolve] at h
      cases h
      exact ⟨loc, rfl, rfl⟩

theorem dropLast_dir (fs : FileSystem N) {loc : Location N} (h : fs.node loc = some .dir) :
    fs.node loc.dropLast = some .dir := by
  cases loc using List.reverseRecOn with
  | nil => exact h
  | append_singleton init name =>
    rw [dropLast_concat]
    apply fs.parent_dir init name
    rw [h]
    rfl

/-- A file system has everything that another one has. -/
structure Extends (fs fs' : FileSystem N) : Prop where
  node : ∀ {loc node}, fs.node loc = some node → fs'.node loc = some node
  cwd : fs'.cwd = fs.cwd
  maxLinks : fs'.maxLinks = fs.maxLinks
  refuses : fs'.refuses = fs.refuses

theorem Extends.refl (fs : FileSystem N) : fs.Extends fs := ⟨id, rfl, rfl, rfl⟩

theorem Extends.trans {fs fs' fs'' : FileSystem N} (h : fs.Extends fs') (h' : fs'.Extends fs'') :
    fs.Extends fs'' :=
  ⟨fun hnode => h'.node (h.node hnode), h'.cwd.trans h.cwd, h'.maxLinks.trans h.maxLinks,
    h'.refuses.trans h.refuses⟩

theorem follow_mono {fs fs' : FileSystem N} (h : fs.Extends fs')
    {jump jump' : Location N → Path N → Except Errno (Location N)}
    (hjump : ∀ loc path mid, jump loc path = .ok mid → jump' loc path = .ok mid)
    {path : Path N} : ∀ {loc mid : Location N}, fs.follow jump loc path = .ok mid →
      fs'.follow jump' loc path = .ok mid := by
  induction path with
  | nil =>
    intro loc mid hwalk
    exact hwalk
  | cons c rest ih =>
    intro loc mid hwalk
    cases c with
    | rootDir | curDir | parentDir => exact ih hwalk
    | normal name =>
      rw [follow] at hwalk ⊢
      cases hnode : fs.node (loc ++ [name]) with
      | none =>
        rw [hnode] at hwalk
        cases hwalk
      | some node =>
        rw [hnode] at hwalk
        rw [h.node hnode]
        cases node with
        | dir => exact ih hwalk
        | file => exact hwalk
        | link => exact hjump _ _ _ hwalk

theorem walk_mono {fs fs' : FileSystem N} (h : fs.Extends fs') {n : ℕ} :
    ∀ {loc mid : Location N} {path : Path N}, fs.walk n loc path = .ok mid →
      fs'.walk n loc path = .ok mid := by
  induction n with
  | zero =>
    intro loc mid path hwalk
    exact follow_mono h (fun _ _ _ hjump => hjump) hwalk
  | succ n ih =>
    intro loc mid path hwalk
    exact follow_mono h (fun _ _ _ hjump => ih hjump) hwalk

theorem resolve_mono {fs fs' : FileSystem N} (h : fs.Extends fs') {path : Path N}
    {loc : Location N} (hresolve : fs.resolve path = .ok loc) : fs'.resolve path = .ok loc := by
  rw [resolve, h.cwd, h.maxLinks]
  exact walk_mono h hresolve

/-- What one more name makes of a walk: an error stays, a name that is missing is not found, and
a directory is entered. -/
structure Continues (fs : FileSystem N) (name : N) (before after : Except Errno (Location N)) :
    Prop where
  error : ∀ {e}, before = .error e → after = .error e
  /-- A name that is missing is not found. -/
  missing : ∀ {mid}, before = .ok mid → fs.node mid = some .dir →
    fs.node (mid ++ [name]) = none → after = .error .notFound
  enters : ∀ {mid}, before = .ok mid → fs.node mid = some .dir →
    fs.node (mid ++ [name]) = some .dir → after = .ok (mid ++ [name])

theorem Continues.of_error (fs : FileSystem N) (name : N) (e : Errno) :
    fs.Continues name (.error e) (.error e) :=
  ⟨fun h => h, nofun, nofun⟩

theorem follow_concat {fs : FileSystem N} {name : N}
    {jump : Location N → Path N → Except Errno (Location N)}
    (hjump : ∀ loc path, fs.node loc = some .dir →
      fs.Continues name (jump loc path) (jump loc (path ++ [.normal name])))
    {path : Path N} : ∀ {loc : Location N}, fs.node loc = some .dir →
      fs.Continues name (fs.follow jump loc path)
        (fs.follow jump loc (path ++ [.normal name])) := by
  induction path with
  | nil =>
    intro loc hloc
    rw [nil_append, follow, follow]
    refine ⟨nofun, ?_, ?_⟩
    · intro mid hmid hdir hnone
      cases hmid
      rw [hnone]
    · intro mid hmid hdir hsome
      cases hmid
      rw [hsome]
      rfl
  | cons c rest ih =>
    intro loc hloc
    rw [cons_append]
    cases c with
    | rootDir => exact ih fs.root_dir
    | curDir => exact ih hloc
    | parentDir => exact ih (fs.dropLast_dir hloc)
    | normal m =>
      rw [follow, follow]
      cases hnode : fs.node (loc ++ [m]) with
      | none => exact .of_error fs name .notFound
      | some node =>
        cases node with
        | dir => exact ih hnode
        | file =>
          dsimp only
          have hrest : (rest ++ [Component.normal name]).isEmpty = false := by
            rw [isEmpty_eq_false_iff]
            exact concat_ne_nil _ _
          rw [hrest, if_neg Bool.false_ne_true]
          by_cases hempty : rest.isEmpty = true
          · rw [if_pos hempty]
            refine ⟨nofun, ?_, ?_⟩
            · intro mid hmid hdir
              cases hmid
              rw [hnode] at hdir
              cases hdir
            · intro mid hmid hdir
              cases hmid
              rw [hnode] at hdir
              cases hdir
          · rw [if_neg hempty]
            exact .of_error fs name .notADirectory
        | link target =>
          dsimp only
          rw [← append_assoc]
          exact hjump loc (target ++ rest) hloc

theorem walk_concat (fs : FileSystem N) (name : N) (n : ℕ) : ∀ {loc : Location N} (path : Path N),
    fs.node loc = some .dir →
      fs.Continues name (fs.walk n loc path) (fs.walk n loc (path ++ [.normal name])) := by
  induction n with
  | zero =>
    intro loc path hloc
    exact follow_concat (fun _ _ _ => .of_error fs name .tooManyLinks) hloc
  | succ n ih =>
    intro loc path hloc
    apply follow_concat _ hloc
    intro loc' path' hloc'
    exact ih path' hloc'

theorem resolve_concat (fs : FileSystem N) (name : N) (path : Path N) :
    fs.Continues name (fs.resolve path) (fs.resolve (path ++ [.normal name])) :=
  fs.walk_concat name fs.maxLinks path fs.cwd_dir

/-! ### Creating directories -/

theorem node_below_none {fs : FileSystem N} {loc : Location N} (h : fs.node loc = none) (name : N) :
    fs.node (loc ++ [name]) = none := by
  by_contra hsome
  have hdir := fs.parent_dir loc name (Option.isSome_iff_ne_none.mpr hsome)
  rw [h] at hdir
  cases hdir

/-- An error is passed over where a path leads to a directory all the same. -/
def unlessDir (path : Path N) (outcome : FileSystem N × Except Errno Unit) :
    FileSystem N × Except Errno Unit :=
  match outcome with
  | (fs, .ok ()) => (fs, .ok ())
  | (fs, .error e) => if fs.isDir path then (fs, .ok ()) else (fs, .error e)

/-- Directories of the names can be created one in the other. -/
def creatable (fs : FileSystem N) : Location N → List N → Bool
  | _, [] => true
  | loc, name :: rest => !fs.refuses (loc ++ [name]) && creatable fs (loc ++ [name]) rest

theorem isDir_of_error {fs : FileSystem N} {path : Path N} {e : Errno}
    (h : fs.resolve path = .error e) : fs.isDir path = false := by
  rw [isDir, h]

theorem unlessDir_fst (path : Path N) (fs : FileSystem N) (r : Except Errno Unit) :
    (unlessDir path (fs, r)).1 = fs := by
  cases r with
  | ok => rfl
  | error =>
    rw [unlessDir]
    split_ifs <;> rfl

theorem unlessDir_of_error {path : Path N} {fs : FileSystem N} {e : Errno}
    (h : fs.isDir path = false) : unlessDir path (fs, .error e) = (fs, .error e) := by
  rw [unlessDir, h, if_neg Bool.false_ne_true]

theorem creatable_concat (fs : FileSystem N) (loc : Location N) (names : List N) (name : N) :
    fs.creatable loc (names ++ [name]) =
      (fs.creatable loc names && !fs.refuses (loc ++ names ++ [name])) := by
  induction names generalizing loc with
  | nil =>
    rw [nil_append, creatable, creatable, creatable, append_nil, Bool.and_true,
      Bool.true_and]
  | cons n rest ih =>
    have hassoc : loc ++ [n] ++ rest ++ [name] = loc ++ n :: rest ++ [name] := by
      rw [append_assoc loc, singleton_append]
    rw [cons_append, creatable, creatable, ih, hassoc, Bool.and_assoc]

variable [DecidableEq N]

def addDir (fs : FileSystem N) (loc : Location N) (name : N) (h : fs.node loc = some .dir) :
    FileSystem N where
  node := Function.update fs.node (loc ++ [name]) (some .dir)
  cwd := fs.cwd
  maxLinks := fs.maxLinks
  refuses := fs.refuses
  root_dir := by
    rw [update_of_ne (concat_ne_nil name loc).symm]
    exact fs.root_dir
  cwd_dir := by
    by_cases hcwd : fs.cwd = loc ++ [name]
    · rw [hcwd, update_self]
    · rw [update_of_ne hcwd]
      exact fs.cwd_dir
  parent_dir := by
    intro loc' name' hsome
    have hparent : fs.node loc' = some .dir := by
      by_cases hnew : loc' ++ [name'] = loc ++ [name]
      · rw [(append_inj' hnew rfl).1]
        exact h
      · rw [update_of_ne hnew] at hsome
        exact fs.parent_dir loc' name' hsome
    by_cases hnew : loc' = loc ++ [name]
    · rw [hnew, update_self]
    · rw [update_of_ne hnew]
      exact hparent

/-- Create a directory of a name in the directory of a path. -/
def mkdir (fs : FileSystem N) (before : Path N) (last : Component N) :
    FileSystem N × Except Errno Unit :=
  match fs.resolve before with
  | .error e => (fs, .error e)
  | .ok loc =>
    match last with
    | .normal name =>
      if h : fs.node loc = some .dir then
        if (fs.node (loc ++ [name])).isSome then (fs, .error .alreadyExists)
        else if fs.refuses (loc ++ [name]) then (fs, .error .refused)
        else (fs.addDir loc name h, .ok ())
      else (fs, .error .notADirectory)
    | _ => (fs, .error .alreadyExists)

/-- Create the directories of a path that are missing. The components come from the last one
on. -/
def createDirAll (fs : FileSystem N) : Path N → FileSystem N × Except Errno Unit
  | [] => (fs, .ok ())
  | last :: before =>
    match fs.mkdir before.reverse last with
    | (fs₁, .error .notFound) =>
      match createDirAll fs₁ before with
      | (fs₂, .error e) => (fs₂, .error e)
      | (fs₂, .ok ()) => unlessDir (last :: before).reverse (fs₂.mkdir before.reverse last)
    | outcome => unlessDir (last :: before).reverse outcome

/-- The directories that are missing on the way of a path. -/
structure Gap (N : Type) where
  base : Location N
  first : N
  rest : List N
  deriving DecidableEq, Repr

def Gap.start (g : Gap N) : Location N := g.base ++ [g.first]

def Gap.target (g : Gap N) : Location N := g.base ++ g.first :: g.rest

/-- The gap of a path, where one can tell what is missing. The components come from the last one
on. -/
def missing (fs : FileSystem N) : Path N → Option (Gap N)
  | .normal name :: before =>
    match fs.resolve before.reverse with
    | .ok loc =>
      if fs.node loc = some .dir ∧ fs.node (loc ++ [name]) = none then some ⟨loc, name, []⟩
      else none
    | .error .notFound => (missing fs before).map fun g => { g with rest := g.rest ++ [name] }
    | .error _ => none
  | _ => none

def fillable (fs : FileSystem N) (g : Gap N) : Bool := fs.creatable g.base (g.first :: g.rest)

/-- A path of names behind the root, the working directory or the parent of one of them. The
components come from the last one on. -/
inductive Plain : Path N → Prop
  | cwd : Plain []
  | root : Plain [.rootDir]
  | parent : Plain [.parentDir]
  /-- The parent of the root, which is the root. -/
  | rootParent : Plain [.parentDir, .rootDir]
  | name {before : Path N} (name : N) : Plain before → Plain (.normal name :: before)

theorem extends_addDir {fs : FileSystem N} {loc : Location N} {name : N}
    (h : fs.node loc = some .dir) (hnone : fs.node (loc ++ [name]) = none) :
    fs.Extends (fs.addDir loc name h) := by
  refine ⟨?_, rfl, rfl, rfl⟩
  intro loc' node hnode
  have hne : loc' ≠ loc ++ [name] := by
    rintro rfl
    rw [hnone] at hnode
    cases hnode
  exact (update_of_ne hne _ _).trans hnode

theorem mkdir_of_error {fs : FileSystem N} {before : Path N} {e : Errno}
    (h : fs.resolve before = .error e) (last : Component N) :
    fs.mkdir before last = (fs, .error e) := by
  rw [mkdir, h]

theorem mkdir_of_missing {fs : FileSystem N} {before : Path N} {loc : Location N} {name : N}
    (h : fs.resolve before = .ok loc) (hdir : fs.node loc = some .dir)
    (hnone : fs.node (loc ++ [name]) = none) :
    fs.mkdir before (.normal name) =
      if fs.refuses (loc ++ [name]) then (fs, .error .refused)
      else (fs.addDir loc name hdir, .ok ()) := by
  rw [mkdir, h]
  dsimp only
  rw [dif_pos hdir, hnone, Option.isSome_none, if_neg Bool.false_ne_true]

theorem mkdir_of_blocked {fs : FileSystem N} {before : Path N} {loc : Location N} {name : N}
    (h : fs.resolve before = .ok loc)
    (hblocked : ¬ (fs.node loc = some .dir ∧ fs.node (loc ++ [name]) = none)) :
    ∃ e, e ≠ .notFound ∧ fs.mkdir before (.normal name) = (fs, .error e) := by
  rw [mkdir, h]
  dsimp only
  by_cases hdir : fs.node loc = some .dir
  · have hsome : (fs.node (loc ++ [name])).isSome = true := by
      rw [Option.isSome_iff_ne_none]
      exact fun hnone => hblocked ⟨hdir, hnone⟩
    rw [dif_pos hdir, if_pos hsome]
    exact ⟨.alreadyExists, nofun, rfl⟩
  · rw [dif_neg hdir]
    exact ⟨.notADirectory, nofun, rfl⟩

/-- What creating the directories of a gap does. -/
structure Filled (fs fs' : FileSystem N) (path : Path N) (r : Except Errno Unit) (g : Gap N) :
    Prop where
  /-- The first missing directory does not exist. -/
  fresh : fs.node g.start = none
  kept : fs.Extends fs'
  /-- Nothing changes where the first one is refused. -/
  refused : fs.refuses g.start = true → fs' = fs
  /-- The first one is created where it is not refused. -/
  created : fs.refuses g.start = false → fs'.node g.start = some .dir
  /-- What changes lies in the first one. -/
  frame : ∀ loc, fs'.node loc ≠ fs.node loc → g.start <+: loc
  /-- All are created unless one is refused. -/
  ok_iff : r = .ok () ↔ fs.fillable g = true
  /-- Then the path resolves to the last one. -/
  resolve : r = .ok () → fs'.resolve path.reverse = .ok g.target
  /-- The last one is a directory. -/
  target_dir : r = .ok () → fs'.node g.target = some .dir
  target_empty : r = .ok () → ∀ name, fs'.node (g.target ++ [name]) = none

theorem filled_one {fs : FileSystem N} {before : Path N} {loc : Location N} {name : N}
    (h : fs.resolve before.reverse = .ok loc) (hdir : fs.node loc = some .dir)
    (hnone : fs.node (loc ++ [name]) = none) :
    ∃ fs' r, createDirAll fs (.normal name :: before) = (fs', r) ∧
      Filled fs fs' (.normal name :: before) r ⟨loc, name, []⟩ := by
  have hcontinues := fs.resolve_concat name before.reverse
  have hmkdir := mkdir_of_missing h hdir hnone
  have hfillable : fs.fillable ⟨loc, name, []⟩ = !fs.refuses (loc ++ [name]) := Bool.and_true _
  cases hrefuses : fs.refuses (loc ++ [name]) with
  | true =>
    rw [hrefuses, if_pos rfl] at hmkdir
    have hnotDir : fs.isDir (Component.normal name :: before).reverse = false := by
      rw [reverse_cons]
      exact isDir_of_error (hcontinues.missing h hdir hnone)
    refine ⟨fs, .error .refused, ?_, ?_⟩
    · rw [createDirAll, hmkdir]
      exact unlessDir_of_error hnotDir
    · refine ⟨hnone, .refl fs, fun _ => rfl, ?_, ?_, ?_, nofun, nofun, nofun⟩
      · intro hfalse
        rw [Gap.start, hrefuses] at hfalse
        cases hfalse
      · intro loc' hne
        exact absurd rfl hne
      · rw [hfillable, hrefuses]
        exact ⟨nofun, nofun⟩
  | false =>
    rw [hrefuses, if_neg Bool.false_ne_true] at hmkdir
    have hextends := extends_addDir hdir hnone
    have hnew : (fs.addDir loc name hdir).node (loc ++ [name]) = some .dir :=
      update_self _ _ _
    have hold : ∀ loc', loc' ≠ loc ++ [name] →
        (fs.addDir loc name hdir).node loc' = fs.node loc' :=
      fun loc' hne => update_of_ne hne _ _
    refine ⟨fs.addDir loc name hdir, .ok (), ?_, ?_⟩
    · rw [createDirAll, hmkdir]
      rfl
    · refine ⟨hnone, hextends, ?_, fun _ => hnew, ?_, ?_, ?_, fun _ => hnew, ?_⟩
      · intro htrue
        rw [Gap.start, hrefuses] at htrue
        cases htrue
      · intro loc' hne
        by_cases heq : loc' = loc ++ [name]
        · rw [heq, Gap.start]
        · exact absurd (hold loc' heq) hne
      · rw [hfillable, hrefuses]
        exact ⟨fun _ => rfl, fun _ => rfl⟩
      · intro _
        rw [reverse_cons]
        have hcontinues' := (fs.addDir loc name hdir).resolve_concat name before.reverse
        exact hcontinues'.enters (resolve_mono hextends h) (hextends.node hdir) hnew
      · intro _ m
        have hne : loc ++ [name] ++ [m] ≠ loc ++ [name] := by
          intro heq
          have hlength := congrArg List.length heq
          rw [length_append, length_singleton] at hlength
          omega
        exact (hold _ hne).trans (node_below_none hnone m)

theorem filled_concat {fs fs₂ : FileSystem N} {before : Path N} {r : Except Errno Unit}
    {g : Gap N} {name : N} (h : fs.resolve before.reverse = .error .notFound)
    (hbefore : createDirAll fs before = (fs₂, r)) (hfilled : Filled fs fs₂ before r g) :
    ∃ fs' r', createDirAll fs (.normal name :: before) = (fs', r') ∧
      Filled fs fs' (.normal name :: before) r' { g with rest := g.rest ++ [name] } := by
  have hmkdir := mkdir_of_error h (.normal name)
  have hfillable : fs.fillable { g with rest := g.rest ++ [name] } =
      (fs.fillable g && !fs.refuses (g.target ++ [name])) :=
    fs.creatable_concat g.base (g.first :: g.rest) name
  have htarget : Gap.target { g with rest := g.rest ++ [name] } = g.target ++ [name] :=
    (append_assoc g.base (g.first :: g.rest) [name]).symm
  cases r with
  | error e =>
    have hnot : fs.fillable g = false := by
      rw [Bool.eq_false_iff]
      intro htrue
      cases hfilled.ok_iff.mpr htrue
    refine ⟨fs₂, .error e, ?_, ?_⟩
    · rw [createDirAll, hmkdir]
      dsimp only
      rw [hbefore]
    · refine ⟨hfilled.fresh, hfilled.kept, hfilled.refused, hfilled.created, hfilled.frame, ?_,
        nofun, nofun, nofun⟩
      rw [hfillable, hnot]
      exact ⟨nofun, nofun⟩
  | ok =>
    have hresolve := hfilled.resolve rfl
    have hdir := hfilled.target_dir rfl
    have hempty := hfilled.target_empty rfl name
    have hcontinues := fs₂.resolve_concat name before.reverse
    have hmkdir₂ := mkdir_of_missing hresolve hdir hempty
    have hall : fs.fillable g = true := hfilled.ok_iff.mp rfl
    have hsame : fs₂.refuses (g.target ++ [name]) = fs.refuses (g.target ++ [name]) := by
      rw [hfilled.kept.refuses]
    have hstep : createDirAll fs (.normal name :: before) =
        unlessDir (.normal name :: before).reverse (fs₂.mkdir before.reverse (.normal name)) := by
      rw [createDirAll, hmkdir]
      dsimp only
      rw [hbefore]
    cases hrefuses : fs.refuses (g.target ++ [name]) with
    | true =>
      rw [hsame, hrefuses, if_pos rfl] at hmkdir₂
      have hnotDir : fs₂.isDir (Component.normal name :: before).reverse = false := by
        rw [reverse_cons]
        exact isDir_of_error (hcontinues.missing hresolve hdir hempty)
      refine ⟨fs₂, .error .refused, ?_, ?_⟩
      · rw [hstep, hmkdir₂]
        exact unlessDir_of_error hnotDir
      · refine ⟨hfilled.fresh, hfilled.kept, hfilled.refused, hfilled.created, hfilled.frame,
          ?_, nofun, nofun, nofun⟩
        rw [hfillable, hrefuses, hall]
        exact ⟨nofun, nofun⟩
    | false =>
      rw [hsame, hrefuses, if_neg Bool.false_ne_true] at hmkdir₂
      have hextends := extends_addDir hdir hempty
      have hnew : (fs₂.addDir g.target name hdir).node (g.target ++ [name]) = some .dir :=
        update_self _ _ _
      have hold : ∀ loc', loc' ≠ g.target ++ [name] →
          (fs₂.addDir g.target name hdir).node loc' = fs₂.node loc' :=
        fun loc' hne => update_of_ne hne _ _
      have hstart : g.start <+: g.target ++ [name] := by
        refine ⟨g.rest ++ [name], ?_⟩
        rw [Gap.start, Gap.target, ← append_assoc, append_assoc g.base]
        rfl
      refine ⟨fs₂.addDir g.target name hdir, .ok (), ?_, ?_⟩
      · rw [hstep, hmkdir₂]
        rfl
      · refine ⟨hfilled.fresh, hfilled.kept.trans hextends, ?_, ?_, ?_, ?_, ?_, ?_, ?_⟩
        · intro hfirst
          change fs.refuses g.start = true at hfirst
          have hsecond : fs.fillable g = false := by
            change (!fs.refuses g.start && fs.creatable g.start g.rest) = false
            rw [hfirst]
            rfl
          rw [hall] at hsecond
          cases hsecond
        · intro hfirst
          exact hextends.node (hfilled.created hfirst)
        · intro loc' hne
          by_cases heq : loc' = g.target ++ [name]
          · rw [heq]
            exact hstart
          · rw [hold loc' heq] at hne
            exact hfilled.frame loc' hne
        · rw [hfillable, hrefuses, hall]
          exact ⟨fun _ => rfl, fun _ => rfl⟩
        · intro _
          rw [reverse_cons, htarget]
          have hcontinues' := (fs₂.addDir g.target name hdir).resolve_concat name before.reverse
          exact hcontinues'.enters (resolve_mono hextends hresolve) (hextends.node hdir) hnew
        · intro _
          rw [htarget]
          exact hnew
        · intro _ m
          rw [htarget]
          have hne : g.target ++ [name] ++ [m] ≠ g.target ++ [name] := by
            intro heq
            have hlength := congrArg List.length heq
            rw [length_append, length_singleton] at hlength
            omega
          exact (hold _ hne).trans (node_below_none hempty m)

/-- Creating the directories of a path fills its gap, and leaves the file system where one cannot
tell what is missing. -/
theorem createDirAll_spec (fs : FileSystem N) {path : Path N} (h : Plain path) :
    (fs.missing path = none ∧ (createDirAll fs path).1 = fs) ∨
      ∃ g fs' r, fs.missing path = some g ∧ createDirAll fs path = (fs', r) ∧
        Filled fs fs' path r g := by
  have hstart : ∀ (before : Path N) (last : Component N) (loc : Location N),
      fs.resolve before.reverse = .ok loc → (∀ name, last ≠ .normal name) →
        (createDirAll fs (last :: before)).1 = fs := by
    intro before last loc hresolve hlast
    have hmkdir : fs.mkdir before.reverse last = (fs, .error .alreadyExists) := by
      rw [mkdir, hresolve]
      cases last with
      | normal name => exact absurd rfl (hlast name)
      | rootDir | curDir | parentDir => rfl
    rw [createDirAll, hmkdir]
    exact unlessDir_fst _ _ _
  have hroot : ∀ n, fs.walk n fs.cwd [.rootDir] = .ok [] := by
    intro n
    cases n <;> rfl
  have hcwd : ∀ n, fs.walk n fs.cwd [] = .ok fs.cwd := by
    intro n
    cases n <;> rfl
  induction h with
  | cwd => exact .inl ⟨rfl, rfl⟩
  | root => exact .inl ⟨rfl, hstart [] .rootDir fs.cwd (hcwd _) nofun⟩
  | parent => exact .inl ⟨rfl, hstart [] .parentDir fs.cwd (hcwd _) nofun⟩
  | rootParent => exact .inl ⟨rfl, hstart [.rootDir] .parentDir [] (hroot _) nofun⟩
  | @name before name hbefore ih =>
    cases hresolve : fs.resolve before.reverse with
    | ok loc =>
      have hmissing : fs.missing (.normal name :: before) =
          if fs.node loc = some .dir ∧ fs.node (loc ++ [name]) = none then
            some ⟨loc, name, []⟩ else none := by
        rw [missing, hresolve]
      by_cases hopen : fs.node loc = some .dir ∧ fs.node (loc ++ [name]) = none
      · obtain ⟨fs', r, hcreate, hfilled⟩ := filled_one hresolve hopen.1 hopen.2
        exact .inr ⟨_, fs', r, hmissing.trans (if_pos hopen), hcreate, hfilled⟩
      · obtain ⟨e, he, hmkdir⟩ := mkdir_of_blocked hresolve hopen
        refine .inl ⟨hmissing.trans (if_neg hopen), ?_⟩
        rw [createDirAll, hmkdir]
        cases e with
        | notFound => exact absurd rfl he
        | notADirectory | tooManyLinks | alreadyExists | refused => exact unlessDir_fst _ _ _
    | error e =>
      have hmkdir := mkdir_of_error hresolve (.normal name)
      by_cases he : e = .notFound
      · subst he
        have hmissing : fs.missing (.normal name :: before) =
            (fs.missing before).map fun g => { g with rest := g.rest ++ [name] } := by
          rw [missing, hresolve]
        rcases ih with ⟨hnone, hsame⟩ | ⟨g, fs₂, r, hg, hcreate, hfilled⟩
        · refine .inl ⟨by rw [hmissing, hnone]; rfl, ?_⟩
          rw [createDirAll, hmkdir]
          dsimp only
          cases hcreate : createDirAll fs before with
          | mk fs₂ r =>
            rw [hcreate] at hsame
            dsimp only at hsame
            subst hsame
            cases r with
            | error => rfl
            | ok =>
              dsimp only
              rw [hmkdir]
              exact unlessDir_fst _ _ _
        · obtain ⟨fs', r', hcreate', hfilled'⟩ := filled_concat hresolve hcreate hfilled
          exact .inr ⟨_, fs', r', by rw [hmissing, hg]; rfl, hcreate', hfilled'⟩
      · refine .inl ⟨?_, ?_⟩
        · rw [missing, hresolve]
          cases e with
          | notFound => exact absurd rfl he
          | notADirectory | tooManyLinks | alreadyExists | refused => rfl
        · rw [createDirAll, hmkdir]
          cases e with
          | notFound => exact absurd rfl he
          | notADirectory | tooManyLinks | alreadyExists | refused => exact unlessDir_fst _ _ _

end FileSystem

end OxyMake.LinkedTree
