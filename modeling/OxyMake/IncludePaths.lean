import OxyMake.IncludeTrees

/-!
# Two spellings of a path

The two traversals look for the included files of a file in the working
directory by the empty path and by the path of the current directory. Their
spellings of a path differ by components for the current directory in front, and
those make no difference for what the path resolves to, for its parent and for
the paths that are seen from it.
-/

namespace OxyMake.IncludePaths

open List
open Wildcard LinkedTree IncludeGraph IncludeGraph.World IncludeTrees

variable {T E N : Type} {K : Kinds}

/-- The path behind the components for the current directory in front. -/
def strip : Path N → Path N
  | .curDir :: rest => strip rest
  | path => path

theorem exists_strip (path : Path N) : ∃ n, path = List.replicate n .curDir ++ strip path := by
  induction path with
  | nil => exact ⟨0, rfl⟩
  | cons c rest ih =>
    cases c with
    | curDir =>
      obtain ⟨n, hn⟩ := ih
      refine ⟨n + 1, ?_⟩
      rw [replicate_succ, cons_append, strip, ← hn]
    | rootDir | parentDir | normal => exact ⟨0, rfl⟩

theorem strip_head (path : Path N) : (strip path).head? ≠ some .curDir := by
  induction path with
  | nil => exact nofun
  | cons c rest ih =>
    cases c with
    | curDir => exact ih
    | rootDir | parentDir | normal => exact nofun

theorem strip_of_head {path : Path N} (h : path.head? ≠ some .curDir) : strip path = path := by
  cases path with
  | nil => rfl
  | cons c =>
    cases c with
    | curDir => exact absurd rfl h
    | rootDir | parentDir | normal => rfl

theorem strip_replicate (n : ℕ) (path : Path N) :
    strip (List.replicate n .curDir ++ path) = strip path := by
  induction n with
  | zero => rfl
  | succ n ih =>
    rw [replicate_succ, cons_append, strip]
    exact ih

theorem strip_append (p q : Path N) :
    strip (p ++ q) = if (strip p).isEmpty then strip q else strip p ++ q := by
  obtain ⟨n, hn⟩ := exists_strip p
  have hhead := strip_head p
  generalize strip p = s at hn hhead
  rw [hn, append_assoc, strip_replicate]
  cases s with
  | nil => rfl
  | cons =>
    apply strip_of_head
    exact hhead

theorem resolve_strip (fs : FileSystem N) (path : Path N) :
    fs.resolve (strip path) = fs.resolve path := by
  induction path with
  | nil => rfl
  | cons c rest ih =>
    cases c with
    | curDir =>
      rw [strip, ih, FileSystem.resolve, FileSystem.resolve]
      cases fs.maxLinks <;> rfl
    | rootDir | parentDir | normal => rfl

/-- Parent of a path without such components in front. -/
def stripParent (s : Path N) : Path N :=
  match s.getLast? with
  | none => []
  | some .rootDir => []
  | some _ => s.dropLast

theorem parent_concat [DecidableEq N] (before : Path N) (c : Component N) :
    (parent (before ++ [c])).getD [] = if c = .rootDir then [] else before := by
  rw [parent, getLast?_concat]
  cases c with
  | rootDir => rfl
  | curDir | parentDir | normal =>
    dsimp only
    rw [dropLast_concat, if_neg nofun]
    rfl

theorem stripParent_concat [DecidableEq N] (before : Path N) (c : Component N) :
    stripParent (before ++ [c]) = if c = .rootDir then [] else before := by
  rw [stripParent, getLast?_concat]
  cases c with
  | rootDir => rfl
  | curDir | parentDir | normal =>
    dsimp only
    rw [dropLast_concat, if_neg nofun]

theorem strip_parent [DecidableEq N] (path : Path N) :
    strip ((parent path).getD []) = stripParent (strip path) := by
  obtain rfl | ⟨before, c, rfl⟩ := eq_nil_or_concat path
  · rfl
  · rw [concat_eq_append, parent_concat, strip_append]
    have hidem : strip (strip before) = strip before := strip_of_head (strip_head before)
    cases hs : strip before with
    | nil =>
      rw [isEmpty_nil, if_pos rfl]
      cases c with
      | rootDir => rfl
      | curDir | parentDir | normal =>
        rw [if_neg nofun, hs]
        rfl
    | cons =>
      rw [isEmpty_cons, if_neg Bool.false_ne_true, stripParent_concat]
      by_cases hc : c = .rootDir
      · rw [if_pos hc, if_pos hc]
        rfl
      · rw [if_neg hc, if_neg hc]
        exact hs

theorem strip_base {p q : Path Text} (h : strip p = strip q) :
    strip (collectBase p) = strip (expandBase q) := by
  have hcollect : strip (collectBase p) = strip ((parent p).getD []) := by
    rw [collectBase]
    cases parent p <;> rfl
  have hexpand : strip (expandBase q) = strip ((parent q).getD []) := by
    rw [expandBase]
    cases parent q with
    | none => rfl
    | some base =>
      dsimp only [Option.getD_some]
      by_cases hnil : base = []
      · rw [if_pos hnil, hnil]
        rfl
      · rw [if_neg hnil]
  rw [hcollect, hexpand, strip_parent, strip_parent, h]

theorem component_ne_curDir {part : Text} {c : Component Text} (h : component part = some c) :
    c ≠ .curDir := by
  rw [component] at h
  split_ifs at h <;> (cases h; exact nofun)

theorem strip_components (s : Text) :
    strip (components s) = (components s).filter (· ≠ .curDir) := by
  have hkeep : ∀ path : Path Text, (∀ c ∈ path, c ≠ .curDir) →
      path.filter (· ≠ .curDir) = path := by
    intro path hpath
    apply filter_eq_self.mpr
    intro c hc
    exact decide_eq_true (hpath c hc)
  have hfirst : ∀ c : Component Text, c ≠ .curDir → ∀ rest : Path Text,
      (∀ c ∈ rest, c ≠ .curDir) → strip (c :: rest) = (c :: rest).filter (· ≠ .curDir) := by
    intro c hc rest hrest
    have hstrip : strip (c :: rest) = c :: rest :=
      strip_of_head fun h => hc (Option.some.inj h)
    rw [hstrip, hkeep _ (forall_mem_cons.mpr ⟨hc, hrest⟩)]
  have hnone : ∀ rest : Path Text, (∀ c ∈ rest, c ≠ .curDir) →
      strip rest = rest.filter (· ≠ .curDir) := by
    intro rest hrest
    cases rest with
    | nil => rfl
    | cons c rest =>
      exact hfirst c (hrest c mem_cons_self) rest fun d hd =>
        hrest d (.tail c hd)
  rw [components]
  cases s.splitOn '/' with
  | nil => rfl
  | cons first rest =>
    have hrest : ∀ c ∈ rest.filterMap component, c ≠ .curDir := by
      intro c hc
      obtain ⟨_, -, hpart⟩ := mem_filterMap.mp hc
      exact component_ne_curDir hpart
    dsimp only
    by_cases hempty : first = []
    · rw [if_pos hempty]
      by_cases hs : s = []
      · rw [if_pos hs]
        exact hnone _ hrest
      · rw [if_neg hs]
        exact hfirst .rootDir nofun _ hrest
    · rw [if_neg hempty]
      by_cases hdot : first = ['.']
      · rw [if_pos hdot]
        show strip (rest.filterMap component) =
          (rest.filterMap component).filter (· ≠ .curDir)
        exact hnone _ hrest
      · rw [if_neg hdot]
        cases hc : component first with
        | none => exact hnone _ hrest
        | some c => exact hfirst c (component_ne_curDir hc) _ hrest

theorem strip_join {b b' : Path Text} (h : strip b = strip b') (s : Text) :
    strip (join b (components s)) = strip (join b' (components s)) := by
  have hbase : ∀ b : Path Text, isAbsolute (components s) = false →
      strip (join b (components s)) = if (strip b).isEmpty then strip (components s)
        else strip b ++ (components s).filter (· ≠ .curDir) := by
    intro b habsolute
    rw [join, habsolute, if_neg Bool.false_ne_true]
    by_cases hnil : b = []
    · rw [if_pos hnil, hnil]
      rfl
    · rw [if_neg hnil, strip_append]
      have hfilter : strip ((components s).filter (· ≠ .curDir)) = strip (components s) := by
        rw [← strip_components]
        exact strip_of_head (strip_head _)
      rw [hfilter]
  cases habsolute : isAbsolute (components s) with
  | true => rw [join, join, habsolute, if_pos rfl, if_pos rfl]
  | false => rw [hbase b habsolute, hbase b' habsolute, h]

theorem canonicalize_of_strip (w : World T E K) {p q : Path Text} {text : T}
    (h : strip p = strip q) (hread : w.read p = some text) :
    w.fs.canonicalize q = .ok (w.canonId p) ∧ w.read q = some text := by
  obtain ⟨hne, loc, hresolve, hfile, htext⟩ := exists_of_read w hread
  have hresolve' : w.fs.resolve q = .ok loc := by
    rw [← resolve_strip, ← h, resolve_strip]
    exact hresolve
  have hne' : q ≠ [] := by
    rintro rfl
    have hcwd : w.fs.resolve [] = .ok w.fs.cwd := by
      rw [FileSystem.resolve]
      cases w.fs.maxLinks <;> rfl
    rw [hcwd] at hresolve'
    cases hresolve'
    rw [w.fs.cwd_dir] at hfile
    cases hfile
  obtain ⟨_, hid, -, -, hcanonical⟩ := canonId_of_read w hread
  rw [canonicalize_of_resolve w hne hresolve] at hcanonical
  rw [hid, ← Except.ok.inj hcanonical]
  refine ⟨canonicalize_of_resolve w hne' hresolve', ?_⟩
  rw [World.read, if_neg hne', hresolve']
  dsimp only
  rw [if_pos hfile]
  exact htext

end OxyMake.IncludePaths
