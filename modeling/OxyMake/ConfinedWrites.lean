import OxyMake.LinkedTree

/-!
# Targets that are confined to the workspace

A target is joined to the workspace, normalized without a look at the file system
and compared with the workspace. Then the directories it lies in are created,
and the location they resolve to is compared with the canonical workspace. What
is accepted lies inside. A target that is refused by the second comparison only
may have had directories created outside.
-/

namespace OxyMake.ConfinedWrites

open List
open LinkedTree LinkedTree.FileSystem

variable {N : Type}

def normalizeStep (out : Path N) : Component N → Path N
  | .curDir => out
  | .parentDir => (parent out).getD (out ++ [.parentDir])
  | .rootDir => [.rootDir]
  | .normal name => out ++ [.normal name]

/-- Resolve the components for the current and the parent directory without a look at the file
system. -/
def lexicalNormalize (path : Path N) : Path N := path.foldl normalizeStep []

/-- Canonical path of the workspace, or the path as given where there is none. -/
def canonicalRoot (fs : FileSystem N) (root : Path N) : Path N :=
  match canonicalize fs root with
  | .ok path => path
  | .error _ => root

/-- Why a target is refused. -/
inductive ConfineError (N : Type)
  | escapes (target root : Path N)
  | createParent (path : Path N) (e : Errno)
  | canonicalizeParent (path : Path N) (e : Errno)
  | throughLink (target root : Path N)
  deriving DecidableEq

def normalized (root target : Path N) : Path N :=
  lexicalNormalize (if isAbsolute target then target else root ++ target)

def confineTarget [DecidableEq N] (fs : FileSystem N) (root canonical target : Path N) :
    FileSystem N × Except (ConfineError N) (Path N) :=
  let norm := normalized root target
  if ¬ (root <+: norm ∨ canonical <+: norm) then (fs, .error (.escapes target root))
  else
    match parent norm with
    | none => (fs, .ok norm)
    | some path =>
      match fs.createDirAll path.reverse with
      | (fs', .error e) => (fs', .error (.createParent path e))
      | (fs', .ok ()) =>
        match canonicalize fs' path with
        | .error e => (fs', .error (.canonicalizeParent path e))
        | .ok canonicalParent =>
          if ¬ canonical <+: canonicalParent then (fs', .error (.throughLink target root))
          else (fs', .ok norm)

/-! ### What a confined write may do -/

def Inside (path : Path N) (loc : Location N) : Prop := path <+: locationPath loc

/-- The directory that an accepted target is written to lies inside. A target that has no parent
is the root of the file system, and then everything lies inside. -/
def WrittenInside (fs : FileSystem N) (canonical target : Path N) : Prop :=
  match parent target with
  | none => ∀ loc, Inside canonical loc
  | some path => ∃ loc, canonicalize fs path = .ok (locationPath loc) ∧ Inside canonical loc

/-- An accepted target is written inside, and for a refused one nothing outside is created or
changed. -/
def Lawful (fs : FileSystem N) (canonical : Path N)
    (outcome : FileSystem N × Except (ConfineError N) (Path N)) : Prop :=
  (∀ target, outcome.2 = .ok target → WrittenInside outcome.1 canonical target) ∧
    ∀ e, outcome.2 = .error e → ∀ loc, ¬ Inside canonical loc → outcome.1.node loc = fs.node loc

/-- The normalized target does not start with the workspace. -/
def Escapes (root canonical target : Path N) : Prop :=
  ¬ (root <+: normalized root target ∨ canonical <+: normalized root target)

/-- Filling a gap does no harm: its first directory is refused or lies inside, or all of it can be
created and the last directory lies inside. -/
def Harmless (fs : FileSystem N) (canonical : Path N) (g : Gap N) : Prop :=
  fs.refuses g.start = true ∨ Inside canonical g.start ∨
    (fs.fillable g = true ∧ Inside canonical g.target)

/-! ### Normalized paths -/

theorem parent_reverse (c : Component N) (before : Path N) (hc : c ≠ .rootDir) :
    parent (c :: before).reverse = some before.reverse := by
  rw [parent, reverse_cons, getLast?_concat]
  cases c with
  | rootDir => exact absurd rfl hc
  | curDir | parentDir | normal =>
    dsimp only
    rw [dropLast_concat]

theorem plain_normalizeStep {out : Path N} (h : Plain out.reverse) (c : Component N) :
    Plain (normalizeStep out c).reverse := by
  cases c with
  | curDir => exact h
  | rootDir => exact .root
  | normal name =>
    rw [normalizeStep, reverse_append]
    exact .name name h
  | parentDir =>
    rw [normalizeStep]
    generalize hrev : out.reverse = rev at h
    have hout : out = rev.reverse := by rw [← hrev, reverse_reverse]
    subst hout
    cases h with
    | cwd => exact .parent
    | root => exact .rootParent
    | parent =>
      rw [parent_reverse .parentDir _ nofun]
      exact .cwd
    | rootParent =>
      rw [parent_reverse .parentDir _ nofun]
      exact .root
    | @name before name hbefore =>
      rw [parent_reverse (.normal name) _ nofun, Option.getD_some, reverse_reverse]
      exact hbefore

theorem plain_lexicalNormalize (path : Path N) : Plain (lexicalNormalize path).reverse := by
  have hrun : ∀ (rest out : Path N), Plain out.reverse →
      Plain (rest.foldl normalizeStep out).reverse := by
    intro rest
    induction rest with
    | nil =>
      intro out hout
      exact hout
    | cons c rest ih =>
      intro out hout
      exact ih _ (plain_normalizeStep hout c)
  exact hrun path [] .cwd

theorem plain_parent {path before : Path N} (h : Plain path.reverse)
    (hparent : parent path = some before) : Plain before.reverse := by
  generalize hrev : path.reverse = rev at h
  have hpath : path = rev.reverse := by rw [← hrev, reverse_reverse]
  subst hpath
  cases h with
  | cwd | root => cases hparent
  | parent =>
    rw [parent_reverse .parentDir _ nofun] at hparent
    cases hparent
    exact .cwd
  | rootParent =>
    rw [parent_reverse .parentDir _ nofun] at hparent
    cases hparent
    exact .root
  | @name before' name hbefore =>
    rw [parent_reverse (.normal name) _ nofun] at hparent
    cases hparent
    rw [reverse_reverse]
    exact hbefore

theorem eq_of_parent_none {path : Path N} (h : Plain path.reverse) (hparent : parent path = none) :
    path = [] ∨ path = [.rootDir] := by
  generalize hrev : path.reverse = rev at h
  have hpath : path = rev.reverse := by rw [← hrev, reverse_reverse]
  subst hpath
  cases h with
  | cwd => exact .inl rfl
  | root => exact .inr rfl
  | parent | rootParent =>
    rw [parent_reverse .parentDir _ nofun] at hparent
    cases hparent
  | @name before name hbefore =>
    rw [parent_reverse (.normal name) _ nofun] at hparent
    cases hparent

/-! ### Refused and accepted targets -/

theorem inside_of_parent_none {fs₀ : FileSystem N} {root norm : Path N}
    (hnorm : norm = [] ∨ norm = [.rootDir])
    (h : root <+: norm ∨ canonicalRoot fs₀ root <+: norm) (loc : Location N) :
    Inside (canonicalRoot fs₀ root) loc := by
  have hshort : norm <+: [.rootDir] := by
    rcases hnorm with rfl | rfl
    · exact nil_prefix
    · exact prefix_rfl
  have hcanonical : canonicalRoot fs₀ root <+: [.rootDir] := by
    rcases h with h | h
    · rcases prefix_cons_iff.mp (h.trans hshort) with rfl | ⟨rest, rfl, hrest⟩
      · exact nil_prefix
      · rw [prefix_nil.mp hrest]
        have hwalk : fs₀.resolve [.rootDir] = .ok [] := by
          rw [FileSystem.resolve]
          cases fs₀.maxLinks <;> rfl
        have hroot : canonicalize fs₀ [.rootDir] = .ok [.rootDir] := by
          have hne : ([.rootDir] : Path N) ≠ [] := cons_ne_nil _ _
          rw [canonicalize, if_neg hne, hwalk]
          rfl
        rw [canonicalRoot, hroot]
    · exact h.trans hshort
  exact hcanonical.trans ⟨loc.map .normal, rfl⟩

theorem Inside.mono {path : Path N} {loc loc' : Location N} (h : Inside path loc)
    (hinside : loc <+: loc') : Inside path loc' := by
  obtain ⟨rest, rfl⟩ := hinside
  refine List.IsPrefix.trans h ⟨rest.map .normal, ?_⟩
  rw [locationPath, locationPath, map_append]
  rfl

variable [DecidableEq N]

theorem confineTarget_of_escapes (fs : FileSystem N) {root canonical target : Path N}
    (h : Escapes root canonical target) :
    confineTarget fs root canonical target = (fs, .error (.escapes target root)) := if_pos h

theorem confineTarget_of_none (fs : FileSystem N) {root canonical target : Path N}
    (h : ¬ Escapes root canonical target) (hparent : parent (normalized root target) = none) :
    confineTarget fs root canonical target = (fs, .ok (normalized root target)) := by
  have hstarts := not_not.mp h
  rw [confineTarget, if_neg (not_not.mpr hstarts), hparent]

theorem confineTarget_of_parent {fs fs' : FileSystem N} {root canonical target path : Path N}
    {r : Except Errno Unit} (hescapes : ¬ Escapes root canonical target)
    (hparent : parent (normalized root target) = some path)
    (hcreate : fs.createDirAll path.reverse = (fs', r)) :
    (confineTarget fs root canonical target).1 = fs' ∧
      (∀ p, (confineTarget fs root canonical target).2 = .ok p ↔
        p = normalized root target ∧ r = .ok () ∧
          ∃ loc, canonicalize fs' path = .ok (locationPath loc) ∧ Inside canonical loc) := by
  have hstarts := not_not.mp hescapes
  rw [confineTarget]
  rw [if_neg (not_not.mpr hstarts), hparent]
  dsimp only
  rw [hcreate]
  cases r with
  | error => exact ⟨rfl, fun p => ⟨nofun, fun h => nomatch h.2.1⟩⟩
  | ok =>
    dsimp only
    cases hcanonical : canonicalize fs' path with
    | error =>
      refine ⟨rfl, fun p => ⟨nofun, ?_⟩⟩
      rintro ⟨-, -, loc, hloc, -⟩
      cases hloc
    | ok =>
      obtain ⟨loc, -, rfl⟩ := exists_of_canonicalize hcanonical
      dsimp only
      by_cases hinside : canonical <+: locationPath loc
      · rw [if_neg (not_not.mpr hinside)]
        refine ⟨rfl, fun p => ⟨?_, ?_⟩⟩
        · intro h
          cases h
          exact ⟨rfl, rfl, loc, rfl, hinside⟩
        · rintro ⟨rfl, -, -⟩
          rfl
      · rw [if_pos hinside]
        refine ⟨rfl, fun p => ⟨nofun, ?_⟩⟩
        rintro ⟨-, -, _, hloc, hinside'⟩
        rw [Inside, ← Except.ok.inj hloc] at hinside'
        exact absurd hinside' hinside

theorem writtenInside_of_ok {fs₀ fs : FileSystem N} {root target p : Path N}
    (h : (confineTarget fs root (canonicalRoot fs₀ root) target).2 = .ok p) :
    WrittenInside (confineTarget fs root (canonicalRoot fs₀ root) target).1
      (canonicalRoot fs₀ root) p := by
  by_cases hescapes : Escapes root (canonicalRoot fs₀ root) target
  · rw [confineTarget_of_escapes fs hescapes] at h
    cases h
  · cases hparent : parent (normalized root target) with
    | none =>
      rw [confineTarget_of_none fs hescapes hparent] at h
      cases h
      rw [WrittenInside, hparent]
      have hnorm := eq_of_parent_none (plain_lexicalNormalize _) hparent
      exact inside_of_parent_none hnorm (not_not.mp hescapes)
    | some path =>
      cases hcreate : fs.createDirAll path.reverse with
      | mk =>
        obtain ⟨hfs, hok⟩ := confineTarget_of_parent hescapes hparent hcreate
        obtain ⟨rfl, -, loc, hloc, hinside⟩ := (hok p).mp h
        rw [WrittenInside, hparent, hfs]
        exact ⟨loc, hloc, hinside⟩

/-- A target is confined lawfully exactly when it escapes on the face of it or filling the gap of
its parent does no harm. -/
theorem lawful_writes_iff (fs₀ fs : FileSystem N) (root target : Path N) :
    Lawful fs (canonicalRoot fs₀ root)
        (confineTarget fs root (canonicalRoot fs₀ root) target) ↔
      Escapes root (canonicalRoot fs₀ root) target ∨
        ∀ path, parent (normalized root target) = some path →
          ∀ g, fs.missing path.reverse = some g → Harmless fs (canonicalRoot fs₀ root) g := by
  by_cases hescapes : Escapes root (canonicalRoot fs₀ root) target
  · refine iff_of_true ⟨fun p hp => writtenInside_of_ok hp, fun e he loc _ => ?_⟩ (.inl hescapes)
    rw [confineTarget_of_escapes fs hescapes]
  · cases hparent : parent (normalized root target) with
    | none =>
      refine iff_of_true ⟨fun p hp => writtenInside_of_ok hp, fun e he loc _ => ?_⟩ (.inr nofun)
      rw [confineTarget_of_none fs hescapes hparent] at he
      cases he
    | some path =>
      have hplain := plain_parent (plain_lexicalNormalize _) hparent
      rcases createDirAll_spec fs hplain with ⟨hnone, hsame⟩ | ⟨g, _, r, hgap, hcreate, hfilled⟩
      · cases hcreate : fs.createDirAll path.reverse with
        | mk =>
          rw [hcreate] at hsame
          obtain ⟨hfs, -⟩ := confineTarget_of_parent hescapes hparent hcreate
          refine iff_of_true ⟨fun p hp => writtenInside_of_ok hp, fun e he loc _ => ?_⟩ (.inr ?_)
          · rw [hfs, ← hsame]
          · rintro path' heq g hg
            cases heq
            rw [hnone] at hg
            cases hg
      · obtain ⟨hfs, hok⟩ := confineTarget_of_parent hescapes hparent hcreate
        have hresolve := hfilled.resolve
        rw [reverse_reverse] at hresolve
        have haccepted : fs.fillable g = true → Inside (canonicalRoot fs₀ root) g.target →
            (confineTarget fs root (canonicalRoot fs₀ root) target).2 =
              .ok (normalized root target) := by
          intro hfillable hinside
          have hr := hfilled.ok_iff.mpr hfillable
          refine (hok _).mpr ⟨rfl, hr, g.target, ?_, hinside⟩
          have hne : path ≠ [] := by
            rintro rfl
            cases hgap
          rw [canonicalize, if_neg hne, hresolve hr]
          rfl
        constructor
        · intro hlawful
          refine .inr fun path' heq g' hg' => ?_
          cases heq
          rw [hgap] at hg'
          cases hg'
          by_contra hharm
          rw [Harmless, not_or, not_or] at hharm
          obtain ⟨hrefuses, hstart, htarget⟩ := hharm
          have hcreated := hfilled.created (Bool.eq_false_iff.mpr hrefuses)
          cases hresult : (confineTarget fs root (canonicalRoot fs₀ root) target).2 with
          | ok p =>
            obtain ⟨-, hr, loc, hloc, hinside⟩ := (hok p).mp hresult
            have hsame : loc = g.target := by
              obtain ⟨_, hloc', heq⟩ := exists_of_canonicalize hloc
              rw [hresolve hr] at hloc'
              cases hloc'
              have hmap := tail_eq_of_cons_eq heq
              exact map_injective_iff.mpr (fun a b hab => Component.normal.inj hab) hmap
            rw [hsame] at hinside
            exact htarget ⟨hfilled.ok_iff.mp hr, hinside⟩
          | error e =>
            have hkept := hlawful.2 e hresult g.start hstart
            rw [hfs, hcreated, hfilled.fresh] at hkept
            cases hkept
        · rintro (h | hharmless)
          · exact absurd h hescapes
          · refine ⟨fun p hp => writtenInside_of_ok hp, fun e he loc houtside => ?_⟩
            rw [hfs]
            rcases hharmless path rfl g hgap with hrefuses | hstart | ⟨hfillable, htarget⟩
            · rw [hfilled.refused hrefuses]
            · by_contra hchanged
              exact houtside (hstart.mono (hfilled.frame loc hchanged))
            · rw [haccepted hfillable htarget] at he
              cases he

/-- A workspace with a symbolic link to a directory beside it. -/
def linkedNode (loc : Location String) : Option (Node String) :=
  if loc = [] ∨ loc = ["work"] ∨ loc = ["outside"] then some .dir
  else if loc = ["work", "link"] then some (.link [.rootDir, .normal "outside"])
  else none

def linkedWorkspace : FileSystem String where
  node := linkedNode
  cwd := ["work"]
  maxLinks := 40
  refuses _ := false
  root_dir := rfl
  cwd_dir := rfl
  parent_dir := by
    intro loc name hsome
    have hparent : loc = [] ∨ loc = ["work"] := by
      unfold linkedNode at hsome
      split_ifs at hsome with hdir hlink
      · rcases hdir with h | h | h
        · exact absurd h (concat_ne_nil name loc)
        · exact .inl (append_inj' (h.trans (nil_append ["work"]).symm) rfl).1
        · exact .inl (append_inj' (h.trans (nil_append ["outside"]).symm) rfl).1
      · have hsplit : loc ++ [name] = ["work"] ++ ["link"] := hlink
        exact .inr (append_inj' hsplit rfl).1
      · cases hsome
    rcases hparent with rfl | rfl <;> rfl

def workRoot : Path String := [.rootDir, .normal "work"]

/-- A target in a new directory behind the link. -/
def linkTarget : Path String := [.normal "link", .normal "new", .normal "file"]

/-- A target behind a symbolic link is refused when a directory was created outside. -/
theorem not_lawful_writes : ¬ Lawful linkedWorkspace (canonicalRoot linkedWorkspace workRoot)
    (confineTarget linkedWorkspace workRoot (canonicalRoot linkedWorkspace workRoot)
      linkTarget) := by
  intro h
  have hrefused : (confineTarget linkedWorkspace workRoot
      (canonicalRoot linkedWorkspace workRoot) linkTarget).2 =
        .error (.throughLink linkTarget workRoot) := by decide
  have houtside : ¬ Inside (canonicalRoot linkedWorkspace workRoot) ["outside", "new"] := by
    unfold Inside
    decide
  have hkept := h.2 _ hrefused ["outside", "new"] houtside
  have hcreated : (confineTarget linkedWorkspace workRoot
      (canonicalRoot linkedWorkspace workRoot) linkTarget).1.node ["outside", "new"] =
        some .dir := by decide
  rw [hcreated] at hkept
  exact absurd hkept (by decide)

end OxyMake.ConfinedWrites
