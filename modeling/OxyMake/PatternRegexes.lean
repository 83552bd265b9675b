import OxyMake.RegexSpans
import OxyMake.RuleInstances

/-!
# The regular expression of a pattern

A pattern is matched by an expression that is put together as text: escaped
literals, and for each wildcard occurrence a named group around its constraint.
Constraints are compiled alone before, but in the composed text a constraint may
repeat the name of a group or swallow the parenthesis behind it, and what it
asserts about its surroundings may hold there and fail for the value alone.
-/

namespace OxyMake.PatternRegexes

open List Option
open Wildcard PatternMatching RegexSpans
open RuleInstances (anchored invalidConstraint)

/-- The crate of regular expressions. -/
structure RegexCrate where
  /-- Write a literal so that it stands for itself. -/
  escape : Text → Text
  parse : Text → Option (Regex Char Text)
  /-- What a text means between the parentheses of a group, when it does not swallow the
  closing one. -/
  inside : Text → Option (Regex Char Text)
  fits : Text → Bool
  captures : Text → Text → Option (Text → Option Text)
  isMatch : Text → Text → Bool

def RegexCrate.compiles (crate : RegexCrate) (t : Text) : Bool :=
  (crate.parse t).isSome && crate.fits t

def occurrenceName (occurrence : ℕ) : Text := 'w' :: (Nat.repr occurrence).toList

def groupText (name inner : Text) : Text := "(?P<".toList ++ name ++ ">".toList ++ inner ++ [')']

def component : Text := "[^/]+".toList

section Source

variable (crate : RegexCrate) (constraints : List (Text × Text))

/-- Append the segments to the expression; constraints have to compile alone. -/
def composeLoop (raw : Text) : List Segment → ℕ → Text → Except WildcardError Text
  | [], _, regexStr => .ok (regexStr ++ ['$'])
  | .literal lit :: segments, occurrence, regexStr =>
    composeLoop raw segments occurrence (regexStr ++ crate.escape lit)
  | .wildcard name :: segments, occurrence, regexStr =>
    match constraints.lookup name with
    | some constraint =>
      if crate.compiles constraint then
        composeLoop raw segments (occurrence + 1)
          (regexStr ++ groupText (occurrenceName occurrence) constraint)
      else .error (.invalidPattern raw (invalidConstraint name constraint))
    | none =>
      composeLoop raw segments (occurrence + 1)
        (regexStr ++ groupText (occurrenceName occurrence) component)

/-- Compile the pattern; nothing when the composed expression cannot be compiled, which panics. -/
def compileRegex (pattern : Pattern) : Option (Except WildcardError Text) :=
  match composeLoop crate constraints pattern.raw pattern.segments 0 ['^'] with
  | .error e => some (.error e)
  | .ok regexStr => if crate.compiles regexStr then some (.ok regexStr) else none

/-- The wildcard values by the names of their groups. -/
def extractGroups (names : List Text) (caps : Text → Option Text) : Option Wildcards :=
  extractWildcards names ((List.range names.length).map fun i =>
    (caps (occurrenceName i)).getD []) []

def resolveWithConstraints (pattern : Pattern) (path : Text) :
    Option (Except WildcardError (Option Wildcards)) :=
  match compileRegex crate constraints pattern with
  | none => none
  | some (.error e) => some (.error e)
  | some (.ok regex) =>
    some (.ok (match crate.captures regex path with
      | none => none
      | some caps => extractGroups pattern.wildcardNames caps))

def validateConstraints (wildcards : Wildcards) (contextPattern : Text) :
    List (Text × Text) → Except WildcardError Unit
  | [] => .ok ()
  | (name, constraint) :: rest =>
    match wildcards.lookup name with
    | none => validateConstraints wildcards contextPattern rest
    | some value =>
      if !crate.compiles (anchored constraint) then
        .error (.invalidPattern contextPattern (invalidConstraint name constraint))
      else if !crate.isMatch (anchored constraint) value then
        .error (.constraintViolation name value contextPattern constraint)
      else validateConstraints wildcards contextPattern rest

end Source

/-! ### What the crate documents -/

/-- A part of a composed expression. -/
inductive Piece
  | start
  | stop
  | literal (text : Text)
  | group (name inner : Text)
  | plain (inner : Text)

def Piece.text (crate : RegexCrate) : Piece → Text
  | .start => ['^']
  | .stop => ['$']
  | .literal text => crate.escape text
  | .group name inner => groupText name inner
  | .plain inner => "(?:".toList ++ inner ++ [')']

def Piece.meaning (crate : RegexCrate) : Piece → Option (Regex Char Text)
  | .start => some (.look fun _ i => decide (i = 0))
  | .stop => some (.look fun text i => decide (i = text.length))
  | .literal text => some (word text)
  | .group name inner => (crate.inside inner).map (.group (some name))
  | .plain inner => (crate.inside inner).map (.group none)

/-- The text of some parts is read part by part, and no two groups may share a name. -/
def Reads (crate : RegexCrate) (pieces : List Piece) : Prop :=
  crate.parse (pieces.flatMap (Piece.text crate)) =
    (pieces.mapM (Piece.meaning crate)).bind fun rs =>
      if (rs.flatMap Regex.groupNames).Nodup then some (chain rs) else none

/-- The inner text of the group of a wildcard. -/
def innerText (constraints : List (Text × Text)) (name : Text) : Text :=
  (constraints.lookup name).getD component

def segmentPieces (constraints : List (Text × Text)) : ℕ → List Segment → List Piece
  | _, [] => [.stop]
  | occurrence, .literal lit :: segments =>
    .literal lit :: segmentPieces constraints occurrence segments
  | occurrence, .wildcard name :: segments =>
    .group (occurrenceName occurrence) (innerText constraints name) ::
      segmentPieces constraints (occurrence + 1) segments

def composedPieces (constraints : List (Text × Text)) (pattern : Pattern) : List Piece :=
  .start :: segmentPieces constraints 0 pattern.segments

def composedText (crate : RegexCrate) (constraints : List (Text × Text)) (pattern : Pattern) :
    Text :=
  (composedPieces constraints pattern).flatMap (Piece.text crate)

/-- The crate behaves as documented on the expressions of a pattern and its constraints. -/
structure Documented (crate : RegexCrate) (constraints : List (Text × Text)) (pattern : Pattern) :
    Prop where
  composed : Reads crate (composedPieces constraints pattern)
  anchors : ∀ name c, constraints.lookup name = some c → Reads crate [.start, .plain c, .stop]
  /-- One or more characters other than a slash. -/
  component : crate.inside component =
    some (.seq (.one (· ≠ '/')) (.star (.one (· ≠ '/'))))
  /-- Captures are spans of a match. -/
  captures : ∀ t rs path caps, crate.parse t = some (chain rs) →
    crate.captures t path = some caps → ∃ i j, Captured path caps rs i j
  /-- A search looks for a match anywhere. -/
  isMatch : ∀ t r text, crate.parse t = some r →
    (crate.isMatch t text = true ↔ ∃ i j, Matches text r i j)

/-! ### What the composed expression should do -/

/-- Compiling does not panic, and bound values match their constraints as a whole. -/
structure Honours (crate : RegexCrate) (constraints : List (Text × Text)) (pattern : Pattern) :
    Prop where
  compiles : compileRegex crate constraints pattern ≠ none
  /-- Values of constrained wildcards are validated. -/
  values : ∀ path w, resolveWithConstraints crate constraints pattern path = some (.ok (some w)) →
    validateConstraints crate w pattern.raw constraints = .ok ()

/-- The names of the groups of the segments, those inside of constraints included. -/
def splicedNames (crate : RegexCrate) (constraints : List (Text × Text)) :
    ℕ → List Segment → List Text
  | _, [] => []
  | occurrence, .literal _ :: segments => splicedNames crate constraints occurrence segments
  | occurrence, .wildcard name :: segments =>
    occurrenceName occurrence ::
      ((crate.inside (innerText constraints name)).elim [] Regex.groupNames ++
        splicedNames crate constraints (occurrence + 1) segments)

/-- The constraints can be spliced into one expression. -/
structure Composes (crate : RegexCrate) (constraints : List (Text × Text)) (pattern : Pattern) :
    Prop where
  /-- No constraint swallows the parenthesis behind it. -/
  closes : ∀ name ∈ pattern.wildcardNames, (crate.inside (innerText constraints name)).isSome
  names : (splicedNames crate constraints 0 pattern.segments).Nodup
  /-- The composed expression keeps the limits. -/
  fits : crate.fits (composedText crate constraints pattern) = true

def segmentMeaning (crate : RegexCrate) (constraints : List (Text × Text)) :
    Segment → Option (Regex Char Text)
  | .literal lit => some (word lit)
  | .wildcard name => crate.inside (innerText constraints name)

/-- Wherever the segments around it match, what a constraint matches between them it matches
alone. -/
structure StandsAlone (crate : RegexCrate) (constraints : List (Text × Text)) (pattern : Pattern) :
    Prop where
  /-- The anchored constraints keep the limits. -/
  anchors : ∀ name ∈ pattern.wildcardNames, ∀ c, constraints.lookup name = some c →
    crate.fits (anchored c) = true
  /-- A constraint sees nothing of the text around its value. -/
  alone : ∀ front name back c r fs bs, pattern.segments = front ++ .wildcard name :: back →
    constraints.lookup name = some c → crate.inside c = some r →
    front.mapM (segmentMeaning crate constraints) = some fs →
    back.mapM (segmentMeaning crate constraints) = some bs →
    ∀ (path : Text) (i j : ℕ), Matches path (chain fs) 0 i → Matches path r i j →
      Matches path (chain bs) j path.length → Matches (span path i j) r 0 (j - i)

theorem mem_segmentNames_append (front : List Segment) (name : Text) (back : List Segment) :
    name ∈ segmentNames (front ++ .wildcard name :: back) := by
  induction front with
  | nil => exact mem_cons_self
  | cons segment front ih =>
    cases segment with
    | literal => exact ih
    | wildcard other => exact mem_cons_of_mem other ih

theorem standsAlone_of_lookFree {crate : RegexCrate} {constraints : List (Text × Text)}
    {pattern : Pattern}
    (hfits : ∀ name ∈ pattern.wildcardNames, ∀ c, constraints.lookup name = some c →
      crate.fits (anchored c) = true)
    (hfree : ∀ name ∈ pattern.wildcardNames, ∀ c r, constraints.lookup name = some c →
      crate.inside c = some r → r.LookFree) :
    StandsAlone crate constraints pattern := by
  refine ⟨hfits, ?_⟩
  intro front name back c r fs bs hsplit hlookup hinside _ _ path i j _ hmatch _
  have hname : name ∈ pattern.wildcardNames := by
    rw [Pattern.wildcardNames, hsplit]
    exact mem_segmentNames_append front name back
  exact hmatch.alone (hfree name hname c r hlookup hinside)

section Composing

variable {crate : RegexCrate} {constraints : List (Text × Text)} {pattern : Pattern}

theorem composeLoop_eq {raw : Text}
    (hcompile : ∀ name c, constraints.lookup name = some c → crate.compiles c = true)
    (segments : List Segment) (occurrence : ℕ) (regexStr : Text) :
    composeLoop crate constraints raw segments occurrence regexStr =
      .ok (regexStr ++ (segmentPieces constraints occurrence segments).flatMap
        (Piece.text crate)) := by
  induction segments generalizing occurrence regexStr with
  | nil => rfl
  | cons segment segments ih =>
    cases segment with
    | literal =>
      rw [composeLoop, ih, segmentPieces, flatMap_cons, append_assoc]
      rfl
    | wildcard name =>
      rw [composeLoop]
      cases hlookup : constraints.lookup name with
      | some c =>
        dsimp only
        rw [if_pos (hcompile name c hlookup), ih, segmentPieces, innerText, hlookup,
          flatMap_cons, append_assoc]
        rfl
      | none =>
        dsimp only
        rw [ih, segmentPieces, innerText, hlookup, flatMap_cons, append_assoc]
        rfl

theorem compileRegex_eq
    (hcompile : ∀ name c, constraints.lookup name = some c → crate.compiles c = true) :
    compileRegex crate constraints pattern =
      if crate.compiles (composedText crate constraints pattern) then
        some (.ok (composedText crate constraints pattern)) else none := by
  rw [compileRegex, composeLoop_eq hcompile]
  rfl

theorem mapM_cons_eq_some {α β : Type} {f : α → Option β} {a : α} {l : List α} {bs : List β} :
    (a :: l).mapM f = some bs ↔ ∃ b rest, f a = some b ∧ l.mapM f = some rest ∧ bs = b :: rest := by
  rw [mapM_cons]
  constructor
  · intro h
    obtain ⟨b, hb, h⟩ := bind_eq_some_iff.mp h
    obtain ⟨rest, hrest, h⟩ := bind_eq_some_iff.mp h
    exact ⟨b, rest, hb, hrest, (Option.some.inj h).symm⟩
  · rintro ⟨b, rest, hb, hrest, rfl⟩
    rw [hb, hrest]
    rfl

theorem groupNames_word (w : Text) : (word w : Regex Char Text).groupNames = [] := by
  unfold word
  induction w with
  | nil => rfl
  | cons c w ih =>
    rw [map_cons, chain, Regex.groupNames, ih]
    rfl

theorem exists_meaning {segments : List Segment} (occurrence : ℕ)
    (hcloses : ∀ name ∈ segmentNames segments,
      (crate.inside (innerText constraints name)).isSome) :
    ∃ rs, (segmentPieces constraints occurrence segments).mapM (Piece.meaning crate) =
      some rs := by
  induction segments generalizing occurrence with
  | nil => exact ⟨_, rfl⟩
  | cons segment segments ih =>
    cases segment with
    | literal =>
      obtain ⟨rs, hrs⟩ := ih occurrence hcloses
      exact ⟨_, mapM_cons_eq_some.mpr ⟨_, rs, rfl, hrs, rfl⟩⟩
    | wildcard name =>
      obtain ⟨r, hr⟩ := isSome_iff_exists.mp (hcloses name mem_cons_self)
      obtain ⟨rs, hrs⟩ := ih (occurrence + 1) fun other hother =>
        hcloses other (.tail name hother)
      have hgroup : (Piece.group (occurrenceName occurrence) (innerText constraints name)).meaning
          crate = some (.group (some (occurrenceName occurrence)) r) := by
        rw [Piece.meaning, hr, map_some]
      exact ⟨_, mapM_cons_eq_some.mpr ⟨_, rs, hgroup, hrs, rfl⟩⟩

theorem names_of_meaning {segments : List Segment} {occurrence : ℕ} {rs : List (Regex Char Text)}
    (h : (segmentPieces constraints occurrence segments).mapM (Piece.meaning crate) = some rs) :
    (∀ name ∈ segmentNames segments, (crate.inside (innerText constraints name)).isSome) ∧
      rs.flatMap Regex.groupNames = splicedNames crate constraints occurrence segments := by
  induction segments generalizing occurrence rs with
  | nil =>
    obtain ⟨r, rest, hr, hrest, rfl⟩ := mapM_cons_eq_some.mp h
    cases hr
    cases hrest
    refine ⟨?_, rfl⟩
    intro name hname
    cases hname
  | cons segment segments ih =>
    cases segment with
    | literal =>
      obtain ⟨r, rest, hr, hrest, rfl⟩ := mapM_cons_eq_some.mp h
      cases hr
      obtain ⟨hcloses, hnames⟩ := ih hrest
      refine ⟨hcloses, ?_⟩
      rw [flatMap_cons, groupNames_word, nil_append, hnames, splicedNames]
    | wildcard =>
      obtain ⟨r, rest, hr, hrest, rfl⟩ := mapM_cons_eq_some.mp h
      obtain ⟨_, hinner, rfl⟩ := map_eq_some_iff.mp hr
      obtain ⟨hcloses, hnames⟩ := ih hrest
      constructor
      · intro other hother
        rcases mem_cons.mp hother with rfl | hother
        · rw [hinner, isSome_some]
        · exact hcloses other hother
      · rw [flatMap_cons, hnames, splicedNames, hinner]
        rfl

theorem compiles_composedText_iff (hdoc : Documented crate constraints pattern) :
    crate.compiles (composedText crate constraints pattern) = true ↔
      Composes crate constraints pattern := by
  have hstart : (Piece.meaning crate .start) = some (.look fun _ i => decide (i = 0)) := rfl
  rw [RegexCrate.compiles, Bool.and_eq_true, composedText, hdoc.composed]
  constructor
  · rintro ⟨hparse, hfits⟩
    obtain ⟨_, hregex⟩ := isSome_iff_exists.mp hparse
    obtain ⟨rs, hrs, hregex⟩ := bind_eq_some_iff.mp hregex
    obtain ⟨r, _, hr, hrest, rfl⟩ := mapM_cons_eq_some.mp hrs
    rw [hstart] at hr
    cases hr
    obtain ⟨hcloses, hnames⟩ := names_of_meaning hrest
    split_ifs at hregex with hnodup
    rw [flatMap_cons, hnames] at hnodup
    exact ⟨hcloses, hnodup, hfits⟩
  · rintro ⟨hcloses, hnodup, hfits⟩
    obtain ⟨rs, hrs⟩ : ∃ rs, (segmentPieces constraints 0 pattern.segments).mapM
        (Piece.meaning crate) = some rs := exists_meaning 0 hcloses
    have hall := mapM_cons_eq_some.mpr ⟨_, rs, hstart, hrs, rfl⟩
    rw [composedPieces, hall, bind_some, flatMap_cons, (names_of_meaning hrs).2]
    refine ⟨?_, hfits⟩
    rw [Regex.groupNames, nil_append, if_pos hnodup]
    rfl

/-! ### What the groups capture -/

theorem exists_segmentMeanings {segments : List Segment}
    (hcloses : ∀ name ∈ segmentNames segments,
      (crate.inside (innerText constraints name)).isSome) :
    ∃ fs, segments.mapM (segmentMeaning crate constraints) = some fs := by
  induction segments with
  | nil => exact ⟨[], rfl⟩
  | cons segment segments ih =>
    cases segment with
    | literal =>
      obtain ⟨fs, hfs⟩ := ih hcloses
      exact ⟨_, mapM_cons_eq_some.mpr ⟨_, fs, rfl, hfs, rfl⟩⟩
    | wildcard name =>
      obtain ⟨r, hr⟩ := isSome_iff_exists.mp (hcloses name mem_cons_self)
      obtain ⟨fs, hfs⟩ := ih fun other hother => hcloses other (.tail name hother)
      exact ⟨_, mapM_cons_eq_some.mpr ⟨r, fs, hr, hfs, rfl⟩⟩

/-- An occurrence of a wildcard between the segments around it, with what its group captured. -/
structure Occurs (crate : RegexCrate) (constraints : List (Text × Text)) (segments : List Segment)
    (path : Text) (start stop : ℕ) (name : Text) (captured : Option Text) : Prop where
  /-- The segments match one after the other. -/
  split : ∃ front back fs bs r i j, segments = front ++ .wildcard name :: back ∧
    front.mapM (segmentMeaning crate constraints) = some fs ∧
    back.mapM (segmentMeaning crate constraints) = some bs ∧
    crate.inside (innerText constraints name) = some r ∧
    Matches path (chain fs) start i ∧ Matches path r i j ∧ Matches path (chain bs) j stop ∧
    captured = some (span path i j)

theorem Occurs.cons {segments : List Segment} {path : Text} {start k stop : ℕ} {name : Text}
    {captured : Option Text} (h : Occurs crate constraints segments path k stop name captured)
    {segment : Segment} {r : Regex Char Text}
    (hr : segmentMeaning crate constraints segment = some r) (hmatch : Matches path r start k) :
    Occurs crate constraints (segment :: segments) path start stop name captured := by
  obtain ⟨front, back, fs, bs, inner, i, j, rfl, hfs, hbs, hinner, hfront, hmiddle, hback, hcaps⟩ :=
    h.split
  exact ⟨segment :: front, back, r :: fs, bs, inner, i, j, rfl,
    mapM_cons_eq_some.mpr ⟨r, fs, hr, hfs, rfl⟩, hbs, hinner, .seq hmatch hfront, hmiddle, hback,
    hcaps⟩

theorem occurs_of_captured {segments : List Segment} {occurrence : ℕ}
    {rs fs : List (Regex Char Text)} {path : Text} {caps : Text → Option Text} {start stop : ℕ}
    (hrs : (segmentPieces constraints occurrence segments).mapM (Piece.meaning crate) = some rs)
    (hfs : segments.mapM (segmentMeaning crate constraints) = some fs)
    (h : Captured path caps rs start stop) :
    stop = path.length ∧ Matches path (chain fs) start stop ∧
      ∀ (k : ℕ) (name : Text), (segmentNames segments)[k]? = some name →
        Occurs crate constraints segments path start stop name
          (caps (occurrenceName (occurrence + k))) := by
  induction segments generalizing occurrence rs fs start with
  | nil =>
    obtain ⟨r, rest, hr, hrest, rfl⟩ := mapM_cons_eq_some.mp hrs
    cases hr
    cases hrest
    cases hfs
    cases h with
    | cons hlook _ hnil =>
      cases hlook with
      | look hle hend =>
        cases hnil with
        | nil hstop =>
          refine ⟨of_decide_eq_true hend, .empty hstop, ?_⟩
          intro k name hk
          cases hk
  | cons segment segments ih =>
    obtain ⟨f, rest, hf, hrest, rfl⟩ := mapM_cons_eq_some.mp hfs
    cases segment with
    | literal =>
      obtain ⟨r, rs', hr, hrs', rfl⟩ := mapM_cons_eq_some.mp hrs
      cases hr
      cases hf
      cases h with
      | cons hword _ hcaptured =>
        obtain ⟨hstop, hmatch, hoccurs⟩ := ih hrs' hrest hcaptured
        refine ⟨hstop, .seq hword hmatch, ?_⟩
        intro k name hk
        exact (hoccurs k name hk).cons rfl hword
    | wildcard =>
      obtain ⟨r, rs', hr, hrs', rfl⟩ := mapM_cons_eq_some.mp hrs
      obtain ⟨_, hinner, rfl⟩ := map_eq_some_iff.mp hr
      cases hinner.symm.trans hf
      cases h with
      | cons hgroup hcaps hcaptured =>
        cases hgroup with
        | group hgroup =>
          obtain ⟨hstop, hmatch, hoccurs⟩ := ih hrs' hrest hcaptured
          refine ⟨hstop, .seq hgroup hmatch, ?_⟩
          intro k other hk
          cases k with
          | zero =>
            cases hk
            exact ⟨[], segments, [], rest, f, start, _, rfl, rfl, hrest, hf,
              .empty (le_trans hgroup.bounds.1 hgroup.bounds.2), hgroup, hmatch, hcaps _ _ rfl⟩
          | succ k =>
            have hnext := (hoccurs k other hk).cons hf hgroup
            rwa [show occurrence + 1 + k = occurrence + (k + 1) by omega] at hnext

theorem exists_occurrence {names : List Text} {caps : Text → Option Text} {w : Wildcards}
    (h : extractGroups names caps = some w) {name value : Text}
    (hvalue : w.lookup name = some value) :
    ∃ k : ℕ, names[k]? = some name ∧ value = (caps (occurrenceName k)).getD [] := by
  have hlength : ((List.range names.length).map fun i =>
      (caps (occurrenceName i)).getD []).length = names.length := by
    rw [length_map, length_range]
  rcases (lookup_of_extractWildcards hlength h).2.2 name value hvalue with hmem | hnil
  · obtain ⟨k, hk⟩ := mem_iff_getElem?.mp hmem
    obtain ⟨hname, hcaptured⟩ := getElem?_zip_eq_some.mp hk
    have hlt : k < names.length := (List.getElem?_eq_some_iff.mp hname).1
    rw [getElem?_map, getElem?_range hlt, map_some] at hcaptured
    exact ⟨k, hname, (Option.some.inj hcaptured).symm⟩
  · cases hnil

theorem nodup_groupNames {segments : List Segment} {occurrence : ℕ}
    (h : (splicedNames crate constraints occurrence segments).Nodup) {name : Text}
    (hname : name ∈ segmentNames segments) {r : Regex Char Text}
    (hr : crate.inside (innerText constraints name) = some r) : r.groupNames.Nodup := by
  induction segments generalizing occurrence with
  | nil => cases hname
  | cons segment segments ih =>
    cases segment with
    | literal => exact ih h hname
    | wildcard =>
      rw [splicedNames, nodup_cons, nodup_append] at h
      rcases mem_cons.mp hname with rfl | hname
      · have hinner := h.2.1
        rw [hr] at hinner
        exact hinner
      · exact ih h.2.2.1 hname

theorem anchored_eq (crate : RegexCrate) (c : Text) :
    [Piece.start, .plain c, .stop].flatMap (Piece.text crate) = anchored c := by
  show ['^'] ++ ("(?:".toList ++ c ++ [')'] ++ ['$']) = "^(?:".toList ++ c ++ ")$".toList
  rw [append_assoc, append_assoc, append_assoc]
  rfl

theorem accepts_alone (hdoc : Documented crate constraints pattern) {name c : Text}
    (hlookup : constraints.lookup name = some c) {r : Regex Char Text}
    (hr : crate.inside c = some r) (hnodup : r.groupNames.Nodup)
    (hfits : crate.fits (anchored c) = true) {value : Text}
    (hmatch : Matches value r 0 value.length) :
    crate.compiles (anchored c) = true ∧ crate.isMatch (anchored c) value = true := by
  have hparse : crate.parse (anchored c) = some (chain [.look fun _ i => decide (i = 0),
      .group none r, .look fun text i => decide (i = text.length)]) := by
    have hall : [Piece.start, .plain c, .stop].mapM (Piece.meaning crate) =
        some [.look fun _ i => decide (i = 0), .group none r,
          .look fun text i => decide (i = text.length)] := by
      simp [Piece.meaning, hr]
    have hnames : (List.flatMap Regex.groupNames [.look fun _ i => decide (i = 0), .group none r,
        .look fun (text : Text) i => decide (i = text.length)]).Nodup := by
      simpa [Regex.groupNames] using hnodup
    have hreads := hdoc.anchors name c hlookup
    rw [Reads, anchored_eq, hall, bind_some, if_pos hnames] at hreads
    exact hreads
  constructor
  · rw [RegexCrate.compiles, hparse, hfits]
    rfl
  · rw [hdoc.isMatch _ _ value hparse]
    refine ⟨0, value.length, .seq (.look (Nat.zero_le _) rfl) (.seq (.group hmatch)
      (.seq (.look (le_refl _) (decide_eq_true rfl)) (.empty (le_refl _))))⟩

theorem accepts_of_extracted (hdoc : Documented crate constraints pattern)
    (hcomposes : Composes crate constraints pattern)
    (halone : StandsAlone crate constraints pattern) {path : Text} {caps : Text → Option Text}
    (hcaps : crate.captures (composedText crate constraints pattern) path = some caps)
    {w : Wildcards} (hw : extractGroups pattern.wildcardNames caps = some w) {name c value : Text}
    (hlookup : constraints.lookup name = some c) (hvalue : w.lookup name = some value) :
    crate.compiles (anchored c) = true ∧ crate.isMatch (anchored c) value = true := by
  have hstart : (Piece.meaning crate .start) = some (.look fun _ i => decide (i = 0)) := rfl
  have hinner : innerText constraints name = c := by rw [innerText, hlookup, getD_some]
  obtain ⟨rs, hrs⟩ : ∃ rs, (segmentPieces constraints 0 pattern.segments).mapM
      (Piece.meaning crate) = some rs := exists_meaning 0 hcomposes.closes
  obtain ⟨_, hfs⟩ := exists_segmentMeanings hcomposes.closes
  have hparse : crate.parse (composedText crate constraints pattern) =
      some (chain (.look (fun _ i => decide (i = 0)) :: rs)) := by
    have hall := mapM_cons_eq_some.mpr ⟨_, rs, hstart, hrs, rfl⟩
    rw [composedText, hdoc.composed, composedPieces, hall, bind_some, flatMap_cons,
      (names_of_meaning hrs).2, Regex.groupNames, nil_append, if_pos hcomposes.names]
  obtain ⟨s, e, hcaptured⟩ := hdoc.captures _ _ path caps hparse hcaps
  obtain ⟨k, hk, rfl⟩ := exists_occurrence hw hvalue
  cases hcaptured with
  | cons hlook _ hrest =>
    cases hlook with
    | look _ hzero =>
      obtain ⟨hend, -, hoccurs⟩ := occurs_of_captured hrs hfs hrest
      obtain ⟨front, back, fs', bs, r, i, j, hsplit, hfs', hbs, hr, hfront, hmiddle, hback,
        hspan⟩ := (hoccurs k name hk).split
      rw [Nat.zero_add] at hspan
      rw [of_decide_eq_true hzero] at hfront
      rw [hend] at hback
      have hname : name ∈ pattern.wildcardNames := mem_of_getElem? hk
      have hnodup := nodup_groupNames hcomposes.names hname hr
      rw [hinner] at hr
      have hmatch := halone.alone front name back c r fs' bs hsplit hlookup hr hfs' hbs path i j
        hfront hmiddle hback
      rw [hspan, getD_some]
      apply accepts_alone hdoc hlookup hr hnodup (halone.anchors name hname c hlookup)
      rw [length_span hmiddle.bounds.2]
      exact hmatch

theorem validateConstraints_ok {w : Wildcards} {context : Text} {entries : List (Text × Text)}
    (h : ∀ name c, (name, c) ∈ entries → ∀ value, w.lookup name = some value →
      crate.compiles (anchored c) = true ∧ crate.isMatch (anchored c) value = true) :
    validateConstraints crate w context entries = .ok () := by
  induction entries with
  | nil => rfl
  | cons entry entries ih =>
    obtain ⟨name, c⟩ := entry
    have hrest := ih fun name' c' hmem => h name' c' (.tail _ hmem)
    rw [validateConstraints]
    cases hvalue : w.lookup name with
    | none => exact hrest
    | some value =>
      obtain ⟨hcompiles, hmatch⟩ := h name c mem_cons_self value hvalue
      dsimp only
      rw [hcompiles, hmatch]
      exact hrest

end Composing

theorem lookup_of_mem {constraints : List (Text × Text)} (hkeys : (constraints.map Prod.fst).Nodup)
    {name c : Text} (h : (name, c) ∈ constraints) : constraints.lookup name = some c := by
  induction constraints with
  | nil => cases h
  | cons entry rest ih =>
    rw [map_cons, nodup_cons] at hkeys
    rcases mem_cons.mp h with rfl | h
    · rw [lookup_cons, beq_self_eq_true]
    · have hne : name ≠ entry.1 := by
        intro heq
        apply hkeys.1
        rw [← heq]
        exact List.mem_map_of_mem h
      rw [lookup_cons, beq_false_of_ne hne]
      exact ih hkeys.2 h

/-- Where the constraints can be spliced and none depends on the text around its value, nothing
panics and all values match; where they cannot be spliced there is a panic. -/
theorem compileRegex_honours (crate : RegexCrate) (constraints : List (Text × Text))
    (pattern : Pattern) (hkeys : (constraints.map Prod.fst).Nodup)
    (hcompile : ∀ name c, constraints.lookup name = some c → crate.compiles c = true)
    (hdoc : Documented crate constraints pattern) :
    (Composes crate constraints pattern ∧ StandsAlone crate constraints pattern →
      Honours crate constraints pattern) ∧
    (Honours crate constraints pattern → Composes crate constraints pattern) := by
  have hcompiled : compileRegex crate constraints pattern =
      if crate.compiles (composedText crate constraints pattern) then
        some (.ok (composedText crate constraints pattern)) else none := compileRegex_eq hcompile
  constructor
  · rintro ⟨hcomposes, halone⟩
    rw [if_pos ((compiles_composedText_iff hdoc).mpr hcomposes)] at hcompiled
    refine ⟨?_, ?_⟩
    · rw [hcompiled]
      exact some_ne_none _
    · intro path w hresolve
      rw [resolveWithConstraints, hcompiled] at hresolve
      dsimp only at hresolve
      have hmatch := Except.ok.inj (Option.some.inj hresolve)
      cases hcaps : crate.captures (composedText crate constraints pattern) path with
      | none =>
        rw [hcaps] at hmatch
        cases hmatch
      | some =>
        rw [hcaps] at hmatch
        apply validateConstraints_ok
        intro name c hmem value hvalue
        exact accepts_of_extracted hdoc hcomposes halone hcaps hmatch (lookup_of_mem hkeys hmem)
          hvalue
  · intro hhonours
    apply (compiles_composedText_iff hdoc).mp
    by_contra hno
    rw [if_neg hno] at hcompiled
    exact hhonours.compiles hcompiled

/-! ### Two constraints -/

/-- The expressions of a crate that knows one constraint, its anchored form and one composed
expression. -/
def knownMeaning (constraint composed : Text) (meaning : Regex Char Text)
    (whole : Option (List (Regex Char Text))) (t : Text) : Option (Regex Char Text) :=
  if t = composed then whole.map chain
  else if t = anchored constraint then
    some (chain [.look fun _ i => decide (i = 0), .group none meaning,
      .look fun text i => decide (i = text.length)])
  else if t = constraint then some meaning
  else none

/-- The crate, with the captures of the composed expression. -/
noncomputable def knownCrate (constraint composed : Text) (meaning : Regex Char Text)
    (whole : Option (List (Regex Char Text))) (caps : Text → Option (Text → Option Text)) :
    RegexCrate where
  escape := List.flatMap fun c => if c = '-' then ['\\', '-'] else [c]
  parse := knownMeaning constraint composed meaning whole
  inside t :=
    if t = constraint then some meaning
    else if t = component then some (.seq (.one (· ≠ '/')) (.star (.one (· ≠ '/'))))
    else none
  fits _ := true
  captures t path := if t = composed then caps path else none
  isMatch t text :=
    @decide (∃ r i j, knownMeaning constraint composed meaning whole t = some r ∧
      Matches text r i j) (Classical.propDecidable _)

theorem knownCrate_isMatch {constraint composed : Text} {meaning : Regex Char Text}
    {whole : Option (List (Regex Char Text))} {caps : Text → Option (Text → Option Text)}
    (t : Text) (r : Regex Char Text) (text : Text)
    (h : (knownCrate constraint composed meaning whole caps).parse t = some r) :
    (knownCrate constraint composed meaning whole caps).isMatch t text = true ↔
      ∃ i j, Matches text r i j := by
  constructor
  · intro hsearch
    obtain ⟨_, i, j, hr', hmatch⟩ := (@decide_eq_true_iff _ (Classical.propDecidable _)).mp hsearch
    cases hr'.symm.trans h
    exact ⟨i, j, hmatch⟩
  · rintro ⟨i, j, hmatch⟩
    exact (@decide_eq_true_iff _ (Classical.propDecidable _)).mpr ⟨r, i, j, h, hmatch⟩

theorem eq_of_lookup_singleton {key c' name c : Text} (h : [(key, c')].lookup name = some c) :
    c = c' := by
  rw [lookup_cons] at h
  by_cases heq : name = key
  · rw [heq, beq_self_eq_true] at h
    exact (Option.some.inj h).symm
  · rw [beq_false_of_ne heq] at h
    cases h

def letters : Regex Char Text :=
  .seq (.one fun c => decide ('a' ≤ c ∧ c ≤ 'z')) (.star (.one fun c => decide ('a' ≤ c ∧ c ≤ 'z')))

/-- The expression of the pattern `{x}-{x}` with letters for `x`. -/
def lettersRow : List (Regex Char Text) :=
  [.look fun _ i => decide (i = 0), .group (some "w0".toList) letters, word ['-'],
    .group (some "w1".toList) letters, .look fun text i => decide (i = text.length)]

noncomputable def lettersCrate : RegexCrate :=
  knownCrate "[a-z]+".toList "^(?P<w0>[a-z]+)\\-(?P<w1>[a-z]+)$".toList letters (some lettersRow)
    fun path => if path = ['a', '-', 'a'] then some fun _ => some ['a'] else none

theorem matches_letter {text : Text} {i : ℕ} (h : text[i]? = some 'a') :
    Matches text letters i (i + 1) := by
  have hlt := (List.getElem?_eq_some_iff.mp h).1
  exact .seq (.one h (by decide)) (.stop hlt)

theorem documented_letters : Documented lettersCrate [(['x'], "[a-z]+".toList)] twice := by
  refine ⟨rfl, ?_, rfl, ?_, ?_⟩
  · intro name c hlookup
    rw [eq_of_lookup_singleton hlookup]
    rfl
  · intro t rs path caps hparse hcaps
    obtain ⟨rfl, rfl, rfl⟩ : t = "^(?P<w0>[a-z]+)\\-(?P<w1>[a-z]+)$".toList ∧
        path = ['a', '-', 'a'] ∧ caps = fun _ => some ['a'] := by
      have hunfold : lettersCrate.captures t path =
          if t = "^(?P<w0>[a-z]+)\\-(?P<w1>[a-z]+)$".toList then
            if path = ['a', '-', 'a'] then some fun _ => some ['a'] else none
          else none := rfl
      rw [hunfold] at hcaps
      split_ifs at hcaps with ht hpath
      exact ⟨ht, hpath, (Option.some.inj hcaps).symm⟩
    cases chain_injective (Option.some.inj hparse)
    have hfirst : Matches ['a', '-', 'a'] letters 0 1 := matches_letter rfl
    have hlast : Matches ['a', '-', 'a'] letters 2 3 := matches_letter rfl
    have hdash : Matches ['a', '-', 'a'] (word ['-'] : Regex Char Text) 1 2 :=
      .seq (.one rfl (by decide)) (.empty (by decide))
    refine ⟨0, 3, .cons (.look (by decide) rfl) nofun (.cons (.group hfirst) ?_
      (.cons hdash nofun (.cons (.group hlast) ?_ (.cons (.look (by decide) rfl) nofun
        (.nil (by decide))))))⟩
    · intro name a _
      rfl
    · intro name a _
      rfl
  · intro t r text h
    exact knownCrate_isMatch t r text h

def namedGroup : Regex Char Text := .group (some ['n']) (.one (· = 'a'))

/-- The crate for the named group, which cannot stand in one expression twice. -/
noncomputable def namedCrate : RegexCrate :=
  knownCrate "(?P<n>a)".toList "^(?P<w0>(?P<n>a))\\-(?P<w1>(?P<n>a))$".toList namedGroup none
    fun _ => none

theorem documented_named : Documented namedCrate [(['x'], "(?P<n>a)".toList)] twice := by
  refine ⟨rfl, ?_, rfl, ?_, ?_⟩
  · intro name c hlookup
    rw [eq_of_lookup_singleton hlookup]
    rfl
  · intro t rs path caps _ hcaps
    have hnone : namedCrate.captures t path = none := ite_self none
    rw [hnone] at hcaps
    cases hcaps
  · intro t r text h
    exact knownCrate_isMatch t r text h

/-- With letters for `x`, the pattern `{x}-{x}` is matched without a panic and with valid values. -/
theorem compileRegex_honours_letters :
    Honours lettersCrate [(['x'], "[a-z]+".toList)] twice := by
  have hinside : ∀ name ∈ twice.wildcardNames,
      lettersCrate.inside (innerText [(['x'], "[a-z]+".toList)] name) = some letters := by
    intro name hname
    have hx : name = ['x'] := by
      have hnames : name ∈ [['x'], ['x']] := hname
      simpa using hnames
    rw [hx]
    rfl
  have hnames : (splicedNames lettersCrate [(['x'], "[a-z]+".toList)] 0 twice.segments).Nodup := by
    show ["w0".toList, "w1".toList].Nodup
    decide
  refine (compileRegex_honours lettersCrate [(['x'], "[a-z]+".toList)] twice (by decide) ?_
    documented_letters).1 ⟨⟨?_, hnames, rfl⟩, standsAlone_of_lookFree ?_ ?_⟩
  · intro name c hlookup
    rw [eq_of_lookup_singleton hlookup]
    rfl
  · intro name hname
    rw [hinside name hname, isSome_some]
  · intro name _ c _
    rfl
  · intro name _ c r hlookup hr
    rw [eq_of_lookup_singleton hlookup] at hr
    cases hr
    exact ⟨trivial, trivial⟩

/-- With a named group for `x` compiling the pattern panics. -/
theorem not_compileRegex_honours : ¬ ∀ (alphanumeric : Char → Bool) (crate : RegexCrate)
    (constraints : List (Text × Text)) (raw : Text) (pattern : Pattern),
    parse alphanumeric raw = .ok pattern → (constraints.map Prod.fst).Nodup →
    (∀ name c, constraints.lookup name = some c → crate.compiles c = true) →
    Documented crate constraints pattern → Honours crate constraints pattern := by
  intro hall
  have hhonours := hall Char.isAlphanum namedCrate [(['x'], "(?P<n>a)".toList)] twice.raw twice
    parse_twice (by decide) (fun name c hlookup => by
      rw [eq_of_lookup_singleton hlookup]
      rfl) documented_named
  exact hhonours.compiles rfl

end OxyMake.PatternRegexes
