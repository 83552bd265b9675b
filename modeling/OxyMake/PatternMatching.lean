import Mathlib.Data.List.TakeWhile
import OxyMake.Wildcard

/-!
# Matching a pattern inverts interpolation

The groups of a match split the path into the literals of the pattern and
non-empty values without a slash, and among all such splits the match takes the
one with the longest first value, then the longest second value, and so on. A
map read off the groups interpolates back to the path. The path interpolated
from an assignment is matched exactly when that preferred split gives equal
values to the occurrences of one name, which is so when no name is repeated.
-/

namespace OxyMake.PatternMatching

open List Option
open OxyMake Wildcard

/-! ### Splits of a path -/

/-- The values of the wildcard occurrences write the path into the segments. -/
inductive Splits : List Segment → List Text → Text → Prop
  | nil : Splits [] [] []
  | literal (text : Text) {segments : List Segment} {values : List Text} {path : Text} :
      Splits segments values path → Splits (.literal text :: segments) values (text ++ path)
  /-- A wildcard occurrence takes a non-empty value without a slash. -/
  | wildcard (name : Text) {value : Text} {segments : List Segment} {values : List Text}
      {path : Text} : value ≠ [] → '/' ∉ value → Splits segments values path →
      Splits (.wildcard name :: segments) (value :: values) (value ++ path)

theorem Splits.length_eq {segments : List Segment} {values : List Text} {path : Text}
    (h : Splits segments values path) : values.length = (segmentNames segments).length := by
  induction h with
  | nil => rfl
  | literal text _ ih => exact ih
  | wildcard name _ _ _ ih => simp only [segmentNames, length_cons, ih]

theorem Splits.value {segments : List Segment} {values : List Text} {path : Text}
    (h : Splits segments values path) : ∀ v ∈ values, v ≠ [] ∧ '/' ∉ v := by
  induction h with
  | nil => exact fun v hv => nomatch hv
  | literal text _ ih => exact ih
  | wildcard name hne hslash _ ih =>
    intro v hv
    rcases mem_cons.mp hv with rfl | hv
    · exact ⟨hne, hslash⟩
    · exact ih v hv

/-! ### The preferred split -/

/-- A split is preferred when its first value is longer, or equal and the rest preferred. -/
def Prefers : List Text → List Text → Prop
  | [], [] => True
  | u :: us, v :: vs => v.length < u.length ∨ (u = v ∧ Prefers us vs)
  | _, _ => False

theorem longestFirst_eq_none_iff {α : Type} (f : ℕ → Option α) (n : ℕ) :
    longestFirst f n = none ↔ ∀ m, 1 ≤ m → m ≤ n → f m = none := by
  induction n with
  | zero =>
    refine ⟨fun _ m h₁ h₂ => ?_, fun _ => rfl⟩
    omega
  | succ n ih =>
    rw [longestFirst, or_eq_none_iff, ih]
    constructor
    · rintro ⟨hlast, hrest⟩ m h₁ h₂
      by_cases hm : m = n + 1
      · exact hm ▸ hlast
      · exact hrest m h₁ (by omega)
    · intro h
      exact ⟨h (n + 1) (by omega) le_rfl, fun m h₁ h₂ => h m h₁ (by omega)⟩

theorem longestFirst_eq_some {α : Type} {f : ℕ → Option α} {n : ℕ} {a : α}
    (h : longestFirst f n = some a) :
    ∃ m, 1 ≤ m ∧ m ≤ n ∧ f m = some a ∧ ∀ l, m < l → l ≤ n → f l = none := by
  induction n with
  | zero => cases h
  | succ n ih =>
    rw [longestFirst] at h
    cases hf : f (n + 1) with
    | some =>
      rw [hf, some_or] at h
      refine ⟨n + 1, by omega, le_rfl, hf.trans h, ?_⟩
      intro l h₁ h₂
      omega
    | none =>
      rw [hf, none_or] at h
      obtain ⟨m, h₁, h₂, hm, hlater⟩ := ih h
      refine ⟨m, h₁, by omega, hm, ?_⟩
      intro l hl₁ hl₂
      by_cases hl : l = n + 1
      · exact hl ▸ hf
      · exact hlater l hl₁ (by omega)

theorem slash_notMem_take {path : Text} {m : ℕ} (h : m ≤ (path.takeWhile (· ≠ '/')).length) :
    '/' ∉ path.take m := by
  intro hmem
  have hstart : path.take m <+: path.takeWhile (· ≠ '/') := by
    refine prefix_of_prefix_length_le ( take_prefix m path)
      ( takeWhile_prefix _) ?_
    exact (length_take_le m path).trans h
  have hall := mem_takeWhile_imp (hstart.subset hmem)
  simp only [ne_eq, not_true_eq_false, decide_false, Bool.false_eq_true] at hall

theorem length_le_takeWhile {value path : Text} (h : '/' ∉ value) :
    value.length ≤ ((value ++ path).takeWhile (· ≠ '/')).length := by
  have hall : ∀ c ∈ value, decide (c ≠ '/') = true := by
    intro c hc
    rw [decide_eq_true_iff]
    intro heq
    exact h (heq ▸ hc)
  rw [takeWhile_append_of_pos hall, length_append]
  omega

theorem splits_of_captures {segments : List Segment} {path : Text} {values : List Text}
    (h : captures segments path = some values) : Splits segments values path := by
  induction segments generalizing path values with
  | nil =>
    rw [captures] at h
    split_ifs at h with hpath
    cases h
    subst hpath
    exact .nil
  | cons segment segments ih =>
    cases segment with
    | literal text =>
      rw [captures] at h
      split_ifs at h with hpre
      obtain ⟨_, rfl⟩ := hpre
      rw [drop_left] at h
      exact .literal text (ih h)
    | wildcard name =>
      rw [captures] at h
      obtain ⟨m, _, h₂, hm, -⟩ := longestFirst_eq_some h
      obtain ⟨_, hvs, rfl⟩ := map_eq_some_iff.mp hm
      have hlen : m ≤ path.length := h₂.trans ( takeWhile_prefix _).length_le
      have hne : path.take m ≠ [] := by
        intro hnil
        have hzero := congrArg List.length hnil
        rw [length_take, length_nil] at hzero
        omega
      have hsplit := Splits.wildcard name hne (slash_notMem_take h₂) (ih hvs)
      rwa [take_append_drop] at hsplit

theorem captures_of_splits {segments : List Segment} {path : Text} {values : List Text}
    (h : Splits segments values path) : ∃ us, captures segments path = some us := by
  induction h with
  | nil => exact ⟨[], rfl⟩
  | literal text _ ih =>
    rw [captures, if_pos (prefix_append _ _), drop_left]
    exact ih
  | @wildcard name value segments values path hne hslash _ ih =>
    rw [captures, ← ne_none_iff_exists']
    intro hnone
    rw [longestFirst_eq_none_iff] at hnone
    have hpos : 1 ≤ value.length := length_pos_iff.mpr hne
    have hlast := hnone value.length hpos (length_le_takeWhile hslash)
    rw [drop_left, map_eq_none_iff] at hlast
    obtain ⟨us, hus⟩ := ih
    rw [hus] at hlast
    cases hlast

theorem prefers_of_captures {segments : List Segment} {path : Text} {us vs : List Text}
    (h : captures segments path = some us) (hs : Splits segments vs path) : Prefers us vs := by
  induction hs generalizing us with
  | nil =>
    cases h
    trivial
  | literal text _ ih =>
    rw [captures, if_pos (prefix_append _ _), drop_left] at h
    exact ih h
  | @wildcard name value segments values path hne hslash hs ih =>
    rw [captures] at h
    obtain ⟨m, _, h₂, hm, hlater⟩ := longestFirst_eq_some h
    obtain ⟨_, hrest, rfl⟩ := map_eq_some_iff.mp hm
    have hle : value.length ≤ m := by
      by_contra hlt
      have hnone := hlater value.length (by omega) (length_le_takeWhile hslash)
      rw [drop_left, map_eq_none_iff] at hnone
      obtain ⟨_, hws⟩ := captures_of_splits hs
      rw [hws] at hnone
      cases hnone
    have hlen : m ≤ (value ++ path).length := h₂.trans ( takeWhile_prefix _).length_le
    rcases Nat.lt_or_eq_of_le hle with hlt | heq
    · left
      rw [length_take]
      omega
    · right
      rw [← heq, drop_left] at hrest
      rw [← heq, take_left]
      exact ⟨rfl, ih hrest⟩

/-! ### The map read off the groups -/

theorem extractWildcards_step (name value : Text) (names values : List Text) (m : Wildcards) :
    extractWildcards (name :: names) (value :: values) m =
      match m.lookup name with
      | some previous =>
        if previous = value then
          extractWildcards names values (SortedMap.insert name value m)
        else none
      | none => extractWildcards names values (SortedMap.insert name value m) := rfl

theorem extractWildcards_cons {name value : Text} {names values : List Text} {m w : Wildcards}
    (h : extractWildcards (name :: names) (value :: values) m = some w) :
    (∀ v, m.lookup name = some v → v = value) ∧
      extractWildcards names values (SortedMap.insert name value m) = some w := by
  rw [extractWildcards_step] at h
  cases hlookup : m.lookup name with
  | none =>
    rw [hlookup] at h
    exact ⟨nofun, h⟩
  | some previous =>
    rw [hlookup] at h
    dsimp only at h
    by_cases heq : previous = value
    · rw [if_pos heq] at h
      refine ⟨?_, h⟩
      intro v hv
      cases hv
      exact heq
    · rw [if_neg heq] at h
      cases h

theorem lookup_of_extractWildcards {names values : List Text} {m w : Wildcards}
    (hlen : values.length = names.length) (h : extractWildcards names values m = some w) :
    (∀ n v, m.lookup n = some v → w.lookup n = some v) ∧
      (∀ n v, (n, v) ∈ names.zip values → w.lookup n = some v) ∧
      ∀ n v, w.lookup n = some v → (n, v) ∈ names.zip values ∨ m.lookup n = some v := by
  induction names generalizing values m with
  | nil =>
    cases h
    refine ⟨fun n v hv => hv, ?_, fun n v hv => Or.inr hv⟩
    intro n v hv
    rw [zip_nil_left] at hv
    cases hv
  | cons name names ih =>
    cases values with
    | nil => cases hlen
    | cons value =>
      obtain ⟨hagree, hrest⟩ := extractWildcards_cons h
      obtain ⟨hkeep, hzip, honly⟩ := ih (Nat.succ.inj hlen) hrest
      have hself : w.lookup name = some value :=
        hkeep name value (by rw [SortedMap.lookup_insert, if_pos rfl])
      refine ⟨?_, ?_, ?_⟩
      · intro n v hv
        by_cases hn : n = name
        · subst hn
          rw [hagree v hv]
          exact hself
        · exact hkeep n v (by rw [SortedMap.lookup_insert, if_neg hn]; exact hv)
      · intro n v hv
        rw [zip_cons_cons] at hv
        rcases mem_cons.mp hv with heq | hv
        · cases heq
          exact hself
        · exact hzip n v hv
      · intro n v hv
        rw [zip_cons_cons]
        rcases honly n v hv with hmem | hlookup
        · exact Or.inl (.tail _ hmem)
        · rw [SortedMap.lookup_insert] at hlookup
          split_ifs at hlookup with hn
          · cases hlookup
            subst hn
            exact Or.inl mem_cons_self
          · exact Or.inr hlookup

theorem extractWildcards_of_assignment {names : List Text} (g : Text → Text) {m : Wildcards}
    (hm : ∀ n v, m.lookup n = some v → g n = v) :
    ∃ w, extractWildcards names (names.map g) m = some w := by
  induction names generalizing m with
  | nil => exact ⟨m, rfl⟩
  | cons name names ih =>
    have hnext : ∀ n v, (SortedMap.insert name (g name) m).lookup n = some v → g n = v := by
      intro n v hv
      rw [SortedMap.lookup_insert] at hv
      split_ifs at hv with hn
      · cases hv
        rw [hn]
      · exact hm n v hv
    obtain ⟨w, hw⟩ := ih hnext
    refine ⟨w, ?_⟩
    rw [map_cons, extractWildcards_step]
    cases hlookup : m.lookup name with
    | none => exact hw
    | some previous =>
      dsimp only
      rw [if_pos (hm name previous hlookup).symm]
      exact hw

theorem interpolateSegments_of_splits {segments : List Segment} {values : List Text} {path : Text}
    (h : Splits segments values path) {w : Wildcards}
    (hw : ∀ n v, (n, v) ∈ (segmentNames segments).zip values → w.lookup n = some v) :
    interpolateSegments w segments = .ok path := by
  induction h with
  | nil => rfl
  | literal text _ ih =>
    rw [interpolateSegments, ih hw]
    rfl
  | wildcard name _ _ _ ih =>
    rw [segmentNames, zip_cons_cons] at hw
    rw [interpolateSegments, hw _ _ mem_cons_self]
    dsimp only
    rw [ih fun n v hv => hw n v (.tail _ hv)]
    rfl

theorem splits_of_interpolateSegments {segments : List Segment} {w : Wildcards} {path : Text}
    (hw : ∀ n ∈ segmentNames segments, ∀ v, w.lookup n = some v → v ≠ [] ∧ '/' ∉ v)
    (h : interpolateSegments w segments = .ok path) :
    Splits segments ((segmentNames segments).map fun n => (w.lookup n).getD []) path := by
  induction segments generalizing path with
  | nil =>
    cases h
    exact .nil
  | cons segment segments ih =>
    cases segment with
    | literal text =>
      rw [interpolateSegments] at h
      cases hrest : interpolateSegments w segments with
      | error =>
        rw [hrest] at h
        cases h
      | ok =>
        rw [hrest] at h
        cases h
        exact .literal text (ih hw hrest)
    | wildcard name =>
      rw [interpolateSegments] at h
      cases hlookup : w.lookup name with
      | none =>
        rw [hlookup] at h
        cases h
      | some value =>
        rw [hlookup] at h
        cases hrest : interpolateSegments w segments with
        | error =>
          rw [hrest] at h
          cases h
        | ok =>
          rw [hrest] at h
          cases h
          obtain ⟨hne, hslash⟩ := hw name mem_cons_self value hlookup
          rw [segmentNames, map_cons, hlookup, getD_some]
          exact .wildcard name hne hslash
            (ih (fun n hn => hw n (.tail _ hn)) hrest)

/-- A match interpolates back to the path, binds the names of the pattern and no others, and
binds them to non-empty values without slashes. -/
theorem resolve_interpolates {alphanumeric : Char → Bool} {raw : Text} {p : Pattern}
    (_hparse : parse alphanumeric raw = .ok p) {path : Text} {w : Wildcards}
    (h : p.resolve path = some w) :
    p.interpolate w = .ok path ∧
      (∀ n, (∃ v, w.lookup n = some v) ↔ n ∈ p.wildcardNames) ∧
      ∀ n v, w.lookup n = some v → v ≠ [] ∧ '/' ∉ v := by
  obtain ⟨values, hcaps, hextract⟩ := bind_eq_some_iff.mp h
  have hsplits := splits_of_captures hcaps
  obtain ⟨-, hzip, honly⟩ := lookup_of_extractWildcards hsplits.length_eq hextract
  have hbound : ∀ n v, w.lookup n = some v → (n, v) ∈ p.wildcardNames.zip values := by
    intro n v hv
    rcases honly n v hv with hmem | hnil
    · exact hmem
    · cases hnil
  refine ⟨interpolateSegments_of_splits hsplits hzip, ?_, ?_⟩
  · intro n
    constructor
    · rintro ⟨v, hv⟩
      exact (of_mem_zip (hbound n v hv)).1
    · intro hn
      obtain ⟨i, hi, rfl⟩ := getElem_of_mem hn
      have hlt : i < values.length := by
        rw [hsplits.length_eq]
        exact hi
      refine ⟨values[i], hzip _ _ ?_⟩
      rw [mem_iff_getElem]
      exact ⟨i, by rw [length_zip]; exact lt_min hi hlt, getElem_zip⟩
  · intro n v hv
    exact hsplits.value v (of_mem_zip (hbound n v hv)).2

def twice : Pattern :=
  ⟨['{', 'x', '}', '-', '{', 'x', '}'], [.wildcard ['x'], .literal ['-'], .wildcard ['x']]⟩

theorem parse_twice : parse Char.isAlphanum twice.raw = .ok twice := by
  unfold parse twice
  dsimp only
  rw [parseLoop_wildcard (by decide) rfl (by decide) (by decide) rfl,
    parseLoop_literal (by decide) (by decide),
    parseLoop_wildcard (by decide) rfl (by decide) (by decide) rfl, parseLoop]
  rfl

/-- The path `a-a` is matched with `x = a`, which interpolates back to it. -/
theorem resolve_interpolates_twice :
    twice.resolve ['a', '-', 'a'] = some [(['x'], ['a'])] ∧
      twice.interpolate [(['x'], ['a'])] = .ok ['a', '-', 'a'] := by
  have hres : twice.resolve ['a', '-', 'a'] = some [(['x'], ['a'])] := by decide
  exact ⟨hres, (resolve_interpolates parse_twice hres).1⟩

/-! ### Which paths are matched -/

/-- Some split of the path is preferred to all others and gives equal values to the
occurrences of one name. -/
def PreferredAgrees (segments : List Segment) (path : Text) : Prop :=
  ∃ g : Text → Text, Splits segments ((segmentNames segments).map g) path ∧
    ∀ vs, Splits segments vs path → Prefers ((segmentNames segments).map g) vs

theorem Prefers.antisymm {us vs : List Text} (h₁ : Prefers us vs) (h₂ : Prefers vs us) :
    us = vs := by
  induction us generalizing vs with
  | nil =>
    cases vs with
    | nil => rfl
    | cons => exact h₁.elim
  | cons u us ih =>
    cases vs with
    | nil => exact h₁.elim
    | cons =>
      rcases h₁ with hlt | ⟨rfl, h₁⟩
      · rcases h₂ with hlt' | ⟨heq, -⟩
        · omega
        · rw [heq] at hlt
          omega
      · rcases h₂ with hlt' | ⟨-, h₂⟩
        · omega
        · rw [ih h₁ h₂]

/-- The path of an assignment is matched, and by values that interpolate to it, exactly when
the preferred split agrees on repeated names. -/
theorem resolve_interpolate_iff {alphanumeric : Char → Bool} {raw : Text} {p : Pattern}
    (_hparse : parse alphanumeric raw = .ok p) {w : Wildcards} {path : Text}
    (hw : ∀ n ∈ p.wildcardNames, ∀ v, w.lookup n = some v → v ≠ [] ∧ '/' ∉ v ∧ '\n' ∉ v)
    (hpath : p.interpolate w = .ok path) :
    (∃ w', p.resolve path = some w' ∧ p.interpolate w' = .ok path) ↔
      PreferredAgrees p.segments path := by
  have hsplit := splits_of_interpolateSegments
    (fun n hn v hv => ⟨(hw n hn v hv).1, (hw n hn v hv).2.1⟩) hpath
  obtain ⟨us, hcaps⟩ := captures_of_splits hsplit
  have hus := splits_of_captures hcaps
  constructor
  · rintro ⟨w', hres, -⟩
    obtain ⟨values, hcaps', hextract⟩ := bind_eq_some_iff.mp hres
    have heq : us = values := Option.some.inj (hcaps.symm.trans hcaps')
    subst heq
    obtain ⟨-, hzip, -⟩ := lookup_of_extractWildcards hus.length_eq hextract
    have hvalues : us = (segmentNames p.segments).map fun n => (w'.lookup n).getD [] := by
      refine ext_getElem (by rw [length_map]; exact hus.length_eq) ?_
      intro i h₁ h₂
      have hi : i < (segmentNames p.segments).length := by
        rw [← hus.length_eq]
        exact h₁
      have hmem : ((segmentNames p.segments)[i], us[i]) ∈ (segmentNames p.segments).zip us := by
        rw [mem_iff_getElem]
        exact ⟨i, by rw [length_zip]; exact lt_min hi h₁, getElem_zip⟩
      rw [getElem_map, hzip _ _ hmem, getD_some]
    refine ⟨fun n => (w'.lookup n).getD [], ?_, ?_⟩
    · rw [← hvalues]
      exact hus
    · intro vs hvs
      rw [← hvalues]
      exact prefers_of_captures hcaps hvs
  · rintro ⟨g, hg, hpref⟩
    have heq : us = (segmentNames p.segments).map g :=
      (prefers_of_captures hcaps hg).antisymm (hpref us hus)
    rw [heq] at hcaps
    have hnil : ∀ n v, ([] : Wildcards).lookup n = some v → g n = v := nofun
    obtain ⟨w', hw'⟩ := extractWildcards_of_assignment g hnil
    obtain ⟨-, hzip, -⟩ := lookup_of_extractWildcards hg.length_eq hw'
    have hres : p.resolve path = some w' := by
      unfold Pattern.resolve
      rw [hcaps]
      exact hw'
    exact ⟨w', hres, interpolateSegments_of_splits hg hzip⟩

theorem map_lookup_zip {names values : List Text} (hnodup : names.Nodup)
    (hlen : values.length = names.length) :
    (names.map fun n => ((names.zip values).lookup n).getD []) = values := by
  induction names generalizing values with
  | nil =>
    cases values with
    | nil => rfl
    | cons => cases hlen
  | cons name names ih =>
    cases values with
    | nil => cases hlen
    | cons =>
      obtain ⟨hnot, hnodup⟩ := nodup_cons.mp hnodup
      rw [map_cons, zip_cons_cons, lookup_cons_self, getD_some]
      congr 1
      refine Eq.trans (map_congr_left ?_) (ih hnodup (Nat.succ.inj hlen))
      intro n hn
      have hne : n ≠ name := by
        intro heq
        exact hnot (heq ▸ hn)
      rw [lookup_cons, beq_eq_false_iff_ne.mpr hne]

theorem preferredAgrees_of_nodup {segments : List Segment} {path : Text} {values : List Text}
    (hnodup : (segmentNames segments).Nodup) (h : Splits segments values path) :
    PreferredAgrees segments path := by
  obtain ⟨us, hcaps⟩ := captures_of_splits h
  have hus := splits_of_captures hcaps
  have hvalues := map_lookup_zip hnodup hus.length_eq
  refine ⟨fun n => (((segmentNames segments).zip us).lookup n).getD [], ?_, ?_⟩
  · rw [hvalues]
    exact hus
  · intro vs hvs
    rw [hvalues]
    exact prefers_of_captures hcaps hvs

def dotted : Pattern :=
  ⟨['{', 'x', '}', '.', '{', 'y', '}'], [.wildcard ['x'], .literal ['.'], .wildcard ['y']]⟩

theorem parse_dotted : parse Char.isAlphanum dotted.raw = .ok dotted := by
  unfold parse dotted
  dsimp only
  rw [parseLoop_wildcard (by decide) rfl (by decide) (by decide) rfl,
    parseLoop_literal (by decide) (by decide),
    parseLoop_wildcard (by decide) rfl (by decide) (by decide) rfl, parseLoop]
  rfl

/-- The path that `x = a`, `y = b.c` give is matched, with another split. -/
theorem resolve_interpolate_dotted :
    ∃ w', dotted.resolve ['a', '.', 'b', '.', 'c'] = some w' ∧
      dotted.interpolate w' = .ok ['a', '.', 'b', '.', 'c'] := by
  have hw : ∀ n ∈ dotted.wildcardNames, ∀ v,
      ([(['x'], ['a']), (['y'], ['b', '.', 'c'])] : Wildcards).lookup n = some v →
        v ≠ [] ∧ '/' ∉ v ∧ '\n' ∉ v := by
    intro n hn v hv
    rcases mem_cons.mp hn with rfl | hn
    · cases hv
      decide
    · rw [mem_singleton.mp hn] at hv
      cases hv
      decide
  have hpath : dotted.interpolate [(['x'], ['a']), (['y'], ['b', '.', 'c'])] =
      .ok ['a', '.', 'b', '.', 'c'] := rfl
  refine (resolve_interpolate_iff parse_dotted hw hpath).mpr ?_
  refine preferredAgrees_of_nodup (by decide) (splits_of_interpolateSegments ?_ hpath)
  exact fun n hn v hv => ⟨(hw n hn v hv).1, (hw n hn v hv).2.1⟩

/-- The path that `x = a-a` gives for `{x}-{x}` is not matched. -/
theorem not_resolve_interpolate_twice :
    parse Char.isAlphanum twice.raw = .ok twice ∧
      twice.interpolate [(['x'], ['a', '-', 'a'])] =
        .ok ['a', '-', 'a', '-', 'a', '-', 'a'] ∧
      twice.resolve ['a', '-', 'a', '-', 'a', '-', 'a'] = none :=
  ⟨parse_twice, rfl, by decide⟩

end OxyMake.PatternMatching
