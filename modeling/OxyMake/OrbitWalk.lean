import Mathlib.Data.List.Chain
import Mathlib.Data.List.Nodup
import Mathlib.Data.List.Perm.Subperm
import Mathlib.Dynamics.PeriodicPts.Defs

/-!
# Walks along a partial function

A walk that follows a partial function from a start until it meets a node for
the second time or has nowhere to go. In a finite domain it ends, with a chain
of steps unless it met a dead end, and the chain closes exactly when the
function leads from the start back to the start.
-/

namespace OxyMake.OrbitWalk

open List
open Function

variable {α : Type*} [DecidableEq α]

/-- Follow the function: nothing when the fuel is used up, an inner nothing at a
dead end, and otherwise the nodes up to the first that repeats. -/
def walk (next : α → Option α) : ℕ → α → List α → Option (Option (List α))
  | 0, _, _ => none
  | fuel + 1, x, path =>
    if x ∈ path then some (some (path ++ [x]))
    else
      match next x with
      | none => some none
      | some y => walk next fuel y (path ++ [x])

def advance (next : α → Option α) (o : Option α) : Option α := o.bind next

def Returns (next : α → Option α) (x : α) : Prop := some x ∈ periodicPts (advance next)

variable {next : α → Option α} {start : α}

/-- The path of a walk that has come to a node. -/
structure Trail (next : α → Option α) (start x : α) (path : List α) : Prop where
  /-- The path holds the first iterates. -/
  iterates : path.map some = (List.range path.length).map fun i => (advance next)^[i] (some start)
  /-- The node is the next iterate. -/
  current : some x = (advance next)^[path.length] (some start)
  nodup : path.Nodup

omit [DecidableEq α] in
theorem Trail.getElem? {x : α} {path : List α} (h : Trail next start x path) {i : ℕ}
    (hi : i < path.length) : path[i]? = (advance next)^[i] (some start) := by
  have hmap := congrArg (fun l => l[i]?) h.iterates
  rw [getElem?_map, getElem?_map, getElem?_range hi, Option.map_some] at hmap
  cases hpath : path[i]? with
  | none =>
    rw [hpath] at hmap
    cases hmap
  | some =>
    rw [hpath] at hmap
    exact Option.some.inj hmap

omit [DecidableEq α] in
theorem Trail.snoc {x y : α} {path : List α} (h : Trail next start x path) (hfresh : x ∉ path)
    (hnext : next x = some y) : Trail next start y (path ++ [x]) := by
  refine ⟨?_, ?_, ?_⟩
  · rw [length_append, length_singleton, range_succ, map_append,
      map_append, h.iterates, map_singleton, map_singleton, h.current]
  · rw [length_append, length_singleton, iterate_succ_apply', ← h.current, advance,
      Option.bind_some, hnext]
  · rw [nodup_append]
    refine ⟨h.nodup, nodup_singleton x, ?_⟩
    rintro a ha b hb rfl
    rw [mem_singleton.mp hb] at ha
    exact hfresh ha

omit [DecidableEq α] in
theorem Trail.isChain {x : α} {path : List α} (h : Trail next start x path) :
    (path ++ [x]).IsChain fun a b => next a = some b := by
  have hat : ∀ i, i < (path ++ [x]).length →
      (path ++ [x])[i]? = (advance next)^[i] (some start) := by
    intro i hi
    rw [length_append, length_singleton] at hi
    by_cases hlt : i < path.length
    · rw [getElem?_append_left hlt, h.getElem? hlt]
    · have heq : i = path.length := by omega
      rw [heq, getElem?_append_right (le_refl _), Nat.sub_self, ← h.current]
      rfl
  rw [isChain_iff_getElem]
  intro i hi
  have hleft := hat i (by omega)
  have hright := hat (i + 1) hi
  rw [iterate_succ_apply', ← hleft, getElem?_eq_getElem hi,
    getElem?_eq_getElem (Nat.lt_of_succ_lt hi), advance, Option.bind_some] at hright
  exact hright.symm

omit [DecidableEq α] in
theorem iterate_none (next : α → Option α) (k : ℕ) : (advance next)^[k] none = none :=
  iterate_fixed rfl k

omit [DecidableEq α] in
theorem Returns.iterate_ne_none (h : Returns next start) (n : ℕ) :
    (advance next)^[n] (some start) ≠ none := by
  obtain ⟨k, hk, hperiod⟩ := h
  intro hnone
  have hlater : (advance next)^[n * k] (some start) = some start := hperiod.const_mul n
  have hle : n ≤ n * k := Nat.le_mul_of_pos_right n hk
  rw [← Nat.sub_add_cancel hle, iterate_add_apply, hnone, iterate_none] at hlater
  cases hlater

omit [DecidableEq α] in
theorem Returns.eq_start (h : Returns next start) {x : α} {path : List α}
    (trail : Trail next start x path) (hx : x ∈ path) : x = start := by
  obtain ⟨i, hi⟩ := mem_iff_getElem?.mp hx
  have hlt := (List.getElem?_eq_some_iff.mp hi).1
  rw [trail.getElem? hlt, trail.current] at hi
  have hpositive := minimalPeriod_pos_of_mem_periodicPts h
  have hperiod : (advance next)^[minimalPeriod (advance next) (some start)] (some start) =
      some start := isPeriodicPt_minimalPeriod _ _
  -- a path that is longer than the period would hold the start twice
  have hle : path.length ≤ minimalPeriod (advance next) (some start) := by
    by_contra hlong
    have hlong : minimalPeriod (advance next) (some start) < path.length := by omega
    have hfirst := trail.getElem? (show 0 < path.length by omega)
    have hsecond := trail.getElem? hlong
    rw [hperiod] at hsecond
    have hsame : path[0]? = path[minimalPeriod (advance next) (some start)]? := by
      rw [hfirst, hsecond, iterate_zero_apply]
    have heq := (getElem?_inj (by omega) trail.nodup).mp hsame
    omega
  rcases Nat.lt_or_eq_of_le hle with hshort | heq
  · have hsame := iterate_injOn_Iio_minimalPeriod (Set.mem_Iio.mpr (lt_trans hlt hshort))
      (Set.mem_Iio.mpr hshort) hi
    omega
  · have hcurrent := trail.current
    rw [heq, hperiod] at hcurrent
    exact Option.some.inj hcurrent

/-! ### The walk -/

structure Answers (next : α → Option α) (start : α) (answer : Option (List α)) : Prop where
  /-- A path is a chain of steps. -/
  chain : ∀ path, answer = some path →
    2 ≤ path.length ∧ path.IsChain fun a b => next a = some b
  /-- A path closes exactly when the function leads back to the start. -/
  closed : (∃ path, answer = some path ∧ path.head? = path.getLast?) ↔ Returns next start

omit [DecidableEq α] in
theorem Trail.answers {x : α} {path : List α} (h : Trail next start x path) (hx : x ∈ path) :
    Answers next start (some (path ++ [x])) := by
  have hpositive : 0 < path.length := length_pos_of_mem hx
  have hhead : (path ++ [x]).head? = some start := by
    rw [head?_eq_getElem?, getElem?_append_left hpositive, h.getElem? hpositive,
      iterate_zero_apply]
  constructor
  · intro p hp
    cases hp
    refine ⟨?_, h.isChain⟩
    rw [length_append, length_singleton]
    omega
  · constructor
    · rintro ⟨p, hp, hclosed⟩
      cases hp
      rw [hhead, getLast?_concat, h.current] at hclosed
      exact ⟨path.length, hpositive, hclosed.symm⟩
    · intro hreturns
      refine ⟨_, rfl, ?_⟩
      rw [hhead, getLast?_concat, hreturns.eq_start h hx]

theorem Trail.walk {domain : List α} (hdomain : ∀ x y, next x = some y → y ∈ domain) {x : α}
    {path : List α} (h : Trail next start x path) (hpath : path ⊆ start :: domain) {fuel : ℕ}
    (hx : x ∈ start :: domain) (hfuel : domain.length + 2 ≤ fuel + path.length) :
    ∃ answer, OrbitWalk.walk next fuel x path = some answer ∧ Answers next start answer := by
  induction fuel generalizing x path with
  | zero =>
    have hle := (subperm_of_subset h.nodup hpath).length_le
    rw [length_cons] at hle
    omega
  | succ fuel ih =>
    rw [OrbitWalk.walk]
    by_cases hmem : x ∈ path
    · rw [if_pos hmem]
      exact ⟨_, rfl, h.answers hmem⟩
    · rw [if_neg hmem]
      cases hnext : next x with
      | none =>
        refine ⟨none, rfl, ⟨?_, ?_⟩⟩
        · intro p hp
          cases hp
        · constructor
          · rintro ⟨p, hp, -⟩
            cases hp
          · intro hreturns
            have hstuck := hreturns.iterate_ne_none (path.length + 1)
            rw [iterate_succ_apply', ← h.current, advance, Option.bind_some] at hstuck
            exact absurd hnext hstuck
      | some y =>
        apply ih (h.snoc hmem hnext)
        · exact append_subset.mpr ⟨hpath, cons_subset.mpr ⟨hx, nil_subset _⟩⟩
        · exact mem_cons_of_mem start (hdomain x y hnext)
        · rw [length_append, length_singleton]
          omega

theorem exists_walk {domain : List α} (hdomain : ∀ x y, next x = some y → y ∈ domain)
    (start : α) : ∃ answer, walk next (domain.length + 2) start [] = some answer ∧
      Answers next start answer := by
  have htrail : Trail next start start [] := ⟨rfl, rfl, nodup_nil⟩
  exact htrail.walk hdomain (nil_subset _) mem_cons_self (Nat.le_refl _)

end OxyMake.OrbitWalk
