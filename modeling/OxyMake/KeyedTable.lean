import Mathlib.Data.List.Nodup
import Mathlib.Data.List.Count
import OxyMake.Counting

/-!
# Tables with a primary key

A table is a list of rows with distinct keys. An update rewrites the rows that
satisfy its condition and reports how many there were, and an upsert rewrites
the row of a key or appends one. What a table holds under a key determines the
effect of each operation on that key.
-/

namespace OxyMake.KeyedTable

open List Option

variable {K R : Type} [DecidableEq K]

structure Table (K R : Type) where
  rows : List (K × R)
  nodup : (rows.map Prod.fst).Nodup
  deriving DecidableEq

namespace Table

def empty : Table K R := ⟨[], nodup_nil⟩

def get (t : Table K R) (k : K) : Option R := t.rows.lookup k

def select (p : K → R → Bool) (t : Table K R) : List K :=
  (t.rows.filter fun e => p e.1 e.2).map Prod.fst

def count (p : K → R → Bool) (t : Table K R) : ℕ := t.rows.countP fun e => p e.1 e.2

def update (p : K → R → Bool) (f : R → R) (t : Table K R) : Table K R where
  rows := t.rows.map fun e => (e.1, if p e.1 e.2 then f e.2 else e.2)
  nodup := by
    rw [List.map_map]
    exact t.nodup

/-- Rewrite the row of a key, or append a row under it. -/
def upsert (k : K) (r : R) (f : R → R) (t : Table K R) : Table K R :=
  if h : k ∈ t.rows.map Prod.fst then t.update (fun k' _ => k' = k) f
  else
    { rows := t.rows ++ [(k, r)]
      nodup := by
        rw [map_append, map_singleton]
        exact List.Nodup.append t.nodup (nodup_singleton k)
          (disjoint_singleton.mpr h) }

/-- Remove the rows that satisfy a condition on their keys. -/
def delete (p : K → Bool) (t : Table K R) : Table K R where
  rows := t.rows.filter fun e => !p e.1
  nodup := t.nodup.sublist (filter_sublist.map Prod.fst)

def insertNew (k : K) (r : R) (t : Table K R) : Option (Table K R) :=
  if h : k ∈ t.rows.map Prod.fst then none
  else
    some
      { rows := t.rows ++ [(k, r)]
        nodup := by
          rw [map_append, map_singleton]
          exact List.Nodup.append t.nodup (nodup_singleton k)
            (disjoint_singleton.mpr h) }

def weigh (w : R → ℕ) (t : Table K R) : ℕ := (t.rows.map fun e => w e.2).sum

/-- Store a row under a key, in place of an earlier one. -/
def put (k : K) (r : R) (t : Table K R) : Table K R := t.upsert k r fun _ => r

omit [DecidableEq K] in
theorem lookup_map [BEq K] (l : List (K × R)) (g : K → R → R) (k : K) [LawfulBEq K] :
    (l.map fun e => (e.1, g e.1 e.2)).lookup k = (l.lookup k).map (g k) := by
  induction l with
  | nil => rfl
  | cons e l ih =>
    rw [map_cons, lookup_cons, lookup_cons, ih]
    by_cases h : k = e.1
    · subst h
      simp only [beq_self_eq_true, map_some]
    · rw [beq_eq_false_iff_ne.mpr h]

/-- An update rewrites what is stored under a key when that row qualifies. -/
@[simp]
theorem get_update (p : K → R → Bool) (f : R → R) (t : Table K R) (k : K) :
    (t.update p f).get k = (t.get k).map fun r => if p k r then f r else r :=
  lookup_map t.rows (fun k r => if p k r then f r else r) k

omit [DecidableEq K] in
theorem lookup_eq_some_of_mem [BEq K] [LawfulBEq K] {l : List (K × R)}
    (hl : (l.map Prod.fst).Nodup) {k : K} {r : R} (h : (k, r) ∈ l) : l.lookup k = some r := by
  induction l with
  | nil => cases h
  | cons e l ih =>
    obtain ⟨hnot, hl⟩ := nodup_cons.mp hl
    rw [lookup_cons]
    rcases mem_cons.mp h with h | h
    · subst h
      rw [beq_self_eq_true]
    · have hne : k ≠ e.1 := by
        intro hk
        exact hnot (List.mem_map.mpr ⟨(k, r), h, hk⟩)
      rw [beq_eq_false_iff_ne.mpr hne]
      exact ih hl h

/-- The rows of a table are what it holds under their keys. -/
theorem mem_rows_iff (t : Table K R) (k : K) (r : R) : (k, r) ∈ t.rows ↔ t.get k = some r := by
  constructor
  · exact lookup_eq_some_of_mem t.nodup
  · intro h
    obtain ⟨l₁, _, hrows, -⟩ := lookup_eq_some_iff.mp h
    rw [hrows]
    exact mem_append_right l₁ mem_cons_self

theorem count_pos_iff (p : K → R → Bool) (t : Table K R) :
    0 < t.count p ↔ ∃ k r, t.get k = some r ∧ p k r = true := by
  unfold count
  rw [countP_pos_iff]
  constructor
  · rintro ⟨⟨k, r⟩, hmem, hp⟩
    exact ⟨k, r, (t.mem_rows_iff k r).mp hmem, hp⟩
  · rintro ⟨k, r, hget, hp⟩
    exact ⟨(k, r), (t.mem_rows_iff k r).mpr hget, hp⟩

theorem count_key_pos_iff (k : K) (q : R → Bool) (t : Table K R) :
    0 < t.count (fun k' r => k' = k && q r) ↔ ∃ r, t.get k = some r ∧ q r = true := by
  rw [count_pos_iff]
  constructor
  · rintro ⟨k', r, hget, hp⟩
    obtain ⟨hk, hq⟩ := Bool.and_eq_true_iff.mp hp
    rw [of_decide_eq_true hk] at hget
    exact ⟨r, hget, hq⟩
  · rintro ⟨r, hget, hq⟩
    exact ⟨k, r, hget, by simp only [hq, decide_true, Bool.and_self]⟩

/-- A selected key holds a row that satisfies the condition. -/
theorem mem_select_iff (p : K → R → Bool) (t : Table K R) (k : K) :
    k ∈ t.select p ↔ ∃ r, t.get k = some r ∧ p k r = true := by
  unfold select
  rw [List.mem_map]
  constructor
  · rintro ⟨⟨k', r⟩, hmem, rfl⟩
    obtain ⟨hrow, hp⟩ := mem_filter.mp hmem
    exact ⟨r, (t.mem_rows_iff k' r).mp hrow, hp⟩
  · rintro ⟨r, hget, hp⟩
    exact ⟨(k, r), mem_filter.mpr ⟨(t.mem_rows_iff k r).mpr hget, hp⟩, rfl⟩

/-- A key is listed exactly when something is stored under it. -/
theorem mem_keys_iff (t : Table K R) (k : K) :
    k ∈ t.rows.map Prod.fst ↔ ∃ r, t.get k = some r := by
  rw [List.mem_map]
  constructor
  · rintro ⟨⟨k', r⟩, hmem, rfl⟩
    exact ⟨r, (t.mem_rows_iff k' r).mp hmem⟩
  · rintro ⟨r, hget⟩
    exact ⟨(k, r), (t.mem_rows_iff k r).mpr hget, rfl⟩

theorem update_eq_self {p : K → R → Bool} {t : Table K R} (f : R → R)
    (h : ∀ k r, t.get k = some r → p k r = false) : t.update p f = t := by
  have hrow : ∀ e ∈ t.rows, (e.1, if p e.1 e.2 then f e.2 else e.2) = id e := by
    intro e he
    rw [h e.1 e.2 ((t.mem_rows_iff e.1 e.2).mp he)]
    rfl
  have hrows : (t.update p f).rows = t.rows :=
    (map_congr_left hrow).trans (List.map_id t.rows)
  obtain ⟨_, _⟩ := t
  simpa only [update, mk.injEq] using hrows

/-- What a table holds after an upsert: the row rewritten, or the row appended. -/
@[simp]
theorem get_upsert (k : K) (r : R) (f : R → R) (t : Table K R) (k' : K) :
    (t.upsert k r f).get k' =
      if k' = k then some ((t.get k).elim r f) else t.get k' := by
  unfold upsert
  split_ifs with hmem hk hk
  · obtain ⟨x, hx⟩ := (t.mem_keys_iff k).mp hmem
    subst hk
    simp only [get_update, hx, map_some, decide_true, if_true, elim_some]
  · simp only [get_update, hk, decide_false]
    cases t.get k' <;> rfl
  · subst hk
    have hnone : t.get k' = none := by
      cases hg : t.get k' with
      | none => rfl
      | some x => exact absurd ((t.mem_keys_iff k').mpr ⟨x, hg⟩) hmem
    have hlookup : t.rows.lookup k' = none := hnone
    rw [hnone]
    change (t.rows ++ [(k', r)]).lookup k' = _
    rw [lookup_append, hlookup, lookup_cons_self]
    rfl
  · change (t.rows ++ [(k, r)]).lookup k' = t.rows.lookup k'
    rw [lookup_append, lookup_cons, beq_eq_false_iff_ne.mpr hk]
    exact or_none

/-- Looking up a key after rows were removed. -/
theorem get_delete (p : K → Bool) (t : Table K R) (k : K) :
    (t.delete p).get k = if p k then none else t.get k := by
  split_ifs with hk
  · cases hget : (t.delete p).get k with
    | none => rfl
    | some r =>
      have hmem := ((t.delete p).mem_rows_iff k r).mpr hget
      have hfilter := (mem_filter.mp hmem).2
      rw [hk] at hfilter
      cases hfilter
  · cases hget : t.get k with
    | none =>
      cases hget' : (t.delete p).get k with
      | none => rfl
      | some r =>
        have hmem := mem_of_mem_filter (((t.delete p).mem_rows_iff k r).mpr hget')
        rw [(t.mem_rows_iff k r).mp hmem] at hget
        cases hget
    | some r =>
      refine ((t.delete p).mem_rows_iff k r).mp (mem_filter.mpr ⟨?_, ?_⟩)
      · exact (t.mem_rows_iff k r).mpr hget
      · rw [Bool.not_eq_true] at hk
        rw [hk]
        rfl

theorem get_insertNew {k : K} {r : R} {t t' : Table K R} (h : t.insertNew k r = some t')
    (k' : K) : t'.get k' = if k' = k then some r else t.get k' := by
  unfold insertNew at h
  split_ifs at h with hmem
  cases h
  unfold get
  dsimp only
  rw [lookup_append]
  by_cases hk : k' = k
  · subst hk
    have hnone : t.rows.lookup k' = none := by
      cases hget : t.rows.lookup k' with
      | none => rfl
      | some r' => exact absurd ((t.mem_keys_iff k').mpr ⟨r', hget⟩) hmem
    rw [hnone, if_pos rfl, none_or, lookup_cons_self]
  · rw [if_neg hk, lookup_cons, beq_eq_false_iff_ne.mpr hk]
    exact or_none

theorem insertNew_eq_none_iff {k : K} {r : R} {t : Table K R} :
    t.insertNew k r = none ↔ (t.get k).isSome = true := by
  unfold insertNew
  rw [isSome_iff_exists, ← t.mem_keys_iff]
  split_ifs with hmem
  · exact iff_of_true rfl hmem
  · exact iff_of_false (fun h => nomatch h) hmem

/-- Looking up a key after a row was stored. -/
theorem get_put (k : K) (r : R) (t : Table K R) (k' : K) :
    (t.put k r).get k' = if k' = k then some r else t.get k' := by
  unfold put
  rw [get_upsert]
  split_ifs
  · cases t.get k with
    | none | some => rfl
  · rfl

theorem lookup_eq_none_of_notMem {l : List (K × R)} {k : K} (h : k ∉ l.map Prod.fst) :
    l.lookup k = none := by
  cases hlookup : l.lookup k with
  | none => rfl
  | some r =>
    obtain ⟨l₁, _, hsplit, -⟩ := lookup_eq_some_iff.mp hlookup
    refine absurd (List.mem_map.mpr ⟨(k, r), ?_, rfl⟩) h
    rw [hsplit]
    exact mem_append_right l₁ mem_cons_self

theorem weigh_update (w : R → ℕ) (f : R → R) (t : Table K R) (k : K) :
    (t.update (fun k' _ => k' = k) f).weigh w + (t.get k).elim 0 w =
      t.weigh w + (t.get k).elim 0 fun r => w (f r) := by
  obtain ⟨rows, hnodup⟩ := t
  unfold weigh update get
  dsimp only
  rw [List.map_map]
  induction rows with
  | nil => rfl
  | cons e rows ih =>
    obtain ⟨hfresh, hrows⟩ := nodup_cons.mp hnodup
    have hrest := ih hrows
    rw [map_cons, map_cons, sum_cons, sum_cons, lookup_cons]
    by_cases hk : k = e.1
    · rw [beq_iff_eq.mpr hk]
      rw [← hk] at hfresh
      rw [lookup_eq_none_of_notMem hfresh] at hrest
      simp only [elim_none, Nat.add_zero] at hrest
      simp only [Function.comp_apply, hk, decide_true, if_true, elim_some]
      simp only [← hk]
      rw [hrest]
      omega
    · rw [beq_eq_false_iff_ne.mpr hk]
      have hne : decide (e.1 = k) = false := decide_eq_false fun h => hk h.symm
      simp only [Function.comp_apply, hne, Bool.false_eq_true, if_false]
      simp only [Function.comp_def] at hrest ⊢
      omega

/-- Removing the row of a key removes its weight. -/
theorem weigh_delete (w : R → ℕ) (t : Table K R) (k : K) :
    (t.delete fun k' => k' = k).weigh w + (t.get k).elim 0 w = t.weigh w := by
  obtain ⟨rows, hnodup⟩ := t
  unfold weigh delete get
  dsimp only
  induction rows with
  | nil => rfl
  | cons e rows ih =>
    obtain ⟨hfresh, hrows⟩ := nodup_cons.mp hnodup
    have hrest := ih hrows
    rw [map_cons, sum_cons, lookup_cons, filter_cons]
    by_cases hk : k = e.1
    · rw [beq_iff_eq.mpr hk]
      rw [← hk] at hfresh
      rw [lookup_eq_none_of_notMem hfresh] at hrest
      simp only [elim_none, Nat.add_zero] at hrest
      simp only [← hk, decide_true, Bool.not_true, Bool.false_eq_true, if_false, hrest,
        elim_some]
      omega
    · rw [beq_eq_false_iff_ne.mpr hk]
      have hne : decide (e.1 = k) = false := decide_eq_false fun h => hk h.symm
      simp only [hne, Bool.not_false, if_true, map_cons, sum_cons]
      omega

theorem weigh_put (w : R → ℕ) (t : Table K R) (k : K) (r : R) :
    (t.put k r).weigh w + (t.get k).elim 0 w = t.weigh w + w r := by
  unfold put upsert
  split_ifs with hmem
  · obtain ⟨_, hold⟩ := (t.mem_keys_iff k).mp hmem
    have hupdate := t.weigh_update w (fun _ => r) k
    rw [hold] at hupdate ⊢
    exact hupdate
  · have hnone : t.get k = none := lookup_eq_none_of_notMem hmem
    rw [hnone]
    unfold weigh
    dsimp only
    rw [map_append, sum_append, map_singleton, sum_singleton]
    rfl

theorem count_eq_countP {t : Table K R} {keys : List K} (hkeys : keys.Nodup)
    (hcovers : ∀ k r, t.get k = some r → k ∈ keys) (p : K → R → Bool) :
    t.count p = keys.countP fun k => (t.get k).any (p k) := by
  have hrows : t.count p = t.rows.countP ((fun k => (t.get k).any (p k)) ∘ Prod.fst) := by
    refine countP_congr fun e he => ?_
    rw [Function.comp_apply, (t.mem_rows_iff e.1 e.2).mp he]
    rfl
  rw [hrows, ← countP_map]
  refine Counting.countP_eq_of_mem_iff t.nodup hkeys fun k => ?_
  rw [t.mem_keys_iff]
  refine and_congr_left fun hk => ⟨fun ⟨r, hr⟩ => hcovers k r hr, fun _ => ?_⟩
  cases hget : t.get k with
  | none =>
    rw [hget] at hk
    cases hk
  | some r => exact ⟨r, rfl⟩

end Table

end OxyMake.KeyedTable
