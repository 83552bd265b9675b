import Mathlib.Data.List.Nodup
import Mathlib.Data.List.Perm.Subperm
import Mathlib.Logic.Relation

/-!
# Breadth-first search

A search with a queue that collects every node it meets for the first time. On
a finite domain it ends, and it has collected each node that can be reached from
the root, the root apart, once.
-/

namespace OxyMake.BreadthFirst

open List

variable {α : Type*} [DecidableEq α]

structure Search (α : Type*) where
  queue : List α
  visited : List α
  result : List α

def Search.meet (s : Search α) (x : α) : Search α :=
  if x ∈ s.visited then s
  else ⟨s.queue ++ [x], s.visited ++ [x], s.result ++ [x]⟩

/-- Take nodes from the front of the queue until it is empty; nothing when the
fuel is used up before. -/
def search (next : α → List α) : ℕ → Search α → Option (List α)
  | 0, s =>
    match s.queue with
    | [] => some s.result
    | _ :: _ => none
  | fuel + 1, s =>
    match s.queue with
    | [] => some s.result
    | x :: queue => search next fuel ((next x).foldl Search.meet { s with queue := queue })

def collect (next : α → List α) (fuel : ℕ) (root : α) : Option (List α) :=
  search next fuel ⟨[root], [root], []⟩

/-! ### Meeting nodes -/

theorem mem_visited_foldl (xs : List α) (s : Search α) (y : α) :
    y ∈ (xs.foldl Search.meet s).visited ↔ y ∈ s.visited ∨ y ∈ xs := by
  induction xs generalizing s with
  | nil =>
    constructor
    · exact Or.inl
    · rintro (h | h)
      · exact h
      · cases h
  | cons x xs ih =>
    rw [foldl_cons, ih, Search.meet]
    by_cases hx : x ∈ s.visited
    · rw [if_pos hx, mem_cons]
      constructor
      · rintro (h | h)
        · exact Or.inl h
        · exact Or.inr (Or.inr h)
      · rintro (h | rfl | h)
        · exact Or.inl h
        · exact Or.inl hx
        · exact Or.inr h
    · rw [if_neg hx, mem_cons]
      dsimp only
      rw [mem_append, mem_singleton, or_assoc]

theorem mem_queue_foldl (xs : List α) (s : Search α) (y : α) :
    y ∈ (xs.foldl Search.meet s).queue ↔ y ∈ s.queue ∨ (y ∈ xs ∧ y ∉ s.visited) := by
  induction xs generalizing s with
  | nil =>
    constructor
    · exact Or.inl
    · rintro (h | ⟨h, -⟩)
      · exact h
      · cases h
  | cons x xs ih =>
    rw [foldl_cons, ih, Search.meet]
    by_cases hx : x ∈ s.visited
    · rw [if_pos hx, mem_cons]
      constructor
      · rintro (h | ⟨h, hnew⟩)
        · exact Or.inl h
        · exact Or.inr ⟨Or.inr h, hnew⟩
      · rintro (h | ⟨rfl | h, hnew⟩)
        · exact Or.inl h
        · exact absurd hx hnew
        · exact Or.inr ⟨h, hnew⟩
    · rw [if_neg hx, mem_cons]
      dsimp only
      rw [mem_append, mem_singleton, mem_append, mem_singleton]
      by_cases heq : y = x
      · rw [heq]
        tauto
      · tauto

/-- How the state of a search relates to its root. -/
structure Explored (next : α → List α) (root : α) (s : Search α) : Prop where
  /-- The root and the collected nodes were met. -/
  visited : s.visited = root :: s.result
  nodup : s.visited.Nodup
  /-- Only nodes that were met wait. -/
  queue : ∀ x ∈ s.queue, x ∈ s.visited
  /-- Nodes that were met can be reached. -/
  reached : ∀ x ∈ s.visited, Relation.ReflTransGen (fun a b => b ∈ next a) root x

theorem Explored.meet {next : α → List α} {root : α} {s : Search α} (h : Explored next root s)
    {x : α} (hx : Relation.ReflTransGen (fun a b => b ∈ next a) root x) :
    Explored next root (s.meet x) ∧
      (s.meet x).queue.length + s.visited.length = s.queue.length + (s.meet x).visited.length := by
  unfold Search.meet
  by_cases hmem : x ∈ s.visited
  · rw [if_pos hmem]
    exact ⟨h, rfl⟩
  · rw [if_neg hmem]
    refine ⟨⟨?_, ?_, ?_, ?_⟩, ?_⟩
    · dsimp only
      rw [h.visited, cons_append]
    · exact nodup_append.mpr ⟨h.nodup, nodup_singleton x, fun a ha b hb hab =>
        hmem (mem_singleton.mp hb ▸ hab ▸ ha)⟩
    · intro y hy
      rcases mem_append.mp hy with hy | hy
      · exact mem_append_left _ (h.queue y hy)
      · exact mem_append_right _ hy
    · intro y hy
      rcases mem_append.mp hy with hy | hy
      · exact h.reached y hy
      · rw [mem_singleton.mp hy]
        exact hx
    · dsimp only
      rw [length_append, length_append, length_singleton]
      omega

theorem Explored.foldl_meet {next : α → List α} {root : α} {s : Search α}
    (h : Explored next root s) {xs : List α}
    (hxs : ∀ x ∈ xs, Relation.ReflTransGen (fun a b => b ∈ next a) root x) :
    Explored next root (xs.foldl Search.meet s) ∧
      (xs.foldl Search.meet s).queue.length + s.visited.length =
        s.queue.length + (xs.foldl Search.meet s).visited.length := by
  induction xs generalizing s with
  | nil => exact ⟨h, rfl⟩
  | cons x xs ih =>
    obtain ⟨hmeet, _⟩ := h.meet (hxs x mem_cons_self)
    obtain ⟨hall, _⟩ := ih hmeet fun y hy => hxs y (.tail x hy)
    rw [foldl_cons]
    exact ⟨hall, by omega⟩

/-! ### The search -/

/-- The neighbours of a node that does not wait were met. -/
def Closed (next : α → List α) (s : Search α) : Prop :=
  ∀ x ∈ s.visited, x ∈ s.queue ∨ ∀ y ∈ next x, y ∈ s.visited

omit [DecidableEq α] in
theorem Explored.of_empty {next : α → List α} {root : α} {s : Search α}
    (h : Explored next root s) (hclosed : Closed next s) (hempty : s.queue = []) :
    (root :: s.result).Nodup ∧
      ∀ x, x ∈ root :: s.result ↔ Relation.ReflTransGen (fun a b => b ∈ next a) root x := by
  rw [← h.visited]
  refine ⟨h.nodup, fun x => ⟨h.reached x, ?_⟩⟩
  intro hreach
  induction hreach with
  | refl =>
    rw [h.visited]
    exact mem_cons_self
  | tail _ hstep ih =>
    rcases hclosed _ ih with hqueue | hnext
    · rw [hempty] at hqueue
      cases hqueue
    · exact hnext _ hstep

theorem Closed.pop {next : α → List α} {s : Search α} (hclosed : Closed next s) {x : α}
    {queue : List α} (hqueue : s.queue = x :: queue) :
    Closed next ((next x).foldl Search.meet { s with queue := queue }) := by
  intro y hy
  by_cases hold : y ∈ s.visited
  · rcases hclosed y hold with hwait | hdone
    · rw [hqueue] at hwait
      rcases mem_cons.mp hwait with rfl | hwait
      · exact Or.inr fun z hz => (mem_visited_foldl _ _ z).mpr (Or.inr hz)
      · exact Or.inl ((mem_queue_foldl _ _ y).mpr (Or.inl hwait))
    · exact Or.inr fun z hz => (mem_visited_foldl _ _ z).mpr (Or.inl (hdone z hz))
  · have hnew := ((mem_visited_foldl _ _ y).mp hy).resolve_left hold
    exact Or.inl ((mem_queue_foldl _ _ y).mpr (Or.inr ⟨hnew, hold⟩))

theorem Explored.search {next : α → List α} {domain : List α}
    (hdomain : ∀ x, ∀ y ∈ next x, y ∈ domain) {root : α} {s : Search α}
    (h : Explored next root s) (hclosed : Closed next s) {fuel : ℕ}
    (hfuel : s.queue.length + domain.length + 1 ≤ fuel + s.visited.length) :
    ∃ r, BreadthFirst.search next fuel s = some r ∧ (root :: r).Nodup ∧
      ∀ x, x ∈ root :: r ↔ Relation.ReflTransGen (fun a b => b ∈ next a) root x := by
  induction fuel generalizing s with
  | zero =>
    have hsubset : s.visited ⊆ root :: domain := by
      intro x hx
      rcases (Relation.ReflTransGen.cases_tail_iff _ _ _).mp (h.reached x hx) with
        rfl | ⟨y, -, hy⟩
      · exact mem_cons_self
      · exact mem_cons_of_mem _ (hdomain y x hy)
    have hle := (subperm_of_subset h.nodup hsubset).length_le
    rw [length_cons] at hle
    have hempty : s.queue = [] := length_eq_zero_iff.mp (by omega)
    refine ⟨s.result, ?_, h.of_empty hclosed hempty⟩
    rw [BreadthFirst.search, hempty]
  | succ fuel ih =>
    rw [BreadthFirst.search]
    cases hqueue : s.queue with
    | nil => exact ⟨s.result, rfl, h.of_empty hclosed hqueue⟩
    | cons x queue =>
      have hx : x ∈ s.visited := by
        apply h.queue
        rw [hqueue]
        exact mem_cons_self
      have hpop : Explored next root { s with queue := queue } := by
        refine ⟨h.visited, h.nodup, ?_, h.reached⟩
        intro y hy
        apply h.queue
        rw [hqueue]
        exact mem_cons_of_mem x hy
      obtain ⟨hmet, hlength⟩ := hpop.foldl_meet fun y hy => (h.reached x hx).tail hy
      rw [hqueue, length_cons] at hfuel
      dsimp only at hlength ⊢
      exact ih hmet (hclosed.pop hqueue) (by omega)

/-- With one unit of fuel for each node of the domain and one for the root, the
search collects each node that can be reached, the root apart, once. -/
theorem collect_eq {next : α → List α} {domain : List α}
    (hdomain : ∀ x, ∀ y ∈ next x, y ∈ domain) (root : α) :
    ∃ r, collect next (domain.length + 1) root = some r ∧ r.Nodup ∧
      ∀ x, x ∈ r ↔ x ≠ root ∧ Relation.ReflTransGen (fun a b => b ∈ next a) root x := by
  have hstart : Explored next root ⟨[root], [root], []⟩ := by
    refine ⟨rfl, nodup_singleton root, fun x hx => hx, ?_⟩
    intro x hx
    rw [mem_singleton.mp hx]
  obtain ⟨r, hr, hnodup, hmem⟩ := hstart.search hdomain (fun x hx => Or.inl hx)
    (show 1 + domain.length + 1 ≤ domain.length + 1 + 1 by omega)
  obtain ⟨hroot, hnodup⟩ := nodup_cons.mp hnodup
  refine ⟨r, hr, hnodup, fun x => ?_⟩
  rw [← hmem, mem_cons]
  constructor
  · intro hx
    refine ⟨?_, Or.inr hx⟩
    rintro rfl
    exact hroot hx
  · rintro ⟨hne, rfl | hx⟩
    · exact absurd rfl hne
    · exact hx

end OxyMake.BreadthFirst
