import OxyMake.PhysicalGraph
import Mathlib.Data.List.Chain
import Mathlib.Data.List.Induction
import Mathlib.Logic.Function.Basic

/-!
# The critical path

One pass over a topological order measures for every job the longest chain of
upstream jobs that ends in it and remembers the job before it. Walking back from
a job of greatest measure gives a chain of that length, and no chain is longer:
along any chain the measure grows by at least one with every job.
-/

namespace OxyMake.CriticalPath

open List Function
open PhysicalGraph

def maxByKey {α : Type} (key : α → ℕ) : List α → Option α
  | [] => none
  | x :: rest =>
    match maxByKey key rest with
    | none => some x
    | some y => if key y < key x then some x else some y

/-- Measures and predecessors of the visited jobs. -/
structure Lengths where
  /-- Length of the longest path that ends at a job. -/
  dist : JobId → Option ℕ
  predecessor : JobId → Option JobId

/-- Measure one job from its upstream jobs; a job without any starts at zero. -/
def visit (g : JobGraph) (m : Lengths) (id : JobId) : Lengths :=
  let measured := (g.upstream id).filterMap fun u => (m.dist u).map fun d => (d, u)
  let best := (maxByKey Prod.fst measured).getD (0, id)
  { dist := Function.update m.dist id (some (best.1 + 1))
    predecessor := if best.2 ≠ id then Function.update m.predecessor id (some best.2)
      else m.predecessor }

def measure (g : JobGraph) (order : List JobId) : Lengths :=
  order.foldl (visit g) ⟨fun _ => none, fun _ => none⟩

def backtrack (predecessor : JobId → Option JobId) : ℕ → JobId → List JobId
  | 0, _ => []
  | fuel + 1, current =>
    match predecessor current with
    | none => []
    | some pred => pred :: backtrack predecessor fuel pred

/-- The critical path of a graph, from source to sink. -/
def computeCriticalPath (g : JobGraph) (order : List JobId) : List JobId :=
  let m := measure g order
  match maxByKey (fun id => (m.dist id).getD 0) order with
  | none => []
  | some tail => (tail :: backtrack m.predecessor order.length tail).reverse

/-- A chain of jobs, each upstream of the next. -/
structure UpstreamChain (g : JobGraph) (path : List JobId) : Prop where
  /-- Every job is upstream of the next. -/
  linked : path.IsChain fun u id => u ∈ g.upstream id
  live : ∀ id ∈ path, id ∈ g.jobIds

theorem maxByKey_eq_none {α : Type} {key : α → ℕ} {l : List α} (h : maxByKey key l = none) :
    l = [] := by
  cases l with
  | nil => rfl
  | cons x rest =>
    rw [maxByKey] at h
    cases hrest : maxByKey key rest with
    | none => rw [hrest] at h; cases h
    | some =>
      rw [hrest] at h
      dsimp only at h
      split_ifs at h

theorem maxByKey_spec {α : Type} {key : α → ℕ} {l : List α} {best : α}
    (h : maxByKey key l = some best) : best ∈ l ∧ ∀ x ∈ l, key x ≤ key best := by
  induction l generalizing best with
  | nil => cases h
  | cons x rest ih =>
    rw [maxByKey] at h
    cases hrest : maxByKey key rest with
    | none =>
      rw [hrest] at h
      rw [maxByKey_eq_none hrest, ← Option.some.inj h]
      exact ⟨mem_cons_self, fun y hy => by rw [mem_singleton.mp hy]⟩
    | some =>
      rw [hrest] at h
      dsimp only at h
      obtain ⟨hmem, hmax⟩ := ih hrest
      split_ifs at h with hlt
      · rw [← Option.some.inj h]
        constructor
        · exact mem_cons_self
        · intro z hz
          cases mem_cons.mp hz with
          | inl hzx => rw [hzx]
          | inr hz => exact (hmax z hz).trans hlt.le
      · rw [← Option.some.inj h]
        constructor
        · exact mem_cons_of_mem x hmem
        · intro z hz
          cases mem_cons.mp hz with
          | inl hzx => rw [hzx]; exact Nat.not_lt.mp hlt
          | inr hz => exact hmax z hz

variable {g : JobGraph}

/-- A measure one above the greatest measure upstream, with a predecessor that
has it; one without upstream jobs. -/
structure Measured (g : JobGraph) (m : Lengths) (id : JobId) (n : ℕ) : Prop where
  dist : m.dist id = some (n + 1)
  /-- Every upstream job has a smaller measure. -/
  upstream : ∀ u ∈ g.upstream id, ∃ k < n, m.dist u = some (k + 1)
  /-- The predecessor is an upstream job of the next smaller measure. -/
  predecessor : (n = 0 ∧ m.predecessor id = none) ∨
    ∃ u ∈ g.upstream id, ∃ k, n = k + 1 ∧ m.predecessor id = some u ∧ m.dist u = some (k + 1)

/-- What is known after a first part of the order. -/
structure Visited (g : JobGraph) (done : List JobId) (m : Lengths) : Prop where
  /-- Every visited job is measured, by less than the number of visited jobs. -/
  measured : ∀ id ∈ done, ∃ n < done.length, Measured g m id n
  fresh : ∀ id, id ∉ done → m.dist id = none ∧ m.predecessor id = none

section Step

variable {topo : TopologicalOrder g} {done later : List JobId} {id : JobId} {m : Lengths}

theorem visit_of_ne (m : Lengths) {x id : JobId} (hx : x ≠ id) :
    (visit g m id).dist x = m.dist x ∧ (visit g m id).predecessor x = m.predecessor x := by
  constructor
  · exact update_of_ne hx _ _
  · rw [visit]
    dsimp only
    split_ifs with hbest
    · exact update_of_ne hx _ _
    · rfl

theorem Measured.visit {x : JobId} {n : ℕ} (hx : Measured g m x n) (hne : x ≠ id)
    (hup : ∀ u ∈ g.upstream x, u ≠ id) : Measured g (visit g m id) x n where
  dist := (visit_of_ne m hne).1.trans hx.dist
  upstream u hu := by
    obtain ⟨k, hk, hdist⟩ := hx.upstream u hu
    exact ⟨k, hk, (visit_of_ne m (hup u hu)).1.trans hdist⟩
  predecessor := by
    rw [(visit_of_ne m hne).2]
    cases hx.predecessor with
    | inl h => exact .inl h
    | inr h =>
      obtain ⟨u, hu, k, hk, hpred, hdist⟩ := h
      exact .inr ⟨u, hu, k, hk, hpred, (visit_of_ne m (hup u hu)).1.trans hdist⟩

theorem Visited.measures (hv : Visited g done m) (hsplit : topo.order = done ++ id :: later) :
    ∃ n < done.length + 1, Measured g (visit g m id) id n := by
  have hself : ∀ u ∈ g.upstream id, u ≠ id := fun u hu => (mem_bridgedNeighborsIds.mp hu).1
  have hfresh := hv.fresh id (topo.next_not_mem hsplit)
  have hdone : ∀ u ∈ g.upstream id, u ∈ done := topo.before _ _ _ hsplit
  cases hbest : maxByKey Prod.fst
      ((g.upstream id).filterMap fun u => (m.dist u).map fun d => (d, u)) with
  | none =>
    have hnone : ∀ u, u ∉ g.upstream id := by
      intro u hu
      obtain ⟨n, -, hn⟩ := hv.measured u (hdone u hu)
      have hmem : (n + 1, u) ∈ (g.upstream id).filterMap
          fun u => (m.dist u).map fun d => (d, u) :=
        mem_filterMap.mpr ⟨u, hu, by rw [hn.dist]; rfl⟩
      rw [maxByKey_eq_none hbest] at hmem
      cases hmem
    have hdist : (visit g m id).dist id = some (0 + 1) := by
      rw [visit, hbest]
      exact update_self _ _ _
    have hpred : (visit g m id).predecessor id = none := by
      rw [visit, hbest]
      dsimp only
      rw [Option.getD_none, if_neg (not_not.mpr rfl)]
      exact hfresh.2
    exact ⟨0, Nat.succ_pos _, hdist, fun u hu => absurd hu (hnone u), .inl ⟨rfl, hpred⟩⟩
  | some best =>
    obtain ⟨hmem, hmax⟩ := maxByKey_spec hbest
    obtain ⟨u, hu, hpair⟩ := mem_filterMap.mp hmem
    obtain ⟨k, hk, hmeasured⟩ := hv.measured u (hdone u hu)
    rw [hmeasured.dist, Option.map_some] at hpair
    have hbestu : best = (k + 1, u) := (Option.some.inj hpair).symm
    have hdist : (visit g m id).dist id = some (k + 1 + 1) := by
      rw [visit, hbest, hbestu]
      exact update_self _ _ _
    have hpred : (visit g m id).predecessor id = some u := by
      rw [visit, hbest, hbestu]
      dsimp only
      rw [Option.getD_some, if_pos (hself u hu)]
      exact update_self _ _ _
    have hkept : (visit g m id).dist u = some (k + 1) :=
      (visit_of_ne m (hself u hu)).1.trans hmeasured.dist
    refine ⟨k + 1, Nat.succ_lt_succ hk, hdist, ?_, .inr ⟨u, hu, k, rfl, hpred, hkept⟩⟩
    intro v hv'
    obtain ⟨j, -, hj⟩ := hv.measured v (hdone v hv')
    have hle := hmax (j + 1, v) (mem_filterMap.mpr ⟨v, hv', by rw [hj.dist]; rfl⟩)
    rw [hbestu] at hle
    exact ⟨j, by omega, (visit_of_ne m (hself v hv')).1.trans hj.dist⟩

theorem Visited.visit (hv : Visited g done m) (hsplit : topo.order = done ++ id :: later) :
    Visited g (done ++ [id]) (visit g m id) where
  measured x hx := by
    rw [length_append, length_singleton]
    cases mem_append.mp hx with
    | inl hdone =>
      obtain ⟨n, hn, hmeasured⟩ := hv.measured x hdone
      have hne : x ≠ id := fun h => topo.next_not_mem hsplit (h ▸ hdone)
      exact ⟨n, Nat.lt_succ_of_lt hn,
        hmeasured.visit hne fun u hu => topo.upstream_ne_next hsplit hdone hu⟩
    | inr hid =>
      rw [mem_singleton.mp hid]
      exact hv.measures hsplit
  fresh x hx := by
    have hne : x ≠ id := fun h => hx (by rw [h]; simp)
    have hkeep := visit_of_ne (g := g) m hne
    have hold := hv.fresh x fun h => hx (mem_append_left _ h)
    exact ⟨hkeep.1.trans hold.1, hkeep.2.trans hold.2⟩

end Step

theorem visited_measure (topo : TopologicalOrder g) (done : List JobId) :
    ∀ later, topo.order = done ++ later → Visited g done (measure g done) := by
  induction done using List.reverseRecOn with
  | nil =>
    intro later _
    exact ⟨fun id hid => absurd hid not_mem_nil, fun id _ => ⟨rfl, rfl⟩⟩
  | append_singleton done id ih =>
    intro later horder
    have hsplit : topo.order = done ++ id :: later := by
      rw [horder, append_assoc, singleton_append]
    have hdone := ih (id :: later) hsplit
    rw [measure, foldl_append]
    exact hdone.visit hsplit

section Walk

variable {order : List JobId} {m : Lengths} (hv : Visited g order m)
  (hclosed : ∀ id ∈ order, ∀ u ∈ g.upstream id, u ∈ order)

include hv hclosed in
theorem backtrack_spec : ∀ (n fuel : ℕ) (id : JobId), id ∈ order → Measured g m id n → n < fuel →
    (backtrack m.predecessor fuel id).length = n ∧
    (id :: backtrack m.predecessor fuel id).IsChain (fun id u => u ∈ g.upstream id) ∧
    (∀ x ∈ backtrack m.predecessor fuel id, x ∈ order) ∧
    ∀ last, (id :: backtrack m.predecessor fuel id).getLast? = some last →
      m.predecessor last = none := by
  intro n
  induction n with
  | zero =>
    intro fuel id _ hn hfuel
    obtain ⟨fuel, rfl⟩ := Nat.exists_eq_add_one.mpr hfuel
    cases hn.predecessor with
    | inr h =>
      obtain ⟨u, _, k, hk, _⟩ := h
      exact absurd hk (Nat.zero_ne_add_one k)
    | inl h =>
      rw [backtrack, h.2]
      refine ⟨rfl, isChain_singleton id, fun x hx => absurd hx not_mem_nil, ?_⟩
      intro last hlast
      have hid : id = last := Option.some.inj hlast
      rw [← hid]
      exact h.2
  | succ n ih =>
    intro fuel id hid hn hfuel
    obtain ⟨fuel, rfl⟩ := Nat.exists_eq_add_one.mpr (Nat.zero_lt_of_lt hfuel)
    cases hn.predecessor with
    | inl h => exact absurd h.1 (Nat.succ_ne_zero n)
    | inr h =>
      obtain ⟨u, hu, k, hk, hpred, hdist⟩ := h
      have hmem := hclosed id hid u hu
      obtain ⟨j, -, hj⟩ := hv.measured u hmem
      have hjn : j = n := by
        have h := hj.dist.symm.trans hdist
        injection h with h
        omega
      rw [hjn] at hj
      obtain ⟨hlen, hchain, hall, hlast⟩ := ih fuel u hmem hj (Nat.lt_of_succ_lt_succ hfuel)
      rw [backtrack, hpred]
      dsimp only
      refine ⟨by rw [length_cons, hlen], isChain_cons_cons.mpr ⟨hu, hchain⟩, ?_, ?_⟩
      · intro x hx
        cases mem_cons.mp hx with
        | inl hxu => rw [hxu]; exact hmem
        | inr hx => exact hall x hx
      · intro last h
        rw [getLast?_cons_cons] at h
        exact hlast last h

include hv in
theorem length_le_measure : ∀ (chain : List JobId) (id : JobId) (n : ℕ),
    (id :: chain).IsChain (fun id u => u ∈ g.upstream id) → (∀ x ∈ id :: chain, x ∈ order) →
      Measured g m id n → chain.length ≤ n := by
  intro chain
  induction chain with
  | nil => exact fun id n _ _ _ => Nat.zero_le n
  | cons u chain ih =>
    intro id n hchain hmem hn
    obtain ⟨hup, htail⟩ := isChain_cons_cons.mp hchain
    obtain ⟨k, _, hdist⟩ := hn.upstream u hup
    obtain ⟨j, -, hj⟩ := hv.measured u (hmem u (by simp))
    have hjk : j = k := by
      have h := hj.dist.symm.trans hdist
      injection h with h
      omega
    have hle := ih u j htail (fun x hx => hmem x (.tail id hx)) hj
    rw [length_cons]
    omega

end Walk

/-- A critical path: a chain of live jobs that no other is longer than, empty
only where there is no live job, and begun at a job without upstream jobs. -/
structure IsCriticalPath (g : JobGraph) (path : List JobId) : Prop where
  chain : UpstreamChain g path
  longest : ∀ other, UpstreamChain g other → other.length ≤ path.length
  /-- It is empty exactly when no job is live. -/
  empty_iff : path = [] ↔ g.jobIds = []
  /-- Walking back has come to a source. -/
  source : ∀ first, path.head? = some first → g.upstream first = []

/-- The computed path is critical. -/
theorem computeCriticalPath_isCriticalPath (topo : TopologicalOrder g) :
    IsCriticalPath g (computeCriticalPath g topo.order) := by
  have hv := visited_measure topo topo.order [] (append_nil _).symm
  have hclosed : ∀ id ∈ topo.order, ∀ u ∈ g.upstream id, u ∈ topo.order := by
    intro id _ u hu
    exact (topo.mem_iff u).mpr (bridgedNeighborsIds_mem_jobIds hu)
  rw [computeCriticalPath]
  cases hbest : maxByKey (fun id => ((measure g topo.order).dist id).getD 0) topo.order with
  | none =>
    have hnil := maxByKey_eq_none hbest
    have hnone : ∀ id, id ∉ g.jobIds := by
      intro id hid
      have hmem := (topo.mem_iff id).mpr hid
      rw [hnil] at hmem
      cases hmem
    constructor
    · exact ⟨isChain_nil, fun id hid => absurd hid not_mem_nil⟩
    · intro other hother
      cases other with
      | nil => exact Nat.le_refl 0
      | cons id => exact absurd (hother.live id mem_cons_self) (hnone id)
    · exact ⟨fun _ => eq_nil_iff_forall_not_mem.mpr hnone, fun _ => rfl⟩
    · intro first h
      cases h
  | some tail =>
    obtain ⟨htail, hmax⟩ := maxByKey_spec hbest
    obtain ⟨n, hn, hmeasured⟩ := hv.measured tail htail
    obtain ⟨hlen, hchain, hall, hlast⟩ := backtrack_spec hv hclosed n _ tail htail hmeasured hn
    dsimp only
    have hmem : ∀ id ∈ tail :: backtrack (measure g topo.order).predecessor topo.order.length tail,
        id ∈ topo.order := by
      intro id hid
      cases mem_cons.mp hid with
      | inl h => rw [h]; exact htail
      | inr h => exact hall id h
    constructor
    · constructor
      · exact isChain_reverse.mpr hchain
      · intro id hid
        exact (topo.mem_iff id).mp (hmem id (mem_reverse.mp hid))
    · intro other hother
      rw [length_reverse, length_cons, hlen]
      cases hrev : other.reverse with
      | nil =>
        rw [reverse_eq_nil_iff.mp hrev]
        exact Nat.zero_le _
      | cons id rest =>
        have hlinked : (id :: rest).IsChain fun id u => u ∈ g.upstream id := by
          rw [← hrev]
          exact isChain_reverse.mpr hother.linked
        have hlive : ∀ x ∈ id :: rest, x ∈ topo.order := by
          intro x hx
          rw [← hrev] at hx
          exact (topo.mem_iff x).mpr (hother.live x (mem_reverse.mp hx))
        obtain ⟨k, -, hk⟩ := hv.measured id (hlive id mem_cons_self)
        have hle := length_le_measure hv rest id k hlinked hlive hk
        have hkn := hmax id (hlive id mem_cons_self)
        rw [hk.dist, hmeasured.dist, Option.getD_some, Option.getD_some] at hkn
        have hother : other.length = rest.length + 1 := by
          rw [← length_reverse, hrev, length_cons]
        omega
    · constructor
      · intro h
        exact absurd (reverse_eq_nil_iff.mp h) (cons_ne_nil _ _)
      · intro h
        have hid := (topo.mem_iff tail).mp htail
        rw [h] at hid
        cases hid
    · intro first hfirst
      rw [head?_reverse] at hfirst
      have hpred := hlast first hfirst
      obtain ⟨k, -, hk⟩ := hv.measured first (hmem first (mem_of_getLast? hfirst))
      cases hk.predecessor with
      | inr h =>
        obtain ⟨u, _, j, _, hsome, _⟩ := h
        rw [hpred] at hsome
        cases hsome
      | inl =>
        rw [eq_nil_iff_forall_not_mem]
        intro u hu
        obtain ⟨j, _, _⟩ := hk.upstream u hu
        omega

end OxyMake.CriticalPath
