import Mathlib.Data.Fintype.Card
import Mathlib.Data.List.MinMax
import Mathlib.Data.List.Nodup
import Mathlib.Data.Set.Finite.Basic
import Mathlib.Logic.Relation
import Mathlib.Order.WellFounded

/-!
# Kahn's algorithm with keys

The nodes of a finite directed multigraph are visited one after the other. A
node waits until the number of its unvisited incoming edges is counted down to
zero; of the waiting nodes the one with the greatest key is visited next. The
count never goes below zero, each node is visited once and after its
predecessors, and all nodes are visited exactly when the graph has no cycle.
-/

namespace OxyMake.PriorityKahn

open List Function

/-- A finite directed multigraph whose nodes have distinct keys. -/
structure Network (K : Type) where
  size : ℕ
  /-- Edges, from a source to a target, with repetition. -/
  edges : List (ℕ × ℕ)
  key : ℕ → K
  node : K → ℕ
  node_key : ∀ v, node (key v) = v
  edges_lt : ∀ e ∈ edges, e.1 < size ∧ e.2 < size

/-- Counts of unvisited incoming edges, with the keys of the waiting nodes. -/
abbrev Waiting (K : Type) := (ℕ → ℕ) × List K

namespace Network

variable {K : Type} [LinearOrder K] (w : Network K)

/-- Targets of the edges of a node, the last edge first. -/
def targets (u : ℕ) : List ℕ := ((w.edges.filter fun e => e.1 = u).map Prod.snd).reverse

def indegree (v : ℕ) : ℕ := (w.edges.filter fun e => e.2 = v).length

/-- Count down the edges to some targets; nothing is left of an underflow. -/
def release : List ℕ → Waiting K → Option (Waiting K)
  | [], s => some s
  | v :: rest, s =>
    if s.1 v = 0 then none
    else
      let indegrees := Function.update s.1 v (s.1 v - 1)
      release rest (indegrees, if indegrees v = 0 then w.key v :: s.2 else s.2)

/-- Visit waiting nodes, the greatest key first, until none waits. -/
def run : ℕ → Waiting K → List ℕ → Option (List ℕ)
  | 0, s, visited => if s.2.isEmpty then some visited else none
  | fuel + 1, s, visited =>
    match s.2.argmax id with
    | none => some visited
    | some k =>
      (w.release (w.targets (w.node k)) (s.1, s.2.erase k)).bind fun s' =>
        run fuel s' (visited ++ [w.node k])

/-- Counts before the first visit, with the nodes that wait for nothing. -/
def start : Waiting K :=
  (w.indegree, ((List.range w.size).filter fun v => w.indegree v = 0).map w.key)

def Ready (visited : List ℕ) (v : ℕ) : Prop :=
  v < w.size ∧ v ∉ visited ∧ ∀ e ∈ w.edges, e.2 = v → e.1 ∈ visited

/-- Each visited node was ready, and had the greatest key of all that were. -/
def Course (visited : List ℕ) : Prop :=
  ∀ front v back, visited = front ++ v :: back →
    w.Ready front v ∧ ∀ x, w.Ready front x → w.key x ≤ w.key v

def Edge (u v : ℕ) : Prop := (u, v) ∈ w.edges

def Acyclic : Prop := ∀ v, ¬ Relation.TransGen w.Edge v v

/-- Number of edges to a node from nodes that are not visited. -/
def pending (visited : List ℕ) (v : ℕ) : ℕ :=
  w.edges.countP fun e => decide (e.2 = v) && decide (e.1 ∉ visited)

omit [LinearOrder K] in
theorem pending_nil (v : ℕ) : w.pending [] v = w.indegree v := by
  rw [pending, indegree, countP_eq_length_filter]
  congr 1
  apply filter_congr
  intro e he
  rw [decide_eq_true (show e.1 ∉ [] from not_mem_nil), Bool.and_true]

omit [LinearOrder K] in
theorem pending_append {visited : List ℕ} {u : ℕ} (hu : u ∉ visited) (v : ℕ) :
    w.pending visited v = w.pending (visited ++ [u]) v + (w.targets u).count v := by
  have hcount : (w.targets u).count v =
      w.edges.countP fun e => decide (e.2 = v) && decide (e.1 = u) := by
    rw [targets, count_reverse, List.count, countP_map, countP_filter]
    apply countP_congr
    intro e he
    simp only [comp_apply, Bool.and_eq_true, beq_iff_eq, decide_eq_true_eq]
  rw [hcount, pending, pending]
  induction w.edges with
  | nil => rfl
  | cons e rest ih =>
    rw [countP_cons, countP_cons, countP_cons, ih]
    by_cases htarget : e.2 = v
    · by_cases hsource : e.1 = u
      · have hnot : e.1 ∉ visited := by rwa [hsource]
        simp [htarget, hsource, hu]
        omega
      · simp [htarget, hsource]
        omega
    · simp [htarget]

omit [LinearOrder K] in
theorem pending_eq_zero_iff (visited : List ℕ) (v : ℕ) :
    w.pending visited v = 0 ↔ ∀ e ∈ w.edges, e.2 = v → e.1 ∈ visited := by
  rw [pending, countP_eq_zero]
  constructor
  · intro h e he htarget
    by_contra hnot
    apply h e he
    rw [decide_eq_true htarget, decide_eq_true hnot]
    rfl
  · intro h e he hboth
    rw [Bool.and_eq_true, decide_eq_true_eq, decide_eq_true_eq] at hboth
    exact hboth.2 (h e he hboth.1)

/-- The counts while some targets of the last visited node are still to be
counted down. -/
structure Counts (visited rest : List ℕ) (s : Waiting K) : Prop where
  /-- A count is the number of pending edges and of targets to come. -/
  indegree : ∀ v, s.1 v = w.pending visited v + rest.count v
  /-- The unvisited nodes with count zero wait. -/
  waits : ∀ k, k ∈ s.2 ↔ ∃ v, v < w.size ∧ w.key v = k ∧ v ∉ visited ∧ s.1 v = 0
  nodup : s.2.Nodup

omit [LinearOrder K] in
theorem key_injective : Function.Injective w.key := by
  intro u v h
  have hnode := congrArg w.node h
  rwa [w.node_key, w.node_key] at hnode

omit [LinearOrder K] in
theorem Counts.exists_release {visited rest : List ℕ} {s : Waiting K} (h : w.Counts visited rest s)
    (hrest : ∀ v ∈ rest, v < w.size ∧ v ∉ visited) :
    ∃ s', w.release rest s = some s' ∧ w.Counts visited [] s' := by
  induction rest generalizing s with
  | nil => exact ⟨s, rfl, h⟩
  | cons v rest ih =>
    obtain ⟨hlt, hnot⟩ := hrest v mem_cons_self
    have hcount := h.indegree v
    rw [count_cons_self] at hcount
    have hpos : s.1 v ≠ 0 := by omega
    have hupdate : ∀ x, Function.update s.1 v (s.1 v - 1) x =
        w.pending visited x + rest.count x := by
      intro x
      by_cases hx : x = v
      · subst hx
        rw [update_self]
        omega
      · rw [update_of_ne hx, h.indegree x, count_cons_of_ne (Ne.symm hx)]
    have hnext : w.Counts visited rest (Function.update s.1 v (s.1 v - 1),
        if Function.update s.1 v (s.1 v - 1) v = 0 then w.key v :: s.2 else s.2) := by
      refine ⟨hupdate, ?_, ?_⟩
      · intro k
        have hold : (∃ x, x < w.size ∧ w.key x = k ∧ x ∉ visited ∧ s.1 x = 0) ↔
            ∃ x, x ≠ v ∧ x < w.size ∧ w.key x = k ∧ x ∉ visited ∧
              Function.update s.1 v (s.1 v - 1) x = 0 := by
          constructor
          · rintro ⟨x, hx, hkey, hfresh, hzero⟩
            have hne : x ≠ v := by
              rintro rfl
              exact hpos hzero
            refine ⟨x, hne, hx, hkey, hfresh, ?_⟩
            rw [update_of_ne hne]
            exact hzero
          · rintro ⟨x, hne, hx, hkey, hfresh, hzero⟩
            rw [update_of_ne hne] at hzero
            exact ⟨x, hx, hkey, hfresh, hzero⟩
        by_cases hzero : Function.update s.1 v (s.1 v - 1) v = 0
        · rw [if_pos hzero, mem_cons, h.waits k, hold]
          constructor
          · rintro (rfl | ⟨x, -, hx⟩)
            · exact ⟨v, hlt, rfl, hnot, hzero⟩
            · exact ⟨x, hx⟩
          · rintro ⟨x, hx, hkey, hrest⟩
            by_cases hne : x = v
            · left
              rw [← hkey, hne]
            · exact Or.inr ⟨x, hne, hx, hkey, hrest⟩
        · rw [if_neg hzero, h.waits k, hold]
          constructor
          · rintro ⟨x, -, hx⟩
            exact ⟨x, hx⟩
          · rintro ⟨x, hx, hkey, hfresh, hzero'⟩
            have hne : x ≠ v := by
              rintro rfl
              exact hzero hzero'
            exact ⟨x, hne, hx, hkey, hfresh, hzero'⟩
      · have hfresh : w.key v ∉ s.2 := by
          intro hmem
          obtain ⟨x, -, hkey, -, hzero⟩ := (h.waits _).mp hmem
          rw [w.key_injective hkey] at hzero
          exact hpos hzero
        by_cases hzero : Function.update s.1 v (s.1 v - 1) v = 0
        · rw [if_pos hzero]
          exact nodup_cons.mpr ⟨hfresh, h.nodup⟩
        · rw [if_neg hzero]
          exact h.nodup
    obtain ⟨s', hs', hcounts⟩ := ih hnext fun x hx => hrest x (.tail v hx)
    refine ⟨s', ?_, hcounts⟩
    rw [release, if_neg hpos]
    exact hs'

omit [LinearOrder K] in
theorem counts_start : w.Counts [] [] w.start := by
  refine ⟨?_, ?_, ?_⟩
  · intro v
    rw [pending_nil, count_nil]
    rfl
  · intro k
    simp only [start, mem_map, mem_filter, mem_range, decide_eq_true_eq]
    constructor
    · rintro ⟨v, ⟨hv, hzero⟩, hkey⟩
      exact ⟨v, hv, hkey, not_mem_nil, hzero⟩
    · rintro ⟨v, hv, hkey, -, hzero⟩
      exact ⟨v, ⟨hv, hzero⟩, hkey⟩
  · exact (nodup_range.filter _).map w.key_injective

omit [LinearOrder K] in
theorem Counts.mem_iff {visited : List ℕ} {s : Waiting K} (h : w.Counts visited [] s) (k : K) :
    k ∈ s.2 ↔ ∃ v, w.key v = k ∧ w.Ready visited v := by
  rw [h.waits k]
  constructor
  · rintro ⟨v, hv, hkey, hfresh, hzero⟩
    rw [h.indegree, count_nil, Nat.add_zero, pending_eq_zero_iff] at hzero
    exact ⟨v, hkey, hv, hfresh, hzero⟩
  · rintro ⟨v, hkey, hv, hfresh, hpreds⟩
    refine ⟨v, hv, hkey, hfresh, ?_⟩
    rw [h.indegree, count_nil, Nat.add_zero, pending_eq_zero_iff]
    exact hpreds

theorem course_nil : w.Course [] := by
  intro front v back h
  have hlength := congrArg List.length h
  rw [length_append, length_cons, length_nil] at hlength
  omega

theorem Course.append {visited : List ℕ} {v : ℕ} (h : w.Course visited)
    (hready : w.Ready visited v) (hmax : ∀ x, w.Ready visited x → w.key x ≤ w.key v) :
    w.Course (visited ++ [v]) := by
  intro front x back hsplit
  rcases append_eq_append_iff.mp hsplit with ⟨middle, hfront, hback⟩ |
    ⟨middle, hvisited, hback⟩
  · cases middle with
    | nil =>
      rw [append_nil] at hfront
      cases hback
      rw [hfront]
      exact ⟨hready, hmax⟩
    | cons =>
      have hlength := congrArg List.length hback
      simp only [cons_append, length_cons, length_append, length_nil] at hlength
      omega
  · cases middle with
    | nil =>
      rw [append_nil] at hvisited
      cases hback
      rw [← hvisited]
      exact ⟨hready, hmax⟩
    | cons y middle =>
      cases hback
      exact h front x middle hvisited

theorem Course.nodup {visited : List ℕ} (h : w.Course visited) : visited.Nodup := by
  induction visited using List.reverseRecOn with
  | nil => exact nodup_nil
  | append_singleton front v ih =>
    have hfront : w.Course front := by
      intro front' x back hsplit
      apply h front' x (back ++ [v])
      rw [hsplit, append_assoc, cons_append]
    have hready := (h front v [] rfl).1
    rw [nodup_append]
    refine ⟨ih hfront, nodup_singleton v, ?_⟩
    rintro a ha b hb rfl
    rw [mem_singleton.mp hb] at ha
    exact hready.2.1 ha

theorem Course.lt {visited : List ℕ} (h : w.Course visited) {v : ℕ} (hv : v ∈ visited) :
    v < w.size := by
  obtain ⟨front, back, hsplit⟩ := append_of_mem hv
  exact (h front v back hsplit).1.1

theorem Course.length_le {visited : List ℕ} (h : w.Course visited) : visited.length ≤ w.size := by
  have hsubset : visited ⊆ List.range w.size := fun v hv => mem_range.mpr (h.lt w hv)
  have hle := (subperm_of_subset (h.nodup w) hsubset).length_le
  rwa [length_range] at hle

theorem Counts.visit {visited : List ℕ} {s : Waiting K} (h : w.Counts visited [] s)
    (hcourse : w.Course visited) {k : K} (hk : s.2.argmax id = some k) :
    w.Course (visited ++ [w.node k]) ∧ ∃ s', w.release (w.targets (w.node k)) (s.1, s.2.erase k) =
      some s' ∧ w.Counts (visited ++ [w.node k]) [] s' := by
  obtain ⟨v, hkey, hready⟩ := (h.mem_iff w k).mp (argmax_mem hk)
  have hnode : w.node k = v := by
    rw [← hkey, w.node_key]
  have hmax : ∀ x, w.Ready visited x → w.key x ≤ w.key v := by
    intro x hx
    rw [hkey]
    exact le_of_mem_argmax ((h.mem_iff w _).mpr ⟨x, rfl, hx⟩) hk
  rw [hnode]
  have hnext : w.Course (visited ++ [v]) := hcourse.append w hready hmax
  refine ⟨hnext, ?_⟩
  have hzero : s.1 v = 0 := by
    rw [h.indegree, count_nil, Nat.add_zero, pending_eq_zero_iff]
    exact hready.2.2
  apply Counts.exists_release
  · refine ⟨?_, ?_, h.nodup.erase k⟩
    · intro x
      rw [h.indegree x, count_nil, Nat.add_zero]
      exact w.pending_append hready.2.1 x
    · intro k'
      rw [h.nodup.mem_erase_iff, h.waits k']
      constructor
      · rintro ⟨hne, x, hx, hkey', hfresh, hcount⟩
        refine ⟨x, hx, hkey', ?_, hcount⟩
        intro hmem
        rcases mem_append.mp hmem with hmem | hmem
        · exact hfresh hmem
        · rw [mem_singleton.mp hmem, hkey] at hkey'
          exact hne hkey'.symm
      · rintro ⟨x, hx, hkey', hfresh, hcount⟩
        refine ⟨?_, x, hx, hkey', fun hmem => hfresh (mem_append_left _ hmem), hcount⟩
        rintro rfl
        apply hfresh
        rw [w.key_injective (hkey'.trans hkey.symm)]
        exact mem_append_right _ (mem_singleton.mpr rfl)
  · intro x hx
    simp only [targets, mem_reverse, mem_map, mem_filter, decide_eq_true_eq] at hx
    obtain ⟨e, ⟨he, hsource⟩, rfl⟩ := hx
    refine ⟨(w.edges_lt e he).2, ?_⟩
    intro hmem
    have hsource' : e.1 ∈ visited := by
      rcases mem_append.mp hmem with hmem | hmem
      · obtain ⟨front, back, hsplit⟩ := append_of_mem hmem
        have hfront := (hcourse front e.2 back hsplit).1.2.2 e he rfl
        rw [hsplit]
        exact mem_append_left _ hfront
      · exact hready.2.2 e he (mem_singleton.mp hmem)
    rw [hsource] at hsource'
    exact hready.2.1 hsource'

theorem run_spec (fuel : ℕ) {visited : List ℕ} {s : Waiting K} (h : w.Counts visited [] s)
    (hcourse : w.Course visited) (hfuel : w.size ≤ fuel + visited.length) :
    ∃ all, w.run fuel s visited = some all ∧ w.Course all ∧ ∀ v, ¬ w.Ready all v := by
  induction fuel generalizing visited s with
  | zero =>
    have hnone : ∀ v, ¬ w.Ready visited v := by
      intro v hready
      have hsubset : v :: visited ⊆ List.range w.size := by
        intro x hx
        rcases mem_cons.mp hx with rfl | hx
        · exact mem_range.mpr hready.1
        · exact mem_range.mpr (hcourse.lt w hx)
      have hnodup : (v :: visited).Nodup := nodup_cons.mpr ⟨hready.2.1, hcourse.nodup w⟩
      have hle := (subperm_of_subset hnodup hsubset).length_le
      rw [length_range, length_cons] at hle
      omega
    have hempty : s.2 = [] := by
      apply eq_nil_iff_forall_not_mem.mpr
      intro k hk
      obtain ⟨v, -, hready⟩ := (h.mem_iff w k).mp hk
      exact hnone v hready
    refine ⟨visited, ?_, hcourse, hnone⟩
    rw [run, hempty]
    rfl
  | succ fuel ih =>
    rw [run]
    cases hk : s.2.argmax id with
    | none =>
      refine ⟨visited, rfl, hcourse, ?_⟩
      intro v hready
      have hmem := (h.mem_iff w _).mpr ⟨v, rfl, hready⟩
      rw [argmax_eq_none.mp hk] at hmem
      exact not_mem_nil hmem
    | some k =>
      obtain ⟨hnext, _, hs', hcounts⟩ := h.visit w hcourse hk
      have hlength : w.size ≤ fuel + (visited ++ [w.node k]).length := by
        rw [length_append, length_singleton]
        omega
      obtain ⟨all, hall, hrest⟩ := ih hcounts hnext hlength
      refine ⟨all, ?_, hrest⟩
      dsimp only
      rw [hs']
      exact hall

theorem Course.mem_front {all : List ℕ} (h : w.Course all) {u v : ℕ}
    (hpath : Relation.TransGen w.Edge u v) {front back : List ℕ}
    (hsplit : all = front ++ v :: back) : u ∈ front := by
  induction hpath generalizing front back with
  | single hedge => exact (h _ _ _ hsplit).1.2.2 _ hedge rfl
  | tail hpath hedge ih =>
    rename_i x y
    have hx : x ∈ front := (h _ _ _ hsplit).1.2.2 _ hedge rfl
    obtain ⟨front', back', hfront⟩ := append_of_mem hx
    have hsplit' : all = front' ++ x :: (back' ++ y :: back) := by
      rw [hsplit, hfront, append_assoc, cons_append]
    have hu := ih hsplit'
    rw [hfront]
    exact mem_append_left _ hu

theorem Course.mem_of_lt {all : List ℕ} (h : w.Course all) (hlength : all.length = w.size)
    {v : ℕ} (hv : v < w.size) : v ∈ all := by
  have hsubset : all ⊆ List.range w.size := fun x hx => mem_range.mpr (h.lt w hx)
  have hperm : all.Perm (List.range w.size) := by
    apply (subperm_of_subset (h.nodup w) hsubset).perm_of_length_le
    rw [length_range, hlength]
  exact hperm.mem_iff.mpr (mem_range.mpr hv)

theorem Course.acyclic {all : List ℕ} (h : w.Course all) (hlength : all.length = w.size) :
    w.Acyclic := by
  intro v hcycle
  have hlt : v < w.size := by
    obtain ⟨x, hx, -⟩ := Relation.TransGen.head'_iff.mp hcycle
    exact (w.edges_lt _ hx).1
  obtain ⟨front, back, hsplit⟩ := append_of_mem (h.mem_of_lt w hlength hlt)
  have hfront := h.mem_front w hcycle hsplit
  exact (h front v back hsplit).1.2.1 hfront

omit [LinearOrder K] in
theorem Acyclic.exists_first (h : w.Acyclic) {P : ℕ → Prop} {v : ℕ} (hv : P v)
    (hlt : ∀ x, P x → x < w.size) :
    ∃ x, P x ∧ ∀ u, w.Edge u x → ¬ P u := by
  let before : Fin w.size → Fin w.size → Prop := fun a b => Relation.TransGen w.Edge a b
  have htrans : IsTrans (Fin w.size) before := ⟨fun _ _ _ => Relation.TransGen.trans⟩
  have hirrefl : Std.Irrefl before := ⟨fun a => h a⟩
  have hfounded : WellFounded before := Finite.wellFounded_of_trans_of_irrefl before
  obtain ⟨x, hx, hmin⟩ := hfounded.has_min {a : Fin w.size | P a} ⟨⟨v, hlt v hv⟩, hv⟩
  refine ⟨x, hx, ?_⟩
  intro u hedge hu
  exact hmin ⟨u, hlt u hu⟩ hu (Relation.TransGen.single hedge)

theorem Course.length_eq {all : List ℕ} (h : w.Course all) (hend : ∀ v, ¬ w.Ready all v)
    (hacyclic : w.Acyclic) : all.length = w.size := by
  have hall : ∀ v, v < w.size → v ∈ all := by
    intro v hv
    by_contra hnot
    obtain ⟨x, ⟨hx, hfresh⟩, hfirst⟩ := hacyclic.exists_first w
      (P := fun x => x < w.size ∧ x ∉ all) ⟨hv, hnot⟩ fun x hx => hx.1
    apply hend x
    refine ⟨hx, hfresh, ?_⟩
    intro e he htarget
    by_contra hsource
    have hedge : w.Edge e.1 x := by
      rw [← htarget]
      exact he
    exact hfirst e.1 hedge ⟨(w.edges_lt e he).1, hsource⟩
  have hle : w.size ≤ all.length := by
    have hsubset : List.range w.size ⊆ all := fun v hv => hall v (mem_range.mp hv)
    have hlength := (subperm_of_subset nodup_range hsubset).length_le
    rwa [length_range] at hlength
  exact le_antisymm (h.length_le w) hle

theorem run_start :
    ∃ all, w.run w.size w.start [] = some all ∧ w.Course all ∧ (∀ v, ¬ w.Ready all v) ∧
      (all.length = w.size ↔ w.Acyclic) := by
  obtain ⟨all, hall, hcourse, hend⟩ := w.run_spec w.size w.counts_start w.course_nil
    (Nat.le_add_right _ _)
  exact ⟨all, hall, hcourse, hend, hcourse.acyclic w, hcourse.length_eq w hend⟩

end Network

end OxyMake.PriorityKahn
