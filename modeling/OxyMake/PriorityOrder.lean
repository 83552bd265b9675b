import OxyMake.NodeGraph
import OxyMake.PriorityKahn
import Mathlib.Data.Prod.Lex

/-!
# The priority order of the jobs

Kahn's algorithm over all nodes of the graph, with a heap that prefers the nodes
that are no live job, then high priorities, then early nodes. Whenever a live
job is taken, no other kind of node waits, so the waiting nodes are the live
jobs whose upstream jobs are all listed: the order is the greedy one.
-/

namespace OxyMake.PriorityOrder

open List
open PhysicalGraph NodeGraph PriorityKahn

/-- Key of a node in the heap: nodes that are not submitted are greatest, then
priorities decide, then the smallest index. -/
abbrev HeapKey := Bool ×ₗ ℕ ×ₗ ℕᵒᵈ

/-- Identifier of a node that is a job to be submitted. -/
def liveId (g : JobGraph) (v : ℕ) : Option JobId :=
  match (ofRecords g).nodes[v]? with
  | some (.job job) => if g.isSkipped job.id then none else some job.id
  | _ => none

def heapKey (g : JobGraph) (v : ℕ) : HeapKey :=
  match (ofRecords g).nodes[v]? with
  | some (.job job) =>
    if g.isSkipped job.id then toLex (true, toLex (0, OrderDual.toDual v))
    else toLex (false, toLex (job.priority.getD 0, OrderDual.toDual v))
  | _ => toLex (true, toLex (0, OrderDual.toDual v))

def heapNode (k : HeapKey) : ℕ := OrderDual.ofDual (ofLex (ofLex k).2).2

theorem heapNode_heapKey (g : JobGraph) (v : ℕ) : heapNode (heapKey g v) = v := by
  unfold heapKey
  split
  · split_ifs <;> rfl
  · rfl

/-- The nodes of the job graph with their keys. -/
def network (g : JobGraph) : Network HeapKey where
  size := (ofRecords g).nodes.length
  edges := (ofRecords g).edges.map fun e => (e.1, e.2.1)
  key := heapKey g
  node := heapNode
  node_key := heapNode_heapKey g
  edges_lt := by
    intro e he
    obtain ⟨⟨u, v, kind⟩, hmem, rfl⟩ := mem_map.mp he
    obtain ⟨_, _, layout, -⟩ := exists_layout g
    exact layout.bounds u v ⟨kind, hmem⟩

/-- The live jobs by Kahn's algorithm with priorities; nothing is left of an
in-degree that underflows or of a loop that does not end. -/
def priorityTopologicalOrder (g : JobGraph) : Option (Except DagError (List JobId)) :=
  ((network g).run (network g).size (network g).start []).map fun visited =>
    if visited.length ≠ (network g).size then .error (.cycleDetected ["(cycle in job graph)"])
    else .ok (visited.filterMap (liveId g))

/-! ### The greedy reference -/

/-- Live jobs that are not listed while all their upstream jobs are. -/
def candidates (g : JobGraph) (listed : List JobId) : List (ConcreteJob × ℕ) :=
  g.jobs.zipIdx.filter fun p =>
    !g.isSkipped p.1.id && decide (p.1.id ∉ listed) &&
      (g.upstream p.1.id).all fun u => decide (u ∈ listed)

def preference (p : ConcreteJob × ℕ) : ℕ ×ₗ ℕᵒᵈ :=
  toLex (p.1.priority.getD 0, OrderDual.toDual p.2)

def greedyOrder (g : JobGraph) : ℕ → List JobId → List JobId
  | 0, _ => []
  | fuel + 1, listed =>
    match (candidates g listed).argmax preference with
    | none => []
    | some p => p.1.id :: greedyOrder g fuel (listed ++ [p.1.id])

def Acyclic (g : JobGraph) : Prop := ∀ v, ¬ Relation.TransGen (ofRecords g).Edge v v

/-! ### Live nodes -/

variable {g : JobGraph}

theorem edge_iff {u v : ℕ} : (network g).Edge u v ↔ (ofRecords g).Edge u v := by
  constructor
  · intro h
    obtain ⟨⟨_, _, kind⟩, hmem, heq⟩ := mem_map.mp h
    cases heq
    exact ⟨kind, hmem⟩
  · rintro ⟨kind, hmem⟩
    exact mem_map.mpr ⟨(u, v, kind), hmem, rfl⟩

theorem acyclic_iff : (network g).Acyclic ↔ Acyclic g := by
  have hedges : (network g).Edge = (ofRecords g).Edge := by
    funext u v
    exact propext edge_iff
  rw [Network.Acyclic, Acyclic, hedges]

theorem liveId_eq_some {v : ℕ} {id : JobId} :
    liveId g v = some id ↔
      ∃ job, g.jobs[v]? = some job ∧ g.isSkipped job.id = false ∧ job.id = id := by
  obtain ⟨_, _, layout, -⟩ := exists_layout g
  constructor
  · intro h
    unfold liveId at h
    split at h
    · rename_i job hnode
      split_ifs at h with hskipped
      exact ⟨job, layout.other v job hnode, Bool.eq_false_of_not_eq_true hskipped,
        Option.some.inj h⟩
    · cases h
  · rintro ⟨job, hjob, hskipped, rfl⟩
    rw [liveId, layout.jobs v job hjob]
    dsimp only
    rw [hskipped, if_neg Bool.false_ne_true]

theorem heapKey_of_live {v : ℕ} {job : ConcreteJob} (hjob : g.jobs[v]? = some job)
    (hskipped : g.isSkipped job.id = false) :
    heapKey g v = toLex (false, preference (job, v)) := by
  obtain ⟨_, _, layout, -⟩ := exists_layout g
  rw [heapKey, layout.jobs v job hjob]
  dsimp only
  rw [hskipped, if_neg Bool.false_ne_true]
  rfl

theorem heapKey_of_not_live {v : ℕ} (h : liveId g v = none) :
    heapKey g v = toLex (true, toLex (0, OrderDual.toDual v)) := by
  unfold liveId at h
  unfold heapKey
  split at h
  · rename_i job hnode
    split_ifs at h with hskipped
    rw [if_pos hskipped]
  · rfl

theorem heapKey_lt {u v : ℕ} {id : JobId} (hu : liveId g u = some id) (hv : liveId g v = none) :
    heapKey g u < heapKey g v := by
  obtain ⟨_, hjob, hskipped, -⟩ := liveId_eq_some.mp hu
  rw [heapKey_of_live hjob hskipped, heapKey_of_not_live hv]
  exact Prod.Lex.toLex_lt_toLex.mpr (Or.inl Bool.false_lt_true)

theorem passes_of_not_live {v : ℕ} (h : liveId g v = none) : Passes g v := by
  intro job hjob
  unfold liveId at h
  rw [hjob] at h
  dsimp only at h
  by_contra hskipped
  rw [if_neg hskipped] at h
  cases h

theorem eq_of_liveId {u v : ℕ} {id : JobId} (hu : liveId g u = some id)
    (hv : liveId g v = some id) : u = v := by
  obtain ⟨a, ha, -, hida⟩ := liveId_eq_some.mp hu
  obtain ⟨b, hb, -, hidb⟩ := liveId_eq_some.mp hv
  exact index_unique ha hb (hida.trans hidb.symm)

theorem not_live_of_edge {u v : ℕ} {job : ConcreteJob} (hv : g.jobs[v]? = some job)
    (h : (ofRecords g).Edge u v) : liveId g u = none := by
  obtain ⟨_, _, layout, -⟩ := exists_layout g
  cases hlive : liveId g u with
  | none => rfl
  | some =>
    obtain ⟨_, hsource, -⟩ := liveId_eq_some.mp hlive
    obtain ⟨k, -, hslot⟩ := layout.edge_of_job hsource h
    have hbounds := layout.slot_bounds k v hslot
    have hlt := (List.getElem?_eq_some_iff.mp hv).1
    omega

theorem mem_upstream_iff {u v : ℕ} {job target : ConcreteJob} (hu : g.jobs[u]? = some job)
    (hv : g.jobs[v]? = some target) :
    job.id ∈ g.upstream target.id ↔
      job.id ≠ target.id ∧ g.isSkipped job.id = false ∧
        (ofRecords g).Path (Passes g) u v := by
  rw [JobGraph.upstream, mem_bridgedNeighborsIds, ← bridge_iff_path hu hv]
  constructor
  · rintro ⟨hne, hskipped, hbridge⟩
    exact ⟨hne, hskipped, hbridge.reverse fun a b hab => mem_hop_iff.mpr hab⟩
  · rintro ⟨hne, hskipped, hbridge⟩
    exact ⟨hne, hskipped, hbridge.reverse fun a b hab => mem_hop_iff.mp hab⟩

theorem exists_of_mem_upstream {id u : JobId} (h : u ∈ g.upstream id) :
    ∃ x, liveId g x = some u := by
  obtain ⟨hmem, hskipped⟩ := mem_jobIds.mp (bridgedNeighborsIds_mem_jobIds h)
  obtain ⟨job, hjob, hid⟩ := mem_map.mp hmem
  obtain ⟨x, hx⟩ := mem_iff_getElem?.mp hjob
  refine ⟨x, liveId_eq_some.mpr ⟨job, hx, ?_, hid⟩⟩
  rw [hid]
  exact hskipped

/-! ### Sorted nodes -/

section Listed

variable {front : List ℕ}

def listed (g : JobGraph) (front : List ℕ) : List JobId := front.filterMap (liveId g)

theorem mem_listed {id : JobId} : id ∈ listed g front ↔ ∃ x ∈ front, liveId g x = some id :=
  mem_filterMap

theorem mem_front_iff {x : ℕ} {id : JobId} (hx : liveId g x = some id) :
    id ∈ listed g front ↔ x ∈ front := by
  rw [mem_listed]
  constructor
  · rintro ⟨y, _, hlive⟩
    rwa [eq_of_liveId hx hlive]
  · intro hmem
    exact ⟨x, hmem, hx⟩

theorem mem_front_of_chain (hclosed : ∀ z ∈ front, ∀ y, (ofRecords g).Edge y z → y ∈ front)
    {y z : ℕ} (hchain : Relation.ReflTransGen (ofRecords g).Edge y z) (hz : z ∈ front) :
    y ∈ front := by
  induction hchain with
  | refl => exact hz
  | tail _ hedge ih => exact ih (hclosed _ hz _ hedge)

theorem upstream_listed (hclosed : ∀ z ∈ front, ∀ y, (ofRecords g).Edge y z → y ∈ front) {x : ℕ}
    (hsources : ∀ y, (ofRecords g).Edge y x → y ∈ front) {id u : JobId}
    (hx : liveId g x = some id) (hu : u ∈ g.upstream id) : u ∈ listed g front := by
  obtain ⟨y, hy⟩ := exists_of_mem_upstream hu
  obtain ⟨_, hsource, -, rfl⟩ := liveId_eq_some.mp hy
  obtain ⟨_, htarget, -, rfl⟩ := liveId_eq_some.mp hx
  obtain ⟨-, -, hpath⟩ := (mem_upstream_iff hsource htarget).mp hu
  rw [mem_front_iff hy]
  obtain ⟨z, hstart, hedge⟩ := Relation.TransGen.tail'_iff.mp hpath.transGen
  exact mem_front_of_chain hclosed hstart (hsources z hedge)

end Listed

/-- Every node of the graph once, behind the nodes that lead to it. -/
structure Sorted (g : JobGraph) (all : List ℕ) : Prop where
  nodup : all.Nodup
  mem_iff : ∀ v, v ∈ all ↔ v < (ofRecords g).nodes.length
  /-- What leads to a node comes first. -/
  before : ∀ front v back, all = front ++ v :: back → ∀ u, (ofRecords g).Edge u v → u ∈ front

theorem Sorted.closed {all : List ℕ} (h : Sorted g all) {front back : List ℕ}
    (hsplit : all = front ++ back) : ∀ z ∈ front, ∀ y, (ofRecords g).Edge y z → y ∈ front := by
  intro z hz y hedge
  obtain ⟨front', back', hfront⟩ := append_of_mem hz
  have hsplit' : all = front' ++ z :: (back' ++ back) := by
    rw [hsplit, hfront, append_assoc, cons_append]
  rw [hfront]
  exact mem_append_left _ (h.before _ _ _ hsplit' y hedge)

theorem sorted_of_positions {all : List ℕ} (hnodup : all.Nodup)
    (hmem : ∀ v, v ∈ all ↔ v < (ofRecords g).nodes.length)
    (hedges : ∀ e ∈ (ofRecords g).edges, all.idxOf e.1 < all.idxOf e.2.1) : Sorted g all := by
  refine ⟨hnodup, hmem, ?_⟩
  rintro front v back hsplit u ⟨_, hedge⟩
  have hlt := hedges _ hedge
  have hfront : v ∉ front := by
    rw [hsplit] at hnodup
    intro hv
    exact disjoint_of_nodup_append hnodup hv mem_cons_self
  by_contra hu
  rw [hsplit, idxOf_append_of_notMem hfront, idxOf_append_of_notMem hu,
    idxOf_cons_self] at hlt
  omega

theorem Sorted.acyclic {all : List ℕ} (h : Sorted g all) : Acyclic g := by
  intro v hcycle
  obtain ⟨_, _, layout, -⟩ := exists_layout g
  obtain ⟨u, hstart, hedge⟩ := Relation.TransGen.tail'_iff.mp hcycle
  have hv := (h.mem_iff v).mpr (layout.bounds u v hedge).2
  obtain ⟨_, _, hsplit⟩ := append_of_mem hv
  have hfront := mem_front_of_chain (h.closed hsplit) hstart (h.before _ _ _ hsplit u hedge)
  have hnodup := h.nodup
  rw [hsplit] at hnodup
  exact disjoint_of_nodup_append hnodup hfront mem_cons_self

theorem lt_size_of_live {v : ℕ} {id : JobId} (h : liveId g v = some id) :
    v < (network g).size := by
  obtain ⟨_, _, layout, hbase⟩ := exists_layout g
  obtain ⟨_, hjob, -⟩ := liveId_eq_some.mp h
  exact lt_of_lt_of_le (List.getElem?_eq_some_iff.mp hjob).1 (le_trans layout.jobs_le hbase)

theorem Sorted.exists_topologicalOrder {all : List ℕ} (h : Sorted g all) :
    ∃ t : TopologicalOrder g, t.order = all.filterMap (liveId g) := by
  have hnodup : (all.filterMap (liveId g)).Nodup := by
    apply List.Nodup.filterMap _ h.nodup
    intro u v id hu hv
    exact eq_of_liveId hu hv
  have hmem : ∀ id, id ∈ all.filterMap (liveId g) ↔ id ∈ g.jobIds := by
    intro id
    rw [mem_filterMap, mem_jobIds]
    constructor
    · rintro ⟨v, -, hlive⟩
      obtain ⟨job, hjob, hskipped, rfl⟩ := liveId_eq_some.mp hlive
      exact ⟨mem_map_of_mem (mem_of_getElem? hjob), hskipped⟩
    · rintro ⟨hid, hskipped⟩
      obtain ⟨job, hjob, rfl⟩ := mem_map.mp hid
      obtain ⟨v, hv⟩ := mem_iff_getElem?.mp hjob
      have hlive : liveId g v = some job.id := liveId_eq_some.mpr ⟨job, hv, hskipped, rfl⟩
      exact ⟨v, (h.mem_iff v).mpr (lt_size_of_live hlive), hlive⟩
  refine ⟨⟨all.filterMap (liveId g), hnodup, hmem, ?_⟩, rfl⟩
  intro earlier id later hsplit u hu
  obtain ⟨l₁, _, hsplit₁, hearlier, hlater⟩ := filterMap_eq_append_iff.mp hsplit
  obtain ⟨l₃, v, l₄, hsplit₂, hnone, hlive, -⟩ := filterMap_eq_cons_iff.mp hlater
  have hsplit' : all = (l₁ ++ l₃) ++ v :: l₄ := by
    rw [hsplit₁, hsplit₂, append_assoc]
  have hlisted : listed g (l₁ ++ l₃) = earlier := by
    rw [listed, filterMap_append, hearlier, filterMap_eq_nil_iff.mpr hnone,
      append_nil]
  rw [← hlisted]
  exact upstream_listed (h.closed hsplit') (h.before _ _ _ hsplit') hlive hu

/-! ### The course of the algorithm -/

theorem sorted_of_course {all : List ℕ} (course : (network g).Course all)
    (hlength : all.length = (network g).size) : Sorted g all := by
  refine ⟨course.nodup (network g), fun v => ⟨course.lt (network g), ?_⟩, ?_⟩
  · intro hv
    exact course.mem_of_lt (network g) hlength hv
  · intro front v back hsplit u hedge
    exact course.mem_front (network g) (.single (edge_iff.mpr hedge)) hsplit

section Courses

variable {all front back : List ℕ} {v : ℕ} (course : (network g).Course all)
  (hsplit : all = front ++ v :: back)

include course hsplit

theorem upstream_listed_of_ready {x : ℕ} {id u : JobId} (hready : (network g).Ready front x)
    (hx : liveId g x = some id) (hu : u ∈ g.upstream id) : u ∈ listed g front := by
  apply upstream_listed _ (fun y hedge => hready.2.2 _ (edge_iff.mpr hedge) rfl) hx hu
  intro z hz y hedge
  obtain ⟨front', back', hfront⟩ := append_of_mem hz
  have hsplit' : all = front' ++ z :: (back' ++ v :: back) := by
    rw [hsplit, hfront, append_assoc, cons_append]
  rw [hfront]
  exact mem_append_left _
    (course.mem_front (network g) (.single (edge_iff.mpr hedge)) hsplit')

theorem ready_of_upstream_listed (hacyclic : Acyclic g) {id : JobId} (hv : liveId g v = some id)
    {x : ℕ} {job : ConcreteJob} (hx : g.jobs[x]? = some job) (hfresh : x ∉ front)
    (hupstream : ∀ u ∈ g.upstream job.id, u ∈ listed g front) :
    (network g).Ready front x := by
  obtain ⟨_, _, layout, hbase⟩ := exists_layout g
  have hlt : x < (network g).size :=
    lt_of_lt_of_le (List.getElem?_eq_some_iff.mp hx).1 (le_trans layout.jobs_le hbase)
  by_contra hwait
  have hexists : ∃ u, (ofRecords g).Edge u x ∧ u ∉ front := by
    by_contra hno
    push Not at hno
    apply hwait
    refine ⟨hlt, hfresh, ?_⟩
    intro e he htarget
    apply hno
    rw [← htarget]
    exact edge_iff.mp he
  obtain ⟨u, hedge, hu⟩ := hexists
  -- among the unvisited nodes between the live jobs and this one there is a first
  obtain ⟨y, ⟨hylt, hy, hylive, hypath⟩, hfirst⟩ := (acyclic_iff.mpr hacyclic).exists_first
    (network g) (P := fun y => y < (network g).size ∧ y ∉ front ∧ liveId g y = none ∧
      (ofRecords g).Path (Passes g) y x)
    ⟨(layout.bounds u x hedge).1, hu, not_live_of_edge hx hedge, .edge hedge⟩ fun y hy => hy.1
  have hready : (network g).Ready front y := by
    refine ⟨hylt, hy, ?_⟩
    intro e he htarget
    by_contra hsource
    have hstep : (ofRecords g).Edge e.1 y := by
      rw [← htarget]
      exact edge_iff.mp he
    have hpath : (ofRecords g).Path (Passes g) e.1 x :=
      .step hstep (passes_of_not_live hylive) hypath
    cases hlive : liveId g e.1 with
    | none =>
      exact hfirst e.1 (edge_iff.mpr hstep) ⟨(layout.bounds _ _ hstep).1, hsource, hlive, hpath⟩
    | some =>
      obtain ⟨source, hjob, hskipped, rfl⟩ := liveId_eq_some.mp hlive
      have hne : source.id ≠ job.id := by
        intro heq
        have hsame := index_unique hjob hx heq
        rw [hsame] at hpath
        exact hacyclic x hpath.transGen
      have hmem := hupstream _ ((mem_upstream_iff hjob hx).mpr ⟨hne, hskipped, hpath⟩)
      exact hsource ((mem_front_iff hlive).mp hmem)
  have hle := (course front v back hsplit).2 y hready
  exact absurd hle (not_le.mpr (heapKey_lt hv hylive))

theorem mem_candidates_iff (hacyclic : Acyclic g) {id : JobId} (hv : liveId g v = some id)
    {p : ConcreteJob × ℕ} :
    p ∈ candidates g (listed g front) ↔
      g.jobs[p.2]? = some p.1 ∧ g.isSkipped p.1.id = false ∧ (network g).Ready front p.2 := by
  rw [candidates, mem_filter, mem_zipIdx_iff_getElem?, Bool.and_eq_true,
    Bool.and_eq_true, Bool.not_eq_true', decide_eq_true_eq, all_eq_true]
  constructor
  · rintro ⟨hjob, ⟨hskipped, _⟩, hupstream⟩
    have hlive : liveId g p.2 = some p.1.id := liveId_eq_some.mpr ⟨p.1, hjob, hskipped, rfl⟩
    refine ⟨hjob, hskipped, ready_of_upstream_listed course hsplit hacyclic hv hjob ?_ ?_⟩
    · rwa [← mem_front_iff hlive]
    · intro u hu
      exact of_decide_eq_true (hupstream u hu)
  · rintro ⟨hjob, hskipped, hready⟩
    have hlive : liveId g p.2 = some p.1.id := liveId_eq_some.mpr ⟨p.1, hjob, hskipped, rfl⟩
    refine ⟨hjob, ⟨hskipped, ?_⟩, ?_⟩
    · rw [mem_front_iff hlive]
      exact hready.2.1
    · intro u hu
      exact decide_eq_true (upstream_listed_of_ready course hsplit hready hlive hu)

theorem argmax_candidates (hacyclic : Acyclic g) {job : ConcreteJob}
    (hjob : g.jobs[v]? = some job) (hskipped : g.isSkipped job.id = false) :
    (candidates g (listed g front)).argmax preference = some (job, v) := by
  have hlive : liveId g v = some job.id := liveId_eq_some.mpr ⟨job, hjob, hskipped, rfl⟩
  have hvisit := course front v back hsplit
  have hmem : (job, v) ∈ candidates g (listed g front) :=
    (mem_candidates_iff course hsplit hacyclic hlive).mpr ⟨hjob, hskipped, hvisit.1⟩
  cases hmax : (candidates g (listed g front)).argmax preference with
  | none =>
    rw [argmax_eq_none.mp hmax] at hmem
    cases hmem
  | some p =>
    obtain ⟨hjob', hskipped', hready⟩ :=
      (mem_candidates_iff course hsplit hacyclic hlive).mp (argmax_mem hmax)
    have hle : heapKey g p.2 ≤ heapKey g v := hvisit.2 p.2 hready
    rw [heapKey_of_live hjob' hskipped', heapKey_of_live hjob hskipped,
      Prod.Lex.toLex_le_toLex] at hle
    have hpreference : preference p ≤ preference (job, v) := by
      rcases hle with hlt | ⟨-, hle⟩
      · exact absurd hlt (lt_irrefl false)
      · exact hle
    have heq := le_antisymm hpreference (le_of_mem_argmax hmem hmax)
    have hindex : p.2 = v := congrArg (fun k : ℕ ×ₗ ℕᵒᵈ => OrderDual.ofDual (ofLex k).2) heq
    rw [hindex] at hjob'
    cases hjob.symm.trans hjob'
    rw [← hindex]

end Courses

/-! ### The order -/

section Orders

variable {all : List ℕ} (course : (network g).Course all) (hacyclic : Acyclic g)
  (hsorted : Sorted g all)

include course hacyclic hsorted

theorem filterMap_eq_greedyOrder {front back : List ℕ} (hsplit : all = front ++ back) (fuel : ℕ)
    (hfuel : (back.filterMap (liveId g)).length ≤ fuel) :
    back.filterMap (liveId g) = greedyOrder g fuel (listed g front) := by
  induction back generalizing front fuel with
  | nil =>
    rw [append_nil] at hsplit
    rw [filterMap_nil]
    cases fuel with
    | zero => rfl
    | succ =>
      have hnone : candidates g (listed g front) = [] := by
        apply eq_nil_iff_forall_not_mem.mpr
        intro p hp
        rw [candidates, mem_filter, mem_zipIdx_iff_getElem?, Bool.and_eq_true,
          Bool.and_eq_true, Bool.not_eq_true', decide_eq_true_eq] at hp
        obtain ⟨hjob, ⟨hskipped, hfresh⟩, -⟩ := hp
        have hlive : liveId g p.2 = some p.1.id := liveId_eq_some.mpr ⟨p.1, hjob, hskipped, rfl⟩
        apply hfresh
        rw [mem_front_iff hlive, ← hsplit]
        exact (hsorted.mem_iff p.2).mpr (lt_size_of_live hlive)
      rw [greedyOrder, hnone]
      rfl
  | cons v back ih =>
    have hsplit' : all = (front ++ [v]) ++ back := by
      rw [hsplit, append_assoc, singleton_append]
    cases hlive : liveId g v with
    | none =>
      have hlisted : listed g (front ++ [v]) = listed g front := by
        rw [listed, filterMap_append, filterMap_cons_none hlive, filterMap_nil,
          append_nil]
        rfl
      rw [filterMap_cons_none hlive] at hfuel ⊢
      rw [← hlisted]
      exact ih hsplit' fuel hfuel
    | some =>
      obtain ⟨job, hjob, hskipped, rfl⟩ := liveId_eq_some.mp hlive
      have hlisted : listed g (front ++ [v]) = listed g front ++ [job.id] := by
        rw [listed, filterMap_append, filterMap_cons_some hlive, filterMap_nil]
        rfl
      rw [filterMap_cons_some hlive] at hfuel ⊢
      rw [length_cons] at hfuel
      cases fuel with
      | zero => omega
      | succ fuel =>
        rw [greedyOrder, argmax_candidates course hsplit hacyclic hjob hskipped]
        dsimp only
        rw [← hlisted, ih hsplit' fuel (by omega)]

end Orders

/-- The priority order is an error exactly for a graph with a cycle, and
otherwise a topological order of the live jobs, the greedy one. No in-degree
underflows. -/
theorem priorityTopologicalOrder_greedy (g : JobGraph) :
    ∃ r, priorityTopologicalOrder g = some r ∧ ((∃ e, r = .error e) ↔ ¬ Acyclic g) ∧
      ∀ order, r = .ok order → (∃ t : TopologicalOrder g, t.order = order) ∧
        order = greedyOrder g g.jobs.length [] := by
  obtain ⟨all, hrun, hcourse, _, hlength⟩ := (network g).run_start
  rw [acyclic_iff] at hlength
  rw [priorityTopologicalOrder, hrun, Option.map_some]
  refine ⟨_, rfl, ?_, ?_⟩
  · by_cases hsize : all.length = (network g).size
    · rw [if_neg (not_not.mpr hsize)]
      constructor
      · rintro ⟨e, he⟩
        cases he
      · intro hcyclic
        exact absurd (hlength.mp hsize) hcyclic
    · rw [if_pos hsize]
      constructor
      · intro _ hacyclic
        exact hsize (hlength.mpr hacyclic)
      · intro _
        exact ⟨_, rfl⟩
  · intro order horder
    by_cases hsize : all.length = (network g).size
    · rw [if_neg (not_not.mpr hsize)] at horder
      have hacyclic := hlength.mp hsize
      have hsorted := sorted_of_course hcourse hsize
      obtain ⟨t, ht⟩ := hsorted.exists_topologicalOrder
      have heq := Except.ok.inj horder
      rw [← heq]
      refine ⟨⟨t, ht⟩, ?_⟩
      have hshort : (all.filterMap (liveId g)).length ≤ g.jobs.length := by
        have hsubset : t.order ⊆ g.jobs.map ConcreteJob.id := fun id hid =>
          (mem_jobIds.mp ((t.mem_iff id).mp hid)).1
        have hle := (subperm_of_subset t.nodup hsubset).length_le
        rwa [ht, length_map] at hle
      exact filterMap_eq_greedyOrder hcourse hacyclic hsorted (nil_append all).symm _ hshort
    · rw [if_pos hsize] at horder
      cases horder

end OxyMake.PriorityOrder
