import OxyMake.BreadthFirst
import OxyMake.SkippedReachability

/-!
# Graph queries

Ancestors and descendants of a job are collected by a breadth-first search, and
the jobs on the paths between two jobs are those that are reached from the one
and lead to the other, in the order of the sorted graph. Jobs that are skipped
are left out of the answers and change nothing else about them.
-/

namespace OxyMake.GraphQueries

open List
open PhysicalGraph NodeGraph PriorityOrder SkippedReachability

inductive Direction
  | upstream
  | downstream
  deriving DecidableEq, Repr

def outputName : OutputRef → String
  | .file path => path
  | .virtual id _ => id
  | .inMemory typeHint => typeHint.getD "<memory>"

def jobHas (g : JobGraph) (property : ConcreteJob → Bool) (id : JobId) : Bool :=
  (g.getJob id).any property

/-- All transitive neighbours of a job, the job apart. -/
def bfsCollect (g : JobGraph) (root : JobId) (dir : Direction) : Option (List JobId) :=
  let neighbors := match dir with
    | .upstream => g.upstream
    | .downstream => g.downstream
  BreadthFirst.collect neighbors (g.jobs.length + 1) root

/-- The live jobs in the order of the sorted nodes; `sorted` is the answer of
the external sort, nothing for a graph with a cycle. -/
def topologicalOrder (g : JobGraph) (sorted : Option (List ℕ)) : Except DagError (List JobId) :=
  match sorted with
  | none => .error (.cycleDetected ["(cycle in job graph)"])
  | some nodes => .ok (nodes.filterMap (liveId g))

/-- All jobs on a path from source to target. -/
def allPaths (g : JobGraph) (sorted : Option (List ℕ)) (source target : JobId) :
    Option (Except String (List JobId)) := do
  let descendants ← bfsCollect g source .downstream
  let ancestors ← bfsCollect g target .upstream
  let reachableFromSource := source :: descendants
  let canReachTarget := target :: ancestors
  let onPath := reachableFromSource.filter fun id => decide (id ∈ canReachTarget)
  if onPath.isEmpty then
    return .error ("no path found from '" ++ source ++ "' to '" ++ target ++ "'")
  let topo := (topologicalOrder g sorted).toOption.getD []
  return .ok (topo.filter fun id => decide (id ∈ onPath))

/-- What the external sort promises: sorted nodes, or nothing when there is a
cycle. -/
def Toposort (g : JobGraph) : Option (List ℕ) → Prop
  | some nodes => Sorted g nodes
  | none => ¬ Acyclic g

variable {g : JobGraph}

/-! ### Searches -/

theorem feeds_of_mem_upstream {a b : JobId} (hb : b ∈ g.jobIds) (h : a ∈ g.upstream b) :
    a ∈ g.jobIds ∧ Feeds g a b := by
  have ha : a ∈ g.jobIds := bridgedNeighborsIds_mem_jobIds h
  exact ⟨ha, (mem_upstream_iff_mem_downstream (mem_jobIds.mp ha).2 (mem_jobIds.mp hb).2).mp h⟩

theorem mem_upstream_of_feeds {a b : JobId} (ha : a ∈ g.jobIds) (h : Feeds g a b) :
    a ∈ g.upstream b :=
  (mem_upstream_iff_mem_downstream (mem_jobIds.mp ha).2 (mem_jobIds.mp h.live).2).mpr h

theorem upstream_chain_iff {root x : JobId} (hroot : root ∈ g.jobIds) :
    Relation.TransGen (fun a b => b ∈ g.upstream a) root x ↔
      x ∈ g.jobIds ∧ Relation.TransGen (Feeds g) x root := by
  constructor
  · intro h
    induction h with
    | single hstep =>
      obtain ⟨hlive, hfeeds⟩ := feeds_of_mem_upstream hroot hstep
      exact ⟨hlive, .single hfeeds⟩
    | tail _ hstep ih =>
      obtain ⟨hlive, hfeeds⟩ := feeds_of_mem_upstream ih.1 hstep
      exact ⟨hlive, ih.2.head hfeeds⟩
  · rintro ⟨hlive, h⟩
    induction h using Relation.TransGen.head_induction_on with
    | single hfeeds => exact .single (mem_upstream_of_feeds hlive hfeeds)
    | head hfeeds _ ih => exact (ih hfeeds.live).tail (mem_upstream_of_feeds hlive hfeeds)

theorem live_of_chain {a b : JobId} (h : Relation.TransGen (Feeds g) a b) : b ∈ g.jobIds := by
  obtain ⟨c, -, hfeeds⟩ := Relation.TransGen.tail'_iff.mp h
  exact hfeeds.live

theorem not_feeds_self (h : Acyclic g) (a : JobId) : ¬ Relation.TransGen (Feeds g) a a := by
  intro hcycle
  apply not_hops_self h a
  exact Relation.TransGen.closed
    (fun x y hfeeds => hops_of_bridge ((feeds_iff h).mp hfeeds).2) a a hcycle

theorem ne_and_reflTransGen_iff {α : Type*} {r : α → α → Prop} {a x : α}
    (h : ¬ Relation.TransGen r a a) :
    (x ≠ a ∧ Relation.ReflTransGen r a x) ↔ Relation.TransGen r a x := by
  rw [Relation.reflTransGen_iff_eq_or_transGen]
  constructor
  · rintro ⟨hne, rfl | hchain⟩
    · exact absurd rfl hne
    · exact hchain
  · intro hchain
    refine ⟨?_, Or.inr hchain⟩
    rintro rfl
    exact h hchain

theorem bfsCollect_downstream (h : Acyclic g) (root : JobId) :
    ∃ r, bfsCollect g root .downstream = some r ∧ r.Nodup ∧
      ∀ x, x ∈ r ↔ Relation.TransGen (Feeds g) root x := by
  have hdomain : ∀ x, ∀ y ∈ g.downstream x, y ∈ g.jobs.map ConcreteJob.id := by
    intro x y hy
    exact (mem_jobIds.mp (bridgedNeighborsIds_mem_jobIds hy)).1
  obtain ⟨r, hr, hnodup, hmem⟩ := BreadthFirst.collect_eq hdomain root
  rw [length_map] at hr
  refine ⟨r, hr, hnodup, fun x => ?_⟩
  rw [hmem]
  exact ne_and_reflTransGen_iff (not_feeds_self h root)

theorem bfsCollect_upstream (h : Acyclic g) {root : JobId} (hroot : root ∈ g.jobIds) :
    ∃ r, bfsCollect g root .upstream = some r ∧ r.Nodup ∧
      ∀ x, x ∈ r ↔ x ∈ g.jobIds ∧ Relation.TransGen (Feeds g) x root := by
  have hdomain : ∀ x, ∀ y ∈ g.upstream x, y ∈ g.jobs.map ConcreteJob.id := by
    intro x y hy
    exact (mem_jobIds.mp (bridgedNeighborsIds_mem_jobIds hy)).1
  obtain ⟨r, hr, hnodup, hmem⟩ := BreadthFirst.collect_eq hdomain root
  rw [length_map] at hr
  refine ⟨r, hr, hnodup, fun x => ?_⟩
  rw [hmem, ← upstream_chain_iff hroot]
  apply ne_and_reflTransGen_iff
  intro hcycle
  exact not_feeds_self h root ((upstream_chain_iff hroot).mp hcycle).2

/-! ### Orders -/

theorem mem_earlier_of_chain (t : TopologicalOrder g) {y x : JobId} (hy : y ∈ g.jobIds)
    (hchain : Relation.TransGen (Feeds g) y x) {earlier later : List JobId}
    (hsplit : t.order = earlier ++ x :: later) : y ∈ earlier := by
  induction hchain generalizing earlier later with
  | single hfeeds => exact t.before _ _ _ hsplit y (mem_upstream_of_feeds hy hfeeds)
  | tail hrest hfeeds ih =>
    rename_i z x
    have hz := t.before _ _ _ hsplit z (mem_upstream_of_feeds (live_of_chain hrest) hfeeds)
    obtain ⟨front, back, hearlier⟩ := append_of_mem hz
    have hsplit' : t.order = front ++ z :: (back ++ x :: later) := by
      rw [hsplit, hearlier, append_assoc, cons_append]
    rw [hearlier]
    exact mem_append_left _ (ih hsplit')

theorem pairwise_order (t : TopologicalOrder g) :
    t.order.Pairwise fun x y => ¬ Relation.ReflTransGen (Feeds g) y x := by
  have hsuffix : ∀ later earlier, t.order = earlier ++ later →
      later.Pairwise fun x y => ¬ Relation.ReflTransGen (Feeds g) y x := by
    intro later
    induction later with
    | nil => exact fun _ _ => List.Pairwise.nil
    | cons x later ih =>
      intro earlier hsplit
      have hsplit' : t.order = (earlier ++ [x]) ++ later := by
        rw [hsplit, append_assoc, singleton_append]
      have hnodup := t.nodup
      rw [hsplit] at hnodup
      refine List.Pairwise.cons ?_ (ih _ hsplit')
      intro y hy hchain
      rcases Relation.reflTransGen_iff_eq_or_transGen.mp hchain with rfl | hchain
      · exact (nodup_cons.mp (nodup_append.mp hnodup).2.1).1 hy
      · have hlive : y ∈ g.jobIds := by
          rw [← t.mem_iff, hsplit]
          exact mem_append_right _ (.tail x hy)
        have hearlier := mem_earlier_of_chain t hlive hchain hsplit
        exact disjoint_of_nodup_append hnodup hearlier (.tail x hy)
  exact hsuffix t.order [] rfl

/-! ### Paths -/

theorem allPaths_eq (h : Acyclic g) {sorted : Option (List ℕ)} (hsorted : Toposort g sorted)
    {source target : JobId} (hsource : source ∈ g.jobIds) (htarget : target ∈ g.jobIds) :
    ∃ r, allPaths g sorted source target = some r ∧
      ((∃ e, r = .error e) ↔ ¬ Relation.ReflTransGen (Feeds g) source target) ∧
      ∀ jobs, r = .ok jobs →
        (∀ x, x ∈ jobs ↔ x ∈ g.jobIds ∧ Relation.ReflTransGen (Feeds g) source x ∧
          Relation.ReflTransGen (Feeds g) x target) ∧
        jobs.Pairwise fun x y => ¬ Relation.ReflTransGen (Feeds g) y x := by
  obtain ⟨ds, hds, -, hmemds⟩ := bfsCollect_downstream h source
  obtain ⟨as, has, -, hmemas⟩ := bfsCollect_upstream h htarget
  have honPath : ∀ x, x ∈ (source :: ds).filter (fun id => decide (id ∈ target :: as)) ↔
      x ∈ g.jobIds ∧ Relation.ReflTransGen (Feeds g) source x ∧
        Relation.ReflTransGen (Feeds g) x target := by
    intro x
    rw [mem_filter, decide_eq_true_eq, mem_cons, mem_cons, hmemds, hmemas,
      Relation.reflTransGen_iff_eq_or_transGen, Relation.reflTransGen_iff_eq_or_transGen]
    constructor
    · rintro ⟨rfl | hdown, rfl | ⟨hlive, hup⟩⟩
      · exact ⟨hsource, Or.inl rfl, Or.inl rfl⟩
      · exact ⟨hsource, Or.inl rfl, Or.inr hup⟩
      · exact ⟨htarget, Or.inr hdown, Or.inl rfl⟩
      · exact ⟨hlive, Or.inr hdown, Or.inr hup⟩
    · rintro ⟨hlive, hdown, hup⟩
      refine ⟨hdown, ?_⟩
      rcases hup with rfl | hup
      · exact Or.inl rfl
      · exact Or.inr ⟨hlive, hup⟩
  cases sorted with
  | none => exact absurd h hsorted
  | some =>
    obtain ⟨t, ht⟩ := Sorted.exists_topologicalOrder hsorted
    rw [allPaths, hds, has]
    dsimp only [bind, Option.bind, topologicalOrder, Except.toOption, Option.getD]
    rw [← ht]
    by_cases hempty : (source :: ds).filter (fun id => decide (id ∈ target :: as)) = []
    · rw [if_pos (List.isEmpty_iff.mpr hempty)]
      refine ⟨_, rfl, ⟨fun _ hchain => ?_, fun _ => ⟨_, rfl⟩⟩, ?_⟩
      · have hmem := (honPath source).mpr ⟨hsource, .refl, hchain⟩
        rw [hempty] at hmem
        cases hmem
      · intro jobs hjobs
        cases hjobs
    · rw [if_neg (fun hnil => hempty (List.isEmpty_iff.mp hnil))]
      refine ⟨_, rfl, ⟨?_, ?_⟩, ?_⟩
      · rintro ⟨e, he⟩
        cases he
      · intro hno
        obtain ⟨x, hx⟩ := exists_mem_of_ne_nil _ hempty
        obtain ⟨-, hdown, hup⟩ := (honPath x).mp hx
        exact absurd (hdown.trans hup) hno
      · intro jobs hjobs
        rw [← Except.ok.inj hjobs]
        constructor
        · intro x
          rw [mem_filter, decide_eq_true_eq, honPath, t.mem_iff]
          constructor
          · exact fun hx => hx.2
          · exact fun hx => ⟨hx.1, hx⟩
        · exact (pairwise_order t).sublist filter_sublist

/-! ### Skipped jobs -/

theorem reflTransGen_feeds_markAll {ids : List JobId} (hfresh : g.skipped = []) (h : Acyclic g)
    {a b : JobId} (hb : b ∈ (markAll g ids).jobIds) :
    Relation.ReflTransGen (Feeds (markAll g ids)) a b ↔ Relation.ReflTransGen (Feeds g) a b := by
  rw [Relation.reflTransGen_iff_eq_or_transGen, Relation.reflTransGen_iff_eq_or_transGen,
    transGen_feeds_markAll hfresh h hb]

/-- Whatever jobs are skipped, neighbours are the ends of paths through skipped
jobs, chains of neighbours reach the live jobs they reached before, and queries
answer with the live ancestors, the live descendants and the live jobs on the
paths, in topological order. -/
theorem skipping_preserves_reachability (g : JobGraph) (hfresh : g.skipped = [])
    (hacyclic : Acyclic g) (ids : List JobId) (sorted : Option (List ℕ))
    (hsorted : Toposort (markAll g ids) sorted) :
    (∀ a ∈ (markAll g ids).jobIds, ∀ b ∈ (markAll g ids).jobIds,
      (b ∈ (markAll g ids).downstream a ↔ a ∈ (markAll g ids).upstream b) ∧
      (b ∈ (markAll g ids).downstream a ↔ Joins (ofRecords g) (· ∈ ids) a b) ∧
      (Relation.TransGen (Feeds (markAll g ids)) a b ↔ Relation.TransGen (Feeds g) a b)) ∧
    (∀ root ∈ (markAll g ids).jobIds,
      (∃ r, bfsCollect (markAll g ids) root .upstream = some r ∧ r.Nodup ∧
        ∀ x, x ∈ r ↔ x ∈ (markAll g ids).jobIds ∧ Relation.TransGen (Feeds g) x root) ∧
      ∃ r, bfsCollect (markAll g ids) root .downstream = some r ∧ r.Nodup ∧
        ∀ x, x ∈ r ↔ x ∈ (markAll g ids).jobIds ∧ Relation.TransGen (Feeds g) root x) ∧
    ∀ source ∈ (markAll g ids).jobIds, ∀ target ∈ (markAll g ids).jobIds,
      ∃ r, allPaths (markAll g ids) sorted source target = some r ∧
        ((∃ e, r = .error e) ↔ ¬ Relation.ReflTransGen (Feeds g) source target) ∧
        ∀ jobs, r = .ok jobs →
          (∀ x, x ∈ jobs ↔ x ∈ (markAll g ids).jobIds ∧
            Relation.ReflTransGen (Feeds g) source x ∧
            Relation.ReflTransGen (Feeds g) x target) ∧
          jobs.Pairwise fun x y => ¬ Relation.ReflTransGen (Feeds g) y x := by
  have hmarked : Acyclic (markAll g ids) := acyclic_markAll hacyclic
  refine ⟨?_, ?_, ?_⟩
  · intro a ha b hb
    exact ⟨(mem_upstream_iff_mem_downstream (mem_jobIds.mp ha).2 (mem_jobIds.mp hb).2).symm,
      feeds_markAll_iff_joins hfresh hacyclic ha hb, transGen_feeds_markAll hfresh hacyclic hb⟩
  · intro root hroot
    obtain ⟨as, has, hnodupas, hmemas⟩ := bfsCollect_upstream hmarked hroot
    obtain ⟨ds, hds, hnodupds, hmemds⟩ := bfsCollect_downstream hmarked root
    refine ⟨⟨as, has, hnodupas, fun x => ?_⟩, ⟨ds, hds, hnodupds, fun x => ?_⟩⟩
    · rw [hmemas, transGen_feeds_markAll hfresh hacyclic hroot]
    · rw [hmemds]
      constructor
      · intro hchain
        have hlive := live_of_chain hchain
        exact ⟨hlive, (transGen_feeds_markAll hfresh hacyclic hlive).mp hchain⟩
      · rintro ⟨hlive, hchain⟩
        exact (transGen_feeds_markAll hfresh hacyclic hlive).mpr hchain
  · intro source hsource target htarget
    obtain ⟨r, hr, herror, hok⟩ := allPaths_eq hmarked hsorted hsource htarget
    refine ⟨r, hr, ?_, ?_⟩
    · rw [herror, reflTransGen_feeds_markAll hfresh hacyclic htarget]
    · intro jobs hjobs
      obtain ⟨hmem, horder⟩ := hok jobs hjobs
      refine ⟨fun x => ?_, ?_⟩
      · rw [hmem, reflTransGen_feeds_markAll hfresh hacyclic htarget]
        constructor
        · rintro ⟨hlive, hdown, hup⟩
          exact ⟨hlive, (reflTransGen_feeds_markAll hfresh hacyclic hlive).mp hdown, hup⟩
        · rintro ⟨hlive, hdown, hup⟩
          exact ⟨hlive, (reflTransGen_feeds_markAll hfresh hacyclic hlive).mpr hdown, hup⟩
      · apply horder.imp_of_mem
        intro x y hx _ hno hchain
        exact hno ((reflTransGen_feeds_markAll hfresh hacyclic ((hmem x).mp hx).1).mpr hchain)

def row : JobGraph where
  jobs := [fileJob "a" [] ["a.txt"], fileJob "b" ["a.txt"] ["b.txt"], fileJob "c" ["b.txt"] []]
  skipped := []
  gates := []
  idsNodup := by decide

theorem sorted_row (ids : List JobId) : Sorted (markAll row ids) [0, 3, 1, 4, 2] := by
  have hlength : (ofRecords row).nodes.length = 5 := by decide
  apply sorted_of_positions
  · decide
  · intro v
    rw [ofRecords_markAll, hlength]
    simp only [mem_cons, not_mem_nil, or_false]
    omega
  · rw [ofRecords_markAll]
    decide

/-- The middle job is skipped: the others are neighbours, and the query answers
with both. -/
theorem skipping_preserves_reachability_row :
    ("c" ∈ (markAll row ["b"]).downstream "a" ↔ Joins (ofRecords row) (· ∈ ["b"]) "a" "c") ∧
      ∃ r, allPaths (markAll row ["b"]) (some [0, 3, 1, 4, 2]) "a" "c" = some r ∧
        ((∃ e, r = .error e) ↔ ¬ Relation.ReflTransGen (Feeds row) "a" "c") := by
  have ha : "a" ∈ (markAll row ["b"]).jobIds := mem_jobIds.mpr (by decide)
  have hc : "c" ∈ (markAll row ["b"]).jobIds := mem_jobIds.mpr (by decide)
  obtain ⟨hneighbors, -, hpaths⟩ := skipping_preserves_reachability row rfl
    (sorted_row []).acyclic ["b"] (some [0, 3, 1, 4, 2]) (sorted_row ["b"])
  obtain ⟨r, hr, herror, -⟩ := hpaths "a" ha "c" hc
  exact ⟨(hneighbors "a" ha "c" hc).2.1, r, hr, herror⟩

end OxyMake.GraphQueries
