import OxyMake.PriorityOrder

/-!
# Reachability past skipped jobs

Marking jobs as skipped leaves the records of the graph alone, so every path
stays. The neighbours of a live job are the live jobs at the ends of paths
through skipped jobs, and chains of such neighbours reach the same live jobs as
chains of neighbours in the graph before any job was skipped.
-/

namespace OxyMake.SkippedReachability

open PhysicalGraph NodeGraph PriorityOrder

def markAll (g : JobGraph) (ids : List JobId) : JobGraph := ids.foldl JobGraph.markSkipped g

def JobAt (n : Bipartite) (v : ℕ) (id : JobId) : Prop :=
  ∃ job, n.nodes[v]? = some (.job job) ∧ job.id = id

/-- A path leads from a job to another through chosen jobs only. -/
def Joins (n : Bipartite) (chosen : JobId → Prop) (a b : JobId) : Prop :=
  ∃ u v, JobAt n u a ∧ JobAt n v b ∧ n.Path (fun w => ∀ id, JobAt n w id → chosen id) u v

/-- A job consumes an output of another, skipped jobs between them apart. -/
def Feeds (g : JobGraph) (a b : JobId) : Prop := b ∈ g.downstream a

/-! ### Marking jobs -/

variable {g : JobGraph} {ids : List JobId}

theorem markSkipped_records (g : JobGraph) (id : JobId) :
    (g.markSkipped id).jobs = g.jobs ∧ (g.markSkipped id).gates = g.gates := by
  unfold JobGraph.markSkipped
  split_ifs <;> exact ⟨rfl, rfl⟩

theorem markAll_records (g : JobGraph) (ids : List JobId) :
    (markAll g ids).jobs = g.jobs ∧ (markAll g ids).gates = g.gates := by
  induction ids generalizing g with
  | nil => exact ⟨rfl, rfl⟩
  | cons id ids ih =>
    obtain ⟨hjobs, hgates⟩ := markSkipped_records g id
    obtain ⟨hjobs', hgates'⟩ := ih (g.markSkipped id)
    exact ⟨hjobs'.trans hjobs, hgates'.trans hgates⟩

theorem mem_skipped_markSkipped {id x : JobId} :
    x ∈ (g.markSkipped id).skipped ↔
      x ∈ g.skipped ∨ (x = id ∧ x ∈ g.jobs.map ConcreteJob.id) := by
  unfold JobGraph.markSkipped
  by_cases hmark : (g.findJob id).isSome ∧ id ∉ g.skipped
  · rw [if_pos hmark]
    dsimp only
    rw [List.mem_cons]
    constructor
    · rintro (rfl | hx)
      · exact Or.inr ⟨rfl, findJob_isSome_iff.mp hmark.1⟩
      · exact Or.inl hx
    · rintro (hx | ⟨rfl, -⟩)
      · exact Or.inr hx
      · exact Or.inl rfl
  · rw [if_neg hmark]
    constructor
    · exact Or.inl
    · rintro (hx | ⟨rfl, hindexed⟩)
      · exact hx
      · by_contra hx
        exact hmark ⟨findJob_isSome_iff.mpr hindexed, hx⟩

theorem mem_skipped_markAll {x : JobId} :
    x ∈ (markAll g ids).skipped ↔
      x ∈ g.skipped ∨ (x ∈ ids ∧ x ∈ g.jobs.map ConcreteJob.id) := by
  induction ids generalizing g with
  | nil =>
    constructor
    · exact Or.inl
    · rintro (hx | ⟨hx, -⟩)
      · exact hx
      · cases hx
  | cons id ids ih =>
    rw [markAll, List.foldl_cons, ← markAll, ih, mem_skipped_markSkipped,
      (markSkipped_records g id).1, List.mem_cons]
    tauto

theorem ofRecords_markAll (g : JobGraph) (ids : List JobId) :
    ofRecords (markAll g ids) = ofRecords g := by
  obtain ⟨hjobs, hgates⟩ := markAll_records g ids
  rw [ofRecords, ofRecords, hjobs, hgates]

theorem hop_markAll (g : JobGraph) (ids : List JobId) (dir : JobGraph.Direction) (a : JobId) :
    (markAll g ids).hop dir a = g.hop dir a := by
  have hfind : ∀ id, (markAll g ids).findJob id = g.findJob id := by
    intro id
    rw [JobGraph.findJob, JobGraph.findJob, (markAll_records g ids).1]
  cases dir with
  | incoming | outgoing => rw [JobGraph.hop, JobGraph.hop, hfind, (markAll_records g ids).1]

/-! ### Nodes of jobs -/

theorem jobAt_iff {v : ℕ} {id : JobId} :
    JobAt (ofRecords g) v id ↔ ∃ job, g.jobs[v]? = some job ∧ job.id = id := by
  obtain ⟨_, _, layout, -⟩ := exists_layout g
  constructor
  · rintro ⟨job, hjob, hid⟩
    exact ⟨job, layout.other v job hjob, hid⟩
  · rintro ⟨job, hjob, hid⟩
    exact ⟨job, layout.jobs v job hjob, hid⟩

theorem passes_markAll (hfresh : g.skipped = []) :
    Passes (markAll g ids) = fun w => ∀ id, JobAt (ofRecords g) w id → id ∈ ids := by
  funext w
  apply propext
  rw [Passes, ofRecords_markAll]
  constructor
  · rintro h id ⟨job, hjob, rfl⟩
    have hskipped := of_decide_eq_true (h job hjob)
    rw [mem_skipped_markAll, hfresh] at hskipped
    exact (hskipped.resolve_left List.not_mem_nil).1
  · intro h job hjob
    obtain ⟨_, hmem, hid⟩ := jobAt_iff.mp ⟨job, hjob, rfl⟩
    apply decide_eq_true
    apply mem_skipped_markAll.mpr
    refine Or.inr ⟨h _ ⟨job, hjob, rfl⟩, ?_⟩
    rw [← hid]
    exact List.mem_map_of_mem (List.mem_of_getElem? hmem)

theorem acyclic_markAll (h : Acyclic g) : Acyclic (markAll g ids) := by
  unfold Acyclic
  rw [ofRecords_markAll]
  exact h

theorem path_of_hops {a b : JobId}
    (h : Relation.TransGen (fun x y => y ∈ g.hop .outgoing x) a b) :
    ∃ u v, JobAt (ofRecords g) u a ∧ JobAt (ofRecords g) v b ∧
      Relation.TransGen (ofRecords g).Edge u v := by
  have hstep : ∀ {x y : JobId}, y ∈ g.hop .outgoing x → ∃ u v, JobAt (ofRecords g) u x ∧
      JobAt (ofRecords g) v y ∧ Relation.TransGen (ofRecords g).Edge u v := by
    intro x y hxy
    obtain ⟨job, other, k, hjob, hother, rfl, rfl, -⟩ := mem_hop_outgoing.mp hxy
    obtain ⟨u, hu⟩ := List.mem_iff_getElem?.mp hjob
    obtain ⟨v, hv⟩ := List.mem_iff_getElem?.mp hother
    exact ⟨u, v, jobAt_iff.mpr ⟨job, hu, rfl⟩, jobAt_iff.mpr ⟨other, hv, rfl⟩,
      ((bridge_iff_path hu hv).mp (.direct hxy)).transGen⟩
  induction h with
  | single hxy => exact hstep hxy
  | tail _ hxy ih =>
    obtain ⟨u, v, hu, hv, hpath⟩ := ih
    obtain ⟨v', w, hv', hw, hpath'⟩ := hstep hxy
    have hsame : v = v' := by
      obtain ⟨job, hjob, hid⟩ := jobAt_iff.mp hv
      obtain ⟨_, hjob', hid'⟩ := jobAt_iff.mp hv'
      exact index_unique hjob hjob' (hid.trans hid'.symm)
    rw [← hsame] at hpath'
    exact ⟨u, w, hu, hw, hpath.trans hpath'⟩

theorem not_hops_self (h : Acyclic g) (a : JobId) :
    ¬ Relation.TransGen (fun x y => y ∈ g.hop .outgoing x) a a := by
  intro hcycle
  obtain ⟨u, v, hu, hv, hpath⟩ := path_of_hops hcycle
  obtain ⟨_, hjob, hid⟩ := jobAt_iff.mp hu
  obtain ⟨_, hjob', hid'⟩ := jobAt_iff.mp hv
  rw [index_unique hjob hjob' (hid.trans hid'.symm)] at hpath
  exact h v hpath

theorem hops_of_bridge {passes : JobId → Bool} {a b : JobId}
    (h : Flood.Bridge (g.hop .outgoing) passes a b) :
    Relation.TransGen (fun x y => y ∈ g.hop .outgoing x) a b := by
  induction h with
  | direct hm => exact .single hm
  | through hm _ _ ih => exact ih.head hm

/-! ### Neighbours -/

theorem feeds_iff (h : Acyclic g) {a b : JobId} :
    Feeds g a b ↔
      g.isSkipped b = false ∧ Flood.Bridge (g.hop .outgoing) g.isSkipped a b := by
  rw [Feeds, JobGraph.downstream, mem_bridgedNeighborsIds]
  constructor
  · rintro ⟨-, hb, hbridge⟩
    exact ⟨hb, hbridge⟩
  · rintro ⟨hb, hbridge⟩
    refine ⟨?_, hb, hbridge⟩
    rintro rfl
    exact not_hops_self h b (hops_of_bridge hbridge)

theorem Feeds.live {a b : JobId} (h : Feeds g a b) : b ∈ g.jobIds :=
  bridgedNeighborsIds_mem_jobIds h

theorem feeds_markAll_iff_joins (hfresh : g.skipped = []) (h : Acyclic g) {a b : JobId}
    (ha : a ∈ (markAll g ids).jobIds) (hb : b ∈ (markAll g ids).jobIds) :
    Feeds (markAll g ids) a b ↔ Joins (ofRecords g) (· ∈ ids) a b := by
  have hjobs := (markAll_records g ids).1
  obtain ⟨hmema, _⟩ := mem_jobIds.mp ha
  obtain ⟨hmemb, hliveb⟩ := mem_jobIds.mp hb
  obtain ⟨job, hjob, rfl⟩ := List.mem_map.mp hmema
  obtain ⟨target, htarget, rfl⟩ := List.mem_map.mp hmemb
  obtain ⟨u, hu⟩ := List.mem_iff_getElem?.mp hjob
  obtain ⟨v, hv⟩ := List.mem_iff_getElem?.mp htarget
  rw [feeds_iff (acyclic_markAll h), bridge_iff_path hu hv, passes_markAll hfresh,
    ofRecords_markAll]
  rw [hjobs] at hu hv
  constructor
  · rintro ⟨-, hpath⟩
    exact ⟨u, v, jobAt_iff.mpr ⟨job, hu, rfl⟩, jobAt_iff.mpr ⟨target, hv, rfl⟩, hpath⟩
  · rintro ⟨_, _, hu', hv', hpath⟩
    obtain ⟨_, hjob', hid⟩ := jobAt_iff.mp hu'
    obtain ⟨_, htarget', hid'⟩ := jobAt_iff.mp hv'
    rw [index_unique hjob' hu hid, index_unique htarget' hv hid'] at hpath
    exact ⟨hliveb, hpath⟩

theorem feeds_iff_hop (hfresh : g.skipped = []) (h : Acyclic g) {a b : JobId} :
    Feeds g a b ↔ b ∈ g.hop .outgoing a := by
  have hnone : ∀ x, g.isSkipped x = false := by
    intro x
    rw [JobGraph.isSkipped, hfresh]
    exact decide_eq_false List.not_mem_nil
  rw [feeds_iff h]
  constructor
  · rintro ⟨-, hbridge⟩
    cases hbridge with
    | direct hm => exact hm
    | through _ hskipped =>
      rw [hnone] at hskipped
      cases hskipped
  · intro hm
    exact ⟨hnone b, .direct hm⟩

theorem feeds_of_hops (h : Acyclic g) {a b : JobId} (hb : g.isSkipped b = false)
    (hhops : Relation.TransGen (fun x y => y ∈ g.hop .outgoing x) a b) :
    Relation.TransGen (Feeds g) a b := by
  induction hhops using Relation.TransGen.head_induction_on with
  | single hm => exact .single ((feeds_iff h).mpr ⟨hb, .direct hm⟩)
  | head hm _ ih =>
    rename_i x c _
    cases hc : g.isSkipped c with
    | false => exact ih.head ((feeds_iff h).mpr ⟨hc, .direct hm⟩)
    | true =>
      obtain ⟨d, hfeeds, hrest⟩ := Relation.TransGen.head'_iff.mp ih
      obtain ⟨hd, hbridge⟩ := (feeds_iff h).mp hfeeds
      exact Relation.TransGen.head' ((feeds_iff h).mpr ⟨hd, .through hm hc hbridge⟩) hrest

theorem transGen_feeds_markAll (hfresh : g.skipped = []) (h : Acyclic g) {a b : JobId}
    (hb : b ∈ (markAll g ids).jobIds) :
    Relation.TransGen (Feeds (markAll g ids)) a b ↔ Relation.TransGen (Feeds g) a b := by
  have hhop : (fun x y => y ∈ (markAll g ids).hop .outgoing x) = Feeds g := by
    funext x y
    rw [hop_markAll, feeds_iff_hop hfresh h]
  constructor
  · intro hchain
    rw [← hhop]
    clear hb
    induction hchain with
    | single hfeeds => exact hops_of_bridge ((feeds_iff (acyclic_markAll h)).mp hfeeds).2
    | tail _ hfeeds ih =>
      have hbridge := ((feeds_iff (acyclic_markAll h)).mp hfeeds).2
      exact ih.trans (hops_of_bridge hbridge)
  · intro hchain
    rw [← hhop] at hchain
    exact feeds_of_hops (acyclic_markAll h) (mem_jobIds.mp hb).2 hchain

end OxyMake.SkippedReachability
