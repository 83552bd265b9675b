import OxyMake.PhysicalGraph

/-!
# The nodes of the job graph

The bipartite graph that construction makes of the job records: a node for each
job, for each output key and for each gate, with edges from a job to what it
produces, from an output to its consumers and from a gate to the job it blocks.
Two jobs are one hop apart in the records exactly when an output node lies
between their nodes.
-/

namespace OxyMake.NodeGraph

open List
open PhysicalGraph

/-- A node of the graph. -/
inductive JobNode
  | job (job : ConcreteJob)
  | output (reference : OutputRef)
  | gate (gate : GateId)
  deriving DecidableEq, Repr

/-- What an edge stands for. -/
inductive JobEdge
  | produces
  | consumes
  | blocks
  deriving DecidableEq, Repr

/-- The graph, with the index of its output nodes. -/
structure Bipartite where
  nodes : List JobNode
  /-- Source, target and kind. -/
  edges : List (ℕ × ℕ × JobEdge)
  /-- The node of every output key. -/
  outputIndices : List (String × ℕ)
  deriving DecidableEq, Repr

/-- Node of an output, which is added when its key is new. -/
def Bipartite.outputNode (n : Bipartite) (reference : OutputRef) : ℕ × Bipartite :=
  match n.outputIndices.lookup (outputRefKey reference) with
  | some index => (index, n)
  | none =>
    (n.nodes.length,
      { n with
        nodes := n.nodes ++ [.output reference]
        outputIndices := (outputRefKey reference, n.nodes.length) :: n.outputIndices })

def edgeOf (kind : JobEdge) (job out : ℕ) : ℕ × ℕ × JobEdge :=
  match kind with
  | .consumes => (out, job, .consumes)
  | kind => (job, out, kind)

def Bipartite.connect (kind : JobEdge) (n : Bipartite) (p : ℕ × OutputRef) : Bipartite :=
  let out := n.outputNode p.2
  { out.2 with edges := out.2.edges ++ [edgeOf kind p.1 out.1] }

def Bipartite.addProduces : Bipartite → ℕ × OutputRef → Bipartite := Bipartite.connect .produces

/-- Connect an output with a job that consumes it. -/
def Bipartite.addConsumes : Bipartite → ℕ × OutputRef → Bipartite := Bipartite.connect .consumes

/-- References of all jobs with the node of their job. -/
def attached (references : ConcreteJob → List OutputRef) (jobs : List ConcreteJob) :
    List (ℕ × OutputRef) :=
  jobs.zipIdx.flatMap fun p => (references p.1).map fun reference => (p.2, reference)

/-- Outputs of all jobs with the node of their job. -/
def produced : List ConcreteJob → List (ℕ × OutputRef) := attached ConcreteJob.outputs

/-- Inputs of all jobs with the node of their job. -/
def consumed : List ConcreteJob → List (ℕ × OutputRef) := attached ConcreteJob.inputs

/-- Add the job nodes, then the outputs, then the inputs. -/
def Bipartite.build (jobs : List ConcreteJob) : Bipartite :=
  let n := ⟨jobs.map .job, [], []⟩
  let n := (produced jobs).foldl Bipartite.addProduces n
  (consumed jobs).foldl Bipartite.addConsumes n

/-- Add a gate node in front of an indexed job. -/
def Bipartite.addGate (n : Bipartite) (jobs : List ConcreteJob) (p : GateId × JobId) : Bipartite :=
  match jobs.findIdx? fun job => job.id == p.2 with
  | none => n
  | some index =>
    { n with
      nodes := n.nodes ++ [.gate p.1]
      edges := n.edges ++ [(n.nodes.length, index, .blocks)] }

/-- The graph of the records, with the gates that were added to it. -/
def ofRecords (g : JobGraph) : Bipartite :=
  g.gates.reverse.foldl (fun n p => n.addGate g.jobs p) (Bipartite.build g.jobs)

def Bipartite.Edge (n : Bipartite) (u v : ℕ) : Prop := ∃ kind, (u, v, kind) ∈ n.edges

/-! ### What construction adds -/

/-- A link between a job and an output that is to become an edge. -/
abbrev Link := JobEdge × ℕ × OutputRef

/-- The graph after some outputs and inputs of the jobs. -/
structure Wired (jobs : List ConcreteJob) (links : List Link) (n : Bipartite) : Prop where
  /-- Behind the job nodes there are output nodes only. -/
  nodes : ∃ references : List OutputRef, n.nodes = jobs.map .job ++ references.map .output
  /-- The node of a key lies behind the job nodes. -/
  slot_bounds : ∀ k o, n.outputIndices.lookup k = some o → jobs.length ≤ o ∧ o < n.nodes.length
  slot_inj : ∀ k k' o, n.outputIndices.lookup k = some o → n.outputIndices.lookup k' = some o →
    k = k'
  known : ∀ l ∈ links, ∃ o, n.outputIndices.lookup (outputRefKey l.2.2) = some o
  /-- There is an edge for each link, and no other. -/
  edges : ∀ e, e ∈ n.edges ↔ ∃ l ∈ links, ∃ o,
    n.outputIndices.lookup (outputRefKey l.2.2) = some o ∧ e = edgeOf l.1 l.2.1 o

theorem Wired.outputNode {jobs : List ConcreteJob} {links : List Link} {n : Bipartite}
    (h : Wired jobs links n) (reference : OutputRef) :
    Wired jobs links (n.outputNode reference).2 ∧
      (n.outputNode reference).2.outputIndices.lookup (outputRefKey reference) =
        some (n.outputNode reference).1 := by
  unfold Bipartite.outputNode
  cases hlookup : n.outputIndices.lookup (outputRefKey reference) with
  | some => exact ⟨h, hlookup⟩
  | none =>
    have hkeep : ∀ k o, n.outputIndices.lookup k = some o →
        ((outputRefKey reference, n.nodes.length) :: n.outputIndices).lookup k = some o := by
      intro k o hk
      rw [lookup_cons]
      by_cases heq : k = outputRefKey reference
      · rw [heq, hlookup] at hk
        cases hk
      · rw [beq_false_of_ne heq]
        exact hk
    have hcases : ∀ k o,
        ((outputRefKey reference, n.nodes.length) :: n.outputIndices).lookup k = some o →
        (k = outputRefKey reference ∧ o = n.nodes.length) ∨ n.outputIndices.lookup k = some o := by
      intro k o hk
      rw [lookup_cons] at hk
      by_cases heq : k = outputRefKey reference
      · rw [heq, beq_self_eq_true] at hk
        exact Or.inl ⟨heq, (Option.some.inj hk).symm⟩
      · rw [beq_false_of_ne heq] at hk
        exact Or.inr hk
    have hsame : ∀ l ∈ links, ∀ o,
        ((outputRefKey reference, n.nodes.length) :: n.outputIndices).lookup
          (outputRefKey l.2.2) = some o ↔
        n.outputIndices.lookup (outputRefKey l.2.2) = some o := by
      intro l hl o
      obtain ⟨_, ho'⟩ := h.known l hl
      rw [hkeep _ _ ho', ho']
    obtain ⟨references, hnodes⟩ := h.nodes
    refine ⟨⟨⟨references ++ [reference], ?_⟩, ?_, ?_, ?_, ?_⟩, ?_⟩
    · dsimp only
      rw [hnodes, map_append, append_assoc, map_singleton]
    · intro k o hk
      dsimp only
      rw [length_append, length_singleton]
      rcases hcases k o hk with ⟨-, rfl⟩ | hk
      · rw [hnodes, length_append, length_map]
        omega
      · have hbounds := h.slot_bounds k o hk
        omega
    · intro k k' o hk hk'
      rcases hcases k o hk with ⟨rfl, ho⟩ | hk
      · rcases hcases k' o hk' with ⟨rfl, -⟩ | hk'
        · rfl
        · have hbounds := h.slot_bounds k' o hk'
          omega
      · rcases hcases k' o hk' with ⟨rfl, ho⟩ | hk'
        · have hbounds := h.slot_bounds k o hk
          omega
        · exact h.slot_inj k k' o hk hk'
    · intro l hl
      obtain ⟨o, ho⟩ := h.known l hl
      exact ⟨o, hkeep _ _ ho⟩
    · intro e
      rw [h.edges e]
      constructor
      · rintro ⟨l, hl, o, ho, he⟩
        exact ⟨l, hl, o, hkeep _ _ ho, he⟩
      · rintro ⟨l, hl, o, ho, he⟩
        exact ⟨l, hl, o, (hsame l hl o).mp ho, he⟩
    · dsimp only
      rw [lookup_cons, beq_self_eq_true]

theorem Wired.connect {jobs : List ConcreteJob} {links : List Link} {n : Bipartite}
    (h : Wired jobs links n) (kind : JobEdge) (p : ℕ × OutputRef) :
    Wired jobs (links ++ [(kind, p)]) (n.connect kind p) := by
  obtain ⟨hout, hslot⟩ := h.outputNode p.2
  refine ⟨hout.nodes, hout.slot_bounds, hout.slot_inj, ?_, ?_⟩
  · intro l hl
    rcases mem_append.mp hl with hl | hl
    · exact hout.known l hl
    · rw [mem_singleton.mp hl]
      exact ⟨_, hslot⟩
  · intro e
    show e ∈ (n.outputNode p.2).2.edges ++ [edgeOf kind p.1 (n.outputNode p.2).1] ↔ _
    rw [mem_append, hout.edges e, mem_singleton]
    constructor
    · rintro (⟨l, hl, hedge⟩ | rfl)
      · exact ⟨l, mem_append_left _ hl, hedge⟩
      · exact ⟨(kind, p), mem_append_right _ (mem_singleton.mpr rfl), _, hslot, rfl⟩
    · rintro ⟨l, hl, o, ho, he⟩
      rcases mem_append.mp hl with hl | hl
      · exact Or.inl ⟨l, hl, o, ho, he⟩
      · rw [mem_singleton.mp hl] at ho he
        have heq := Option.some.inj (hslot.symm.trans ho)
        rw [heq]
        exact Or.inr he

theorem Wired.foldl_connect {jobs : List ConcreteJob} {links : List Link} {n : Bipartite}
    (h : Wired jobs links n) (kind : JobEdge) (ps : List (ℕ × OutputRef)) :
    Wired jobs (links ++ ps.map fun p => (kind, p)) (ps.foldl (Bipartite.connect kind) n) := by
  induction ps generalizing links n with
  | nil =>
    rw [map_nil, append_nil]
    exact h
  | cons p ps ih =>
    have hnext := ih (h.connect kind p)
    rwa [append_assoc, singleton_append] at hnext

def linksOf (jobs : List ConcreteJob) : List Link :=
  (produced jobs).map (fun p => (JobEdge.produces, p)) ++
    (consumed jobs).map fun p => (JobEdge.consumes, p)

theorem wired_build (jobs : List ConcreteJob) :
    Wired jobs (linksOf jobs) (Bipartite.build jobs) := by
  have hstart : Wired jobs [] ⟨jobs.map .job, [], []⟩ := by
    refine ⟨⟨[], (append_nil _).symm⟩, ?_, ?_, ?_, ?_⟩
    · intro k o hk
      cases hk
    · intro k k' o hk
      cases hk
    · intro l hl
      cases hl
    · intro e
      constructor
      · intro he
        cases he
      · rintro ⟨l, hl, -⟩
        cases hl
  exact (hstart.foldl_connect .produces (produced jobs)).foldl_connect .consumes (consumed jobs)

theorem mem_attached {references : ConcreteJob → List OutputRef} {jobs : List ConcreteJob}
    {p : ℕ × OutputRef} :
    p ∈ attached references jobs ↔ ∃ job, jobs[p.1]? = some job ∧ p.2 ∈ references job := by
  obtain ⟨i, reference⟩ := p
  simp only [attached, mem_flatMap, mem_map, Prod.mk.injEq]
  constructor
  · rintro ⟨q, hq, _, hmem, rfl, rfl⟩
    exact ⟨q.1, mem_zipIdx_iff_getElem?.mp hq, hmem⟩
  · rintro ⟨job, hjob, hmem⟩
    exact ⟨(job, i), mem_zipIdx_iff_getElem?.mpr hjob, reference, hmem, rfl, rfl⟩

theorem mem_linksOf {jobs : List ConcreteJob} {l : Link} :
    l ∈ linksOf jobs ↔
      (l.1 = .produces ∧ ∃ job, jobs[l.2.1]? = some job ∧ l.2.2 ∈ job.outputs) ∨
      (l.1 = .consumes ∧ ∃ job, jobs[l.2.1]? = some job ∧ l.2.2 ∈ job.inputs) := by
  obtain ⟨_, p⟩ := l
  rw [linksOf, mem_append, mem_map, mem_map]
  constructor
  · rintro (⟨q, hq, heq⟩ | ⟨q, hq, heq⟩)
    · cases heq
      exact Or.inl ⟨rfl, mem_attached.mp hq⟩
    · cases heq
      exact Or.inr ⟨rfl, mem_attached.mp hq⟩
  · rintro (⟨rfl, hjob⟩ | ⟨rfl, hjob⟩)
    · exact Or.inl ⟨p, mem_attached.mpr hjob, rfl⟩
    · exact Or.inr ⟨p, mem_attached.mpr hjob, rfl⟩

/-! ### The shape of the graph -/

/-- How the nodes of the graph are connected. -/
structure Layout (g : JobGraph) (slot : String → Option ℕ) (base : ℕ) : Prop where
  /-- The first nodes are the jobs. -/
  jobs : ∀ (v : ℕ) (job : ConcreteJob), g.jobs[v]? = some job →
    (ofRecords g).nodes[v]? = some (JobNode.job job)
  /-- No other node is a job. -/
  other : ∀ (v : ℕ) (job : ConcreteJob), (ofRecords g).nodes[v]? = some (JobNode.job job) →
    g.jobs[v]? = some job
  /-- The gates lie behind the jobs. -/
  jobs_le : g.jobs.length ≤ base
  /-- Output nodes lie behind the jobs, in front of the gates. -/
  slot_bounds : ∀ k o, slot k = some o → g.jobs.length ≤ o ∧ o < base
  /-- No two keys share a node. -/
  slot_inj : ∀ k k' o, slot k = some o → slot k' = some o → k = k'
  /-- A job is connected with each output it produces. -/
  produces : ∀ (u : ℕ) (job : ConcreteJob) (k : String), g.jobs[u]? = some job →
    k ∈ job.produces → ∃ o, slot k = some o ∧ (ofRecords g).Edge u o
  /-- Each output that a job consumes is connected with it. -/
  consumes : ∀ (v : ℕ) (job : ConcreteJob) (k : String), g.jobs[v]? = some job →
    k ∈ job.consumes → ∃ o, slot k = some o ∧ (ofRecords g).Edge o v
  /-- Every other edge leads from a gate to a job. -/
  edge : ∀ u v, (ofRecords g).Edge u v →
    (∃ job k, g.jobs[u]? = some job ∧ k ∈ job.produces ∧ slot k = some v) ∨
    (∃ job k, g.jobs[v]? = some job ∧ k ∈ job.consumes ∧ slot k = some u) ∨
    (base ≤ u ∧ v < g.jobs.length)
  bounds : ∀ u v, (ofRecords g).Edge u v →
    u < (ofRecords g).nodes.length ∧ v < (ofRecords g).nodes.length

/-- The graph after some gates, over the graph of the jobs. -/
structure Gated (jobs : List ConcreteJob) (n n' : Bipartite) : Prop where
  nodes : ∃ gates : List GateId, n'.nodes = n.nodes ++ gates.map .gate
  keep : ∀ e ∈ n.edges, e ∈ n'.edges
  /-- Only edges from gates to jobs are added. -/
  edge : ∀ e ∈ n'.edges, e ∈ n.edges ∨
    (n.nodes.length ≤ e.1 ∧ e.1 < n'.nodes.length ∧ e.2.1 < jobs.length)

theorem gated_foldl (jobs : List ConcreteJob) (gates : List (GateId × JobId)) (n : Bipartite) :
    Gated jobs n (gates.foldl (fun n p => n.addGate jobs p) n) := by
  have hstep : ∀ (n' : Bipartite) (p : GateId × JobId), Gated jobs n n' →
      Gated jobs n (n'.addGate jobs p) := by
    intro n' p h
    unfold Bipartite.addGate
    cases hindex : jobs.findIdx? fun job => job.id == p.2 with
    | none => exact h
    | some index =>
      obtain ⟨gates', hnodes⟩ := h.nodes
      have hlt : index < jobs.length := by
        obtain ⟨hlt, -⟩ := findIdx?_eq_some_iff_getElem.mp hindex
        exact hlt
      refine ⟨⟨gates' ++ [p.1], ?_⟩, ?_, ?_⟩
      · dsimp only
        rw [hnodes, map_append, append_assoc, map_singleton]
      · intro e he
        exact mem_append_left _ (h.keep e he)
      · intro e he
        have hlength : n.nodes.length ≤ n'.nodes.length := by
          rw [hnodes, length_append]
          exact Nat.le_add_right _ _
        dsimp only
        rw [length_append, length_singleton]
        rcases mem_append.mp he with he | he
        · rcases h.edge e he with hold | ⟨hlow, hhigh, hjob⟩
          · exact Or.inl hold
          · exact Or.inr ⟨hlow, by omega, hjob⟩
        · rw [mem_singleton.mp he]
          exact Or.inr ⟨hlength, by dsimp only; omega, hlt⟩
  have hstart : Gated jobs n n := by
    refine ⟨⟨[], (append_nil _).symm⟩, fun e he => he, fun e he => Or.inl he⟩
  have hall : ∀ (gates : List (GateId × JobId)) (n' : Bipartite), Gated jobs n n' →
      Gated jobs n (gates.foldl (fun n p => n.addGate jobs p) n') := by
    intro gates
    induction gates with
    | nil => exact fun n' h => h
    | cons p gates ih => exact fun n' h => ih _ (hstep n' p h)
  exact hall gates n hstart

theorem exists_layout (g : JobGraph) :
    ∃ slot base, Layout g slot base ∧ base ≤ (ofRecords g).nodes.length := by
  have hwired := wired_build g.jobs
  have hgated := gated_foldl g.jobs g.gates.reverse (Bipartite.build g.jobs)
  obtain ⟨references, hreferences⟩ := hwired.nodes
  obtain ⟨gates, hgates⟩ := hgated.nodes
  have hlookup := hwired.edges
  have hlength : (ofRecords g).nodes.length =
      (Bipartite.build g.jobs).nodes.length + gates.length := by
    rw [show (ofRecords g).nodes = _ from hgates, length_append, length_map]
  have hjobs : g.jobs.length ≤ (Bipartite.build g.jobs).nodes.length := by
    rw [hreferences, length_append, length_map]
    exact Nat.le_add_right _ _
  have hat : ∀ v : ℕ, (ofRecords g).nodes[v]? =
      (g.jobs.map JobNode.job ++ (references.map JobNode.output ++ gates.map .gate))[v]? := by
    intro v
    rw [show (ofRecords g).nodes = _ from hgates, hreferences, append_assoc]
  have hlink : ∀ l ∈ linksOf g.jobs, ∃ o,
      (Bipartite.build g.jobs).outputIndices.lookup (outputRefKey l.2.2) = some o ∧
        edgeOf l.1 l.2.1 o ∈ (ofRecords g).edges := by
    intro l hl
    obtain ⟨o, ho⟩ := hwired.known l hl
    exact ⟨o, ho, hgated.keep _ ((hwired.edges _).mpr ⟨l, hl, o, ho, rfl⟩)⟩
  refine ⟨fun k => (Bipartite.build g.jobs).outputIndices.lookup k,
    (Bipartite.build g.jobs).nodes.length, ⟨?_, ?_, hjobs, hwired.slot_bounds, hwired.slot_inj, ?_,
      ?_, ?_, ?_⟩, by omega⟩
  · intro v job hjob
    obtain ⟨hlt, -⟩ := List.getElem?_eq_some_iff.mp hjob
    rw [hat, getElem?_append_left (by rw [length_map]; exact hlt), getElem?_map,
      hjob]
    rfl
  · intro v job hjob
    rw [hat] at hjob
    by_cases hv : v < g.jobs.length
    · rw [getElem?_append_left (by rw [length_map]; exact hv), getElem?_map] at hjob
      cases hrecord : g.jobs[v]? with
      | none =>
        rw [hrecord] at hjob
        cases hjob
      | some =>
        rw [hrecord] at hjob
        cases hjob
        rfl
    · rw [getElem?_append_right (by rw [length_map]; omega)] at hjob
      have hmem := mem_of_getElem? hjob
      rcases mem_append.mp hmem with hmem | hmem
      · obtain ⟨reference, -, heq⟩ := mem_map.mp hmem
        cases heq
      · obtain ⟨_, -, heq⟩ := mem_map.mp hmem
        cases heq
  · intro u job k hjob hk
    obtain ⟨reference, hmem, rfl⟩ := mem_map.mp hk
    obtain ⟨o, ho, hedge⟩ := hlink (.produces, u, reference)
      (mem_linksOf.mpr (Or.inl ⟨rfl, job, hjob, hmem⟩))
    exact ⟨o, ho, _, hedge⟩
  · intro v job k hjob hk
    obtain ⟨reference, hmem, rfl⟩ := mem_map.mp hk
    obtain ⟨o, ho, hedge⟩ := hlink (.consumes, v, reference)
      (mem_linksOf.mpr (Or.inr ⟨rfl, job, hjob, hmem⟩))
    exact ⟨o, ho, _, hedge⟩
  · rintro u v ⟨kind, he⟩
    rcases hgated.edge _ he with hold | ⟨hlow, -, hhigh⟩
    · obtain ⟨l, hl, o, ho, heq⟩ := (hwired.edges _).mp hold
      rcases mem_linksOf.mp hl with ⟨hkind, job, hjob, hmem⟩ | ⟨hkind, job, hjob, hmem⟩
      · rw [hkind] at heq
        cases heq
        exact Or.inl ⟨job, _, hjob, mem_map_of_mem hmem, ho⟩
      · rw [hkind] at heq
        cases heq
        exact Or.inr (Or.inl ⟨job, _, hjob, mem_map_of_mem hmem, ho⟩)
    · exact Or.inr (Or.inr ⟨hlow, hhigh⟩)
  · rintro u v ⟨kind, he⟩
    rcases hgated.edge _ he with hold | ⟨-, hhigh, hjob⟩
    · obtain ⟨l, hl, o, ho, heq⟩ := (hwired.edges _).mp hold
      have hslot := hwired.slot_bounds _ _ ho
      have hlt : l.2.1 < g.jobs.length := by
        rcases mem_linksOf.mp hl with ⟨-, job, hjob, -⟩ | ⟨-, job, hjob, -⟩
        · exact (List.getElem?_eq_some_iff.mp hjob).1
        · exact (List.getElem?_eq_some_iff.mp hjob).1
      rcases mem_linksOf.mp hl with ⟨hkind, -⟩ | ⟨hkind, -⟩
      · rw [hkind] at heq
        cases heq
        omega
      · rw [hkind] at heq
        cases heq
        omega
    · exact ⟨hhigh, by dsimp only at hjob; omega⟩

/-! ### Paths through skipped jobs -/

/-- A path whose inner nodes satisfy a condition. -/
inductive Bipartite.Path (n : Bipartite) (passes : ℕ → Prop) : ℕ → ℕ → Prop
  | edge {u v : ℕ} : n.Edge u v → Path n passes u v
  /-- An edge to an inner node, and a path from there. -/
  | step {u s v : ℕ} : n.Edge u s → passes s → Path n passes s v → Path n passes u v

def Passes (g : JobGraph) (v : ℕ) : Prop :=
  ∀ job, (ofRecords g).nodes[v]? = some (.job job) → g.isSkipped job.id = true

theorem Bipartite.Path.transGen {n : Bipartite} {passes : ℕ → Prop} {u v : ℕ}
    (h : n.Path passes u v) : Relation.TransGen n.Edge u v := by
  induction h with
  | edge he => exact Relation.TransGen.single he
  | step he _ _ ih => exact Relation.TransGen.head he ih

theorem mem_hop_outgoing {g : JobGraph} {a b : JobId} :
    b ∈ g.hop .outgoing a ↔ ∃ job other k, job ∈ g.jobs ∧ other ∈ g.jobs ∧ job.id = a ∧
      other.id = b ∧ k ∈ job.produces ∧ k ∈ other.consumes := by
  constructor
  · intro h
    cases hfind : g.findJob a with
    | none =>
      rw [JobGraph.hop, hfind] at h
      cases h
    | some job =>
      rw [JobGraph.hop, hfind] at h
      obtain ⟨k, hk, hb⟩ := mem_flatMap.mp h
      obtain ⟨other, hother, hid⟩ := mem_map.mp hb
      obtain ⟨hmem, hconsumes⟩ := mem_filter.mp hother
      have hjob : job.id = a := by simpa using find?_some hfind
      exact ⟨job, other, k, mem_of_find?_eq_some hfind, hmem, hjob, hid, hk,
        of_decide_eq_true hconsumes⟩
  · rintro ⟨job, other, k, hjob, hother, rfl, rfl, hproduces, hconsumes⟩
    rw [JobGraph.hop, findJob_of_mem hjob]
    apply mem_flatMap.mpr
    refine ⟨k, hproduces, ?_⟩
    apply mem_map.mpr
    exact ⟨other, mem_filter.mpr ⟨hother, decide_eq_true hconsumes⟩, rfl⟩

section Paths

variable {g : JobGraph} {slot : String → Option ℕ} {base : ℕ} (layout : Layout g slot base)

include layout

/-- A job leads to its outputs only. -/
theorem Layout.edge_of_job {u v : ℕ} {job : ConcreteJob} (hjob : g.jobs[u]? = some job)
    (h : (ofRecords g).Edge u v) : ∃ k, k ∈ job.produces ∧ slot k = some v := by
  have hlt := (List.getElem?_eq_some_iff.mp hjob).1
  have hle := layout.jobs_le
  rcases layout.edge u v h with ⟨_, k, hjob', hk, hslot⟩ | ⟨_, k, -, -, hslot⟩ | ⟨_, -⟩
  · cases hjob.symm.trans hjob'
    exact ⟨k, hk, hslot⟩
  · have hbounds := layout.slot_bounds k u hslot
    omega
  · omega

/-- An output leads to its consumers only. -/
theorem Layout.edge_of_slot {u v : ℕ} {k : String} (hslot : slot k = some u)
    (h : (ofRecords g).Edge u v) : ∃ job, g.jobs[v]? = some job ∧ k ∈ job.consumes := by
  have hbounds := layout.slot_bounds k u hslot
  rcases layout.edge u v h with ⟨job, k', hjob, -⟩ | ⟨job, k', hjob, hk, hslot'⟩ | ⟨_, -⟩
  · have hlt := (List.getElem?_eq_some_iff.mp hjob).1
    omega
  · rw [layout.slot_inj k k' u hslot hslot']
    exact ⟨job, hjob, hk⟩
  · omega

/-- Every path can go on behind an output. -/
theorem Layout.passes_slot {u : ℕ} {k : String} (hslot : slot k = some u) : Passes g u := by
  intro job hjob
  have hlt := (List.getElem?_eq_some_iff.mp (layout.other u job hjob)).1
  have hbounds := layout.slot_bounds k u hslot
  omega

/-- A path goes on behind a skipped job. -/
theorem Layout.passes_job {v : ℕ} {job : ConcreteJob} (hjob : g.jobs[v]? = some job) :
    Passes g v ↔ g.isSkipped job.id = true := by
  constructor
  · intro h
    exact h job (layout.jobs v job hjob)
  · intro hskipped job' hjob'
    cases hjob.symm.trans (layout.other v job' hjob')
    exact hskipped

/-- A path is a bridge of skipped jobs. -/
theorem Layout.bridge_of_path {u v : ℕ} {target : ConcreteJob} (hv : g.jobs[v]? = some target)
    (h : (ofRecords g).Path (Passes g) u v) :
    (∀ job, g.jobs[u]? = some job →
      Flood.Bridge (g.hop .outgoing) g.isSkipped job.id target.id) ∧
    ∀ k, slot k = some u → ∀ job ∈ g.jobs, k ∈ job.produces →
      Flood.Bridge (g.hop .outgoing) g.isSkipped job.id target.id := by
  induction h with
  | edge he =>
    constructor
    · intro job hjob
      obtain ⟨k, -, hslot⟩ := layout.edge_of_job hjob he
      have hbounds := layout.slot_bounds k _ hslot
      have hlt := (List.getElem?_eq_some_iff.mp hv).1
      omega
    · intro k hslot job hmem hproduces
      obtain ⟨other, hother, hconsumes⟩ := layout.edge_of_slot hslot he
      cases hv.symm.trans hother
      exact .direct (mem_hop_outgoing.mpr
        ⟨job, target, k, hmem, mem_of_getElem? hv, rfl, rfl, hproduces, hconsumes⟩)
  | step he hpasses _ ih =>
    obtain ⟨hjobs, hslots⟩ := ih hv
    constructor
    · intro job hjob
      obtain ⟨k, hproduces, hslot⟩ := layout.edge_of_job hjob he
      exact hslots k hslot job (mem_of_getElem? hjob) hproduces
    · intro k hslot job hmem hproduces
      obtain ⟨other, hother, hconsumes⟩ := layout.edge_of_slot hslot he
      have hhop := mem_hop_outgoing.mpr
        ⟨job, other, k, hmem, mem_of_getElem? hother, rfl, rfl, hproduces, hconsumes⟩
      exact .through hhop ((layout.passes_job hother).mp hpasses) (hjobs other hother)

omit layout in
theorem index_unique {u v : ℕ} {a b : ConcreteJob} (hu : g.jobs[u]? = some a)
    (hv : g.jobs[v]? = some b) (hid : a.id = b.id) : u = v := by
  have hlt : u < (g.jobs.map ConcreteJob.id).length := by
    rw [length_map]
    exact (List.getElem?_eq_some_iff.mp hu).1
  have hmap : (g.jobs.map ConcreteJob.id)[u]? = (g.jobs.map ConcreteJob.id)[v]? := by
    rw [getElem?_map, getElem?_map, hu, hv, Option.map_some, Option.map_some, hid]
  exact (getElem?_inj hlt g.idsNodup).mp hmap

/-- A bridge is a path. -/
theorem Layout.path_of_bridge {a b : JobId}
    (h : Flood.Bridge (g.hop .outgoing) g.isSkipped a b) {u v : ℕ} {job target : ConcreteJob}
    (hu : g.jobs[u]? = some job) (hv : g.jobs[v]? = some target) (ha : job.id = a)
    (hb : target.id = b) : (ofRecords g).Path (Passes g) u v := by
  have hhop : ∀ {x y : JobId}, y ∈ g.hop .outgoing x → ∀ {i j : ℕ} {p q : ConcreteJob},
      g.jobs[i]? = some p → g.jobs[j]? = some q → p.id = x → q.id = y →
      ∃ o, (ofRecords g).Edge i o ∧ Passes g o ∧ (ofRecords g).Edge o j := by
    intro x y hxy i j p q hi hj hp hq
    obtain ⟨p', q', k, hp', hq', hidp, hidq, hproduces, hconsumes⟩ := mem_hop_outgoing.mp hxy
    obtain ⟨_, hi'⟩ := mem_iff_getElem?.mp hp'
    obtain ⟨_, hj'⟩ := mem_iff_getElem?.mp hq'
    have hii := index_unique hi' hi (hidp.trans hp.symm)
    have hjj := index_unique hj' hj (hidq.trans hq.symm)
    rw [hii] at hi'
    rw [hjj] at hj'
    obtain ⟨o, hslot, hedge⟩ := layout.produces i p' k hi' hproduces
    obtain ⟨_, hslot', hedge'⟩ := layout.consumes j q' k hj' hconsumes
    cases hslot.symm.trans hslot'
    exact ⟨o, hedge, layout.passes_slot hslot, hedge'⟩
  induction h generalizing u job with
  | direct hm =>
    obtain ⟨o, hedge, hpasses, hedge'⟩ := hhop hm hu hv ha hb
    exact .step hedge hpasses (.edge hedge')
  | through hm hskipped _ ih =>
    obtain ⟨_, _, _, _, hmiddle, _, hid, _⟩ := mem_hop_outgoing.mp hm
    obtain ⟨s, hs⟩ := mem_iff_getElem?.mp hmiddle
    obtain ⟨o, hedge, hpasses, hedge'⟩ := hhop hm hu hs ha hid
    have hskip : Passes g s := by
      rw [layout.passes_job hs, hid]
      exact hskipped
    exact .step hedge hpasses (.step hedge' hskip (ih hs hid hb))

end Paths

theorem bridge_iff_path {g : JobGraph} {u v : ℕ} {job target : ConcreteJob}
    (hu : g.jobs[u]? = some job) (hv : g.jobs[v]? = some target) :
    Flood.Bridge (g.hop .outgoing) g.isSkipped job.id target.id ↔
      (ofRecords g).Path (Passes g) u v := by
  obtain ⟨_, _, layout, -⟩ := exists_layout g
  constructor
  · intro h
    exact layout.path_of_bridge h hu hv rfl rfl
  · intro h
    exact (layout.bridge_of_path hv h).1 job hu

end OxyMake.NodeGraph
