import OxyMake.Flood
import Mathlib.Data.List.Sort
import Mathlib.Data.String.Basic

/-!
# The physical job graph

Concrete jobs are connected by the keys of the outputs they produce and
consume. Jobs marked as skipped keep their edges: neighbour queries bridge
through them, so a pruned job never cuts the dependency closure. Upstream and
downstream queries return sorted job identifiers without repetition and are
each other's inverse on the jobs that are not skipped. The bipartite petgraph
is represented by its job records; gate nodes are kept with the job they
block, most recent first, the order in which edges are enumerated.
-/

namespace OxyMake.PhysicalGraph

open List
open Flood

abbrev JobId := String

abbrev GateId := String

/-- Delay law between two attempts of a retried job. -/
inductive Backoff
  | constant
  | linear
  | exponential
  deriving DecidableEq, Repr

/-- What a failing job does to the run. -/
inductive ErrorStrategy
  | terminate
  | retry (count : ℕ) (backoff : Backoff)
  | ignore
  | finish
  deriving DecidableEq, Repr

/-- Where an input or output lives. -/
inductive OutputRef
  | file (path : String)
  | virtual (id check : String)
  | inMemory (typeHint : Option String)
  deriving DecidableEq, Repr

def outputRefKey : OutputRef → String
  | .file path => path
  | .virtual id _ => "virtual:" ++ id
  | .inMemory typeHint => "memory:" ++ typeHint.getD "any"

/-- The fields of a concrete job that graph queries and the scheduler read. -/
structure ConcreteJob where
  id : JobId
  rule : String
  inputs : List OutputRef
  outputs : List OutputRef
  errorStrategy : ErrorStrategy
  executor : Option String
  priority : Option ℕ
  deriving DecidableEq, Repr

def ConcreteJob.produces (job : ConcreteJob) : List String := job.outputs.map outputRefKey

def ConcreteJob.consumes (job : ConcreteJob) : List String := job.inputs.map outputRefKey

/-- A job with file inputs and outputs and no settings of its own. -/
def fileJob (id : JobId) (inputs outputs : List String) : ConcreteJob where
  id := id
  rule := id
  inputs := inputs.map .file
  outputs := outputs.map .file
  errorStrategy := .terminate
  executor := none
  priority := none

/-- Graph construction and ordering failures. -/
inductive DagError
  | duplicateJobId (id a b : String)
  | conflictingOutputs (a b output : String)
  | cycleDetected (cycle : List String)
  deriving DecidableEq, Repr

/-- The job graph. Identifiers are unique, as construction enforces. -/
structure JobGraph where
  jobs : List ConcreteJob
  skipped : List JobId
  gates : List (GateId × JobId)
  idsNodup : (jobs.map ConcreteJob.id).Nodup

/-- First job whose identifier an earlier job carries, with that job. -/
def firstDuplicate : List ConcreteJob → List ConcreteJob → Option (ConcreteJob × ConcreteJob)
  | _, [] => none
  | seen, job :: jobs =>
    match seen.find? (fun earlier => earlier.id == job.id) with
    | some earlier => some (earlier, job)
    | none => firstDuplicate (seen ++ [job]) jobs

/-- First output key that another job already owns: owner, offender, key. -/
def firstConflict : List (String × JobId) → List (JobId × String) →
    Option (JobId × JobId × String)
  | _, [] => none
  | owners, (id, key) :: outputs =>
    match owners.lookup key with
    | some owner => if owner = id then firstConflict owners outputs else some (owner, id, key)
    | none => firstConflict ((key, id) :: owners) outputs

theorem nodup_of_firstDuplicate_none {seen jobs : List ConcreteJob}
    (h : firstDuplicate seen jobs = none) :
    (jobs.map ConcreteJob.id).Nodup ∧ ∀ job ∈ jobs, ∀ earlier ∈ seen, earlier.id ≠ job.id := by
  induction jobs generalizing seen with
  | nil => simp
  | cons job jobs ih =>
    rw [firstDuplicate] at h
    cases hf : seen.find? (fun earlier => earlier.id == job.id) with
    | some => rw [hf] at h; cases h
    | none =>
      rw [hf] at h
      obtain ⟨hnodup, hne⟩ := ih h
      have hseen := find?_eq_none.mp hf
      refine ⟨?_, ?_⟩
      · rw [map_cons, nodup_cons]
        refine ⟨?_, hnodup⟩
        intro hm
        obtain ⟨other, ho, heq⟩ := mem_map.mp hm
        exact hne other ho job (by simp) heq.symm
      · intro other ho earlier he
        rcases mem_cons.mp ho with rfl | ho
        · simpa using hseen earlier he
        · exact hne other ho earlier (mem_append_left _ he)

/-- Build a graph from resolved jobs: identifiers must be distinct and no
output key may have two producing jobs. -/
def JobGraph.build (jobs : List ConcreteJob) : Except DagError JobGraph :=
  match h : firstDuplicate [] jobs with
  | some (earlier, job) => .error (.duplicateJobId job.id earlier.rule job.rule)
  | none =>
    match firstConflict [] (jobs.flatMap fun job => job.produces.map fun key => (job.id, key)) with
    | some (owner, id, key) => .error (.conflictingOutputs owner id key)
    | none => .ok ⟨jobs, [], [], (nodup_of_firstDuplicate_none h).1⟩

namespace JobGraph

variable (g : JobGraph)

/-- Look a job up in the index, skipped or not. -/
def findJob (id : JobId) : Option ConcreteJob := g.jobs.find? fun job => job.id == id

def isSkipped (id : JobId) : Bool := decide (id ∈ g.skipped)

/-- Get a job that is present and not skipped. -/
def getJob (id : JobId) : Option ConcreteJob := if g.isSkipped id then none else g.findJob id

/-- All identifiers that are not skipped, in sorted order. -/
def jobIds : List JobId :=
  ((g.jobs.map ConcreteJob.id).filter fun id => !g.isSkipped id).insertionSort (· ≤ ·)

def jobCount : ℕ := g.jobs.length - g.skipped.length

/-- Mark an indexed job as skipped; unknown identifiers are ignored. -/
def markSkipped (id : JobId) : JobGraph :=
  if (g.findJob id).isSome ∧ id ∉ g.skipped then { g with skipped := id :: g.skipped } else g

/-- Add a gate in front of an indexed job. -/
def addGate (gate : GateId) (blocked : JobId) : JobGraph :=
  if (g.findJob blocked).isSome then { g with gates := (gate, blocked) :: g.gates } else g

def blockingGates (id : JobId) : List GateId :=
  if (g.findJob id).isSome then (g.gates.filter fun edge => edge.2 = id).map Prod.fst else []

/-- Edge direction of a neighbour query. -/
inductive Direction
  | incoming
  | outgoing
  deriving DecidableEq

/-- Job nodes two edges away: producers of the inputs or consumers of the
outputs. -/
def hop : Direction → JobId → List JobId
  | .incoming, id =>
    match g.findJob id with
    | none => []
    | some job => job.consumes.flatMap fun key =>
        (g.jobs.filter fun other => key ∈ other.produces).map ConcreteJob.id
  | .outgoing, id =>
    match g.findJob id with
    | none => []
    | some job => job.produces.flatMap fun key =>
        (g.jobs.filter fun other => key ∈ other.consumes).map ConcreteJob.id

/-- Nearest job nodes that are not skipped, walking on through skipped ones. -/
def bridgedJobNeighbors (start : JobId) (dir : Direction) : List JobId :=
  (flood (g.hop dir) g.isSkipped (g.jobs.length + 1) [start] [start]).filter
    fun id => decide (id ≠ start) && !g.isSkipped id

/-- Bridged neighbours of an indexed job, sorted and without repetition. -/
def bridgedNeighborsIds (id : JobId) (dir : Direction) : List JobId :=
  match g.findJob id with
  | none => []
  | some _ => ((g.bridgedJobNeighbors id dir).insertionSort (· ≤ ·)).dedup

def upstream (id : JobId) : List JobId := g.bridgedNeighborsIds id .incoming

def downstream (id : JobId) : List JobId := g.bridgedNeighborsIds id .outgoing

end JobGraph

variable {g : JobGraph}

theorem findJob_of_mem {job : ConcreteJob} (h : job ∈ g.jobs) : g.findJob job.id = some job := by
  have hinj := inj_on_of_nodup_map g.idsNodup
  cases hf : g.findJob job.id with
  | none =>
    have hne := find?_eq_none.mp hf job h
    simp at hne
  | some other =>
    have hid : other.id = job.id := by simpa using find?_some hf
    exact congrArg some (hinj (mem_of_find?_eq_some hf) h hid)

theorem findJob_isSome_iff {id : JobId} :
    (g.findJob id).isSome ↔ id ∈ g.jobs.map ConcreteJob.id := by
  constructor
  · intro h
    obtain ⟨job, hj⟩ := Option.isSome_iff_exists.mp h
    have hid : job.id = id := by simpa using find?_some hj
    exact mem_map.mpr ⟨job, mem_of_find?_eq_some hj, hid⟩
  · intro h
    obtain ⟨job, hm, rfl⟩ := mem_map.mp h
    rw [findJob_of_mem hm]
    rfl

theorem mem_jobIds {id : JobId} :
    id ∈ g.jobIds ↔ id ∈ g.jobs.map ConcreteJob.id ∧ g.isSkipped id = false := by
  rw [JobGraph.jobIds, mem_insertionSort, mem_filter]
  cases g.isSkipped id <;> simp

theorem getJob_of_mem_jobIds {id : JobId} (h : id ∈ g.jobIds) :
    ∃ job, g.getJob id = some job := by
  obtain ⟨hm, hs⟩ := mem_jobIds.mp h
  rw [JobGraph.getJob, hs]
  exact Option.isSome_iff_exists.mp (findJob_isSome_iff.mpr hm)

theorem mem_hop_iff {a b : JobId} : b ∈ g.hop .outgoing a ↔ a ∈ g.hop .incoming b := by
  have key : ∀ {x y : JobId} (f h : ConcreteJob → List String),
      (∃ job, g.findJob x = some job ∧ ∃ k ∈ f job, ∃ other ∈ g.jobs, k ∈ h other ∧ other.id = y) →
      ∃ job, g.findJob y = some job ∧ ∃ k ∈ h job, ∃ other ∈ g.jobs, k ∈ f other ∧ other.id = x := by
    rintro x y f h ⟨job, hj, k, hk, other, ho, hok, rfl⟩
    have hid : job.id = x := by simpa using find?_some hj
    exact ⟨other, findJob_of_mem ho, k, hok, job, mem_of_find?_eq_some hj, hk, hid⟩
  have out : ∀ {x y : JobId}, y ∈ g.hop .outgoing x ↔ ∃ job, g.findJob x = some job ∧
      ∃ k ∈ job.produces, ∃ other ∈ g.jobs, k ∈ other.consumes ∧ other.id = y := by
    intro x y
    cases hf : g.findJob x <;> simp [JobGraph.hop, hf, and_assoc]
  have inc : ∀ {x y : JobId}, y ∈ g.hop .incoming x ↔ ∃ job, g.findJob x = some job ∧
      ∃ k ∈ job.consumes, ∃ other ∈ g.jobs, k ∈ other.produces ∧ other.id = y := by
    intro x y
    cases hf : g.findJob x <;> simp [JobGraph.hop, hf, and_assoc]
  rw [out, inc]
  exact ⟨key ConcreteJob.produces ConcreteJob.consumes,
    key ConcreteJob.consumes ConcreteJob.produces⟩

theorem hop_mem_jobs {dir : JobGraph.Direction} {a b : JobId} (h : b ∈ g.hop dir a) :
    b ∈ g.jobs.map ConcreteJob.id := by
  cases dir <;> cases hf : g.findJob a <;> simp only [JobGraph.hop, hf, not_mem_nil,
    mem_flatMap, mem_map, mem_filter] at h
  all_goals
    obtain ⟨_, _, _, ⟨hm, _⟩, rfl⟩ := h
    exact mem_map_of_mem hm

theorem mem_bridgedNeighborsIds {dir : JobGraph.Direction} {id x : JobId} :
    x ∈ g.bridgedNeighborsIds id dir ↔
      x ≠ id ∧ g.isSkipped x = false ∧ Bridge (g.hop dir) g.isSkipped id x := by
  have hdom : ∀ a, ∀ b ∈ g.hop dir a, b ∈ g.jobs.map ConcreteJob.id :=
    fun a b hb => hop_mem_jobs hb
  have hmem : x ∈ flood (g.hop dir) g.isSkipped (g.jobs.length + 1) [id] [id] ↔
      x = id ∨ Bridge (g.hop dir) g.isSkipped id x := mem_flood hdom (by rw [length_map]) x
  cases hf : g.findJob id with
  | none =>
    rw [JobGraph.bridgedNeighborsIds, hf]
    refine ⟨fun h => absurd h not_mem_nil, ?_⟩
    rintro ⟨_, _, hb⟩
    have hnil : g.hop dir id = [] := by cases dir <;> simp [JobGraph.hop, hf]
    cases hb with
    | direct hm => rw [hnil] at hm; exact hm
    | through hm => rw [hnil] at hm; exact absurd hm not_mem_nil
  | some =>
    rw [JobGraph.bridgedNeighborsIds, hf]
    simp only [mem_dedup, mem_insertionSort, JobGraph.bridgedJobNeighbors,
      mem_filter, hmem, Bool.and_eq_true, decide_eq_true_eq, Bool.not_eq_true']
    tauto

theorem mem_upstream_iff_mem_downstream {u d : JobId}
    (hu : g.isSkipped u = false) (hd : g.isSkipped d = false) :
    u ∈ g.upstream d ↔ d ∈ g.downstream u := by
  rw [JobGraph.upstream, JobGraph.downstream, mem_bridgedNeighborsIds, mem_bridgedNeighborsIds]
  constructor
  · rintro ⟨hne, _, hb⟩
    exact ⟨hne.symm, hd, hb.reverse fun a b hab => mem_hop_iff.mpr hab⟩
  · rintro ⟨hne, _, hb⟩
    exact ⟨hne.symm, hu, hb.reverse fun a b hab => mem_hop_iff.mp hab⟩

theorem upstream_nodup (id : JobId) : (g.upstream id).Nodup := by
  unfold JobGraph.upstream JobGraph.bridgedNeighborsIds
  split
  · exact nodup_nil
  · exact nodup_dedup _

theorem downstream_nodup (id : JobId) : (g.downstream id).Nodup := by
  unfold JobGraph.downstream JobGraph.bridgedNeighborsIds
  split
  · exact nodup_nil
  · exact nodup_dedup _

theorem bridgedNeighborsIds_mem_jobIds {dir : JobGraph.Direction} {id x : JobId}
    (h : x ∈ g.bridgedNeighborsIds id dir) : x ∈ g.jobIds := by
  obtain ⟨_, hs, hb⟩ := mem_bridgedNeighborsIds.mp h
  obtain ⟨c, hc⟩ := hb.target
  exact mem_jobIds.mpr ⟨hop_mem_jobs hc, hs⟩

theorem getJob_id {id : JobId} {job : ConcreteJob} (h : g.getJob id = some job) : job.id = id := by
  unfold JobGraph.getJob JobGraph.findJob at h
  split at h
  · cases h
  · simpa using find?_some h

theorem jobIds_nodup : g.jobIds.Nodup :=
  ((perm_insertionSort _ _).nodup_iff).mpr (g.idsNodup.filter _)

theorem not_mem_downstream_self (id : JobId) : id ∉ g.downstream id := fun h =>
  (mem_bridgedNeighborsIds.mp h).1 rfl

/-- A topological order of the enumerated jobs, as a successful sort of an
acyclic graph returns it: every job once, after all its upstream jobs. -/
structure TopologicalOrder (g : JobGraph) where
  order : List JobId
  nodup : order.Nodup
  /-- Exactly the enumerated jobs are listed. -/
  mem_iff : ∀ id, id ∈ order ↔ id ∈ g.jobIds
  before : ∀ earlier id later, order = earlier ++ id :: later →
    ∀ u ∈ g.upstream id, u ∈ earlier

def TopologicalOrder.ofPrefixes (order : List JobId) (nodup : order.Nodup)
    (complete : order ⊆ g.jobIds ∧ g.jobIds ⊆ order)
    (before : ∀ k : Fin order.length, g.upstream (order.get k) ⊆ order.take k) :
    TopologicalOrder g where
  order := order
  nodup := nodup
  mem_iff := fun _ => ⟨fun h => complete.1 h, fun h => complete.2 h⟩
  before := by
    rintro earlier id later rfl u hu
    have hk : earlier.length < (earlier ++ id :: later).length := by simp
    have htake := before ⟨earlier.length, hk⟩
    have hget : (earlier ++ id :: later).get ⟨earlier.length, hk⟩ = id := by simp
    rw [hget] at htake
    have hmem := htake hu
    simpa using hmem

section Next

variable (topo : TopologicalOrder g) {done later : List JobId} {id : JobId}

theorem TopologicalOrder.next_not_mem (hsplit : topo.order = done ++ id :: later) : id ∉ done := by
  have hnodup := topo.nodup
  rw [hsplit] at hnodup
  intro hid
  exact disjoint_of_nodup_append hnodup hid mem_cons_self

theorem TopologicalOrder.upstream_ne_next (hsplit : topo.order = done ++ id :: later) {x u : JobId}
    (hx : x ∈ done) (hu : u ∈ g.upstream x) : u ≠ id := by
  obtain ⟨front, back, hdone⟩ := append_of_mem hx
  have horder : topo.order = front ++ x :: (back ++ id :: later) := by
    rw [hsplit, hdone, append_assoc, cons_append]
  have hfront := topo.before _ _ _ horder u hu
  have hnodup := topo.nodup
  rw [horder] at hnodup
  intro heq
  rw [heq] at hfront
  have hdisjoint := disjoint_of_nodup_append hnodup hfront
  exact hdisjoint (.tail x (mem_append_right back mem_cons_self))

end Next

end OxyMake.PhysicalGraph
