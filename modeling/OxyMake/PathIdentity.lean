import OxyMake.PhysicalGraph

/-!
# Edges and the identity of paths

The graph compares outputs and inputs by their keys, a path by its text; paths
themselves are equal when their components are. A list of jobs that is accepted
has the edges of path identity exactly when outputs of different jobs that are one
path are written alike, and a job that makes an input of another shares a key with
it.
-/

namespace OxyMake.PathIdentity

open List
open PhysicalGraph Flood

/-! ### Paths -/

inductive Component
  | rootDir
  | curDir
  | parentDir
  | normal (name : List Char)
  deriving DecidableEq, Repr

/-- The component a part between separators stands for; doubled separators and dots are none. -/
def partComponent (part : List Char) : Option Component :=
  if part = [] ∨ part = ['.'] then none
  else if part = ['.', '.'] then some .parentDir
  else some (.normal part)

/-- Components of a path. A dot counts where it starts a relative path. -/
def components (path : List Char) : List Component :=
  let parts := path.splitOn '/'
  (if path.head? = some '/' then [.rootDir]
    else if parts.head? = some ['.'] then [.curDir]
    else []) ++ parts.filterMap partComponent

def SamePath (p q : String) : Prop := components p.toList = components q.toList

instance (p q : String) : Decidable (SamePath p q) :=
  inferInstanceAs (Decidable (components p.toList = components q.toList))

/-! ### Accepted lists -/

theorem exists_owner {owners : List (String × JobId)} {outputs : List (JobId × String)}
    (h : firstConflict owners outputs = none) :
    ∃ owner : String → JobId, (∀ key id, owners.lookup key = some id → owner key = id) ∧
      ∀ id key, (id, key) ∈ outputs → owner key = id := by
  induction outputs generalizing owners with
  | nil =>
    refine ⟨fun key => (owners.lookup key).getD "", ?_, ?_⟩
    · intro key id hlookup
      dsimp only
      rw [hlookup]
      rfl
    · intro id key hmem
      cases hmem
  | cons output outputs ih =>
    obtain ⟨first, firstKey⟩ := output
    rw [firstConflict] at h
    cases hlookup : owners.lookup firstKey with
    | some id =>
      rw [hlookup] at h
      dsimp only at h
      split_ifs at h with hsame
      obtain ⟨owner, howned, hall⟩ := ih h
      refine ⟨owner, howned, ?_⟩
      intro id' key hmem
      rcases mem_cons.mp hmem with heq | hmem
      · cases heq
        exact (howned firstKey id hlookup).trans hsame
      · exact hall id' key hmem
    | none =>
      rw [hlookup] at h
      obtain ⟨owner, howned, hall⟩ := ih h
      refine ⟨owner, ?_, ?_⟩
      · intro key id hother
        have hne : key ≠ firstKey := by
          intro heq
          rw [heq, hlookup] at hother
          cases hother
        apply howned
        rw [lookup_cons, beq_eq_false_iff_ne.mpr hne]
        exact hother
      · intro id' key hmem
        rcases mem_cons.mp hmem with heq | hmem
        · cases heq
          exact howned firstKey first lookup_cons_self
        · exact hall id' key hmem

theorem accepted_of_build {jobs : List ConcreteJob} {g : JobGraph}
    (h : JobGraph.build jobs = .ok g) :
    g.jobs = jobs ∧ g.skipped = [] ∧
      ∀ a ∈ jobs, ∀ b ∈ jobs, ∀ key ∈ a.produces, key ∈ b.produces → a = b := by
  unfold JobGraph.build at h
  split at h
  · cases h
  · rename_i hduplicate
    split at h
    · cases h
    · rename_i hconflict
      cases h
      refine ⟨rfl, rfl, ?_⟩
      intro a ha b hb key hkey hkey'
      obtain ⟨owner, -, hall⟩ := exists_owner hconflict
      have howner : ∀ job ∈ jobs, key ∈ job.produces → owner key = job.id := by
        intro job hjob hmem
        exact hall _ _ (mem_flatMap.mpr ⟨job, hjob, mem_map.mpr ⟨key, hmem, rfl⟩⟩)
      have hid : a.id = b.id := (howner a ha hkey).symm.trans (howner b hb hkey')
      have hnodup := (nodup_of_firstDuplicate_none hduplicate).1
      exact inj_on_of_nodup_map hnodup ha hb hid

theorem mem_upstream_iff {g : JobGraph} (hskipped : g.skipped = []) {a b : ConcreteJob}
    (ha : a ∈ g.jobs) (hb : b ∈ g.jobs) (hne : a ≠ b) :
    a.id ∈ g.upstream b.id ↔ ∃ key ∈ a.produces, key ∈ b.consumes := by
  have hnot : ∀ id, g.isSkipped id = false := by
    intro id
    unfold JobGraph.isSkipped
    rw [hskipped]
    exact decide_eq_false not_mem_nil
  have hid : a.id ≠ b.id := fun heq => hne (inj_on_of_nodup_map g.idsNodup ha hb heq)
  have hbridge : Bridge (g.hop .incoming) g.isSkipped b.id a.id ↔ a.id ∈ g.hop .incoming b.id := by
    constructor
    · intro h
      cases h with
      | direct hmem => exact hmem
      | through _ hpass =>
        rw [hnot] at hpass
        cases hpass
    · exact Bridge.direct
  rw [JobGraph.upstream, mem_bridgedNeighborsIds, hbridge]
  unfold JobGraph.hop
  dsimp only
  rw [findJob_of_mem hb]
  dsimp only
  constructor
  · rintro ⟨-, -, hmem⟩
    obtain ⟨key, hkey, hmem⟩ := mem_flatMap.mp hmem
    obtain ⟨_, hother, heq⟩ := mem_map.mp hmem
    obtain ⟨hother, hmakes⟩ := mem_filter.mp hother
    have hsame := inj_on_of_nodup_map g.idsNodup hother ha heq
    subst hsame
    exact ⟨key, of_decide_eq_true hmakes, hkey⟩
  · rintro ⟨key, hmakes, hreads⟩
    refine ⟨hid, hnot _, mem_flatMap.mpr ⟨key, hreads, mem_map.mpr ⟨a, ?_, rfl⟩⟩⟩
    exact mem_filter.mpr ⟨ha, decide_eq_true hmakes⟩

/-! ### Path identity -/

/-- Outputs of different jobs are different paths, and a job that makes a path another reads is
upstream of it. -/
structure FollowsPaths (jobs : List ConcreteJob) (g : JobGraph) : Prop where
  /-- No path is made by two jobs. -/
  outputs : ∀ a ∈ jobs, ∀ b ∈ jobs, a ≠ b → ∀ p q, .file p ∈ a.outputs → .file q ∈ b.outputs →
    ¬ SamePath p q
  /-- A job that makes an input is upstream, and the job that reads it downstream. -/
  edges : ∀ a ∈ jobs, ∀ b ∈ jobs, a ≠ b → ∀ p q, .file p ∈ a.outputs → .file q ∈ b.inputs →
    SamePath q p → a.id ∈ g.upstream b.id ∧ b.id ∈ g.downstream a.id

/-- Outputs that are one path are written alike, and jobs that are connected by a path share a
key. -/
structure WrittenAlike (jobs : List ConcreteJob) : Prop where
  /-- Two outputs that are one path have one text. -/
  outputs : ∀ a ∈ jobs, ∀ b ∈ jobs, a ≠ b → ∀ p q, .file p ∈ a.outputs → .file q ∈ b.outputs →
    SamePath p q → p = q
  /-- A job that makes an input makes a key the other reads. -/
  edges : ∀ a ∈ jobs, ∀ b ∈ jobs, a ≠ b → ∀ p q, .file p ∈ a.outputs → .file q ∈ b.inputs →
    SamePath q p → ∃ key ∈ a.produces, key ∈ b.consumes

theorem not_skipped_of_build {jobs : List ConcreteJob} {g : JobGraph}
    (h : JobGraph.build jobs = .ok g) (id : JobId) : g.isSkipped id = false := by
  obtain ⟨-, hskipped, -⟩ := accepted_of_build h
  unfold JobGraph.isSkipped
  rw [hskipped]
  exact decide_eq_false not_mem_nil

theorem followsPaths_of_writtenAlike {jobs : List ConcreteJob} {g : JobGraph}
    (h : JobGraph.build jobs = .ok g) (halike : WrittenAlike jobs) : FollowsPaths jobs g := by
  obtain ⟨hjobs, hskipped, howned⟩ := accepted_of_build h
  have hnot := not_skipped_of_build h
  refine ⟨?_, ?_⟩
  · intro a ha b hb hne p q hp hq hsame
    have htext := halike.outputs a ha b hb hne p q hp hq hsame
    subst htext
    have hkey : ∀ {job : ConcreteJob}, .file p ∈ job.outputs → p ∈ job.produces :=
      fun hmem => mem_map_of_mem (f := outputRefKey) hmem
    exact hne (howned a ha b hb p (hkey hp) (hkey hq))
  · intro a ha b hb hne p q hp hq hsame
    have hshared := halike.edges a ha b hb hne p q hp hq hsame
    rw [← hjobs] at ha hb
    have hup := (mem_upstream_iff hskipped ha hb hne).mpr hshared
    exact ⟨hup, (mem_upstream_iff_mem_downstream (hnot _) (hnot _)).mp hup⟩

/-- An accepted list has the edges of path identity exactly when it is written alike. -/
theorem follows_paths_iff (jobs : List ConcreteJob) (g : JobGraph)
    (h : JobGraph.build jobs = .ok g) : FollowsPaths jobs g ↔ WrittenAlike jobs := by
  constructor
  · intro hfollows
    obtain ⟨hjobs, hskipped, -⟩ := accepted_of_build h
    refine ⟨?_, ?_⟩
    · intro a ha b hb hne p q hp hq hsame
      exact absurd hsame (hfollows.outputs a ha b hb hne p q hp hq)
    · intro a ha b hb hne p q hp hq hsame
      have hup := (hfollows.edges a ha b hb hne p q hp hq hsame).1
      rw [← hjobs] at ha hb
      exact (mem_upstream_iff hskipped ha hb hne).mp hup
  · exact followsPaths_of_writtenAlike h

def readingChain : List ConcreteJob :=
  [fileJob "make" [] ["data/a.csv"], fileJob "read" ["data/a.csv"] ["b.csv"]]

theorem writtenAlike_chain : WrittenAlike readingChain where
  outputs a ha b hb _ p q hp hq hsame := by
    have hfile : ∀ a ∈ readingChain, ∀ p, .file p ∈ a.outputs → p ∈ ["data/a.csv", "b.csv"] := by
      simp [readingChain, fileJob]
    have hspelled : ∀ p ∈ ["data/a.csv", "b.csv"], ∀ q ∈ ["data/a.csv", "b.csv"],
        SamePath p q → p = q := by decide
    exact hspelled p (hfile a ha p hp) q (hfile b hb q hq) hsame
  edges a ha b hb hne p q hp hq _ := by
    rcases List.mem_pair.mp hb with rfl | rfl
    · cases hq
    · rcases List.mem_pair.mp ha with rfl | rfl
      · exact ⟨"data/a.csv", mem_cons_self, mem_cons_self⟩
      · exact absurd rfl hne

/-- The edges of a chain of two jobs follow its paths. -/
theorem follows_paths_iff_chain : FollowsPaths readingChain ⟨readingChain, [], [], by decide⟩ :=
  (follows_paths_iff _ _ rfl).mpr writtenAlike_chain

/-- Two jobs that write one file under two texts are accepted. -/
theorem not_follows_paths :
    ¬ ∀ (jobs : List ConcreteJob) (g : JobGraph), JobGraph.build jobs = .ok g →
      FollowsPaths jobs g := by
  intro hall
  have hfollows := hall [fileJob "first" [] ["data/a.csv"], fileJob "second" [] ["data//a.csv"]]
    ⟨_, [], [], by decide⟩ rfl
  exact hfollows.outputs (fileJob "first" [] ["data/a.csv"]) mem_cons_self
    (fileJob "second" [] ["data//a.csv"]) (.tail _ (.head _)) (by decide)
    "data/a.csv" "data//a.csv" mem_cons_self mem_cons_self (by decide)

end OxyMake.PathIdentity
