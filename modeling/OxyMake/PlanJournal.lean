import Mathlib.Data.Finset.Basic
import Mathlib.Data.Finset.Lattice.Lemmas
import Mathlib.Data.List.Infix

/-!
# Plans with a journal

A search for a plan adds jobs, the goals they make and the leaves it found, and
takes back what an abandoned branch added. The sets of goals and leaves keep a
log of their insertions, and going back to a checkpoint restores exactly the
plan of that moment. What a search adds for some goals is described by a relation
that composes along the search: jobs come in dependency order, every goal is made
or is a leaf, and nothing is added that no goal needs.
-/

namespace OxyMake.PlanJournal

open List

/-! ### Sets with a log -/

/-- A set and the log of its insertions. -/
structure Journal (α : Type) [DecidableEq α] where
  members : Finset α
  log : List α
  nodup : log.Nodup
  /-- The elements are the logged ones. -/
  agrees : log.toFinset = members

namespace Journal

variable {α : Type} [DecidableEq α]

def empty : Journal α := ⟨∅, [], nodup_nil, rfl⟩

theorem mem_members_iff (j : Journal α) (a : α) : a ∈ j.members ↔ a ∈ j.log := by
  rw [← j.agrees, mem_toFinset]

theorem eq_of_log_eq {j j' : Journal α} (h : j.log = j'.log) : j = j' := by
  obtain ⟨_, _, _, agrees⟩ := j
  obtain ⟨_, _, _, agrees'⟩ := j'
  cases h
  cases agrees
  cases agrees'
  rfl

/-- Insert an element and log it if it is new. -/
def insert (a : α) (j : Journal α) : Journal α :=
  if h : a ∈ j.members then j
  else
    { members := Insert.insert a j.members
      log := j.log ++ [a]
      nodup := by
        rw [mem_members_iff] at h
        rw [nodup_append]
        refine ⟨j.nodup, nodup_singleton a, ?_⟩
        intro b hb c hc
        rw [mem_singleton.mp hc]
        rintro rfl
        exact h hb
      agrees := by
        rw [toFinset_append, j.agrees, toFinset_cons, toFinset_nil,
          insert_empty_eq, Finset.union_comm, Finset.singleton_union] }

/-- The elements after an insertion. -/
@[simp]
theorem mem_insert (a b : α) (j : Journal α) :
    b ∈ (j.insert a).members ↔ b = a ∨ b ∈ j.members := by
  unfold insert
  split_ifs with h
  · refine ⟨Or.inr, ?_⟩
    rintro (rfl | hb)
    · exact h
    · exact hb
  · exact Finset.mem_insert

theorem log_prefix_insert (a : α) (j : Journal α) : j.log <+: (j.insert a).log := by
  unfold insert
  split_ifs
  · exact prefix_refl _
  · exact prefix_append _ _

theorem foldl_erase (l : List α) (s : Finset α) : l.foldl Finset.erase s = s \ l.toFinset := by
  induction l generalizing s with
  | nil => rw [foldl_nil, toFinset_nil, Finset.sdiff_empty]
  | cons a l ih =>
    rw [foldl_cons, ih, toFinset_cons, Finset.sdiff_insert, Finset.erase_sdiff_comm]

/-- Take back the insertions after the first `n` ones. -/
def rollback (n : ℕ) (j : Journal α) : Journal α where
  members := (j.log.drop n).foldl Finset.erase j.members
  log := j.log.take n
  nodup := j.nodup.sublist (take_sublist n j.log)
  agrees := by
    have hdisjoint : Disjoint (j.log.take n).toFinset (j.log.drop n).toFinset := by
      rw [disjoint_toFinset_iff_disjoint]
      exact disjoint_take_drop j.nodup (le_refl n)
    have hall : (j.log.take n).toFinset ∪ (j.log.drop n).toFinset = j.members := by
      rw [← toFinset_append, take_append_drop, j.agrees]
    rw [foldl_erase, ← hall, Finset.union_sdiff_cancel_right hdisjoint]

theorem rollback_of_prefix {j j' : Journal α} (h : j.log <+: j'.log) :
    j'.rollback j.log.length = j := by
  refine eq_of_log_eq ?_
  obtain ⟨_, hadded⟩ := h
  unfold rollback
  dsimp only
  rw [← hadded, take_left]

end Journal

/-! ### Plans -/

/-- Jobs with the goals they make and the leaves found. -/
structure Plan (Goal Job Leaf : Type) [DecidableEq Goal] [DecidableEq Leaf] where
  jobs : List Job
  produced : Journal Goal
  sources : Journal Leaf

namespace Plan

variable {Goal Job Leaf : Type} [DecidableEq Goal] [DecidableEq Leaf]

def empty : Plan Goal Job Leaf := ⟨[], Journal.empty, Journal.empty⟩

def addSource (leaf : Leaf) (p : Plan Goal Job Leaf) : Plan Goal Job Leaf :=
  { p with sources := p.sources.insert leaf }

def addProduced (goals : List Goal) (p : Plan Goal Job Leaf) : Plan Goal Job Leaf :=
  { p with produced := goals.foldl (fun j g => j.insert g) p.produced }

def push (job : Job) (p : Plan Goal Job Leaf) : Plan Goal Job Leaf :=
  { p with jobs := p.jobs ++ [job] }

/-- Go back to a checkpoint of the jobs and of both logs. -/
def rollback (jobs produced sources : ℕ) (p : Plan Goal Job Leaf) : Plan Goal Job Leaf where
  jobs := p.jobs.take jobs
  produced := p.produced.rollback produced
  sources := p.sources.rollback sources

/-- Nothing of a plan was taken back. -/
structure Extends (p p' : Plan Goal Job Leaf) : Prop where
  jobs : p.jobs <+: p'.jobs
  produced : p.produced.log <+: p'.produced.log
  sources : p.sources.log <+: p'.sources.log

theorem Extends.refl (p : Plan Goal Job Leaf) : p.Extends p :=
  ⟨prefix_refl _, prefix_refl _, prefix_refl _⟩

theorem Extends.trans {p p' p'' : Plan Goal Job Leaf} (h : p.Extends p') (h' : p'.Extends p'') :
    p.Extends p'' :=
  ⟨h.jobs.trans h'.jobs, h.produced.trans h'.produced, h.sources.trans h'.sources⟩

theorem Extends.mem_produced {p p' : Plan Goal Job Leaf} (h : p.Extends p') {g : Goal}
    (hg : g ∈ p.produced.members) : g ∈ p'.produced.members := by
  rw [Journal.mem_members_iff] at hg ⊢
  exact h.produced.subset hg

theorem Extends.mem_sources {p p' : Plan Goal Job Leaf} (h : p.Extends p') {l : Leaf}
    (hl : l ∈ p.sources.members) : l ∈ p'.sources.members := by
  rw [Journal.mem_members_iff] at hl ⊢
  exact h.sources.subset hl

theorem rollback_of_extends {p p' : Plan Goal Job Leaf} (h : p.Extends p') :
    p'.rollback p.jobs.length p.produced.log.length p.sources.log.length = p := by
  obtain ⟨_, hadded⟩ := h.jobs
  unfold rollback
  rw [Journal.rollback_of_prefix h.produced, Journal.rollback_of_prefix h.sources, ← hadded,
    take_left]

theorem extends_addSource (leaf : Leaf) (p : Plan Goal Job Leaf) : p.Extends (p.addSource leaf) :=
  ⟨prefix_refl _, prefix_refl _, Journal.log_prefix_insert _ _⟩

theorem mem_addProduced (goals : List Goal) (p : Plan Goal Job Leaf) (g : Goal) :
    g ∈ (p.addProduced goals).produced.members ↔ g ∈ p.produced.members ∨ g ∈ goals := by
  unfold addProduced
  dsimp only
  induction goals generalizing p with
  | nil => simp only [foldl_nil, not_mem_nil, or_false]
  | cons a goals ih =>
    rw [foldl_cons, ih { p with produced := p.produced.insert a }]
    dsimp only
    rw [Journal.mem_insert, mem_cons]
    tauto

theorem extends_addProduced (goals : List Goal) (p : Plan Goal Job Leaf) :
    p.Extends (p.addProduced goals) := by
  refine ⟨prefix_refl _, ?_, prefix_refl _⟩
  unfold addProduced
  dsimp only
  induction goals generalizing p with
  | nil => exact prefix_refl _
  | cons a goals ih =>
    rw [foldl_cons]
    exact (Journal.log_prefix_insert a p.produced).trans
      (ih { p with produced := p.produced.insert a })

theorem extends_push (job : Job) (p : Plan Goal Job Leaf) : p.Extends (p.push job) :=
  ⟨prefix_append _ _, prefix_refl _, prefix_refl _⟩

end Plan

/-! ### What a search adds -/

/-- What jobs need and make, and which goals are leaves. -/
structure Domain (Goal Job Leaf : Type) where
  inputs : Job → List Goal
  outputs : Job → List Goal
  leaf : Goal → Leaf
  /-- The job was added for the goal. -/
  Made : Job → Goal → Prop
  /-- The goal may be a leaf. -/
  IsLeaf : Goal → Prop

variable {Goal Job Leaf : Type} {d : Domain Goal Job Leaf}

/-- A goal is needed by the roots or by one of the jobs. -/
def Domain.Needs (d : Domain Goal Job Leaf) (roots : List Goal) (jobs : List Job) (g : Goal) :
    Prop :=
  g ∈ roots ∨ ∃ j ∈ jobs, g ∈ d.inputs j

theorem Domain.Needs.mono {roots roots' : List Goal} {jobs jobs' : List Job} {g : Goal}
    (h : d.Needs roots jobs g) (hroots : roots ⊆ roots') (hjobs : jobs ⊆ jobs') :
    d.Needs roots' jobs' g := by
  rcases h with hg | ⟨j, hj, hg⟩
  · exact .inl (hroots hg)
  · exact .inr ⟨j, hjobs hj, hg⟩

section Added

variable [DecidableEq Goal] [DecidableEq Leaf]

def Domain.FoundIn (d : Domain Goal Job Leaf) (p : Plan Goal Job Leaf) (g : Goal) : Prop :=
  d.IsLeaf g ∧ d.leaf g ∈ p.sources.members

/-- A search for some goals added jobs to a plan. -/
structure Added (d : Domain Goal Job Leaf) (roots : List Goal) (new : List Job)
    (p p' : Plan Goal Job Leaf) : Prop where
  jobs : p'.jobs = p.jobs ++ new
  grown : p.Extends p'
  /-- What is produced are the outputs. -/
  produced : ∀ g, g ∈ p'.produced.members ↔
    g ∈ p.produced.members ∨ ∃ j ∈ new, g ∈ d.outputs j
  /-- The goals are made or found. -/
  satisfied : ∀ g ∈ roots, g ∈ p'.produced.members ∨ d.FoundIn p' g
  /-- Inputs are made by earlier jobs or found. -/
  ordered : ∀ before j after, new = before ++ j :: after → ∀ g ∈ d.inputs j,
    g ∈ p.produced.members ∨ (∃ j' ∈ before, g ∈ d.outputs j') ∨ d.FoundIn p' g
  /-- Every job was added for something that is needed. -/
  needed : ∀ j ∈ new, ∃ g ∈ d.outputs j, d.Made j g ∧ d.Needs roots new g
  sourced : ∀ l ∈ p'.sources.members, l ∈ p.sources.members ∨
    ∃ g, d.leaf g = l ∧ d.IsLeaf g ∧ d.Needs roots new g

theorem Domain.FoundIn.grow {p p' : Plan Goal Job Leaf} {g : Goal} (h : d.FoundIn p g)
    (hgrown : p.Extends p') : d.FoundIn p' g :=
  ⟨h.1, hgrown.mem_sources h.2⟩

theorem Added.nil (p : Plan Goal Job Leaf) : Added d [] [] p p where
  jobs := (append_nil _).symm
  grown := Plan.Extends.refl p
  produced := by
    intro g
    simp only [not_mem_nil, false_and, exists_false, or_false]
  satisfied := fun g hg => nomatch hg
  ordered := by
    intro before j after hsplit
    cases before <;> cases hsplit
  needed := fun j hj => nomatch hj
  sourced := fun l hl => .inl hl

theorem Added.produced_root {p : Plan Goal Job Leaf} {g : Goal} (h : g ∈ p.produced.members) :
    Added d [g] [] p p :=
  { Added.nil p with
    satisfied := by
      intro g' hg'
      rw [mem_singleton.mp hg']
      exact .inl h
    needed := fun j hj => nomatch hj
    sourced := fun l hl => .inl hl }

theorem Added.leaf_root {g : Goal} (h : d.IsLeaf g) (p : Plan Goal Job Leaf) :
    Added d [g] [] p (p.addSource (d.leaf g)) where
  jobs := (append_nil _).symm
  grown := Plan.extends_addSource _ p
  produced := (Added.nil (d := d) p).produced
  satisfied := by
    intro g' hg'
    rw [mem_singleton.mp hg']
    exact .inr ⟨h, (Journal.mem_insert _ _ _).mpr (.inl rfl)⟩
  ordered := by
    intro before j after hsplit
    cases before <;> cases hsplit
  needed := fun j hj => nomatch hj
  sourced := by
    intro l hl
    rcases (Journal.mem_insert _ _ _).mp hl with rfl | hl
    · exact .inr ⟨g, rfl, h, .inl mem_cons_self⟩
    · exact .inl hl

theorem Added.append {roots roots' : List Goal} {new new' : List Job}
    {p p' p'' : Plan Goal Job Leaf} (h : Added d roots new p p')
    (h' : Added d roots' new' p' p'') :
    Added d (roots ++ roots') (new ++ new') p p'' where
  jobs := by rw [h'.jobs, h.jobs, append_assoc]
  grown := h.grown.trans h'.grown
  produced := by
    intro g
    rw [h'.produced, h.produced]
    simp only [mem_append, or_and_right, exists_or, or_assoc]
  satisfied := by
    intro g hg
    rcases mem_append.mp hg with hg | hg
    · rcases h.satisfied g hg with hmade | hfound
      · exact .inl (h'.grown.mem_produced hmade)
      · exact .inr (hfound.grow h'.grown)
    · exact h'.satisfied g hg
  ordered := by
    intro before j after hsplit g hg
    rcases append_eq_append_iff.mp hsplit with ⟨rest, hbefore, hnew'⟩ | ⟨rest, hnew, hafter⟩
    · rcases h'.ordered rest j after hnew' g hg with hmade | ⟨j', hj', hout⟩ | hfound
      · rcases (h.produced g).mp hmade with hmade | ⟨j', hj', hout⟩
        · exact .inl hmade
        · refine .inr (.inl ⟨j', ?_, hout⟩)
          rw [hbefore]
          exact mem_append_left _ hj'
      · refine .inr (.inl ⟨j', ?_, hout⟩)
        rw [hbefore]
        exact mem_append_right _ hj'
      · exact .inr (.inr hfound)
    · cases rest with
      | nil =>
        rw [append_nil] at hnew
        subst hnew
        rw [nil_append] at hafter
        rcases h'.ordered [] j after hafter.symm g hg with hmade | ⟨j', hj', -⟩ | hfound
        · rcases (h.produced g).mp hmade with hmade | hmade
          · exact .inl hmade
          · exact .inr (.inl hmade)
        · cases hj'
        · exact .inr (.inr hfound)
      | cons a rest =>
        rw [cons_append] at hafter
        obtain ⟨rfl, -⟩ := cons_eq_cons.mp hafter
        rcases h.ordered before j rest hnew g hg with hmade | hmade | hfound
        · exact .inl hmade
        · exact .inr (.inl hmade)
        · exact .inr (.inr (hfound.grow h'.grown))
  needed := by
    intro j hj
    rcases mem_append.mp hj with hj | hj
    · obtain ⟨g, hg, hmade, hneeds⟩ := h.needed j hj
      exact ⟨g, hg, hmade, hneeds.mono (subset_append_left _ _) (subset_append_left _ _)⟩
    · obtain ⟨g, hg, hmade, hneeds⟩ := h'.needed j hj
      exact ⟨g, hg, hmade,
        hneeds.mono (subset_append_right _ _) (subset_append_right _ _)⟩
  sourced := by
    intro l hl
    rcases h'.sourced l hl with hl | ⟨g, hleaf, his, hneeds⟩
    · rcases h.sourced l hl with hl | ⟨g, hleaf, his, hneeds⟩
      · exact .inl hl
      · exact .inr ⟨g, hleaf, his,
          hneeds.mono (subset_append_left _ _) (subset_append_left _ _)⟩
    · exact .inr ⟨g, hleaf, his,
        hneeds.mono (subset_append_right _ _) (subset_append_right _ _)⟩

theorem Added.push {new : List Job} {p p' : Plan Goal Job Leaf} {j : Job} {g : Goal}
    (h : Added d (d.inputs j) new p p') (hg : g ∈ d.outputs j) (hmade : d.Made j g) :
    Added d [g] (new ++ [j]) p ((p'.addProduced (d.outputs j)).push j) where
  jobs := by
    change p'.jobs ++ [j] = _
    rw [h.jobs, append_assoc]
  grown := (h.grown.trans (Plan.extends_addProduced _ p')).trans (Plan.extends_push j _)
  produced := by
    intro g'
    change g' ∈ (p'.addProduced (d.outputs j)).produced.members ↔ _
    rw [Plan.mem_addProduced, h.produced]
    simp only [mem_append, mem_singleton, or_and_right, exists_or, exists_eq_left,
      or_assoc]
  satisfied := by
    intro g' hg'
    rw [mem_singleton.mp hg']
    exact .inl ((Plan.mem_addProduced _ _ _).mpr (.inr hg))
  ordered := by
    intro before j' after hsplit i hi
    rcases eq_nil_or_concat' after with rfl | ⟨after, last, rfl⟩
    · obtain ⟨rfl, hlast⟩ := append_inj' hsplit rfl
      obtain ⟨rfl, -⟩ := cons_eq_cons.mp hlast
      rcases h.satisfied i hi with hmade | hfound
      · rcases (h.produced i).mp hmade with hmade | hmade
        · exact .inl hmade
        · exact .inr (.inl hmade)
      · exact .inr (.inr hfound)
    · rw [← cons_append, ← append_assoc] at hsplit
      exact h.ordered before j' after (append_inj' hsplit rfl).1 i hi
  needed := by
    intro j' hj'
    rcases mem_append.mp hj' with hj' | hj'
    · obtain ⟨o, ho, hmade', hneeds⟩ := h.needed j' hj'
      refine ⟨o, ho, hmade', ?_⟩
      rcases hneeds with hroot | ⟨j'', hj'', hin⟩
      · exact .inr ⟨j, mem_append_right _ mem_cons_self, hroot⟩
      · exact .inr ⟨j'', mem_append_left _ hj'', hin⟩
    · rw [mem_singleton.mp hj']
      exact ⟨g, hg, hmade, .inl mem_cons_self⟩
  sourced := by
    intro l hl
    rcases h.sourced l hl with hl | ⟨g', hleaf, his, hneeds⟩
    · exact .inl hl
    · refine .inr ⟨g', hleaf, his, ?_⟩
      rcases hneeds with hroot | ⟨j'', hj'', hin⟩
      · exact .inr ⟨j, mem_append_right _ mem_cons_self, hroot⟩
      · exact .inr ⟨j'', mem_append_left _ hj'', hin⟩

end Added

end OxyMake.PlanJournal
