import OxyMake.PlanJournal
import Mathlib.Data.List.Chain
import Mathlib.Logic.Relation

/-!
# Backward chaining

A goal is a leaf, is missing, is stuck, or is made by a job after some inputs. A
job may be abandoned for a leaf when inputs that allow it are missing. The
outcome of a goal is determined by this description alone: it does not depend on
the order in which goals are looked at, and it is found within the length of the
longest chain of goals that need each other. A plan for some goals that follows
the outcomes is determined as well, where jobs make only goals that they are
chosen for.
-/

namespace OxyMake.BackwardChaining

open List
open PlanJournal

/-- How a goal can be reached. -/
inductive Node (Goal Job : Type)
  | leaf
  | missing
  | stuck
  /-- A job makes the goal from inputs; it may be abandoned when a marked one is missing. -/
  | needs (inputs : List (Goal × Bool)) (job : Option Job)

def Node.inputs {Goal Job : Type} : Node Goal Job → List Goal
  | .needs inputs _ => inputs.map Prod.fst
  | _ => []

def Node.job {Goal Job : Type} : Node Goal Job → Option Job
  | .needs _ job => job
  | _ => none

/-- What becomes of a goal. -/
inductive Outcome (Job : Type)
  | leaf
  | missing
  | made (job : Job)

theorem Outcome.leaf_ne_missing {Job : Type} : (.leaf : Outcome Job) ≠ .missing := by
  intro h
  cases h

theorem Outcome.made_ne_missing {Job : Type} (job : Job) : Outcome.made job ≠ .missing := by
  intro h
  cases h

section Outcomes

variable {Goal Job : Type} {node : Goal → Node Goal Job}

/-- A goal has an outcome that is found within a height. -/
inductive Solves (node : Goal → Node Goal Job) : ℕ → Goal → Outcome Job → Prop
  | leaf {n : ℕ} {g : Goal} (h : node g = .leaf) : Solves node (n + 1) g .leaf
  | missing {n : ℕ} {g : Goal} (h : node g = .missing) : Solves node (n + 1) g .missing
  | made {n : ℕ} {g : Goal} {inputs : List (Goal × Bool)} {job : Job} {o : Goal → Outcome Job}
      (h : node g = .needs inputs (some job)) (hinputs : ∀ i ∈ inputs, Solves node n i.1 (o i.1))
      (hfound : ∀ i ∈ inputs, o i.1 ≠ .missing) : Solves node (n + 1) g (.made job)
  | abandoned {n : ℕ} {g : Goal} {inputs : List (Goal × Bool)} {job : Option Job}
      {o : Goal → Outcome Job} (h : node g = .needs inputs job)
      (hinputs : ∀ i ∈ inputs, Solves node n i.1 (o i.1))
      (hmarked : ∀ i ∈ inputs, o i.1 = .missing → i.2 = true) {i : Goal × Bool} (hi : i ∈ inputs)
      (hmissing : o i.1 = .missing) : Solves node (n + 1) g .leaf

theorem Solves.mono {n m : ℕ} {g : Goal} {o : Outcome Job} (h : Solves node n g o) (hle : n ≤ m) :
    Solves node m g o := by
  induction h generalizing m with
  | leaf hnode =>
    obtain ⟨m, rfl⟩ := Nat.exists_eq_add_of_lt hle
    exact .leaf hnode
  | missing hnode =>
    obtain ⟨m, rfl⟩ := Nat.exists_eq_add_of_lt hle
    exact .missing hnode
  | made hnode _ hfound ih =>
    obtain ⟨k, rfl⟩ := Nat.exists_eq_add_of_lt hle
    exact .made hnode (fun i hi => ih i hi (Nat.le_add_right _ _)) hfound
  | abandoned hnode _ hmarked hi hmissing ih =>
    obtain ⟨k, rfl⟩ := Nat.exists_eq_add_of_lt hle
    exact .abandoned hnode (fun i hi => ih i hi (Nat.le_add_right _ _)) hmarked hi hmissing

theorem Solves.unique {n m : ℕ} {g : Goal} {o o' : Outcome Job} (h : Solves node n g o)
    (h' : Solves node m g o') : o = o' := by
  induction h generalizing m o' with
  | leaf hnode =>
    cases h' with
    | leaf | abandoned => rfl
    | missing hnode' => cases hnode.symm.trans hnode'
    | made hnode' => cases hnode.symm.trans hnode'
  | missing hnode =>
    cases h' with
    | leaf hnode' => cases hnode.symm.trans hnode'
    | missing => rfl
    | made hnode' => cases hnode.symm.trans hnode'
    | abandoned hnode' => cases hnode.symm.trans hnode'
  | made hnode _ hfound ih =>
    cases h' with
    | leaf hnode' => cases hnode.symm.trans hnode'
    | missing hnode' => cases hnode.symm.trans hnode'
    | made hnode' =>
      cases hnode.symm.trans hnode'
      rfl
    | abandoned hnode' hinputs' _ hi hmissing =>
      cases hnode.symm.trans hnode'
      have hsame := ih _ hi (hinputs' _ hi)
      exact absurd (hsame.trans hmissing) (hfound _ hi)
  | abandoned hnode _ _ hi hmissing ih =>
    cases h' with
    | leaf | abandoned => rfl
    | missing hnode' => cases hnode.symm.trans hnode'
    | made hnode' hinputs' hfound' =>
      cases hnode.symm.trans hnode'
      have hsame := ih _ hi (hinputs' _ hi)
      exact absurd (hsame.symm.trans hmissing) (hfound' _ hi)

def Has (node : Goal → Node Goal Job) (g : Goal) (o : Outcome Job) : Prop :=
  ∃ n, Solves node n g o

theorem Has.unique {g : Goal} {o o' : Outcome Job} (h : Has node g o) (h' : Has node g o') :
    o = o' := by
  obtain ⟨n, hn⟩ := h
  obtain ⟨m, hm⟩ := h'
  exact hn.unique hm

open Classical in
/-- The outcome of a goal, if it has one. -/
noncomputable def outcome (node : Goal → Node Goal Job) (g : Goal) : Outcome Job :=
  if h : ∃ o, Has node g o then h.choose else .missing

theorem Has.outcome_eq {g : Goal} {o : Outcome Job} (h : Has node g o) : outcome node g = o := by
  have hexists : ∃ o, Has node g o := ⟨o, h⟩
  unfold outcome
  rw [dif_pos hexists]
  exact hexists.choose_spec.unique h

theorem exists_height {inputs : List (Goal × Bool)} (h : ∀ i ∈ inputs, ∃ o, Has node i.1 o) :
    ∃ n, ∀ i ∈ inputs, Solves node n i.1 (outcome node i.1) := by
  induction inputs with
  | nil => exact ⟨0, fun i hi => nomatch hi⟩
  | cons first inputs ih =>
    obtain ⟨n, hn⟩ := ih fun i hi => h i (.tail _ hi)
    obtain ⟨o, ho⟩ := h first mem_cons_self
    obtain ⟨m, hm⟩ := ho
    refine ⟨max n m, ?_⟩
    intro i hi
    rcases mem_cons.mp hi with rfl | hi
    · rw [Has.outcome_eq ⟨m, hm⟩]
      exact hm.mono (le_max_right _ _)
    · exact (hn i hi).mono (le_max_left _ _)

theorem Has.made {g : Goal} {inputs : List (Goal × Bool)} {job : Job}
    (h : node g = .needs inputs (some job))
    (hinputs : ∀ i ∈ inputs, ∃ o, Has node i.1 o ∧ o ≠ .missing) :
    Has node g (.made job) := by
  obtain ⟨n, hn⟩ := exists_height fun i hi => (hinputs i hi).imp fun _ ho => ho.1
  refine ⟨n + 1, .made h hn ?_⟩
  intro i hi
  obtain ⟨o, ho, hne⟩ := hinputs i hi
  rw [ho.outcome_eq]
  exact hne

theorem Has.abandoned {g : Goal} {inputs : List (Goal × Bool)} {job : Option Job}
    (h : node g = .needs inputs job)
    (hinputs : ∀ i ∈ inputs, ∃ o, Has node i.1 o ∧ (o = .missing → i.2 = true))
    {i : Goal × Bool} (hi : i ∈ inputs) (hmissing : Has node i.1 .missing) :
    Has node g .leaf := by
  obtain ⟨n, hn⟩ := exists_height fun i hi => (hinputs i hi).imp fun _ ho => ho.1
  refine ⟨n + 1, .abandoned h hn ?_ hi hmissing.outcome_eq⟩
  intro i hi
  obtain ⟨o, ho, hmarked⟩ := hinputs i hi
  rw [ho.outcome_eq]
  exact hmarked

theorem Has.inputs_of_made {g : Goal} {job : Job} (h : Has node g (.made job)) :
    ∃ inputs, node g = .needs inputs (some job) ∧
      ∀ i ∈ inputs, ∃ o, Has node i.1 o ∧ o ≠ .missing := by
  obtain ⟨n, hn⟩ := h
  cases hn with
  | made hnode hinputs hfound =>
    exact ⟨_, hnode, fun i hi => ⟨_, ⟨_, hinputs i hi⟩, hfound i hi⟩⟩

theorem Solves.not_stuck {n : ℕ} {g : Goal} {o : Outcome Job} (h : Solves node n g o) :
    node g ≠ .stuck := by
  intro hstuck
  cases h with
  | leaf hnode => cases hstuck.symm.trans hnode
  | missing hnode => cases hstuck.symm.trans hnode
  | made hnode => cases hstuck.symm.trans hnode
  | abandoned hnode => cases hstuck.symm.trans hnode

theorem Solves.inputs {n : ℕ} {g : Goal} {o : Outcome Job} (h : Solves node (n + 1) g o)
    {inputs : List (Goal × Bool)} {job : Option Job} (hnode : node g = .needs inputs job) :
    o ≠ .missing ∧ ∃ o' : Goal → Outcome Job, (∀ i ∈ inputs, Solves node n i.1 (o' i.1)) ∧
      (∀ i ∈ inputs, o' i.1 = .missing → i.2 = true) ∧
      (job = none → ∃ i ∈ inputs, o' i.1 = .missing) := by
  cases h with
  | leaf hnode' => cases hnode.symm.trans hnode'
  | missing hnode' => cases hnode.symm.trans hnode'
  | made hnode' hinputs hfound =>
    cases hnode.symm.trans hnode'
    refine ⟨Outcome.made_ne_missing _, _, hinputs, fun i hi heq => absurd heq (hfound i hi), ?_⟩
    intro h
    cases h
  | abandoned hnode' hinputs hmarked hi hmissing =>
    cases hnode.symm.trans hnode'
    exact ⟨Outcome.leaf_ne_missing, _, hinputs, hmarked, fun _ => ⟨_, hi, hmissing⟩⟩

theorem Solves.exists_least {n : ℕ} {g : Goal} {o : Outcome Job} (h : Solves node n g o) :
    ∃ m < n, Solves node (m + 1) g o ∧ ∀ o', ¬ Solves node m g o' := by
  induction n with
  | zero => cases h
  | succ n ih =>
    by_cases hless : ∃ o', Solves node n g o'
    · obtain ⟨o', ho'⟩ := hless
      rw [← h.unique ho'] at ho'
      obtain ⟨m, hm, hleast⟩ := ih ho'
      exact ⟨m, Nat.lt_succ_of_lt hm, hleast⟩
    · exact ⟨n, Nat.lt_succ_self n, h, fun o' ho' => hless ⟨o', ho'⟩⟩

/-! ### Chains of goals -/

def Requires (node : Goal → Node Goal Job) (g i : Goal) : Prop :=
  ∃ inputs job, node g = .needs inputs job ∧ ∃ marked, (i, marked) ∈ inputs

/-- A goal is needed for one of the roots, perhaps by a job that is abandoned. -/
def Reaches (node : Goal → Node Goal Job) (roots : List Goal) (g : Goal) : Prop :=
  ∃ root ∈ roots, Relation.ReflTransGen (Requires node) root g

theorem Reaches.root {roots : List Goal} {g : Goal} (h : g ∈ roots) : Reaches node roots g :=
  ⟨g, h, .refl⟩

theorem Reaches.input {roots : List Goal} {g : Goal} (h : Reaches node roots g)
    {inputs : List (Goal × Bool)} {job : Option Job} (hnode : node g = .needs inputs job)
    {i : Goal × Bool} (hi : i ∈ inputs) : Reaches node roots i.1 := by
  obtain ⟨root, hroot, hpath⟩ := h
  exact ⟨root, hroot, hpath.tail ⟨inputs, job, hnode, i.2, hi⟩⟩

theorem exists_highest {m : ℕ} {g : Goal} {o : Outcome Job} (h : Solves node (m + 2) g o)
    (hleast : ∀ o', ¬ Solves node (m + 1) g o') :
    ∃ i o', Requires node g i ∧ Solves node (m + 1) i o' ∧ ∀ o'', ¬ Solves node m i o'' := by
  have hinput : ∀ {inputs : List (Goal × Bool)} {job : Option Job} {o' : Goal → Outcome Job},
      node g = .needs inputs job → (∀ i ∈ inputs, Solves node (m + 1) i.1 (o' i.1)) →
      (¬ ∀ i ∈ inputs, Solves node m i.1 (o' i.1)) →
      ∃ i o', Requires node g i ∧ Solves node (m + 1) i o' ∧ ∀ o'', ¬ Solves node m i o'' := by
    intro inputs job o' hnode hinputs hnot
    simp only [not_forall] at hnot
    obtain ⟨i, hi, hhigh⟩ := hnot
    refine ⟨i.1, o' i.1, ⟨inputs, job, hnode, i.2, hi⟩, hinputs i hi, ?_⟩
    intro o'' hlow
    rw [(hinputs i hi).unique hlow] at hhigh
    exact hhigh hlow
  cases h with
  | leaf hnode => exact absurd (.leaf hnode) (hleast _)
  | missing hnode => exact absurd (.missing hnode) (hleast _)
  | made hnode hinputs hfound =>
    exact hinput hnode hinputs fun hlow => hleast _ (.made hnode hlow hfound)
  | abandoned hnode hinputs hmarked hi hmissing =>
    exact hinput hnode hinputs fun hlow => hleast _ (.abandoned hnode hlow hmarked hi hmissing)

theorem exists_chain {m : ℕ} {g : Goal} {o : Outcome Job} (h : Solves node (m + 1) g o)
    (hleast : ∀ o', ¬ Solves node m g o') :
    ∃ chain, List.IsChain (Requires node) (g :: chain) ∧ (g :: chain).Nodup ∧
      (g :: chain).length = m + 1 ∧ ∀ u ∈ g :: chain, ∃ o', Solves node (m + 1) u o' := by
  induction m generalizing g o with
  | zero =>
    refine ⟨[], isChain_singleton g, nodup_singleton g, rfl, ?_⟩
    intro u hu
    rw [mem_singleton.mp hu]
    exact ⟨o, h⟩
  | succ m ih =>
    obtain ⟨i, o', hrequires, hi, hhigh⟩ := exists_highest h hleast
    obtain ⟨chain, hchain, hnodup, hlength, hfound⟩ := ih hi hhigh
    refine ⟨i :: chain, ?_, ?_, ?_, ?_⟩
    · exact isChain_cons_cons.mpr ⟨hrequires, hchain⟩
    · refine nodup_cons.mpr ⟨?_, hnodup⟩
      -- Everything below is found earlier than the goal itself.
      intro hg
      obtain ⟨o'', ho''⟩ := hfound g hg
      exact hleast o'' ho''
    · rw [length_cons, hlength]
    · intro u hu
      rcases mem_cons.mp hu with rfl | hu
      · exact ⟨o, h⟩
      · obtain ⟨o'', ho''⟩ := hfound u hu
        exact ⟨o'', ho''.mono (Nat.le_succ _)⟩

/-- No chain of distinct goals from a goal is longer than a limit. -/
def Shallow (node : Goal → Node Goal Job) (limit : ℕ) (g : Goal) : Prop :=
  ∀ chain, List.IsChain (Requires node) (g :: chain) → (g :: chain).Nodup →
    (g :: chain).length ≤ limit

theorem Shallow.solves {limit : ℕ} {g : Goal} {o : Outcome Job} (h : Shallow node limit g)
    (ho : Has node g o) : Solves node limit g o := by
  obtain ⟨n, hn⟩ := ho
  obtain ⟨m, -, hm, hleast⟩ := hn.exists_least
  obtain ⟨chain, hchain, hnodup, hlength, -⟩ := exists_chain hm hleast
  refine hm.mono ?_
  rw [← hlength]
  exact h chain hchain hnodup

theorem requires_iff {g i : Goal} : Requires node g i ↔ i ∈ (node g).inputs := by
  constructor
  · rintro ⟨inputs, job, hnode, _, hmem⟩
    rw [hnode]
    exact mem_map_of_mem hmem
  · intro hi
    cases hnode : node g with
    | needs inputs job =>
      rw [hnode] at hi
      obtain ⟨i, hmem, rfl⟩ := mem_map.mp hi
      exact ⟨inputs, job, hnode, i.2, hmem⟩
    | leaf | missing | stuck =>
      rw [hnode] at hi
      cases hi

section Covered

variable {covered : List Goal} (hcovered : ∀ g ∈ covered, ∀ i ∈ (node g).inputs, i ∈ covered)
include hcovered

theorem mem_of_reaches {roots : List Goal} (hroots : roots ⊆ covered) {g : Goal}
    (h : Reaches node roots g) : g ∈ covered := by
  obtain ⟨_, hroot, hpath⟩ := h
  induction hpath with
  | refl => exact hroots hroot
  | tail _ hrequires ih => exact hcovered _ ih _ (requires_iff.mp hrequires)

theorem mem_of_isChain {g : Goal} (hg : g ∈ covered) {chain : List Goal}
    (hchain : List.IsChain (Requires node) (g :: chain)) : g :: chain ⊆ covered := by
  induction chain generalizing g with
  | nil =>
    intro u hu
    rw [mem_singleton.mp hu]
    exact hg
  | cons i chain ih =>
    obtain ⟨hrequires, hrest⟩ := isChain_cons_cons.mp hchain
    have hi := hcovered g hg i (requires_iff.mp hrequires)
    exact cons_subset.mpr ⟨hg, ih hi hrest⟩

theorem shallow_of_covered {g : Goal} (hg : g ∈ covered) {limit : ℕ}
    (hlimit : covered.length ≤ limit) : Shallow node limit g := by
  intro chain hchain hnodup
  have hsubset := mem_of_isChain hcovered hg hchain
  exact (hnodup.subperm hsubset).length_le.trans hlimit

end Covered

end Outcomes

/-! ### Plans that follow the outcomes -/

/-- Goals with the jobs that make them. -/
structure Scheme (Goal Job Leaf : Type) where
  node : Goal → Node Goal Job
  inputs : Job → List Goal
  outputs : Job → List Goal
  leaf : Goal → Leaf
  /-- The inputs of a goal are those of its job. -/
  inputs_eq : ∀ {g : Goal} {is : List (Goal × Bool)} {job : Job},
    node g = .needs is (some job) → inputs job = is.map Prod.fst

namespace Scheme

variable {Goal Job Leaf : Type} {sch : Scheme Goal Job Leaf} {roots : List Goal}

variable (sch) in
/-- Among the reached goals a job makes only those that it is chosen for. -/
def Coherent (roots : List Goal) : Prop :=
  ∀ g u inputs job, Reaches sch.node roots g → Reaches sch.node roots u →
    sch.node g = .needs inputs (some job) → u ∈ sch.outputs job →
      ∃ inputs', sch.node u = .needs inputs' (some job)

theorem Coherent.has_made (h : sch.Coherent roots) {g u : Goal} {job : Job}
    (hg : Reaches sch.node roots g) (hu : Reaches sch.node roots u)
    (hmade : Has sch.node g (.made job)) (houtput : u ∈ sch.outputs job) :
    Has sch.node u (.made job) := by
  obtain ⟨inputs, hnode, hinputs⟩ := hmade.inputs_of_made
  obtain ⟨_, hnode'⟩ := h g u inputs job hg hu hnode houtput
  refine Has.made hnode' ?_
  intro i hi
  have hmem : i.1 ∈ inputs.map Prod.fst := by
    rw [← sch.inputs_eq hnode, sch.inputs_eq hnode']
    exact mem_map_of_mem hi
  obtain ⟨i', hi', heq⟩ := mem_map.mp hmem
  rw [← heq]
  exact hinputs i' hi'

variable (sch) in
/-- A goal is a root or an input of a job that makes such a goal. -/
inductive Live (roots : List Goal) : Goal → Prop
  | root {g : Goal} (h : g ∈ roots) : Live roots g
  | input {g i : Goal} {job : Job} (h : Live roots g) (hmade : Has sch.node g (.made job))
      (hi : i ∈ sch.inputs job) : Live roots i

theorem Live.reaches {g : Goal} (h : sch.Live roots g) : Reaches sch.node roots g := by
  induction h with
  | root hroot => exact Reaches.root hroot
  | input _ hmade hi ih =>
    obtain ⟨_, hnode, -⟩ := hmade.inputs_of_made
    rw [sch.inputs_eq hnode] at hi
    obtain ⟨i, hmem, rfl⟩ := mem_map.mp hi
    exact ih.input hnode hmem

theorem Live.mono {roots' : List Goal} {g : Goal} (h : sch.Live roots g) (hroots : roots ⊆ roots') :
    sch.Live roots' g := by
  induction h with
  | root hroot => exact .root (hroots hroot)
  | input _ hmade hi ih => exact .input ih hmade hi

variable (sch) in
/-- The plans that follow the outcomes of the goals in a set. -/
def domain (P : Goal → Prop) : Domain Goal Job Leaf where
  inputs := sch.inputs
  outputs := sch.outputs
  leaf := sch.leaf
  Made := fun job g => P g ∧ Has sch.node g (.made job)
  IsLeaf := fun g => P g ∧ Has sch.node g .leaf

variable [DecidableEq Goal] [DecidableEq Leaf] {new : List Job} {p : Plan Goal Job Leaf}

theorem has_made_of_mem (hcoherent : sch.Coherent roots)
    (h : Added (sch.domain (sch.Live roots)) roots new Plan.empty p) {g : Goal} {job : Job}
    (hlive : sch.Live roots g) (hjob : job ∈ new) (houtput : g ∈ sch.outputs job) :
    Has sch.node g (.made job) := by
  obtain ⟨_, -, ⟨hlive', hmade'⟩, -⟩ := h.needed job hjob
  exact hcoherent.has_made hlive'.reaches hlive.reaches hmade' houtput

theorem live_planned (hcoherent : sch.Coherent roots)
    (h : Added (sch.domain (sch.Live roots)) roots new Plan.empty p) {g : Goal}
    (hlive : sch.Live roots g) :
    (∃ job ∈ new, Has sch.node g (.made job)) ∨
      Has sch.node g .leaf ∧ sch.leaf g ∈ p.sources.members := by
  induction hlive with
  | root hroot =>
    rcases h.satisfied _ hroot with hproduced | ⟨⟨-, hleaf⟩, hfound⟩
    · rcases (h.produced _).mp hproduced with hmem | ⟨job, hjob, houtput⟩
      · cases Finset.notMem_empty _ hmem
      · exact .inl ⟨job, hjob, has_made_of_mem hcoherent h (.root hroot) hjob houtput⟩
    · exact .inr ⟨hleaf, hfound⟩
  | input hlive' hjob' hi ih =>
    rcases ih with ⟨job, hjob, hsame⟩ | ⟨hleaf, -⟩
    · cases hsame.unique hjob'
      obtain ⟨before, after, hsplit⟩ := append_of_mem hjob
      rcases h.ordered before _ after hsplit _ hi with hmem | ⟨earlier, hearlier, houtput⟩ |
        ⟨⟨-, hleaf⟩, hfound⟩
      · cases Finset.notMem_empty _ hmem
      · have hmem : earlier ∈ new := by
          rw [hsplit]
          exact mem_append_left _ hearlier
        have hlive := Live.input hlive' hjob' hi
        exact .inl ⟨earlier, hmem, has_made_of_mem hcoherent h hlive hmem houtput⟩
      · exact .inr ⟨hleaf, hfound⟩
    · cases hjob'.unique hleaf

theorem mem_jobs_iff (hcoherent : sch.Coherent roots)
    (h : Added (sch.domain (sch.Live roots)) roots new Plan.empty p) (job : Job) :
    job ∈ p.jobs ↔ ∃ g, sch.Live roots g ∧ Has sch.node g (.made job) := by
  have hjobs : p.jobs = new := h.jobs
  rw [hjobs]
  constructor
  · intro hjob
    obtain ⟨g, -, hmade, -⟩ := h.needed job hjob
    exact ⟨g, hmade⟩
  · rintro ⟨g, hlive, hmade⟩
    rcases live_planned hcoherent h hlive with ⟨_, hjob', hsame⟩ | ⟨hleaf, -⟩
    · cases hmade.unique hsame
      exact hjob'
    · cases hmade.unique hleaf

theorem mem_sources_iff (hcoherent : sch.Coherent roots)
    (h : Added (sch.domain (sch.Live roots)) roots new Plan.empty p) (l : Leaf) :
    l ∈ p.sources.members ↔ ∃ g, sch.leaf g = l ∧ sch.Live roots g ∧ Has sch.node g .leaf := by
  constructor
  · intro hl
    rcases h.sourced l hl with hmem | ⟨g, hleaf, hlive, -⟩
    · cases Finset.notMem_empty _ hmem
    · exact ⟨g, hleaf, hlive⟩
  · rintro ⟨g, rfl, hlive, hleaf⟩
    rcases live_planned hcoherent h hlive with ⟨_, -, hsame⟩ | ⟨-, hfound⟩
    · cases hleaf.unique hsame
    · exact hfound

end Scheme

end OxyMake.BackwardChaining
