import Mathlib.Data.List.Basic
import Mathlib.Data.String.Basic
import Mathlib.Logic.Relation

/-!
# The rule graph

The logical graph of the rules before wildcards are resolved: a node for each
rule and for each pattern, with edges from a rule to the patterns it produces
and from a pattern to the rules that consume it. Its edges are the outputs and
inputs of the rules in the order in which these are declared.
-/

namespace OxyMake.RuleGraphs

open List

abbrev TargetPattern := String

/-- What the graph reads of a rule. -/
structure Rule where
  name : String
  inputs : List TargetPattern
  outputs : List TargetPattern
  deriving DecidableEq, Repr

/-- A node of the graph. -/
inductive RuleNode
  | rule (rule : Rule)
  | pattern (pattern : TargetPattern)
  deriving DecidableEq, Repr

/-- What an edge stands for. -/
inductive RuleEdge
  | produces
  | consumes
  deriving DecidableEq, Repr

/-- Failures of the rule graph. -/
inductive DagError
  | conflictingOutputs (a b output : String)
  | corruptedGraph (detail : String)
  deriving DecidableEq, Repr

/-- The graph with the indices of its nodes. -/
structure RuleGraph where
  nodes : List RuleNode
  edges : List (ℕ × ℕ × RuleEdge)
  ruleIndices : List (String × ℕ)
  patternIndices : List (TargetPattern × ℕ)
  deriving DecidableEq, Repr

/-- Add the node of a rule; a name that is known already is led to the new node. -/
def RuleGraph.addRule (g : RuleGraph) (rule : Rule) : RuleGraph :=
  { g with
    nodes := g.nodes ++ [.rule rule]
    ruleIndices := (rule.name, g.nodes.length) :: g.ruleIndices }

/-- Node of a rule name. All names are indexed before it is asked for, so the
default is never read. -/
def RuleGraph.ruleIndex (g : RuleGraph) (name : String) : ℕ :=
  (g.ruleIndices.lookup name).getD 0

/-- Node of a pattern, which is added when the pattern is new. -/
def RuleGraph.patternNode (g : RuleGraph) (pattern : TargetPattern) : ℕ × RuleGraph :=
  match g.patternIndices.lookup pattern with
  | some index => (index, g)
  | none =>
    (g.nodes.length,
      { g with
        nodes := g.nodes ++ [.pattern pattern]
        patternIndices := (pattern, g.nodes.length) :: g.patternIndices })

def edgeOf (kind : RuleEdge) (rule pattern : ℕ) : ℕ × ℕ × RuleEdge :=
  match kind with
  | .produces => (rule, pattern, .produces)
  | .consumes => (pattern, rule, .consumes)

def RuleGraph.connect (kind : RuleEdge) (name : String) (g : RuleGraph)
    (pattern : TargetPattern) : RuleGraph :=
  let found := g.patternNode pattern
  { found.2 with edges := found.2.edges ++ [edgeOf kind (g.ruleIndex name) found.1] }

/-- The graph under construction with the rule that owns each output. -/
structure Building where
  graph : RuleGraph
  outputOwners : List (TargetPattern × String)

/-- Add an output of a rule, which no other rule may own. -/
def addOutput (name : String) (b : Building) (pattern : TargetPattern) :
    Except DagError Building :=
  match b.outputOwners.lookup pattern with
  | some existing =>
    if existing ≠ name then .error (.conflictingOutputs existing name pattern)
    else .ok { b with graph := b.graph.connect .produces name pattern }
  | none => .ok ⟨b.graph.connect .produces name pattern, (pattern, name) :: b.outputOwners⟩

def addPatterns (b : Building) (rule : Rule) : Except DagError Building := do
  let b ← rule.outputs.foldlM (addOutput rule.name) b
  return { b with graph := rule.inputs.foldl (RuleGraph.connect .consumes rule.name) b.graph }

def RuleGraph.build (rules : List Rule) : Except DagError RuleGraph := do
  let g := rules.foldl RuleGraph.addRule ⟨[], [], [], []⟩
  let b ← rules.foldlM addPatterns ⟨g, []⟩
  return b.graph

def RuleGraph.Edge (g : RuleGraph) (u v : ℕ) : Prop := ∃ kind, (u, v, kind) ∈ g.edges

def RuleGraph.Acyclic (g : RuleGraph) : Prop := ∀ v, ¬ Relation.TransGen g.Edge v v

/-! ### What construction adds -/

/-- An output or input of a rule that is to become an edge. -/
abbrev Link := RuleEdge × String × TargetPattern

def linksOfRule (rule : Rule) : List Link :=
  rule.outputs.map (fun p => (.produces, rule.name, p)) ++
    rule.inputs.map fun p => (.consumes, rule.name, p)

def linksOf (rules : List Rule) : List Link := rules.flatMap linksOfRule

/-- Edge of a link for given nodes of rules and patterns. -/
def edgeAt (index : String → ℕ) (slot : TargetPattern → ℕ) (l : Link) : ℕ × ℕ × RuleEdge :=
  edgeOf l.1 (index l.2.1) (slot l.2.2)

def RuleGraph.slot (g : RuleGraph) (pattern : TargetPattern) : ℕ :=
  (g.patternIndices.lookup pattern).getD 0

/-- The graph after some links, over the graph of the rules alone. -/
structure Wired (start : RuleGraph) (links : List Link) (g : RuleGraph) : Prop where
  keep : ∀ (v : ℕ) (node : RuleNode), start.nodes[v]? = some node → g.nodes[v]? = some node
  names : g.ruleIndices = start.ruleIndices
  slots : ∀ p o, g.patternIndices.lookup p = some o → g.nodes[o]? = some (RuleNode.pattern p)
  known : ∀ l ∈ links, ∃ o, g.patternIndices.lookup l.2.2 = some o
  /-- Every link is an edge, in order. -/
  edges : g.edges = links.map (edgeAt start.ruleIndex g.slot)

theorem Wired.patternNode {start : RuleGraph} {links : List Link} {g : RuleGraph}
    (h : Wired start links g) (pattern : TargetPattern) :
    Wired start links (g.patternNode pattern).2 ∧
      (g.patternNode pattern).2.patternIndices.lookup pattern =
        some (g.patternNode pattern).1 := by
  unfold RuleGraph.patternNode
  cases hlookup : g.patternIndices.lookup pattern with
  | some => exact ⟨h, hlookup⟩
  | none =>
    have hkeep : ∀ p o, g.patternIndices.lookup p = some o →
        ((pattern, g.nodes.length) :: g.patternIndices).lookup p = some o := by
      intro p o hp
      rw [lookup_cons]
      by_cases heq : p = pattern
      · rw [heq, hlookup] at hp
        cases hp
      · rw [beq_false_of_ne heq]
        exact hp
    have hnodes : ∀ (v : ℕ) (node : RuleNode), g.nodes[v]? = some node →
        (g.nodes ++ [RuleNode.pattern pattern])[v]? = some node := by
      intro v node hnode
      rw [getElem?_append_left (List.getElem?_eq_some_iff.mp hnode).1]
      exact hnode
    refine ⟨⟨?_, h.names, ?_, ?_, ?_⟩, ?_⟩
    · intro v node hnode
      exact hnodes v node (h.keep v node hnode)
    · intro p o hp
      dsimp only at hp ⊢
      rw [lookup_cons] at hp
      by_cases heq : p = pattern
      · rw [heq, beq_self_eq_true] at hp
        rw [← Option.some.inj hp, heq, getElem?_append_right (le_refl _), Nat.sub_self]
        rfl
      · rw [beq_false_of_ne heq] at hp
        exact hnodes o _ (h.slots p o hp)
    · intro l hl
      obtain ⟨o, ho⟩ := h.known l hl
      exact ⟨o, hkeep _ _ ho⟩
    · dsimp only
      rw [h.edges]
      apply map_congr_left
      intro l hl
      obtain ⟨o, ho⟩ := h.known l hl
      rw [edgeAt, edgeAt, RuleGraph.slot, RuleGraph.slot, ho, hkeep _ _ ho]
    · dsimp only
      rw [lookup_cons, beq_self_eq_true]

theorem Wired.connect {start : RuleGraph} {links : List Link} {g : RuleGraph}
    (h : Wired start links g) (kind : RuleEdge) (name : String) (pattern : TargetPattern) :
    Wired start (links ++ [(kind, name, pattern)]) (g.connect kind name pattern) := by
  obtain ⟨hfound, hslot⟩ := h.patternNode pattern
  refine ⟨hfound.keep, hfound.names, hfound.slots, ?_, ?_⟩
  · intro l hl
    rcases mem_append.mp hl with hl | hl
    · exact hfound.known l hl
    · rw [mem_singleton.mp hl]
      exact ⟨_, hslot⟩
  · show (g.patternNode pattern).2.edges ++ [edgeOf kind (g.ruleIndex name) _] = _
    rw [hfound.edges, map_append, map_singleton, edgeAt, RuleGraph.ruleIndex, h.names]
    dsimp only
    rw [RuleGraph.slot, show (g.connect kind name pattern).patternIndices.lookup pattern = _ from
      hslot]
    rfl

theorem Wired.foldl_connect {start : RuleGraph} {links : List Link} {g : RuleGraph}
    (h : Wired start links g) (kind : RuleEdge) (name : String) (ps : List TargetPattern) :
    Wired start (links ++ ps.map fun p => (kind, name, p))
      (ps.foldl (RuleGraph.connect kind name) g) := by
  induction ps generalizing links g with
  | nil =>
    rw [map_nil, append_nil]
    exact h
  | cons p ps ih =>
    have hnext := ih (h.connect kind name p)
    rwa [append_assoc, singleton_append] at hnext

theorem addOutput_graph {name : String} {b b' : Building} {pattern : TargetPattern}
    (h : addOutput name b pattern = .ok b') :
    b'.graph = b.graph.connect .produces name pattern := by
  unfold addOutput at h
  split at h
  · split_ifs at h
    cases h
    rfl
  · cases h
    rfl

theorem addOutputs_graph {name : String} {b b' : Building} {ps : List TargetPattern}
    (h : ps.foldlM (addOutput name) b = .ok b') :
    b'.graph = ps.foldl (RuleGraph.connect .produces name) b.graph := by
  induction ps generalizing b with
  | nil =>
    cases h
    rfl
  | cons p ps ih =>
    rw [foldlM_cons] at h
    cases hfirst : addOutput name b p with
    | error =>
      rw [hfirst] at h
      cases h
    | ok =>
      rw [hfirst] at h
      rw [foldl_cons, ← addOutput_graph hfirst]
      exact ih h

theorem Wired.addPatterns {start : RuleGraph} {links : List Link} {b b' : Building}
    (h : Wired start links b.graph) {rule : Rule} (hadd : RuleGraphs.addPatterns b rule = .ok b') :
    Wired start (links ++ linksOfRule rule) b'.graph := by
  unfold RuleGraphs.addPatterns at hadd
  cases houtputs : rule.outputs.foldlM (addOutput rule.name) b with
  | error =>
    rw [houtputs] at hadd
    cases hadd
  | ok =>
    rw [houtputs] at hadd
    cases hadd
    have hproduced := h.foldl_connect .produces rule.name rule.outputs
    rw [← addOutputs_graph houtputs] at hproduced
    have hconsumed := hproduced.foldl_connect .consumes rule.name rule.inputs
    rwa [append_assoc] at hconsumed

theorem Wired.foldlM_addPatterns {start : RuleGraph} {links : List Link} {b b' : Building}
    (h : Wired start links b.graph) {rules : List Rule}
    (hadd : rules.foldlM RuleGraphs.addPatterns b = .ok b') :
    Wired start (links ++ linksOf rules) b'.graph := by
  induction rules generalizing links b with
  | nil =>
    cases hadd
    rw [linksOf, flatMap_nil, append_nil]
    exact h
  | cons rule rules ih =>
    rw [foldlM_cons] at hadd
    cases hfirst : RuleGraphs.addPatterns b rule with
    | error =>
      rw [hfirst] at hadd
      cases hadd
    | ok =>
      rw [hfirst] at hadd
      have hnext := ih (h.addPatterns hfirst) hadd
      rwa [append_assoc] at hnext

theorem lookup_addRules (rules : List Rule) (g : RuleGraph)
    (hg : ∀ name i, g.ruleIndices.lookup name = some i →
      ∃ r, g.nodes[i]? = some (RuleNode.rule r) ∧ r.name = name) :
    (∀ name i, (rules.foldl RuleGraph.addRule g).ruleIndices.lookup name = some i →
      ∃ r, (rules.foldl RuleGraph.addRule g).nodes[i]? = some (RuleNode.rule r) ∧
        r.name = name) ∧
    (∀ name, (∃ r ∈ rules, r.name = name) ∨ (∃ i, g.ruleIndices.lookup name = some i) →
      ∃ i, (rules.foldl RuleGraph.addRule g).ruleIndices.lookup name = some i) := by
  induction rules generalizing g with
  | nil =>
    refine ⟨hg, ?_⟩
    rintro name (⟨r, hr, -⟩ | h)
    · cases hr
    · exact h
  | cons rule rules ih =>
    have hnext : ∀ name i, (g.addRule rule).ruleIndices.lookup name = some i →
        ∃ r, (g.addRule rule).nodes[i]? = some (RuleNode.rule r) ∧ r.name = name := by
      intro name i hname
      unfold RuleGraph.addRule at hname ⊢
      dsimp only at hname ⊢
      rw [lookup_cons] at hname
      by_cases heq : name = rule.name
      · rw [heq, beq_self_eq_true] at hname
        refine ⟨rule, ?_, heq.symm⟩
        rw [← Option.some.inj hname, getElem?_append_right (le_refl _), Nat.sub_self]
        rfl
      · rw [beq_false_of_ne heq] at hname
        obtain ⟨r, hr, hid⟩ := hg name i hname
        refine ⟨r, ?_, hid⟩
        rw [getElem?_append_left (List.getElem?_eq_some_iff.mp hr).1]
        exact hr
    obtain ⟨hnodes, hknown⟩ := ih (g.addRule rule) hnext
    refine ⟨hnodes, ?_⟩
    intro name hname
    apply hknown
    by_cases heq : name = rule.name
    · right
      refine ⟨g.nodes.length, ?_⟩
      rw [RuleGraph.addRule, heq, lookup_cons, beq_self_eq_true]
    · rcases hname with ⟨r, hr, hid⟩ | ⟨i, hi⟩
      · rcases mem_cons.mp hr with rfl | hr
        · exact absurd hid.symm heq
        · exact Or.inl ⟨r, hr, hid⟩
      · right
        refine ⟨i, ?_⟩
        rw [RuleGraph.addRule, lookup_cons, beq_false_of_ne heq]
        exact hi

theorem foldl_addRule_eq (rules : List Rule) (g : RuleGraph) :
    (rules.foldl RuleGraph.addRule g).nodes = g.nodes ++ rules.map .rule ∧
      (rules.foldl RuleGraph.addRule g).patternIndices = g.patternIndices ∧
      (rules.foldl RuleGraph.addRule g).edges = g.edges := by
  induction rules generalizing g with
  | nil => exact ⟨(append_nil g.nodes).symm, rfl, rfl⟩
  | cons rule rules ih =>
    obtain ⟨hnodes, hrest⟩ := ih (g.addRule rule)
    refine ⟨?_, hrest⟩
    rw [foldl_cons, hnodes, map_cons]
    exact append_assoc g.nodes [.rule rule] _

def ruleNodes (rules : List Rule) : RuleGraph := rules.foldl RuleGraph.addRule ⟨[], [], [], []⟩

theorem lookup_ruleNodes (rules : List Rule) :
    (∀ name i, (ruleNodes rules).ruleIndices.lookup name = some i →
      ∃ r ∈ rules, (ruleNodes rules).nodes[i]? = some (RuleNode.rule r) ∧ r.name = name) ∧
    (∀ r ∈ rules, ∃ i, (ruleNodes rules).ruleIndices.lookup r.name = some i) := by
  obtain ⟨hnodes, hknown⟩ := lookup_addRules rules ⟨[], [], [], []⟩ (by
    intro name i hi
    cases hi)
  refine ⟨?_, fun r hr => hknown r.name (Or.inl ⟨r, hr, rfl⟩)⟩
  intro name i hi
  obtain ⟨r, hr, hname⟩ := hnodes name i hi
  refine ⟨r, ?_, hr, hname⟩
  rw [(foldl_addRule_eq rules ⟨[], [], [], []⟩).1, nil_append] at hr
  obtain ⟨_, hr', heq⟩ := mem_map.mp (mem_of_getElem? hr)
  cases heq
  exact hr'

theorem wired_build {rules : List Rule} {g : RuleGraph} (h : RuleGraph.build rules = .ok g) :
    Wired (ruleNodes rules) (linksOf rules) g := by
  unfold RuleGraph.build at h
  cases hlinks : rules.foldlM addPatterns ⟨rules.foldl RuleGraph.addRule ⟨[], [], [], []⟩, []⟩ with
  | error =>
    dsimp only at h
    rw [hlinks] at h
    cases h
  | ok =>
    dsimp only at h
    rw [hlinks] at h
    cases h
    have hpatterns := (foldl_addRule_eq rules ⟨[], [], [], []⟩).2
    have hstart : Wired (ruleNodes rules) [] (ruleNodes rules) := by
      refine ⟨fun _ _ hnode => hnode, rfl, ?_, ?_, hpatterns.2⟩
      · intro p o hp
        rw [ruleNodes, hpatterns.1] at hp
        cases hp
      · intro l hl
        cases hl
    have hwired := hstart.foldlM_addPatterns hlinks
    rwa [nil_append] at hwired

/-! ### The layout -/

/-- How the nodes of a built graph are connected. -/
structure Layout (rules : List Rule) (g : RuleGraph) (index : String → ℕ)
    (slot : TargetPattern → ℕ) : Prop where
  /-- Names lead to rules of that name. -/
  rule : ∀ r ∈ rules, ∃ r', g.nodes[index r.name]? = some (RuleNode.rule r') ∧ r'.name = r.name
  pattern : ∀ l ∈ linksOf rules, g.nodes[slot l.2.2]? = some (RuleNode.pattern l.2.2)
  /-- The edges are the links in order. -/
  edges : g.edges = (linksOf rules).map (edgeAt index slot)

theorem exists_layout {rules : List Rule} {g : RuleGraph} (h : RuleGraph.build rules = .ok g) :
    ∃ index slot, Layout rules g index slot := by
  have hwired := wired_build h
  obtain ⟨hnodes, hknown⟩ := lookup_ruleNodes rules
  refine ⟨(ruleNodes rules).ruleIndex, g.slot, ⟨?_, ?_, hwired.edges⟩⟩
  · intro r hr
    obtain ⟨i, hi⟩ := hknown r hr
    obtain ⟨r', -, hr', hname⟩ := hnodes r.name i hi
    refine ⟨r', ?_, hname⟩
    rw [RuleGraph.ruleIndex, hi]
    exact hwired.keep i _ hr'
  · intro l hl
    obtain ⟨o, ho⟩ := hwired.known l hl
    rw [RuleGraph.slot, ho]
    exact hwired.slots _ _ ho

end OxyMake.RuleGraphs
