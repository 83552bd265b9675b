import OxyMake.OrbitWalk
import OxyMake.RuleGraph

/-!
# The cycle that is reported

When the rule graph cannot be sorted, a node on a cycle is known, and the cycle
is looked for by following from there the edge that was added last to each node.
These edges may leave the cycle: the report is a closed walk exactly when they
lead from the first rule back to it.
-/

namespace OxyMake.CycleReports

open List Function
open RuleGraphs OrbitWalk

/-- Targets of the edges from a node, the one added last first. -/
def outgoing (g : RuleGraph) (v : ℕ) : List ℕ :=
  ((g.edges.filter fun e => e.1 = v).map fun e => e.2.1).reverse

def deadEnd : DagError := .corruptedGraph "node in a cycle has no outgoing edges"

/-- Follow the first outgoing edges and collect the rules until one repeats; the
collected names are the visited ones. -/
def follow (g : RuleGraph) : ℕ → ℕ → List String → Option (Except DagError (List String))
  | 0, _, _ => none
  | fuel + 1, current, path =>
    match g.nodes[current]? with
    | some (.rule r) =>
      if r.name ∈ path then some (.ok (path ++ [r.name]))
      else
        match (outgoing g current).head? with
        | none => some (.error deadEnd)
        | some next => follow g fuel next (path ++ [r.name])
    | _ =>
      match (outgoing g current).head? with
      | none => some (.error deadEnd)
      | some next => follow g fuel next path

/-- The cycle that is reported; `cycle` is the node that the external sort names,
nothing for a graph that it sorts. -/
def findCycle (g : RuleGraph) (cycle : Option ℕ) :
    Option (Except DagError (Option (List String))) :=
  match cycle with
  | none => some (.ok none)
  | some start => (follow g (2 * g.nodes.length + 5) start []).map fun r => r.map some

/-- What the external sort promises: a node on a cycle exactly when there is one. -/
def Toposort (g : RuleGraph) : Option ℕ → Prop
  | none => g.Acyclic
  | some v => Relation.TransGen g.Edge v v

def Feeds (rules : List Rule) (a b : String) : Prop :=
  ∃ producer ∈ rules, ∃ consumer ∈ rules, ∃ p, producer.name = a ∧ consumer.name = b ∧
    p ∈ producer.outputs ∧ p ∈ consumer.inputs

/-- A walk over at least two rules that ends where it starts. -/
structure ClosedWalk (rules : List Rule) (path : List String) : Prop where
  /-- There are at least two names. -/
  length : 2 ≤ path.length
  /-- The first name is the last one. -/
  closed : path.head? = path.getLast?
  feeds : path.IsChain (Feeds rules)

def Reports (rules : List Rule) (g : RuleGraph) (cycle : Option ℕ) : Prop :=
  ∃ r, findCycle g cycle = some r ∧ (∀ e, r ≠ .error e) ∧ (r = .ok none ↔ g.Acyclic) ∧
    ∀ path, r = .ok (some path) → ClosedWalk rules path

/-! ### The edges added last -/

def lastOutput (rules : List Rule) (name : String) : Option TargetPattern :=
  ((rules.filter fun r => r.name = name).flatMap Rule.outputs).getLast?

/-- Name of the last rule that consumes a pattern. -/
def lastConsumer (rules : List Rule) (pattern : TargetPattern) : Option String :=
  ((rules.filter fun r => decide (pattern ∈ r.inputs)).getLast?).map Rule.name

/-- The last consumer of the last output of a rule. -/
def successor (rules : List Rule) (name : String) : Option String :=
  (lastOutput rules name).bind (lastConsumer rules)

def firstRule (rules : List Rule) : RuleNode → Option String
  | .rule r => some r.name
  | .pattern p => lastConsumer rules p

/-- From the first rule at the named node, always on to the last consumer of the
last output, one comes back to this rule. -/
def ComesBack (rules : List Rule) (g : RuleGraph) (cycle : Option ℕ) : Prop :=
  ∀ (v : ℕ) (node : RuleNode), cycle = some v → g.nodes[v]? = some node →
    ∃ name, firstRule rules node = some name ∧ Returns (successor rules) name

variable {rules : List Rule} {g : RuleGraph} {index : String → ℕ} {slot : TargetPattern → ℕ}

theorem mem_linksOf {l : Link} :
    l ∈ linksOf rules ↔ ∃ r ∈ rules, r.name = l.2.1 ∧
      ((l.1 = .produces ∧ l.2.2 ∈ r.outputs) ∨ (l.1 = .consumes ∧ l.2.2 ∈ r.inputs)) := by
  obtain ⟨_, _, p⟩ := l
  rw [linksOf, mem_flatMap]
  constructor
  · rintro ⟨r, hr, hl⟩
    refine ⟨r, hr, ?_⟩
    rcases mem_append.mp hl with hl | hl
    · obtain ⟨q, hq, heq⟩ := mem_map.mp hl
      cases heq
      exact ⟨rfl, Or.inl ⟨rfl, hq⟩⟩
    · obtain ⟨q, hq, heq⟩ := mem_map.mp hl
      cases heq
      exact ⟨rfl, Or.inr ⟨rfl, hq⟩⟩
  · rintro ⟨r, hr, hname, ⟨hkind, hp⟩ | ⟨hkind, hp⟩⟩
    · dsimp only at hname hkind hp
      rw [hkind, ← hname]
      exact ⟨r, hr, mem_append_left _ (mem_map_of_mem hp)⟩
    · dsimp only at hname hkind hp
      rw [hkind, ← hname]
      exact ⟨r, hr, mem_append_right _ (mem_map_of_mem hp)⟩

theorem outputs_of_links (rules : List Rule) (name : String) :
    ((linksOf rules).filter fun l => l.1 = .produces ∧ l.2.1 = name).map (fun l => l.2.2) =
      (rules.filter fun r => r.name = name).flatMap Rule.outputs := by
  induction rules with
  | nil => rfl
  | cons r rules ih =>
    have hinputs : (r.inputs.map fun p => ((RuleEdge.consumes, r.name, p) : Link)).filter
        (fun l => decide (l.1 = .produces ∧ l.2.1 = name)) = [] := by
      rw [filter_eq_nil_iff]
      intro l hl
      obtain ⟨p, -, rfl⟩ := mem_map.mp hl
      simp
    rw [linksOf, flatMap_cons, ← linksOf, linksOfRule, filter_append, filter_append,
      hinputs, append_nil, map_append, ih]
    by_cases hname : r.name = name
    · have hall : (r.outputs.map fun p => ((RuleEdge.produces, r.name, p) : Link)).filter
          (fun l => decide (l.1 = .produces ∧ l.2.1 = name)) =
          r.outputs.map fun p => ((RuleEdge.produces, r.name, p) : Link) := by
        rw [filter_eq_self]
        intro l hl
        obtain ⟨p, -, rfl⟩ := mem_map.mp hl
        exact decide_eq_true ⟨rfl, hname⟩
      rw [hall, map_map, filter_cons, if_pos (decide_eq_true hname), flatMap_cons]
      congr 1
      exact List.map_id' r.outputs
    · have hnone : (r.outputs.map fun p => ((RuleEdge.produces, r.name, p) : Link)).filter
          (fun l => decide (l.1 = .produces ∧ l.2.1 = name)) = [] := by
        rw [filter_eq_nil_iff]
        intro l hl
        obtain ⟨p, -, rfl⟩ := mem_map.mp hl
        rw [decide_eq_true_eq]
        exact fun h => hname h.2
      rw [hnone, filter_cons, if_neg (by rw [decide_eq_true_eq]; exact hname)]
      rfl

theorem consumer_of_links (rules : List Rule) (pattern : TargetPattern) :
    (((linksOf rules).filter fun l => l.1 = .consumes ∧ l.2.2 = pattern).map
      fun l => l.2.1).getLast? = lastConsumer rules pattern := by
  induction rules using List.reverseRecOn with
  | nil => rfl
  | append_singleton rules r ih =>
    have houtputs : (r.outputs.map fun p => ((RuleEdge.produces, r.name, p) : Link)).filter
        (fun l => decide (l.1 = .consumes ∧ l.2.2 = pattern)) = [] := by
      rw [filter_eq_nil_iff]
      intro l hl
      obtain ⟨p, -, rfl⟩ := mem_map.mp hl
      simp
    have hinputs : ((r.inputs.map fun p => ((RuleEdge.consumes, r.name, p) : Link)).filter
        (fun l => decide (l.1 = .consumes ∧ l.2.2 = pattern))).map (fun l => l.2.1) =
        (r.inputs.filter fun p => p = pattern).map fun _ => r.name := by
      rw [filter_map, map_map]
      simp only [comp_def, true_and]
    rw [linksOf, flatMap_append, flatMap_singleton, ← linksOf, linksOfRule,
      filter_append, filter_append, houtputs, nil_append, map_append, hinputs,
      getLast?_append, ih, lastConsumer, lastConsumer, filter_append]
    by_cases hmem : pattern ∈ r.inputs
    · have hlast : ((r.inputs.filter fun p => p = pattern).map fun _ => r.name).getLast? =
          some r.name := by
        rw [getLast?_map]
        cases hfilter : (r.inputs.filter fun p => p = pattern).getLast? with
        | none =>
          have hin : pattern ∈ r.inputs.filter fun p => p = pattern :=
            mem_filter.mpr ⟨hmem, decide_eq_true rfl⟩
          rw [getLast?_eq_none_iff.mp hfilter] at hin
          cases hin
        | some => rfl
      rw [hlast, filter_cons, if_pos (decide_eq_true hmem), filter_nil,
        getLast?_append, getLast?_singleton]
      rfl
    · have hnil : (r.inputs.filter fun p => p = pattern) = [] := by
        rw [filter_eq_nil_iff]
        intro p hp heq
        rw [← of_decide_eq_true heq] at hmem
        exact hmem hp
      rw [hnil, map_nil, getLast?_nil, Option.none_or,
        filter_cons, if_neg (by rw [decide_eq_true_eq]; exact hmem), filter_nil,
        append_nil]

/-! ### Following edges -/

def outcome : Option (List String) → Except DagError (List String)
  | none => .error deadEnd
  | some path => .ok path

theorem exists_of_lastOutput {name : String} {p : TargetPattern}
    (h : lastOutput rules name = some p) : ∃ r ∈ rules, r.name = name ∧ p ∈ r.outputs := by
  obtain ⟨r, hr, hp⟩ := mem_flatMap.mp (mem_of_getLast? h)
  obtain ⟨hmem, hname⟩ := mem_filter.mp hr
  exact ⟨r, hmem, of_decide_eq_true hname, hp⟩

theorem exists_of_lastConsumer {p : TargetPattern} {name : String}
    (h : lastConsumer rules p = some name) : ∃ r ∈ rules, r.name = name ∧ p ∈ r.inputs := by
  obtain ⟨r, hr, hname⟩ := Option.map_eq_some_iff.mp h
  obtain ⟨hmem, hp⟩ := mem_filter.mp (mem_of_getLast? hr)
  exact ⟨r, hmem, hname, of_decide_eq_true hp⟩

theorem feeds_of_successor {a b : String} (h : successor rules a = some b) : Feeds rules a b := by
  obtain ⟨p, houtput, hconsumer⟩ := Option.bind_eq_some_iff.mp h
  obtain ⟨producer, hproducer, hnamea, hpout⟩ := exists_of_lastOutput houtput
  obtain ⟨consumer, hmemc, hnameb, hpin⟩ := exists_of_lastConsumer hconsumer
  exact ⟨producer, hproducer, consumer, hmemc, p, hnamea, hnameb, hpout, hpin⟩

section Layouts

variable (layout : Layout rules g index slot)

include layout

theorem source_eq_index {l : Link} (hl : l ∈ linksOf rules) {name : String}
    (hname : ∃ r ∈ rules, r.name = name) :
    (edgeAt index slot l).1 = index name ↔ l.1 = .produces ∧ l.2.1 = name := by
  obtain ⟨r, hr, rfl⟩ := hname
  obtain ⟨_, hnode, hid⟩ := layout.rule r hr
  obtain ⟨kind, name, p⟩ := l
  obtain ⟨s, hs, hsname, -⟩ := mem_linksOf.mp hl
  cases kind with
  | produces =>
    constructor
    · intro h
      obtain ⟨_, hnode', hid'⟩ := layout.rule s hs
      rw [hsname, show index name = index r.name from h, hnode] at hnode'
      cases hnode'
      exact ⟨rfl, (hsname.symm.trans hid'.symm).trans hid⟩
    · rintro ⟨-, h⟩
      exact congrArg index h
  | consumes =>
    constructor
    · intro h
      have hpattern := layout.pattern _ hl
      rw [show slot p = index r.name from h, hnode] at hpattern
      cases hpattern
    · rintro ⟨h, -⟩
      cases h

theorem source_eq_slot {l : Link} (hl : l ∈ linksOf rules) {p : TargetPattern}
    (hp : g.nodes[slot p]? = some (RuleNode.pattern p)) :
    (edgeAt index slot l).1 = slot p ↔ l.1 = .consumes ∧ l.2.2 = p := by
  obtain ⟨kind, name, q⟩ := l
  obtain ⟨s, hs, hsname, -⟩ := mem_linksOf.mp hl
  cases kind with
  | produces =>
    constructor
    · intro h
      obtain ⟨_, hnode', -⟩ := layout.rule s hs
      rw [hsname, show index name = slot p from h, hp] at hnode'
      cases hnode'
    · rintro ⟨h, -⟩
      cases h
  | consumes =>
    constructor
    · intro h
      have hpattern := layout.pattern _ hl
      rw [show slot q = slot p from h, hp] at hpattern
      cases hpattern
      exact ⟨rfl, rfl⟩
    · rintro ⟨-, h⟩
      exact congrArg slot h

theorem head_outgoing_rule {name : String} (hname : ∃ r ∈ rules, r.name = name) :
    (outgoing g (index name)).head? = (lastOutput rules name).map slot := by
  have hfilter : (linksOf rules).filter
        ((fun e : ℕ × ℕ × RuleEdge => decide (e.1 = index name)) ∘ edgeAt index slot) =
      (linksOf rules).filter fun l => l.1 = .produces ∧ l.2.1 = name := by
    apply filter_congr
    intro l hl
    rw [comp_apply, decide_eq_decide]
    exact source_eq_index layout hl hname
  have hmap : ((linksOf rules).filter fun l => l.1 = .produces ∧ l.2.1 = name).map
        ((fun e : ℕ × ℕ × RuleEdge => e.2.1) ∘ edgeAt index slot) =
      (((linksOf rules).filter fun l => l.1 = .produces ∧ l.2.1 = name).map
        fun l => l.2.2).map slot := by
    rw [map_map]
    apply map_congr_left
    intro l hl
    have hkind := (of_decide_eq_true (mem_filter.mp hl).2).1
    rw [comp_apply, comp_apply, edgeAt, hkind]
    rfl
  rw [outgoing, layout.edges, filter_map, hfilter, map_map, hmap, head?_reverse,
    getLast?_map, outputs_of_links, lastOutput]

theorem head_outgoing_pattern {p : TargetPattern}
    (hp : g.nodes[slot p]? = some (RuleNode.pattern p)) :
    (outgoing g (slot p)).head? = (lastConsumer rules p).map index := by
  have hfilter : (linksOf rules).filter
        ((fun e : ℕ × ℕ × RuleEdge => decide (e.1 = slot p)) ∘ edgeAt index slot) =
      (linksOf rules).filter fun l => l.1 = .consumes ∧ l.2.2 = p := by
    apply filter_congr
    intro l hl
    rw [comp_apply, decide_eq_decide]
    exact source_eq_slot layout hl hp
  have hmap : ((linksOf rules).filter fun l => l.1 = .consumes ∧ l.2.2 = p).map
        ((fun e : ℕ × ℕ × RuleEdge => e.2.1) ∘ edgeAt index slot) =
      (((linksOf rules).filter fun l => l.1 = .consumes ∧ l.2.2 = p).map
        fun l => l.2.1).map index := by
    rw [map_map]
    apply map_congr_left
    intro l hl
    have hkind := (of_decide_eq_true (mem_filter.mp hl).2).1
    rw [comp_apply, comp_apply, edgeAt, hkind]
    rfl
  rw [outgoing, layout.edges, filter_map, hfilter, map_map, hmap, head?_reverse,
    getLast?_map, consumer_of_links]

theorem follow_pattern {p : TargetPattern}
    (hp : g.nodes[slot p]? = some (RuleNode.pattern p)) (fuel : ℕ) (path : List String) :
    follow g (fuel + 1) (slot p) path =
      match lastConsumer rules p with
      | none => some (.error deadEnd)
      | some name => follow g fuel (index name) path := by
  rw [follow, hp]
  dsimp only
  rw [head_outgoing_pattern layout hp]
  cases lastConsumer rules p with
  | none | some => rfl

theorem follow_of_walk {f : ℕ} {name : String} {path : List String}
    {answer : Option (List String)} (hwalk : walk (successor rules) f name path = some answer)
    (hname : ∃ r ∈ rules, r.name = name) {fuel : ℕ} (hfuel : 2 * f ≤ fuel) :
    follow g fuel (index name) path =
      some (outcome answer) := by
  induction f generalizing name path fuel with
  | zero => cases hwalk
  | succ f ih =>
    obtain ⟨fuel, rfl⟩ : ∃ k, fuel = k + 1 + 1 := ⟨fuel - 2, by omega⟩
    obtain ⟨r, hr, rfl⟩ := hname
    obtain ⟨_, hnode, hid⟩ := layout.rule r hr
    rw [walk] at hwalk
    rw [follow, hnode]
    dsimp only
    rw [hid]
    by_cases hmem : r.name ∈ path
    · rw [if_pos hmem] at hwalk ⊢
      cases hwalk
      rfl
    · rw [if_neg hmem] at hwalk ⊢
      rw [head_outgoing_rule layout ⟨r, hr, rfl⟩]
      cases houtput : lastOutput rules r.name with
      | none =>
        rw [successor, houtput] at hwalk
        cases hwalk
        rfl
      | some p =>
        have hp : g.nodes[slot p]? = some (RuleNode.pattern p) := by
          obtain ⟨s, hs, hsname, hout⟩ := exists_of_lastOutput houtput
          exact layout.pattern (.produces, r.name, p)
            (mem_linksOf.mpr ⟨s, hs, hsname, Or.inl ⟨rfl, hout⟩⟩)
        rw [successor, houtput, Option.bind_some] at hwalk
        rw [Option.map_some]
        dsimp only
        rw [follow_pattern layout hp]
        cases hconsumer : lastConsumer rules p with
        | none =>
          rw [hconsumer] at hwalk
          cases hwalk
          rfl
        | some =>
          rw [hconsumer] at hwalk
          obtain ⟨t, ht, htname, -⟩ := exists_of_lastConsumer hconsumer
          exact ih hwalk ⟨t, ht, htname⟩ (show 2 * f ≤ fuel by omega)

theorem exists_walk_of_layout (name : String) : ∃ answer f,
    walk (successor rules) f name [] = some answer ∧ Answers (successor rules) name answer ∧
      2 * f + 1 ≤ 2 * g.nodes.length + 5 := by
  have hdomain : ∀ a b, successor rules a = some b →
      b ∈ g.nodes.filterMap fun node => match node with
        | .rule r => some r.name
        | .pattern _ => none := by
    intro a b hab
    obtain ⟨p, -, hconsumer⟩ := Option.bind_eq_some_iff.mp hab
    obtain ⟨r, hr, rfl, -⟩ := exists_of_lastConsumer hconsumer
    obtain ⟨_, hnode, hid⟩ := layout.rule r hr
    exact mem_filterMap.mpr ⟨_, mem_of_getElem? hnode, congrArg some hid⟩
  obtain ⟨answer, hwalk, hanswers⟩ := exists_walk hdomain name
  refine ⟨answer, _, hwalk, hanswers, ?_⟩
  have hle := length_filterMap_le (fun node : RuleNode => match node with
    | .rule r => some r.name
    | .pattern _ => none) g.nodes
  omega

end Layouts

theorem reports_iff {v : ℕ} {name : String} {answer : Option (List String)}
    (hfollow : follow g (2 * g.nodes.length + 5) v [] =
      some (outcome answer))
    (hanswers : Answers (successor rules) name answer) (hcycle : ¬ g.Acyclic) :
    Reports rules g (some v) ↔ Returns (successor rules) name := by
  rw [← hanswers.closed]
  constructor
  · rintro ⟨r, hr, hnoerror, -, hclosed⟩
    rw [findCycle, hfollow] at hr
    cases answer with
    | none => exact absurd (Option.some.inj hr).symm (hnoerror deadEnd)
    | some path => exact ⟨path, rfl, (hclosed path (Option.some.inj hr).symm).closed⟩
  · rintro ⟨path, rfl, hclosed⟩
    obtain ⟨hlength, hchain⟩ := hanswers.chain path rfl
    refine ⟨.ok (some path), ?_, ?_, ?_, ?_⟩
    · rw [findCycle, hfollow]
      rfl
    · intro e he
      cases he
    · constructor
      · intro h
        cases h
      · intro h
        exact absurd h hcycle
    · intro path' hpath'
      cases hpath'
      exact ⟨hlength, hclosed, hchain.imp fun a b hab => feeds_of_successor hab⟩

theorem exists_entry (layout : Layout rules g index slot) {v : ℕ}
    (hcycle : Relation.TransGen g.Edge v v) : ∃ node name answer,
      g.nodes[v]? = some node ∧ firstRule rules node = some name ∧
      follow g (2 * g.nodes.length + 5) v [] = some (outcome answer) ∧
      Answers (successor rules) name answer := by
  obtain ⟨w, ⟨_, hedge⟩, -⟩ := Relation.TransGen.head'_iff.mp hcycle
  rw [layout.edges] at hedge
  obtain ⟨⟨kind', name, p⟩, hl, heq⟩ := mem_map.mp hedge
  obtain ⟨r, hr, hname, hcases⟩ := mem_linksOf.mp hl
  cases kind' with
  | produces =>
    have hv : index name = v := congrArg Prod.fst heq
    obtain ⟨_, hnode, hid⟩ := layout.rule r hr
    rw [hname, hv] at hnode
    obtain ⟨answer, f, hwalk, hanswers, hfuel⟩ := exists_walk_of_layout layout name
    have hfollow := follow_of_walk layout hwalk ⟨r, hr, hname⟩ (Nat.le_of_succ_le hfuel)
    rw [hv] at hfollow
    exact ⟨_, name, answer, hnode, congrArg some (hid.trans hname), hfollow, hanswers⟩
  | consumes =>
    have hv : slot p = v := congrArg Prod.fst heq
    have hnode : g.nodes[slot p]? = some (RuleNode.pattern p) := layout.pattern _ hl
    have hin : p ∈ r.inputs := by
      rcases hcases with ⟨hkind, -⟩ | ⟨-, hin⟩
      · cases hkind
      · exact hin
    obtain ⟨consumer, hconsumer⟩ : ∃ consumer, lastConsumer rules p = some consumer := by
      cases hlast : (rules.filter fun r => decide (p ∈ r.inputs)).getLast? with
      | none =>
        have hmem : r ∈ rules.filter fun r => decide (p ∈ r.inputs) :=
          mem_filter.mpr ⟨hr, decide_eq_true hin⟩
        rw [getLast?_eq_none_iff.mp hlast] at hmem
        cases hmem
      | some t => exact ⟨t.name, by rw [lastConsumer, hlast, Option.map_some]⟩
    obtain ⟨t, ht, htname, -⟩ := exists_of_lastConsumer hconsumer
    obtain ⟨answer, f, hwalk, hanswers, hfuel⟩ := exists_walk_of_layout layout consumer
    have hfollow := follow_of_walk layout hwalk ⟨t, ht, htname⟩
      (show 2 * f ≤ 2 * g.nodes.length + 4 by omega)
    have hstep := follow_pattern layout hnode (2 * g.nodes.length + 4) []
    rw [hconsumer] at hstep
    dsimp only at hstep
    rw [hfollow, hv] at hstep
    rw [hv] at hnode
    exact ⟨_, consumer, answer, hnode, hconsumer, hstep, hanswers⟩

/-- A cycle is reported rightly exactly when the edges that were added last lead
from the first rule back to it. -/
theorem findCycle_reports_iff (rules : List Rule) (g : RuleGraph)
    (hbuild : RuleGraph.build rules = .ok g) (cycle : Option ℕ) (hsort : Toposort g cycle) :
    Reports rules g cycle ↔ ComesBack rules g cycle := by
  obtain ⟨_, _, layout⟩ := exists_layout hbuild
  cases cycle with
  | none =>
    constructor
    · intro _ v node hv
      cases hv
    · intro _
      refine ⟨.ok none, rfl, ?_, ⟨fun _ => hsort, fun _ => rfl⟩, ?_⟩
      · intro e he
        cases he
      · intro path hpath
        cases hpath
  | some v =>
    obtain ⟨node, name, _, hnode, hfirst, hfollow, hanswers⟩ := exists_entry layout hsort
    rw [reports_iff hfollow hanswers fun hacyclic => hacyclic v hsort]
    constructor
    · intro hreturns v' node' hv' hnode'
      cases hv'
      cases hnode.symm.trans hnode'
      exact ⟨name, hfirst, hreturns⟩
    · intro hback
      obtain ⟨_, hfirst', hreturns⟩ := hback v node rfl hnode
      rw [Option.some.inj (hfirst.symm.trans hfirst')]
      exact hreturns

def loop : List Rule :=
  [⟨"align", ["index.txt"], ["align.bam"]⟩, ⟨"index", ["align.bam"], ["index.txt"]⟩]

def loopGraph : RuleGraph where
  nodes := [.rule ⟨"align", ["index.txt"], ["align.bam"]⟩,
    .rule ⟨"index", ["align.bam"], ["index.txt"]⟩, .pattern "align.bam", .pattern "index.txt"]
  edges := [(0, 2, .produces), (3, 0, .consumes), (1, 3, .produces), (2, 1, .consumes)]
  ruleIndices := [("index", 1), ("align", 0)]
  patternIndices := [("index.txt", 3), ("align.bam", 2)]

theorem edge_of_mem {u v : ℕ} (h : (u, v) ∈ g.edges.map fun e => (e.1, e.2.1)) : g.Edge u v := by
  obtain ⟨⟨_, _, kind⟩, hmem, heq⟩ := mem_map.mp h
  cases heq
  exact ⟨kind, hmem⟩

/-- The cycle of the loop is reported. -/
theorem findCycle_reports_iff_loop : Reports loop loopGraph (some 0) := by
  have hcycle : Relation.TransGen loopGraph.Edge 0 0 :=
    (((Relation.TransGen.single (edge_of_mem (show (0, 2) ∈ _ by decide))).tail
      (edge_of_mem (show (2, 1) ∈ _ by decide))).tail
      (edge_of_mem (show (1, 3) ∈ _ by decide))).tail
      (edge_of_mem (show (3, 0) ∈ _ by decide))
  apply (findCycle_reports_iff loop loopGraph (by decide) (some 0) hcycle).mpr
  intro v node hv hnode
  cases hv
  cases hnode
  exact ⟨"align", rfl, 2, by decide, by decide⟩

/-- The first rule of the loop also writes a log that nothing reads. -/
def loggedLoop : List Rule :=
  [⟨"align", ["index.txt"], ["align.bam", "align.log"]⟩,
    ⟨"index", ["align.bam"], ["index.txt"]⟩]

def loggedGraph : RuleGraph where
  nodes := [.rule ⟨"align", ["index.txt"], ["align.bam", "align.log"]⟩,
    .rule ⟨"index", ["align.bam"], ["index.txt"]⟩, .pattern "align.bam", .pattern "align.log",
    .pattern "index.txt"]
  edges := [(0, 2, .produces), (0, 3, .produces), (4, 0, .consumes), (1, 4, .produces),
    (2, 1, .consumes)]
  ruleIndices := [("index", 1), ("align", 0)]
  patternIndices := [("index.txt", 4), ("align.log", 3), ("align.bam", 2)]

/-- The log is followed instead of the cycle, and an error is reported. -/
theorem not_findCycle_reports : ¬ ∀ (rules : List Rule) (g : RuleGraph),
    RuleGraph.build rules = .ok g → ∀ cycle, Toposort g cycle → Reports rules g cycle := by
  intro hall
  have hcycle : Relation.TransGen loggedGraph.Edge 0 0 :=
    (((Relation.TransGen.single (edge_of_mem (show (0, 2) ∈ _ by decide))).tail
      (edge_of_mem (show (2, 1) ∈ _ by decide))).tail
      (edge_of_mem (show (1, 4) ∈ _ by decide))).tail
      (edge_of_mem (show (4, 0) ∈ _ by decide))
  obtain ⟨r, hr, hnoerror, -⟩ := hall loggedLoop loggedGraph (by decide) (some 0) hcycle
  have herror : findCycle loggedGraph (some 0) = some (.error deadEnd) := rfl
  rw [herror] at hr
  exact hnoerror deadEnd (Option.some.inj hr).symm

end OxyMake.CycleReports
