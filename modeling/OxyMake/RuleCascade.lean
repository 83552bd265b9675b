import OxyMake.CycleReport
import OxyMake.Flood
import OxyMake.WildcardExpansion
import Mathlib.Data.List.Sort

/-!
# The rules downstream of a rule

The neighbours of a rule downstream are the rules that consume a pattern with the
same text as one of its outputs. A cascade visits with a stack what is downstream
of some rules: it ends with exactly the rules that a chain of equal patterns leads
to from one of them.
-/

namespace OxyMake.RuleCascade

open List
open RuleGraphs
open CycleReports (Feeds outgoing mem_linksOf)
open Flood (discover flood mem_flood_starts)
open WildcardExpansion (mapM_eq_ok)

def RuleGraph.ruleAt (g : RuleGraph) (index : ℕ) : Except DagError Rule :=
  match g.nodes[index]? with
  | some (.rule r) => .ok r
  | _ => .error (.corruptedGraph "expected Rule node in rule_indices")

/-- Names of the rules other than the given one that consume an output pattern of it. -/
def consumersOf (g : RuleGraph) (name : String) (pattern : TargetPattern) :
    Except DagError (List String) :=
  match g.patternIndices.lookup pattern with
  | none =>
    .error (.corruptedGraph
      ("output pattern `" ++ pattern ++ "` not registered in pattern_indices"))
  | some index => do
    let consumers ← (outgoing g index).mapM (RuleGraph.ruleAt g)
    return (consumers.map Rule.name).filter fun n => n ≠ name

/-- Dependents of a rule, sorted and without repetition; none for an unknown name. -/
def downstream (g : RuleGraph) (name : String) : Except DagError (List String) :=
  match g.ruleIndices.lookup name with
  | none => .ok []
  | some index => do
    let rule ← RuleGraph.ruleAt g index
    let names ← rule.outputs.mapM (consumersOf g name)
    return (names.flatten.insertionSort (· ≤ ·)).dedup

/-- Visit what is downstream of the names on the stack; the visited names are the rules
that are collected. -/
def visit (g : RuleGraph) : ℕ → List String → List String → Except DagError (List String)
  | 0, _, visited => .ok visited
  | _ + 1, [], visited => .ok visited
  | fuel + 1, current :: stack, visited => do
    let dependents ← downstream g current
    let found := discover (fun _ => true) dependents stack visited
    visit g fuel found.1 found.2

/-- The given rules and all that is downstream of them. -/
def cascade (g : RuleGraph) (names : List String) : Except DagError (List String) :=
  visit g (names.length + g.ruleIndices.length) names.reverse names

/-! ### Neighbours in a built graph -/

theorem exists_mapM_ok {α β ε : Type} {f : α → Except ε β} {l : List α}
    (h : ∀ a ∈ l, ∃ b, f a = .ok b) :
    ∃ bs, l.mapM f = .ok bs ∧ ∀ b, b ∈ bs ↔ ∃ a ∈ l, f a = .ok b := by
  induction l with
  | nil =>
    refine ⟨[], rfl, fun b => ⟨fun hb => (by cases hb), ?_⟩⟩
    rintro ⟨a, ha, -⟩
    cases ha
  | cons a l ih =>
    obtain ⟨b, hb⟩ := h a mem_cons_self
    obtain ⟨bs, hbs, hmem⟩ := ih fun a' ha' => h a' (.tail a ha')
    refine ⟨b :: bs, ?_, ?_⟩
    · rw [mapM_cons, hb, hbs]
      rfl
    · intro c
      rw [mem_cons, hmem]
      constructor
      · rintro (rfl | ⟨a', ha', hc⟩)
        · exact ⟨a, mem_cons_self, hb⟩
        · exact ⟨a', mem_cons_of_mem a ha', hc⟩
      · rintro ⟨a', ha', hc⟩
        rcases mem_cons.mp ha' with rfl | ha'
        · rw [hb] at hc
          cases hc
          exact Or.inl rfl
        · exact Or.inr ⟨a', ha', hc⟩

theorem length_ruleIndices (rules : List Rule) (g : RuleGraph) :
    (rules.foldl RuleGraph.addRule g).ruleIndices.length =
      g.ruleIndices.length + rules.length := by
  induction rules generalizing g with
  | nil => rfl
  | cons rule rules ih =>
    rw [foldl_cons, ih, RuleGraph.addRule, length_cons, length_cons]
    omega

theorem visit_eq {g : RuleGraph} {next : String → List String}
    (hnext : ∀ a, downstream g a = .ok (next a)) (fuel : ℕ) (stack visited : List String) :
    visit g fuel stack visited = .ok (flood next (fun _ => true) fuel stack visited) := by
  induction fuel generalizing stack visited with
  | zero => rfl
  | succ fuel ih =>
    cases stack with
    | nil => rfl
    | cons =>
      rw [visit, hnext]
      exact ih _ _

section Built

variable {rules : List Rule} {g : RuleGraph} (h : RuleGraph.build rules = .ok g)
include h

theorem rule_of_lookup {name : String} {i : ℕ} (hi : g.ruleIndices.lookup name = some i) :
    ∃ r ∈ rules, g.nodes[i]? = some (RuleNode.rule r) ∧ r.name = name := by
  have hwired := wired_build h
  rw [hwired.names] at hi
  obtain ⟨r, hr, hnode, hname⟩ := (lookup_ruleNodes rules).1 name i hi
  exact ⟨r, hr, hwired.keep i _ hnode, hname⟩

theorem lookup_of_mem {r : Rule} (hr : r ∈ rules) :
    ∃ i, g.ruleIndices.lookup r.name = some i := by
  rw [(wired_build h).names]
  exact (lookup_ruleNodes rules).2 r hr

theorem ruleAt_index {r : Rule} (hr : r ∈ rules) :
    ∃ r' ∈ rules, RuleGraph.ruleAt g ((ruleNodes rules).ruleIndex r.name) = .ok r' ∧
      r'.name = r.name := by
  obtain ⟨i, hi⟩ := lookup_of_mem h hr
  obtain ⟨r', hr', hnode, hname⟩ := rule_of_lookup h hi
  refine ⟨r', hr', ?_, hname⟩
  rw [RuleGraph.ruleIndex, ← (wired_build h).names, hi, Option.getD_some, RuleGraph.ruleAt, hnode]

theorem mem_outgoing {p : TargetPattern} {o : ℕ} (ho : g.patternIndices.lookup p = some o)
    (v : ℕ) :
    v ∈ outgoing g o ↔
      ∃ consumer ∈ rules, p ∈ consumer.inputs ∧ v = (ruleNodes rules).ruleIndex consumer.name := by
  have hwired := wired_build h
  have hnode := hwired.slots p o ho
  rw [outgoing, mem_reverse, mem_map]
  constructor
  · rintro ⟨e, he, rfl⟩
    obtain ⟨he, hfrom⟩ := mem_filter.mp he
    rw [hwired.edges] at he
    obtain ⟨l, hl, rfl⟩ := mem_map.mp he
    have hfrom := of_decide_eq_true hfrom
    obtain ⟨r, hr, hname, ⟨hkind, -⟩ | ⟨hkind, hp⟩⟩ := mem_linksOf.mp hl
    · rw [edgeAt, hkind] at hfrom
      obtain ⟨_, -, hat, -⟩ := ruleAt_index h hr
      rw [hname, show (ruleNodes rules).ruleIndex l.2.1 = o from hfrom, RuleGraph.ruleAt,
        hnode] at hat
      cases hat
    · rw [edgeAt, hkind] at hfrom ⊢
      obtain ⟨o', ho'⟩ := hwired.known l hl
      have hslot : g.slot l.2.2 = o' := by rw [RuleGraph.slot, ho', Option.getD_some]
      have hother := hwired.slots _ _ ho'
      rw [← hslot, show g.slot l.2.2 = o from hfrom, hnode] at hother
      cases hother
      exact ⟨r, hr, hp, hname ▸ rfl⟩
  · rintro ⟨consumer, hconsumer, hp, rfl⟩
    have hl : ((.consumes, consumer.name, p) : Link) ∈ linksOf rules :=
      mem_linksOf.mpr ⟨consumer, hconsumer, rfl, Or.inr ⟨rfl, hp⟩⟩
    have hslot : g.slot p = o := by rw [RuleGraph.slot, ho, Option.getD_some]
    refine ⟨edgeAt (ruleNodes rules).ruleIndex g.slot (.consumes, consumer.name, p), ?_, rfl⟩
    refine mem_filter.mpr ⟨?_, decide_eq_true hslot⟩
    rw [hwired.edges]
    exact mem_map_of_mem hl

theorem consumersOf_spec (name : String) {r : Rule} (hr : r ∈ rules) {p : TargetPattern}
    (hp : p ∈ r.outputs) :
    ∃ names, consumersOf g name p = .ok names ∧
      ∀ b, b ∈ names ↔ b ≠ name ∧ ∃ consumer ∈ rules, consumer.name = b ∧ p ∈ consumer.inputs := by
  have hwired := wired_build h
  have hl : ((.produces, r.name, p) : Link) ∈ linksOf rules :=
    mem_linksOf.mpr ⟨r, hr, rfl, Or.inl ⟨rfl, hp⟩⟩
  obtain ⟨o, ho⟩ := hwired.known _ hl
  obtain ⟨consumers, hconsumers, hmem⟩ := exists_mapM_ok (f := RuleGraph.ruleAt g)
    (l := outgoing g o) (by
      intro v hv
      obtain ⟨consumer, hconsumer, -, rfl⟩ := (mem_outgoing h ho v).mp hv
      obtain ⟨r', -, hat, -⟩ := ruleAt_index h hconsumer
      exact ⟨r', hat⟩)
  refine ⟨(consumers.map Rule.name).filter fun n => n ≠ name, ?_, ?_⟩
  · rw [consumersOf, show g.patternIndices.lookup p = some o from ho]
    dsimp only
    rw [hconsumers]
    rfl
  · intro b
    rw [mem_filter, decide_eq_true_eq, mem_map, and_comm]
    refine and_congr_right fun _ => ?_
    constructor
    · rintro ⟨r', hr', rfl⟩
      obtain ⟨v, hv, hat⟩ := (hmem r').mp hr'
      obtain ⟨consumer, hconsumer, hinput, rfl⟩ := (mem_outgoing h ho v).mp hv
      obtain ⟨_, -, hat', hname⟩ := ruleAt_index h hconsumer
      rw [hat] at hat'
      cases hat'
      exact ⟨consumer, hconsumer, hname.symm, hinput⟩
    · rintro ⟨consumer, hconsumer, rfl, hinput⟩
      obtain ⟨r', -, hat, hname⟩ := ruleAt_index h hconsumer
      exact ⟨r', (hmem r').mpr ⟨_, (mem_outgoing h ho _).mpr ⟨consumer, hconsumer, hinput, rfl⟩,
        hat⟩, hname⟩

theorem downstream_spec (hnames : (rules.map Rule.name).Nodup) (name : String) :
    ∃ names, downstream g name = .ok names ∧
      ∀ b, b ∈ names ↔ b ≠ name ∧ Feeds rules name b := by
  unfold downstream
  cases hi : g.ruleIndices.lookup name with
  | none =>
    refine ⟨[], rfl, fun b => ⟨fun hb => (by cases hb), ?_⟩⟩
    rintro ⟨-, producer, hproducer, -, -, -, hname, -⟩
    obtain ⟨i, hsome⟩ := lookup_of_mem h hproducer
    rw [hname, hi] at hsome
    cases hsome
  | some i =>
    obtain ⟨r, hr, hnode, hname⟩ := rule_of_lookup h hi
    obtain ⟨names, hnames', hmem⟩ := exists_mapM_ok (f := consumersOf g name) (l := r.outputs)
      fun p hp => by
        obtain ⟨consumers, hconsumers, -⟩ := consumersOf_spec h name hr hp
        exact ⟨consumers, hconsumers⟩
    refine ⟨(names.flatten.insertionSort (· ≤ ·)).dedup, ?_, ?_⟩
    · have hat : RuleGraph.ruleAt g i = .ok r := by rw [RuleGraph.ruleAt, hnode]
      dsimp only
      rw [hat]
      show (r.outputs.mapM (consumersOf g name) >>= _) = _
      rw [hnames']
      rfl
    · intro b
      rw [mem_dedup, mem_insertionSort, mem_flatten]
      constructor
      · rintro ⟨bs, hbs, hb⟩
        obtain ⟨p, hp, hconsumers⟩ := (hmem bs).mp hbs
        obtain ⟨_, hconsumers', hspec⟩ := consumersOf_spec h name hr hp
        rw [hconsumers] at hconsumers'
        cases hconsumers'
        obtain ⟨hne, consumer, hconsumer, hcname, hinput⟩ := (hspec b).mp hb
        exact ⟨hne, r, hr, consumer, hconsumer, p, hname, hcname, hp, hinput⟩
      · rintro ⟨hne, producer, hproducer, consumer, hconsumer, p, hpname, hcname, hp, hinput⟩
        have hsame : producer = r :=
          inj_on_of_nodup_map hnames hproducer hr (hpname.trans hname.symm)
        rw [hsame] at hp
        obtain ⟨bs, hconsumers, hspec⟩ := consumersOf_spec h name hr hp
        exact ⟨bs, (hmem bs).mpr ⟨p, hp, hconsumers⟩,
          (hspec b).mpr ⟨hne, consumer, hconsumer, hcname, hinput⟩⟩

/-! ### The cascade -/

theorem cascade_spec (hnames : (rules.map Rule.name).Nodup) (names : List String) :
    ∃ all, cascade g names = .ok all ∧
      ∀ b, b ∈ all ↔ ∃ a ∈ names, Relation.ReflTransGen (Feeds rules) a b := by
  choose next hnext hmem using downstream_spec h hnames
  have hdomain : ∀ a, ∀ b ∈ next a, b ∈ rules.map Rule.name := by
    intro a b hb
    obtain ⟨-, -, -, consumer, hconsumer, -, -, hname, -⟩ := (hmem a b).mp hb
    exact mem_map.mpr ⟨consumer, hconsumer, hname⟩
  have hlength : (rules.map Rule.name).length ≤ g.ruleIndices.length := by
    rw [(wired_build h).names, length_map, ruleNodes, length_ruleIndices]
    exact Nat.le_add_left _ _
  refine ⟨_, visit_eq hnext _ _ _, fun b => ?_⟩
  rw [mem_flood_starts hdomain (fun x => mem_reverse) (by
    rw [length_reverse]
    omega)]
  refine exists_congr fun a => and_congr_right fun _ => ?_
  constructor
  · intro hreach
    exact Relation.ReflTransGen.mono (fun x y hy => ((hmem x y).mp hy).2) a b hreach
  · intro hreach
    induction hreach with
    | refl => exact Relation.ReflTransGen.refl
    | @tail x y _ hstep ih =>
      by_cases heq : y = x
      · rwa [heq]
      · exact ih.tail ((hmem x y).mpr ⟨heq, hstep⟩)

end Built

end OxyMake.RuleCascade
