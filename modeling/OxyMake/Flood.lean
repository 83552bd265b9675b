import Mathlib.Data.List.Dedup
import Mathlib.Logic.Relation
import Mathlib.Order.Nat

/-!
# Flooding a finite graph through selected nodes

A worklist search marks a node when it is discovered and queues it only when
a predicate lets the search continue through it. With one unit of fuel per
node of a finite domain the marked nodes are exactly those reachable along
edges leaving the start or a passable node. Bridges are the corresponding
paths; reversing the edges reverses them.
-/

namespace OxyMake.Flood

open List

variable {α : Type*} [DecidableEq α]

/-- Mark every new neighbour; queue those the search may pass through. -/
def discover (passes : α → Bool) : List α → List α → List α → List α × List α
  | [], queue, visited => (queue, visited)
  | node :: nodes, queue, visited =>
    if node ∈ visited then discover passes nodes queue visited
    else discover passes nodes (if passes node then node :: queue else queue) (node :: visited)

/-- Pop the queue until it is empty or the fuel is used up. -/
def flood (next : α → List α) (passes : α → Bool) : ℕ → List α → List α → List α
  | 0, _, visited => visited
  | _ + 1, [], visited => visited
  | fuel + 1, node :: queue, visited =>
    let found := discover passes (next node) queue visited
    flood next passes fuel found.1 found.2

/-- A path whose inner nodes are all passable. -/
inductive Bridge (next : α → List α) (passes : α → Bool) : α → α → Prop
  | direct {a b : α} : b ∈ next a → Bridge next passes a b
  | through {a s b : α} : s ∈ next a → passes s = true → Bridge next passes s b →
      Bridge next passes a b

omit [DecidableEq α] in
theorem Bridge.snoc {next : α → List α} {passes : α → Bool} {a s b : α}
    (h : Bridge next passes a s) (hs : passes s = true) (hb : b ∈ next s) :
    Bridge next passes a b := by
  induction h with
  | direct hm => exact .through hm hs (.direct hb)
  | through hm hp _ ih => exact .through hm hp (ih hs hb)

omit [DecidableEq α] in
/-- Reversing every edge reverses every bridge. -/
theorem Bridge.reverse {next back : α → List α} {passes : α → Bool}
    (hrev : ∀ a b, b ∈ next a → a ∈ back b) {a b : α} (h : Bridge next passes a b) :
    Bridge back passes b a := by
  induction h with
  | direct hm => exact .direct (hrev _ _ hm)
  | through hm hp _ ih => exact ih.snoc hp (hrev _ _ hm)

omit [DecidableEq α] in
theorem Bridge.target {next : α → List α} {passes : α → Bool} {a b : α}
    (h : Bridge next passes a b) : ∃ c, b ∈ next c := by
  induction h with
  | direct hm => exact ⟨_, hm⟩
  | through _ _ _ ih => exact ih

theorem mem_discover_visited (passes : α → Bool) (nodes queue visited : List α) (x : α) :
    x ∈ (discover passes nodes queue visited).2 ↔ x ∈ visited ∨ x ∈ nodes := by
  induction nodes generalizing queue visited with
  | nil => simp [discover]
  | cons node nodes ih =>
    by_cases hm : node ∈ visited
    · rw [discover, if_pos hm, ih, mem_cons]
      constructor
      · rintro (h | h)
        · exact .inl h
        · exact .inr (.inr h)
      · rintro (h | rfl | h)
        · exact .inl h
        · exact .inl hm
        · exact .inr h
    · rw [discover, if_neg hm, ih]
      simp only [mem_cons]
      tauto

theorem mem_discover_queue (passes : α → Bool) (nodes queue visited : List α) (x : α) :
    x ∈ (discover passes nodes queue visited).1 ↔
      x ∈ queue ∨ (x ∈ nodes ∧ x ∉ visited ∧ passes x = true) := by
  induction nodes generalizing queue visited with
  | nil => simp [discover]
  | cons node nodes ih =>
    by_cases hm : node ∈ visited
    · rw [discover, if_pos hm, ih, mem_cons]
      constructor
      · rintro (h | ⟨h, hv, hp⟩)
        · exact .inl h
        · exact .inr ⟨.inr h, hv, hp⟩
      · rintro (h | ⟨rfl | h, hv, hp⟩)
        · exact .inl h
        · exact absurd hm hv
        · exact .inr ⟨h, hv, hp⟩
    · rw [discover, if_neg hm, ih]
      by_cases hx : x = node
      · subst hx
        by_cases hp : passes x = true <;> simp [hp, hm]
      · by_cases hp : passes node = true <;> simp [hp, hx]

theorem discover_measure (passes : α → Bool) (domain : List α) {nodes : List α}
    (queue visited : List α)
    (hsub : ∀ x ∈ nodes, x ∈ domain) :
    (discover passes nodes queue visited).1.length +
        (domain.dedup.filter (· ∉ (discover passes nodes queue visited).2)).length ≤
      queue.length + (domain.dedup.filter (· ∉ visited)).length := by
  induction nodes generalizing queue visited with
  | nil => exact le_rfl
  | cons node nodes ih =>
    have htail : ∀ x ∈ nodes, x ∈ domain := fun x hx => hsub x (.tail _ hx)
    by_cases hm : node ∈ visited
    · rw [discover, if_pos hm]
      exact ih queue visited htail
    · rw [discover, if_neg hm]
      refine (ih _ _ htail).trans ?_
      have hnode : node ∈ domain.dedup.filter (· ∉ visited) := by
        simpa using ⟨hsub node mem_cons_self, hm⟩
      have hlt : (domain.dedup.filter (· ∉ node :: visited)).length <
          (domain.dedup.filter (· ∉ visited)).length := by
        have heq : domain.dedup.filter (· ∉ node :: visited) =
            (domain.dedup.filter (· ∉ visited)).erase node := by
          rw [List.Nodup.erase_eq_filter ((nodup_dedup domain).filter _),
            filter_filter]
          congr 1
          funext x
          by_cases hx : x = node <;> simp [hx]
        rw [heq, length_erase_of_mem hnode]
        have hpos := length_pos_of_mem hnode
        omega
      have hqueue : (if passes node then node :: queue else queue).length ≤ queue.length + 1 := by
        split <;> simp
      omega

/-- Every mark of a run is reached by an edge relation containing the start
marks, provided queued nodes are marked. -/
theorem flood_sound {next : α → List α} {passes : α → Bool} (reach : α → Prop)
    (hstep : ∀ x y, reach x → passes x = true → y ∈ next x → reach y)
    (fuel : ℕ) (queue visited : List α)
    (hqueue : ∀ x ∈ queue, ∀ y ∈ next x, reach y)
    (hvisited : ∀ x ∈ visited, reach x) :
    ∀ x ∈ flood next passes fuel queue visited, reach x := by
  induction fuel generalizing queue visited with
  | zero => exact hvisited
  | succ fuel ih =>
    cases queue with
    | nil => exact hvisited
    | cons node =>
      apply ih
      · intro x hx y hy
        rcases (mem_discover_queue _ _ _ _ _).mp hx with hq | ⟨hn, _, hp⟩
        · exact hqueue x (.tail _ hq) y hy
        · exact hstep x y (hqueue node mem_cons_self x hn) hp hy
      · intro x hx
        rcases (mem_discover_visited _ _ _ _ _).mp hx with hv | hn
        · exact hvisited x hv
        · exact hqueue node mem_cons_self x hn

/-- With one unit of fuel per unmarked node and queue entry the marks are
closed: every marked node that is passable or was queued has only marked
neighbours. -/
theorem flood_closed {next : α → List α} (passes : α → Bool) {domain : List α}
    (hdom : ∀ x, ∀ y ∈ next x, y ∈ domain) (source : α → Prop)
    (fuel : ℕ) (queue visited : List α)
    (hfuel : queue.length + (domain.dedup.filter (· ∉ visited)).length ≤ fuel)
    (hopen : ∀ x ∈ visited, source x ∨ passes x = true →
      x ∈ queue ∨ ∀ y ∈ next x, y ∈ visited)
    (hfresh : ∀ x, source x → x ∈ visited) :
    (∀ x ∈ visited, x ∈ flood next passes fuel queue visited) ∧
      ∀ x ∈ flood next passes fuel queue visited, source x ∨ passes x = true →
        ∀ y ∈ next x, y ∈ flood next passes fuel queue visited := by
  induction fuel generalizing queue visited with
  | zero =>
    have hq : queue = [] := length_eq_zero_iff.mp (by omega)
    subst hq
    refine ⟨fun x hx => hx, fun x hx ho => ?_⟩
    exact (hopen x hx ho).resolve_left not_mem_nil
  | succ fuel ih =>
    cases queue with
    | nil =>
      refine ⟨fun x hx => hx, fun x hx ho => ?_⟩
      exact (hopen x hx ho).resolve_left not_mem_nil
    | cons node queue =>
      have hmeasure := discover_measure passes domain queue visited (hdom node)
      have hless : (discover passes (next node) queue visited).1.length +
          (domain.dedup.filter (· ∉ (discover passes (next node) queue visited).2)).length ≤
          fuel := by
        rw [length_cons] at hfuel
        omega
      obtain ⟨hkeep, hclosed⟩ := ih _ _ hless
        (fun x hx ho => by
          by_cases hv : x ∈ visited
          · rcases hopen x hv ho with hq | hn
            · rcases mem_cons.mp hq with rfl | hq
              · exact .inr fun y hy => (mem_discover_visited _ _ _ _ _).mpr (.inr hy)
              · exact .inl ((mem_discover_queue _ _ _ _ _).mpr (.inl hq))
            · exact .inr fun y hy => (mem_discover_visited _ _ _ _ _).mpr (.inl (hn y hy))
          · rcases (mem_discover_visited _ _ _ _ _).mp hx with h | h
            · exact absurd h hv
            · have hp := ho.resolve_left fun h => hv (hfresh x h)
              exact .inl ((mem_discover_queue _ _ _ _ _).mpr (.inr ⟨h, hv, hp⟩)))
        (fun x hx => (mem_discover_visited _ _ _ _ _).mpr (.inl (hfresh x hx)))
      exact ⟨fun x hx => hkeep x ((mem_discover_visited _ _ _ _ _).mpr (.inl hx)), hclosed⟩

/-- A full flood from one node marks it and exactly the ends of its bridges. -/
theorem mem_flood {next : α → List α} {passes : α → Bool} {domain : List α}
    (hdom : ∀ x, ∀ y ∈ next x, y ∈ domain) {start : α} {fuel : ℕ}
    (hfuel : domain.length + 1 ≤ fuel) (x : α) :
    x ∈ flood next passes fuel [start] [start] ↔ x = start ∨ Bridge next passes start x := by
  constructor
  · refine flood_sound (fun x => x = start ∨ Bridge next passes start x)
      (fun a b ha hp hb => ?_) fuel [start] [start] (fun a ha b hb => ?_) (fun a ha => ?_) x
    · rcases ha with rfl | ha
      · exact .inr (.direct hb)
      · exact .inr (ha.snoc hp hb)
    · rw [mem_singleton.mp ha] at hb
      exact .inr (.direct hb)
    · exact .inl (mem_singleton.mp ha)
  · have hlen : (domain.dedup.filter (· ∉ [start])).length ≤ domain.length :=
      (length_filter_le _ _).trans (dedup_sublist domain).length_le
    obtain ⟨hkeep, hclosed⟩ := flood_closed passes hdom (· = start) fuel
      [start] [start] (by simp only [length_singleton]; omega)
      (fun a ha _ => .inl ha) (fun a ha => mem_singleton.mpr ha)
    rintro (rfl | hb)
    · exact hkeep _ (mem_singleton.mpr rfl)
    · suffices h : ∀ a b, Bridge next passes a b → a = start ∨ passes a = true →
          a ∈ flood next passes fuel [start] [start] →
          b ∈ flood next passes fuel [start] [start] from
        h start x hb (.inl rfl) (hkeep _ (mem_singleton.mpr rfl))
      intro a b hab
      induction hab with
      | direct hm => exact fun ho ha => hclosed _ ha ho _ hm
      | through hm hp _ ih => exact fun ho ha => ih (.inr hp) (hclosed _ ha ho _ hm)

theorem mem_flood_starts {next : α → List α} {domain : List α}
    (hdom : ∀ x, ∀ y ∈ next x, y ∈ domain) {queue starts : List α}
    (hqueue : ∀ x, x ∈ queue ↔ x ∈ starts) {fuel : ℕ}
    (hfuel : queue.length + domain.length ≤ fuel) (x : α) :
    x ∈ flood next (fun _ => true) fuel queue starts ↔
      ∃ s ∈ starts, Relation.ReflTransGen (fun a b => b ∈ next a) s x := by
  constructor
  · refine flood_sound (fun x => ∃ s ∈ starts, Relation.ReflTransGen (fun a b => b ∈ next a) s x)
      ?_ fuel queue starts ?_ ?_ x
    · rintro a b ⟨s, hs, ha⟩ - hb
      exact ⟨s, hs, ha.tail hb⟩
    · intro a ha b hb
      exact ⟨a, (hqueue a).mp ha, Relation.ReflTransGen.single hb⟩
    · intro a ha
      exact ⟨a, ha, Relation.ReflTransGen.refl⟩
  · have hlen : (domain.dedup.filter (· ∉ starts)).length ≤ domain.length :=
      (length_filter_le _ _).trans (dedup_sublist domain).length_le
    obtain ⟨hkeep, hclosed⟩ := flood_closed (fun _ => true) hdom (· ∈ starts) fuel queue starts
      (by omega) (fun a ha _ => .inl ((hqueue a).mpr ha)) (fun a ha => ha)
    rintro ⟨s, hs, hreach⟩
    induction hreach with
    | refl => exact hkeep s hs
    | tail _ hstep ih => exact hclosed _ ih (.inr rfl) _ hstep

end OxyMake.Flood
