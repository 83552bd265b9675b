import Mathlib.Algebra.GroupWithZero.Nat
import Mathlib.Algebra.BigOperators.Group.List.Basic
import Mathlib.Data.List.Nodup

/-!
# Counting the members of a list

Comparison of two counts over lists without repetition, splitting a count by a
second predicate, the effect of one member changing sides, and the weight left
over when one more member is marked.
-/

namespace OxyMake.Counting

open List

variable {α : Type*}

/-- Two lists without repetition count the same when the same members satisfy
the predicates. -/
theorem countP_eq_of_mem_iff {xs ys : List α} {p q : α → Bool} (hxs : xs.Nodup)
    (hys : ys.Nodup) (h : ∀ a, a ∈ xs ∧ p a = true ↔ a ∈ ys ∧ q a = true) :
    xs.countP p = ys.countP q := by
  have hperm : (xs.filter p).Perm (ys.filter q) := by
    rw [perm_ext_iff_of_nodup (hxs.filter _) (hys.filter _)]
    intro a
    rw [mem_filter, mem_filter]
    exact h a
  rw [countP_eq_length_filter, countP_eq_length_filter]
  exact hperm.length_eq

theorem countP_split (p q : α → Bool) (xs : List α) :
    xs.countP p = (xs.countP fun a => p a && q a) + xs.countP fun a => p a && !q a := by
  induction xs with
  | nil => rfl
  | cons a xs ih =>
    rw [countP_cons, countP_cons, countP_cons, ih]
    cases p a <;> cases q a <;> simp <;> omega

theorem countP_flip [DecidableEq α] {l : List α} (hl : l.Nodup) {p q : α → Bool} {k : α}
    (hp : p k = true) (hq : q k = false) (hpq : ∀ a, a ≠ k → p a = q a) :
    l.countP p = l.countP q + if k ∈ l then 1 else 0 := by
  induction l with
  | nil => rfl
  | cons a l ih =>
    obtain ⟨ha, hrest⟩ := nodup_cons.mp hl
    rw [countP_cons, countP_cons, ih hrest]
    by_cases hk : a = k
    · subst hk
      simp [hp, hq, ha]
    · simp [hpq a hk, Ne.symm hk]
      omega

/-- Marking one more member of a list without repetition takes its weight away. -/
theorem sum_unmarked [DecidableEq α] (weight : α → ℕ) {l marked : List α} (hl : l.Nodup) {k : α}
    (hk : k ∈ l) (hm : k ∉ marked) :
    ((l.filter (· ∉ k :: marked)).map weight).sum + weight k =
      ((l.filter (· ∉ marked)).map weight).sum := by
  induction l with
  | nil => cases hk
  | cons a l ih =>
    obtain ⟨ha, hrest⟩ := nodup_cons.mp hl
    by_cases hak : a = k
    · subst hak
      have hsame : l.filter (· ∉ a :: marked) = l.filter (· ∉ marked) := by
        refine filter_congr fun b hb => ?_
        have hne : b ≠ a := fun h => ha (h ▸ hb)
        simp [hne]
      have hleft : (a :: l).filter (· ∉ a :: marked) = l.filter (· ∉ a :: marked) :=
        filter_cons_of_neg (by simp)
      have hright : (a :: l).filter (· ∉ marked) = a :: l.filter (· ∉ marked) :=
        filter_cons_of_pos (by simpa using hm)
      rw [hleft, hright, hsame, map_cons, sum_cons, Nat.add_comm]
    · have htail := ih hrest ((mem_cons.mp hk).resolve_left (Ne.symm hak))
      by_cases ham : a ∈ marked
      · simpa [ham] using htail
      · simp only [filter_cons, mem_cons, hak, ham, or_self, not_false_eq_true,
          decide_true, if_true, map_cons, sum_cons]
        simp only [mem_cons] at htail
        omega

theorem countP_modify {l : List α} {i : ℕ} {a : α} (h : l[i]? = some a) (f : α → α)
    (p : α → Bool) :
    (l.modify i f).countP p + (if p a then 1 else 0) = l.countP p + if p (f a) then 1 else 0 := by
  induction l generalizing i with
  | nil => cases h
  | cons b l ih =>
    cases i with
    | zero =>
      cases h
      rw [modify_zero_cons, countP_cons, countP_cons]
      omega
    | succ =>
      have hrest := ih h
      rw [modify_succ_cons, countP_cons, countP_cons]
      omega

end OxyMake.Counting
