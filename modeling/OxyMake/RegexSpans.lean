import Mathlib.Data.List.Basic
import Mathlib.Order.Nat

/-!
# Regular expressions over spans

An expression matches a text between two positions. Assertions look at the whole
text, everything else only at the symbols it passes: an expression without
assertions that matches a span also matches the text of the span alone.
-/

namespace OxyMake.RegexSpans

/-- An expression over symbols, with groups that may be named. -/
inductive Regex (α ν : Type)
  | empty
  | one (accepts : α → Bool)
  | look (holds : List α → ℕ → Bool)
  | seq (a b : Regex α ν)
  | alt (a b : Regex α ν)
  | star (a : Regex α ν)
  | group (name : Option ν) (a : Regex α ν)

variable {α ν : Type}

/-- An expression matches a text from one position to another. -/
inductive Matches (text : List α) : Regex α ν → ℕ → ℕ → Prop
  | empty {i : ℕ} : i ≤ text.length → Matches text .empty i i
  | one {accepts : α → Bool} {i : ℕ} {x : α} : text[i]? = some x → accepts x = true →
      Matches text (.one accepts) i (i + 1)
  | look {holds : List α → ℕ → Bool} {i : ℕ} : i ≤ text.length → holds text i = true →
      Matches text (.look holds) i i
  | seq {a b : Regex α ν} {i k j : ℕ} : Matches text a i k → Matches text b k j →
      Matches text (.seq a b) i j
  | left {a b : Regex α ν} {i j : ℕ} : Matches text a i j → Matches text (.alt a b) i j
  | right {a b : Regex α ν} {i j : ℕ} : Matches text b i j → Matches text (.alt a b) i j
  | stop {a : Regex α ν} {i : ℕ} : i ≤ text.length → Matches text (.star a) i i
  | again {a : Regex α ν} {i k j : ℕ} : Matches text a i k → Matches text (.star a) k j →
      Matches text (.star a) i j
  | group {name : Option ν} {a : Regex α ν} {i j : ℕ} : Matches text a i j →
      Matches text (.group name a) i j

def chain : List (Regex α ν) → Regex α ν
  | [] => .empty
  | r :: rs => .seq r (chain rs)

def word [DecidableEq α] (w : List α) : Regex α ν := chain (w.map fun x => .one (· = x))

def Regex.groupNames : Regex α ν → List ν
  | .empty | .one _ | .look _ => []
  | .seq a b | .alt a b => a.groupNames ++ b.groupNames
  | .star a => a.groupNames
  | .group name a => name.toList ++ a.groupNames

def Regex.LookFree : Regex α ν → Prop
  | .empty | .one _ => True
  | .look _ => False
  | .seq a b | .alt a b => a.LookFree ∧ b.LookFree
  | .star a | .group _ a => a.LookFree

def span (text : List α) (i j : ℕ) : List α := (text.take j).drop i

/-- A match of expressions in a row whose named groups captured what they passed. -/
inductive Captured (text : List α) (caps : ν → Option (List α)) :
    List (Regex α ν) → ℕ → ℕ → Prop
  | nil {i : ℕ} : i ≤ text.length → Captured text caps [] i i
  | cons {r : Regex α ν} {rs : List (Regex α ν)} {i k j : ℕ} : Matches text r i k →
      (∀ name a, r = .group (some name) a → caps name = some (span text i k)) →
      Captured text caps rs k j → Captured text caps (r :: rs) i j

/-! ### Positions -/

variable {text : List α} {r : Regex α ν} {i j : ℕ}

theorem Matches.bounds (h : Matches text r i j) : i ≤ j ∧ j ≤ text.length := by
  induction h with
  | empty hi => exact ⟨le_refl _, hi⟩
  | one hx _ =>
    have hlt := (List.getElem?_eq_some_iff.mp hx).1
    exact ⟨Nat.le_succ _, hlt⟩
  | look hi _ => exact ⟨le_refl _, hi⟩
  | seq _ _ iha ihb => exact ⟨le_trans iha.1 ihb.1, ihb.2⟩
  | left _ ih => exact ih
  | right _ ih => exact ih
  | stop hi => exact ⟨le_refl _, hi⟩
  | again _ _ iha ihb => exact ⟨le_trans iha.1 ihb.1, ihb.2⟩
  | group _ ih => exact ih

theorem length_span (hj : j ≤ text.length) : (span text i j).length = j - i := by
  rw [span, List.length_drop, List.length_take, Nat.min_eq_left hj]

theorem getElem?_span {k : ℕ} (hi : i ≤ k) (hk : k < j) :
    (span text i j)[k - i]? = text[k]? := by
  rw [span, List.getElem?_drop, Nat.add_sub_cancel' hi, List.getElem?_take, if_pos hk]

theorem Matches.inside_span {first last : ℕ} (hlast : last ≤ text.length)
    (h : Matches text r i j) (hfree : r.LookFree) (hi : first ≤ i) (hj : j ≤ last) :
    Matches (span text first last) r (i - first) (j - first) := by
  have hlength := length_span (i := first) hlast
  induction h with
  | empty => exact .empty (by omega)
  | @one accepts i x hx haccepts =>
    rw [Nat.sub_add_comm hi]
    refine .one ?_ haccepts
    rw [getElem?_span hi (by omega)]
    exact hx
  | look => exact hfree.elim
  | seq ha hb iha ihb =>
    have hka := ha.bounds
    have hkb := hb.bounds
    exact .seq (iha hfree.1 hi (by omega)) (ihb hfree.2 (by omega) hj)
  | left _ ih => exact .left (ih hfree.1 hi hj)
  | right _ ih => exact .right (ih hfree.2 hi hj)
  | stop => exact .stop (by omega)
  | again ha hb iha ihb =>
    have hka := ha.bounds
    have hkb := hb.bounds
    exact .again (iha hfree hi (by omega)) (ihb hfree (by omega) hj)
  | group _ ih => exact .group (ih hfree hi hj)

theorem Matches.alone (h : Matches text r i j) (hfree : r.LookFree) :
    Matches (span text i j) r 0 (j - i) := by
  have hspan := h.inside_span h.bounds.2 hfree (le_refl i) (le_refl j)
  rwa [Nat.sub_self] at hspan

/-! ### Expressions in a row -/

theorem chain_injective {rs ss : List (Regex α ν)} (h : chain rs = chain ss) : rs = ss := by
  induction rs generalizing ss with
  | nil =>
    cases ss with
    | nil => rfl
    | cons => cases h
  | cons r rs ih =>
    cases ss with
    | nil => cases h
    | cons =>
      obtain ⟨hhead, htail⟩ := Regex.seq.inj h
      rw [hhead, ih htail]

end OxyMake.RegexSpans
