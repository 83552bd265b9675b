import Mathlib.Data.List.Basic
import Mathlib.Data.List.Nodup
import Mathlib.Data.List.Sort
import Mathlib.Order.Defs.Unbundled

/-!
# Maps as lists sorted by key

A map is a list of entries in the order of their keys. Inserting a key puts its
entry in place and replaces an earlier one; looking a key up afterwards gives
the new value there and the old value everywhere else.
-/

namespace OxyMake.SortedMap

open List

variable {K V : Type} [DecidableEq K] [LT K] [DecidableLT K]

/-- Insert or replace the value of a key, in key order. -/
def insert (k : K) (v : V) : List (K × V) → List (K × V)
  | [] => [(k, v)]
  | (k', v') :: m =>
    if k = k' then (k, v) :: m
    else if k < k' then (k, v) :: (k', v') :: m
    else (k', v') :: insert k v m

/-- Looking up a key after an insertion. -/
@[simp]
theorem lookup_insert [BEq K] [LawfulBEq K] (k : K) (v : V) (m : List (K × V)) (k' : K) :
    (insert k v m).lookup k' = if k' = k then some v else m.lookup k' := by
  induction m with
  | nil =>
    rw [insert, lookup_cons]
    by_cases hk : k' = k
    · rw [if_pos hk, hk, beq_self_eq_true]
    · rw [if_neg hk, beq_eq_false_iff_ne.mpr hk]
  | cons e m ih =>
    obtain ⟨a, b⟩ := e
    rw [insert]
    split_ifs with h₁ h₂ h₃ h₃
    · subst h₁
      subst h₂
      exact lookup_cons_self
    · subst h₁
      rw [lookup_cons, lookup_cons, beq_eq_false_iff_ne.mpr h₂]
    · subst h₃
      exact lookup_cons_self
    · rw [lookup_cons, beq_eq_false_iff_ne.mpr h₃]
    · rename_i hk
      subst hk
      rw [lookup_cons, beq_eq_false_iff_ne.mpr h₁, ih, if_pos rfl]
    · rename_i hk
      rw [lookup_cons, lookup_cons, ih, if_neg hk]

/-- Insert the entries of a list one after another. -/
def extend (m : List (K × V)) (entries : List (K × V)) : List (K × V) :=
  entries.foldl (fun m e => insert e.1 e.2 m) m

theorem lookup_extend [BEq K] [LawfulBEq K] {entries : List (K × V)}
    (h : (entries.map Prod.fst).Nodup) (m : List (K × V)) (k : K) :
    (extend m entries).lookup k = (entries.lookup k).or (m.lookup k) := by
  induction entries generalizing m with
  | nil => rfl
  | cons e entries ih =>
    obtain ⟨a, b⟩ := e
    obtain ⟨hnot, hrest⟩ := nodup_cons.mp h
    have hstep : (extend m ((a, b) :: entries)).lookup k =
        (entries.lookup k).or ((insert a b m).lookup k) := ih hrest (insert a b m)
    rw [hstep, lookup_insert, lookup_cons]
    by_cases hk : k = a
    · subst hk
      have hnone : entries.lookup k = none := by
        apply lookup_eq_none_iff.mpr
        intro p hp
        rw [bne_iff_ne]
        intro heq
        have hkey : p.1 ∈ entries.map Prod.fst := mem_map_of_mem hp
        rw [← heq] at hkey
        exact hnot hkey
      rw [hnone, if_pos rfl, beq_self_eq_true]
      rfl
    · rw [if_neg hk, beq_eq_false_iff_ne.mpr hk]

def orInsert [BEq K] (k : K) (v : V) (m : List (K × V)) : List (K × V) :=
  if (m.lookup k).isSome then m else insert k v m

/-- Insert the entries of a list whose keys have no value. -/
def fill [BEq K] (m entries : List (K × V)) : List (K × V) :=
  entries.foldl (fun m e => orInsert e.1 e.2 m) m

theorem lookup_fill [BEq K] [LawfulBEq K] (m entries : List (K × V)) (k : K) :
    (fill m entries).lookup k = (m.lookup k).or (entries.lookup k) := by
  induction entries generalizing m with
  | nil => exact (Option.or_none).symm
  | cons e entries ih =>
    obtain ⟨a, b⟩ := e
    have hstep : (fill m ((a, b) :: entries)).lookup k =
        ((orInsert a b m).lookup k).or (entries.lookup k) := ih (orInsert a b m)
    rw [hstep, orInsert, lookup_cons]
    by_cases hsome : (m.lookup a).isSome = true
    · rw [if_pos hsome]
      by_cases hk : k = a
      · subst hk
        obtain ⟨v, hv⟩ := Option.isSome_iff_exists.mp hsome
        rw [hv]
        rfl
      · rw [beq_eq_false_iff_ne.mpr hk]
    · rw [if_neg hsome, lookup_insert]
      have hnone : m.lookup a = none := Option.not_isSome_iff_eq_none.mp hsome
      by_cases hk : k = a
      · subst hk
        rw [if_pos rfl, beq_self_eq_true, hnone]
        rfl
      · rw [if_neg hk, beq_eq_false_iff_ne.mpr hk]

theorem mem_insert {k : K} {v : V} {e : K × V} {m : List (K × V)} (h : e ∈ insert k v m) :
    e = (k, v) ∨ e ∈ m := by
  induction m with
  | nil => exact .inl (mem_singleton.mp h)
  | cons e' m ih =>
    rw [insert] at h
    split_ifs at h with h₁ h₂
    · rcases mem_cons.mp h with h | h
      · exact .inl h
      · exact .inr (.tail _ h)
    · exact mem_cons.mp h
    · rcases mem_cons.mp h with h | h
      · exact .inr (h ▸ mem_cons_self)
      · exact (ih h).imp_right (.tail _)

/-- Every entry after inserting many is one of them or an old one. -/
theorem mem_extend {e : K × V} {entries m : List (K × V)} (h : e ∈ extend m entries) :
    e ∈ entries ∨ e ∈ m := by
  induction entries generalizing m with
  | nil => exact .inr h
  | cons e' entries ih =>
    rcases ih h with h | h
    · exact .inl (.tail _ h)
    · rcases mem_insert h with rfl | h
      · exact .inl mem_cons_self
      · exact .inr h

theorem mem_keys_insert {k k' : K} {v : V} {m : List (K × V)} :
    k' ∈ (insert k v m).map Prod.fst ↔ k' = k ∨ k' ∈ m.map Prod.fst := by
  induction m with
  | nil => simp [insert]
  | cons e m ih =>
    rw [insert]
    split_ifs with h₁ h₂
    · subst h₁
      simp
    · simp
    · rw [map_cons, mem_cons, ih, map_cons, mem_cons]
      tauto

def Sorted (m : List (K × V)) : Prop := (m.map Prod.fst).Pairwise (· < ·)

variable [IsStrictTotalOrder K (· < ·)]

omit [DecidableEq K] [DecidableLT K] in
/-- Sorted keys are distinct. -/
theorem Sorted.nodup {m : List (K × V)} (h : Sorted m) : (m.map Prod.fst).Nodup := by
  refine List.Pairwise.imp ?_ h
  intro a b hlt heq
  subst heq
  exact irrefl_of (· < ·) a hlt

omit [DecidableEq K] [DecidableLT K] in
theorem Sorted.ext {m m' : List (K × V)} (h : Sorted m) (h' : Sorted m')
    (hmem : ∀ e, e ∈ m ↔ e ∈ m') : m = m' := by
  have hirrefl : Std.Irrefl fun e e' : K × V => e.1 < e'.1 :=
    ⟨fun e hlt => irrefl_of (· < ·) e.1 hlt⟩
  have hanti : Std.Antisymm fun e e' : K × V => e.1 < e'.1 :=
    ⟨fun e e' hlt hgt => absurd (trans_of (· < ·) hlt hgt) (irrefl_of (· < ·) e.1)⟩
  exact List.Pairwise.eq_of_mem_iff (pairwise_map.mp h) (pairwise_map.mp h') hmem

omit [DecidableEq K] [DecidableLT K] in
/-- The entries of a sorted map are those found under their keys. -/
theorem Sorted.mem_iff_lookup [BEq K] [LawfulBEq K] {m : List (K × V)} (h : Sorted m)
    (e : K × V) : e ∈ m ↔ m.lookup e.1 = some e.2 := by
  constructor
  · intro hmem
    obtain ⟨before, after, rfl⟩ := append_of_mem hmem
    apply lookup_eq_some_iff.mpr
    refine ⟨before, after, rfl, ?_⟩
    intro p hp
    have hnodup := h.nodup
    rw [map_append, map_cons] at hnodup
    have hne := (nodup_append.mp hnodup).2.2 p.1 (mem_map_of_mem hp) e.1
      mem_cons_self
    exact bne_iff_ne.mpr hne.symm
  · intro hlookup
    obtain ⟨before, after, rfl, -⟩ := lookup_eq_some_iff.mp hlookup
    exact mem_append_right before mem_cons_self

omit [DecidableEq K] [DecidableLT K] in
/-- Sorted maps with the same lookups are the same. -/
theorem Sorted.ext_lookup [BEq K] [LawfulBEq K] {m m' : List (K × V)} (h : Sorted m)
    (h' : Sorted m') (heq : ∀ k, m.lookup k = m'.lookup k) : m = m' := by
  apply h.ext h'
  intro e
  rw [h.mem_iff_lookup, h'.mem_iff_lookup, heq]

/-- Insertion keeps the keys in order. -/
theorem Sorted.insert {m : List (K × V)} (h : Sorted m) (k : K) (v : V) :
    Sorted (insert k v m) := by
  induction m with
  | nil => exact pairwise_singleton _ _
  | cons e m ih =>
    obtain ⟨hhead, htail⟩ := pairwise_cons.mp h
    rw [SortedMap.insert]
    split_ifs with h₁ h₂
    · subst h₁
      exact h
    · refine pairwise_cons.mpr ⟨?_, h⟩
      intro k' hk'
      rcases mem_cons.mp hk' with rfl | hk'
      · exact h₂
      · exact trans_of (· < ·) h₂ (hhead k' hk')
    · refine pairwise_cons.mpr ⟨?_, ih htail⟩
      intro k' hk'
      rcases mem_keys_insert.mp hk' with rfl | hk'
      · exact (trichotomous_of (· < ·) k' e.1).resolve_left h₂ |>.resolve_left h₁
      · exact hhead k' hk'

/-- Inserting many entries keeps the keys in order. -/
theorem Sorted.extend {m : List (K × V)} (h : Sorted m) (entries : List (K × V)) :
    Sorted (extend m entries) := by
  induction entries generalizing m with
  | nil => exact h
  | cons e entries ih => exact ih (h.insert e.1 e.2)

end OxyMake.SortedMap
