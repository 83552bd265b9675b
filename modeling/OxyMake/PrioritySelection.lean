import Mathlib.Data.List.Sort

/-!
# Selection by priority

The elements of a list are sorted by priority, highest first. The first one is
selected when its priority exceeds that of the second; several elements of the
highest priority are tied. The answer depends on the elements and not on their
order, except for the order in which tied elements are named.
-/

namespace OxyMake.PrioritySelection

open List

/-- The answer of a selection. -/
inductive Selection (α : Type)
  | none
  | sole (a : α)
  /-- Several elements have the highest priority; all elements are named. -/
  | tied (all : List α)

/-- Apply a function to the elements of an answer. -/
def Selection.map {α β : Type} (f : α → β) : Selection α → Selection β
  | .none => .none
  | .sole a => .sole (f a)
  | .tied all => .tied (all.map f)

section Select

variable {α : Type} (priority : α → ℕ)

def select : List α → Selection α
  | [] => .none
  | [a] => .sole a
  | several =>
    match several.insertionSort fun a b => priority b ≤ priority a with
    | best :: second :: rest =>
      if priority best > priority second then .sole best else .tied (best :: second :: rest)
    | _ => .none

/-- An element of the list whose priority exceeds that of every other one. -/
def SoleMax (cs : List α) (a : α) : Prop :=
  ∃ before after, cs = before ++ a :: after ∧ ∀ b ∈ before ++ after, priority b < priority a

/-- The answers agree up to the order in which tied elements are named. -/
inductive Selection.Same : Selection α → Selection α → Prop
  | none : Same .none .none
  | sole (a : α) : Same (.sole a) (.sole a)
  | tied {all all' : List α} : all.Perm all' → Same (.tied all) (.tied all')

variable {priority}

theorem SoleMax.perm {cs ds : List α} {a : α} (h : SoleMax priority cs a) (hperm : cs.Perm ds) :
    SoleMax priority ds a := by
  obtain ⟨before, after, rfl, hlower⟩ := h
  have hmem : a ∈ ds := hperm.subset (mem_append_right _ mem_cons_self)
  obtain ⟨before', after', rfl⟩ := append_of_mem hmem
  have hfirst : (a :: (before ++ after)).Perm (a :: (before' ++ after')) :=
    (perm_middle.symm.trans hperm).trans perm_middle
  have hrest : (before ++ after).Perm (before' ++ after') := hfirst.cons_inv
  exact ⟨before', after', rfl, fun b hb => hlower b (hrest.symm.subset hb)⟩

theorem sorted_by_priority (priority : α → ℕ) (cs : List α) :
    (cs.insertionSort fun a b => priority b ≤ priority a).Pairwise
      fun a b => priority b ≤ priority a := by
  have htotal : Std.Total fun a b : α => priority b ≤ priority a :=
    ⟨fun a b => Nat.le_total (priority b) (priority a)⟩
  have htrans : IsTrans α fun a b => priority b ≤ priority a :=
    ⟨fun a b c hab hbc => Nat.le_trans hbc hab⟩
  exact pairwise_insertionSort _ cs

theorem select_sorted (priority : α → ℕ) {cs : List α} (hlen : 2 ≤ cs.length) :
    ∃ best second rest,
      (cs.insertionSort fun a b => priority b ≤ priority a) = best :: second :: rest ∧
        select priority cs =
          if priority best > priority second then .sole best
          else .tied (best :: second :: rest) := by
  have hsorted := length_insertionSort (fun a b => priority b ≤ priority a) cs
  cases hcs : cs.insertionSort fun a b => priority b ≤ priority a with
  | nil =>
    rw [hcs, length_nil] at hsorted
    omega
  | cons best tail =>
    cases tail with
    | nil =>
      rw [hcs, length_singleton] at hsorted
      omega
    | cons second rest =>
      refine ⟨best, second, rest, rfl, ?_⟩
      cases cs with
      | nil => cases hcs
      | cons a cs =>
        cases cs with
        | nil =>
          rw [length_singleton] at hlen
          omega
        | cons =>
          rw [select.eq_def]
          dsimp only
          rw [hcs]

theorem soleMax_of_select {cs : List α} {a : α} (h : select priority cs = .sole a) :
    SoleMax priority cs a := by
  by_cases hlen : 2 ≤ cs.length
  · obtain ⟨_, second, rest, hsorted, hselect⟩ := select_sorted priority hlen
    rw [hselect] at h
    split_ifs at h with hbest
    cases h
    have hpairs := sorted_by_priority priority cs
    rw [hsorted] at hpairs
    have hsecond : ∀ b ∈ rest, priority b ≤ priority second :=
      (pairwise_cons.mp (pairwise_cons.mp hpairs).2).1
    have hmax : SoleMax priority (a :: second :: rest) a := by
      refine ⟨[], second :: rest, rfl, ?_⟩
      intro b hb
      cases mem_cons.mp hb with
      | inl heq =>
        rw [heq]
        exact hbest
      | inr hrest =>
        have hle := hsecond b hrest
        omega
    rw [← hsorted] at hmax
    exact hmax.perm (perm_insertionSort _ cs)
  · cases cs with
    | nil => cases h
    | cons b cs =>
      cases cs with
      | nil =>
        cases h
        exact ⟨[], [], rfl, forall_mem_nil _⟩
      | cons =>
        simp only [length_cons] at hlen
        omega

theorem select_of_soleMax {cs : List α} {a : α} (h : SoleMax priority cs a) :
    select priority cs = .sole a := by
  by_cases hlen : 2 ≤ cs.length
  · obtain ⟨best, second, rest, hsorted, hselect⟩ := select_sorted priority hlen
    have hperm : cs.Perm (best :: second :: rest) := by
      rw [← hsorted]
      exact (perm_insertionSort _ cs).symm
    have hpairs := sorted_by_priority priority cs
    rw [hsorted] at hpairs
    have hfirst := (pairwise_cons.mp hpairs).1
    obtain ⟨before, after, heq, hlower⟩ := h.perm hperm
    cases before with
    | nil =>
      rw [nil_append, List.cons.injEq] at heq
      obtain ⟨rfl, rfl⟩ := heq
      have hbest := hlower second (by simp)
      rw [hselect, if_pos hbest]
    | cons =>
      rw [cons_append, List.cons.injEq] at heq
      obtain ⟨rfl, htail⟩ := heq
      have hlt := hlower best (by simp)
      have hle := hfirst a (by rw [htail]; simp)
      omega
  · obtain ⟨before, after, rfl, -⟩ := h
    have hempty : before = [] ∧ after = [] := by
      simp only [length_append, length_cons] at hlen
      exact ⟨length_eq_zero_iff.mp (by omega), length_eq_zero_iff.mp (by omega)⟩
    rw [hempty.1, hempty.2]
    rfl

theorem select_eq_sole_iff {cs : List α} {a : α} :
    select priority cs = .sole a ↔ SoleMax priority cs a :=
  ⟨soleMax_of_select, select_of_soleMax⟩

theorem select_eq_none_iff {cs : List α} : select priority cs = .none ↔ cs = [] := by
  constructor
  · intro h
    by_cases hlen : 2 ≤ cs.length
    · obtain ⟨_, _, _, -, hselect⟩ := select_sorted priority hlen
      rw [hselect] at h
      split_ifs at h
    · cases cs with
      | nil => rfl
      | cons b cs =>
        cases cs with
        | nil => cases h
        | cons =>
          simp only [length_cons] at hlen
          omega
  · rintro rfl
    rfl

theorem perm_of_select_tied {cs all : List α} (h : select priority cs = .tied all) :
    all.Perm cs := by
  by_cases hlen : 2 ≤ cs.length
  · obtain ⟨_, _, _, hsorted, hselect⟩ := select_sorted priority hlen
    rw [hselect] at h
    split_ifs at h
    cases h
    rw [← hsorted]
    exact perm_insertionSort _ cs
  · cases cs with
    | nil => cases h
    | cons b cs =>
      cases cs with
      | nil => cases h
      | cons =>
        simp only [length_cons] at hlen
        omega

theorem select_perm {cs ds : List α} (hperm : cs.Perm ds) :
    (select priority cs).Same (select priority ds) := by
  cases hcs : select priority cs with
  | none =>
    have hnil := select_eq_none_iff.mp hcs
    rw [hnil] at hperm
    rw [select_eq_none_iff.mpr hperm.nil_eq.symm]
    exact .none
  | sole a =>
    rw [select_of_soleMax ((soleMax_of_select hcs).perm hperm)]
    exact .sole a
  | tied =>
    cases hds : select priority ds with
    | none =>
      have hnil := select_eq_none_iff.mp hds
      rw [hnil] at hperm
      rw [select_eq_none_iff.mpr hperm.eq_nil] at hcs
      cases hcs
    | sole =>
      rw [select_of_soleMax ((soleMax_of_select hds).perm hperm.symm)] at hcs
      cases hcs
    | tied =>
      exact .tied ((perm_of_select_tied hcs).trans (hperm.trans (perm_of_select_tied hds).symm))

end Select

theorem select_map {α β : Type} (f : α → β) (priority : β → ℕ) (cs : List α) :
    select priority (cs.map f) = (select (fun a => priority (f a)) cs).map f := by
  cases hcs : select (fun a => priority (f a)) cs with
  | none =>
    rw [select_eq_none_iff.mp hcs]
    rfl
  | sole =>
    obtain ⟨before, after, rfl, hlower⟩ := soleMax_of_select hcs
    refine select_of_soleMax ⟨before.map f, after.map f, ?_, ?_⟩
    · rw [map_append, map_cons]
    · intro b hb
      rw [← map_append] at hb
      obtain ⟨b', hb', rfl⟩ := mem_map.mp hb
      exact hlower b' hb'
  | tied =>
    have hlen : 2 ≤ cs.length := by
      cases cs with
      | nil => cases hcs
      | cons b cs =>
        cases cs with
        | nil => cases hcs
        | cons =>
          simp only [length_cons]
          omega
    have hlen' : 2 ≤ (cs.map f).length := by rw [length_map]; exact hlen
    obtain ⟨best, second, rest, hsorted, hselect⟩ :=
      select_sorted (fun a => priority (f a)) hlen
    obtain ⟨best', second', rest', hsorted', hselect'⟩ :=
      select_sorted priority hlen'
    have himage : best' :: second' :: rest' = (best :: second :: rest).map f := by
      rw [← hsorted, ← hsorted']
      exact (map_insertionSort _ _ f cs fun a _ b _ => Iff.rfl).symm
    rw [map_cons, map_cons, List.cons.injEq, List.cons.injEq] at himage
    obtain ⟨rfl, rfl, rfl⟩ := himage
    rw [hselect] at hcs
    split_ifs at hcs with hbest
    cases hcs
    rw [hselect', if_neg hbest]
    rfl

end OxyMake.PrioritySelection
