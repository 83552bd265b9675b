import Mathlib.Data.List.Basic
import Mathlib.Logic.Function.Basic

/-!
# Advisory locks on open file descriptions

A lock belongs to an open file description. Several owners may have descriptors of
one description open; the lock is released when the last of them is closed. An
attempt to lock does not wait: it fails while another description has the lock of
the file.
-/

namespace OxyMake.AdvisoryLocks

open List Function

structure Description (F : Type) where
  serial : ℕ
  file : F
  deriving DecidableEq

/-- Open descriptors, by their owners, and locks. -/
structure Kernel (O F : Type) where
  opened : List (O × Description F)
  locks : F → Option (Description F)
  serial : ℕ
  /-- A lock is on the file of its description. -/
  locked_file : ∀ f d, locks f = some d → d.file = f
  /-- A description that has a lock is open. -/
  locked_open : ∀ f d, locks f = some d → ∃ o, (o, d) ∈ opened
  /-- Serial numbers are not used again. -/
  fresh : ∀ o d, (o, d) ∈ opened → d.serial < serial

namespace Kernel

variable {O F : Type}

def empty (O F : Type) : Kernel O F where
  opened := []
  locks _ := none
  serial := 0
  locked_file _ _ h := by cases h
  locked_open _ _ h := by cases h
  fresh _ _ h := by cases h

def openFile (k : Kernel O F) (o : O) (f : F) : Kernel O F where
  opened := (o, ⟨k.serial, f⟩) :: k.opened
  locks := k.locks
  serial := k.serial + 1
  locked_file := k.locked_file
  locked_open f d h := by
    obtain ⟨o, ho⟩ := k.locked_open f d h
    exact ⟨o, mem_cons_of_mem _ ho⟩
  fresh o d h := by
    rcases mem_cons.mp h with h | h
    · cases h
      exact Nat.lt_succ_self _
    · exact Nat.lt_succ_of_lt (k.fresh o d h)

def nextDescription (k : Kernel O F) (f : F) : Description F := ⟨k.serial, f⟩

/-- The lock of its file is free for a description. -/
def free [DecidableEq F] (k : Kernel O F) (d : Description F) : Bool :=
  decide (k.locks d.file = none ∨ k.locks d.file = some d)

def lock [DecidableEq F] (k : Kernel O F) (d : Description F) (h : ∃ o, (o, d) ∈ k.opened) :
    Kernel O F where
  opened := k.opened
  locks := Function.update k.locks d.file (some d)
  serial := k.serial
  locked_file f e he := by
    by_cases hf : f = d.file
    · rw [hf, update_self] at he
      cases he
      exact hf.symm
    · rw [update_of_ne hf] at he
      exact k.locked_file f e he
  locked_open f e he := by
    by_cases hf : f = d.file
    · rw [hf, update_self] at he
      cases he
      exact h
    · rw [update_of_ne hf] at he
      exact k.locked_open f e he
  fresh := k.fresh

def duplicate [DecidableEq O] (k : Kernel O F) (source target : O) : Kernel O F where
  opened := (k.opened.filter fun e => decide (e.1 = source)).map (fun e => (target, e.2)) ++ k.opened
  locks := k.locks
  serial := k.serial
  locked_file := k.locked_file
  locked_open f d h := by
    obtain ⟨o, ho⟩ := k.locked_open f d h
    exact ⟨o, mem_append_right _ ho⟩
  fresh o d h := by
    rcases mem_append.mp h with h | h
    · obtain ⟨⟨o', d'⟩, hmem, heq⟩ := mem_map.mp h
      cases heq
      exact k.fresh o' d' (mem_filter.mp hmem).1
    · exact k.fresh o d h

def close [DecidableEq F] (k : Kernel O F) (gone : O → Bool) : Kernel O F where
  opened := k.opened.filter fun e => !gone e.1
  locks f := (k.locks f).filter fun d => k.opened.any fun e => !gone e.1 && decide (e.2 = d)
  serial := k.serial
  locked_file _ _ h := k.locked_file _ _ (Option.filter_eq_some_iff.mp h).1
  locked_open _ _ h := by
    obtain ⟨⟨o, _⟩, hmem, hkeep⟩ := any_eq_true.mp (Option.filter_eq_some_iff.mp h).2
    rw [Bool.and_eq_true, decide_eq_true_eq] at hkeep
    obtain ⟨hgone, rfl⟩ := hkeep
    exact ⟨o, mem_filter.mpr ⟨hmem, hgone⟩⟩
  fresh o d h := k.fresh o d (mem_filter.mp h).1

/-! ### Holding a lock -/

/-- An owner has a descriptor of the description that has the lock of a file. -/
def Holds (k : Kernel O F) (o : O) (f : F) : Prop := ∃ d, (o, d) ∈ k.opened ∧ k.locks f = some d

variable {k : Kernel O F} {o o' : O} {f : F} {d d' : Description F}

theorem mem_openFile : (o, d) ∈ (k.openFile o' f).opened ↔
    (o = o' ∧ d = k.nextDescription f) ∨ (o, d) ∈ k.opened := by
  rw [openFile, mem_cons, Prod.mk.injEq]
  exact Iff.rfl

theorem holds_openFile {g : F} : (k.openFile o' f).Holds o g ↔ k.Holds o g := by
  constructor
  · rintro ⟨d, hopen, hlock⟩
    rcases mem_openFile.mp hopen with ⟨-, rfl⟩ | hopen
    · obtain ⟨owner, hold⟩ := k.locked_open g _ hlock
      exact absurd (k.fresh owner _ hold) (Nat.lt_irrefl _)
    · exact ⟨d, hopen, hlock⟩
  · rintro ⟨d, hopen, hlock⟩
    exact ⟨d, mem_openFile.mpr (.inr hopen), hlock⟩

theorem holds_lock [DecidableEq F] {h : ∃ o, (o, d) ∈ k.opened} (hfree : k.free d = true) :
    (k.lock d h).Holds o f ↔ k.Holds o f ∨ f = d.file ∧ (o, d) ∈ k.opened := by
  have hfree := of_decide_eq_true hfree
  by_cases hf : f = d.file
  · subst hf
    constructor
    · rintro ⟨e, hopen, hlock⟩
      have hself : (k.lock d h).locks d.file = some d := update_self _ _ _
      cases hself.symm.trans hlock
      exact .inr ⟨rfl, hopen⟩
    · rintro (⟨e, hopen, hlock⟩ | ⟨-, hopen⟩)
      · rcases hfree with hnone | hsome
        · rw [hnone] at hlock
          cases hlock
        · cases hsome.symm.trans hlock
          exact ⟨d, hopen, update_self _ _ _⟩
      · exact ⟨d, hopen, update_self _ _ _⟩
  · have hsame : (k.lock d h).locks f = k.locks f := update_of_ne hf _ _
    constructor
    · rintro ⟨e, hopen, hlock⟩
      exact .inl ⟨e, hopen, hsame ▸ hlock⟩
    · rintro (⟨e, hopen, hlock⟩ | ⟨heq, -⟩)
      · exact ⟨e, hopen, hsame.trans hlock⟩
      · exact absurd heq hf

/-- While the lock of a file is not free for a description, somebody holds it through another
one. -/
theorem holds_of_not_free [DecidableEq F] (h : k.free d = false) :
    ∃ o d', d' ≠ d ∧ (o, d') ∈ k.opened ∧ k.Holds o d.file ∧ d'.file = d.file := by
  have hnot := of_decide_eq_false h
  rw [not_or] at hnot
  obtain ⟨hsome, hother⟩ := hnot
  obtain ⟨e, he⟩ := Option.ne_none_iff_exists'.mp hsome
  obtain ⟨o, ho⟩ := k.locked_open d.file e he
  refine ⟨o, e, ?_, ho, ⟨e, ho, he⟩, k.locked_file d.file e he⟩
  rintro rfl
  exact hother he

theorem mem_duplicate [DecidableEq O] {source target : O} : (o, d) ∈ (k.duplicate source target).opened ↔
    (o = target ∧ (source, d) ∈ k.opened) ∨ (o, d) ∈ k.opened := by
  rw [duplicate, mem_append, mem_map]
  constructor
  · rintro (⟨⟨_, _⟩, hmem, heq⟩ | hmem)
    · obtain ⟨hopen, hsource⟩ := mem_filter.mp hmem
      have hsource := of_decide_eq_true hsource
      dsimp only at hsource
      cases heq
      exact .inl ⟨rfl, hsource ▸ hopen⟩
    · exact .inr hmem
  · rintro (⟨rfl, hopen⟩ | hmem)
    · exact .inl ⟨(source, d), mem_filter.mpr ⟨hopen, decide_eq_true rfl⟩, rfl⟩
    · exact .inr hmem

theorem holds_duplicate [DecidableEq O] {source target : O} : (k.duplicate source target).Holds o f ↔
    (o = target ∧ k.Holds source f) ∨ k.Holds o f := by
  constructor
  · rintro ⟨d, hopen, hlock⟩
    rcases mem_duplicate.mp hopen with ⟨heq, hopen⟩ | hopen
    · exact .inl ⟨heq, d, hopen, hlock⟩
    · exact .inr ⟨d, hopen, hlock⟩
  · rintro (⟨heq, d, hopen, hlock⟩ | ⟨d, hopen, hlock⟩)
    · exact ⟨d, mem_duplicate.mpr (.inl ⟨heq, hopen⟩), hlock⟩
    · exact ⟨d, mem_duplicate.mpr (.inr hopen), hlock⟩

theorem mem_close [DecidableEq F] {gone : O → Bool} : (o, d) ∈ (k.close gone).opened ↔
    (o, d) ∈ k.opened ∧ gone o = false := by
  rw [close, mem_filter, Bool.not_eq_true']

/-- The other owners keep their locks, whatever they share with those whose descriptors are
closed. -/
theorem holds_close [DecidableEq F] {gone : O → Bool} : (k.close gone).Holds o f ↔
    k.Holds o f ∧ gone o = false := by
  constructor
  · rintro ⟨d, hopen, hlock⟩
    obtain ⟨hopen, hgone⟩ := mem_close.mp hopen
    exact ⟨⟨d, hopen, (Option.filter_eq_some_iff.mp hlock).1⟩, hgone⟩
  · rintro ⟨⟨d, hopen, hlock⟩, hgone⟩
    refine ⟨d, mem_close.mpr ⟨hopen, hgone⟩, Option.filter_eq_some_iff.mpr ⟨hlock, ?_⟩⟩
    refine any_eq_true.mpr ⟨(o, d), hopen, ?_⟩
    rw [hgone, decide_eq_true rfl]
    rfl

/-! ### Groups of owners -/

def Grouped {G : Type} (group : O → G) (k : Kernel O F) : Prop :=
  ∀ o o' d, (o, d) ∈ k.opened → (o', d) ∈ k.opened → group o = group o'

section Groups

variable {G : Type} {group : O → G}

theorem Grouped.exclusive (h : k.Grouped group) (hheld : k.Holds o f) (hheld' : k.Holds o' f) :
    group o = group o' := by
  obtain ⟨d, hopen, hlock⟩ := hheld
  obtain ⟨_, hopen', hlock'⟩ := hheld'
  cases hlock.symm.trans hlock'
  exact h o o' d hopen hopen'

theorem Grouped.openFile (h : k.Grouped group) (o : O) (f : F) : (k.openFile o f).Grouped group := by
  have hnew : ∀ o', (o', k.nextDescription f) ∉ k.opened :=
    fun o' hmem => absurd (k.fresh o' _ hmem) (Nat.lt_irrefl _)
  intro o₁ o₂ d h₁ h₂
  rcases mem_openFile.mp h₁ with ⟨heq₁, rfl⟩ | h₁
  · rcases mem_openFile.mp h₂ with ⟨heq₂, -⟩ | h₂
    · rw [heq₁, heq₂]
    · exact absurd h₂ (hnew o₂)
  · rcases mem_openFile.mp h₂ with ⟨-, rfl⟩ | h₂
    · exact absurd h₁ (hnew o₁)
    · exact h o₁ o₂ d h₁ h₂

theorem Grouped.duplicate [DecidableEq O] (h : k.Grouped group) {source target : O}
    (hgroup : group target = group source) : (k.duplicate source target).Grouped group := by
  have hfrom : ∀ o d, (o, d) ∈ (k.duplicate source target).opened →
      ∃ o', group o' = group o ∧ (o', d) ∈ k.opened := by
    intro o d hmem
    rcases mem_duplicate.mp hmem with ⟨rfl, hopen⟩ | hopen
    · exact ⟨source, hgroup.symm, hopen⟩
    · exact ⟨o, rfl, hopen⟩
  intro o₁ o₂ d h₁ h₂
  obtain ⟨o₁', hg₁, h₁⟩ := hfrom o₁ d h₁
  obtain ⟨o₂', hg₂, h₂⟩ := hfrom o₂ d h₂
  rw [← hg₁, ← hg₂]
  exact h o₁' o₂' d h₁ h₂

theorem Grouped.close [DecidableEq F] (h : k.Grouped group) (gone : O → Bool) :
    (k.close gone).Grouped group :=
  fun o₁ o₂ d h₁ h₂ => h o₁ o₂ d (mem_close.mp h₁).1 (mem_close.mp h₂).1

end Groups

end Kernel

end OxyMake.AdvisoryLocks
