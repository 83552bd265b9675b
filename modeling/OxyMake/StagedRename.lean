import Mathlib.Logic.Function.Basic
import Mathlib.Data.List.Induction
import Mathlib.Data.List.Nodup

/-!
# Two-phase renames

Files are moved one by one to staging names and then, one by one, to their final
names. A failure of the first phase moves the staged files back, a failure of
the second removes everything. While no file of the list is the staging name of
another one, the phases do to each file what they say; each loop is described by
the contents it leaves.
-/

namespace OxyMake.StagedRename

open List Function

variable {α β : Type*} [DecidableEq α]

/-- Remove the file at a name, if there is one. -/
def remove (files : α → Option β) (name : α) : α → Option β := Function.update files name none

/-- Move a file; it replaces what is at the new name. Without a file it fails. -/
def rename (files : α → Option β) (source target : α) : Option (α → Option β) :=
  match files source with
  | none => none
  | some content =>
    some (Function.update (Function.update files source none) target (some content))

variable (temp : α → α)

/-- Move staged files back, as far as that succeeds. -/
def rollback : List α → (α → Option β) → α → Option β
  | [], files => files
  | p :: rest, files => rollback rest ((rename files (temp p) p).getD files)

def cleanup : List α → (α → Option β) → α → Option β
  | [], files => files
  | p :: rest, files => cleanup rest (remove (remove files (temp p)) p)

/-- Move files to their staging names. A failure names its file and moves the
files staged before it back. -/
def stageFrom (fails : α → Bool) : List α → List α → (α → Option β) → Option α × (α → Option β)
  | _, [], files => (none, files)
  | staged, p :: rest, files =>
    match if fails p then none else rename files p (temp p) with
    | none => (some p, rollback temp staged files)
    | some files => stageFrom fails (staged ++ [p]) rest files

/-- Move files from their staging names. A failure names its file and removes
all files. -/
def commitFrom (fails : α → Bool) (outputs : List α) :
    List α → (α → Option β) → Option α × (α → Option β)
  | [], files => (none, files)
  | p :: rest, files =>
    match if fails p then none else rename files (temp p) p with
    | none => (some p, cleanup temp outputs files)
    | some files => commitFrom fails outputs rest files

/-- No file of a list is the staging name of one. -/
def Apart (outputs : List α) : Prop := ∀ p ∈ outputs, ∀ q ∈ outputs, temp p ≠ q

structure Staged (done : List α) (before after : α → Option β) : Prop where
  /-- No staged file is at its name. -/
  gone : ∀ p ∈ done, after p = none
  /-- Each is at its staging name. -/
  held : ∀ p ∈ done, after (temp p) = before p
  kept : ∀ x, x ∉ done → x ∉ done.map temp → after x = before x

/-- What moving files from their staging names leaves. -/
structure Restored (done : List α) (before after : α → Option β) : Prop where
  /-- Each file has what its staging name had. -/
  back : ∀ p ∈ done, after p = before (temp p)
  cleared : ∀ p ∈ done, after (temp p) = none
  kept : ∀ x, x ∉ done → x ∉ done.map temp → after x = before x

variable {temp}

theorem rename_eq_some {files : α → Option β} {source : α} {content : β} (target : α)
    (h : files source = some content) : rename files source target =
      some (Function.update (Function.update files source none) target (some content)) := by
  rw [rename, h]

theorem cleanup_spec (done : List α) (files : α → Option β) (x : α) :
    cleanup temp done files x = if x ∈ done ∨ x ∈ done.map temp then none else files x := by
  induction done generalizing files with
  | nil => simp [cleanup]
  | cons p rest ih =>
    rw [cleanup, ih]
    by_cases hrest : x ∈ rest ∨ x ∈ rest.map temp
    · have hall : x ∈ p :: rest ∨ x ∈ (p :: rest).map temp := by
        cases hrest with
        | inl h => exact .inl (.tail p h)
        | inr h => exact .inr (.tail (temp p) h)
      rw [if_pos hrest, if_pos hall]
    · rw [if_neg hrest]
      by_cases hp : x = p
      · rw [if_pos (.inl (hp ▸ mem_cons_self)), hp]
        exact update_self _ _ _
      · by_cases ht : x = temp p
        · rw [if_pos (.inr (ht ▸ mem_cons_self)), remove, update_of_ne hp, ht]
          exact update_self _ _ _
        · have hnone : ¬ (x ∈ p :: rest ∨ x ∈ (p :: rest).map temp) := by
            rw [map_cons, mem_cons, mem_cons]
            tauto
          rw [if_neg hnone, remove, remove, update_of_ne hp, update_of_ne ht]

section Phases

variable (hinj : Function.Injective temp) (hself : ∀ p, temp p ≠ p)

include hinj hself in
theorem Staged.snoc {done : List α} {before after : α → Option β} {p : α} {content : β}
    (h : Staged temp done before after) (hnew : p ∉ done) (hfree : p ∉ done.map temp)
    (htemp : temp p ∉ done) (hp : before p = some content) :
    ∃ files, rename after p (temp p) = some files ∧ Staged temp (done ++ [p]) before files := by
  have hafter : after p = some content := (h.kept p hnew hfree).trans hp
  have hne : ∀ q ∈ done, q ≠ p := fun q hq heq => hnew (heq ▸ hq)
  refine ⟨_, rename_eq_some _ hafter, ?_, ?_, ?_⟩
  · intro q hq
    cases mem_append.mp hq with
    | inl hq =>
      have hqt : q ≠ temp p := fun heq => htemp (heq ▸ hq)
      rw [update_of_ne hqt, update_of_ne (hne q hq)]
      exact h.gone q hq
    | inr hq =>
      rw [mem_singleton.mp hq, update_of_ne (hself p).symm]
      exact update_self _ _ _
  · intro q hq
    cases mem_append.mp hq with
    | inl hq =>
      have hqt : temp q ≠ temp p := fun heq => hne q hq (hinj heq)
      have hqp : temp q ≠ p := fun heq => hfree (heq ▸ mem_map_of_mem hq)
      rw [update_of_ne hqt, update_of_ne hqp]
      exact h.held q hq
    | inr hq =>
      rw [mem_singleton.mp hq, update_self, hp]
  · intro x hx hxt
    rw [map_append, map_singleton, mem_append, mem_singleton, not_or] at hxt
    rw [mem_append, mem_singleton, not_or] at hx
    rw [update_of_ne hxt.2, update_of_ne hx.2]
    exact h.kept x hx.1 hxt.1

include hinj hself in
/-- Staging files that are apart and exist comes to the next file with all of
them staged. -/
theorem stageFrom_apart {files : α → Option β} (fails : α → Bool) (done : List α) :
    ∀ rest, done.Nodup → Apart temp done → (∀ p ∈ done, fails p = false) →
      (∀ p ∈ done, files p ≠ none) →
      ∃ after, Staged temp done files after ∧
        stageFrom temp fails [] (done ++ rest) files = stageFrom temp fails done rest after := by
  induction done using List.reverseRecOn with
  | nil =>
    intro rest _ _ _ _
    exact ⟨files, ⟨fun p hp => absurd hp not_mem_nil, fun p hp => absurd hp not_mem_nil,
      fun x _ _ => rfl⟩, rfl⟩
  | append_singleton done p ih =>
    intro rest hnodup hapart hfails hexist
    have hmem : ∀ {q}, q ∈ done → q ∈ done ++ [p] := fun hq => mem_append_left _ hq
    have hp : p ∈ done ++ [p] := mem_append_right _ mem_cons_self
    have hnew : p ∉ done := fun hin =>
      disjoint_of_nodup_append hnodup hin mem_cons_self
    have hfree : p ∉ done.map temp := by
      intro hin
      obtain ⟨q, hq, heq⟩ := mem_map.mp hin
      exact hapart q (hmem hq) p hp heq
    have htemp : temp p ∉ done := fun hin => hapart p hp (temp p) (hmem hin) rfl
    obtain ⟨after, hstaged, hrun⟩ := ih (p :: rest) hnodup.of_append_left
      (fun a ha b hb => hapart a (hmem ha) b (hmem hb)) (fun q hq => hfails q (hmem hq))
      (fun q hq => hexist q (hmem hq))
    obtain ⟨_, hcontent⟩ := Option.ne_none_iff_exists'.mp (hexist p hp)
    obtain ⟨next, hrename, hnext⟩ := hstaged.snoc hinj hself hnew hfree htemp hcontent
    refine ⟨next, hnext, ?_⟩
    rw [append_assoc, singleton_append, hrun, stageFrom, hfails p hp,
      if_neg Bool.false_ne_true, hrename]

include hinj in
/-- Moving files that are apart and staged from their staging names succeeds,
when committing as when rolling back. -/
theorem restore_apart (fails : α → Bool) (outputs done : List α) :
    ∀ (files : α → Option β) (rest : List α), done.Nodup → Apart temp done →
      (∀ p ∈ done, fails p = false) → (∀ p ∈ done, files (temp p) ≠ none) →
      ∃ after, Restored temp done files after ∧
        commitFrom temp fails outputs (done ++ rest) files =
          commitFrom temp fails outputs rest after ∧
        rollback temp (done ++ rest) files = rollback temp rest after := by
  induction done with
  | nil =>
    intro files rest _ _ _ _
    exact ⟨files, ⟨fun p hp => absurd hp not_mem_nil, fun p hp => absurd hp not_mem_nil,
      fun x _ _ => rfl⟩, rfl, rfl⟩
  | cons p done ih =>
    intro files rest hnodup hapart hfails hexist
    have hp : p ∈ p :: done := mem_cons_self
    have hmem : ∀ {q}, q ∈ done → q ∈ p :: done := fun hq => mem_cons_of_mem p hq
    have hnew : p ∉ done := (nodup_cons.mp hnodup).1
    obtain ⟨content, hcontent⟩ := Option.ne_none_iff_exists'.mp (hexist p hp)
    have hrename := rename_eq_some p hcontent
    generalize hnext : Function.update (Function.update files (temp p) none) p (some content) = next
      at hrename
    have hothers : ∀ x, x ≠ p → x ≠ temp p → next x = files x := by
      intro x hx hxt
      rw [← hnext, update_of_ne hx, update_of_ne hxt]
    have hheld : ∀ q ∈ done, next (temp q) = files (temp q) := by
      intro q hq
      have hqp : temp q ≠ temp p := fun heq => hnew (hinj heq ▸ hq)
      exact hothers _ (hapart q (hmem hq) p hp) hqp
    obtain ⟨after, hrestored, hcommit, hroll⟩ := ih next rest (nodup_cons.mp hnodup).2
      (fun a ha b hb => hapart a (hmem ha) b (hmem hb)) (fun q hq => hfails q (hmem hq))
      (fun q hq => by rw [hheld q hq]; exact hexist q (hmem hq))
    have hfree : ∀ x, (∀ q ∈ p :: done, temp q ≠ x) → x ∉ done.map temp := by
      intro x hx hin
      obtain ⟨q, hq, heq⟩ := mem_map.mp hin
      exact hx q (hmem hq) heq
    have hafterp : after p = next p := hrestored.kept p hnew (hfree p fun q hq => hapart q hq p hp)
    have htempdone : temp p ∉ done := fun hin => hapart p hp (temp p) (hmem hin) rfl
    have htempfree : temp p ∉ done.map temp := by
      intro hin
      obtain ⟨q, hq, heq⟩ := mem_map.mp hin
      exact hnew (hinj heq ▸ hq)
    refine ⟨after, ⟨?_, ?_, ?_⟩, ?_, ?_⟩
    · intro q hq
      cases mem_cons.mp hq with
      | inl heq =>
        rw [heq, hafterp, ← hnext, update_self, hcontent]
      | inr hq => rw [hrestored.back q hq, hheld q hq]
    · intro q hq
      cases mem_cons.mp hq with
      | inl heq =>
        rw [heq, hrestored.kept _ htempdone htempfree, ← hnext,
          update_of_ne (hapart p hp p hp)]
        exact update_self _ _ _
      | inr hq => exact hrestored.cleared q hq
    · intro x hx hxt
      rw [mem_cons, not_or] at hx
      rw [map_cons, mem_cons, not_or] at hxt
      rw [hrestored.kept x hx.2 hxt.2, hothers x hx.1 hxt.1]
    · rw [cons_append, commitFrom, hfails p hp, if_neg Bool.false_ne_true, hrename]
      exact hcommit
    · rw [cons_append, rollback, hrename]
      exact hroll

end Phases

/-- The two phases of the protocol. -/
inductive Phase
  | stage
  | commit
  deriving DecidableEq, Repr

def twoPhase (temp : α → α) (fails : Phase → α → Bool) (outputs : List α) (files : α → Option β) :
    Option (Phase × α) × (α → Option β) :=
  match stageFrom temp (fails .stage) [] outputs files with
  | (some p, files) => (some (.stage, p), files)
  | (none, files) =>
    match commitFrom temp (fails .commit) outputs outputs files with
    | (some p, files) => (some (.commit, p), files)
    | (none, files) => (none, files)

/-- What became of the files: all are in place without staging files, or, after
a failure, all are as before or all are gone; nothing else has changed. -/
structure AllOrNothing (temp : α → α) (outputs : List α) (before : α → Option β)
    (result : Option (Phase × α) × (α → Option β)) : Prop where
  /-- Without a failure every file is in place and no staging file is left. -/
  committed : result.1 = none → ∀ p ∈ outputs, result.2 p = before p ∧ result.2 (temp p) = none
  /-- A failed stage leaves every file in place. -/
  rolledBack : ∀ q, result.1 = some (.stage, q) → ∀ p ∈ outputs, result.2 p = before p
  /-- A failed commit leaves no file. -/
  removed : ∀ q, result.1 = some (.commit, q) → ∀ p ∈ outputs, result.2 p = none
  others : ∀ x, x ∉ outputs → x ∉ outputs.map temp → result.2 x = before x

omit [DecidableEq α] in
theorem first_failure (fails : α → Bool) (outputs : List α) :
    (∀ p ∈ outputs, fails p = false) ∨
    ∃ done p rest, outputs = done ++ p :: rest ∧ (∀ q ∈ done, fails q = false) ∧ fails p = true := by
  induction outputs with
  | nil => exact .inl fun p hp => absurd hp not_mem_nil
  | cons p rest ih =>
    cases hp : fails p with
    | true => exact .inr ⟨[], p, rest, rfl, fun q hq => absurd hq not_mem_nil, hp⟩
    | false =>
      cases ih with
      | inl hall =>
        left
        intro q hq
        cases mem_cons.mp hq with
        | inl heq => rw [heq]; exact hp
        | inr hq => exact hall q hq
      | inr h =>
        obtain ⟨done, q, later, hsplit, hdone, hq⟩ := h
        refine .inr ⟨p :: done, q, later, by rw [hsplit, cons_append], ?_, hq⟩
        intro x hx
        cases mem_cons.mp hx with
        | inl heq => rw [heq]; exact hp
        | inr hx => exact hdone x hx

section Outcome

variable {outputs : List α} {before : α → Option β} (hinj : Function.Injective temp)
  (hself : ∀ p, temp p ≠ p) (hnodup : outputs.Nodup) (hexist : ∀ p ∈ outputs, before p ≠ none)

include hinj hself hnodup hexist

theorem twoPhase_of_apart (hapart : Apart temp outputs) (fails : Phase → α → Bool) :
    AllOrNothing temp outputs before (twoPhase temp fails outputs before) := by
  have hfreeOf : ∀ {done : List α}, (∀ q ∈ done, q ∈ outputs) → ∀ p ∈ outputs,
      p ∉ done.map temp := by
    intro done hdone p hp hin
    obtain ⟨q, hq, heq⟩ := mem_map.mp hin
    exact hapart q (hdone q hq) p hp heq
  cases first_failure (fails .stage) outputs with
  | inr h =>
    obtain ⟨done, p, rest, hsplit, hdone, hp⟩ := h
    have hsub : ∀ q ∈ done, q ∈ outputs := fun q hq => by
      rw [hsplit]; exact mem_append_left _ hq
    have happart : Apart temp done := fun a ha b hb => hapart a (hsub a ha) b (hsub b hb)
    have hnd : done.Nodup := (hsplit ▸ hnodup).of_append_left
    obtain ⟨staged, hstaged, hrun⟩ := stageFrom_apart hinj hself _ done (p :: rest) hnd happart hdone
      (fun q hq => hexist q (hsub q hq))
    obtain ⟨after, hrestored, -, hroll⟩ := restore_apart hinj
      (fun _ => false) [] done staged [] hnd happart (fun _ _ => rfl) (fun q hq => by
        rw [hstaged.held q hq]; exact hexist q (hsub q hq))
    rw [append_nil] at hroll
    have hresult : twoPhase temp fails outputs before = (some (.stage, p), after) := by
      rw [twoPhase, hsplit, hrun, stageFrom, hp, if_pos rfl, hroll]
      rfl
    rw [hresult]
    constructor
    · intro h; cases h
    · intro _ _ q hq
      by_cases hin : q ∈ done
      · exact (hrestored.back q hin).trans (hstaged.held q hin)
      · have hfree := hfreeOf hsub q hq
        exact (hrestored.kept q hin hfree).trans (hstaged.kept q hin hfree)
    · intro _ h; cases h
    · intro x hx hxt
      have hin : x ∉ done := fun h => hx (hsub x h)
      have hfree : x ∉ done.map temp := by
        intro h
        obtain ⟨q, hq, heq⟩ := mem_map.mp h
        exact hxt (heq ▸ mem_map_of_mem (hsub q hq))
      exact (hrestored.kept x hin hfree).trans (hstaged.kept x hin hfree)
  | inl hall =>
    obtain ⟨staged, hstaged, hrun⟩ := stageFrom_apart hinj hself _ outputs [] hnodup hapart hall hexist
    rw [append_nil, stageFrom] at hrun
    have hheld : ∀ p ∈ outputs, staged (temp p) ≠ none := fun p hp => by
      rw [hstaged.held p hp]; exact hexist p hp
    cases first_failure (fails .commit) outputs with
    | inr h =>
      obtain ⟨done, p, rest, hsplit, hdone, hp⟩ := h
      have hsub : ∀ q ∈ done, q ∈ outputs := fun q hq => by
        rw [hsplit]; exact mem_append_left _ hq
      obtain ⟨after, hrestored, hcommit, -⟩ := restore_apart hinj _ outputs done staged
        (p :: rest) (hsplit ▸ hnodup).of_append_left
        (fun a ha b hb => hapart a (hsub a ha) b (hsub b hb)) hdone
        (fun q hq => hheld q (hsub q hq))
      have hresult : twoPhase temp fails outputs before =
          (some (.commit, p), cleanup temp outputs after) := by
        rw [twoPhase, hrun]
        dsimp only
        nth_rewrite 2 [hsplit]
        rw [hcommit, commitFrom, hp, if_pos rfl]
      rw [hresult]
      constructor
      · intro h; cases h
      · intro _ h; cases h
      · intro _ _ q hq
        dsimp only
        rw [cleanup_spec, if_pos (.inl hq)]
      · intro x hx hxt
        have hin : x ∉ done := fun h => hx (hsub x h)
        have hfree : x ∉ done.map temp := by
          intro h
          obtain ⟨q, hq, heq⟩ := mem_map.mp h
          exact hxt (heq ▸ mem_map_of_mem (hsub q hq))
        dsimp only
        rw [cleanup_spec, if_neg (not_or.mpr ⟨hx, hxt⟩), hrestored.kept x hin hfree,
          hstaged.kept x hx hxt]
    | inl hcommits =>
      obtain ⟨after, hrestored, hcommit, -⟩ := restore_apart hinj _ outputs outputs
        staged [] hnodup hapart hcommits hheld
      rw [append_nil, commitFrom] at hcommit
      have hresult : twoPhase temp fails outputs before = (none, after) := by
        rw [twoPhase, hrun]
        dsimp only
        rw [hcommit]
      rw [hresult]
      constructor
      · intro _ p hp
        exact ⟨(hrestored.back p hp).trans (hstaged.held p hp), hrestored.cleared p hp⟩
      · intro _ h; cases h
      · intro _ h; cases h
      · intro x hx hxt
        exact (hrestored.kept x hx hxt).trans (hstaged.kept x hx hxt)

/-- When the staging name of an earlier file is the next file, a failure to stage
the next file loses it. -/
theorem twoPhase_overwritten {done rest : List α} {p : α} (hsplit : outputs = done ++ p :: rest)
    (hapart : Apart temp done) (hp : p ∈ done.map temp) :
    ∃ fails, ¬ AllOrNothing temp outputs before (twoPhase temp fails outputs before) := by
  have hsub : ∀ q ∈ done, q ∈ outputs := fun q hq => by
    rw [hsplit]; exact mem_append_left _ hq
  have hmem : p ∈ outputs := by rw [hsplit]; simp
  have hparts := nodup_append.mp (hsplit ▸ hnodup)
  have hne : ∀ q ∈ done, decide (q = p) = false := fun q hq =>
    decide_eq_false (hparts.2.2 q hq p mem_cons_self)
  obtain ⟨staged, hstaged, hrun⟩ := stageFrom_apart hinj hself (fun q => decide (q = p))
    done (p :: rest) hparts.1 hapart hne (fun q hq => hexist q (hsub q hq))
  obtain ⟨after, hrestored, -, hroll⟩ := restore_apart hinj
    (fun _ => false) [] done staged [] hparts.1 hapart (fun _ _ => rfl) (fun q hq => by
      rw [hstaged.held q hq]; exact hexist q (hsub q hq))
  rw [append_nil] at hroll
  refine ⟨fun _ q => decide (q = p), fun h => ?_⟩
  have hresult : twoPhase temp (fun _ q => decide (q = p)) outputs before =
      (some (.stage, p), after) := by
    rw [twoPhase, hsplit, hrun, stageFrom, decide_eq_true rfl, if_pos rfl, hroll]
    rfl
  have hback := h.rolledBack p (by rw [hresult]) p hmem
  obtain ⟨q, hq, heq⟩ := mem_map.mp hp
  have hgone : after p = none := heq ▸ hrestored.cleared q hq
  rw [hresult] at hback
  exact hexist p hmem (hback.symm.trans hgone)

/-- When the staging name of the next file is an earlier file, that file is lost
by the roll-back of a later failure, or else by the commit. -/
theorem twoPhase_displaced {done rest : List α} {p : α} (hsplit : outputs = done ++ p :: rest)
    (hapart : Apart temp done) (hfree : p ∉ done.map temp) (hp : temp p ∈ done) :
    ∃ fails, ¬ AllOrNothing temp outputs before (twoPhase temp fails outputs before) := by
  have hsub : ∀ q ∈ done, q ∈ outputs := fun q hq => by
    rw [hsplit]; exact mem_append_left _ hq
  have hmem : p ∈ outputs := by rw [hsplit]; simp
  have hparts := nodup_append.mp (hsplit ▸ hnodup)
  have hnew : p ∉ done := fun hin => hparts.2.2 p hin p mem_cons_self rfl
  have hfails : ∀ q ∈ done, decide (q ∈ rest) = false := fun q hq =>
    decide_eq_false fun hin => hparts.2.2 q hq q (.tail p hin) rfl
  have hpass : decide (p ∈ rest) = false := decide_eq_false (nodup_cons.mp hparts.2.1).1
  obtain ⟨staged, hstaged, hrun⟩ := stageFrom_apart hinj hself (fun q => decide (q ∈ rest))
    done (p :: rest) hparts.1 hapart hfails (fun q hq => hexist q (hsub q hq))
  obtain ⟨content, hcontent⟩ := Option.ne_none_iff_exists'.mp (hexist p hmem)
  have hrename := rename_eq_some (temp p) ((hstaged.kept p hnew hfree).trans hcontent)
  generalize Function.update (Function.update staged p none) (temp p) (some content) = moved,
    hmoved : Function.update (Function.update staged p none) (temp p) (some content) = moved
    at hrename
  have hheld : ∀ q ∈ done, moved (temp q) = before q := by
    intro q hq
    have hqp : temp q ≠ temp p := fun heq => hnew (hinj heq ▸ hq)
    have hqn : temp q ≠ p := fun heq => hfree (heq ▸ mem_map_of_mem hq)
    rw [← hmoved, update_of_ne hqp, update_of_ne hqn]
    exact hstaged.held q hq
  obtain ⟨after, hrestored, hcommit, hroll⟩ := restore_apart hinj
    (fun _ => false) outputs done moved [p] hparts.1 hapart (fun _ _ => rfl) (fun q hq => by
      rw [hheld q hq]; exact hexist q (hsub q hq))
  have hthere : after (temp p) = before (temp p) :=
    (hrestored.back (temp p) hp).trans (hheld (temp p) hp)
  obtain ⟨other, hother⟩ := Option.ne_none_iff_exists'.mp (hexist (temp p) (hsub (temp p) hp))
  have hlast := rename_eq_some p (hthere.trans hother)
  generalize Function.update (Function.update after (temp p) none) p (some other) = last,
    hlastEq : Function.update (Function.update after (temp p) none) p (some other) = last at hlast
  have hgone : last (temp p) = none := by
    rw [← hlastEq, update_of_ne (hself p)]
    exact update_self _ _ _
  have hlost : before (temp p) ≠ last (temp p) := by
    rw [hgone]
    exact hexist (temp p) (hsub (temp p) hp)
  have hstage : stageFrom temp (fun q => decide (q ∈ rest)) [] outputs before =
      stageFrom temp (fun q => decide (q ∈ rest)) (done ++ [p]) rest moved := by
    rw [hsplit, hrun, stageFrom, hpass, if_neg Bool.false_ne_true, hrename]
  obtain ⟨fails, hstageFails, hcommitFails⟩ : ∃ fails : Phase → α → Bool,
      fails .stage = (fun q => decide (q ∈ rest)) ∧ fails .commit = fun _ => false :=
    ⟨fun | .stage => fun q => decide (q ∈ rest) | .commit => fun _ => false, rfl, rfl⟩
  refine ⟨fails, fun h => ?_⟩
  cases hrest : rest with
  | nil =>
    have hnone : stageFrom temp (fun q => decide (q ∈ rest)) [] outputs before = (none, moved) := by
      rw [hstage, hrest]
      rfl
    have hall : commitFrom temp (fun _ => false) outputs outputs moved = (none, last) := by
      nth_rewrite 2 [hsplit]
      rw [hrest, hcommit, commitFrom, if_neg Bool.false_ne_true, hlast]
      rfl
    have hresult : twoPhase temp fails outputs before = (none, last) := by
      rw [twoPhase, hstageFails, hnone, hcommitFails]
      dsimp only
      rw [hall]
    have hback := h.committed (by rw [hresult]) (temp p) (hsub (temp p) hp)
    rw [hresult] at hback
    exact hlost hback.1.symm
  | cons y later =>
    have hfailed : stageFrom temp (fun q => decide (q ∈ rest)) [] outputs before =
        (some y, last) := by
      have hy : decide (y ∈ y :: later) = true := decide_eq_true mem_cons_self
      rw [hstage, hrest, stageFrom, hy, if_pos rfl, hroll, rollback, hlast]
      rfl
    have hresult : twoPhase temp fails outputs before = (some (.stage, y), last) := by
      rw [twoPhase, hstageFails, hfailed]
    have hback := h.rolledBack y (by rw [hresult]) (temp p) (hsub (temp p) hp)
    rw [hresult] at hback
    exact hlost hback.symm

omit hinj hnodup hexist in
theorem first_clash (hclash : ¬ Apart temp outputs) : ∃ done p rest, outputs = done ++ p :: rest ∧
    Apart temp done ∧ (p ∈ done.map temp ∨ temp p ∈ done) := by
  induction outputs using List.reverseRecOn with
  | nil => exact absurd (fun p hp => absurd hp not_mem_nil) hclash
  | append_singleton front p ih =>
    by_cases hfront : Apart temp front
    · refine ⟨front, p, [], rfl, hfront, ?_⟩
      by_contra hnone
      rw [not_or] at hnone
      apply hclash
      intro x hx y hy heq
      cases mem_append.mp hx with
      | inl hx =>
        cases mem_append.mp hy with
        | inl hy => exact hfront x hx y hy heq
        | inr hy =>
          rw [mem_singleton.mp hy] at heq
          exact hnone.1 (heq ▸ mem_map_of_mem hx)
      | inr hx =>
        rw [mem_singleton.mp hx] at heq
        cases mem_append.mp hy with
        | inl hy => exact hnone.2 (heq ▸ hy)
        | inr hy => exact hself p (heq.trans (mem_singleton.mp hy))
    · obtain ⟨done, q, rest, hsplit, hrest⟩ := ih hfront
      refine ⟨done, q, rest ++ [p], ?_, hrest⟩
      rw [hsplit, append_assoc, cons_append]

theorem twoPhase_allOrNothing_iff :
    (∀ fails, AllOrNothing temp outputs before (twoPhase temp fails outputs before)) ↔
      Apart temp outputs := by
  constructor
  · intro hall
    by_contra hclash
    obtain ⟨done, p, _, hsplit, hapart, h⟩ := first_clash hself hclash
    by_cases hover : p ∈ done.map temp
    · obtain ⟨fails, hfails⟩ := twoPhase_overwritten hinj hself hnodup hexist hsplit hapart hover
      exact hfails (hall fails)
    · have hp := h.resolve_left hover
      obtain ⟨fails, hfails⟩ :=
        twoPhase_displaced hinj hself hnodup hexist hsplit hapart hover hp
      exact hfails (hall fails)
  · exact fun hapart => twoPhase_of_apart hinj hself hnodup hexist hapart

end Outcome

end OxyMake.StagedRename
