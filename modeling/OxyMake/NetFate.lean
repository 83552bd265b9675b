import OxyMake.NetAttempts

/-!
# The fate of jobs in a scripted net

When every attempt of a job ends as a script says and nothing else interferes,
the final status of each job is determined by the dependencies: a skipped job
stays skipped, a job behind a failed or cancelled one is cancelled, and any
other job ends as its attempts do. The remaining effort of a job never grows
along a run.
-/

namespace OxyMake.NetFate

open Function
open Observation LabelledRuns DependencyNet Net NetInvariants NetAttempts

variable {J : Type*} [DecidableEq J] {W : Wiring J} {D : Discipline J} {s t : Net J}
  {label : Option (J × JobLifecycle)}

/-- What the attempts of each job do. -/
structure Script (J : Type*) where
  verdict : J → ℕ → Verdict
  bound : J → ℕ
  ends : J → JobLifecycle
  /-- Only an attempt below the bound is repeated. -/
  again_lt : ∀ {j k}, verdict j k = .again → k < bound j
  /-- A job has at least one attempt. -/
  bound_pos : ∀ j, 0 < bound j
  success : ∀ {j k}, (∀ i < k, verdict j (i + 1) = .again) → verdict j (k + 1) = .success →
    ends j = .succeeded
  /-- The first failure that is not repeated decides. -/
  failure : ∀ {j k message}, (∀ i < k, verdict j (i + 1) = .again) →
    verdict j (k + 1) = .failure message → ends j = .failed message

/-- The net follows the script and nothing else interferes. -/
structure Follows (D : Discipline J) (script : Script J) : Prop where
  stop : ¬ D.stop
  /-- No job is satisfied without being launched. -/
  hit : ¬ D.hit
  /-- No job is left to another session. -/
  park : ¬ D.park
  reject : ∀ status j, ¬ D.reject status j
  /-- Attempts end as the script says. -/
  verdict : ∀ {j k v}, D.verdict j k v → v = script.verdict j k

def Fate (W : Wiring J) (skip : J → Bool) (script : Script J) (fate : J → JobLifecycle) : Prop :=
  ∀ j ∈ W.nodes, fate j =
    if skip j = true then .skipped
    else if ∃ u ∈ W.up j, (fate u).isBroken = true then .cancelled
    else script.ends j

variable {skip : J → Bool} {script : Script J} {fate : J → JobLifecycle}

omit [DecidableEq J] in
/-- The net is on its way to the final statuses. -/
structure OnTrack (W : Wiring J) (skip : J → Bool) (script : Script J) (fate : J → JobLifecycle)
    (s : Net J) : Prop where
  going : s.stopping = false
  parked : s.parked = ∅
  /-- Finished jobs have their final status. -/
  finished : ∀ j st, s.status j = some st → st.isTerminal = true → fate j = st
  unskipped : ∀ j, unfinished (s.status j) = true → skip j = false
  /-- A job to be visited lies behind a failed or cancelled one. -/
  todo : ∀ j ∈ s.todo, ∃ u ∈ W.up j, broken (s.status u) = true
  /-- The attempts so far were all repeated. -/
  tries : ∀ j, unfinished (s.status j) = true →
    s.tries j < script.bound j ∧ ∀ i < s.tries j, script.verdict j (i + 1) = .again

omit [DecidableEq J] in
theorem OnTrack.fate_of_released (h : OnTrack W skip script fate s) (hfate : Fate W skip script fate)
    (hs : Sound W True s) {j : J} (hj : unfinished (s.status j) = true)
    (hreleased : Located s j ∨ s.status j ≠ some .pending) : fate j = script.ends j := by
  obtain ⟨c, hc, -, hexact⟩ := hs.counted j hj
  have hzero := hs.released j hj hreleased
  rw [hc, Option.some.injEq] at hzero
  have hsat := unsat_eq_zero.mp (by rw [← hexact trivial, hzero])
  have hnode : j ∈ W.nodes := (hs.placed.known j).mp (by
    cases hst : s.status j with
    | none => rw [hst] at hj; cases hj
    | some => rfl)
  rw [hfate j hnode, h.unskipped j hj, if_neg (by simp), if_neg]
  rintro ⟨u, hu, hb⟩
  have hu := hsat u hu
  cases hst : s.status u with
  | none => rw [hst] at hu; cases hu
  | some st =>
    rw [hst] at hu
    have hterm : terminal (some st) = true := terminal_of_satisfied hu
    rw [h.finished u st hst hterm] at hb
    cases st <;> simp_all [JobLifecycle.isSatisfied, JobLifecycle.isBroken]

omit [DecidableEq J] in
theorem OnTrack.fate_of_broken (h : OnTrack W skip script fate s) (hfate : Fate W skip script fate)
    {j u : J} (hnode : j ∈ W.nodes) (hj : unfinished (s.status j) = true) (hu : u ∈ W.up j)
    (hb : broken (s.status u) = true) : fate j = .cancelled := by
  rw [hfate j hnode, h.unskipped j hj, if_neg (by simp), if_pos]
  refine ⟨u, hu, ?_⟩
  cases hst : s.status u with
  | none => rw [hst] at hb; cases hb
  | some st =>
    rw [hst] at hb
    have hb : st.isBroken = true := hb
    rwa [h.finished u st hst (by cases st <;> simp_all [JobLifecycle.isBroken, JobLifecycle.isTerminal])]

omit [DecidableEq J] in
theorem OnTrack.steered (h : OnTrack W skip script fate s) : Steered W s :=
  ⟨h.going, h.parked, h.todo⟩

omit [DecidableEq J] in
theorem Follows.direct (h : Follows D script) : Direct D := ⟨h.stop, h.hit, h.park, h.reject⟩

theorem OnTrack.fate_of_write (h : OnTrack W skip script fate s) (hfate : Fate W skip script fate)
    (hfollows : Follows D script) (hs : Sound W True s) {j : J} {st : JobLifecycle}
    (hfire : Fire W D s (some (j, st)) t) (hst : st.isTerminal = true) : fate j = st := by
  have hnode : ∀ {st}, s.status j = some st → j ∈ W.nodes := fun hj =>
    (hs.placed.known j).mp (by rw [hj]; rfl)
  have hrunning : s.status j = some .running → fate j = script.ends j := fun hj =>
    h.fate_of_released hfate hs (by rw [hj]; rfl) (.inr (by rw [hj]; simp))
  have hbehind : j ∈ s.todo → unfinished (s.status j) = true → fate j = .cancelled := by
    intro htodo hj
    obtain ⟨u, hu, hb⟩ := h.todo j htodo
    have hknown : j ∈ W.nodes := (hs.placed.known j).mp (by
      cases hst : s.status j with
      | none => rw [hst] at hj; cases hj
      | some => rfl)
    exact h.fate_of_broken hfate hknown hj hu hb
  cases hfire with
  | arm | park | defer | launch | again => cases hst
  | reject _ _ hreject => exact absurd hreject (hfollows.reject _ _)
  | hit hhit => exact absurd hhit hfollows.hit
  | succeed hsettles hverdict =>
    obtain ⟨-, hr, -⟩ := h.steered.settles hsettles
    have hagain := (h.tries j (by rw [hr]; rfl)).2
    rw [hrunning hr]
    exact script.success hagain (hfollows.verdict hverdict).symm
  | fail hsettles hverdict =>
    obtain ⟨-, hr, -⟩ := h.steered.settles hsettles
    have hagain := (h.tries j (by rw [hr]; rfl)).2
    rw [hrunning hr]
    exact script.failure hagain (hfollows.verdict hverdict).symm
  | mirror hparked =>
    rw [h.parked] at hparked
    exact hparked.elim
  | cancelIdle htodo _ hidle =>
    refine hbehind htodo ?_
    obtain hp | hr := hidle
    · rw [hp]; rfl
    · rw [hr]; rfl
  | cancelActive htodo hr => exact hbehind htodo (by rw [hr]; rfl)
  | interrupt hstop => rw [h.going] at hstop; cases hstop
  | close hstop => rw [h.going] at hstop; cases hstop

theorem unfinished_back (hs : Placed W s) (hfire : Fire W D s label t) {j : J}
    (hj : unfinished (t.status j) = true) : unfinished (s.status j) = true := by
  have hnode : j ∈ W.nodes := ((hs.fire hfire).known j).mp (by
    cases hst : t.status j with
    | none => rw [hst] at hj; cases hj
    | some => rfl)
  refine hs.unfinished_of_not_terminal hnode fun hterm => ?_
  rw [hs.terminal_fire hfire hterm] at hj
  cases hst : s.status j with
  | none => rw [hst] at hj; cases hj
  | some => rw [hst] at hj hterm; simp_all

theorem OnTrack.fire (h : OnTrack W skip script fate s) (hfate : Fate W skip script fate)
    (hfollows : Follows D script) (hs : Sound W True s) (hfire : Fire W D s label t) :
    OnTrack W skip script fate t := by
  have hsteered := h.steered.fire hfollows.direct hs.placed hfire
  refine ⟨hsteered.going, hsteered.parked, ?_,
    fun j hj => h.unskipped j (unfinished_back hs.placed hfire hj), hsteered.todo, fun j hj => ?_⟩
  · intro j st hj hst
    have hstatus := hfire.status_eq
    cases label with
    | none =>
      rw [hstatus] at hj
      exact h.finished j st hj hst
    | some write =>
      obtain ⟨k, st'⟩ := write
      change t.status = Function.update s.status k (some st') at hstatus
      rw [hstatus] at hj
      by_cases hk : j = k
      · subst hk
        rw [update_self, Option.some.injEq] at hj
        subst hj
        exact h.fate_of_write hfate hfollows hs hfire hst
      · rw [update_of_ne hk] at hj
        exact h.finished j st hj hst
  · have hold := h.tries j (unfinished_back hs.placed hfire hj)
    cases hfire with
    | @again k _ _ _ hverdict =>
      by_cases hk : j = k
      · subst hk
        have hagain := (hfollows.verdict hverdict).symm
        change Function.update s.tries j (s.tries j + 1) j < _ ∧
          ∀ i < Function.update s.tries j (s.tries j + 1) j, _
        rw [update_self]
        refine ⟨script.again_lt hagain, fun i hi => ?_⟩
        obtain hlt | rfl := Nat.lt_succ_iff_lt_or_eq.mp hi
        · exact hold.2 i hlt
        · exact hagain
      · change Function.update s.tries k (s.tries k + 1) j < _ ∧
          ∀ i < Function.update s.tries k (s.tries k + 1) j, _
        rw [update_of_ne hk]
        exact hold
    | @fail k _ _ message _ n =>
      have hk : j ≠ k := by
        rintro rfl
        change unfinished (Function.update s.status j (some (.failed message)) j) = true at hj
        rw [update_self] at hj
        cases hj
      change Function.update s.tries k n j < _ ∧ ∀ i < Function.update s.tries k n j, _
      rw [update_of_ne hk]
      exact hold
    | _ => exact hold

theorem OnTrack.run {labels : List (J × JobLifecycle)} (h : OnTrack W skip script fate s)
    (hfate : Fate W skip script fate) (hfollows : Follows D script) (hs : Sound W True s)
    (hrun : Run (Fire W D) s labels t) : OnTrack W skip script fate t := by
  have hboth : OnTrack W skip script fate t ∧ Sound W True t :=
    hrun.invariant (fun m => OnTrack W skip script fate m ∧ Sound W True m)
      (fun _ _ _ hm hfire => ⟨hm.1.fire hfate hfollows hm.2 hfire, hm.2.fire hfire⟩) ⟨h, hs⟩
  exact hboth.1

open Classical in
/-- Attempts a job may still need, or the task it still has to return. -/
noncomputable def effort (script : Script J) (s : Net J) (j : J) : ℕ :=
  if terminal (s.status j) = true then if j ∈ s.flight then 1 else 0
  else script.bound j - s.tries j

theorem effort_fire (h : OnTrack W skip script fate s) (hs : Placed W s)
    (hfire : Fire W D s label t) (j : J) : effort script t j ≤ effort script s j := by
  have hopen : unfinished (s.status j) = true → s.tries j < script.bound j := fun hj =>
    (h.tries j hj).1
  have hflying := hs.flying j
  unfold effort
  clear h hs
  cases hfire <;> simp only [write, promoted, Settles, update_apply] at * <;> grind

theorem effort_run {labels : List (J × JobLifecycle)} (h : OnTrack W skip script fate s)
    (hfate : Fate W skip script fate) (hfollows : Follows D script) (hs : Sound W True s)
    (hrun : Run (Fire W D) s labels t) (j : J) : effort script t j ≤ effort script s j := by
  have hall : (OnTrack W skip script fate t ∧ Sound W True t) ∧
      effort script t j ≤ effort script s j := by
    refine hrun.invariant (fun m => (OnTrack W skip script fate m ∧ Sound W True m) ∧
      effort script m j ≤ effort script s j) ?_ ⟨⟨h, hs⟩, le_refl _⟩
    rintro m label n ⟨⟨htrack, hsound⟩, hle⟩ hfire
    exact ⟨⟨htrack.fire hfate hfollows hsound hfire, hsound.fire hfire⟩,
      (effort_fire htrack hsound.placed hfire j).trans hle⟩
  exact hall.2

end OxyMake.NetFate
