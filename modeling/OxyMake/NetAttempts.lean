import OxyMake.NetInvariants

/-!
# Attempts of the jobs of a net

In a net that is never stopped and where no job is satisfied without a launch,
left to another session or rejected, a job is cancelled only behind a broken
one. The launches of a job are then its failed attempts and the one in flight,
every attempt before the last was repeated, and the last one decides the status.
-/

namespace OxyMake.NetAttempts

open Function
open Observation LabelledRuns DependencyNet Net NetInvariants

variable {J : Type*} [DecidableEq J] {W : Wiring J} {D : Discipline J} {s t : Net J}
  {label : Option (J × JobLifecycle)}

/-- Nothing but failing attempts interferes with the jobs. -/
structure Direct (D : Discipline J) : Prop where
  stop : ¬ D.stop
  /-- No job is satisfied without being launched. -/
  hit : ¬ D.hit
  /-- No job is left to another session. -/
  park : ¬ D.park
  reject : ∀ status j, ¬ D.reject status j

section Steering

/-- The run goes on, no job is parked, and cancellations lie behind broken jobs. -/
structure Steered (W : Wiring J) (s : Net J) : Prop where
  going : s.stopping = false
  parked : s.parked = ∅
  /-- A job to be visited lies behind a failed or cancelled one. -/
  todo : ∀ j ∈ s.todo, ∃ u ∈ W.up j, broken (s.status u) = true

omit [DecidableEq J] in
theorem Steered.settles (h : Steered W s) {j : J} {flight parked : Set J}
    (hs : s.Settles j flight parked) :
    j ∈ s.flight ∧ s.status j = some .running ∧ flight = s.flight \ {j} ∧ parked = ∅ := by
  obtain ⟨hf, hr, he, hp⟩ | ⟨hp, -⟩ := hs
  · exact ⟨hf, hr, he, hp.trans h.parked⟩
  · rw [h.parked] at hp
    exact hp.elim

theorem Steered.todo_of_spreads (h : Steered W s) {j : J} {st : JobLifecycle} {rest : Set J}
    (hj : j ∈ W.nodes) (hspread : s.Spreads W j rest) (hst : st.isBroken = true)
    (hold : broken (s.status j) = false) :
    ∀ d ∈ rest, ∃ u ∈ W.up d, broken (Function.update s.status j (some st) u) = true := by
  intro d hd
  obtain htodo | hdown := hspread.2.1 d hd
  · obtain ⟨u, hu, hb⟩ := h.todo d htodo
    have hne : u ≠ j := by
      rintro rfl
      rw [hold] at hb
      cases hb
    exact ⟨u, hu, by rw [update_of_ne hne]; exact hb⟩
  · exact ⟨j, (W.adjoint hj (W.down_mem hdown)).mpr hdown, by
      rw [update_self]; exact hst⟩

theorem broken_fire (hs : Placed W s) (hfire : Fire W D s label t) {u : J}
    (hb : broken (s.status u) = true) : broken (t.status u) = true := by
  have hterm : terminal (s.status u) = true := by
    cases hst : s.status u with
    | none => rw [hst] at hb; cases hb
    | some st => rw [hst] at hb; cases st <;> simp_all [JobLifecycle.isBroken, JobLifecycle.isTerminal]
  rw [hs.terminal_fire hfire hterm]
  exact hb

theorem Steered.todo_fire (h : Steered W s) (hs : Placed W s) (hfire : Fire W D s label t) :
    ∀ j ∈ t.todo, ∃ u ∈ W.up j, broken (t.status u) = true := by
  have hkeep : ∀ j ∈ s.todo, ∃ u ∈ W.up j, broken (t.status u) = true := by
    intro j hj
    obtain ⟨u, hu, hb⟩ := h.todo j hj
    exact ⟨u, hu, broken_fire hs hfire hb⟩
  have hnode : ∀ {j st}, s.status j = some st → j ∈ W.nodes := fun hj =>
    (hs.known _).mp (by rw [hj]; rfl)
  cases hfire with
  | fail hsettles _ hspread =>
    obtain ⟨-, hr, -⟩ := h.settles hsettles
    exact h.todo_of_spreads (hnode hr) hspread rfl (by rw [hr]; rfl)
  | mirror _ hp hspread => exact h.todo_of_spreads (hnode hp) hspread rfl (by rw [hp]; rfl)
  | cancelIdle _ _ hidle hspread =>
    obtain hp | hr := hidle
    · exact h.todo_of_spreads (hnode hp) hspread rfl (by rw [hp]; rfl)
    · exact h.todo_of_spreads (hnode hr) hspread rfl (by rw [hr]; rfl)
  | cancelActive _ hr hspread => exact h.todo_of_spreads (hnode hr) hspread rfl (by rw [hr]; rfl)
  | visit => exact fun j hj => hkeep j hj.1
  | _ => exact hkeep

theorem Steered.fire (h : Steered W s) (hdirect : Direct D) (hs : Placed W s)
    (hfire : Fire W D s label t) : Steered W t := by
  refine ⟨?_, ?_, h.todo_fire hs hfire⟩
  · cases hfire with
    | stop hstop => exact absurd hstop hdirect.stop
    | _ => exact h.going
  · cases hfire with
    | park hpark => exact absurd hpark hdirect.park
    | unpark hin => rw [h.parked] at hin; exact hin.elim
    | unclaim hin => rw [h.parked] at hin; exact hin.elim
    | mirror hin => rw [h.parked] at hin; exact hin.elim
    | succeed hsettles => exact (h.settles hsettles).2.2.2
    | again hsettles => exact (h.settles hsettles).2.2.2
    | fail hsettles => exact (h.settles hsettles).2.2.2
    | _ => exact h.parked

end Steering

section Attempts

def begun (j : J) (labels : List (J × JobLifecycle)) : ℕ := labels.count (j, .running)

def wins (j : J) (labels : List (J × JobLifecycle)) : ℕ := labels.count (j, .succeeded)

/-- The first attempts of a job may all be repeated. -/
def AllAgain (D : Discipline J) (j : J) (n : ℕ) : Prop := ∀ i < n, D.verdict j (i + 1) .again

omit [DecidableEq J] in
theorem AllAgain.succ {j : J} {n : ℕ} (h : AllAgain D j n) (hn : D.verdict j (n + 1) .again) :
    AllAgain D j (n + 1) := by
  intro i hi
  obtain hlt | rfl := Nat.lt_succ_iff_lt_or_eq.mp hi
  · exact h i hlt
  · exact hn

theorem begun_concat (j : J) (past : List (J × JobLifecycle)) (w : J × JobLifecycle) :
    begun j (past ++ [w]) = begun j past + if w = (j, .running) then 1 else 0 := by
  simp [begun, List.count_singleton, beq_iff_eq]

theorem wins_concat (j : J) (past : List (J × JobLifecycle)) (w : J × JobLifecycle) :
    wins j (past ++ [w]) = wins j past + if w = (j, .succeeded) then 1 else 0 := by
  simp [wins, List.count_singleton, beq_iff_eq]

theorem frame_of_fire (hfire : Fire W D s label t) {j : J} (hj : ∀ st, label ≠ some (j, st)) :
    t.status j = s.status j ∧ t.tries j = s.tries j ∧ (j ∈ t.flight → j ∈ s.flight) := by
  cases hfire with
  | succeed hs | again hs | fail hs =>
    have hne : j ≠ _ := fun h => hj _ (by rw [h])
    have hflight := hs
    simp only [Settles] at hflight
    simp only [write, promoted, update_of_ne hne]
    grind
  | discard => exact ⟨rfl, rfl, fun h => h.1⟩
  | launch =>
    have hne : j ≠ _ := fun h => hj _ (by rw [h])
    exact ⟨update_of_ne hne _ _, rfl, fun h => (Set.mem_insert_iff.mp h).resolve_left hne⟩
  | arm | reject | hit | park | defer | mirror | cancelIdle | cancelActive | interrupt | close =>
    have hne : j ≠ _ := fun h => hj _ (by rw [h])
    exact ⟨update_of_ne hne _ _, rfl, fun h => h⟩
  | _ => exact ⟨rfl, rfl, fun h => h⟩

/-- The attempts begun so far are the failed ones and the one in flight. -/
structure Attempted (D : Discipline J) (j : J) (past : List (J × JobLifecycle)) (s : Net J) :
    Prop where
  /-- A job that waits has begun the attempts that failed. -/
  waiting : s.status j = some .pending ∨ s.status j = some .ready →
    begun j past = s.tries j ∧ AllAgain D j (s.tries j)
  /-- A job in flight has begun one more. -/
  flying : j ∈ s.flight → begun j past = s.tries j + 1 ∧ AllAgain D j (s.tries j)
  /-- Every attempt begun before the last was repeated. -/
  bounded : ∃ n, AllAgain D j n ∧ begun j past ≤ n + 1

theorem begun_other {j : J} (past : List (J × JobLifecycle))
    (hj : ∀ st, label ≠ some (j, st)) :
    begun j (past ++ label.toList) = begun j past ∧ wins j (past ++ label.toList) = wins j past := by
  cases label with
  | none => simp
  | some w =>
    have hne : ∀ st, w ≠ (j, st) := fun st hw => hj st (by rw [hw])
    have hbegun := begun_concat j past w
    have hwins := wins_concat j past w
    rw [if_neg (hne _), Nat.add_zero] at hbegun hwins
    exact ⟨hbegun, hwins⟩

theorem Attempted.fire {j : J} {past : List (J × JobLifecycle)} (h : Attempted D j past s)
    (hsteered : Steered W s) (hdirect : Direct D) (hfire : Fire W D s label t) :
    Attempted D j (past ++ label.toList) t := by
  by_cases hj : ∃ st, label = some (j, st)
  · obtain ⟨st, rfl⟩ := hj
    change Attempted D j (past ++ [(j, st)]) t
    have hbegun := begun_concat j past (j, st)
    have hsame : st ≠ .running → begun j (past ++ [(j, st)]) = begun j past := by
      intro hst
      rw [hbegun, if_neg (by simpa using hst), Nat.add_zero]
    have hbounded : st ≠ .running → ∃ n, AllAgain D j n ∧ begun j (past ++ [(j, st)]) ≤ n + 1 := by
      intro hst
      rw [hsame hst]
      exact h.bounded
    -- An end of the waiting leaves the tasks in flight alone.
    have hidle : ∀ m : Net J, st.isTerminal = true → m.status j = some st →
        m.tries j = s.tries j → (j ∈ m.flight → j ∈ s.flight) → Attempted D j (past ++ [(j, st)]) m := by
      intro m hterm hst htries hflight
      have hrun : st ≠ .running := by rintro rfl; cases hterm
      refine ⟨fun hwait => ?_, fun hfly => ?_, hbounded hrun⟩
      · rw [hst] at hwait
        obtain hw | hw := hwait
        · cases hw; cases hterm
        · cases hw; cases hterm
      · rw [hsame hrun, htries]
        exact h.flying (hflight hfly)
    have hself : ∀ st : JobLifecycle, Function.update s.status j (some st) j = some st :=
      fun st => update_self _ _ _
    cases hfire with
    | arm _ hpending =>
      refine ⟨fun _ => ?_, fun hfly => ?_, hbounded (by simp)⟩
      · rw [hsame (by simp)]
        exact h.waiting (.inl hpending)
      · rw [hsame (by simp)]
        exact h.flying hfly
    | defer _ hready =>
      refine ⟨fun _ => ?_, fun hfly => ?_, hbounded (by simp)⟩
      · rw [hsame (by simp)]
        exact h.waiting (.inr hready)
      · rw [hsame (by simp)]
        exact h.flying hfly
    | launch _ hready =>
      obtain ⟨hcount, hagain⟩ := h.waiting (.inr hready)
      rw [if_pos rfl, hcount] at hbegun
      refine ⟨fun hwait => ?_, fun _ => ⟨hbegun, hagain⟩, s.tries j, hagain, hbegun.le⟩
      have hrun : Function.update s.status j (some .running) j = some .pending ∨
        Function.update s.status j (some .running) j = some .ready := hwait
      rw [hself] at hrun
      simp at hrun
    | again hsettles hverdict =>
      obtain ⟨hfly, -, hflight, -⟩ := hsteered.settles hsettles
      obtain ⟨hcount, hagain⟩ := h.flying hfly
      have htries : Function.update s.tries j (s.tries j + 1) j = s.tries j + 1 :=
        update_self _ _ _
      refine ⟨fun _ => ?_, fun hin => ?_, hbounded (by simp)⟩
      · rw [hsame (by simp)]
        change begun j past = Function.update s.tries j (s.tries j + 1) j ∧
          AllAgain D j (Function.update s.tries j (s.tries j + 1) j)
        rw [htries]
        exact ⟨hcount, hagain.succ hverdict⟩
      · subst hflight
        exact absurd rfl hin.2
    | succeed hsettles =>
      obtain ⟨-, -, hflight, -⟩ := hsteered.settles hsettles
      subst hflight
      exact hidle _ rfl (hself _) rfl fun hin => absurd rfl hin.2
    | fail hsettles =>
      obtain ⟨-, -, hflight, -⟩ := hsteered.settles hsettles
      subst hflight
      refine ⟨fun hwait => ?_, fun hin => absurd rfl hin.2, hbounded (by simp)⟩
      obtain hw | hw := hwait
      · cases (hself _).symm.trans hw
      · cases (hself _).symm.trans hw
    | cancelIdle | cancelActive | interrupt | close =>
      exact hidle _ rfl (hself _) rfl fun hin => hin
    | reject _ _ hreject => exact absurd hreject (hdirect.reject _ _)
    | hit hhit => exact absurd hhit hdirect.hit
    | park hpark => exact absurd hpark hdirect.park
    | mirror hin => rw [hsteered.parked] at hin; exact hin.elim
  · have hother : ∀ st, label ≠ some (j, st) := fun st hst => hj ⟨st, hst⟩
    obtain ⟨hstatus, htries, hflight⟩ := frame_of_fire hfire hother
    obtain ⟨hbegun, -⟩ := begun_other past hother
    refine ⟨fun hwait => ?_, fun hfly => ?_, ?_⟩
    · rw [hbegun, htries]
      exact h.waiting (hstatus ▸ hwait)
    · rw [hbegun, htries]
      exact h.flying (hflight hfly)
    · rw [hbegun]
      exact h.bounded

/-- A finished job ended as its last attempt did, or was cancelled behind a broken job. -/
structure Concluded (W : Wiring J) (D : Discipline J) (j : J) (past : List (J × JobLifecycle))
    (s : Net J) : Prop where
  /-- A success follows repeated attempts and is committed once. -/
  succeeded : s.status j = some .succeeded → wins j past = 1 ∧
    ∃ n, begun j past = n + 1 ∧ AllAgain D j n ∧ D.verdict j (n + 1) .success
  failed : ∀ message, s.status j = some (.failed message) →
    ∃ n, begun j past = n + 1 ∧ AllAgain D j n ∧ D.verdict j (n + 1) (.failure message)
  /-- No success is committed before the job succeeds. -/
  winless : s.status j ≠ some .succeeded → wins j past = 0
  launched : s.status j ≠ some .skipped
  /-- A cancelled job lies behind a broken one. -/
  cancelled : s.status j = some .cancelled → ∃ u ∈ W.up j, broken (s.status u) = true

theorem Concluded.fire {j : J} {past : List (J × JobLifecycle)} (h : Concluded W D j past s)
    (hattempted : Attempted D j past s) (hsteered : Steered W s) (hdirect : Direct D)
    (hs : Placed W s) (hfire : Fire W D s label t) : Concluded W D j (past ++ label.toList) t := by
  by_cases hj : ∃ st, label = some (j, st)
  · obtain ⟨st, rfl⟩ := hj
    change Concluded W D j (past ++ [(j, st)]) t
    have hstatus : t.status j = some st := by
      rw [hfire.status_eq]
      exact update_self _ _ _
    have hbegun := begun_concat j past (j, st)
    have hwins := wins_concat j past (j, st)
    have hopen : s.status j ≠ some .succeeded → st ≠ .succeeded → wins j (past ++ [(j, st)]) = 0 := by
      intro hne hst
      rw [hwins, if_neg (by simpa using hst), h.winless hne]
    -- A job that waits, runs or is cancelled has neither succeeded nor failed.
    have hplain : s.status j ≠ some .succeeded → st.isSatisfied = false → (∀ m, st ≠ .failed m) →
        (st = .cancelled → ∃ u ∈ W.up j, broken (t.status u) = true) →
        Concluded W D j (past ++ [(j, st)]) t := by
      intro hne hsat hfail hcancelled
      have hst : st ≠ .succeeded := by rintro rfl; cases hsat
      refine ⟨fun hs => ?_, fun m hs => ?_, fun _ => hopen hne hst, fun hs => ?_, fun hs => ?_⟩
      · rw [hstatus, Option.some.injEq] at hs
        exact absurd hs hst
      · rw [hstatus, Option.some.injEq] at hs
        exact absurd hs (hfail m)
      · rw [hstatus, Option.some.injEq] at hs
        subst hs
        cases hsat
      · rw [hstatus, Option.some.injEq] at hs
        exact hcancelled hs
    have htodo : j ∈ s.todo → ∃ u ∈ W.up j, broken (t.status u) = true := by
      intro hin
      obtain ⟨u, hu, hb⟩ := hsteered.todo j hin
      exact ⟨u, hu, broken_fire hs hfire hb⟩
    have hnone : st ≠ .running → begun j (past ++ [(j, st)]) = begun j past := by
      intro hst
      rw [hbegun, if_neg (by simpa using hst), Nat.add_zero]
    cases hfire with
    | arm _ hst => exact hplain (by rw [hst]; simp) rfl (by simp) (by simp)
    | defer _ hst => exact hplain (by rw [hst]; simp) rfl (by simp) (by simp)
    | launch _ hst => exact hplain (by rw [hst]; simp) rfl (by simp) (by simp)
    | again hsettles =>
      obtain ⟨-, hst, -⟩ := hsteered.settles hsettles
      exact hplain (by rw [hst]; simp) rfl (by simp) (by simp)
    | cancelIdle hin _ hidle =>
      refine hplain ?_ rfl (by simp) fun _ => htodo hin
      obtain hst | hst := hidle
      · rw [hst]; simp
      · rw [hst]; simp
    | cancelActive hin hst => exact hplain (by rw [hst]; simp) rfl (by simp) fun _ => htodo hin
    | succeed hsettles hverdict =>
      obtain ⟨hfly, hst, -⟩ := hsteered.settles hsettles
      obtain ⟨hcount, hagain⟩ := hattempted.flying hfly
      have hzero := h.winless (by rw [hst]; simp)
      refine ⟨fun _ => ⟨?_, s.tries j, ?_, hagain, hverdict⟩, fun m hs => ?_, fun hs => ?_,
        fun hs => ?_, fun hs => ?_⟩
      · rw [hwins, if_pos rfl, hzero]
      · rw [hnone (by simp), hcount]
      · cases hstatus.symm.trans hs
      · exact absurd hstatus hs
      · cases hstatus.symm.trans hs
      · cases hstatus.symm.trans hs
    | @fail _ _ _ message _ _ hsettles hverdict =>
      obtain ⟨hfly, hst, -⟩ := hsteered.settles hsettles
      obtain ⟨hcount, hagain⟩ := hattempted.flying hfly
      refine ⟨fun hs => ?_, fun m hs => ?_, fun _ => hopen (by rw [hst]; simp) (by simp),
        fun hs => ?_, fun hs => ?_⟩
      · cases hstatus.symm.trans hs
      · obtain rfl : message = m := by
          rw [hstatus] at hs
          simpa using hs
        exact ⟨s.tries j, by rw [hnone (by simp), hcount], hagain, hverdict⟩
      · cases hstatus.symm.trans hs
      · cases hstatus.symm.trans hs
    | reject _ _ hreject => exact absurd hreject (hdirect.reject _ _)
    | hit hhit => exact absurd hhit hdirect.hit
    | park hpark => exact absurd hpark hdirect.park
    | mirror hin => rw [hsteered.parked] at hin; exact hin.elim
    | interrupt hstop => rw [hsteered.going] at hstop; cases hstop
    | close hstop => rw [hsteered.going] at hstop; cases hstop
  · have hother : ∀ st, label ≠ some (j, st) := fun st hst => hj ⟨st, hst⟩
    obtain ⟨hstatus, -, -⟩ := frame_of_fire hfire hother
    obtain ⟨hbegun, hwins⟩ := begun_other past hother
    refine ⟨fun hs' => ?_, fun m hs' => ?_, fun hs' => ?_, fun hs' => ?_, fun hs' => ?_⟩
    · rw [hbegun, hwins]
      exact h.succeeded (hstatus ▸ hs')
    · rw [hbegun]
      exact h.failed m (hstatus ▸ hs')
    · rw [hwins]
      exact h.winless (hstatus ▸ hs')
    · exact h.launched (hstatus ▸ hs')
    · obtain ⟨u, hu, hb⟩ := h.cancelled (hstatus ▸ hs')
      exact ⟨u, hu, broken_fire hs hfire hb⟩

end Attempts

section Runs

/-- What holds along every run of a direct net. -/
structure Guided (W : Wiring J) (D : Discipline J) (past : List (J × JobLifecycle)) (s : Net J) :
    Prop where
  placed : Placed W s
  steered : Steered W s
  attempted : ∀ j, Attempted D j past s

theorem Guided.fire {past : List (J × JobLifecycle)} (h : Guided W D past s) (hdirect : Direct D)
    (hfire : Fire W D s label t) : Guided W D (past ++ label.toList) t :=
  ⟨h.placed.fire hfire, h.steered.fire hdirect h.placed hfire,
    fun j => (h.attempted j).fire h.steered hdirect hfire⟩

theorem Guided.run {past labels : List (J × JobLifecycle)} (h : Guided W D past s)
    (hdirect : Direct D) (hrun : Run (Fire W D) s labels t) : Guided W D (past ++ labels) t :=
  hrun.recorded (Guided W D) (fun _ _ _ _ hs hfire => hs.fire hdirect hfire) h

theorem Concluded.run {j : J} {past labels : List (J × JobLifecycle)}
    (h : Concluded W D j past s) (hguided : Guided W D past s) (hdirect : Direct D)
    (hrun : Run (Fire W D) s labels t) : Concluded W D j (past ++ labels) t := by
  have hboth : Concluded W D j (past ++ labels) t ∧ Guided W D (past ++ labels) t := by
    refine hrun.recorded (fun past s => Concluded W D j past s ∧ Guided W D past s) ?_ ⟨h, hguided⟩
    rintro past s label t ⟨hend, hs⟩ hfire
    exact ⟨hend.fire (hs.attempted j) hs.steered hdirect hs.placed hfire, hs.fire hdirect hfire⟩
  exact hboth.1

end Runs

end OxyMake.NetAttempts
