import OxyMake.DependencyNet

/-!
# Invariants of the dependency net

A job is where its status says, its counter bounds the number of its open
dependencies, and a pending job whose counter is zero is offered, in hand or
parked. When the counters are exact at the start they stay exact, so that a
job is launched only after all its dependencies are satisfied. Finished jobs
are never written again.
-/

namespace OxyMake.NetInvariants

open Function
open Observation LabelledRuns DependencyNet Net

variable {J : Type*} [DecidableEq J] {W : Wiring J} {D : Discipline J} {exact : Prop}
  {s t : Net J} {label : Option (J × JobLifecycle)}

def Located (s : Net J) (j : J) : Prop := j ∈ s.front ∨ j ∈ s.hand ∨ j ∈ s.parked

/-- Jobs in flight, running jobs and ready jobs are where they should be. -/
structure Placed (W : Wiring J) (s : Net J) : Prop where
  /-- Exactly the jobs of the net have a status. -/
  known : ∀ j, (s.status j).isSome ↔ j ∈ W.nodes
  /-- A job in flight is running or was cancelled meanwhile. -/
  flying : ∀ j ∈ s.flight, s.status j = some .running ∨ s.status j = some .cancelled
  /-- A running job is in flight. -/
  running : ∀ j, s.status j = some .running → j ∈ s.flight
  /-- A ready job is in hand unless dispatch was interrupted. -/
  ready : ∀ j, s.status j = some .ready → j ∈ s.hand ∨ s.stopping = true

def Offered (s : Net J) : Prop :=
  ∀ j, s.status j = some .pending → s.count j = some 0 → Located s j

/-- Unfinished jobs that left the waiting state have counter zero. -/
def Released (s : Net J) : Prop :=
  ∀ j, unfinished (s.status j) = true → Located s j ∨ s.status j ≠ some .pending →
    s.count j = some 0

/-- Counters of unfinished jobs never exceed the number of open dependencies and,
when exact, equal it. -/
def Counted (W : Wiring J) (exact : Prop) (s : Net J) : Prop :=
  ∀ j, unfinished (s.status j) = true →
    ∃ c, s.count j = some c ∧ c ≤ unsat W s.status j ∧ (exact → c = unsat W s.status j)

structure Sound (W : Wiring J) (exact : Prop) (s : Net J) : Prop where
  placed : Placed W s
  offered : Offered s
  /-- Jobs that left the waiting state have counter zero. -/
  released : Released s
  counted : Counted W exact s

/-- What a rule does to statuses and counters. -/
inductive Effect (W : Wiring J) (s t : Net J) : Prop
  | still : t.status = s.status → t.count = s.count → Effect W s t
  | plain (j : J) (st : JobLifecycle) : t.status = Function.update s.status j (some st) →
      t.count = s.count → satisfied (s.status j) = false → st.isSatisfied = false →
      (st.isTerminal = false → unfinished (s.status j) = true) → Effect W s t
  | satisfy (j : J) (st : JobLifecycle) : t.status = Function.update s.status j (some st) →
      t.count = ((s.write j st).promoted W j).count → unfinished (s.status j) = true →
      st.isSatisfied = true → Effect W s t

theorem Placed.effect (hs : Placed W s) (h : Fire W D s label t) : Effect W s t := by
  cases h
  case hit j _ _ hj => exact .satisfy j .skipped rfl rfl (by rw [hj]; rfl) rfl
  case succeed j _ _ hj _ =>
    refine .satisfy j .succeeded rfl rfl ?_ rfl
    obtain ⟨-, h, -⟩ | ⟨-, h, -⟩ := hj <;> rw [h] <;> rfl
  case interrupt j _ hj =>
    have hf := hs.flying j hj
    exact .plain j .cancelled rfl rfl (by grind) rfl (by grind)
  case arm j _ _ => exact .plain j .ready rfl rfl (by grind) rfl (by grind)
  case reject j _ _ _ => exact .plain j .cancelled rfl rfl (by grind) rfl (by grind)
  case park j _ _ _ => exact .plain j .pending rfl rfl (by grind) rfl (by grind)
  case defer j _ _ => exact .plain j .pending rfl rfl (by grind) rfl (by grind)
  case launch j _ _ => exact .plain j .running rfl rfl (by grind) rfl (by grind)
  case again j _ _ hj _ =>
    unfold Settles at hj
    exact .plain j .pending rfl rfl (by grind) rfl (by grind)
  case fail j _ _ message _ _ hj _ _ =>
    unfold Settles at hj
    exact .plain j (.failed message) rfl rfl (by grind) rfl (by grind)
  case mirror j _ _ _ _ => exact .plain j .cancelled rfl rfl (by grind) rfl (by grind)
  case cancelIdle j _ _ _ _ _ => exact .plain j .cancelled rfl rfl (by grind) rfl (by grind)
  case cancelActive j _ _ _ _ => exact .plain j .cancelled rfl rfl (by grind) rfl (by grind)
  case close j _ _ _ _ => exact .plain j .cancelled rfl rfl (by grind) rfl (by grind)
  all_goals exact .still rfl rfl

/-- Jobs stay where their status says. -/
theorem Placed.fire (hs : Placed W s) (h : Fire W D s label t) : Placed W t := by
  refine ⟨fun x => ?_, fun x => ?_, fun x => ?_, fun x => ?_⟩
  · have hx := hs.known x
    have hf := hs.flying x
    cases h <;> simp only [write, promoted, Settles, update_apply] at * <;> grind
  · have hx := hs.flying x
    cases h <;> simp only [write, promoted, Settles, update_apply] at * <;> grind
  · have hx := hs.running x
    cases h <;> simp only [write, promoted, Settles, update_apply] at * <;> grind
  · have hx := hs.ready x
    cases h <;> simp only [write, promoted, Settles, update_apply] at * <;> grind

theorem promoted_offered {j : J} (h : Offered s) : Offered (s.promoted W j) := by
  intro x hx hc
  by_cases hd : x ∈ W.down j ∧ s.status x = some .pending
  · simp only [promoted, if_pos hd, Option.map_eq_some_iff] at hc
    exact .inl (.inr ⟨hd.1, hd.2, hc⟩)
  · simp only [promoted, if_neg hd] at hc
    obtain hf | hrest := h x hx hc
    · exact .inl (.inl hf)
    · exact .inr hrest

theorem promoted_released {j : J} (h : Released s) : Released (s.promoted W j) := by
  intro x hx hl
  by_cases hold : Located s x ∨ s.status x ≠ some .pending
  · have hc := h x hx hold
    simp [promoted, hc]
  · have hp : s.status x = some .pending := by
      by_contra hne
      exact hold (.inr hne)
    obtain (((hf | ⟨hd, -, c, hc, hz⟩) | hrest)) | hne := hl
    · exact absurd (.inl (.inl hf)) hold
    · simp [promoted, hd, hp, hc, hz]
    · exact absurd (.inl (.inr hrest)) hold
    · exact absurd hp hne

theorem Offered.fire (hs : Offered s) (h : Fire W D s label t) : Offered t := by
  cases h
  case hit =>
    refine promoted_offered fun x hx hc => ?_
    have hold := hs x
    simp only [write, update_apply, Located] at *
    grind
  case succeed =>
    refine promoted_offered fun x hx hc => ?_
    have hold := hs x
    simp only [write, update_apply, Located, Settles] at *
    grind
  all_goals
    intro x hx hc
    have hold := hs x
    simp only [write, update_apply, Located, Settles] at *
    grind

theorem Released.fire (hs : Released s) (h : Fire W D s label t) : Released t := by
  cases h
  case hit =>
    refine promoted_released fun x hx hc => ?_
    have hold := hs x
    simp only [write, update_apply, Located] at *
    grind
  case succeed =>
    refine promoted_released fun x hx hc => ?_
    have hold := hs x
    simp only [write, update_apply, Located, Settles] at *
    grind
  all_goals
    intro x hx hc
    have hold := hs x
    simp only [write, update_apply, Located, Settles] at *
    grind

theorem Counted.satisfy (hc : Counted W exact s) (hp : Placed W s) (hr : Released s) {j : J}
    {st : JobLifecycle} (hj : unfinished (s.status j) = true) (hst : st.isSatisfied = true)
    (hstatus : t.status = Function.update s.status j (some st))
    (hcount : t.count = ((s.write j st).promoted W j).count) : Counted W exact t := by
  intro x hx
  have hne : x ≠ j := by
    rintro rfl
    rw [hstatus, update_self] at hx
    cases st <;> simp_all [JobLifecycle.isSatisfied, JobLifecycle.isTerminal]
  rw [hstatus, update_of_ne hne] at hx
  obtain ⟨c, hcx, _, hexact⟩ := hc x hx
  have hunsat : satisfied (s.status j) = false := by
    cases hs : s.status j with
    | none => rfl
    | some old => rw [hs] at hj; cases old <;> simp_all [JobLifecycle.isSatisfied, JobLifecycle.isTerminal]
  have hsplit := unsat_satisfy (W := W) hunsat hst x
  rw [← hstatus] at hsplit
  have hnodes : ∀ y, unfinished (s.status y) = true → y ∈ W.nodes := fun y hy => by
    refine (hp.known y).mp ?_
    cases hs : s.status y with
    | none => rw [hs] at hy; cases hy
    | some => rfl
  have hadj := W.adjoint (hnodes j hj) (hnodes x hx)
  have hwritten : (s.write j st).status x = s.status x := update_of_ne hne _ _
  rw [hcount]
  by_cases hd : x ∈ W.down j
  · rw [if_pos (hadj.mpr hd)] at hsplit
    by_cases hpend : s.status x = some .pending
    · refine ⟨c - 1, ?_, by omega, fun he => ?_⟩
      · simp only [promoted, hwritten, hd, hpend, and_self, if_true]
        simp [write, hcx]
      · have := hexact he
        omega
    · have hzero := hr x hx (.inr hpend)
      rw [hcx, Option.some.injEq] at hzero
      refine ⟨c, ?_, by omega, fun he => ?_⟩
      · simp only [promoted, hwritten, hpend, and_false, if_false]
        exact hcx
      · have := hexact he
        omega
  · rw [if_neg fun h => hd (hadj.mp h)] at hsplit
    refine ⟨c, ?_, by omega, fun he => ?_⟩
    · simp only [promoted, hd, false_and, if_false]
      exact hcx
    · have := hexact he
      omega

theorem Counted.fire (hc : Counted W exact s) (hp : Placed W s) (hr : Released s)
    (h : Fire W D s label t) : Counted W exact t := by
  obtain ⟨hst, hcount⟩ | ⟨j, st, hst, hcount, hold, hnew, hun⟩ | ⟨j, st, hst, hcount, hold, hnew⟩ :=
    hp.effect h
  · intro x hx
    rw [hst] at hx ⊢
    rw [hcount]
    exact hc x hx
  · intro x hx
    rw [hst] at hx ⊢
    rw [hcount, unsat_update hold hnew]
    refine hc x ?_
    by_cases hne : x = j
    · subst hne
      rw [update_self] at hx
      exact hun (by simpa using hx)
    · rwa [update_of_ne hne] at hx
  · exact hc.satisfy hp hr hold hnew hst hcount

theorem Sound.fire (hs : Sound W exact s) (h : Fire W D s label t) : Sound W exact t :=
  ⟨hs.placed.fire h, hs.offered.fire h, hs.released.fire h,
    hs.counted.fire hs.placed hs.released h⟩

/-- Every run keeps the joint invariant. -/
theorem Sound.run {labels : List (J × JobLifecycle)} (hs : Sound W exact s)
    (h : Run (Fire W D) s labels t) : Sound W exact t :=
  h.invariant (Sound W exact) (fun _ _ _ hs h => hs.fire h) hs

omit [DecidableEq J] in
theorem Placed.isSome (hs : Placed W s) {u d : J} (hd : d ∈ W.down u) : (s.status d).isSome :=
  (hs.known d).mpr (W.down_mem hd)

theorem Placed.absorbing (hs : Placed W s) {j : J} {st : JobLifecycle}
    (h : Fire W D s (some (j, st)) t) (hj : terminal (s.status j) = true) :
    s.status j = some st := by
  have hf := hs.flying j
  cases h <;> unfold Settles at * <;> grind

/-- A finished job keeps its status. -/
theorem Placed.terminal_fire (hs : Placed W s) (h : Fire W D s label t) {j : J}
    (hj : terminal (s.status j) = true) : t.status j = s.status j := by
  rw [h.status_eq]
  cases label with
  | none => rfl
  | some write =>
    obtain ⟨k, st⟩ := write
    change Function.update s.status k (some st) j = s.status j
    by_cases hk : j = k
    · subst hk
      rw [update_self, hs.absorbing h hj]
    · rw [update_of_ne hk]

/-- A finished job keeps its status along every run. -/
theorem Placed.terminal_run {labels : List (J × JobLifecycle)} (hs : Placed W s)
    (h : Run (Fire W D) s labels t) {j : J} (hj : terminal (s.status j) = true) :
    t.status j = s.status j := by
  have hinv : Placed W t ∧ t.status j = s.status j := by
    refine h.invariant (fun m => Placed W m ∧ m.status j = s.status j) ?_ ⟨hs, rfl⟩
    rintro m label n ⟨hm, heq⟩ hfire
    exact ⟨hm.fire hfire, (hm.terminal_fire hfire (heq ▸ hj)).trans heq⟩
  exact hinv.2

/-- With exact counters a job is launched only when every dependency is satisfied. -/
theorem Sound.launch_satisfied (hs : Sound W True s) {j : J}
    (h : Fire W D s (some (j, .running)) t) : ∀ u ∈ W.up j, satisfied (s.status u) = true := by
  cases h with
  | launch hhand hready =>
    have hun : unfinished (s.status j) = true := by rw [hready]; rfl
    obtain ⟨c, hc, -, hexact⟩ := hs.counted j hun
    have hzero := hs.released j hun (.inl (.inr (.inl hhand)))
    rw [hc, Option.some.injEq] at hzero
    exact unsat_eq_zero.mp (by rw [← hexact trivial, hzero])

/-- Unless the run is stopping, every job behind a failed or cancelled job is
finished or about to be visited. -/
def Propagated (W : Wiring J) (s : Net J) : Prop :=
  s.stopping = false → ∀ u, broken (s.status u) = true → ∀ d ∈ W.down u,
    terminal (s.status d) = true ∨ d ∈ s.todo

/-- Failures and cancellations keep propagating when a rejected job has only
finished jobs behind it. -/
theorem Propagated.fire (hs : Propagated W s) (hp : Placed W s)
    (hreject : ∀ status j, D.reject status j → ∀ d ∈ W.down j, terminal (status d) = true)
    (h : Fire W D s label t) : Propagated W t := by
  intro hstop u hu d hd
  by_cases hterm : terminal (s.status d) = true
  · left
    rw [hp.terminal_fire h hterm]
    exact hterm
  · have hun : unfinished (s.status d) = true := by
      obtain ⟨_, hst⟩ := Option.isSome_iff_exists.mp (hp.isSome hd)
      rw [hst] at hterm ⊢
      simpa using hterm
    have hold : s.stopping = false → broken (s.status u) = true → d ∈ s.todo := fun h0 hb =>
      (hs h0 u hb d hd).resolve_left hterm
    clear hs hp
    cases h <;> simp only [write, promoted, Settles, Spreads, update_apply] at * <;> grind

/-- Run version of the propagation. -/
theorem Propagated.run {labels : List (J × JobLifecycle)} (hs : Propagated W s) (hp : Placed W s)
    (hreject : ∀ status j, D.reject status j → ∀ d ∈ W.down j, terminal (status d) = true)
    (h : Run (Fire W D) s labels t) : Propagated W t := by
  have hboth : Propagated W t ∧ Placed W t :=
    h.invariant (fun m => Propagated W m ∧ Placed W m)
      (fun _ _ _ hm hfire => ⟨hm.1.fire hm.2 hreject hfire, hm.2.fire hfire⟩) ⟨hs, hp⟩
  exact hboth.1

omit [DecidableEq J] in
/-- A job without a finished status that has some status is unfinished. -/
theorem Placed.unfinished_of_not_terminal (hs : Placed W s) {j : J} (hj : j ∈ W.nodes)
    (hterm : terminal (s.status j) ≠ true) : unfinished (s.status j) = true := by
  obtain ⟨_, hst⟩ := Option.isSome_iff_exists.mp ((hs.known j).mpr hj)
  rw [hst] at hterm ⊢
  simpa using hterm

omit [DecidableEq J] in
/-- When nothing is under way and failures have propagated, an unfinished job
implies an offered one whose dependencies are all satisfied. -/
theorem Sound.exists_offered (hs : Sound W exact s) (hprop : Propagated W s)
    (hgoing : s.stopping = false) (hhand : s.hand = ∅) (hflight : s.flight = ∅)
    (hparked : s.parked = ∅) (htodo : s.todo = ∅) {j : J} (hj : unfinished (s.status j) = true) :
    ∃ k ∈ s.front, s.status k = some .pending ∧ ∀ u ∈ W.up k, satisfied (s.status u) = true := by
  -- By induction on the height: a lower unfinished job or the job itself is offered.
  induction hrank : W.rank j using Nat.strong_induction_on generalizing j with
  | _ n ih =>
    have hnode : j ∈ W.nodes := (hs.placed.known j).mp (by
      cases hst : s.status j with
      | none => rw [hst] at hj; cases hj
      | some => rfl)
    by_cases hlower : ∃ u ∈ W.up j, unfinished (s.status u) = true
    · obtain ⟨u, hu, hun⟩ := hlower
      exact ih (W.rank u) (hrank ▸ W.rank_lt hnode hu) hun rfl
    · have hpending : s.status j = some .pending := by
        cases hst : s.status j with
        | none => rw [hst] at hj; cases hj
        | some st =>
          cases st with
          | pending => rfl
          | ready =>
            obtain h | h := hs.placed.ready j hst
            · rw [hhand] at h; exact h.elim
            · rw [hgoing] at h; cases h
          | running =>
            have h := hs.placed.running j hst
            rw [hflight] at h
            exact h.elim
          | succeeded | failed | skipped | cancelled => rw [hst] at hj; cases hj
      have hup : ∀ u ∈ W.up j, satisfied (s.status u) = true := by
        intro u hu
        have hterm : terminal (s.status u) = true := by
          by_contra hne
          exact hlower ⟨u, hu, hs.placed.unfinished_of_not_terminal (W.up_mem hu) hne⟩
        obtain h | hbroken := satisfied_or_broken hterm
        · exact h
        · obtain h | h := hprop hgoing u hbroken j ((W.adjoint (W.up_mem hu) hnode).mp hu)
          · rw [hpending] at h; cases h
          · rw [htodo] at h; exact h.elim
      obtain ⟨c, hc, hle, -⟩ := hs.counted j hj
      rw [unsat_eq_zero.mpr hup, Nat.le_zero] at hle
      obtain h | h | h := hs.offered j hpending (hle ▸ hc)
      · exact ⟨j, h, hpending, hup⟩
      · rw [hhand] at h; exact h.elim
      · rw [hparked] at h; exact h.elim

/-- Frontier, hand and parked jobs are disjoint and the first two are not finished. -/
structure Tidy (s : Net J) : Prop where
  /-- Offered jobs are pending until the run is closed. -/
  front : s.closed = false → ∀ j ∈ s.front, s.status j = some .pending
  /-- Jobs in hand are pending or ready and nowhere else. -/
  hand : ∀ j ∈ s.hand, (s.status j = some .pending ∨ s.status j = some .ready) ∧
    j ∉ s.front ∧ j ∉ s.parked
  /-- Parked jobs are neither offered nor running. -/
  parked : ∀ j ∈ s.parked, j ∉ s.front ∧ s.status j ≠ some .running

omit [DecidableEq J] in
theorem Sound.not_located (hs : Sound W True s) {j x : J} (hj : unfinished (s.status j) = true)
    (hx : x ∈ W.down j) (hp : s.status x = some .pending) : ¬ Located s x := by
  intro hl
  have hun : unfinished (s.status x) = true := by rw [hp]; rfl
  obtain ⟨c, hc, -, hexact⟩ := hs.counted x hun
  have hzero := hs.released x hun (.inl hl)
  rw [hc, Option.some.injEq] at hzero
  have hall := unsat_eq_zero.mp (by rw [← hexact trivial, hzero])
  have hnode : j ∈ W.nodes := (hs.placed.known j).mp (by
    cases hst : s.status j with
    | none => rw [hst] at hj; cases hj
    | some => rfl)
  have hsat := hall j ((W.adjoint hnode (W.down_mem hx)).mpr hx)
  have hterm := terminal_of_satisfied hsat
  cases hst : s.status j with
  | none => rw [hst] at hj; cases hj
  | some => simp [hst] at hj hterm; simp [hj] at hterm

omit [DecidableEq J] in
theorem Sound.not_placed (hs : Sound W True s) {j x : J} (hj : unfinished (s.status j) = true)
    (hx : x ∈ W.down j) (hp : s.status x = some .pending) :
    x ∉ s.front ∧ x ∉ s.hand ∧ x ∉ s.parked := by
  have hl := hs.not_located hj hx hp
  simpa [Located] using hl

theorem Tidy.fire_front (hs : Tidy s) (hsound : Sound W True s) (h : Fire W D s label t) :
    t.closed = false → ∀ j ∈ t.front, t.status j = some .pending := by
  intro hc x
  have hnew := fun j (hj : unfinished (s.status j) = true) (hx : x ∈ W.down j) =>
    hsound.not_placed hj hx
  have hfront := fun hc => hs.front hc x
  have hhand := hs.hand x
  have hparked := hs.parked x
  have hflying := hsound.placed.flying x
  clear hs hsound
  cases h <;> simp only [write, promoted, Settles, update_apply] at * <;> grind

theorem Tidy.fire_hand (hs : Tidy s) (hsound : Sound W True s) (h : Fire W D s label t) :
    ∀ j ∈ t.hand, (t.status j = some .pending ∨ t.status j = some .ready) ∧
      j ∉ t.front ∧ j ∉ t.parked := by
  intro x
  have hnew := fun j (hj : unfinished (s.status j) = true) (hx : x ∈ W.down j) =>
    hsound.not_placed hj hx
  have hfront := fun hc => hs.front hc x
  have hhand := hs.hand x
  have hparked := hs.parked x
  have hflying := hsound.placed.flying x
  clear hs hsound
  cases h <;> simp only [write, promoted, Settles, update_apply] at * <;> grind

theorem Tidy.fire_parked (hs : Tidy s) (hsound : Sound W True s) (h : Fire W D s label t) :
    ∀ j ∈ t.parked, j ∉ t.front ∧ t.status j ≠ some .running := by
  intro x
  have hnew := fun j (hj : unfinished (s.status j) = true) (hx : x ∈ W.down j) =>
    hsound.not_placed hj hx
  have hfront := fun hc => hs.front hc x
  have hhand := hs.hand x
  have hparked := hs.parked x
  have hflying := hsound.placed.flying x
  clear hs hsound
  cases h <;> simp only [write, promoted, Settles, update_apply] at * <;> grind

theorem Tidy.fire (hs : Tidy s) (hsound : Sound W True s) (h : Fire W D s label t) : Tidy t :=
  ⟨hs.fire_front hsound h, hs.fire_hand hsound h, hs.fire_parked hsound h⟩

theorem Tidy.run {labels : List (J × JobLifecycle)} (hs : Tidy s) (hsound : Sound W True s)
    (h : Run (Fire W D) s labels t) : Tidy t := by
  have hboth : Tidy t ∧ Sound W True t :=
    h.invariant (fun m => Tidy m ∧ Sound W True m)
      (fun _ _ _ hm hfire => ⟨hm.1.fire hm.2 hfire, hm.2.fire hfire⟩) ⟨hs, hsound⟩
  exact hboth.1

end OxyMake.NetInvariants
