import Mathlib.Data.ENat.Lattice
import OxyMake.AttemptLog
import OxyMake.Confluence

/-!
# The budget of a retried job

The exit code of an attempt depends on the job and the number of the attempt.
In a run with keep-going, without claims, gates, cache hits and signals, a job
with a retry budget whose upstream jobs succeed is attempted until its first
success or until the budget is spent, one attempt at a time, and succeeds
exactly when the first success lies within the budget.
-/

namespace OxyMake.RetryBudget

open PhysicalGraph Observation SchedulingFrontier Frontier Completion SchedulerLoop
open LabelledRuns DependencyNet Net NetInvariants NetAttempts
open CompletionRefinement LoopRefinement Confluence AttemptLog

section Codes

/-- Number of the first attempt that exits with zero, infinite if there is none. -/
noncomputable def firstSuccess (codes : ℕ → ℤ) : ℕ∞ :=
  ⨅ n ∈ {n : ℕ | 0 < n ∧ codes n = 0}, (n : ℕ∞)

theorem lt_firstSuccess {codes : ℕ → ℤ} {n : ℕ} (h : ∀ i < n, codes (i + 1) ≠ 0) :
    (n : ℕ∞) < firstSuccess codes := by
  have hnext : ((n + 1 : ℕ) : ℕ∞) ≤ firstSuccess codes := by
    refine le_iInf₂ fun k hk => ?_
    obtain ⟨hpos, hzero⟩ := hk
    have hle : n + 1 ≤ k := by
      by_contra hlt
      refine h (k - 1) (by omega) ?_
      rw [Nat.sub_add_cancel hpos]
      exact hzero
    exact Nat.cast_le.mpr hle
  exact lt_of_lt_of_le (Nat.cast_lt.mpr (Nat.lt_succ_self n)) hnext

theorem firstSuccess_eq {codes : ℕ → ℤ} {n : ℕ} (h : ∀ i < n, codes (i + 1) ≠ 0)
    (hn : codes (n + 1) = 0) : firstSuccess codes = (n + 1 : ℕ) := by
  apply le_antisymm
  · exact iInf₂_le (n + 1) ⟨Nat.succ_pos n, hn⟩
  · have hlt := Order.add_one_le_of_lt (lt_firstSuccess h)
    rw [Nat.cast_add_one]
    exact hlt

theorem lt_budget {count n : ℕ} {backoff : Backoff} {codes : ℕ → ℤ}
    (h : ∀ i < n, judge (.retry count backoff) (i + 1) (codes (i + 1)) = .again) :
    (n : ℕ∞) < firstSuccess codes ∧ n < max 1 count := by
  constructor
  · exact lt_firstSuccess fun i hi => (judge_again (h i hi)).1
  · have hlast := lt_lastAttempt h
    simp only [lastAttempt] at hlast
    omega

end Codes

variable {x : Setup} {outcome : JobId → ℕ → ℤ}

section Conducts

/-- The cache reports no hit, and the exit code of an attempt is that of the
attempt with its number among the launches of the job. -/
def numbered (x : Setup) (outcome : JobId → ℕ → ℤ) : Conduct where
  pass _ a := x.cache = true → ∀ id, a.check id ≠ .ok ()
  await s arm := ∀ msg, arm = .completed msg →
    msg.result.exitCode = outcome msg.job.id (launches msg.job.id s.frontier.log)

/-- The same with the attempts numbered by the counter of failed attempts. -/
def counted (x : Setup) (outcome : JobId → ℕ → ℤ) : Conduct where
  pass _ a := x.cache = true → ∀ id, a.check id ≠ .ok ()
  await s arm := ∀ msg, arm = .completed msg →
    msg.result.exitCode = outcome msg.job.id (s.frontier.retryCounts msg.job.id + 1)

/-- Commits of a success of the job; each promotes the jobs behind it. -/
def promotions (id : JobId) (log : List Obs) : ℕ := log.count (.status id .succeeded)

theorem count_writes (id : JobId) (st : JobLifecycle) (obs : List Obs) :
    (writes obs).count (id, st) = obs.count (.status id st) := by
  induction obs with
  | nil => rfl
  | cons o obs ih =>
    cases o with
    | status =>
      rw [writes_cons_status, List.count_cons, List.count_cons, ih]
      simp
    | _ =>
      change (writes obs).count (id, st) = _
      rw [List.count_cons, ih]
      simp

theorem initial_guided : Guided (wiring x.topo) (scriptedNet x outcome) []
    (loopNet (initial x) ∅ false) := by
  have htries : ∀ j, (loopNet (initial x) ∅ false).tries j = 0 := fun j =>
    congrFun (initial_retryCounts x) j
  have hnone : ∀ j, AllAgain (scriptedNet x outcome) j 0 := fun j i hi =>
    absurd hi (Nat.not_lt_zero i)
  refine ⟨initial_placed x, ⟨rfl, by simp [loopNet, net, initial], fun j hj => hj.elim⟩,
    fun j => ⟨fun _ => ?_, fun hfly => ?_, 0, hnone j, Nat.zero_le _⟩⟩
  · rw [htries]
    exact ⟨rfl, hnone j⟩
  · have hin : j ∈ (initial x).inFlight := hfly
    cases hin

/-- A point of a steady run, as the log and the net tell it. -/
structure Audited (x : Setup) (outcome : JobId → ℕ → ℤ) (p : Point) (closed : Bool)
    (obs : List Obs) : Prop where
  /-- The net reaches the same state with the same writes. -/
  run : Run (Fire (wiring x.topo) (scriptedNet x outcome)) (loopNet (initial x) ∅ false)
    (writes obs) (loopNet p.state ∅ closed)
  guided : Guided (wiring x.topo) (scriptedNet x outcome) (writes obs)
    (loopNet p.state ∅ closed)
  /-- Launches are attempts begun by the net. -/
  launches : ∀ id, launches id p.state.frontier.log = begun id (writes obs)
  promotions : ∀ id, promotions id p.state.frontier.log = wins id (writes obs)

theorem reachable_audited (hx : Steady x) {p : Point} (h : Reachable x (counted x outcome) p) :
    ∃ closed obs, Audited x outcome p closed obs := by
  have hobeys : Obeys x (counted x outcome) (scriptedNet x outcome) :=
    obeys_of_steady hx (fun _ _ h => h) fun _ msg h => h msg rfl
  obtain ⟨closed, obs, hlinked⟩ := reachable_linked hobeys h
  have hcount : ∀ id st, st ≠ .skipped →
      p.state.frontier.log.count (.status id st) = (writes obs).count (id, st) := by
    intro id st hst
    have hzero : (initial x).frontier.log.count (.status id st) = 0 := by
      refine List.count_eq_zero.mpr fun hin => ?_
      cases RunLog.initial_log x _ hin with
      | inl h =>
        obtain ⟨j, hj⟩ := h
        cases hj
        exact hst rfl
      | inr h =>
        obtain ⟨_, he⟩ := h
        cases he
    rw [hlinked.log, List.count_append, hzero, Nat.zero_add, count_writes]
  refine ⟨closed, obs, hlinked.run, initial_guided.run follows_script.direct hlinked.run,
    fun id => ?_, fun id => hcount id .succeeded (by simp)⟩
  rw [(reachable_tally hx.claimer h id).written]
  exact hcount id .running (by simp)

theorem counted_of_numbered (hx : Steady x) {p : Point}
    (h : Reachable x (numbered x outcome) p) : Reachable x (counted x outcome) p := by
  induction h with
  | start hrefused => exact .start hrefused
  | pass _ hpass ih => exact .pass ih hpass
  | @await s skipped arm p _ hawait hq ih =>
    refine .await ih ?_ hq
    rintro msg rfl
    obtain ⟨_, _, haudited⟩ := reachable_audited hx ih
    have hflight : msg.job.id ∈ s.inFlight := by
      cases await_cases x hq with
      | completed hflight => exact hflight
    have hnumber : launches msg.job.id s.frontier.log = s.frontier.retryCounts msg.job.id + 1 :=
      (haudited.launches msg.job.id).trans ((haudited.guided.attempted _).flying hflight).1
    rw [hawait msg rfl, hnumber]

end Conducts

section Budget

/-- What a point of a run says about the attempts of every job: at most one is
open at a time, a retried job never exceeds its budget, and in a fresh run every
success has promoted each job behind it once. -/
structure WithinBudget (x : Setup) (outcome : JobId → ℕ → ℤ) (s : LoopState) : Prop where
  /-- No two attempts of a job are in flight together. -/
  spaced : ∀ id, Spaced id s.frontier.log
  /-- The launches stay within the budget and stop at the first success. -/
  bounded : ∀ id count backoff, strategyOf x id = .retry count backoff →
    (launches id s.frontier.log : ℕ∞) ≤ min (firstSuccess (outcome id)) (max 1 count : ℕ)
  /-- The counter of a waiting job is the number of its upstream jobs that are
  not satisfied. -/
  promoted : x.config.resumeSnapshot = none → ∀ id,
    s.frontier.statuses id = some .pending → s.frontier.pendingUpstream id =
      some ((x.graph.upstream id).countP fun up => !satisfied (s.frontier.statuses up))

/-- A retried job of a returned run: it was attempted until its first success or
the end of its budget, succeeded exactly when the first lies within the second,
and then promoted the jobs behind it once. -/
structure Spent (codes : ℕ → ℤ) (count : ℕ) (id : JobId) (s : LoopState) : Prop where
  launches : (launches id s.frontier.log : ℕ∞) = min (firstSuccess codes) (max 1 count : ℕ)
  /-- The job succeeds within the budget. -/
  succeeded : s.frontier.statuses id = some .succeeded ↔ firstSuccess codes ≤ (max 1 count : ℕ)
  /-- A success promotes the jobs behind it once, a failure never. -/
  promotions : promotions id s.frontier.log =
    if s.frontier.statuses id = some .succeeded then 1 else 0

theorem judged_of_verdict {id : JobId} {count n : ℕ} {backoff : Backoff} {v : Verdict}
    (hstrategy : strategyOf x id = .retry count backoff)
    (h : (scriptedNet x outcome).verdict id n v) :
    judge (.retry count backoff) n (outcome id n) = v := by
  have hv : v = judge (strategyOf x id) n (outcome id n) := h
  rw [hv, hstrategy]

theorem reachable_withinBudget (hx : Steady x) {p : Point}
    (h : Reachable x (numbered x outcome) p) : WithinBudget x outcome p.state := by
  obtain ⟨closed, _, haudited⟩ := reachable_audited hx (counted_of_numbered hx h)
  refine ⟨fun id => (reachable_tally hx.claimer h id).spaced, ?_, ?_⟩
  · intro id count backoff hstrategy
    obtain ⟨n, hagain, hle⟩ := (haudited.guided.attempted id).bounded
    obtain ⟨hfirst, hbudget⟩ := lt_budget fun i hi => judged_of_verdict hstrategy (hagain i hi)
    have hlaunches : (launches id p.state.frontier.log : ℕ∞) ≤ ((n + 1 : ℕ) : ℕ∞) := by
      rw [haudited.launches id]
      exact Nat.cast_le.mpr hle
    refine hlaunches.trans (le_min ?_ (Nat.cast_le.mpr hbudget))
    rw [Nat.cast_add_one]
    exact Order.add_one_le_of_lt hfirst
  · intro hfresh id hpending
    have hsound : Sound (wiring x.topo) True (loopNet p.state ∅ closed) :=
      (initial_sound x fun _ => DependencySafety.skipsCountOnce_of_fresh hfresh).run haudited.run
    have hopen : unfinished ((loopNet p.state ∅ closed).status id) = true := by
      change unfinished (p.state.frontier.statuses id) = true
      rw [hpending]
      rfl
    obtain ⟨c, hcount, -, hexact⟩ := hsound.counted id hopen
    rw [hexact trivial] at hcount
    exact hcount

theorem returned_spent (hx : Steady x) {s : LoopState}
    (h : Reachable x (numbered x outcome) (.returned s)) {id : JobId} {count : ℕ}
    {backoff : Backoff} (hstrategy : strategyOf x id = .retry count backoff)
    (hpending : (initial x).frontier.statuses id = some .pending)
    (hup : ∀ up ∈ x.graph.upstream id, s.frontier.statuses up = some .succeeded) :
    Spent (outcome id) count id s := by
  obtain ⟨closed, _, haudited⟩ := reachable_audited hx (counted_of_numbered hx h)
  have hstart : (loopNet (initial x) ∅ false).status id = some .pending := hpending
  have hfirst : Concluded (wiring x.topo) (scriptedNet x outcome) id []
      (loopNet (initial x) ∅ false) := by
    refine ⟨fun hs => ?_, fun m hs => ?_, fun _ => rfl, ?_, fun hs => ?_⟩
    · cases hstart.symm.trans hs
    · cases hstart.symm.trans hs
    · rw [hstart]
      simp
    · cases hstart.symm.trans hs
  have hend := hfirst.run initial_guided follows_script.direct haudited.run
  rw [List.nil_append] at hend
  have hknown : id ∈ x.topo.order := by
    have hsome := ((initial_placed x).known id).mp
    exact hsome (by rw [hstart]; rfl)
  have hterm := NoStuckRun.returned_finished h id hknown
  have hlaunches := haudited.launches id
  have hpromotions := haudited.promotions id
  cases hst : s.frontier.statuses id with
  | none => rw [hst] at hterm; cases hterm
  | some st =>
    rw [hst] at hterm
    cases st with
    | pending | ready | running => cases hterm
    | skipped => exact absurd hst hend.launched
    | cancelled =>
      obtain ⟨u, hu, hb⟩ := hend.cancelled hst
      have hsucceeded : (loopNet s ∅ closed).status u = some .succeeded := hup u hu
      rw [show (loopNet (Point.returned s).state ∅ closed).status u = some .succeeded from
        hsucceeded] at hb
      cases hb
    | succeeded =>
      obtain ⟨hwins, n, hbegun, hagain, hverdict⟩ := hend.succeeded hst
      have hjudged : ∀ i < n, judge (.retry count backoff) (i + 1) (outcome id (i + 1)) = .again :=
        fun i hi => judged_of_verdict hstrategy (hagain i hi)
      obtain ⟨-, hbudget⟩ := lt_budget hjudged
      have hcode : outcome id (n + 1) = 0 := by
        by_contra hne
        have hsuccess := judged_of_verdict hstrategy hverdict
        simp only [judge, hne, if_false] at hsuccess
        split at hsuccess <;> cases hsuccess
      have hk := firstSuccess_eq (fun i hi => (judge_again (hjudged i hi)).1) hcode
      have hwithin : firstSuccess (outcome id) ≤ (max 1 count : ℕ) := by
        rw [hk]
        exact Nat.cast_le.mpr hbudget
      refine ⟨?_, iff_of_true hst hwithin, ?_⟩
      · rw [min_eq_left hwithin, hk]
        exact congrArg _ (hlaunches.trans hbegun)
      · rw [if_pos hst]
        exact hpromotions.trans hwins
    | failed message =>
      obtain ⟨n, hbegun, hagain, hverdict⟩ := hend.failed message hst
      have hjudged : ∀ i < n, judge (.retry count backoff) (i + 1) (outcome id (i + 1)) = .again :=
        fun i hi => judged_of_verdict hstrategy (hagain i hi)
      obtain ⟨-, hbudget⟩ := lt_budget hjudged
      have hfailure := judged_of_verdict hstrategy hverdict
      have hcode : outcome id (n + 1) ≠ 0 := by
        intro hzero
        simp only [judge, hzero, if_true] at hfailure
        cases hfailure
      have hlast : max 1 count = n + 1 := by
        simp only [judge, hcode, if_false] at hfailure
        split at hfailure
        · cases hfailure
        · omega
      have hlate : ((n + 1 : ℕ) : ℕ∞) < firstSuccess (outcome id) := by
        refine lt_firstSuccess fun i hi => ?_
        obtain hlt | rfl := Nat.lt_succ_iff_lt_or_eq.mp hi
        · exact (judge_again (hjudged i hlt)).1
        · exact hcode
      have hopen : s.frontier.statuses id ≠ some .succeeded := by
        rw [hst]
        simp
      refine ⟨?_, iff_of_false hopen ?_, ?_⟩
      · rw [hlast, min_eq_right hlate.le]
        exact congrArg _ (hlaunches.trans hbegun)
      · rw [hlast]
        exact not_le_of_gt hlate
      · rw [if_neg hopen]
        exact hpromotions.trans (hend.winless hopen)

/-- Retry budget of a steady run without cache hits: every point is within the
budget, and a retried job that is pending as the loop starts and whose upstream
jobs succeed has spent its budget when the run returns. -/
theorem retry_budget (hx : Steady x) (outcome : JobId → ℕ → ℤ) :
    (∀ p, Reachable x (numbered x outcome) p → WithinBudget x outcome p.state) ∧
    ∀ s, Reachable x (numbered x outcome) (.returned s) → ∀ id count backoff,
      strategyOf x id = .retry count backoff →
      (initial x).frontier.statuses id = some .pending →
      (∀ up ∈ x.graph.upstream id, s.frontier.statuses up = some .succeeded) →
      Spent (outcome id) count id s :=
  ⟨fun _ h => reachable_withinBudget hx h, fun _ h _ _ _ hstrategy hpending hup =>
    returned_spent hx h hstrategy hpending hup⟩

def loneJob : ConcreteJob :=
  { fileJob "a" [] ["a.txt"] with errorStrategy := .retry 2 .constant }

def loneGraph : JobGraph := ⟨[loneJob], [], [], List.nodup_singleton _⟩

/-- A steady run of the job, fresh or resumed. -/
def lone (snapshot : Option LedgerSnapshot) : Setup :=
  .plain loneGraph (.ofPrefixes ["a"] (List.nodup_singleton "a") (by decide) (by decide))
    { DependencySafety.skipping [] List.nodup_nil with
      keepGoing := true
      resumeSnapshot := snapshot }

theorem lone_steady (snapshot : Option LedgerSnapshot) : Steady (lone snapshot) := by
  refine ⟨rfl, fun id => ?_, rfl, rfl⟩
  simp [JobGraph.blockingGates, lone, Setup.plain, loneGraph]

def afterDelay : Answers := { Answers.plain with now := fun _ => 1000 }

def attemptEnd (exitCode : ℤ) : CompletionMsg where
  job := loneJob
  result := ⟨exitCode, 0, none, none, none⟩
  outputsChanged := true
  now := 0

/-- The loop state as the next iteration of the fresh run waits. -/
def waited (s : LoopState) : LoopState := (pass (lone none) afterDelay s).state

/-- The loop state after one more attempt of the fresh run. -/
def attempted (exitCode : ℤ) (s : LoopState) : LoopState :=
  consume (lone none) (attemptEnd exitCode) (joinTask (lone none) "a" (waited s))

theorem reachable_attempted {outcome : JobId → ℕ → ℤ} {s : LoopState} (exitCode : ℤ)
    (h : Reachable (lone none) (numbered (lone none) outcome) (.head s))
    (hflight : "a" ∈ (waited s).inFlight)
    (hcode : exitCode = outcome "a" (launches "a" (waited s).frontier.log)) :
    Reachable (lone none) (numbered (lone none) outcome) (.head (attempted exitCode s)) := by
  have hpass : Reachable (lone none) (numbered (lone none) outcome)
      (pass (lone none) afterDelay s) := .pass h fun hcache => by cases hcache
  obtain ⟨skipped, hwaiting⟩ := pass_waiting (lone none) afterDelay (List.ne_nil_of_mem hflight)
  rw [hwaiting] at hpass
  have hawait : await (lone none) (waited s) skipped (.completed (attemptEnd exitCode)) =
      some (.head (attempted exitCode s)) := if_pos ⟨hflight, rfl⟩
  refine .await hpass ?_ hawait
  rintro msg ⟨⟩
  exact hcode

/-- The last iteration of a run in which the job was attempted twice. -/
def lastPass (first second : ℤ) : Point :=
  pass (lone none) .plain (attempted second (attempted first (initial (lone none))))

theorem reachable_lastPass (first second : ℤ) {outcome : JobId → ℕ → ℤ}
    (hfirst : first = outcome "a" 1) (hsecond : second = outcome "a" 2)
    (hflight : "a" ∈ (waited (attempted first (initial (lone none)))).inFlight)
    (hcount : launches "a" (waited (attempted first (initial (lone none)))).frontier.log = 2) :
    Reachable (lone none) (numbered (lone none) outcome) (lastPass first second) := by
  have hstart : Reachable (lone none) (numbered (lone none) outcome)
      (.head (initial (lone none))) := .start rfl
  have hone := reachable_attempted first hstart (by decide) hfirst
  have htwo := reachable_attempted second hone hflight (by rw [hcount]; exact hsecond)
  exact .pass htwo fun hcache => by cases hcache

/-- A job that fails once has spent its budget with two attempts. -/
theorem retry_budget_lone : ∃ s : LoopState,
    lastPass 1 0 = .returned s ∧ Spent (fun n => if n = 2 then 0 else 1) 2 "a" s ∧
    launches "a" s.frontier.log = 2 := by
  have hreach : Reachable (lone none) (numbered (lone none) fun _ n => if n = 2 then 0 else 1)
      (lastPass 1 0) := reachable_lastPass 1 0 rfl rfl (by decide) (by decide)
  refine ⟨(lastPass 1 0).state, rfl, ?_, by decide⟩
  exact (retry_budget (lone_steady none) _).2 _ hreach "a" 2 .constant rfl rfl
    (by decide)

/-- A resumed run of the job, which its snapshot records as succeeded. -/
def resumed : Setup := lone (some (LedgerSnapshot.new.insert "a" .succeeded))

/-- A resumed run never attempts a job that its snapshot records as succeeded,
and a job whose attempts all fail promotes nothing. -/
theorem not_retry_budget :
    (∃ s, Reachable resumed (numbered resumed fun _ _ => 0) (.returned s) ∧
      strategyOf resumed "a" = .retry 2 .constant ∧
      (∀ up ∈ resumed.graph.upstream "a", s.frontier.statuses up = some .succeeded) ∧
      (launches "a" s.frontier.log : ℕ∞) ≠ min (firstSuccess fun _ => 0) (max 1 2 : ℕ)) ∧
    ∃ s, Reachable (lone none) (numbered (lone none) fun _ _ => 1) (.returned s) ∧
      strategyOf (lone none) "a" = .retry 2 .constant ∧
      (∀ up ∈ (lone none).graph.upstream "a", s.frontier.statuses up = some .succeeded) ∧
      promotions "a" s.frontier.log ≠ 1 := by
  constructor
  · have hstart : Reachable resumed (numbered resumed fun _ _ => 0) (.head (initial resumed)) :=
      .start rfl
    have hpass : Reachable resumed (numbered resumed fun _ _ => 0)
        (pass resumed .plain (initial resumed)) := .pass hstart fun hcache => by cases hcache
    refine ⟨(pass resumed .plain (initial resumed)).state, hpass, rfl, by decide, ?_⟩
    have hnone : launches "a" (pass resumed .plain (initial resumed)).state.frontier.log = 0 := by
      decide
    have hfirst : firstSuccess (fun _ => 0) = (0 + 1 : ℕ) :=
      firstSuccess_eq (fun i hi => absurd hi (Nat.not_lt_zero i)) rfl
    rw [hnone, hfirst, ← Nat.mono_cast.map_min]
    exact Nat.cast_injective.ne (by decide)
  · have hreach : Reachable (lone none) (numbered (lone none) fun _ _ => 1) (lastPass 1 1) :=
      reachable_lastPass 1 1 rfl rfl (by decide) (by decide)
    exact ⟨(lastPass 1 1).state, hreach, rfl, by decide, by decide⟩

end Budget

end OxyMake.RetryBudget
