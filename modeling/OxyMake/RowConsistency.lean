import OxyMake.RowWrites

/-!
# What the columns of a job row say together

Fourteen operations write different columns of a row. Whatever their calls do
between each other's statements, a `pending` row carries nothing of an earlier
attempt, a `running` row has an owner and no result, only a completion is
marked as a cache hit, and a failed or cancelled row has its time.
-/

namespace OxyMake.RowConsistency

open StateDb ClaimProtocol Interleaving LabelledRuns RowWrites

/-- The columns of a row agree with its status. -/
structure Consistent (j : Job) : Prop where
  /-- A `pending` row carries nothing of an earlier attempt. -/
  pending : j.status = .pending → j.sessionId = none ∧ j.startedAt = none ∧
    j.completedAt = none ∧ j.exitCode = none ∧ j.cached = false
  /-- A `running` row has an owner and no result. -/
  running : j.status = .running → (∃ sessionId, j.sessionId = some sessionId) ∧
    j.completedAt = none ∧ j.exitCode = none
  /-- Only a completion is marked as a cache hit. -/
  cacheHit : j.cached = true → j.status = .completed
  /-- A failed or cancelled row has its time. -/
  stopped : j.status = .failed ∨ j.status = .cancelled →
    ∃ completedAt, j.completedAt = some completedAt

theorem Consistent.not_cached {j : Job} (h : Consistent j) (hstatus : j.status ≠ .completed) :
    j.cached = false := by
  cases hcached : j.cached with
  | false => rfl
  | true => exact absurd (h.cacheHit hcached) hstatus

theorem consistent_of_cleared {j : Job} (hstatus : j.status = .pending)
    (howner : j.sessionId = none) (hstart : j.startedAt = none) (hend : j.completedAt = none)
    (hexit : j.exitCode = none) (hcached : j.cached = false) : Consistent j where
  pending _ := ⟨howner, hstart, hend, hexit, hcached⟩
  running h := nomatch hstatus.symm.trans h
  cacheHit h := nomatch hcached.symm.trans h
  stopped h := by
    rw [hstatus] at h
    rcases h with h | h <;> cases h

theorem consistent_of_taken {j : Job} {sessionId : String} (hstatus : j.status = .running)
    (howner : j.sessionId = some sessionId) (hend : j.completedAt = none)
    (hexit : j.exitCode = none) (hcached : j.cached = false) : Consistent j where
  pending h := nomatch hstatus.symm.trans h
  running _ := ⟨⟨sessionId, howner⟩, hend, hexit⟩
  cacheHit h := nomatch hcached.symm.trans h
  stopped h := by
    rw [hstatus] at h
    rcases h with h | h <;> cases h

theorem consistent_of_completed {j : Job} (hstatus : j.status = .completed) : Consistent j where
  pending h := nomatch hstatus.symm.trans h
  running h := nomatch hstatus.symm.trans h
  cacheHit _ := hstatus
  stopped h := by
    rw [hstatus] at h
    rcases h with h | h <;> cases h

theorem consistent_of_skipped {j : Job} (hstatus : j.status = .skipped)
    (hcached : j.cached = false) : Consistent j where
  pending h := nomatch hstatus.symm.trans h
  running h := nomatch hstatus.symm.trans h
  cacheHit h := nomatch hcached.symm.trans h
  stopped h := by
    rw [hstatus] at h
    rcases h with h | h <;> cases h

theorem consistent_of_stopped {j : Job} {completedAt : ℕ}
    (hstatus : j.status = .failed ∨ j.status = .cancelled)
    (hend : j.completedAt = some completedAt) (hcached : j.cached = false) : Consistent j where
  pending h := by
    rw [h] at hstatus
    rcases hstatus with hstatus | hstatus <;> cases hstatus
  running h := by
    rw [h] at hstatus
    rcases hstatus with hstatus | hstatus <;> cases hstatus
  cacheHit h := nomatch hcached.symm.trans h
  stopped _ := ⟨completedAt, hend⟩

theorem stable_consistent : Stable Consistent where
  inserted r := consistent_of_cleared rfl rfl rfl rfl rfl rfl
  registered j runId h := ⟨h.pending, h.running, h.cacheHit, h.stopped⟩
  claimed j sessionId now h hpending := by
    obtain ⟨-, -, hend, hexit, hcached⟩ := h.pending hpending
    exact consistent_of_taken rfl rfl hend hexit hcached
  retried j sessionId now h howner hfailed := by
    have hcached : j.cached = false := h.not_cached (by rw [hfailed]; decide)
    exact consistent_of_taken rfl howner rfl rfl hcached
  completed j exitCode outputHashes now _ _ := consistent_of_completed rfl
  failed j exitCode now h hrunning := by
    have hcached : j.cached = false := h.not_cached (by rw [hrunning]; decide)
    exact consistent_of_stopped (Or.inl rfl) rfl hcached
  timed j startedAt completedAt h hstatus := by
    rcases hstatus with hcompleted | hfailed
    · exact consistent_of_completed hcompleted
    · have hcached : j.cached = false := h.not_cached (by rw [hfailed]; decide)
      exact consistent_of_stopped (Or.inl hfailed) rfl hcached
  skipped j now _ _ := consistent_of_completed rfl
  excluded j _ _ := consistent_of_skipped rfl rfl
  cancelled j now h hstatus := by
    have hne : j.status ≠ .completed := by
      rcases hstatus with hstatus | hstatus
      · rw [hstatus]
        decide
      · rw [hstatus]
        decide
    exact consistent_of_stopped (Or.inr rfl) rfl (h.not_cached hne)
  reset j _ := consistent_of_cleared rfl rfl rfl rfl rfl rfl
  reclaimed j h hrunning := by
    have hcached : j.cached = false := h.not_cached (by rw [hrunning]; decide)
    obtain ⟨-, hend, hexit⟩ := h.running hrunning
    exact consistent_of_cleared rfl rfl rfl hend hexit hcached

/-- Sessions that each have a lease of their own, and any clock. -/
def leasedSessions : Machine Statement World (ℕ × Operation) Outcome where
  exec := Statement.exec
  program op := program op.1 op.2
  drift w w' := w'.db = w.db

/-- The shared database and the calls of sessions with leases of their own. -/
abbrev Leased := System Statement World (ℕ × Operation) Outcome

theorem everywhere_of_run {P : Job → Prop} (hP : Stable P) {start finish : Leased}
    {log : List (Executed Statement World (ℕ × Operation) Outcome)}
    (hrun : Run (Step leasedSessions) start log finish) (hstart : Everywhere P start.world.db) :
    Everywhere P finish.world.db := by
  have hdrift : ∀ w w', leasedSessions.drift w w' → Everywhere P w.db → Everywhere P w'.db := by
    intro w w' hdrift h
    have hdb : w'.db = w.db := hdrift
    rw [hdb]
    exact h
  have hlog : ∀ e ∈ log, Everywhere P e.before.db → Everywhere P e.after.db := by
    intro e he h
    obtain ⟨r, hexec⟩ := run_executed hrun e he
    have hstatement : e.statement.2.exec e.before = some (r, e.after) := hexec
    unfold Statement.exec at hstatement
    by_cases hrefused : e.statement.2.refused e.before = true
    · rw [if_pos hrefused] at hstatement
      cases hstatement
    · rw [if_neg hrefused] at hstatement
      have hafter : { e.before with db := (e.statement.2.effect e.before).2 } = e.after :=
        (Prod.mk.inj (Option.some.inj hstatement)).2
      rw [← hafter]
      exact everywhere_effect hP e.statement.2 h
  exact (run_keeps hdrift hrun hlog hstart).1

/-- In every state of the database that calls of the operations reach from a fresh one, in any
interleaving, the columns of every row agree with its status. -/
theorem rows_consistent {start finish : Leased}
    {log : List (Executed Statement World (ℕ × Operation) Outcome)}
    (hfresh : start.world.db = Db.empty) (hrun : Run (Step leasedSessions) start log finish)
    (jobId : String) (j : Job) (hj : finish.world.db.jobs.get jobId = some j) : Consistent j := by
  have hstart : Everywhere Consistent start.world.db := by
    rw [hfresh]
    exact everywhere_empty
  exact everywhere_of_run stable_consistent hrun hstart jobId j hj

def fresh : World := ⟨Db.empty, 100⟩

/-- A session registers a job and claims it, and the job fails. -/
def failing : List (ℕ × Operation) :=
  [(90, .createSession "s" 1 "host" none), (90, .registerJobs [⟨"j", "rule", "", none, none⟩]),
   (90, .claimJobForSession "j" "s"), (90, .failJob "j" "s" 2)]

def failed : List (Executed Statement World (ℕ × Operation) Outcome) × Leased :=
  (schedule leasedSessions [0, 0, 1, 2, 2, 3, 3] (started leasedSessions fresh failing)).get rfl

theorem run_failed : Run (Step leasedSessions) (System.idle fresh) failed.1 failed.2 := by
  have hsched : schedule leasedSessions [0, 0, 1, 2, 2, 3, 3]
      (started leasedSessions fresh failing) = some (failed.1, failed.2) := rfl
  exact (run_started leasedSessions fresh failing).trans (run_of_schedule hsched)

/-- The row of the failed job is consistent and has its time. -/
theorem rows_consistent_failed : ∃ j, failed.2.world.db.jobs.get "j" = some j ∧
    j.status = .failed ∧ Consistent j :=
  ⟨_, rfl, rfl, rows_consistent rfl run_failed "j" _ rfl⟩

end OxyMake.RowConsistency
