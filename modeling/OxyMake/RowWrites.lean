import OxyMake.RowMoves

/-!
# Properties of a row that every statement keeps

The statements write a job row in a dozen ways, each under the guard of its
`WHERE` clause. A property of rows that is stable under all of them holds of
every row of the database after any statement once it held before.
-/

namespace OxyMake.RowWrites

open KeyedTable StateDb ClaimProtocol RowMoves

def cancelledRow (now : ℕ) (j : Job) : Job :=
  { j with status := .cancelled, completedAt := some now }

/-- The property survives whatever a statement writes into a row its guard selects. -/
structure Stable (P : Job → Prop) : Prop where
  inserted : ∀ r, P (Db.newRow r)
  /-- The registration of a row that exists. -/
  registered : ∀ j runId, P j → P { j with runId := runId }
  /-- The claim of a `pending` row. -/
  claimed : ∀ j sessionId now, P j → j.status = .pending →
    P { j with status := .running, sessionId := some sessionId, lockedBy := some sessionId,
               startedAt := some now }
  /-- The retry of a `failed` row by its owner. -/
  retried : ∀ j sessionId now, P j → j.sessionId = some sessionId → j.status = .failed →
    P { j with status := .running, startedAt := some now, completedAt := none, exitCode := none }
  /-- The completion of a `running` row. -/
  completed : ∀ j exitCode outputHashes now, P j → j.status = .running →
    P { j with status := .completed, exitCode := some exitCode,
               outputHashes := some outputHashes, completedAt := some now }
  /-- The failure of a `running` row. -/
  failed : ∀ j exitCode now, P j → j.status = .running →
    P { j with status := .failed, exitCode := some exitCode, completedAt := some now }
  /-- The times of a `completed` or `failed` row. -/
  timed : ∀ j startedAt completedAt, P j → j.status = .completed ∨ j.status = .failed →
    P { j with startedAt := some startedAt, completedAt := some completedAt }
  /-- The cache hit of a row that may be skipped. -/
  skipped : ∀ j now, P j → Db.skippable j = true →
    P { j with status := .completed, cached := true, completedAt := some now }
  /-- The exclusion of a row that may be skipped. -/
  excluded : ∀ j, P j → Db.skippable j = true →
    P { j with status := .skipped, cached := false, startedAt := none, completedAt := none,
               exitCode := none }
  /-- The cancellation of a `running` or `pending` row. -/
  cancelled : ∀ j now, P j → j.status = .running ∨ j.status = .pending → P (cancelledRow now j)
  reset : ∀ j, P j → P (Db.resetRow j)
  /-- The reclaim of a `running` row. -/
  reclaimed : ∀ j, P j → j.status = .running →
    P { j with status := .pending, sessionId := none, lockedBy := none, startedAt := none }

def Everywhere (P : Job → Prop) (db : Db) : Prop :=
  ∀ jobId j, db.jobs.get jobId = some j → P j

variable {P : Job → Prop}

theorem everywhere_empty : Everywhere P Db.empty := fun _ _ h => nomatch h

theorem Everywhere.updateJobs {db : Db} (h : Everywhere P db) (p : String → Job → Bool)
    {f : Job → Job} (hf : ∀ jobId j, P j → p jobId j = true → P (f j)) :
    Everywhere P (db.updateJobs p f).2 := by
  intro jobId j' hj'
  rw [updateJobs_get] at hj'
  obtain ⟨j, hj, rfl⟩ := Option.map_eq_some_iff.mp hj'
  have hold : P j := h jobId j hj
  by_cases hp : p jobId j = true
  · rw [if_pos hp]
    exact hf jobId j hold hp
  · rw [if_neg hp]
    exact hold

theorem Everywhere.updateJob {db : Db} (h : Everywhere P db) (jobId : String) (q : Job → Bool)
    {f : Job → Job} (hf : ∀ j, P j → q j = true → P (f j)) :
    Everywhere P (db.updateJobs (fun id j => id = jobId && q j) f).2 := by
  refine h.updateJobs _ ?_
  intro id j hj hp
  rw [Bool.and_eq_true] at hp
  exact hf j hj hp.2

theorem Everywhere.registerJobs (hP : Stable P) {db : Db} (h : Everywhere P db)
    (jobs : List JobRecord) : Everywhere P (db.registerJobs jobs) := by
  unfold Db.registerJobs
  induction jobs generalizing db with
  | nil => exact h
  | cons r jobs ih =>
    have hfirst : Everywhere P (db.registerJob r) := by
      intro jobId j' hj'
      unfold Db.registerJob at hj'
      dsimp only at hj'
      rw [Table.get_upsert] at hj'
      by_cases hid : jobId = r.id
      · rw [if_pos hid] at hj'
        cases hold : db.jobs.get r.id with
        | none =>
          rw [hold] at hj'
          cases hj'
          exact hP.inserted r
        | some j =>
          rw [hold] at hj'
          cases hj'
          exact hP.registered j r.runId (h r.id j hold)
      · rw [if_neg hid] at hj'
        exact h jobId j' hj'
    exact ih hfirst

theorem Everywhere.cancelEach (hP : Stable P) {db : Db} (h : Everywhere P db) {p : Job → Bool}
    (hp : ∀ j, p j = true → j.status = .running ∨ j.status = .pending) (now : ℕ)
    (ids : List String) : Everywhere P (Db.cancelEach p now ids db).2 := by
  induction ids generalizing db with
  | nil => exact h
  | cons id ids ih =>
    unfold Db.cancelEach
    exact ih (h.updateJob id p fun j hj hq => hP.cancelled j now hj (hp j hq))

theorem Everywhere.reclaimJobsUnlessLive (hP : Stable P) {db : Db} (h : Everywhere P db)
    (owner : String) (cutoff : ℕ) : Everywhere P (db.reclaimJobsUnlessLive owner cutoff).2 := by
  refine h.updateJobs _ ?_
  intro jobId j hj hp
  simp only [Bool.and_eq_true, decide_eq_true_eq] at hp
  exact hP.reclaimed j hj hp.1.2

theorem Everywhere.reclaimOwners (hP : Stable P) (cutoff : ℕ) (owners : List String)
    {acc : ℕ × Db} (h : Everywhere P acc.2) :
    Everywhere P (Db.reclaimOwners cutoff owners acc).2 := by
  induction owners generalizing acc with
  | nil => exact h
  | cons owner owners ih =>
    unfold Db.reclaimOwners
    exact ih (h.reclaimJobsUnlessLive hP owner cutoff)

theorem Everywhere.resetInactiveChunk (hP : Stable P) (cutoff : ℕ) {acc : ℕ × Db}
    (h : Everywhere P acc.2) (chunk : List String) :
    Everywhere P (Db.resetInactiveChunk cutoff acc chunk).2 :=
  (h.reclaimOwners hP cutoff (acc.2.deadOwners chunk cutoff)).updateJobs _
    fun _ j hj _ => hP.reset j hj

theorem Everywhere.resetInactiveJobRows (hP : Stable P) {db : Db} (h : Everywhere P db)
    (ids : List String) (cutoff : ℕ) : Everywhere P (db.resetInactiveJobRows ids cutoff).2 := by
  unfold Db.resetInactiveJobRows
  have hall : ∀ (chunks : List (List String)) (acc : ℕ × Db), Everywhere P acc.2 →
      Everywhere P (chunks.foldl (Db.resetInactiveChunk cutoff) acc).2 := by
    intro chunks
    induction chunks with
    | nil => exact fun acc hacc => hacc
    | cons chunk chunks ih => exact fun acc hacc => ih _ (hacc.resetInactiveChunk hP cutoff chunk)
  exact hall _ (0, db) h

theorem everywhere_effect (hP : Stable P) {β : Type} (s : Statement β) {w : World}
    (h : Everywhere P w.db) : Everywhere P (s.effect w).2 := by
  cases s with
  | registerJobs jobs => exact h.registerJobs hP jobs
  | claimJob sessionId now id =>
    exact h.updateJob id _ fun j hj hq => hP.claimed j sessionId now hj (of_decide_eq_true hq)
  | retryFailed now id sessionId =>
    refine h.updateJob id _ fun j hj hq => ?_
    simp only [Bool.and_eq_true, decide_eq_true_eq] at hq
    exact hP.retried j sessionId now hj hq.1 hq.2
  | completeJob exitCode hashes now id =>
    refine h.updateJob id _ fun j hj hq => ?_
    simp only [Bool.and_eq_true, decide_eq_true_eq] at hq
    exact hP.completed j exitCode hashes now hj hq.1
  | failJob exitCode now id =>
    refine h.updateJob id _ fun j hj hq => ?_
    simp only [Bool.and_eq_true, decide_eq_true_eq] at hq
    exact hP.failed j exitCode now hj hq.1
  | reconcileCompleteJob exitCode hashes now id =>
    exact h.updateJob id _ fun j hj hq =>
      hP.completed j exitCode hashes now hj (of_decide_eq_true hq)
  | reconcileFailJob exitCode now id =>
    exact h.updateJob id _ fun j hj hq => hP.failed j exitCode now hj (of_decide_eq_true hq)
  | setJobTimes startedAt completedAt id =>
    refine h.updateJob id _ fun j hj hq => ?_
    simp only [Bool.or_eq_true, decide_eq_true_eq] at hq
    exact hP.timed j startedAt completedAt hj hq
  | skipJob now id => exact h.updateJob id _ fun j hj hq => hP.skipped j now hj hq
  | excludeJob id => exact h.updateJob id _ fun j hj hq => hP.excluded j hj hq
  | cancelJobIds now ids =>
    refine h.cancelEach hP (fun j hq => ?_) now ids
    simpa only [Bool.or_eq_true, decide_eq_true_eq] using hq
  | cancelJobIdsForSession now ids =>
    refine h.cancelEach hP (fun j hq => ?_) now ids
    simp only [Bool.or_eq_true, Bool.and_eq_true, decide_eq_true_eq] at hq
    rcases hq with hpending | hrunning
    · exact Or.inr hpending
    · exact Or.inl hrunning.1
  | resetJobRow id => exact h.updateJob id _ fun j hj _ => hP.reset j hj
  | reclaimJobsUnlessLive sessionId cutoff => exact h.reclaimJobsUnlessLive hP sessionId cutoff
  | resetInactiveJobRows ids cutoff => exact h.resetInactiveJobRows hP ids cutoff
  | _ => exact h

end OxyMake.RowWrites
