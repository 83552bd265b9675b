import OxyMake.ClaimOwnership

/-!
# Live owners keep their rows, dead owners stay dead

While the owner of a `running` row is live, no operation of the protocol takes
the row from it: the reclaiming statements check the heartbeat again when they
write, at a cutoff that no live session has fallen behind. Whoever lost a row
to another session cannot record an outcome for it before winning it again.
-/

namespace OxyMake.ClaimLeases

open List
open KeyedTable StateDb ClaimProtocol Interleaving LabelledRuns RowMoves ClaimDiscipline
open ClaimOwnership

/-- The session is active and its heartbeat is within the lease. -/
def Live (leaseSecs : ℕ) (w : World) (sessionId : String) : Prop :=
  ∃ x, w.db.sessions.get sessionId = some x ∧ x.status = .active ∧
    w.now - x.heartbeatAt < leaseSecs

/-- The heartbeat of the session is not in the first second of the epoch. -/
def Dated (w : World) (sessionId : String) : Prop :=
  ∀ x, w.db.sessions.get sessionId = some x → 0 < x.heartbeatAt

/-- The row belongs to some other session, or to none. -/
def Foreign (w : World) (jobId sessionId : String) : Prop :=
  ∃ j, w.db.jobs.get jobId = some j ∧ j.sessionId ≠ some sessionId

theorem Live.liveSession {leaseSecs cutoff : ℕ} {w : World} {sessionId : String}
    (h : Live leaseSecs w sessionId) (hdate : Dated w sessionId)
    (hcutoff : cutoff ≤ w.now - leaseSecs) : w.db.liveSession sessionId cutoff = true := by
  obtain ⟨x, hx, hactive, _⟩ := h
  have hpositive := hdate x hx
  have hyoung : cutoff < x.heartbeatAt := by omega
  simp only [Db.liveSession, hx, hactive, hyoung, decide_true, Bool.and_self]

theorem Live.liveOwner {leaseSecs cutoff : ℕ} {w : World} {sessionId : String} {j : Job}
    (h : Live leaseSecs w sessionId) (hdate : Dated w sessionId)
    (hcutoff : cutoff ≤ w.now - leaseSecs) (hj : j.sessionId = some sessionId) :
    w.db.liveOwner cutoff j = true := by
  unfold Db.liveOwner
  rw [hj]
  exact h.liveSession hdate hcutoff

section Statements

variable {leaseSecs : ℕ} {e : Event} {jobId sessionId : String}

theorem not_resets_live {j : Job} (hd : Disciplined leaseSecs e)
    (hop : Cooperative e.operation) (hlive : Live leaseSecs e.before sessionId)
    (hdate : Dated e.before sessionId) (hrun : j.status = .running)
    (howner : j.sessionId = some sessionId) : ¬ Resets e.before.db j e.statement.2 := by
  obtain ⟨_, ⟨β, s⟩, _, _, _⟩ := e
  intro hreset
  cases s with
  | resetJobRow =>
    have hnone := hd.2 (hreset.1.symm.trans hrun)
    rw [← hreset.2, howner] at hnone
    cases hnone
  | reclaimJobsUnlessLive | resetInactiveJobRows =>
    exact Bool.noConfusion (hreset.2.symm.trans (hlive.liveOwner hdate (hd.2 hop) howner))
  | _ => exact hreset.elim

theorem not_settles (hd : Disciplined leaseSecs e) (hop : Cooperative e.operation) :
    ¬ Settles e.statement.2 := by
  obtain ⟨_, ⟨β, s⟩, _, _, _⟩ := e
  cases s with
  | reconcileCompleteJob => exact hd.2 hop
  | reconcileFailJob | skipJob | excludeJob | cancelJobIds | cancelJobIdsForSession =>
    exact hd.2 hop
  | _ => exact fun h => h.elim

theorem holds_after_live (hd : Disciplined leaseSecs e)
    (hafter : e.after = next e.statement.2 e.before) (hop : Cooperative e.operation)
    (hlive : Live leaseSecs e.before sessionId) (hdate : Dated e.before sessionId)
    (hfin : ¬ Finishes jobId sessionId e.statement.2) (h : Holds e.before jobId sessionId) :
    Holds e.after jobId sessionId := by
  obtain ⟨j, hj, hstatus, howner⟩ := h
  have hreset := not_resets_live hd hop hlive hdate hstatus howner
  have hsettle := not_settles hd hop
  obtain ⟨_, ⟨β, s⟩, before, _, _⟩ := e
  dsimp only at hafter
  subst hafter
  obtain ⟨j', hj', hmove⟩ := move_effect s before hj
  cases hmove with
  | keep _ _ hsame => exact ⟨j', hj', hsame.1.trans hstatus, hsame.2.trans howner⟩
  | claim owner now _ hpending => exact absurd (hstatus.symm.trans hpending) (by decide)
  | retry owner now _ hfailed => exact absurd (hstatus.symm.trans hfailed) (by decide)
  | finish _ owner _ hfinish _ howner' =>
    have hs : sessionId = owner := Option.some.inj (howner.symm.trans howner')
    subst hs
    exact absurd hfinish hfin
  | settle _ _ h => exact absurd h hsettle
  | reset _ _ h => exact absurd h hreset

theorem foreign_after (hd : Disciplined leaseSecs e)
    (hafter : e.after = next e.statement.2 e.before) (hop : Cooperative e.operation)
    (hwin : ¬ Wins e jobId sessionId) (h : Foreign e.before jobId sessionId) :
    Foreign e.after jobId sessionId := by
  obtain ⟨j, hj, howner⟩ := h
  obtain ⟨_, ⟨β, s⟩, before, _, _⟩ := e
  dsimp only at hafter
  subst hafter
  obtain ⟨j', hj', hmove⟩ := move_effect s before hj
  refine ⟨j', hj', ?_⟩
  cases hmove with
  | keep _ _ hsame => exact hsame.2 ▸ howner
  | claim owner now _ hpending _ howner' =>
    intro heq
    have hs : owner = sessionId := Option.some.inj (howner'.symm.trans heq)
    subst hs
    exact hwin (hd.1 hop ⟨j, hj, hpending⟩)
  | retry owner now _ _ _ _ hsame => exact hsame ▸ howner
  | finish _ owner _ _ _ _ _ hsame => exact hsame ▸ howner
  | settle _ _ _ _ hsame => exact hsame ▸ howner
  | reset _ _ _ hfree =>
    rw [hfree.2]
    exact nofun

theorem rest_of_finishes (hd : Disciplined leaseSecs e)
    (hfin : Finishes jobId sessionId e.statement.2) :
    ∃ changed, e.rest = .ret (.changed changed) ∧
      (changed = true ↔ Holds e.before jobId sessionId) := by
  obtain ⟨_, ⟨β, s⟩, _, _, _⟩ := e
  cases s with
  | completeJob | failJob =>
    obtain ⟨rfl, rfl⟩ := hfin
    exact hd
  | _ => exact hfin.elim

theorem Foreign.not_owned {w : World} (h : Foreign w jobId sessionId) (k : String) (r : Job)
    (hget : w.db.jobs.get k = some r) :
    (decide (k = jobId) &&
      (decide (r.status = .running) && decide (r.sessionId = some sessionId))) = false := by
  obtain ⟨j, hj, howner⟩ := h
  by_cases hk : k = jobId
  · subst hk
    have hr : r = j := Option.some.inj (hget.symm.trans hj)
    rw [hr, decide_eq_false howner, Bool.and_false, Bool.and_false]
  · rw [decide_eq_false hk, Bool.false_and]

theorem Foreign.updateJobs_eq {w : World} (h : Foreign w jobId sessionId) (f : Job → Job) :
    (w.db.updateJobs (fun id j => id = jobId &&
      (j.status = .running && j.sessionId = some sessionId)) f).2.jobs = w.db.jobs :=
  Table.update_eq_self f h.not_owned

theorem jobs_after_finishes (hafter : e.after = next e.statement.2 e.before)
    (hfin : Finishes jobId sessionId e.statement.2) (h : Foreign e.before jobId sessionId) :
    e.after.db.jobs = e.before.db.jobs := by
  obtain ⟨_, ⟨β, s⟩, _, _, _⟩ := e
  dsimp only at hafter
  subst hafter
  cases s with
  | completeJob | failJob =>
    obtain ⟨rfl, rfl⟩ := hfin
    exact h.updateJobs_eq _
  | _ => exact hfin.elim

end Statements

theorem foreign_of_drift {leaseSecs : ℕ} {w w' : World} (h : (sessions leaseSecs).drift w w')
    {jobId sessionId : String} (hw : Foreign w jobId sessionId) : Foreign w' jobId sessionId := by
  unfold Foreign at hw ⊢
  rwa [h.1]

/-- While a session is live, nobody else wins the job of its row and its outcome is
recorded; and after another session has won the job, the outcome of the first changes no
row unless it has won the job again. -/
theorem leases_respected {leaseSecs : ℕ} {start mid finish : Sessions} {earlier later : List Event}
    (hidle : start.Idle) (hpre : Run (Step (sessions leaseSecs)) start earlier mid)
    (hrun : Run (Step (sessions leaseSecs)) mid later finish)
    (hop : ∀ e ∈ later, Cooperative e.operation) (jobId s : String) :
    (Holds mid.world jobId s → (∀ e ∈ later, Live leaseSecs e.before s) →
      (∀ e ∈ later, FindsRow e ∧ Dated e.before s) →
      ∀ a e b, later = a ++ e :: b → (∀ f ∈ a, ¬ Finishes jobId s f.statement.2) →
        (∀ p, p ≠ s → ¬ Wins e jobId p) ∧
        (Finishes jobId s e.statement.2 → e.rest = .ret (.changed true))) ∧
    (∀ p, p ≠ s → Holds mid.world jobId p →
      ∀ a e b, later = a ++ e :: b → (∀ f ∈ a, ¬ Wins f jobId s) →
        Finishes jobId s e.statement.2 →
        e.rest = .ret (.changed false) ∧ e.after.db.jobs = e.before.db.jobs) := by
  have hd : ∀ e ∈ later, Disciplined leaseSecs e := fun e he =>
    run_disciplined hidle (hpre.trans hrun) e (mem_append_right _ he)
  have hnext := run_next hrun
  constructor
  · rintro hheld hlive hcond a e b rfl hfin
    have hmem : ∀ f ∈ a, f ∈ a ++ e :: b := fun f hf => mem_append_left _ hf
    have hememb : e ∈ a ++ e :: b := mem_append_right _ mem_cons_self
    obtain ⟨m, n, hbefore, hstep, -⟩ := hrun.split_at
    have hkeep : ∀ f ∈ a, Holds f.before jobId s → Holds f.after jobId s := fun f hf =>
      holds_after_live (hd f (hmem f hf)) (hnext f (hmem f hf)) (hop f (hmem f hf))
        (hlive f (hmem f hf)) (hcond f (hmem f hf)).2 (hfin f hf)
    have hholds := (run_keeps (fun _ _ hdrift => holds_of_drift hdrift) hbefore hkeep hheld).1
    rw [← hstep.executed.1] at hholds
    refine ⟨?_, ?_⟩
    · intro p hp hwin
      exact hp (eq_of_wins_held (hd e hememb) (hcond e hememb).1 hholds hwin).symm
    · intro hfinish
      obtain ⟨changed, hrest, hchanged⟩ := rest_of_finishes (hd e hememb) hfinish
      rw [hrest, hchanged.mpr hholds]
  · rintro p hp ⟨j, hj, -, howner⟩ a e b rfl hwin hfinish
    have hmem : ∀ f ∈ a, f ∈ a ++ e :: b := fun f hf => mem_append_left _ hf
    have hememb : e ∈ a ++ e :: b := mem_append_right _ mem_cons_self
    obtain ⟨m, n, hbefore, hstep, -⟩ := hrun.split_at
    have hforeign : Foreign mid.world jobId s := by
      refine ⟨j, hj, ?_⟩
      rw [howner]
      exact fun h => hp (Option.some.inj h)
    have hkeep : ∀ f ∈ a, Foreign f.before jobId s → Foreign f.after jobId s := fun f hf =>
      foreign_after (hd f (hmem f hf)) (hnext f (hmem f hf)) (hop f (hmem f hf)) (hwin f hf)
    have hlast := (run_keeps (fun _ _ hdrift => foreign_of_drift hdrift) hbefore hkeep hforeign).1
    rw [← hstep.executed.1] at hlast
    obtain ⟨changed, hrest, hchanged⟩ := rest_of_finishes (hd e hememb) hfinish
    refine ⟨?_, jobs_after_finishes (hnext e hememb) hfinish hlast⟩
    have hnot : changed = false := by
      cases changed with
      | false => rfl
      | true =>
        obtain ⟨_, hj₁, -, howner₁⟩ := hchanged.mp rfl
        obtain ⟨_, hj₂, hne⟩ := hlast
        rw [Option.some.inj (hj₁.symm.trans hj₂)] at howner₁
        exact absurd howner₁ hne
    rw [hrest, hnot]

/-- Session `s` has claimed the job that `p` lost, and `p` calls `complete_job`. -/
def lateComplete : Sessions :=
  secondClaim.2.setCall secondClaim.2.world 2 (.completeJob "j" "p" 0 "")
    (program 90 (.completeJob "j" "p" 0 ""))

def bothComplete : Sessions :=
  lateComplete.setCall lateComplete.world 3 (.completeJob "j" "s" 0 "")
    (program 90 (.completeJob "j" "s" 0 ""))

/-- The statements of both calls, one call after the other. -/
def completions : List Event × Sessions :=
  (schedule (sessions 90) [2, 2, 3, 3] bothComplete).get rfl

theorem run_completions : Run (Step (sessions 90)) secondClaim.2 completions.1 completions.2 := by
  have hfirst : Step (sessions 90) secondClaim.2 none lateComplete := .call _ 2 _ rfl
  have hsecond : Step (sessions 90) lateComplete none bothComplete := .call _ 3 _ rfl
  have hrest : schedule (sessions 90) [2, 2, 3, 3] bothComplete =
      some (completions.1, completions.2) := rfl
  exact (Run.silent hfirst).trans ((Run.silent hsecond).trans (run_of_schedule hrest))

theorem completions_conditions : ∀ e ∈ completions.1,
    Cooperative e.operation ∧ Live 90 e.before "s" ∧ FindsRow e ∧ Dated e.before "s" := by
  have hdate : ∀ w : World, (w.db.sessions.get "s").map (·.heartbeatAt) = some 100 →
      Dated w "s" := by
    intro w hw x hx
    rw [hx, Option.map_some] at hw
    have hbeat := Option.some.inj hw
    omega
  intro e he
  rcases mem_cons.mp he with rfl | he
  · exact ⟨trivial, ⟨_, rfl, rfl, by decide⟩, trivial, hdate _ rfl⟩
  rcases mem_cons.mp he with rfl | he
  · exact ⟨trivial, ⟨_, rfl, rfl, by decide⟩, trivial, hdate _ rfl⟩
  rcases mem_cons.mp he with rfl | he
  · exact ⟨trivial, ⟨_, rfl, rfl, by decide⟩, trivial, hdate _ rfl⟩
  rcases mem_cons.mp he with rfl | he
  · exact ⟨trivial, ⟨_, rfl, rfl, by decide⟩, trivial, hdate _ rfl⟩
  cases he

/-- The owner's completion is recorded and the other one changes no row. -/
theorem leases_respected_completions :
    ∃ a b e f, completions.1 = a ++ e :: b ++ [f] ∧
      (e.rest = .ret (.changed false) ∧ e.after.db.jobs = e.before.db.jobs) ∧
      f.rest = .ret (.changed true) := by
  obtain ⟨e₁, e₂, e₃, e₄, hlog, hwins, hfinishes, howner, hfree⟩ :
      ∃ e₁ e₂ e₃ e₄ : Event, completions.1 = [e₁, e₂, e₃, e₄] ∧
        ¬ Wins e₁ "j" "p" ∧ Finishes "j" "p" e₂.statement.2 ∧
        Finishes "j" "s" e₄.statement.2 ∧ ¬ Finishes "j" "s" e₁.statement.2 ∧
        ¬ Finishes "j" "s" e₂.statement.2 ∧ ¬ Finishes "j" "s" e₃.statement.2 := by
    refine ⟨_, _, _, _, rfl, ?_, ⟨rfl, rfl⟩, ⟨rfl, rfl⟩, id, ?_, id⟩
    · exact fun h => nomatch h.1
    · rintro ⟨-, h⟩
      exact absurd h (by decide)
  have hcond := completions_conditions
  have hrun := run_completions
  rw [hlog] at hrun hcond ⊢
  have hheld : Holds secondClaim.2.world "j" "s" := ⟨_, rfl, rfl, rfl⟩
  have hrespect := leases_respected (fun _ => rfl) run_secondClaim hrun
    (fun e he => (hcond e he).1) "j"
  have hbefore : ∀ f ∈ [e₁, e₂, e₃], ¬ Finishes "j" "s" f.statement.2 := by
    intro f hf
    rcases mem_cons.mp hf with rfl | hf
    · exact hfree.1
    rcases mem_cons.mp hf with rfl | hf
    · exact hfree.2.1
    rw [mem_singleton.mp hf]
    exact hfree.2.2
  refine ⟨[e₁], [e₃], e₂, e₄, rfl, ?_, ?_⟩
  · refine (hrespect "p").2 "s" (by decide) hheld [e₁] e₂ [e₃, e₄] rfl ?_ hfinishes
    intro f hf
    rw [mem_singleton.mp hf]
    exact hwins
  · exact ((hrespect "s").1 hheld (fun e he => (hcond e he).2.1) (fun e he => (hcond e he).2.2)
      [e₁, e₂, e₃] e₄ [] rfl hbefore).2 howner

/-- A session whose heartbeat is second 0 of the epoch runs the job. -/
def epoch : World where
  db :=
    { jobs := Table.empty.upsert "j"
        { Db.newRow ⟨"j", "rule", "", none, none⟩ with
          status := .running, sessionId := some "s", lockedBy := some "s",
          startedAt := some 0 } id
      sessions := Table.empty.upsert "s" ⟨2, "host", 0, none, 0, .active⟩ id }
  now := 5

/-- The run of another process resets the rows of sessions that are not live. -/
def epochReset : List Event × Sessions :=
  (schedule (sessions 90) [0, 0] ((idle epoch).setCall epoch 0 (.resetInactiveJobRows ["j"])
    (program 90 (.resetInactiveJobRows ["j"])))).get rfl

theorem run_epochReset : Run (Step (sessions 90)) (idle epoch) epochReset.1 epochReset.2 := by
  have hcall : Step (sessions 90) (idle epoch) none ((idle epoch).setCall epoch 0
      (.resetInactiveJobRows ["j"]) (program 90 (.resetInactiveJobRows ["j"]))) :=
    .call _ 0 _ rfl
  have hrest : schedule (sessions 90) [0, 0] ((idle epoch).setCall epoch 0
      (.resetInactiveJobRows ["j"]) (program 90 (.resetInactiveJobRows ["j"]))) =
      some (epochReset.1, epochReset.2) := rfl
  exact (Run.silent hcall).trans (run_of_schedule hrest)

/-- A live owner sees another session win its job with a stale retry, and a live owner whose
heartbeat is second 0 of the epoch loses its row to a reset. -/
theorem not_leases_respected_retried :
    (∃ (start mid finish : Sessions) (log : List Event) (e : Event), start.Idle ∧
      Run (Step (sessions 90)) start log mid ∧ Run (Step (sessions 90)) mid [e] finish ∧
      Cooperative e.operation ∧ Holds mid.world "j" "s" ∧ Live 90 e.before "s" ∧
      Wins e "j" "p") ∧
    ∃ (start finish : Sessions) (log : List Event), start.Idle ∧
      Run (Step (sessions 90)) start log finish ∧ (∀ e ∈ log, Cooperative e.operation) ∧
      Holds start.world "j" "s" ∧ (∀ e ∈ log, Live 90 e.before "s") ∧
      ¬ Holds finish.world "j" "s" := by
  constructor
  · exact ⟨idle abandoned, firstWin.2, secondWin.2, beforeWins.1 ++ [firstWin.1], secondWin.1,
      fun _ => rfl, run_firstWin, run_secondWin, trivial, ⟨_, rfl, rfl, rfl⟩,
      ⟨_, rfl, rfl, by decide⟩, ⟨rfl, rfl⟩⟩
  · refine ⟨idle epoch, epochReset.2, epochReset.1, fun _ => rfl, run_epochReset, ?_,
      ⟨_, rfl, rfl, rfl⟩, ?_, ?_⟩
    · intro e he
      rcases mem_cons.mp he with rfl | he
      · trivial
      rw [mem_singleton.mp he]
      trivial
    · intro e he
      rcases mem_cons.mp he with rfl | he
      · exact ⟨_, rfl, rfl, by decide⟩
      rw [mem_singleton.mp he]
      exact ⟨_, rfl, rfl, by decide⟩
    · rintro ⟨j, hj, hstatus, -⟩
      have hpending : (epochReset.2.world.db.jobs.get "j").map (·.status) = some .pending := by
        decide
      rw [hj, Option.map_some, hstatus] at hpending
      exact absurd hpending (by decide)

end OxyMake.ClaimLeases
