import OxyMake.ClaimDiscipline

/-!
# A won claim owns its row

In every interleaving of the sessions a claim that is won leaves the row of the
job `running` and owned by the winner, provided that a retry of an own failed
attempt still finds the row it observed; the condition is exact. Under it no
two sessions win a job without a statement in between that releases or resets
the row of the first.
-/

namespace OxyMake.ClaimOwnership

open List
open KeyedTable StateDb ClaimProtocol Interleaving LabelledRuns RowMoves ClaimDiscipline

/-- A retry finds the row still owned by its session, failed or running again. -/
def FindsRow (e : Event) : Prop :=
  match e.statement with
  | ⟨_, .retryFailed _ jobId sessionId⟩ =>
    ∃ j, e.before.db.jobs.get jobId = some j ∧ j.sessionId = some sessionId ∧
      (j.status = .failed ∨ j.status = .running)
  | _ => True

def Resetting : {β : Type} → Statement β → Prop
  | _, .resetJobRow .. => True
  | _, .reclaimJobsUnlessLive .. => True
  | _, .resetInactiveJobRows .. => True
  | _, _ => False

/-- The statement takes the row from the session that holds it, by recording an outcome or
by a reset. -/
def Frees (e : Event) (jobId sessionId : String) : Prop :=
  Holds e.before jobId sessionId ∧ ¬ Holds e.after jobId sessionId ∧
    (Finishes jobId sessionId e.statement.2 ∨ Settles e.statement.2 ∨ Resetting e.statement.2)

theorem Resetting.of_resets {β : Type} {s : Statement β} {db : Db} {j : Job}
    (h : Resets db j s) : Resetting s := by
  cases s with
  | resetJobRow | reclaimJobsUnlessLive | resetInactiveJobRows => trivial
  | _ => exact h.elim

/-- How a claim is won. -/
inductive Winning (e : Event) (jobId sessionId : String) : Prop
  /-- The claim statement took the `pending` row. -/
  | claimed (now : ℕ) : e.statement = ⟨ℕ, .claimJob sessionId now jobId⟩ →
      Pending e.before jobId → Winning e jobId sessionId
  /-- The row was read, and it was already that of the session if there was one. -/
  | read : e.statement = ⟨_, .jobRow jobId⟩ →
      (Registered e.before jobId → Holds e.before jobId sessionId) → Winning e jobId sessionId
  /-- The session retried its own failed attempt. -/
  | retried (now : ℕ) : e.statement = ⟨ℕ, .retryFailed now jobId sessionId⟩ →
      Winning e jobId sessionId

theorem Wins.inj {e : Event} {job job' s s' : String} (h : Wins e job s) (h' : Wins e job' s') :
    job = job' ∧ s = s' := by
  have heq := h.1.symm.trans h'.1
  cases heq
  exact ⟨rfl, rfl⟩

theorem winning_of_wins {leaseSecs : ℕ} {e : Event} {jobId sessionId : String}
    (hd : Disciplined leaseSecs e) (hw : Wins e jobId sessionId) : Winning e jobId sessionId := by
  obtain ⟨_, ⟨β, s⟩, _, _, _⟩ := e
  cases s with
  | claimJob owner now =>
    obtain ⟨hw', hpending⟩ := hd.2 hw.2
    obtain ⟨rfl, rfl⟩ := Wins.inj hw hw'
    exact .claimed now rfl hpending
  | jobRow =>
    obtain ⟨owner, hw', hholds⟩ := hd hw.2
    obtain ⟨rfl, rfl⟩ := Wins.inj hw hw'
    exact .read rfl hholds
  | retryFailed now =>
    obtain ⟨rfl, rfl⟩ := Wins.inj hw hd.1
    exact .retried now rfl
  | completeJob | failJob =>
    obtain ⟨changed, hrest, -⟩ := hd
    exact absurd (hrest.symm.trans hw.2) nofun
  | _ => exact absurd hw.2 hd.1

theorem holds_or_frees {e : Event} (hafter : e.after = next e.statement.2 e.before)
    {jobId sessionId : String} (h : Holds e.before jobId sessionId) :
    Holds e.after jobId sessionId ∨ Frees e jobId sessionId := by
  obtain ⟨_, ⟨β, s⟩, before, after, _⟩ := e
  by_cases hh : Holds after jobId sessionId
  · exact Or.inl hh
  · right
    refine ⟨h, hh, ?_⟩
    obtain ⟨j, hj, hstatus, howner⟩ := h
    obtain ⟨j', hj', hmove⟩ := move_effect s before hj
    cases hmove with
    | keep _ _ hsame =>
      have hkept : Holds (next s before) jobId sessionId :=
        ⟨j', hj', hsame.1.trans hstatus, hsame.2.trans howner⟩
      rw [← show after = next s before from hafter] at hkept
      exact absurd hkept hh
    | claim owner now _ hpending => exact absurd (hstatus.symm.trans hpending) (by decide)
    | retry owner now _ hfailed => exact absurd (hstatus.symm.trans hfailed) (by decide)
    | finish _ owner _ hfin _ howner' =>
      have hs : sessionId = owner := Option.some.inj (howner.symm.trans howner')
      subst hs
      exact Or.inl hfin
    | settle _ _ hsettle => exact Or.inr (Or.inl hsettle)
    | reset _ _ hreset => exact Or.inr (Or.inr (Resetting.of_resets hreset))

theorem run_next {leaseSecs : ℕ} {x y : Sessions} {log : List Event}
    (h : Run (Step (sessions leaseSecs)) x log y) :
    ∀ e ∈ log, e.after = next e.statement.2 e.before := by
  intro e he
  obtain ⟨r, hexec⟩ := run_executed h e he
  exact (exec_eq_some hexec).2

theorem holds_claimJob {w : World} {jobId sessionId : String} {now : ℕ} (h : Pending w jobId) :
    Holds (next (.claimJob sessionId now jobId) w) jobId sessionId := by
  obtain ⟨j, hj, hpending⟩ := h
  refine ⟨_, get_updateJobs w.db _ _ hj, ?_⟩
  simp only [hpending, decide_true, Bool.and_self, if_true, and_self]

theorem holds_retryFailed_iff {w : World} {jobId sessionId : String} {now : ℕ}
    (h : Registered w jobId) :
    Holds (next (.retryFailed now jobId sessionId) w) jobId sessionId ↔
      ∃ j, w.db.jobs.get jobId = some j ∧ j.sessionId = some sessionId ∧
        (j.status = .failed ∨ j.status = .running) := by
  obtain ⟨j, hj⟩ := h
  have hget : (next (.retryFailed now jobId sessionId) w).db.jobs.get jobId = some _ :=
    get_updateJobs w.db _ _ hj
  simp only [Holds, hget, hj, Option.some.injEq, exists_eq_left']
  split_ifs with hp
  · simp only [Bool.and_eq_true, decide_eq_true_eq] at hp
    simp only [hp.2.1, hp.2.2, true_or, and_self]
  · simp only [decide_true, Bool.true_and, Bool.and_eq_true, decide_eq_true_eq] at hp
    constructor
    · exact fun hrun => ⟨hrun.2, Or.inr hrun.1⟩
    · rintro ⟨howner, hfailed | hrunning⟩
      · exact absurd ⟨howner, hfailed⟩ hp
      · exact ⟨hrunning, howner⟩

section Statements

variable {leaseSecs : ℕ} {e : Event}

theorem holds_of_wins (hd : Disciplined leaseSecs e)
    (hafter : e.after = next e.statement.2 e.before) (hfinds : FindsRow e)
    {jobId sessionId : String} (hw : Wins e jobId sessionId) (hreg : Registered e.after jobId) :
    Holds e.after jobId sessionId := by
  obtain ⟨_, _, before, _, _⟩ := e
  dsimp only at hafter
  subst hafter
  cases winning_of_wins hd hw with
  | claimed now hst hpending =>
    cases hst
    exact holds_claimJob hpending
  | read hst hholds =>
    cases hst
    exact hholds hreg
  | retried now hst =>
    cases hst
    have hregistered : Registered before jobId := hd.2
    exact (holds_retryFailed_iff hregistered).mpr hfinds

theorem findsRow_of_holds (hd : Disciplined leaseSecs e)
    (hafter : e.after = next e.statement.2 e.before)
    (h : ∀ jobId sessionId, Wins e jobId sessionId → Registered e.after jobId →
      Holds e.after jobId sessionId) : FindsRow e := by
  obtain ⟨_, ⟨β, s⟩, before, _, _⟩ := e
  dsimp only at hafter
  subst hafter
  cases s with
  | retryFailed now jobId sessionId =>
    obtain ⟨hw, hreg⟩ := hd
    exact (holds_retryFailed_iff hreg).mp (h jobId sessionId hw (registered_next _ before hreg))
  | _ => trivial

theorem eq_of_wins_held (hd : Disciplined leaseSecs e) (hfinds : FindsRow e)
    {jobId sessionId winner : String} (hheld : Holds e.before jobId sessionId)
    (hw : Wins e jobId winner) : sessionId = winner := by
  obtain ⟨_, _, before, _, _⟩ := e
  obtain ⟨j, hj, hstatus, howner⟩ := hheld
  have hsame : ∀ j', before.db.jobs.get jobId = some j' → j' = j := fun j' hj' =>
    Option.some.inj (hj'.symm.trans hj)
  cases winning_of_wins hd hw with
  | claimed now hst hpending =>
    obtain ⟨j', hj', hpending⟩ := hpending
    rw [hsame j' hj', hstatus] at hpending
    cases hpending
  | read hst hholds =>
    obtain ⟨j', hj', -, howner'⟩ := hholds ⟨j, hj⟩
    rw [hsame j' hj', howner] at howner'
    exact Option.some.inj howner'
  | retried now hst =>
    cases hst
    obtain ⟨j', hj', howner', -⟩ := hfinds
    rw [hsame j' hj', howner] at howner'
    exact Option.some.inj howner'

end Statements

theorem holds_of_drift {leaseSecs : ℕ} {w w' : World} (h : (sessions leaseSecs).drift w w')
    {jobId sessionId : String} (hw : Holds w jobId sessionId) : Holds w' jobId sessionId := by
  unfold Holds at hw ⊢
  rwa [h.1]

theorem freed_between {leaseSecs : ℕ} {x y : Sessions} {a b c : List Event} {e f : Event}
    (hx : x.Idle) (h : Run (Step (sessions leaseSecs)) x (a ++ e :: b ++ f :: c) y)
    (hfinds : ∀ g ∈ a ++ e :: b ++ f :: c, FindsRow g) {jobId s s' : String} (hne : s ≠ s')
    (he : Wins e jobId s) (hreg : Registered e.after jobId) (hf : Wins f jobId s') :
    ∃ g ∈ b, Frees g jobId s := by
  have hd := run_disciplined hx h
  have hnext := run_next h
  have hmem : ∀ g ∈ a ++ e :: b, g ∈ a ++ e :: b ++ f :: c := fun g hg =>
    mem_append_left _ hg
  have hememb : e ∈ a ++ e :: b ++ f :: c :=
    hmem e (mem_append_right a mem_cons_self)
  have hfmemb : f ∈ a ++ e :: b ++ f :: c := mem_append_right _ mem_cons_self
  obtain ⟨m, n, hpre, hstepf, -⟩ := h.split_at
  obtain ⟨_, n', -, hstepe, hmid⟩ := hpre.split_at
  by_contra hnone
  have hheld : Holds n'.world jobId s := by
    rw [← hstepe.executed.2]
    exact holds_of_wins (hd e hememb) (hnext e hememb) (hfinds e hememb) he hreg
  have hkeep : ∀ g ∈ b, Holds g.before jobId s → Holds g.after jobId s := by
    intro g hg hbefore
    have hgmem := hmem g (mem_append_right a (.tail e hg))
    rcases holds_or_frees (hnext g hgmem) hbefore with hafter | hfrees
    · exact hafter
    · exact absurd ⟨g, hg, hfrees⟩ hnone
  have hlast := (run_keeps (fun _ _ hdrift => holds_of_drift hdrift) hmid hkeep hheld).1
  rw [← hstepf.executed.1] at hlast
  exact hne (eq_of_wins_held (hd f hfmemb) (hfinds f hfmemb) hlast hf)

/-- Every won claim owns its row exactly when every retry finds its row, and then two
sessions win a job only with a release or reset of the first one's row in between. -/
theorem wins_own_row {leaseSecs : ℕ} {start finish : Sessions} {log : List Event}
    (hidle : start.Idle) (hrun : Run (Step (sessions leaseSecs)) start log finish) :
    ((∀ e ∈ log, FindsRow e) ↔
      ∀ e ∈ log, ∀ jobId sessionId, Wins e jobId sessionId → Registered e.after jobId →
        Holds e.after jobId sessionId) ∧
    ((∀ e ∈ log, FindsRow e) → ∀ a e b f c, log = a ++ e :: b ++ f :: c →
      ∀ jobId s s', s ≠ s' → Wins e jobId s → Registered e.after jobId → Wins f jobId s' →
        ∃ g ∈ b, Frees g jobId s) := by
  have hd := run_disciplined hidle hrun
  have hnext := run_next hrun
  refine ⟨⟨?_, ?_⟩, ?_⟩
  · intro hfinds e he jobId sessionId hw hreg
    exact holds_of_wins (hd e he) (hnext e he) (hfinds e he) hw hreg
  · intro hown e he
    exact findsRow_of_holds (hd e he) (hnext e he) (hown e he)
  · rintro hfinds a e b f c rfl jobId s s' hne he hreg hf
    exact freed_between hidle hrun hfinds hne he hreg hf

def idle (w : World) : Sessions := ⟨w, fun _ => none⟩

/-- A job that session `p` left failed when its heartbeats stopped, and a fresh session `s`. -/
def abandoned : World where
  db :=
    { jobs := Table.empty.upsert "j"
        { Db.newRow ⟨"j", "rule", "", none, none⟩ with
          status := .failed, sessionId := some "p", lockedBy := some "p",
          startedAt := some 5, completedAt := some 5, exitCode := some 2 } id
      sessions := (Table.empty.upsert "p" ⟨1, "host", 5, none, 5, .active⟩ id).upsert "s"
        ⟨2, "host", 100, none, 100, .active⟩ id }
  now := 100

def bothClaim : Sessions :=
  ((idle abandoned).setCall abandoned 0 (.claimJobForSession "j" "p")
    (program 90 (.claimJobForSession "j" "p"))).setCall abandoned 1 (.claimJobForSession "j" "s")
    (program 90 (.claimJobForSession "j" "s"))

theorem run_bothClaim : Run (Step (sessions 90)) (idle abandoned) [] bothClaim :=
  (Run.silent (Step.call _ 0 (Operation.claimJobForSession "j" "p") rfl)).trans
    (Run.silent (Step.call _ 1 (Operation.claimJobForSession "j" "s") rfl))

/-- Session `p` reads its failed row and is about to retry it. -/
def beforeRetry : List Event × Sessions :=
  (schedule (sessions 90) [0, 0, 0, 0] bothClaim).get rfl

def retry : Event × Sessions := (advance (sessions 90) beforeRetry.2 0).get rfl

/-- Session `s` finds the job with `p` and resets its row, as `p` sends no heartbeats. -/
def beforeClaim : List Event × Sessions :=
  (schedule (sessions 90) [1, 1, 1, 1, 1, 1] retry.2).get rfl

def secondClaim : Event × Sessions := (advance (sessions 90) beforeClaim.2 1).get rfl

def secondClaimLog : List Event := beforeRetry.1 ++ retry.1 :: beforeClaim.1 ++ [secondClaim.1]

theorem run_secondClaim :
    Run (Step (sessions 90)) (idle abandoned) secondClaimLog secondClaim.2 := by
  have hlog : schedule (sessions 90) [0, 0, 0, 0, 0, 1, 1, 1, 1, 1, 1, 1] bothClaim =
      some (secondClaimLog, secondClaim.2) := rfl
  exact run_bothClaim.trans (run_of_schedule hlog)

def isRetry (e : Event) : Bool :=
  match e.statement with
  | ⟨_, .retryFailed ..⟩ => true
  | _ => false

theorem FindsRow.of_isRetry {e : Event} (h : isRetry e = false) : FindsRow e := by
  unfold FindsRow
  split
  · next heq =>
    rw [isRetry, heq] at h
    cases h
  · trivial

/-- Session `p` wins by its retry and session `s` after it, and both own the row, which is
taken from `p` in between. -/
theorem wins_own_row_secondClaim :
    Holds retry.1.after "j" "p" ∧ Holds secondClaim.1.after "j" "s" ∧
      ∃ e ∈ beforeClaim.1, Frees e "j" "p" := by
  have hretry : retry.1 ∈ secondClaimLog :=
    mem_append_left _ (mem_append_right _ mem_cons_self)
  have hclaim : secondClaim.1 ∈ secondClaimLog := mem_append_right _ mem_cons_self
  have hquiet : ∀ e ∈ beforeRetry.1 ++ beforeClaim.1 ++ [secondClaim.1], isRetry e = false := by
    decide
  have hfinds : ∀ e ∈ secondClaimLog, FindsRow e := by
    intro e he
    rcases mem_append.mp he with he | he
    · rcases mem_append.mp he with he | he
      · exact .of_isRetry (hquiet e (mem_append_left _ (mem_append_left _ he)))
      · rcases mem_cons.mp he with rfl | he
        · exact ⟨_, rfl, rfl, .inl rfl⟩
        · exact .of_isRetry (hquiet e (mem_append_left _ (mem_append_right _ he)))
    · exact .of_isRetry (hquiet e (mem_append_right _ he))
  obtain ⟨hown, hfreed⟩ := wins_own_row (fun _ => rfl) run_secondClaim
  refine ⟨hown.mp hfinds _ hretry "j" "p" ⟨rfl, rfl⟩ ⟨_, rfl⟩,
    hown.mp hfinds _ hclaim "j" "s" ⟨rfl, rfl⟩ ⟨_, rfl⟩, ?_⟩
  exact hfreed hfinds _ _ _ _ [] rfl "j" "p" "s" (by decide) ⟨rfl, rfl⟩ ⟨_, rfl⟩ ⟨rfl, rfl⟩

/-- Session `p` reads its failed row and stops before its retry; session `s` resets the row. -/
def beforeWins : List Event × Sessions :=
  (schedule (sessions 90) [0, 0, 0, 0, 1, 1, 1, 1, 1, 1] bothClaim).get rfl

def firstWin : Event × Sessions := (advance (sessions 90) beforeWins.2 1).get rfl

def secondWin : Event × Sessions := (advance (sessions 90) firstWin.2 0).get rfl

theorem run_firstWin :
    Run (Step (sessions 90)) (idle abandoned) (beforeWins.1 ++ [firstWin.1]) firstWin.2 := by
  have hpre : schedule (sessions 90) [0, 0, 0, 0, 1, 1, 1, 1, 1, 1] bothClaim =
      some (beforeWins.1, beforeWins.2) := rfl
  have hfirst : advance (sessions 90) beforeWins.2 1 = some (firstWin.1, firstWin.2) := rfl
  exact run_bothClaim.trans
    ((run_of_schedule hpre).trans (Run.single (step_of_advance hfirst)))

theorem run_secondWin : Run (Step (sessions 90)) firstWin.2 [secondWin.1] secondWin.2 := by
  have hsecond : advance (sessions 90) firstWin.2 0 = some (secondWin.1, secondWin.2) := rfl
  exact Run.single (step_of_advance hsecond)

/-- Two sessions win one job one right after the other, and the second does not own the row. -/
theorem not_wins_own_row_retried :
    ∃ (start finish : Sessions) (log : List Event) (e f : Event), start.Idle ∧
      Run (Step (sessions 90)) start (log ++ [e] ++ [f]) finish ∧
      Wins e "j" "s" ∧ Holds e.after "j" "s" ∧ Wins f "j" "p" ∧ Registered f.after "j" ∧
      ¬ Holds f.after "j" "p" := by
  refine ⟨idle abandoned, secondWin.2, beforeWins.1, firstWin.1, secondWin.1, fun _ => rfl,
    run_firstWin.trans run_secondWin, ⟨rfl, rfl⟩, ⟨_, rfl, rfl, rfl⟩, ⟨rfl, rfl⟩, ⟨_, rfl⟩, ?_⟩
  rintro ⟨j, hj, -, howner⟩
  have hs : (secondWin.1.after.db.jobs.get "j").map (·.sessionId) = some (some "s") := by decide
  rw [hj, Option.map_some, howner] at hs
  exact absurd hs (by decide)
end OxyMake.ClaimOwnership
