import OxyMake.RowMoves

/-!
# The discipline of the claim programs

Between two statements of a call the others only move the clock forward and
never remove a row. Whatever else they do, every statement a program executes
is disciplined: a claim is won exactly by the statements that found the row to
take, a row is reset as observed only when nobody ran it, and the operations of
the protocol reclaim at a cutoff that has passed by at least a lease.
-/

namespace OxyMake.ClaimDiscipline

open StateDb ClaimProtocol Interleaving LabelledRuns RowMoves

/-! ### What holds of a world -/

def Registered (w : World) (jobId : String) : Prop := ∃ j, w.db.jobs.get jobId = some j

def Pending (w : World) (jobId : String) : Prop :=
  ∃ j, w.db.jobs.get jobId = some j ∧ j.status = .pending

/-- The row of the job is `running` and owned by the session. -/
def Holds (w : World) (jobId sessionId : String) : Prop :=
  ∃ j, w.db.jobs.get jobId = some j ∧ j.status = .running ∧ j.sessionId = some sessionId

/-- What other calls can do between two statements of a call. -/
def Later (w w' : World) : Prop :=
  w.now ≤ w'.now ∧ ∀ jobId, Registered w jobId → Registered w' jobId

def next {β : Type} (s : Statement β) (w : World) : World := { w with db := (s.effect w).2 }

theorem exec_eq_some {β : Type} {s : Statement β} {w w' : World} {r : β}
    (h : s.exec w = some (r, w')) : r = (s.effect w).1 ∧ w' = next s w := by
  unfold Statement.exec at h
  split_ifs at h with hr
  cases h
  exact ⟨rfl, rfl⟩

theorem registered_next {β : Type} (s : Statement β) (w : World) {jobId : String}
    (h : Registered w jobId) : Registered (next s w) jobId := by
  obtain ⟨j, hj⟩ := h
  obtain ⟨j', hget, -⟩ := move_effect s w hj
  exact ⟨j', hget⟩

theorem relies_later (leaseSecs : ℕ) : Relies (sessions leaseSecs) Later where
  refl w := ⟨le_refl _, fun _ h => h⟩
  trans u v w huv hvw :=
    ⟨huv.1.trans hvw.1, fun jobId h => hvw.2 jobId (huv.2 jobId h)⟩
  exec s w r w' h := by
    obtain ⟨-, rfl⟩ := exec_eq_some h
    exact ⟨le_refl _, fun jobId => registered_next s w⟩
  drift w w' h := by
    refine ⟨h.2, ?_⟩
    intro jobId hreg
    unfold Registered at hreg ⊢
    rwa [h.1]

/-! ### Disciplined statements -/

/-- The claim of the job by the session is won with this statement. -/
def Wins (e : Event) (jobId sessionId : String) : Prop :=
  e.operation = .claimJobForSession jobId sessionId ∧ e.rest = .ret (.claim .won)

/-- The operations sessions run on each other's rows by the protocol, and those on their
own session. -/
def Cooperative : Operation → Prop
  | .claimJob .. => False
  | .reclaimStaleJobs .. => False
  | .reconcileCompleteJob .. => False
  | .reconcileFailJob .. => False
  | .skipJob .. => False
  | .excludeJob .. => False
  | .cancelJobs .. => False
  | .cancelJobIds .. => False
  | .cancelJobIdsForSession .. => False
  | _ => True

def Disciplined (leaseSecs : ℕ) (e : Event) : Prop :=
  match e.statement with
  | ⟨_, .claimJob sessionId _ jobId⟩ =>
    (Cooperative e.operation → Pending e.before jobId → Wins e jobId sessionId) ∧
      (e.rest = .ret (.claim .won) → Wins e jobId sessionId ∧ Pending e.before jobId)
  | ⟨_, .jobRow jobId⟩ =>
    e.rest = .ret (.claim .won) → ∃ sessionId, Wins e jobId sessionId ∧
      (Registered e.before jobId → Holds e.before jobId sessionId)
  | ⟨_, .retryFailed _ jobId sessionId⟩ =>
    Wins e jobId sessionId ∧ Registered e.before jobId
  | ⟨_, .resetJobRow _ observed⟩ =>
    e.rest ≠ .ret (.claim .won) ∧ (observed.status = .running → observed.sessionId = none)
  | ⟨_, .reclaimJobsUnlessLive _ cutoff⟩ =>
    e.rest ≠ .ret (.claim .won) ∧ (Cooperative e.operation → cutoff ≤ e.before.now - leaseSecs)
  | ⟨_, .resetInactiveJobRows _ cutoff⟩ =>
    e.rest ≠ .ret (.claim .won) ∧ (Cooperative e.operation → cutoff ≤ e.before.now - leaseSecs)
  | ⟨_, .completeJob _ _ _ jobId sessionId⟩ =>
    ∃ changed, e.rest = .ret (.changed changed) ∧
      (changed = true ↔ Holds e.before jobId sessionId)
  | ⟨_, .failJob _ _ jobId sessionId⟩ =>
    ∃ changed, e.rest = .ret (.changed changed) ∧
      (changed = true ↔ Holds e.before jobId sessionId)
  | ⟨_, s⟩ => e.rest ≠ .ret (.claim .won) ∧ (Cooperative e.operation → ¬ Settles s)

section Programs

variable {leaseSecs : ℕ} {op : Operation} {w : World}

/-- The program of an operation is disciplined from a world on. -/
abbrev Keeps (leaseSecs : ℕ) (op : Operation) (p : Program Outcome) (w : World) : Prop :=
  Guarded (sessions leaseSecs) Later (Disciplined leaseSecs) op p w

theorem keeps_stmt {β : Type} {s : Statement β} {k : β → Program Outcome}
    (h : ∀ w₁, Later w w₁ →
      Disciplined leaseSecs ⟨op, ⟨β, s⟩, w₁, next s w₁, k (s.effect w₁).1⟩ ∧
        Keeps leaseSecs op (k (s.effect w₁).1) (next s w₁)) :
    Keeps leaseSecs op (.stmt s k) w := by
  intro w₁ hw r w₂ hexec
  obtain ⟨rfl, rfl⟩ := exec_eq_some hexec
  exact h w₁ hw

theorem keeps_ret (o : Outcome) : Keeps leaseSecs op (.ret o) w := trivial

theorem keeps_unixNow {k : ℕ → Program Outcome}
    (h : ∀ w₁, Later w w₁ → k w₁.now ≠ .ret (.claim .won) ∧ Keeps leaseSecs op (k w₁.now) w₁) :
    Keeps leaseSecs op (.stmt .unixNow k) w := by
  refine keeps_stmt fun w₁ hw => ?_
  obtain ⟨hne, hkeeps⟩ := h w₁ hw
  exact ⟨⟨hne, fun _ hs => hs⟩, hkeeps⟩

/-- What is left after a part of a program keeps the discipline and wins no claim by itself. -/
def Goes (leaseSecs : ℕ) (op : Operation) (p : Program Outcome) : Prop :=
  p ≠ .ret (.claim .won) ∧ ∀ w, Keeps leaseSecs op p w

theorem goes_resetJobRow {jobId : String} {observed : JobRow} {k : Bool → Program Outcome}
    (hobserved : observed.status = .running → observed.sessionId = none)
    (hk : ∀ b, Goes leaseSecs op (k b)) :
    Goes leaseSecs op (resetJobRow jobId observed >>= k) := by
  refine ⟨nofun, fun w => ?_⟩
  refine keeps_stmt fun w₁ _ => ⟨⟨(hk _).1, hobserved⟩, (hk _).2 _⟩

theorem keeps_reclaim {owner : String} {cutoff : ℕ} {k : ℕ → Program Outcome}
    (hcutoff : Cooperative op → cutoff ≤ w.now - leaseSecs)
    (hk : ∀ n, Goes leaseSecs op (k n)) :
    Keeps leaseSecs op (.stmt (.reclaimJobsUnlessLive owner cutoff) k) w := by
  refine keeps_stmt fun w₁ hw => ⟨⟨(hk _).1, fun hop => ?_⟩, (hk _).2 _⟩
  exact (hcutoff hop).trans (Nat.sub_le_sub_right hw.1 leaseSecs)

theorem goes_releaseIfOwnerDead {jobId : String} {row : JobRow} {k : Bool → Program Outcome}
    (hk : ∀ b, Goes leaseSecs op (k b)) :
    Goes leaseSecs op (releaseIfOwnerDead leaseSecs jobId row >>= k) := by
  refine ⟨nofun, fun w => ?_⟩
  unfold releaseIfOwnerDead
  simp only [Prog.exec_bind, Prog.stmt_bind]
  refine keeps_unixNow fun w₁ _ => ?_
  have hstop : ∀ b, k b ≠ .ret (.claim .won) ∧ Keeps leaseSecs op (k b) w₁ :=
    fun b => ⟨(hk b).1, (hk b).2 w₁⟩
  have hreset : (row.status = .running → row.sessionId = none) →
      (resetJobRow jobId row >>= k) ≠ .ret (.claim .won) ∧
        Keeps leaseSecs op (resetJobRow jobId row >>= k) w₁ := fun hobserved =>
    ⟨(goes_resetJobRow hobserved hk).1, (goes_resetJobRow hobserved hk).2 w₁⟩
  split_ifs with hpending hlive
  · exact hstop true
  · exact hstop false
  · cases hstatus : row.status with
    | pending => exact absurd hstatus hpending
    | running =>
      cases howner : row.sessionId with
      | none => exact hreset fun _ => howner
      | some =>
        exact ⟨nofun, keeps_reclaim (fun _ => le_rfl) fun n => hk _⟩
    | completed | skipped => exact hstop false
    | failed | cancelled => exact hreset fun h => absurd (h.symm.trans hstatus) (by decide)

theorem goes_completionIsHistory {row : JobRow} {sessionId : String} {k : Bool → Program Outcome}
    (hk : ∀ b, Goes leaseSecs op (k b)) :
    Goes leaseSecs op (completionIsHistory leaseSecs row sessionId >>= k) := by
  refine ⟨nofun, fun w => ?_⟩
  unfold completionIsHistory
  simp only [Prog.exec_bind, Prog.stmt_bind]
  refine keeps_unixNow fun w₁ _ => ?_
  split_ifs with hlive
  · exact ⟨(hk false).1, (hk false).2 w₁⟩
  · refine ⟨nofun, keeps_stmt fun w₂ _ => ?_⟩
    generalize ((Statement.sessionStartedAt sessionId).effect w₂).1 = startedAt
    cases row.completedAt <;> cases startedAt <;>
      exact ⟨⟨(hk _).1, fun _ hs => hs⟩, (hk _).2 _⟩

theorem goes_releaseRow {jobId sessionId : String} {row : JobRow} {k : Bool → Program Outcome}
    (hk : ∀ b, Goes leaseSecs op (k b)) :
    Goes leaseSecs op (releaseRow leaseSecs jobId sessionId row >>= k) := by
  have hhistory : row.status ≠ .running → Goes leaseSecs op
      ((do
        let history ← completionIsHistory leaseSecs row sessionId
        if history then resetJobRow jobId row else return false) >>= k) := by
    intro hrunning
    rw [Prog.bind_bind]
    refine goes_completionIsHistory fun b => ?_
    cases b with
    | false => exact hk false
    | true => exact goes_resetJobRow (fun h => absurd h hrunning) hk
  unfold releaseRow
  cases hstatus : row.status with
  | completed | skipped => exact hhistory (by rw [hstatus]; decide)
  | pending | running | failed | cancelled => exact goes_releaseIfOwnerDead hk

theorem goes_claimLost {jobId : String} {row : JobRow} :
    Goes leaseSecs op (Outcome.claim <$> claimLost jobId row) := by
  refine ⟨nofun, fun w => keeps_stmt fun w₁ _ => ⟨?_, keeps_ret _⟩⟩
  intro h
  cases h

theorem claimJob_pos_iff (w : World) (sessionId : String) (now : ℕ) (jobId : String) :
    0 < (w.db.claimJob sessionId now jobId).1 ↔ Pending w jobId := by
  unfold Db.claimJob
  rw [updateJobs_pos_iff w.db jobId (fun j => decide (j.status = .pending))]
  simp only [decide_eq_true_eq]
  rfl

theorem goes_claimJob {jobId sessionId : String} {k : Bool → Program Outcome}
    (htrue : k true = .ret (.claim .won))
    (hfalse : Goes leaseSecs (.claimJobForSession jobId sessionId) (k false)) :
    Goes leaseSecs (.claimJobForSession jobId sessionId) (claimJob jobId sessionId >>= k) := by
  refine ⟨nofun, fun w => ?_⟩
  unfold claimJob
  simp only [Prog.exec_bind, Prog.stmt_bind]
  refine keeps_unixNow fun w₁ _ => ⟨nofun, keeps_stmt fun w₂ _ => ?_⟩
  suffices hrows : ∀ b, (b = true ↔ Pending w₂ jobId) →
      Disciplined leaseSecs ⟨.claimJobForSession jobId sessionId,
        ⟨ℕ, .claimJob sessionId w₁.now jobId⟩, w₂, next (.claimJob sessionId w₁.now jobId) w₂,
        k b⟩ ∧
      Keeps leaseSecs (.claimJobForSession jobId sessionId) (k b)
        (next (.claimJob sessionId w₁.now jobId) w₂) from
    hrows _ (decide_eq_true_iff.trans (claimJob_pos_iff w₂ sessionId w₁.now jobId))
  intro b hb
  cases b with
  | true =>
    rw [htrue]
    exact ⟨⟨fun _ _ => ⟨rfl, rfl⟩, fun _ => ⟨⟨rfl, rfl⟩, hb.mp rfl⟩⟩, keeps_ret _⟩
  | false =>
    have hnot : ¬ Pending w₂ jobId := fun h => Bool.noConfusion (hb.mpr h)
    exact ⟨⟨fun _ h => absurd h hnot, fun h => absurd h hfalse.1⟩, hfalse.2 _⟩

theorem goes_claimReleased {jobId sessionId : String} {row : JobRow} :
    Goes leaseSecs (.claimJobForSession jobId sessionId)
      (Outcome.claim <$> claimReleased leaseSecs jobId sessionId row) := by
  unfold claimReleased
  rw [Prog.map_eq, Prog.bind_bind]
  refine goes_releaseRow fun b => ?_
  cases b with
  | false => exact goes_claimLost
  | true =>
    simp only [if_true, Prog.bind_bind]
    exact goes_claimJob rfl goes_claimLost

theorem jobRow_eq_some {db : Db} {jobId : String} {row : JobRow} (h : db.jobRow jobId = some row) :
    ∃ j, db.jobs.get jobId = some j ∧ j.status = row.status ∧ j.sessionId = row.sessionId := by
  obtain ⟨j, hj, rfl⟩ := Option.map_eq_some_iff.mp h
  exact ⟨j, hj, rfl, rfl⟩

theorem keeps_retry {jobId sessionId : String} (h : Registered w jobId) :
    Keeps leaseSecs (.claimJobForSession jobId sessionId)
      (.stmt .unixNow fun now => .stmt (.retryFailed now jobId sessionId) fun _ =>
        .ret (.claim .won)) w := by
  refine keeps_unixNow fun w₁ hw₁ => ⟨nofun, keeps_stmt fun w₂ hw₂ => ⟨?_, keeps_ret _⟩⟩
  exact ⟨⟨rfl, rfl⟩, hw₂.2 jobId (hw₁.2 jobId h)⟩

theorem keeps_claimRead {jobId sessionId : String} (k : Option JobRow → Program Outcome)
    (hnone : k none = .ret (.claim .won))
    (hrunning : ∀ row, row.status = .running → row.sessionId = some sessionId →
      k (some row) = .ret (.claim .won))
    (hfailed : ∀ row, row.status = .failed → row.sessionId = some sessionId →
      k (some row) = .stmt .unixNow fun now => .stmt (.retryFailed now jobId sessionId) fun _ =>
        .ret (.claim .won))
    (hother : ∀ row, ¬ (row.status = .running ∧ row.sessionId = some sessionId) →
      ¬ (row.status = .failed ∧ row.sessionId = some sessionId) →
      k (some row) = Outcome.claim <$> claimReleased leaseSecs jobId sessionId row) :
    Goes leaseSecs (.claimJobForSession jobId sessionId) (.stmt (.jobRow jobId) k) := by
  refine ⟨fun h => (by cases h), fun w => keeps_stmt fun w₁ _ => ?_⟩
  suffices hrow : ∀ row, w₁.db.jobRow jobId = row →
      Disciplined leaseSecs ⟨.claimJobForSession jobId sessionId, ⟨_, .jobRow jobId⟩, w₁,
        next (.jobRow jobId) w₁, k row⟩ ∧
      Keeps leaseSecs (.claimJobForSession jobId sessionId) (k row)
        (next (.jobRow jobId) w₁) from hrow _ rfl
  intro row hread
  cases row with
  | none =>
    rw [hnone]
    refine ⟨fun _ => ⟨sessionId, ⟨rfl, rfl⟩, ?_⟩, keeps_ret _⟩
    rintro ⟨j, hj⟩
    have hj' : w₁.db.jobs.get jobId = some j := hj
    simp only [Db.jobRow, hj', Option.map_some] at hread
    cases hread
  | some row =>
    obtain ⟨j, hj, hstatus, howner⟩ := jobRow_eq_some hread
    by_cases hrun : row.status = .running ∧ row.sessionId = some sessionId
    · rw [hrunning row hrun.1 hrun.2]
      refine ⟨fun _ => ⟨sessionId, ⟨rfl, rfl⟩, fun _ => ?_⟩, keeps_ret _⟩
      exact ⟨j, hj, hstatus.trans hrun.1, howner.trans hrun.2⟩
    · by_cases hfail : row.status = .failed ∧ row.sessionId = some sessionId
      · rw [hfailed row hfail.1 hfail.2]
        exact ⟨fun h => (by cases h), keeps_retry ⟨j, hj⟩⟩
      · rw [hother row hrun hfail]
        exact ⟨fun h => absurd h goes_claimReleased.1, goes_claimReleased.2 _⟩

theorem keeps_claimJobForSession {jobId sessionId : String} :
    Keeps leaseSecs (.claimJobForSession jobId sessionId)
      (Outcome.claim <$> claimJobForSession leaseSecs jobId sessionId) w := by
  unfold claimJobForSession
  rw [Prog.map_eq, Prog.bind_bind]
  refine (goes_claimJob rfl ?_).2 w
  simp only [Bool.false_eq_true, if_false, Prog.exec_bind, Prog.stmt_bind]
  refine keeps_claimRead _ rfl ?_ ?_ ?_
  · intro row hstatus howner
    simp only [hstatus, howner, if_true]
    rfl
  · intro row hstatus howner
    simp only [hstatus, howner, if_true]
    rfl
  · intro row hrun hfail
    by_cases howner : row.sessionId = some sessionId
    · cases hstatus : row.status with
      | running => exact absurd ⟨hstatus, howner⟩ hrun
      | failed => exact absurd ⟨hstatus, howner⟩ hfail
      | pending | completed | skipped | cancelled =>
        simp only [howner, if_true, hstatus, Prog.map_eq]
    · simp only [howner, if_false, Prog.map_eq]

theorem goes_peerVerdict {jobId : String} {row : JobRow} {live : Bool} :
    Goes leaseSecs op (Outcome.peer <$> peerVerdict leaseSecs jobId row live) := by
  have hret : ∀ state, Goes leaseSecs op (Outcome.peer <$> (pure state : Program _)) :=
    fun state => ⟨nofun, fun _ => keeps_ret _⟩
  have hrelease : Goes leaseSecs op (Outcome.peer <$> do
      let _ ← releaseIfOwnerDead leaseSecs jobId row
      return .unclaimed) := by
    rw [Prog.map_eq, Prog.bind_bind]
    exact goes_releaseIfOwnerDead fun _ => hret .unclaimed
  unfold peerVerdict
  cases row.status with
  | pending => exact hret .unclaimed
  | completed | skipped => exact hret .completed
  | running =>
    cases live with
    | true => exact hret .running
    | false => exact hrelease
  | failed =>
    cases live with
    | true => exact hret _
    | false => exact hrelease
  | cancelled =>
    cases live with
    | true => exact hret .cancelled
    | false => exact hrelease

theorem keeps_peerJobState {jobId : String} :
    Keeps leaseSecs op (Outcome.peer <$> peerJobState leaseSecs jobId) w := by
  unfold peerJobState
  simp only [Prog.map_eq, Prog.exec_bind, Prog.stmt_bind]
  refine keeps_stmt fun w₁ _ => ?_
  cases (Statement.jobRow jobId).effect w₁ |>.1 with
  | none => exact ⟨nofun, keeps_ret _⟩
  | some row =>
    refine ⟨nofun, keeps_unixNow fun w₂ _ => ?_⟩
    have hverdict : Goes leaseSecs op (Outcome.peer <$>
        peerVerdict leaseSecs jobId row (row.ownerLive leaseSecs w₂.now)) := goes_peerVerdict
    exact ⟨hverdict.1, hverdict.2 w₂⟩

theorem keeps_changes {s : ℕ → Statement ℕ}
    (h : ∀ now w₁, Disciplined leaseSecs ⟨op, ⟨ℕ, s now⟩, w₁, next (s now) w₁,
      .ret (.changed (decide (0 < ((s now).effect w₁).1)))⟩) :
    Keeps leaseSecs op (Outcome.changed <$> changes s) w :=
  keeps_unixNow fun w₁ _ => ⟨nofun, keeps_stmt fun w₂ _ => ⟨h w₁.now w₂, keeps_ret _⟩⟩

theorem keeps_cancelIds {ids : List String} {cancel : ℕ → Statement (List String)}
    (h : ∀ now w₁ cancelled, Disciplined leaseSecs
      ⟨op, ⟨List String, cancel now⟩, w₁, next (cancel now) w₁, .ret (.ids cancelled)⟩) :
    Keeps leaseSecs op (Outcome.ids <$> cancelIds ids cancel) w := by
  unfold cancelIds
  split_ifs with hids
  · exact keeps_ret _
  · exact keeps_unixNow fun w₁ _ => ⟨nofun, keeps_stmt fun w₂ _ => ⟨h w₁.now w₂ _, keeps_ret _⟩⟩

theorem owned_pos_iff (w : World) (jobId sessionId : String) (f : Job → Job) :
    0 < (w.db.updateJobs (fun id j => id = jobId &&
      (j.status = .running && j.sessionId = some sessionId)) f).1 ↔ Holds w jobId sessionId := by
  rw [updateJobs_pos_iff w.db jobId
    (fun j => decide (j.status = .running) && decide (j.sessionId = some sessionId))]
  simp only [Bool.and_eq_true, decide_eq_true_eq]
  rfl

theorem keeps_program (op : Operation) (w : World) :
    Keeps leaseSecs op (program leaseSecs op) w := by
  cases op with
  | registerJobs => exact keeps_stmt fun w₁ _ => ⟨⟨nofun, fun _ h => h⟩, keeps_ret _⟩
  | claimJob =>
    exact keeps_unixNow fun w₁ _ => ⟨nofun, keeps_stmt fun w₂ _ =>
      ⟨⟨fun h => h.elim, nofun⟩, keeps_ret _⟩⟩
  | claimJobForSession => exact keeps_claimJobForSession
  | peerJobState => exact keeps_peerJobState
  | resetInactiveJobRows =>
    simp only [program, resetInactiveJobRows]
    split_ifs with hids
    · exact keeps_ret _
    · refine keeps_unixNow fun w₁ _ => ⟨nofun, keeps_stmt fun w₂ hw => ⟨⟨nofun, ?_⟩, keeps_ret _⟩⟩
      exact fun _ => Nat.sub_le_sub_right hw.1 leaseSecs
  | reclaimStaleJobsIfStale =>
    exact keeps_unixNow fun w₁ _ => ⟨nofun, keeps_reclaim (fun _ => le_rfl) fun n =>
      ⟨nofun, fun _ => keeps_ret _⟩⟩
  | reclaimStaleJobs =>
    exact keeps_reclaim (fun h => h.elim) fun n => ⟨nofun, fun _ => keeps_ret _⟩
  | completeJob jobId sessionId =>
    exact keeps_changes fun now w₁ => ⟨_, rfl,
      decide_eq_true_iff.trans (owned_pos_iff w₁ jobId sessionId _)⟩
  | failJob jobId sessionId =>
    exact keeps_changes fun now w₁ => ⟨_, rfl,
      decide_eq_true_iff.trans (owned_pos_iff w₁ jobId sessionId _)⟩
  | reconcileCompleteJob | reconcileFailJob =>
    exact keeps_changes fun now w₁ => ⟨nofun, fun h => h.elim⟩
  | setJobTimes | completeSession | interruptSession =>
    exact keeps_stmt fun w₁ _ => ⟨⟨nofun, fun _ h => h⟩, keeps_ret _⟩
  | skipJob => exact keeps_changes fun now w₁ => ⟨nofun, fun h => h.elim⟩
  | excludeJob => exact keeps_stmt fun w₁ _ => ⟨⟨nofun, fun h => h.elim⟩, keeps_ret _⟩
  | cancelJobs =>
    simp only [program, cancelJobs, Prog.map_eq, Prog.exec_bind, Prog.stmt_bind]
    refine keeps_stmt fun w₁ _ => ?_
    split_ifs with hids
    · exact ⟨⟨nofun, fun _ h => h⟩, keeps_ret _⟩
    · exact ⟨⟨nofun, fun _ h => h⟩, keeps_unixNow fun w₂ _ => ⟨nofun, keeps_stmt fun w₃ _ =>
        ⟨⟨nofun, fun h => h.elim⟩, keeps_ret _⟩⟩⟩
  | cancelJobIds => exact keeps_cancelIds fun now w₁ _ => ⟨nofun, fun h => h.elim⟩
  | cancelJobIdsForSession =>
    exact keeps_cancelIds fun now w₁ _ => ⟨nofun, fun h => h.elim⟩
  | createSession | heartbeat =>
    exact keeps_unixNow fun w₁ _ => ⟨nofun, keeps_stmt fun w₂ _ =>
      ⟨⟨nofun, fun _ h => h⟩, keeps_ret _⟩⟩

end Programs

theorem run_disciplined {leaseSecs : ℕ} {x y : Sessions} {log : List Event} (hx : x.Idle)
    (h : Run (Step (sessions leaseSecs)) x log y) : ∀ e ∈ log, Disciplined leaseSecs e :=
  (Safe.run (relies_later leaseSecs) keeps_program hx.safe h).2

end OxyMake.ClaimDiscipline
