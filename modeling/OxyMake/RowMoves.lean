import OxyMake.ClaimProtocol

/-!
# What a statement does to a job row

Every statement keeps the status and owner of a given row or moves it in one of
a few ways: a claim takes a `pending` row, a retry takes the owner's `failed`
row back, the owner finishes its `running` row, another statement settles it,
or a reset makes it `pending` again. A reset by liveness needs an owner that is
not live at the cutoff of the statement. Rows are never removed.
-/

namespace OxyMake.RowMoves

open List
open KeyedTable StateDb ClaimProtocol

/-! ### The database under an update -/

theorem get_updateJobs (db : Db) (p : String → Job → Bool) (f : Job → Job) {jobId : String}
    {j : Job} (h : db.jobs.get jobId = some j) :
    (db.updateJobs p f).2.jobs.get jobId = some (if p jobId j then f j else j) := by
  simp only [Db.updateJobs, Table.get_update, h, Option.map_some]

theorem updateJobs_pos_iff (db : Db) (jobId : String) (q : Job → Bool) (f : Job → Job) :
    0 < (db.updateJobs (fun id j => id = jobId && q j) f).1 ↔
      ∃ j, db.jobs.get jobId = some j ∧ q j = true :=
  Table.count_key_pos_iff jobId q db.jobs

/-- Updates of the `jobs` table leave the sessions. -/
@[simp]
theorem updateJobs_sessions (db : Db) (p : String → Job → Bool) (f : Job → Job) :
    (db.updateJobs p f).2.sessions = db.sessions := rfl

/-- Updates of the `sessions` table leave the jobs. -/
@[simp]
theorem updateSessions_jobs (db : Db) (p : String → Session → Bool) (f : Session → Session) :
    (db.updateSessions p f).2.jobs = db.jobs := rfl

/-! ### Liveness inside a transaction -/

theorem liveSession_reclaimJobsUnlessLive (db : Db) (owner : String) (cutoff : ℕ) (s : String) :
    (db.reclaimJobsUnlessLive owner cutoff).2.liveSession s cutoff = db.liveSession s cutoff := by
  simp only [Db.reclaimJobsUnlessLive, Db.liveSession, Db.updateSessions, Table.get_update,
    updateJobs_sessions]
  cases hs : db.sessions.get s with
  | none => rfl
  | some x =>
    simp only [Option.map_some]
    split_ifs with hclose
    · simp only [Bool.and_eq_true, decide_eq_true_eq] at hclose
      have hstale : ¬ cutoff < x.heartbeatAt := Nat.not_lt.mpr hclose.2.2
      simp only [hstale, decide_false, Bool.and_false]
    · rfl

theorem liveSession_reclaimOwners (cutoff : ℕ) (owners : List String) (acc : ℕ × Db) (s : String) :
    (Db.reclaimOwners cutoff owners acc).2.liveSession s cutoff = acc.2.liveSession s cutoff := by
  induction owners generalizing acc with
  | nil => rfl
  | cons owner owners ih =>
    unfold Db.reclaimOwners
    rw [ih]
    exact liveSession_reclaimJobsUnlessLive acc.2 owner cutoff s

theorem liveOwner_congr {db db' : Db} {cutoff : ℕ}
    (h : ∀ s, db'.liveSession s cutoff = db.liveSession s cutoff) (j : Job) :
    db'.liveOwner cutoff j = db.liveOwner cutoff j := by
  unfold Db.liveOwner
  cases j.sessionId with
  | none => rfl
  | some s => exact h s

/-! ### Resets -/

def Freed (j : Job) : Prop := j.status = .pending ∧ j.sessionId = none

def SameOwner (j j' : Job) : Prop := j'.status = j.status ∧ j'.sessionId = j.sessionId

theorem SameOwner.refl (j : Job) : SameOwner j j := ⟨rfl, rfl⟩

theorem SameOwner.trans {i j k : Job} (h₁ : SameOwner i j) (h₂ : SameOwner j k) : SameOwner i k :=
  ⟨h₂.1.trans h₁.1, h₂.2.trans h₁.2⟩

def Unsettled (j : Job) : Prop :=
  j.status ≠ .pending ∧ j.status ≠ .completed ∧ j.status ≠ .skipped

/-- How a reset by liveness moves a row: not at all, or to `pending` from an unsettled row
without a live owner. -/
def Swept (db : Db) (cutoff : ℕ) (j j' : Job) : Prop :=
  SameOwner j j' ∨ (Freed j' ∧ Unsettled j ∧ db.liveOwner cutoff j = false)

theorem Swept.trans {db db' : Db} {cutoff : ℕ} {i j k : Job}
    (hlive : ∀ s, db'.liveSession s cutoff = db.liveSession s cutoff)
    (h₁ : Swept db cutoff i j) (h₂ : Swept db' cutoff j k) : Swept db cutoff i k := by
  rcases h₁ with h₁ | ⟨hfree, hrest⟩
  · rcases h₂ with h₂ | ⟨hfree, hun, hdead⟩
    · exact Or.inl (h₁.trans h₂)
    · refine Or.inr ⟨hfree, ?_, ?_⟩
      · unfold Unsettled at hun ⊢
        rwa [h₁.1] at hun
      · rw [liveOwner_congr hlive] at hdead
        unfold Db.liveOwner at hdead ⊢
        rwa [h₁.2] at hdead
  · rcases h₂ with h₂ | ⟨-, hun, -⟩
    · exact Or.inr ⟨⟨h₂.1.trans hfree.1, h₂.2.trans hfree.2⟩, hrest⟩
    · exact absurd hfree.1 hun.1

theorem reclaimJobsUnlessLive_swept (db : Db) (owner : String) (cutoff : ℕ) {jobId : String}
    {j : Job} (h : db.jobs.get jobId = some j) :
    ∃ j', (db.reclaimJobsUnlessLive owner cutoff).2.jobs.get jobId = some j' ∧
      (SameOwner j j' ∨ (Freed j' ∧ j.status = .running ∧ j.sessionId = some owner ∧
        db.liveSession owner cutoff = false)) := by
  simp only [Db.reclaimJobsUnlessLive, updateSessions_jobs]
  refine ⟨_, get_updateJobs db _ _ h, ?_⟩
  split_ifs with hp
  · simp only [Bool.and_eq_true, decide_eq_true_eq, Bool.not_eq_true'] at hp
    exact Or.inr ⟨⟨rfl, rfl⟩, hp.1.2, hp.1.1, hp.2⟩
  · exact Or.inl (SameOwner.refl j)

theorem swept_of_reclaimed {db : Db} {cutoff : ℕ} {owner : String} {j j' : Job}
    (h : SameOwner j j' ∨ (Freed j' ∧ j.status = .running ∧ j.sessionId = some owner ∧
      db.liveSession owner cutoff = false)) : Swept db cutoff j j' := by
  rcases h with h | ⟨hfree, hrun, howner, hdead⟩
  · exact Or.inl h
  · refine Or.inr ⟨hfree, ?_, ?_⟩
    · unfold Unsettled
      rw [hrun]
      decide
    · unfold Db.liveOwner
      rw [howner]
      exact hdead

theorem reclaimOwners_swept (cutoff : ℕ) (owners : List String) (acc : ℕ × Db) {jobId : String}
    {j : Job} (h : acc.2.jobs.get jobId = some j) :
    ∃ j', (Db.reclaimOwners cutoff owners acc).2.jobs.get jobId = some j' ∧
      Swept acc.2 cutoff j j' := by
  induction owners generalizing acc j with
  | nil => exact ⟨j, h, Or.inl (SameOwner.refl j)⟩
  | cons owner owners ih =>
    unfold Db.reclaimOwners
    obtain ⟨_, hget, hfirst⟩ := reclaimJobsUnlessLive_swept acc.2 owner cutoff h
    obtain ⟨j₂, hlast, hrest⟩ :=
      ih (acc.1 + (acc.2.reclaimJobsUnlessLive owner cutoff).1,
        (acc.2.reclaimJobsUnlessLive owner cutoff).2) hget
    exact ⟨j₂, hlast, (swept_of_reclaimed hfirst).trans
      (liveSession_reclaimJobsUnlessLive acc.2 owner cutoff) hrest⟩

theorem liveSession_resetInactiveChunk (cutoff : ℕ) (acc : ℕ × Db) (chunk : List String)
    (s : String) :
    (Db.resetInactiveChunk cutoff acc chunk).2.liveSession s cutoff =
      acc.2.liveSession s cutoff :=
  liveSession_reclaimOwners cutoff (acc.2.deadOwners chunk cutoff) acc s

theorem resetInactiveChunk_swept (cutoff : ℕ) (acc : ℕ × Db) (chunk : List String)
    {jobId : String} {j : Job} (h : acc.2.jobs.get jobId = some j) :
    ∃ j', (Db.resetInactiveChunk cutoff acc chunk).2.jobs.get jobId = some j' ∧
      Swept acc.2 cutoff j j' := by
  unfold Db.resetInactiveChunk
  obtain ⟨j₁, hget, hfirst⟩ :=
    reclaimOwners_swept cutoff (acc.2.deadOwners chunk cutoff) acc h
  have hlive := liveSession_reclaimOwners cutoff (acc.2.deadOwners chunk cutoff) acc
  refine ⟨_, get_updateJobs _ _ _ hget, hfirst.trans hlive ?_⟩
  split_ifs with hp
  · simp only [Bool.and_eq_true, Bool.not_eq_true', Bool.or_eq_false_iff,
      decide_eq_false_iff_not] at hp
    exact Or.inr ⟨⟨rfl, rfl⟩, ⟨hp.2.1.1.1, hp.2.1.1.2, hp.2.1.2⟩, hp.2.2⟩
  · exact Or.inl (SameOwner.refl j₁)

theorem resetInactiveJobRows_swept (db : Db) (ids : List String) (cutoff : ℕ) {jobId : String}
    {j : Job} (h : db.jobs.get jobId = some j) :
    ∃ j', (db.resetInactiveJobRows ids cutoff).2.jobs.get jobId = some j' ∧
      Swept db cutoff j j' := by
  unfold Db.resetInactiveJobRows
  suffices hall : ∀ (chunks : List (List String)) (acc : ℕ × Db) (j : Job),
      acc.2.jobs.get jobId = some j →
      ∃ j', (chunks.foldl (Db.resetInactiveChunk cutoff) acc).2.jobs.get jobId = some j' ∧
        Swept acc.2 cutoff j j' from hall _ (0, db) j h
  intro chunks
  induction chunks with
  | nil => exact fun acc j hj => ⟨j, hj, Or.inl (SameOwner.refl j)⟩
  | cons chunk chunks ih =>
    intro acc j hj
    obtain ⟨j₁, hget, hfirst⟩ := resetInactiveChunk_swept cutoff acc chunk hj
    obtain ⟨j₂, hlast, hrest⟩ := ih _ j₁ hget
    exact ⟨j₂, hlast, hfirst.trans (liveSession_resetInactiveChunk cutoff acc chunk) hrest⟩

/-! ### Registration and cancellation -/

theorem registerJob_sameOwner (db : Db) (r : JobRecord) {jobId : String} {j : Job}
    (h : db.jobs.get jobId = some j) :
    ∃ j', (db.registerJob r).jobs.get jobId = some j' ∧ SameOwner j j' := by
  unfold Db.registerJob
  dsimp only
  rw [Table.get_upsert]
  by_cases hid : jobId = r.id
  · subst hid
    rw [if_pos rfl, h]
    exact ⟨_, rfl, rfl, rfl⟩
  · rw [if_neg hid]
    exact ⟨j, h, SameOwner.refl j⟩

theorem registerJobs_sameOwner (db : Db) (jobs : List JobRecord) {jobId : String} {j : Job}
    (h : db.jobs.get jobId = some j) :
    ∃ j', (db.registerJobs jobs).jobs.get jobId = some j' ∧ SameOwner j j' := by
  unfold Db.registerJobs
  induction jobs generalizing db j with
  | nil => exact ⟨j, h, SameOwner.refl j⟩
  | cons r jobs ih =>
    obtain ⟨_, hget, hfirst⟩ := registerJob_sameOwner db r h
    obtain ⟨j₂, hlast, hrest⟩ := ih _ hget
    exact ⟨j₂, hlast, hfirst.trans hrest⟩

theorem get_cancelEach (p : Job → Bool) (now : ℕ) (ids : List String) (db : Db)
    {jobId : String} {j : Job} (h : db.jobs.get jobId = some j) :
    (Db.cancelEach p now ids db).2.jobs.get jobId =
      some (if jobId ∈ ids ∧ p j then { j with status := .cancelled, completedAt := some now }
        else j) := by
  induction ids generalizing db j with
  | nil => simpa only [Db.cancelEach, not_mem_nil, false_and, if_false] using h
  | cons id ids ih =>
    unfold Db.cancelEach
    have hget := get_updateJobs db (fun i j => i = id && p j)
      (fun j => { j with status := .cancelled, completedAt := some now }) h
    refine (ih _ hget).trans ?_
    by_cases hid : jobId = id
    · subst hid
      by_cases hp : p j = true
      · simp only [hp, decide_true, Bool.and_self, if_true, mem_cons, true_or, and_self,
          ite_self]
      · simp only [hp, decide_true, Bool.and_false, Bool.false_eq_true, if_false, and_false]
    · simp only [hid, decide_false, Bool.false_and, Bool.false_eq_true, if_false, mem_cons,
        false_or]

theorem mem_cancelEach_iff {p : Job → Bool} {now : ℕ} {ids : List String} {db : Db}
    {jobId : String} {j : Job} (h : db.jobs.get jobId = some j) :
    jobId ∈ (Db.cancelEach p now ids db).1 ↔ jobId ∈ ids ∧ p j = true := by
  induction ids generalizing db j with
  | nil => simp only [Db.cancelEach, not_mem_nil, false_and]
  | cons id ids ih =>
    unfold Db.cancelEach
    have hget := get_updateJobs db (fun i j => i = id && p j)
      (fun j => { j with status := .cancelled, completedAt := some now }) h
    have hrest := ih hget
    by_cases hid : jobId = id
    · subst hid
      by_cases hp : p j = true
      · have hpos := (updateJobs_pos_iff db jobId p
          fun j => { j with status := .cancelled, completedAt := some now }).mpr ⟨j, h, hp⟩
        dsimp only
        rw [if_pos hpos]
        simp only [mem_cons_self, hp, and_self]
      · have hzero : ¬ 0 < (db.updateJobs (fun i j => i = jobId && p j)
            fun j => { j with status := .cancelled, completedAt := some now }).1 := by
          intro hpos
          obtain ⟨i, hi, hpi⟩ := (updateJobs_pos_iff _ _ _ _).mp hpos
          rw [h] at hi
          cases hi
          exact hp hpi
        simp only [hp, decide_true, Bool.and_false, Bool.false_eq_true, if_false, and_false]
          at hrest
        dsimp only
        rw [if_neg hzero]
        simpa only [hp, Bool.false_eq_true, and_false] using hrest
    · simp only [hid, decide_false, Bool.false_and, Bool.false_eq_true, if_false] at hrest
      dsimp only
      split_ifs
      · simpa only [mem_cons, hid, false_or] using hrest
      · simpa only [mem_cons, hid, false_or] using hrest

theorem cancelEach_cancels (p : Job → Bool) (now : ℕ) (ids : List String) (db : Db)
    {jobId : String} {j : Job} (h : db.jobs.get jobId = some j) :
    ∃ j', (Db.cancelEach p now ids db).2.jobs.get jobId = some j' ∧
      (SameOwner j j' ∨ (j'.status = .cancelled ∧ j'.sessionId = j.sessionId)) := by
  refine ⟨_, get_cancelEach p now ids db h, ?_⟩
  split_ifs
  · exact Or.inr ⟨rfl, rfl⟩
  · exact Or.inl (SameOwner.refl j)

/-! ### The moves of a row -/

/-- The owner records the outcome of its `running` row. -/
def Finishes (jobId sessionId : String) : {β : Type} → Statement β → Prop
  | _, .completeJob _ _ _ id s => id = jobId ∧ s = sessionId
  | _, .failJob _ _ id s => id = jobId ∧ s = sessionId
  | _, _ => False

/-- Statements that settle a row for whoever owns it. -/
def Settles : {β : Type} → Statement β → Prop
  | _, .reconcileCompleteJob .. => True
  | _, .reconcileFailJob .. => True
  | _, .skipJob .. => True
  | _, .excludeJob .. => True
  | _, .cancelJobIds .. => True
  | _, .cancelJobIdsForSession .. => True
  | _, _ => False

/-- Statements that make a row of a given status and owner `pending` again. -/
def Resets (db : Db) (j : Job) : {β : Type} → Statement β → Prop
  | _, .resetJobRow _ observed => j.status = observed.status ∧ j.sessionId = observed.sessionId
  | _, .reclaimJobsUnlessLive _ cutoff => Unsettled j ∧ db.liveOwner cutoff j = false
  | _, .resetInactiveJobRows _ cutoff => Unsettled j ∧ db.liveOwner cutoff j = false
  | _, _ => False

/-- What a statement can do to the row of a job. -/
inductive Move (db : Db) (jobId : String) (j : Job) : {β : Type} → Statement β → Job → Prop
  | keep {β : Type} (s : Statement β) (j' : Job) : SameOwner j j' → Move db jobId j s j'
  /-- A session takes the `pending` row. -/
  | claim (sessionId : String) (now : ℕ) (j' : Job) : j.status = .pending →
      j'.status = .running → j'.sessionId = some sessionId →
      Move db jobId j (.claimJob sessionId now jobId) j'
  /-- A session takes its own `failed` row back. -/
  | retry (sessionId : String) (now : ℕ) (j' : Job) : j.status = .failed →
      j.sessionId = some sessionId → j'.status = .running → j'.sessionId = j.sessionId →
      Move db jobId j (.retryFailed now jobId sessionId) j'
  | finish {β : Type} (s : Statement β) (sessionId : String) (j' : Job) :
      Finishes jobId sessionId s → j.status = .running → j.sessionId = some sessionId →
      j'.status ≠ .running → j'.sessionId = j.sessionId → Move db jobId j s j'
  | settle {β : Type} (s : Statement β) (j' : Job) : Settles s → j'.status ≠ .running →
      j'.sessionId = j.sessionId → Move db jobId j s j'
  | reset {β : Type} (s : Statement β) (j' : Job) : Resets db j s → Freed j' →
      Move db jobId j s j'

theorem move_updateJobs {β : Type} (s : Statement β) (db : Db) (p : String → Job → Bool)
    (f : Job → Job) {jobId : String} {j : Job} (h : db.jobs.get jobId = some j)
    (hmove : p jobId j = true → Move db jobId j s (f j)) :
    ∃ j', (db.updateJobs p f).2.jobs.get jobId = some j' ∧ Move db jobId j s j' := by
  refine ⟨_, get_updateJobs db p f h, ?_⟩
  split_ifs with hp
  · exact hmove hp
  · exact .keep s j (SameOwner.refl j)

theorem move_keep {β : Type} (s : Statement β) {db db' : Db} {jobId : String} {j : Job}
    (h : db.jobs.get jobId = some j) (hjobs : db'.jobs = db.jobs) :
    ∃ j', db'.jobs.get jobId = some j' ∧ Move db jobId j s j' := by
  rw [hjobs]
  exact ⟨j, h, .keep s j (SameOwner.refl j)⟩

theorem move_settle {β : Type} {s : Statement β} {db : Db} {p : String → Job → Bool}
    {f : Job → Job} {jobId : String} {j : Job} (h : db.jobs.get jobId = some j)
    (hs : Settles s) (status : JobStatus) (hnot : status ≠ .running)
    (hf : (f j).status = status ∧ (f j).sessionId = j.sessionId) :
    ∃ j', (db.updateJobs p f).2.jobs.get jobId = some j' ∧ Move db jobId j s j' :=
  move_updateJobs s db p f h fun _ => .settle s (f j) hs (hf.1 ▸ hnot) hf.2

theorem move_cancelEach {β : Type} {s : Statement β} {db : Db} {p : Job → Bool} {now : ℕ}
    {ids : List String} {jobId : String} {j : Job} (h : db.jobs.get jobId = some j)
    (hs : Settles s) :
    ∃ j', (Db.cancelEach p now ids db).2.jobs.get jobId = some j' ∧ Move db jobId j s j' := by
  obtain ⟨j', hget, hmove⟩ := cancelEach_cancels p now ids db h
  refine ⟨j', hget, ?_⟩
  rcases hmove with hsame | ⟨hstatus, howner⟩
  · exact .keep s j' hsame
  · refine .settle s j' hs ?_ howner
    rw [hstatus]
    decide

theorem move_swept {β : Type} (s : Statement β) {db : Db} {cutoff : ℕ} {jobId : String}
    {j j' : Job} (hs : Unsettled j ∧ db.liveOwner cutoff j = false → Resets db j s)
    (h : Swept db cutoff j j') : Move db jobId j s j' := by
  rcases h with h | ⟨hfree, hrest⟩
  · exact .keep s j' h
  · exact .reset s j' (hs hrest) hfree

theorem move_effect {β : Type} (s : Statement β) (w : World) {jobId : String} {j : Job}
    (h : w.db.jobs.get jobId = some j) :
    ∃ j', (s.effect w).2.jobs.get jobId = some j' ∧ Move w.db jobId j s j' := by
  cases s with
  | unixNow | jobRow | sessionStartedAt | cancellableJobIds => exact move_keep _ h rfl
  | registerJobs jobs =>
    obtain ⟨j', hget, hsame⟩ := registerJobs_sameOwner w.db jobs h
    exact ⟨j', hget, .keep _ j' hsame⟩
  | claimJob sessionId now =>
    refine move_updateJobs _ w.db _ _ h fun hp => ?_
    simp only [Bool.and_eq_true, decide_eq_true_eq] at hp
    rw [← hp.1]
    exact .claim sessionId now _ hp.2 rfl rfl
  | retryFailed now id sessionId =>
    refine move_updateJobs _ w.db _ _ h fun hp => ?_
    simp only [Bool.and_eq_true, decide_eq_true_eq] at hp
    rw [← hp.1]
    exact .retry sessionId now _ hp.2.2 hp.2.1 rfl rfl
  | completeJob exitCode hashes now id sessionId =>
    refine move_updateJobs _ w.db _ _ h fun hp => ?_
    simp only [Bool.and_eq_true, decide_eq_true_eq] at hp
    exact .finish _ sessionId _ ⟨hp.1.symm, rfl⟩ hp.2.1 hp.2.2 nofun rfl
  | failJob exitCode now id sessionId =>
    refine move_updateJobs _ w.db _ _ h fun hp => ?_
    simp only [Bool.and_eq_true, decide_eq_true_eq] at hp
    exact .finish _ sessionId _ ⟨hp.1.symm, rfl⟩ hp.2.1 hp.2.2 nofun rfl
  | reconcileCompleteJob | skipJob =>
    refine move_settle h ?_ .completed (by decide) ⟨rfl, rfl⟩
    trivial
  | reconcileFailJob =>
    refine move_settle h ?_ .failed (by decide) ⟨rfl, rfl⟩
    trivial
  | setJobTimes =>
    exact move_updateJobs _ w.db _ _ h fun _ => .keep _ _ ⟨rfl, rfl⟩
  | excludeJob =>
    refine move_settle h ?_ .skipped (by decide) ⟨rfl, rfl⟩
    trivial
  | cancelJobIds | cancelJobIdsForSession =>
    refine move_cancelEach h ?_
    trivial
  | resetJobRow =>
    refine move_updateJobs _ w.db _ _ h fun hp => ?_
    simp only [Bool.and_eq_true, decide_eq_true_eq] at hp
    exact .reset _ _ hp.2 ⟨rfl, rfl⟩
  | reclaimJobsUnlessLive sessionId cutoff =>
    obtain ⟨j', hget, hmove⟩ := reclaimJobsUnlessLive_swept w.db sessionId cutoff h
    exact ⟨j', hget, move_swept _ id (swept_of_reclaimed hmove)⟩
  | resetInactiveJobRows ids cutoff =>
    obtain ⟨j', hget, hmove⟩ := resetInactiveJobRows_swept w.db ids cutoff h
    exact ⟨j', hget, move_swept _ id hmove⟩
  | createSession | heartbeat | completeSession | interruptSession => exact move_keep _ h rfl

/-! ### Missing rows -/

theorem updateJobs_get (db : Db) (p : String → Job → Bool) (f : Job → Job) (jobId : String) :
    (db.updateJobs p f).2.jobs.get jobId =
      (db.jobs.get jobId).map fun j => if p jobId j then f j else j :=
  Table.get_update p f db.jobs jobId

theorem updateJobs_key_cases {db : Db} {id jobId : String} {q : Job → Bool} {f : Job → Job}
    {j' : Job} (h : (db.updateJobs (fun i j => i = id && q j) f).2.jobs.get jobId = some j') :
    ∃ j, db.jobs.get jobId = some j ∧ (j' = j ∨ (id = jobId ∧ q j = true ∧ j' = f j)) := by
  rw [updateJobs_get] at h
  obtain ⟨j, hj, heq⟩ := Option.map_eq_some_iff.mp h
  refine ⟨j, hj, ?_⟩
  by_cases hp : (decide (jobId = id) && q j) = true
  · rw [if_pos hp] at heq
    rw [Bool.and_eq_true, decide_eq_true_eq] at hp
    exact Or.inr ⟨hp.1.symm, hp.2, heq.symm⟩
  · rw [if_neg hp] at heq
    exact Or.inl heq.symm

theorem updateJobs_none {db : Db} {p : String → Job → Bool} {f : Job → Job} {jobId : String}
    (h : db.jobs.get jobId = none) : (db.updateJobs p f).2.jobs.get jobId = none := by
  rw [updateJobs_get, h, Option.map_none]

theorem reclaimOwners_none (cutoff : ℕ) (owners : List String) (acc : ℕ × Db) {jobId : String}
    (h : acc.2.jobs.get jobId = none) :
    (Db.reclaimOwners cutoff owners acc).2.jobs.get jobId = none := by
  induction owners generalizing acc with
  | nil => exact h
  | cons owner owners ih =>
    unfold Db.reclaimOwners
    exact ih _ (updateJobs_none h)

theorem resetInactiveJobRows_none (db : Db) (ids : List String) (cutoff : ℕ) {jobId : String}
    (h : db.jobs.get jobId = none) :
    (db.resetInactiveJobRows ids cutoff).2.jobs.get jobId = none := by
  unfold Db.resetInactiveJobRows
  suffices hall : ∀ (chunks : List (List String)) (acc : ℕ × Db),
      acc.2.jobs.get jobId = none →
      (chunks.foldl (Db.resetInactiveChunk cutoff) acc).2.jobs.get jobId = none from
    hall _ (0, db) h
  intro chunks
  induction chunks with
  | nil => exact fun acc hacc => hacc
  | cons chunk chunks ih =>
    intro acc hacc
    exact ih _ (updateJobs_none (reclaimOwners_none cutoff _ acc hacc))

theorem cancelEach_none (p : Job → Bool) (now : ℕ) (ids : List String) (db : Db)
    {jobId : String} (h : db.jobs.get jobId = none) :
    (Db.cancelEach p now ids db).2.jobs.get jobId = none := by
  induction ids generalizing db with
  | nil => exact h
  | cons id ids ih =>
    unfold Db.cancelEach
    exact ih _ (updateJobs_none h)

theorem get_of_mem_cancelEach {p : Job → Bool} {now : ℕ} {ids : List String} {db : Db}
    {jobId : String} (h : jobId ∈ (Db.cancelEach p now ids db).1) :
    ∃ j, db.jobs.get jobId = some j := by
  refine Option.ne_none_iff_exists'.mp fun hnone => ?_
  induction ids generalizing db with
  | nil => cases h
  | cons id ids ih =>
    unfold Db.cancelEach at h
    dsimp only at h
    split_ifs at h with hpos
    · rcases mem_cons.mp h with rfl | hrest
      · obtain ⟨j, hj, -⟩ := (updateJobs_pos_iff _ _ _ _).mp hpos
        rw [hnone] at hj
        cases hj
      · exact ih hrest (updateJobs_none hnone)
    · exact ih h (updateJobs_none hnone)

theorem registerJobs_pending (db : Db) (jobs : List JobRecord) {jobId : String} {j' : Job}
    (h : db.jobs.get jobId = none) (h' : (db.registerJobs jobs).jobs.get jobId = some j') :
    j'.status = .pending := by
  unfold Db.registerJobs at h'
  induction jobs generalizing db with
  | nil =>
    rw [foldl_nil, h] at h'
    cases h'
  | cons r jobs ih =>
    rw [foldl_cons] at h'
    by_cases hid : jobId = r.id
    · have hnew : (db.registerJob r).jobs.get jobId = some (Db.newRow r) := by
        unfold Db.registerJob
        dsimp only
        rw [Table.get_upsert, if_pos hid, ← hid, h]
        rfl
      obtain ⟨j₁, hget, hsame⟩ := registerJobs_sameOwner _ jobs hnew
      have heq : j₁ = j' := Option.some.inj (hget.symm.trans h')
      rw [← heq, hsame.1]
      rfl
    · refine ih _ ?_ h'
      unfold Db.registerJob
      dsimp only
      rw [Table.get_upsert, if_neg hid]
      exact h

def isRegistration : {β : Type} → Statement β → Bool
  | _, .registerJobs _ => true
  | _, _ => false

theorem none_effect {β : Type} (s : Statement β) (w : World) (hs : isRegistration s = false)
    {jobId : String} (h : w.db.jobs.get jobId = none) :
    (s.effect w).2.jobs.get jobId = none := by
  cases s with
  | registerJobs => cases hs
  | claimJob | retryFailed | completeJob | resetJobRow | reclaimJobsUnlessLive =>
    exact updateJobs_none h
  | failJob | reconcileCompleteJob | reconcileFailJob | setJobTimes | skipJob | excludeJob =>
    exact updateJobs_none h
  | cancelJobIds now ids => exact cancelEach_none _ now ids w.db h
  | cancelJobIdsForSession now ids => exact cancelEach_none _ now ids w.db h
  | resetInactiveJobRows ids cutoff => exact resetInactiveJobRows_none w.db ids cutoff h
  | _ => exact h

theorem pending_of_new {β : Type} (s : Statement β) (w : World) {jobId : String} {j' : Job}
    (h : w.db.jobs.get jobId = none) (h' : (s.effect w).2.jobs.get jobId = some j') :
    j'.status = .pending := by
  cases hs : isRegistration s with
  | false => exact nomatch (none_effect s w hs h).symm.trans h'
  | true =>
    cases s with
    | registerJobs jobs => exact registerJobs_pending w.db jobs h h'
    | _ => cases hs

/-! ### The rule and the run of a row -/

def origin (j : Job) : String × Option String := (j.ruleName, j.runId)

theorem origin_updateJobs (db : Db) {p : String → Job → Bool} {f : Job → Job}
    (hf : ∀ j, origin (f j) = origin j) {jobId : String} {j : Job}
    (h : db.jobs.get jobId = some j) :
    ∃ j', (db.updateJobs p f).2.jobs.get jobId = some j' ∧ origin j' = origin j := by
  refine ⟨_, get_updateJobs db p f h, ?_⟩
  split_ifs
  · exact hf j
  · rfl

theorem origin_cancelEach (p : Job → Bool) (now : ℕ) (ids : List String) (db : Db)
    {jobId : String} {j : Job} (h : db.jobs.get jobId = some j) :
    ∃ j', (Db.cancelEach p now ids db).2.jobs.get jobId = some j' ∧ origin j' = origin j := by
  induction ids generalizing db j with
  | nil => exact ⟨j, h, rfl⟩
  | cons id ids ih =>
    unfold Db.cancelEach
    have hf : ∀ j : Job,
        origin { j with status := .cancelled, completedAt := some now } = origin j :=
      fun _ => rfl
    obtain ⟨_, hget, hrun⟩ := origin_updateJobs db (p := fun id' j => id' = id && p j) hf h
    obtain ⟨j₂, hlast, hrest⟩ := ih _ hget
    exact ⟨j₂, hlast, hrest.trans hrun⟩

theorem origin_reclaimOwners (cutoff : ℕ) (owners : List String) (acc : ℕ × Db)
    {jobId : String} {j : Job} (h : acc.2.jobs.get jobId = some j) :
    ∃ j', (Db.reclaimOwners cutoff owners acc).2.jobs.get jobId = some j' ∧
      origin j' = origin j := by
  induction owners generalizing acc j with
  | nil => exact ⟨j, h, rfl⟩
  | cons owner owners ih =>
    unfold Db.reclaimOwners
    obtain ⟨_, hget, hrun⟩ : ∃ j', (acc.2.reclaimJobsUnlessLive owner cutoff).2.jobs.get jobId =
        some j' ∧ origin j' = origin j := origin_updateJobs acc.2 (fun _ => by rfl) h
    obtain ⟨j₂, hlast, hrest⟩ :=
      ih (acc.1 + (acc.2.reclaimJobsUnlessLive owner cutoff).1,
        (acc.2.reclaimJobsUnlessLive owner cutoff).2) hget
    exact ⟨j₂, hlast, hrest.trans hrun⟩

theorem origin_resetInactiveJobRows (db : Db) (ids : List String) (cutoff : ℕ) {jobId : String}
    {j : Job} (h : db.jobs.get jobId = some j) :
    ∃ j', (db.resetInactiveJobRows ids cutoff).2.jobs.get jobId = some j' ∧
      origin j' = origin j := by
  unfold Db.resetInactiveJobRows
  suffices hall : ∀ (chunks : List (List String)) (acc : ℕ × Db) (j : Job),
      acc.2.jobs.get jobId = some j →
      ∃ j', (chunks.foldl (Db.resetInactiveChunk cutoff) acc).2.jobs.get jobId = some j' ∧
        origin j' = origin j from hall _ (0, db) j h
  intro chunks
  induction chunks with
  | nil => exact fun acc j hj => ⟨j, hj, rfl⟩
  | cons chunk chunks ih =>
    intro acc j hj
    obtain ⟨j₁, hget, hfirst⟩ :=
      origin_reclaimOwners cutoff (acc.2.deadOwners chunk cutoff) acc hj
    obtain ⟨j₂, hget₂, hsecond⟩ : ∃ j', (Db.resetInactiveChunk cutoff acc chunk).2.jobs.get
        jobId = some j' ∧ origin j' = origin j₁ := origin_updateJobs _ (fun _ => by rfl) hget
    obtain ⟨j₃, hlast, hrest⟩ := ih _ j₂ hget₂
    exact ⟨j₃, hlast, (hrest.trans hsecond).trans hfirst⟩

theorem origin_effect {β : Type} (s : Statement β) (w : World) (hs : isRegistration s = false)
    {jobId : String} {j : Job} (h : w.db.jobs.get jobId = some j) :
    ∃ j', (s.effect w).2.jobs.get jobId = some j' ∧ origin j' = origin j := by
  cases s with
  | registerJobs => cases hs
  | claimJob | retryFailed | completeJob | resetJobRow | reclaimJobsUnlessLive =>
    exact origin_updateJobs w.db (fun _ => by rfl) h
  | failJob | reconcileCompleteJob | reconcileFailJob | setJobTimes | skipJob | excludeJob =>
    exact origin_updateJobs w.db (fun _ => by rfl) h
  | cancelJobIds now ids => exact origin_cancelEach _ now ids w.db h
  | cancelJobIdsForSession now ids => exact origin_cancelEach _ now ids w.db h
  | resetInactiveJobRows ids cutoff => exact origin_resetInactiveJobRows w.db ids cutoff h
  | _ => exact ⟨j, h, rfl⟩

theorem runId_effect {β : Type} (s : Statement β) (w : World) (hs : isRegistration s = false)
    {jobId : String} {j : Job} (h : w.db.jobs.get jobId = some j) :
    ∃ j', (s.effect w).2.jobs.get jobId = some j' ∧ j'.runId = j.runId := by
  obtain ⟨j', hget, horigin⟩ := origin_effect s w hs h
  exact ⟨j', hget, congrArg Prod.snd horigin⟩

theorem rule_registerJobs (db : Db) (jobs : List JobRecord) {jobId : String} {j : Job}
    (h : db.jobs.get jobId = some j) :
    ∃ j', (db.registerJobs jobs).jobs.get jobId = some j' ∧ j'.ruleName = j.ruleName := by
  unfold Db.registerJobs
  induction jobs generalizing db j with
  | nil => exact ⟨j, h, rfl⟩
  | cons r jobs ih =>
    have hfirst : ∃ j', (db.registerJob r).jobs.get jobId = some j' ∧
        j'.ruleName = j.ruleName := by
      unfold Db.registerJob
      dsimp only
      rw [Table.get_upsert]
      by_cases hid : jobId = r.id
      · subst hid
        rw [if_pos rfl, h]
        exact ⟨_, rfl, rfl⟩
      · rw [if_neg hid]
        exact ⟨j, h, rfl⟩
    obtain ⟨_, hget, hrule⟩ := hfirst
    obtain ⟨j₂, hlast, hrest⟩ := ih (db.registerJob r) hget
    exact ⟨j₂, hlast, hrest.trans hrule⟩

theorem rule_effect {β : Type} (s : Statement β) (w : World) {jobId : String} {j : Job}
    (h : w.db.jobs.get jobId = some j) :
    ∃ j', (s.effect w).2.jobs.get jobId = some j' ∧ j'.ruleName = j.ruleName := by
  cases hs : isRegistration s with
  | true =>
    cases s with
    | registerJobs jobs => exact rule_registerJobs w.db jobs h
    | _ => cases hs
  | false =>
    obtain ⟨j', hget, horigin⟩ := origin_effect s w hs h
    exact ⟨j', hget, congrArg Prod.fst horigin⟩

theorem runId_registerJobs (db : Db) (jobs : List JobRecord) {jobId : String} {j' : Job}
    (h' : (db.registerJobs jobs).jobs.get jobId = some j') :
    (∃ j, db.jobs.get jobId = some j ∧ j'.runId = j.runId) ∨
      ∃ r ∈ jobs, r.id = jobId ∧ j'.runId = r.runId := by
  unfold Db.registerJobs at h'
  induction jobs generalizing db with
  | nil => exact Or.inl ⟨j', h', rfl⟩
  | cons r jobs ih =>
    rcases ih (db.registerJob r) h' with ⟨j, hj, hrun⟩ | ⟨q, hq, hqid, hrun⟩
    · unfold Db.registerJob at hj
      dsimp only at hj
      rw [Table.get_upsert] at hj
      by_cases hid : jobId = r.id
      · rw [if_pos hid] at hj
        have hnew : j.runId = r.runId := by
          rw [← Option.some.inj hj]
          cases db.jobs.get r.id <;> rfl
        exact Or.inr ⟨r, mem_cons_self, hid.symm, hrun.trans hnew⟩
      · rw [if_neg hid] at hj
        exact Or.inl ⟨j, hj, hrun⟩
    · exact Or.inr ⟨q, mem_cons_of_mem r hq, hqid, hrun⟩

end OxyMake.RowMoves
