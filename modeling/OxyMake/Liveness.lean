import OxyMake.RowMoves

/-!
# One notion of liveness

Whether a session is alive is asked in five places: of a job row that was read
with its owner, of a session that a view joined to a row, by the guards of the
reclaim and of the reset, which compare heartbeats with a cutoff, and through
the list of stale sessions. This module gives the questions and says when their
answers are the same.
-/

namespace OxyMake.Liveness

open List Option
open KeyedTable StateDb ClaimProtocol RowMoves

/-! ### The effective status of a row -/

def statusText : SessionStatus → String
  | .active => "active"
  | .completed => "completed"
  | .interrupted => "interrupted"

/-- The owner session's liveness inputs, as stored in the `sessions` row. -/
structure SessionLiveness where
  status : String
  heartbeatAt : ℕ
  deriving DecidableEq, Repr

/-- The session is `active` with a heartbeat younger than the lease. -/
def SessionLiveness.isLive (o : SessionLiveness) (now leaseSecs : ℕ) : Bool :=
  o.status = "active" && now - o.heartbeatAt < leaseSecs

/-- Why a `running` row is not actually running. -/
inductive OrphanReason
  | sessionInterrupted | heartbeatStale | sessionCompleted | sessionMissing
  deriving DecidableEq, Repr

/-- What a job row is, once the owner's liveness is taken into account. -/
inductive EffectiveStatus
  | pending
  | running
  | orphaned (since : Option ℕ) (reason : OrphanReason)
  | completed
  | failed
  | skipped
  | cancelled
  | other (declared : String)
  deriving DecidableEq, Repr

/-- Why the row of a session that is not live is orphaned. -/
def orphanReason (o : SessionLiveness) : OrphanReason :=
  if o.status = "interrupted" then .sessionInterrupted
  else if o.status = "completed" then .sessionCompleted
  else .heartbeatStale

def effectiveStatus (declared : String) (startedAt : Option ℕ) (owner : Option SessionLiveness)
    (now leaseSecs : ℕ) : EffectiveStatus :=
  if declared = "pending" then .pending
  else if declared = "completed" then .completed
  else if declared = "failed" then .failed
  else if declared = "skipped" then .skipped
  else if declared = "cancelled" then .cancelled
  else if declared = "running" then
    match owner with
    | some o =>
      if o.isLive now leaseSecs then .running else .orphaned startedAt (orphanReason o)
    | none => .orphaned startedAt .sessionMissing
  else .other declared

/-- What a view joins of the session that owns a row. -/
def ownerLiveness (db : Db) (j : Job) : Option SessionLiveness :=
  (j.sessionId.bind db.sessions.get).map fun s => ⟨statusText s.status, s.heartbeatAt⟩

theorem effectiveStatus_running_iff (startedAt : Option ℕ) (owner : Option SessionLiveness)
    (now leaseSecs : ℕ) : effectiveStatus "running" startedAt owner now leaseSecs = .running ↔
      ∃ o, owner = some o ∧ o.isLive now leaseSecs = true := by
  have heq : effectiveStatus "running" startedAt owner now leaseSecs =
      match owner with
      | some o =>
        if o.isLive now leaseSecs then .running else .orphaned startedAt (orphanReason o)
      | none => .orphaned startedAt .sessionMissing := rfl
  rw [heq]
  cases owner with
  | none => simp only [reduceCtorEq, false_and, exists_false]
  | some o =>
    by_cases hlive : o.isLive now leaseSecs = true
    · simp only [hlive, if_true, Option.some.injEq, exists_eq_left']
    · simp only [hlive, if_false, Option.some.injEq, exists_eq_left', reduceCtorEq,
        Bool.false_eq_true]

/-! ### The statements that compare heartbeats with a cutoff -/

/-- SQLite binds an unsigned value only if it is a signed one. -/
def bindUnsigned (n : ℕ) : Option ℕ := if n ≤ maxCutoff then some n else none

/-- Find the `active` sessions whose heartbeat is older than a threshold. -/
def findStaleSessions (db : Db) (thresholdSecs now : ℕ) : Option (List String) :=
  (bindUnsigned (now - thresholdSecs)).map fun cutoff =>
    db.sessions.select fun _ s => s.status = .active && s.heartbeatAt < cutoff

/-- The session is `active` and not listed as stale. -/
def activeUnlisted (db : Db) (sessionId : String) (leaseSecs now : ℕ) : Option Bool :=
  (findStaleSessions db leaseSecs now).map fun stale =>
    (db.sessions.get sessionId).any (·.status = .active) && sessionId ∉ stale

/-- The guard of the reclaim keeps the rows of the session. -/
def reclaimGuard (db : Db) (sessionId : String) (leaseSecs now : ℕ) : Option Bool :=
  (bindUnsigned (now - leaseSecs)).map (db.liveSession sessionId)

def resetGuard (db : Db) (j : Job) (leaseSecs now : ℕ) : Option Bool :=
  (bindUnsigned (now - leaseSecs)).map (db.liveOwner · j)

/-- The database after a reclaim from an owner that is not live now. -/
def reclaimNow (db : Db) (owner : String) (leaseSecs now : ℕ) : Db :=
  match bindUnsigned (now - leaseSecs) with
  | some cutoff => (db.reclaimJobsUnlessLive owner cutoff).2
  | none => db

/-- The database after a reset of the rows that no session live now owns. -/
def resetNow (db : Db) (ids : List String) (leaseSecs now : ℕ) : Db :=
  match bindUnsigned (now - leaseSecs) with
  | some cutoff => (db.resetInactiveJobRows ids cutoff).2
  | none => db

def Taken (db : Db) (jobId : String) : Prop := ∃ j, db.jobs.get jobId = some j ∧ Freed j

theorem taken_reclaim_iff {db : Db} {jobId : String} {j : Job} (h : db.jobs.get jobId = some j)
    (hrunning : j.status = .running) (owner : String) (cutoff : ℕ) :
    Taken (db.reclaimJobsUnlessLive owner cutoff).2 jobId ↔
      j.sessionId = some owner ∧ db.liveSession owner cutoff = false := by
  have hget := get_updateJobs db
    (fun _ j => j.sessionId = some owner && j.status = .running && !db.liveSession owner cutoff)
    (fun j => { j with status := .pending, sessionId := none, lockedBy := none,
                       startedAt := none }) h
  have hafter : (db.reclaimJobsUnlessLive owner cutoff).2.jobs.get jobId = _ := hget
  constructor
  · rintro ⟨_, hj', hfreed⟩
    rw [hafter] at hj'
    cases hj'
    split_ifs at hfreed with hp
    · simp only [Bool.and_eq_true, decide_eq_true_eq, Bool.not_eq_true'] at hp
      exact ⟨hp.1.1, hp.2⟩
    · exact nomatch hfreed.1.symm.trans hrunning
  · rintro ⟨howner, hdead⟩
    refine ⟨_, hafter, ?_⟩
    rw [if_pos (by simp only [howner, hrunning, hdead, decide_true, Bool.not_false, Bool.and_self])]
    exact ⟨rfl, rfl⟩

theorem freed_of_swept {db : Db} {cutoff : ℕ} {j j' : Job} (hfreed : Freed j)
    (h : Swept db cutoff j j') : Freed j' := by
  rcases h with h | h
  · exact ⟨h.1.trans hfreed.1, h.2.trans hfreed.2⟩
  · exact h.1

theorem taken_resetInactiveChunk {cutoff : ℕ} {acc : ℕ × Db} {chunk : List String}
    {jobId : String} (hmem : jobId ∈ chunk) {j : Job} (h : acc.2.jobs.get jobId = some j)
    (hrunning : j.status = .running) (hdead : acc.2.liveOwner cutoff j = false) :
    Taken (Db.resetInactiveChunk cutoff acc chunk).2 jobId := by
  obtain ⟨j₁, hget, hfirst⟩ :=
    reclaimOwners_swept cutoff (acc.2.deadOwners chunk cutoff) acc h
  have hlive := liveSession_reclaimOwners cutoff (acc.2.deadOwners chunk cutoff) acc
  have hlast := get_updateJobs (Db.reclaimOwners cutoff (acc.2.deadOwners chunk cutoff) acc).2
    (fun id j => id ∈ chunk &&
      (!(j.status = .pending || j.status = .completed || j.status = .skipped)
        && !(Db.reclaimOwners cutoff (acc.2.deadOwners chunk cutoff) acc).2.liveOwner cutoff j))
    Db.resetRow hget
  refine ⟨_, hlast, ?_⟩
  have hone : Freed j₁ ∨ (j₁.status = .running ∧ acc.2.liveOwner cutoff j₁ = false) := by
    rcases hfirst with hsame | ⟨hfreed, -, -⟩
    · refine Or.inr ⟨hsame.1.trans hrunning, ?_⟩
      unfold Db.liveOwner at hdead ⊢
      rw [hsame.2]
      exact hdead
    · exact Or.inl hfreed
  split_ifs with hp
  · exact ⟨rfl, rfl⟩
  · rcases hone with hfreed | ⟨hstill, hdead⟩
    · exact hfreed
    · rw [liveOwner_congr hlive, hdead, hstill] at hp
      simp only [hmem, reduceCtorEq, decide_true, decide_false, Bool.or_self, Bool.not_false,
        Bool.and_self, not_true_eq_false] at hp

theorem flatten_toChunks_go {α : Type} (n : ℕ) (xs : List α) (chunk : Array α)
    (chunks : Array (List α)) : (List.toChunks.go n xs chunk chunks).flatten =
      chunks.toList.flatten ++ chunk.toList ++ xs := by
  induction xs generalizing chunk chunks with
  | nil =>
    simp only [List.toChunks.go, Array.toList_push, flatten_append, flatten_cons,
      flatten_nil, append_nil]
  | cons x xs ih =>
    unfold List.toChunks.go
    split_ifs
    · have hfirst : ((Array.mkEmpty n).push x).toList = [x] := rfl
      rw [ih, hfirst, Array.toList_push, flatten_append, flatten_cons, flatten_nil,
        append_nil, append_assoc, singleton_append]
    · rw [ih, Array.toList_push, append_assoc, append_assoc, append_assoc,
        singleton_append]

theorem flatten_toChunks {α : Type} (n : ℕ) (xs : List α) : (xs.toChunks n).flatten = xs := by
  cases xs with
  | nil => rfl
  | cons x xs =>
    cases n with
    | zero => simp only [List.toChunks, flatten_cons, flatten_nil, append_nil]
    | succ n =>
      have heq : (x :: xs).toChunks (n + 1) = List.toChunks.go (n + 1) xs #[x] #[] := rfl
      rw [heq, flatten_toChunks_go]
      rfl

theorem taken_foldl {cutoff : ℕ} {jobId : String} (chunks : List (List String)) {acc : ℕ × Db}
    {j : Job} (h : acc.2.jobs.get jobId = some j)
    (hrow : Freed j ∨ (j.status = .running ∧ acc.2.liveOwner cutoff j = false ∧
      jobId ∈ chunks.flatten)) :
    Taken (chunks.foldl (Db.resetInactiveChunk cutoff) acc).2 jobId := by
  induction chunks generalizing acc j with
  | nil =>
    rcases hrow with hfreed | ⟨-, -, hmem⟩
    · exact ⟨j, h, hfreed⟩
    · cases hmem
  | cons chunk chunks ih =>
    obtain ⟨_, hget, hswept⟩ := resetInactiveChunk_swept cutoff acc chunk h
    have hlive := liveSession_resetInactiveChunk cutoff acc chunk
    rcases hrow with hfreed | ⟨hrunning, hdead, hmem⟩
    · exact ih hget (Or.inl (freed_of_swept hfreed hswept))
    · by_cases hchunk : jobId ∈ chunk
      · obtain ⟨_, hj₂, hfreed⟩ :=
          taken_resetInactiveChunk hchunk h hrunning hdead
        exact ih hj₂ (Or.inl hfreed)
      · rcases hswept with hsame | ⟨hfreed, -, -⟩
        · refine ih hget (Or.inr ⟨hsame.1.trans hrunning, ?_, ?_⟩)
          · rw [liveOwner_congr hlive]
            unfold Db.liveOwner at hdead ⊢
            rw [hsame.2]
            exact hdead
          · rw [flatten_cons] at hmem
            exact (mem_append.mp hmem).resolve_left hchunk
        · exact ih hget (Or.inl hfreed)

theorem taken_reset_iff {db : Db} {jobId : String} {j : Job} (h : db.jobs.get jobId = some j)
    (hrunning : j.status = .running) {ids : List String} (hmem : jobId ∈ ids) (cutoff : ℕ) :
    Taken (db.resetInactiveJobRows ids cutoff).2 jobId ↔ db.liveOwner cutoff j = false := by
  constructor
  · rintro ⟨_, hj', hfreed⟩
    obtain ⟨_, hj₁, hswept⟩ := resetInactiveJobRows_swept db ids cutoff h
    rw [hj₁] at hj'
    cases hj'
    rcases hswept with hsame | ⟨-, -, hdead⟩
    · exact nomatch hfreed.1.symm.trans (hsame.1.trans hrunning)
    · exact hdead
  · intro hdead
    have hchunks : jobId ∈ (ids.toChunks Db.idChunk).flatten := by
      rw [flatten_toChunks]
      exact hmem
    have hstart : ((0, db) : ℕ × Db).2.jobs.get jobId = some j := h
    exact taken_foldl _ hstart (Or.inr ⟨hrunning, hdead, hchunks⟩)

/-! ### The answers -/

/-- The liveness a view joins of a session row. -/
def liveness (s : Session) : SessionLiveness := ⟨statusText s.status, s.heartbeatAt⟩

/-- All questions about a session have one answer. -/
structure Agree (db : Db) (sessionId : String) (s : Session) (leaseSecs now : ℕ) : Prop where
  /-- A row read with its owner. -/
  row : ∀ row : JobRow, row.owner = some (s.status, s.heartbeatAt) →
    row.ownerLive leaseSecs now = (liveness s).isLive now leaseSecs
  reclaim : reclaimGuard db sessionId leaseSecs now = some ((liveness s).isLive now leaseSecs)
  reset : ∀ j : Job, j.sessionId = some sessionId →
    resetGuard db j leaseSecs now = some ((liveness s).isLive now leaseSecs)
  unlisted : activeUnlisted db sessionId leaseSecs now =
    some ((liveness s).isLive now leaseSecs)

/-- A running row is effectively running exactly when neither a reclaim nor a reset of its
job would take it now. -/
def RunningExactly (db : Db) (jobId : String) (j : Job) (leaseSecs now : ℕ) : Prop :=
  ∀ ids, jobId ∈ ids →
    (effectiveStatus "running" j.startedAt (ownerLiveness db j) now leaseSecs = .running ↔
      ¬ ((∃ owner, Taken (reclaimNow db owner leaseSecs now) jobId) ∨
        Taken (resetNow db ids leaseSecs now) jobId))

/-- The cutoff can be bound, and no heartbeat of an `active` session lies on the boundary
or, under no lease at all, in the future. -/
def OffBoundary (s : Session) (leaseSecs now : ℕ) : Prop :=
  now - leaseSecs ≤ maxCutoff ∧
    (s.status = .active → s.heartbeatAt ≠ now - leaseSecs ∧ ¬ (leaseSecs = 0 ∧ now < s.heartbeatAt))

theorem ownerLive_eq {row : JobRow} {s : Session}
    (h : row.owner = some (s.status, s.heartbeatAt)) (leaseSecs now : ℕ) :
    row.ownerLive leaseSecs now = (liveness s).isLive now leaseSecs := by
  unfold JobRow.ownerLive SessionLiveness.isLive liveness
  rw [h]
  cases s.status with
  | active | completed | interrupted => rfl

theorem isLive_liveness (s : Session) (leaseSecs now : ℕ) :
    (liveness s).isLive now leaseSecs =
      (decide (s.status = .active) && decide (now - s.heartbeatAt < leaseSecs)) := by
  unfold SessionLiveness.isLive liveness
  cases s.status with
  | active | completed | interrupted => rfl

theorem and_decide_eq_iff {a b c : Prop} [Decidable a] [Decidable b] [Decidable c] :
    (decide a && decide b) = (decide a && decide c) ↔ (a → (b ↔ c)) := by
  by_cases ha : a
  · simp only [ha, decide_true, Bool.true_and, decide_eq_decide, true_implies]
  · simp only [ha, decide_false, Bool.false_and, false_implies]

section Session

variable {db : Db} {sessionId : String} {s : Session}

theorem liveSession_eq (hs : db.sessions.get sessionId = some s) (cutoff : ℕ) :
    db.liveSession sessionId cutoff =
      (decide (s.status = .active) && decide (cutoff < s.heartbeatAt)) := by
  unfold Db.liveSession
  rw [hs]

theorem activeUnlisted_eq (hs : db.sessions.get sessionId = some s) {leaseSecs now : ℕ}
    (hbind : now - leaseSecs ≤ maxCutoff) : activeUnlisted db sessionId leaseSecs now =
      some (decide (s.status = .active) && decide (now - leaseSecs ≤ s.heartbeatAt)) := by
  unfold activeUnlisted findStaleSessions bindUnsigned
  rw [if_pos hbind, map_some, map_some, hs, any_some]
  congr 1
  have hlisted : sessionId ∈ db.sessions.select
      (fun _ s => s.status = .active && s.heartbeatAt < now - leaseSecs) ↔
      s.status = .active ∧ s.heartbeatAt < now - leaseSecs := by
    rw [Table.mem_select_iff]
    constructor
    · rintro ⟨_, hs', hp⟩
      rw [hs] at hs'
      cases hs'
      simpa only [Bool.and_eq_true, decide_eq_true_eq] using hp
    · intro hp
      refine ⟨s, hs, ?_⟩
      simpa only [Bool.and_eq_true, decide_eq_true_eq] using hp
  rw [and_decide_eq_iff]
  intro hactive
  rw [hlisted, not_and, Nat.not_lt]
  exact ⟨fun h => h hactive, fun h _ => h⟩

theorem views_agree_iff (hs : db.sessions.get sessionId = some s) (leaseSecs now : ℕ) :
    Agree db sessionId s leaseSecs now ↔ OffBoundary s leaseSecs now := by
  constructor
  · intro h
    have hbind : now - leaseSecs ≤ maxCutoff := by
      by_contra hlarge
      have hguard := h.reclaim
      unfold reclaimGuard bindUnsigned at hguard
      rw [if_neg hlarge] at hguard
      cases hguard
    refine ⟨hbind, fun hactive => ?_⟩
    have hguard := h.reclaim
    have hlist := h.unlisted
    unfold reclaimGuard bindUnsigned at hguard
    rw [if_pos hbind, map_some, liveSession_eq hs, isLive_liveness, Option.some.injEq,
      and_decide_eq_iff] at hguard
    rw [activeUnlisted_eq hs hbind, isLive_liveness, Option.some.injEq, and_decide_eq_iff] at hlist
    have hstrict := hguard hactive
    have hweak := hlist hactive
    omega
  · rintro ⟨hbind, hactive⟩
    have hguard : (decide (s.status = .active) && decide (now - leaseSecs < s.heartbeatAt)) =
        (liveness s).isLive now leaseSecs := by
      rw [isLive_liveness, and_decide_eq_iff]
      intro h
      obtain ⟨hne, hlease⟩ := hactive h
      omega
    have hlist : (decide (s.status = .active) && decide (now - leaseSecs ≤ s.heartbeatAt)) =
        (liveness s).isLive now leaseSecs := by
      rw [isLive_liveness, and_decide_eq_iff]
      intro h
      obtain ⟨hne, hlease⟩ := hactive h
      omega
    have hreclaim : reclaimGuard db sessionId leaseSecs now =
        some ((liveness s).isLive now leaseSecs) := by
      unfold reclaimGuard bindUnsigned
      rw [if_pos hbind, map_some, liveSession_eq hs, hguard]
    refine ⟨fun row hrow => ownerLive_eq hrow leaseSecs now, hreclaim, ?_, ?_⟩
    · intro j hj
      have hsame : resetGuard db j leaseSecs now = reclaimGuard db sessionId leaseSecs now := by
        unfold resetGuard reclaimGuard Db.liveOwner
        rw [hj]
      rw [hsame, hreclaim]
    · rw [activeUnlisted_eq hs hbind, hlist]

end Session

theorem runningExactly_of_guard {db : Db} {jobId : String} {j : Job}
    (h : db.jobs.get jobId = some j) (hrunning : j.status = .running) {leaseSecs now : ℕ}
    {live : Bool} (hguard : resetGuard db j leaseSecs now = some live)
    (hview : (∃ o, ownerLiveness db j = some o ∧ o.isLive now leaseSecs = true) ↔ live = true) :
    RunningExactly db jobId j leaseSecs now := by
  intro ids hmem
  rw [effectiveStatus_running_iff, hview]
  unfold resetGuard at hguard
  unfold reclaimNow resetNow
  cases hbind : bindUnsigned (now - leaseSecs) with
  | none =>
    rw [hbind] at hguard
    cases hguard
  | some cutoff =>
    rw [hbind, map_some, Option.some.injEq] at hguard
    dsimp only
    rw [taken_reset_iff h hrunning hmem, hguard]
    have hreclaim : (∃ owner, Taken (db.reclaimJobsUnlessLive owner cutoff).2 jobId) →
        live = false := by
      rintro ⟨owner, htaken⟩
      obtain ⟨howner, hdead⟩ := (taken_reclaim_iff h hrunning owner cutoff).mp htaken
      rw [← hguard]
      unfold Db.liveOwner
      rw [howner]
      exact hdead
    cases live with
    | true =>
      refine ⟨fun _ htaken => ?_, fun _ => rfl⟩
      rcases htaken with htaken | htaken
      · exact absurd (hreclaim htaken) (by decide)
      · exact absurd htaken (by decide)
    | false =>
      refine ⟨fun hfalse => absurd hfalse (by decide), fun hnot => ?_⟩
      exact absurd (Or.inr rfl) hnot

/-- The questions about a session have one answer, and every running row of the session or of
no session at all is effectively running exactly when it would not be taken, if and only if
the cutoff can be bound and the heartbeat is off the boundary. -/
theorem liveness_agrees_iff (db : Db) (sessionId : String) (s : Session)
    (hs : db.sessions.get sessionId = some s) (leaseSecs now : ℕ) :
    (Agree db sessionId s leaseSecs now ∧
      ∀ jobId j, db.jobs.get jobId = some j → j.status = .running →
        (j.sessionId = some sessionId ∨ j.sessionId.bind db.sessions.get = none) →
          RunningExactly db jobId j leaseSecs now) ↔
      OffBoundary s leaseSecs now := by
  refine ⟨fun h => (views_agree_iff hs leaseSecs now).mp h.1, fun hoff => ?_⟩
  have hagree : Agree db sessionId s leaseSecs now := (views_agree_iff hs leaseSecs now).mpr hoff
  refine ⟨hagree, ?_⟩
  intro jobId j hj hrunning howner
  rcases howner with howner | hmissing
  · refine runningExactly_of_guard hj hrunning (hagree.reset j howner) ?_
    have hview : ownerLiveness db j = some (liveness s) := by
      unfold ownerLiveness
      rw [howner, bind_some, hs]
      rfl
    rw [hview]
    simp only [Option.some.injEq, exists_eq_left']
  · have hdead : resetGuard db j leaseSecs now = some false := by
      unfold resetGuard bindUnsigned Db.liveOwner
      rw [if_pos hoff.1, map_some]
      cases howner : j.sessionId with
      | none => rfl
      | some =>
        rw [howner, bind_some] at hmissing
        unfold Db.liveSession
        dsimp only
        rw [hmissing]
    refine runningExactly_of_guard hj hrunning hdead ?_
    have hview : ownerLiveness db j = none := by
      unfold ownerLiveness
      rw [hmissing]
      rfl
    rw [hview]
    simp only [reduceCtorEq, false_and, exists_false, Bool.false_eq_true]

/-- A session with its last heartbeat at ten seconds that runs a job. -/
def observed : Db where
  jobs := Table.empty.upsert "j" { Db.newRow ⟨"j", "rule", "", none, none⟩ with
    status := .running, sessionId := some "s", lockedBy := some "s", startedAt := some 5 } id
  sessions := Table.empty.upsert "s" ⟨1, "host", 5, none, 10, .active⟩ id

/-- Within its lease the session is live for everybody, and its job effectively running. -/
theorem liveness_agrees_within :
    Agree observed "s" ⟨1, "host", 5, none, 10, .active⟩ 90 50 ∧
      ∃ j, observed.jobs.get "j" = some j ∧ RunningExactly observed "j" j 90 50 := by
  have h := (liveness_agrees_iff observed "s" ⟨1, "host", 5, none, 10, .active⟩ rfl 90 50).mpr
    ⟨by decide, fun _ => by decide⟩
  exact ⟨h.1, _, rfl, h.2 "j" _ rfl rfl (Or.inl rfl)⟩

/-- One lease after its heartbeat the session is dead for its peers and its readers and yet
not listed as stale. -/
theorem not_liveness_agrees :
    ¬ ∀ (db : Db) (sessionId : String) (s : Session), db.sessions.get sessionId = some s →
      ∀ leaseSecs now, Agree db sessionId s leaseSecs now := by
  intro h
  have hunlisted := (h observed "s" ⟨1, "host", 5, none, 10, .active⟩ rfl 90 100).unlisted
  have hlisted : activeUnlisted observed "s" 90 100 = some true := by decide
  rw [hlisted] at hunlisted
  exact absurd hunlisted (by decide)

end OxyMake.Liveness
