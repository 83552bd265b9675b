import OxyMake.ClaimDiscipline

/-!
# What a waiting session is told about a completion

A session that lost a claim waits and asks `peer_job_state` for the outcome of
its peer. The answer `Completed` is read off a `completed` or `skipped` row. A
row reaches these statuses by a recorded completion, by a cache hit, or because
another session left the job out of its own selection; the last does not need
that anybody ran the job.
-/

namespace OxyMake.PeerCompletions

open List
open StateDb Interleaving LabelledRuns ClaimProtocol RowMoves ClaimDiscipline

/-! ### Statements that make a row consumable -/

/-- The statuses that a waiting session takes for a completion. -/
def Consumable (status : JobStatus) : Prop := status = .completed ∨ status = .skipped

/-- The statement finds the row of the job and records its completion or a cache hit. -/
def Records (jobId : String) : {β : Type} → Statement β → World → Prop
  | _, .completeJob exitCode hashes now id sessionId, w =>
    id = jobId ∧ 0 < (w.db.completeJob exitCode hashes now id sessionId).1
  | _, .reconcileCompleteJob exitCode hashes now id, w =>
    id = jobId ∧ 0 < (w.db.reconcileCompleteJob exitCode hashes now id).1
  | _, .skipJob now id, w => id = jobId ∧ 0 < (w.db.skipJob now id).1
  | _, _, _ => False

/-- The statement leaves the job out of a selection while its row is `pending`. -/
def ExcludesPending (jobId : String) : {β : Type} → Statement β → World → Prop
  | _, .excludeJob id, w => id = jobId ∧ Pending w jobId
  | _, _, _ => False

/-- The kind of statement that leaves a job out. -/
def isExclusion : {β : Type} → Statement β → Bool
  | _, .excludeJob _ => true
  | _, _ => false

/-- The kinds of statements that record a completion or a cache hit. -/
def isRecording : {β : Type} → Statement β → Bool
  | _, .completeJob .. => true
  | _, .reconcileCompleteJob .. => true
  | _, .skipJob .. => true
  | _, _ => false

theorem ExcludesPending.isExclusion {jobId : String} {β : Type} {s : Statement β} {w : World}
    (h : ExcludesPending jobId s w) : isExclusion s = true := by
  unfold ExcludesPending at h
  split at h
  · rfl
  · cases h

theorem Records.isRecording {jobId : String} {β : Type} {s : Statement β} {w : World}
    (h : Records jobId s w) : isRecording s = true := by
  unfold Records at h
  split at h
  · rfl
  · rfl
  · rfl
  · cases h

theorem consumable_updateJobs {db : Db} {id jobId : String} {q : Job → Bool} {f : Job → Job}
    {j' : Job} (h : (db.updateJobs (fun i j => i = id && q j) f).2.jobs.get jobId = some j')
    (hj' : Consumable j'.status) :
    ∃ j, db.jobs.get jobId = some j ∧
      (Consumable j.status ∨ (id = jobId ∧ q j = true ∧ j' = f j)) := by
  obtain ⟨j, hj, hsame | hchanged⟩ := updateJobs_key_cases h
  · rw [hsame] at hj'
    exact ⟨j, hj, Or.inl hj'⟩
  · exact ⟨j, hj, Or.inr hchanged⟩

theorem consumable_of_move {db : Db} {jobId : String} {j j' : Job} {β : Type}
    {s : Statement β} (hs : ¬ Settles s) (hf : ∀ sessionId, ¬ Finishes jobId sessionId s)
    (h : Move db jobId j s j') (hj' : Consumable j'.status) : Consumable j.status := by
  have hnot : ∀ status, j'.status = status → status ≠ .completed → status ≠ .skipped →
      Consumable j.status := by
    intro status heq hc hsk
    rcases hj' with hj' | hj'
    · exact absurd (heq.symm.trans hj') hc
    · exact absurd (heq.symm.trans hj') hsk
  cases h with
  | keep _ _ hsame =>
    rw [hsame.1] at hj'
    exact hj'
  | claim sessionId now _ _ hrun _ => exact hnot _ hrun (by decide) (by decide)
  | retry sessionId now _ _ _ hrun _ => exact hnot _ hrun (by decide) (by decide)
  | finish _ sessionId _ hfin => exact absurd hfin (hf sessionId)
  | settle _ _ hset => exact absurd hset hs
  | reset _ _ _ hfree => exact hnot _ hfree.1 (by decide) (by decide)

theorem consumable_cancelEach {p : Job → Bool} {now : ℕ} {ids : List String} {db : Db}
    {jobId : String} {j j' : Job} (h : db.jobs.get jobId = some j)
    (h' : (Db.cancelEach p now ids db).2.jobs.get jobId = some j')
    (hj' : Consumable j'.status) : Consumable j.status := by
  obtain ⟨j₁, hget, hmove⟩ := cancelEach_cancels p now ids db h
  have heq : j₁ = j' := Option.some.inj (hget.symm.trans h')
  subst heq
  rcases hmove with hsame | ⟨hcancelled, -⟩
  · rw [hsame.1] at hj'
    exact hj'
  · unfold Consumable at hj'
    rw [hcancelled] at hj'
    simp at hj'

theorem consumable_of_effect {β : Type} (s : Statement β) (w : World) {jobId : String}
    {j' : Job} (h' : (s.effect w).2.jobs.get jobId = some j') (hj' : Consumable j'.status) :
    (∃ j, w.db.jobs.get jobId = some j ∧ Consumable j.status) ∨ Records jobId s w ∨
      ExcludesPending jobId s w := by
  cases hget : w.db.jobs.get jobId with
  | none =>
    have hnew := pending_of_new s w hget h'
    unfold Consumable at hj'
    rw [hnew] at hj'
    simp at hj'
  | some j =>
    have hmove : ¬ Settles s → (∀ sessionId, ¬ Finishes jobId sessionId s) →
        (∃ i, some j = some i ∧ Consumable i.status) ∨ Records jobId s w ∨
          ExcludesPending jobId s w := by
      intro hs hf
      obtain ⟨j₁, hj₁, hmv⟩ := move_effect s w hget
      have heq : j₁ = j' := Option.some.inj (hj₁.symm.trans h')
      subst heq
      exact Or.inl ⟨j, rfl, consumable_of_move hs hf hmv hj'⟩
    cases s with
    | completeJob | reconcileCompleteJob | skipJob =>
      obtain ⟨i, hi, hold | ⟨hid, hq, -⟩⟩ := consumable_updateJobs h' hj'
      · exact Or.inl ⟨i, hget.symm.trans hi, hold⟩
      · subst hid
        exact Or.inr (Or.inl ⟨rfl, (updateJobs_pos_iff _ _ _ _).mpr ⟨i, hi, hq⟩⟩)
    | failJob | reconcileFailJob =>
      obtain ⟨i, hi, hold | ⟨-, -, heq⟩⟩ := consumable_updateJobs h' hj'
      · exact Or.inl ⟨i, hget.symm.trans hi, hold⟩
      · subst heq
        simp [Consumable] at hj'
    | excludeJob =>
      obtain ⟨i, hi, hold | ⟨hid, hq, -⟩⟩ := consumable_updateJobs h' hj'
      · exact Or.inl ⟨i, hget.symm.trans hi, hold⟩
      · subst hid
        simp only [Db.skippable, Bool.or_eq_true, decide_eq_true_eq] at hq
        rcases hq with (hpending | hcompleted) | hskipped
        · exact Or.inr (Or.inr ⟨rfl, i, hi, hpending⟩)
        · exact Or.inl ⟨i, hget.symm.trans hi, Or.inl hcompleted⟩
        · exact Or.inl ⟨i, hget.symm.trans hi, Or.inr hskipped⟩
    | cancelJobIds => exact Or.inl ⟨j, rfl, consumable_cancelEach hget h' hj'⟩
    | cancelJobIdsForSession =>
      exact Or.inl ⟨j, rfl, consumable_cancelEach hget h' hj'⟩
    | _ => exact hmove (fun hs => nomatch hs) (fun _ hf => nomatch hf)

/-! ### Completions recorded since the row was last pending -/

/-- Some statement of the log recorded the completion of the job or a cache hit for it, and
the row has not been `pending` since. -/
def Recorded (jobId : String) (log : List Event) : Prop :=
  ∃ earlier e later, log = earlier ++ e :: later ∧ Records jobId e.statement.2 e.before ∧
    ∀ f ∈ later, ¬ Pending f.after jobId

theorem Recorded.extend {jobId : String} {log : List Event} (h : Recorded jobId log) {e : Event}
    (he : ¬ Pending e.after jobId) : Recorded jobId (log ++ [e]) := by
  obtain ⟨earlier, r, later, rfl, hr, hlater⟩ := h
  refine ⟨earlier, r, later ++ [e], by rw [append_assoc, cons_append], hr, ?_⟩
  intro f hf
  rcases mem_append.mp hf with hf | hf
  · exact hlater f hf
  · rw [mem_singleton.mp hf]
    exact he

/-- A consumable row has a completion or a cache hit recorded since it was last `pending`. -/
def Backed (jobId : String) (log : List Event) (x : Sessions) : Prop :=
  ∀ j, x.world.db.jobs.get jobId = some j → Consumable j.status → Recorded jobId log

theorem Backed.step {leaseSecs : ℕ} {jobId : String} {log : List Event} {x y : Sessions}
    {label : Option Event} (h : Backed jobId log x)
    (hlabel : ∀ e ∈ label, ¬ ExcludesPending jobId e.statement.2 e.before)
    (hstep : Step (sessions leaseSecs) x label y) : Backed jobId (log ++ label.toList) y := by
  intro j hj hcons
  cases hstep with
  | call | abort =>
    rw [Option.toList_none, append_nil]
    exact h j hj hcons
  | execute c op s k r w hcall hexec =>
    rw [Option.toList_some]
    have hw := (exec_eq_some hexec).2
    have hjnext : (s.effect x.world).2.jobs.get jobId = some j := by
      have hjw : w.db.jobs.get jobId = some j := hj
      rw [hw] at hjw
      exact hjw
    have hnot : ¬ Pending w jobId := by
      intro hpending
      obtain ⟨i, hi, hstatus⟩ := hpending
      have heq : i = j := Option.some.inj (hi.symm.trans hj)
      subst heq
      unfold Consumable at hcons
      rw [hstatus] at hcons
      simp at hcons
    rcases consumable_of_effect s x.world hjnext hcons with ⟨i, hi, hold⟩ | hrec | hexcl
    · exact (h i hi hold).extend hnot
    · exact ⟨log, _, [], rfl, hrec, fun f hf => nomatch hf⟩
    · exact absurd hexcl (hlabel _ rfl)
  | drift w hw =>
    rw [Option.toList_none, append_nil]
    have hdb : w.db.jobs.get jobId = some j := hj
    rw [hw.1] at hdb
    exact h j hdb hcons

theorem Backed.run {leaseSecs : ℕ} {jobId : String} {past log : List Event} {x y : Sessions}
    (h : Backed jobId past x) (hrun : Run (Step (sessions leaseSecs)) x log y)
    (hlog : ∀ e ∈ log, ¬ ExcludesPending jobId e.statement.2 e.before) :
    Backed jobId (past ++ log) y := by
  refine Run.recorded_if (fun _ e => ¬ ExcludesPending jobId e.statement.2 e.before)
    (fun _ _ _ _ hx hstep hlabel => hx.step hlabel hstep) hrun h ?_
  intro pre e post heq
  refine hlog e ?_
  rw [heq]
  exact mem_append_right _ mem_cons_self

/-! ### The answer of `peer_job_state` -/

/-- What `peer_job_state` does once it has read the row. -/
def afterRead (leaseSecs : ℕ) (jobId : String) (row : Option JobRow) : Program Outcome :=
  .peer <$> (match row with
    | none => return .unclaimed
    | some row => do
      let now ← run .unixNow
      peerVerdict leaseSecs jobId row (row.ownerLive leaseSecs now))

theorem program_peerJobState (leaseSecs : ℕ) (jobId : String) :
    (sessions leaseSecs).program (.peerJobState jobId) =
      .stmt (.jobRow jobId) (afterRead leaseSecs jobId) := rfl

theorem afterRead_returns (leaseSecs : ℕ) (jobId : String) (row : Option JobRow) :
    (afterRead leaseSecs jobId row).Returns fun outcome =>
      outcome = .peer .completed → ∃ r, row = some r ∧ Consumable r.status := by
  cases row with
  | none =>
    intro hout
    cases hout
  | some r =>
    intro now
    change (peerVerdict leaseSecs jobId r (r.ownerLive leaseSecs now) >>= fun state =>
      Prog.ret (Outcome.peer state)).Returns _
    unfold peerVerdict
    split
    · intro hout
      cases hout
    · rename_i hstatus
      exact fun _ => ⟨r, rfl, Or.inl hstatus⟩
    · rename_i hstatus
      exact fun _ => ⟨r, rfl, Or.inr hstatus⟩
    · intro hout
      cases hout
    · intro hout
      cases hout
    · intro hout
      cases hout
    · rw [Prog.bind_bind]
      refine Prog.Returns.bind _ ?_
      intro released hout
      cases hout

/-- A call of `peer_job_state` that returned `Completed` read the row at a moment when a
completion or a cache hit had been recorded since the row was last `pending`, provided that
nobody left the job out while its row was `pending`. -/
theorem peer_completion_recorded {leaseSecs : ℕ} {start finish : Sessions} {log : List Event}
    (hidle : start.Idle) (hrun : Run (Step (sessions leaseSecs)) start log finish)
    {jobId : String} (hfresh : ∀ j, start.world.db.jobs.get jobId = some j → ¬ Consumable j.status)
    (hlog : ∀ e ∈ log, ¬ ExcludesPending jobId e.statement.2 e.before) {c : ℕ}
    (hreturned : finish.calls c = some (.peerJobState jobId, .ret (.peer .completed))) :
    ∃ row earlier, Began (sessions leaseSecs) start log finish c (.peerJobState jobId)
        (.jobRow jobId) (afterRead leaseSecs jobId) row earlier ∧
      Recorded jobId earlier := by
  have htraced := traced_of_run hidle hrun (program_peerJobState leaseSecs jobId) c
  rcases htraced _ hreturned with hstart | herr | ⟨row, earlier, hbegan, hleads⟩
  · cases hstart
  · cases herr
  · refine ⟨row, earlier, hbegan, ?_⟩
    have hreturns := (afterRead_returns leaseSecs jobId row).of_leads hleads
    obtain ⟨r, hrow, hcons⟩ := hreturns rfl
    obtain ⟨a, w, _, hpre, -, hexec, -, heq⟩ := hbegan
    have hanswer : row = a.world.db.jobRow jobId :=
      (exec_eq_some (s := Statement.jobRow jobId) hexec).1
    rw [hrow] at hanswer
    obtain ⟨j, hj, hrj⟩ := Option.map_eq_some_iff.mp hanswer.symm
    have hstatus : Consumable j.status := by
      rw [← hrj] at hcons
      exact hcons
    have hbacked : Backed jobId ([] ++ earlier) a := by
      refine Backed.run (fun i hi hc => absurd hc (hfresh i hi)) hpre ?_
      intro e he
      refine hlog e ?_
      rw [heq]
      exact mem_append_left _ he
    exact hbacked j hj hstatus

def emptyWorld : World := ⟨Db.empty, 100⟩

/-- A session that runs the only job of a workflow to its end, and a call that waits for it. -/
def completing : List Operation :=
  [.registerJobs [⟨"j", "rule", "", none, none⟩], .createSession "p" 1 "host" none,
    .claimJobForSession "j" "p", .completeJob "j" "p" 0 "", .peerJobState "j"]

def completed : List Event × Sessions :=
  (schedule (sessions 90) [0, 1, 1, 2, 2, 3, 3, 4, 4]
    (started (sessions 90) emptyWorld completing)).get rfl

theorem run_completed :
    Run (Step (sessions 90)) (System.idle emptyWorld) completed.1 completed.2 := by
  have hrest : schedule (sessions 90) [0, 1, 1, 2, 2, 3, 3, 4, 4]
      (started (sessions 90) emptyWorld completing) = some (completed.1, completed.2) := rfl
  exact (run_started (sessions 90) emptyWorld completing).trans (run_of_schedule hrest)

/-- The waiting session is told of the completion that its peer recorded. -/
theorem peer_completion_recorded_completed :
    ∃ row earlier, Began (sessions 90) (System.idle emptyWorld) completed.1 completed.2 4
        (.peerJobState "j") (.jobRow "j") (afterRead 90 "j") row earlier ∧
      Recorded "j" earlier := by
  have hkinds : completed.1.all (fun e => !isExclusion e.statement.2) = true := rfl
  refine peer_completion_recorded (fun _ => rfl) run_completed (fun j hj => nomatch hj) ?_ rfl
  intro e he hexcl
  have hkind := all_eq_true.mp hkinds e he
  rw [hexcl.isExclusion] at hkind
  cases hkind

/-- The owner of the job is interrupted, a run that starts resets its row and leaves the job
out, and the session that waited for the owner asks again. -/
def excluding : List Operation :=
  [.registerJobs [⟨"j", "rule", "", none, none⟩], .createSession "p" 1 "host" none,
    .createSession "s" 2 "host" none, .claimJobForSession "j" "p", .claimJobForSession "j" "s",
    .interruptSession "p", .resetInactiveJobRows ["j"], .excludeJob "j", .peerJobState "j"]

def excluded : List Event × Sessions :=
  (schedule (sessions 90) [0, 1, 1, 2, 2, 3, 3, 4, 4, 4, 4, 4, 5, 6, 6, 7, 8, 8]
    (started (sessions 90) emptyWorld excluding)).get rfl

theorem run_excluded :
    Run (Step (sessions 90)) (System.idle emptyWorld) excluded.1 excluded.2 := by
  have hrest : schedule (sessions 90) [0, 1, 1, 2, 2, 3, 3, 4, 4, 4, 4, 4, 5, 6, 6, 7, 8, 8]
      (started (sessions 90) emptyWorld excluding) = some (excluded.1, excluded.2) := rfl
  exact (run_started (sessions 90) emptyWorld excluding).trans (run_of_schedule hrest)

/-- A waiting session is told that a job is completed which nobody has run or found in the
cache. -/
theorem not_peer_completion_recorded_excluded :
    ∃ (start finish : Sessions) (log : List Event), start.Idle ∧
      Run (Step (sessions 90)) start log finish ∧
      (∀ j, start.world.db.jobs.get "j" = some j → ¬ Consumable j.status) ∧
      finish.calls 8 = some (.peerJobState "j", .ret (.peer .completed)) ∧
      ∀ e ∈ log, ¬ Records "j" e.statement.2 e.before := by
  have hkinds : excluded.1.all (fun e => !isRecording e.statement.2) = true := rfl
  have hfresh : ∀ j, emptyWorld.db.jobs.get "j" = some j → ¬ Consumable j.status :=
    fun j hj => nomatch hj
  refine ⟨System.idle emptyWorld, excluded.2, excluded.1, fun _ => rfl, run_excluded, hfresh, rfl,
    ?_⟩
  intro e he hrec
  have hkind := all_eq_true.mp hkinds e he
  rw [hrec.isRecording] at hkind
  cases hkind

end OxyMake.PeerCompletions
