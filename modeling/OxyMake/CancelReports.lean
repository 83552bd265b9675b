import OxyMake.CallCourses
import OxyMake.RowConsistency

/-!
# What `cancel_jobs` reports

`cancel_jobs` selects ids in one statement, updates their rows in another and
returns what it selected. Between the two any other call may claim, complete or
reset a row. The report is what the update moved exactly when the rows that were
selected could all still be cancelled under the same filters when they were
updated.
-/

namespace OxyMake.CancelReports

open List
open KeyedTable StateDb ClaimProtocol Interleaving LabelledRuns CallCourses RowMoves RowConsistency

/-- What one call executed, statement by statement. -/
abbrev Own := List (Moment Statement World)

def Moves (m : Moment Statement World) (jobId : String) : Prop :=
  ∃ j j', m.before.db.jobs.get jobId = some j ∧ m.after.db.jobs.get jobId = some j' ∧
    j.status ≠ .cancelled ∧ j'.status = .cancelled

def Matches (rule sessionId : Option String) (j : Job) : Prop :=
  (∀ r, rule = some r → j.ruleName = r) ∧ ∀ s, sessionId = some s → j.sessionId = some s

/-- The call reports exactly the rows it moved, each of which passed the filters when it was
moved, and changes no row that is completed, failed or skipped. -/
structure ReportsExactly (rule sessionId : Option String) (own : Own) (ids : List String) :
    Prop where
  /-- The report is what was moved. -/
  exact : ∀ jobId, jobId ∈ ids ↔ ∃ m ∈ own, Moves m jobId
  /-- What was moved passed the filters. -/
  matching : ∀ m ∈ own, ∀ jobId, Moves m jobId → ∀ j, m.before.db.jobs.get jobId = some j →
    Matches rule sessionId j
  /-- Settled rows stay as they are. -/
  untouched : ∀ m ∈ own, ∀ jobId j, m.before.db.jobs.get jobId = some j →
    j.status = .completed ∨ j.status = .failed ∨ j.status = .skipped →
    m.after.db.jobs.get jobId = some j

/-- The statement selects the rows that can be cancelled under the filters. -/
def Selects (rule sessionId : Option String) : {β : Type} → Statement β → Prop
  | _, .cancellableJobIds r s => r = rule ∧ s = sessionId
  | _, _ => False

def Updates : {β : Type} → Statement β → Prop
  | _, .cancelJobIds _ _ => True
  | _, _ => False

/-- The rows that the call selected can all still be cancelled under its filters in the
database that its update meets. -/
def StillCancellable (rule sessionId : Option String) (own : Own) : Prop :=
  ∀ sel ∈ own, Selects rule sessionId sel.statement.2 →
    ∀ up ∈ own, Updates up.statement.2 →
      ∀ jobId ∈ sel.before.db.cancellableJobIds rule sessionId,
        jobId ∈ up.before.db.cancellableJobIds rule sessionId

theorem mem_cancellableJobIds_iff {db : Db} {rule sessionId : Option String} {jobId : String} :
    jobId ∈ db.cancellableJobIds rule sessionId ↔ ∃ j, db.jobs.get jobId = some j ∧
      (j.status = .running ∨ j.status = .pending) ∧ Matches rule sessionId j := by
  unfold Db.cancellableJobIds
  rw [Table.mem_select_iff]
  refine exists_congr fun j => and_congr_right fun _ => ?_
  unfold Matches
  simp only [Bool.and_eq_true, Bool.or_eq_true, decide_eq_true_eq, Option.all_eq_true, and_assoc]

/-! ### The update -/

theorem get_cancelJobIds {db : Db} {jobId : String} {j : Job} (h : db.jobs.get jobId = some j)
    (now : ℕ) (ids : List String) : (db.cancelJobIds now ids).2.jobs.get jobId =
      some (if jobId ∈ ids ∧ (j.status = .running ∨ j.status = .pending)
        then RowWrites.cancelledRow now j else j) := by
  have hget := get_cancelEach (fun j => j.status = .running || j.status = .pending) now ids db h
  simp only [Bool.or_eq_true, decide_eq_true_eq] at hget
  exact hget

theorem moves_iff {m : Moment Statement World} {now : ℕ} {ids : List String}
    (hafter : m.after.db = (m.before.db.cancelJobIds now ids).2) (jobId : String) :
    Moves m jobId ↔ jobId ∈ ids ∧ ∃ j, m.before.db.jobs.get jobId = some j ∧
      (j.status = .running ∨ j.status = .pending) := by
  constructor
  · rintro ⟨j, _, hj, hj', hne, hcancelled⟩
    rw [hafter, get_cancelJobIds hj, Option.some.injEq] at hj'
    by_cases hcase : jobId ∈ ids ∧ (j.status = .running ∨ j.status = .pending)
    · exact ⟨hcase.1, j, hj, hcase.2⟩
    · rw [if_neg hcase] at hj'
      rw [hj'] at hne
      exact absurd hcancelled hne
  · rintro ⟨hmem, j, hj, hstatus⟩
    have hget := get_cancelJobIds hj now ids
    rw [if_pos ⟨hmem, hstatus⟩, ← hafter] at hget
    have hne : j.status ≠ .cancelled := by
      rcases hstatus with hstatus | hstatus
      · rw [hstatus]
        decide
      · rw [hstatus]
        decide
    exact ⟨j, _, hj, hget, hne, rfl⟩

theorem moves_cancelEach_iff {m : Moment Statement World} {p : Job → Bool}
    (hp : ∀ j, p j = true → j.status ≠ .cancelled) {now : ℕ} {ids : List String}
    (hafter : m.after.db = (Db.cancelEach p now ids m.before.db).2) (jobId : String) :
    Moves m jobId ↔ jobId ∈ (Db.cancelEach p now ids m.before.db).1 := by
  constructor
  · rintro ⟨j, _, hj, hj', hne, hcancelled⟩
    rw [mem_cancelEach_iff hj]
    by_contra hno
    rw [hafter, get_cancelEach p now ids _ hj, if_neg hno, Option.some.injEq] at hj'
    rw [hj'] at hne
    exact hne hcancelled
  · intro hlisted
    obtain ⟨j, hj⟩ := get_of_mem_cancelEach hlisted
    have hcase := (mem_cancelEach_iff hj).mp hlisted
    have hget := get_cancelEach p now ids m.before.db hj
    rw [if_pos hcase, ← hafter] at hget
    exact ⟨j, _, hj, hget, hp j hcase.2, rfl⟩

theorem untouched_cancelJobIds {db : Db} {jobId : String} {j : Job}
    (hj : db.jobs.get jobId = some j)
    (hsettled : j.status = .completed ∨ j.status = .failed ∨ j.status = .skipped) (now : ℕ)
    (ids : List String) : (db.cancelJobIds now ids).2.jobs.get jobId = some j := by
  have hclosed : ¬ (j.status = .running ∨ j.status = .pending) := by
    rcases hsettled with h | h | h
    all_goals
      rw [h]
      decide
  rw [get_cancelJobIds hj, if_neg fun h => hclosed h.2]

/-! ### The course of a call -/

theorem course_cancelJobs (leaseSecs : ℕ) {rule sessionId : Option String} {w v : World}
    {own : Own} {ids : List String}
    (h : Course Statement.exec (fun _ _ => True) (program leaseSecs (.cancelJobs rule sessionId))
      w own (.ret (.ids ids)) v) :
    ∃ u : World, ids = u.db.cancellableJobIds rule sessionId ∧
      ((ids = [] ∧ own = [⟨⟨_, .cancellableJobIds rule sessionId⟩, u, u⟩]) ∨
        ∃ (clock before after : World) (now : ℕ),
          after.db = (before.db.cancelJobIds now ids).2 ∧
          own = [⟨⟨_, .cancellableJobIds rule sessionId⟩, u, u⟩, ⟨⟨_, .unixNow⟩, clock, clock⟩,
            ⟨⟨_, .cancelJobIds now ids⟩, before, after⟩]) := by
  simp only [program, cancelJobs, Prog.map_eq, ClaimProtocol.run, Prog.exec_bind,
    Prog.stmt_bind] at h
  rcases h.of_stmt with ⟨-, heq, -⟩ | ⟨u, r, _, _, -, hexec, rfl, hgo⟩
  · cases heq
  cases hexec
  refine ⟨u, ?_⟩
  by_cases hnone : u.db.cancellableJobIds rule sessionId = []
  · simp only [Statement.effect, hnone, if_true, Prog.pure_eq, Prog.ret_bind] at hgo
    obtain ⟨rfl, heq, -⟩ := hgo.of_ret
    cases heq
    exact ⟨hnone.symm, Or.inl ⟨rfl, rfl⟩⟩
  · simp only [Statement.effect, hnone, if_false, Prog.stmt_bind, Prog.pure_eq, Prog.ret_bind] at hgo
    rcases hgo.of_stmt with ⟨-, heq, -⟩ | ⟨clock, _, _, _, -, hexec₁, rfl, hgo₁⟩
    · cases heq
    cases hexec₁
    rcases hgo₁.of_stmt with ⟨-, heq, -⟩ | ⟨before, _, after, _, -, hexec₂, rfl, hgo₂⟩
    · cases heq
    cases hexec₂
    obtain ⟨rfl, heq, -⟩ := hgo₂.of_ret
    cases heq
    exact ⟨rfl, Or.inr ⟨clock, before, _, _, rfl, rfl⟩⟩

theorem not_moves_of_read {m : Moment Statement World} (hread : m.after = m.before)
    (jobId : String) : ¬ Moves m jobId := by
  rintro ⟨j, _, hj, hj', hne, hcancelled⟩
  rw [hread, hj, Option.some.injEq] at hj'
  rw [hj'] at hne
  exact hne hcancelled

theorem reportsExactly_nil {rule sessionId : Option String} {own : Own}
    (hreads : ∀ m ∈ own, m.after = m.before) : ReportsExactly rule sessionId own [] where
  exact jobId := by
    constructor
    · intro h
      cases h
    · rintro ⟨m, hm, hmoves⟩
      exact absurd hmoves (not_moves_of_read (hreads m hm) jobId)
  matching m hm jobId hmoves := absurd hmoves (not_moves_of_read (hreads m hm) jobId)
  untouched m hm jobId j hj _ := by
    rw [hreads m hm]
    exact hj

theorem reportsExactly_iff_of_update {rule sessionId : Option String} {own : Own}
    {up : Moment Statement World} (hup : up ∈ own)
    (hreads : ∀ m ∈ own, m = up ∨ m.after = m.before) {now : ℕ} {ids : List String}
    (hafter : up.after.db = (up.before.db.cancelJobIds now ids).2) :
    ReportsExactly rule sessionId own ids ↔
      ∀ jobId ∈ ids, jobId ∈ up.before.db.cancellableJobIds rule sessionId := by
  have honly : ∀ jobId m, m ∈ own → Moves m jobId → m = up := by
    intro jobId m hm hmoves
    rcases hreads m hm with heq | hread
    · exact heq
    · exact absurd hmoves (not_moves_of_read hread jobId)
  constructor
  · intro h jobId hid
    obtain ⟨m, hm, hmoves⟩ := (h.exact jobId).mp hid
    rw [honly jobId m hm hmoves] at hmoves
    obtain ⟨-, j, hj, hstatus⟩ := (moves_iff hafter jobId).mp hmoves
    exact mem_cancellableJobIds_iff.mpr
      ⟨j, hj, hstatus, h.matching up hup jobId hmoves j hj⟩
  · intro hstill
    constructor
    · intro jobId
      constructor
      · intro hid
        obtain ⟨j, hj, hstatus, -⟩ := mem_cancellableJobIds_iff.mp (hstill jobId hid)
        exact ⟨up, hup, (moves_iff hafter jobId).mpr ⟨hid, j, hj, hstatus⟩⟩
      · rintro ⟨m, hm, hmoves⟩
        rw [honly jobId m hm hmoves] at hmoves
        exact ((moves_iff hafter jobId).mp hmoves).1
    · intro m hm jobId hmoves j hj
      have heq : m = up := honly jobId m hm hmoves
      subst heq
      have hid : jobId ∈ ids := ((moves_iff hafter jobId).mp hmoves).1
      obtain ⟨_, hj', -, hmatch⟩ := mem_cancellableJobIds_iff.mp (hstill jobId hid)
      rw [hj, Option.some.injEq] at hj'
      rw [hj']
      exact hmatch
    · intro m hm jobId j hj hsettled
      rcases hreads m hm with rfl | hread
      · rw [hafter]
        exact untouched_cancelJobIds hj hsettled now ids
      · rw [hread]
        exact hj

theorem stillCancellable_iff {rule sessionId : Option String} {u clock before after : World}
    {now : ℕ} {ids : List String} (hids : ids = u.db.cancellableJobIds rule sessionId) :
    StillCancellable rule sessionId [⟨⟨_, .cancellableJobIds rule sessionId⟩, u, u⟩,
        ⟨⟨_, .unixNow⟩, clock, clock⟩, ⟨⟨_, .cancelJobIds now ids⟩, before, after⟩] ↔
      ∀ jobId ∈ ids, jobId ∈ before.db.cancellableJobIds rule sessionId := by
  subst hids
  constructor
  · intro h
    exact h _ mem_cons_self ⟨rfl, rfl⟩ _
      (.tail _ (.tail _ (.head _))) trivial
  · intro h sel hsel hselects up hup hupdates
    simp only [mem_cons, not_mem_nil, or_false] at hsel hup
    rcases hsel with rfl | rfl | rfl
    · rcases hup with rfl | rfl | rfl
      · cases hupdates
      · cases hupdates
      · exact h
    · cases hselects
    · cases hselects

/-! ### Every interleaving -/

theorem relies_any : Relies leasedSessions fun _ _ => True where
  refl _ := trivial
  trans _ _ _ _ _ := trivial
  exec _ _ _ _ _ := trivial
  drift _ _ _ := trivial

/-- In every interleaving, a `cancel_jobs` that returned reports exactly the rows that it moved,
under its filters, if and only if the rows it selected could all still be cancelled under them
when it updated them. -/
theorem cancelJobs_reports_iff {start finish : Leased}
    {log : List (ℕ × Executed Statement World (ℕ × Operation) Outcome)} (hidle : start.Idle)
    (hrun : Run (Numbered leasedSessions) start log finish) {c leaseSecs : ℕ}
    {rule sessionId : Option String} {ids : List String}
    (hcall : finish.calls c = some ((leaseSecs, .cancelJobs rule sessionId), .ret (.ids ids))) :
    ReportsExactly rule sessionId (own c log) ids ↔
      StillCancellable rule sessionId (own c log) := by
  obtain ⟨q, v, hcourse, hq⟩ := course_of_run relies_any hidle hrun hcall
  rcases hq with rfl | herr
  · obtain ⟨u, hids, hown⟩ := course_cancelJobs leaseSecs hcourse
    rcases hown with ⟨rfl, hown⟩ | ⟨_, _, _, _, hafter, hown⟩
    · rw [hown]
      have hreads : ∀ m ∈ [(⟨⟨_, .cancellableJobIds rule sessionId⟩, u, u⟩ :
          Moment Statement World)], m.after = m.before := by
        intro m hm
        rw [mem_singleton.mp hm]
      refine ⟨fun _ => ?_, fun _ => reportsExactly_nil hreads⟩
      intro sel hsel _ up hup hupdates
      rw [mem_singleton.mp hup] at hupdates
      cases hupdates
    · rw [hown, stillCancellable_iff hids]
      refine reportsExactly_iff_of_update
        (.tail _ (.tail _ (.head _))) ?_ hafter
      intro m hm
      simp only [mem_cons, not_mem_nil, or_false] at hm
      rcases hm with rfl | rfl | rfl
      · exact Or.inr rfl
      · exact Or.inr rfl
      · exact Or.inl rfl
  · cases herr

theorem course_cancelIds {ids cancelled : List String} {cancel : ℕ → Statement (List String)}
    {p : Job → Bool} (hcancel : ∀ now w, (cancel now).exec w =
      some ((w.db.cancelEach p now ids).1, { w with db := (w.db.cancelEach p now ids).2 }))
    {w v : World} {own : Own}
    (h : Course Statement.exec (fun _ _ => True) (Outcome.ids <$> cancelIds ids cancel)
      w own (.ret (.ids cancelled)) v) :
    (cancelled = [] ∧ own = []) ∨ ∃ (clock before after : World) (now : ℕ),
      after.db = (before.db.cancelEach p now ids).2 ∧
      cancelled = (before.db.cancelEach p now ids).1 ∧
      own = [⟨⟨_, .unixNow⟩, clock, clock⟩, ⟨⟨_, cancel now⟩, before, after⟩] := by
  unfold cancelIds at h
  by_cases hids : ids = []
  · rw [if_pos hids] at h
    obtain ⟨rfl, heq, -⟩ := h.of_ret
    cases heq
    exact Or.inl ⟨rfl, rfl⟩
  · rw [if_neg hids] at h
    rcases h.of_stmt with ⟨-, heq, -⟩ | ⟨clock, r, u, _, -, hexec, rfl, hgo⟩
    · cases heq
    cases hexec
    rcases hgo.of_stmt with ⟨-, heq, -⟩ | ⟨before, _, after, _, -, hexec₁, rfl, hgo₁⟩
    · cases heq
    rw [hcancel] at hexec₁
    cases hexec₁
    obtain ⟨rfl, heq, -⟩ := hgo₁.of_ret
    cases heq
    exact Or.inr ⟨clock, before, _, _, rfl, rfl, rfl⟩

theorem mem_cancelled_iff_moves {ids cancelled : List String}
    {cancel : ℕ → Statement (List String)} {p : Job → Bool}
    (hp : ∀ j, p j = true → j.status ≠ .cancelled)
    (hcancel : ∀ now w, (cancel now).exec w =
      some ((w.db.cancelEach p now ids).1, { w with db := (w.db.cancelEach p now ids).2 }))
    {w v : World} {own : Own}
    (h : Course Statement.exec (fun _ _ => True) (Outcome.ids <$> cancelIds ids cancel)
      w own (.ret (.ids cancelled)) v) (jobId : String) :
    jobId ∈ cancelled ↔ ∃ m ∈ own, Moves m jobId := by
  rcases course_cancelIds hcancel h with ⟨rfl, rfl⟩ | ⟨_, _, _, now, hafter, rfl, rfl⟩
  · simp only [not_mem_nil, false_and, exists_false]
  · constructor
    · intro hlisted
      exact ⟨_, mem_cons_of_mem _ mem_cons_self,
        (moves_cancelEach_iff hp hafter jobId).mpr hlisted⟩
    · rintro ⟨m, hm, hmoves⟩
      rcases mem_cons.mp hm with rfl | hm
      · exact absurd hmoves (not_moves_of_read rfl jobId)
      rw [mem_singleton.mp hm] at hmoves
      exact (moves_cancelEach_iff hp hafter jobId).mp hmoves

/-- In every interleaving, the cancellations that are given ids report exactly the rows that
they moved. -/
theorem cancelIds_reports {start finish : Leased}
    {log : List (ℕ × Executed Statement World (ℕ × Operation) Outcome)} (hidle : start.Idle)
    (hrun : Run (Numbered leasedSessions) start log finish) {c leaseSecs : ℕ} {op : Operation}
    {ids cancelled : List String}
    (hop : op = .cancelJobIds ids ∨ ∃ sessionId, op = .cancelJobIdsForSession ids sessionId)
    (hcall : finish.calls c = some ((leaseSecs, op), .ret (.ids cancelled))) (jobId : String) :
    jobId ∈ cancelled ↔ ∃ m ∈ own c log, Moves m jobId := by
  obtain ⟨q, v, hcourse, hq⟩ := course_of_run relies_any hidle hrun hcall
  rcases hq with rfl | herr
  · rcases hop with rfl | ⟨sessionId, rfl⟩
    · refine mem_cancelled_iff_moves ?_ (fun now w => rfl) hcourse jobId
      intro j hj hcancelled
      rw [hcancelled] at hj
      exact absurd hj (by decide)
    · refine mem_cancelled_iff_moves ?_ (fun now w => rfl) hcourse jobId
      intro j hj hcancelled
      rw [hcancelled] at hj
      simp only [reduceCtorEq, decide_false, Bool.false_and, Bool.or_self,
        Bool.false_eq_true] at hj
  · cases herr

/-- A session registers and claims a job, and `cancel_jobs` runs beside the session's record of
the completion. -/
def cancelling : List (ℕ × Operation) :=
  [(90, .createSession "s" 1 "host" none), (90, .registerJobs [⟨"j", "rule", "", none, none⟩]),
   (90, .claimJob "j" "s"), (90, .cancelJobs none none), (90, .completeJob "j" "s" 0 "")]

/-- The calls up to the claim, the cancellation, and nothing in between. -/
def undisturbed : List (Executed Statement World (ℕ × Operation) Outcome) × Leased :=
  (schedule leasedSessions [0, 0, 1, 2, 2, 3, 3, 3]
    (started leasedSessions fresh cancelling)).get rfl

/-- The session records the completion between the selection and the update. -/
def overtaken : List (Executed Statement World (ℕ × Operation) Outcome) × Leased :=
  (schedule leasedSessions [0, 0, 1, 2, 2, 3, 4, 4, 3, 3]
    (started leasedSessions fresh cancelling)).get rfl

/-- Undisturbed, the call reports the running job that it cancelled. -/
theorem cancelJobs_reports_undisturbed :
    ReportsExactly none none (own 3 ([0, 0, 1, 2, 2, 3, 3, 3].zip undisturbed.1)) ["j"] := by
  have hsched : schedule leasedSessions [0, 0, 1, 2, 2, 3, 3, 3]
      (started leasedSessions fresh cancelling) = some (undisturbed.1, undisturbed.2) := rfl
  have hrun := (numbered_started leasedSessions fresh cancelling).trans
    (numbered_of_schedule hsched)
  have hcall : undisturbed.2.calls 3 =
      some ((90, .cancelJobs none none), .ret (.ids ["j"])) := rfl
  refine (cancelJobs_reports_iff (fun _ => rfl) hrun hcall).mpr ?_
  intro sel hsel hselects up hup hupdates jobId hid
  rcases mem_cons.mp hsel with rfl | hsel
  · rcases mem_cons.mp hup with rfl | hup
    · cases hupdates
    rcases mem_cons.mp hup with rfl | hup
    · cases hupdates
    rw [mem_singleton.mp hup]
    exact hid
  rcases mem_cons.mp hsel with rfl | hsel
  · cases hselects
  rw [mem_singleton.mp hsel] at hselects
  cases hselects

/-- A session registers and claims a job, and two ids are cancelled, of which one has no row. -/
def cancellingIds : List (ℕ × Operation) :=
  [(90, .createSession "s" 1 "host" none), (90, .registerJobs [⟨"j", "rule", "", none, none⟩]),
   (90, .claimJob "j" "s"), (90, .cancelJobIds ["j", "k"])]

def idsCancelled : List (Executed Statement World (ℕ × Operation) Outcome) × Leased :=
  (schedule leasedSessions [0, 0, 1, 2, 2, 3, 3]
    (started leasedSessions fresh cancellingIds)).get rfl

/-- The job with a row is reported, and it was moved. -/
theorem cancelIds_reports_claimed :
    ∃ m ∈ own 3 ([0, 0, 1, 2, 2, 3, 3].zip idsCancelled.1), Moves m "j" := by
  have hsched : schedule leasedSessions [0, 0, 1, 2, 2, 3, 3]
      (started leasedSessions fresh cancellingIds) = some (idsCancelled.1, idsCancelled.2) := rfl
  have hrun := (numbered_started leasedSessions fresh cancellingIds).trans
    (numbered_of_schedule hsched)
  have hcall : idsCancelled.2.calls 3 =
      some ((90, .cancelJobIds ["j", "k"]), .ret (.ids ["j"])) := rfl
  exact (cancelIds_reports (fun _ => rfl) hrun (.inl rfl) hcall "j").mp mem_cons_self

/-- Overtaken by the completion, the call reports a job that it did not cancel. -/
theorem not_cancelJobs_reports :
    ¬ ∀ (start finish : Leased)
      (log : List (ℕ × Executed Statement World (ℕ × Operation) Outcome)), start.Idle →
      Run (Numbered leasedSessions) start log finish →
      ∀ (c leaseSecs : ℕ) (rule sessionId : Option String) (ids : List String),
        finish.calls c = some ((leaseSecs, .cancelJobs rule sessionId), .ret (.ids ids)) →
        ReportsExactly rule sessionId (own c log) ids := by
  intro h
  have hsched : schedule leasedSessions [0, 0, 1, 2, 2, 3, 4, 4, 3, 3]
      (started leasedSessions fresh cancelling) = some (overtaken.1, overtaken.2) := rfl
  have hrun := (numbered_started leasedSessions fresh cancelling).trans
    (numbered_of_schedule hsched)
  have hcall : overtaken.2.calls 3 =
      some ((90, .cancelJobs none none), .ret (.ids ["j"])) := rfl
  have hreport := h _ _ _ (fun _ => rfl) hrun 3 90 none none ["j"] hcall
  obtain ⟨m, hm, hmoves⟩ := (hreport.exact "j").mp mem_cons_self
  rcases mem_cons.mp hm with rfl | hm
  · exact not_moves_of_read rfl "j" hmoves
  rcases mem_cons.mp hm with rfl | hm
  · exact not_moves_of_read rfl "j" hmoves
  rw [mem_singleton.mp hm] at hmoves
  obtain ⟨j, j', -, hj', -, hcancelled⟩ := hmoves
  have hstatus : (overtaken.2.world.db.jobs.get "j").map (·.status) = some .completed := rfl
  have hafter : overtaken.2.world.db.jobs.get "j" = some j' := hj'
  rw [hafter, Option.map_some, hcancelled] at hstatus
  cases hstatus

end OxyMake.CancelReports
