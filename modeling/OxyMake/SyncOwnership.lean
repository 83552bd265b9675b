import OxyMake.RemoteSync

/-!
# The rows a synchronisation changes

A synchronisation addresses rows by job id and never looks at their run again.
It changes only rows of its own run in every run of the system in which nobody
registers one of its jobs for another run while it is under way and, for SLURM,
the mapped jobs still belong to the run when it starts. A newer run that
registers a job after the read loses the row to the older run's outcome.
-/

namespace OxyMake.SyncOwnership

open KeyedTable StateDb Interleaving LabelledRuns Watching
open ClaimProtocol (World)
open RemoteSync RowMoves

/-! ### Rows of a run -/

/-- The row of the job exists and belongs to the run. -/
def BelongsTo (runId : String) (w : World) (jobId : String) : Prop :=
  ∃ j, w.db.jobs.get jobId = some j ∧ j.runId = some runId

/-- The row of the job belongs to the run, if it exists. -/
def Own (runId : String) (w : World) (jobId : String) : Prop :=
  ∀ j, w.db.jobs.get jobId = some j → j.runId = some runId

def synchronised : Operation → Option String
  | .session _ => none
  | .driver a => some a.runId
  | .sacct a => some a.runId

/-- The jobs a synchronisation takes for those of its run: the rows of the run for Ray, the
jobs of the mapping for SLURM. -/
def Mine : Operation → World → String → Prop
  | .session _, _, _ => False
  | .driver a, w, jobId => BelongsTo a.runId w jobId
  | .sacct a, w, jobId => jobId ∈ a.jobMapping.map Prod.fst ∧ Own a.runId w jobId

theorem Mine.own {op : Operation} {runId : String} (hop : synchronised op = some runId)
    {w : World} {jobId : String} (h : Mine op w jobId) : Own runId w jobId := by
  cases op with
  | session => cases h
  | driver =>
    cases hop
    obtain ⟨j, hj, hrun⟩ := h
    intro j' hj'
    have heq : j = j' := Option.some.inj (hj.symm.trans hj')
    rw [← heq]
    exact hrun
  | sacct =>
    cases hop
    exact h.2

/-- The others leave the synchronisation what it takes for its own. -/
def Keeps (op : Operation) (w w' : World) : Prop := ∀ jobId, Mine op w jobId → Mine op w' jobId

/-- The statement registers for another run a job that the synchronisation takes for its
own. -/
def Steals (op : Operation) : {β : Type} → Statement β → World → Prop
  | _, .inl (.registerJobs jobs), w =>
    ∃ r ∈ jobs, r.runId ≠ synchronised op ∧ Mine op w r.id
  | _, _, _ => False

theorem mine_of_runs {op : Operation} {w w' : World} {jobId : String} (h : Mine op w jobId)
    (hnone : w.db.jobs.get jobId = none → w'.db.jobs.get jobId = none)
    (hsome : ∀ j, w.db.jobs.get jobId = some j →
      ∃ j', w'.db.jobs.get jobId = some j' ∧ j'.runId = j.runId) : Mine op w' jobId := by
  cases op with
  | session => cases h
  | driver =>
    obtain ⟨j, hj, hrun⟩ := h
    obtain ⟨j', hj', hsame⟩ := hsome j hj
    exact ⟨j', hj', hsame.trans hrun⟩
  | sacct =>
    refine ⟨h.1, ?_⟩
    intro j' hj'
    cases hget : w.db.jobs.get jobId with
    | none => exact nomatch (hnone hget).symm.trans hj'
    | some j =>
      obtain ⟨j₁, hj₁, hsame⟩ := hsome j hget
      have heq : j₁ = j' := Option.some.inj (hj₁.symm.trans hj')
      rw [← heq, hsame]
      exact h.2 j hget

theorem keeps_registerJobs {op : Operation} {w : World} {jobs : List JobRecord}
    (h : ¬ Steals op (.inl (.registerJobs jobs)) w) :
    Keeps op w { w with db := w.db.registerJobs jobs } := by
  intro jobId hmine
  have hrun : ∀ j', (w.db.registerJobs jobs).jobs.get jobId = some j' →
      (∃ j, w.db.jobs.get jobId = some j ∧ j'.runId = j.runId) ∨ j'.runId = synchronised op := by
    intro j' hj'
    rcases runId_registerJobs w.db jobs hj' with hold | ⟨r, hr, hid, hnew⟩
    · exact Or.inl hold
    · refine Or.inr ?_
      by_contra hne
      rw [hnew] at hne
      exact h ⟨r, hr, hne, by rw [hid]; exact hmine⟩
  cases op with
  | session => cases hmine
  | driver =>
    obtain ⟨j, hj, hj'⟩ := hmine
    obtain ⟨j₁, hget, -⟩ := registerJobs_sameOwner w.db jobs hj
    refine ⟨j₁, hget, ?_⟩
    rcases hrun j₁ hget with ⟨i, hi, hsame⟩ | hsync
    · have heq : i = j := Option.some.inj (hi.symm.trans hj)
      rw [hsame, heq]
      exact hj'
    · exact hsync
  | sacct =>
    refine ⟨hmine.1, ?_⟩
    intro j' hj'
    rcases hrun j' hj' with ⟨i, hi, hsame⟩ | hsync
    · rw [hsame]
      exact hmine.2 i hi
    · exact hsync

theorem keeps_exec {op : Operation} {β : Type} {s : Statement β} {w w' : World} {r : β}
    (h : exec s w = some (r, w')) (hs : ¬ Steals op s w) : Keeps op w w' := by
  cases s with
  | inl s =>
    have hw' : w' = { w with db := (s.effect w).2 } := by
      change s.exec w = some (r, w') at h
      unfold ClaimProtocol.Statement.exec at h
      split_ifs at h
      cases h
      rfl
    cases hreg : isRegistration s with
    | true =>
      cases s with
      | registerJobs =>
        rw [hw']
        exact keeps_registerJobs hs
      | _ => cases hreg
    | false =>
      intro jobId hmine
      rw [hw']
      exact mine_of_runs hmine (none_effect s w hreg) fun j hj => runId_effect s w hreg hj
  | inr s =>
    cases s with
    | jobIdsForRun =>
      cases h
      exact fun _ hmine => hmine

/-! ### The statements of a synchronisation -/

/-- The statement changes no row, or that of one of some jobs. -/
def Touches (ids : List String) : {β : Type} → Statement β → Prop
  | _, .inl .unixNow => True
  | _, .inl (.createSession ..) => True
  | _, .inl (.completeSession _) => True
  | _, .inl (.claimJob _ _ jobId) => jobId ∈ ids
  | _, .inl (.reconcileCompleteJob _ _ _ jobId) => jobId ∈ ids
  | _, .inl (.reconcileFailJob _ _ jobId) => jobId ∈ ids
  | _, .inl (.setJobTimes _ _ jobId) => jobId ∈ ids
  | _, .inr _ => True
  | _, _ => False

theorem updateJobs_other {db : Db} {id jobId : String} {q : Job → Bool} {f : Job → Job}
    (h : jobId ≠ id) :
    (db.updateJobs (fun i j => i = id && q j) f).2.jobs.get jobId = db.jobs.get jobId := by
  rw [updateJobs_get]
  cases db.jobs.get jobId with
  | none => rfl
  | some =>
    simp only [h, decide_false, Bool.false_and, Option.map_some, Bool.false_eq_true, if_false]

theorem touches_other {ids : List String} {β : Type} {s : Statement β} (hs : Touches ids s)
    {w w' : World} {r : β} (h : exec s w = some (r, w')) {jobId : String} (hid : jobId ∉ ids) :
    w'.db.jobs.get jobId = w.db.jobs.get jobId := by
  have hne : ∀ id ∈ ids, jobId ≠ id := fun id hmem heq => hid (heq ▸ hmem)
  cases s with
  | inl s =>
    have hw' : w' = { w with db := (s.effect w).2 } := by
      change s.exec w = some (r, w') at h
      unfold ClaimProtocol.Statement.exec at h
      split_ifs at h
      cases h
      rfl
    rw [hw']
    cases s with
    | unixNow | createSession | completeSession => rfl
    | claimJob sessionId now id => exact updateJobs_other (hne id hs)
    | reconcileCompleteJob exitCode hashes now id => exact updateJobs_other (hne id hs)
    | reconcileFailJob exitCode now id => exact updateJobs_other (hne id hs)
    | setJobTimes startedAt completedAt id => exact updateJobs_other (hne id hs)
    | _ => cases hs
  | inr s =>
    cases s with
    | jobIdsForRun =>
      cases h
      rfl

def ChangesOnly (runId : String) (e : Event) : Prop :=
  ∀ jobId, ¬ BelongsTo runId e.before jobId →
    e.after.db.jobs.get jobId = e.before.db.jobs.get jobId

theorem touches_none {ids : List String} {β : Type} {s : Statement β} (hs : Touches ids s)
    {w w' : World} {r : β} (h : exec s w = some (r, w')) {jobId : String}
    (hnone : w.db.jobs.get jobId = none) : w'.db.jobs.get jobId = none := by
  cases s with
  | inl s =>
    have hreg : isRegistration s = false := by
      cases s with
      | registerJobs => cases hs
      | _ => rfl
    have hafter := none_effect s w hreg hnone
    change s.exec w = some (r, w') at h
    unfold ClaimProtocol.Statement.exec at h
    split_ifs at h
    cases h
    exact hafter
  | inr s =>
    cases s with
    | jobIdsForRun =>
      cases h
      exact hnone

theorem changesOnly_of_touches {ids : List String} {β : Type} {s : Statement β}
    (hs : Touches ids s) {w w' : World} {r : β} (h : exec s w = some (r, w')) {runId : String}
    (hown : ∀ id ∈ ids, Own runId w id) (op : Operation) (p : Program Outcome) :
    ChangesOnly runId ⟨op, ⟨β, s⟩, w, w', p⟩ := by
  intro jobId hnot
  by_cases hid : jobId ∈ ids
  · have hnone : w.db.jobs.get jobId = none := by
      cases hget : w.db.jobs.get jobId with
      | none => rfl
      | some j => exact absurd ⟨j, hget, hown jobId hid j hget⟩ hnot
    exact (touches_none hs h hnone).trans hnone.symm
  · exact touches_other hs h hid

theorem not_steals_of_touches {ids : List String} {β : Type} {s : Statement β}
    (hs : Touches ids s) (op : Operation) (w : World) : ¬ Steals op s w := by
  intro hsteals
  unfold Steals at hsteals
  split at hsteals
  · cases hs
  · cases hsteals

/-! ### The programs of a synchronisation -/

section Programs

variable {ids : List String}

theorem uses_attempt {β : Type} (fails : Bool) (s : ClaimProtocol.Statement β)
    (hs : Touches ids (.inl s : Statement β)) : Uses (Touches ids) (attempt fails s) := by
  unfold attempt
  cases fails with
  | true => trivial
  | false => exact ⟨hs, fun _ => trivial⟩

theorem uses_claimJob (fails : Bool) {jobId : String} (session : String) (h : jobId ∈ ids) :
    Uses (Touches ids) (claimJob fails jobId session) := by
  refine ⟨trivial, ?_⟩
  intro now
  exact (uses_attempt fails (.claimJob session now jobId) h).bind fun _ => trivial

theorem uses_reconcile (fails : Bool) (status : TaskStatus) {jobId : String} (exitCode : ℤ)
    (h : jobId ∈ ids) : Uses (Touches ids) (reconcile fails status jobId exitCode) := by
  cases status with
  | completed =>
    exact ⟨trivial, fun now => (uses_attempt fails
      (.reconcileCompleteJob exitCode "" now jobId) h).bind fun _ => trivial⟩
  | failed =>
    exact ⟨trivial, fun now => (uses_attempt fails
      (.reconcileFailJob exitCode now jobId) h).bind fun _ => trivial⟩

theorem uses_apply (session : String) {records : List (TaskRecord × Faults)}
    (h : ∀ r ∈ records, r.1.jobId ∈ ids) : Uses (Touches ids) (apply session records) := by
  induction records with
  | nil => trivial
  | cons entry records ih =>
    obtain ⟨record, faults⟩ := entry
    have hrecord : record.jobId ∈ ids := h _ List.mem_cons_self
    refine Uses.bind ?_ fun _ => ih fun r hr => h r (.tail _ hr)
    refine (uses_claimJob faults.claim session hrecord).bind fun _ => ?_
    refine (uses_reconcile faults.settle record.status _ hrecord).bind fun terminalised => ?_
    cases terminalised with
    | true =>
      exact (uses_attempt faults.times
        (.setJobTimes record.startedAt record.endedAt record.jobId) hrecord).bind fun _ => trivial
    | false => trivial

theorem uses_applyResult (session : String) {jobId : String} (info : ResultInfo) (faults : Faults)
    (h : jobId ∈ ids) : Uses (Touches ids) (applyResult session jobId info faults) := by
  unfold applyResult
  dsimp only
  split
  · exact (uses_claimJob faults.claim session h).bind fun _ =>
      (uses_reconcile faults.settle .completed _ h).bind fun _ => trivial
  · split
    · exact (uses_claimJob faults.claim session h).bind fun _ =>
        (uses_reconcile faults.settle .failed _ h).bind fun _ => trivial
    · trivial

theorem uses_applyResults (session : String) (recorded : List String)
    (results : List (String × ResultInfo × Faults)) :
    Uses (Touches ids) (applyResults session ids recorded results) := by
  induction results with
  | nil => trivial
  | cons entry results ih =>
    obtain ⟨_, info, faults⟩ := entry
    unfold applyResults
    split
    · rename_i hmem
      exact (uses_applyResult session info faults hmem.1).bind fun _ => ih
    · exact ih

theorem uses_syncCurrent (a : DriverSync) (current : List String) :
    Uses (Touches current) (syncCurrent a current) := by
  unfold syncCurrent
  dsimp only
  split
  · trivial
  · refine ⟨trivial, fun now => ⟨trivial, fun _ => ?_⟩⟩
    refine (uses_apply a.session ?_).bind fun _ => ?_
    · intro r hr
      exact of_decide_eq_true (List.mem_filter.mp hr).2
    · refine (uses_applyResults a.session _ a.results).bind fun _ => ?_
      exact (uses_attempt a.closeFails (.completeSession a.session) trivial).bind fun _ => trivial

end Programs

theorem slurmToOx_mem {a : SacctSync} {slurmId : ℕ} {oxId : String}
    (h : a.slurmToOx slurmId = some oxId) : oxId ∈ a.jobMapping.map Prod.fst := by
  obtain ⟨_, hfind, heq⟩ := Option.map_eq_some_iff.mp h
  have hmem := List.mem_reverse.mp (List.mem_of_find?_eq_some hfind)
  rw [← heq]
  exact List.mem_map_of_mem hmem

theorem uses_applySacct (a : SacctSync) (record : SacctRecords.SacctRecord) (fails : Bool) :
    Uses (Touches (a.jobMapping.map Prod.fst)) (applySacct a record fails) := by
  unfold applySacct
  split
  · split
    · trivial
    · rename_i oxId hox
      have hmem := slurmToOx_mem hox
      split
      · exact (uses_reconcile fails .completed _ hmem).bind fun _ => trivial
      · exact (uses_reconcile fails .failed _ hmem).bind fun _ => trivial
      · exact (uses_reconcile fails .failed _ hmem).bind fun _ => trivial
      · trivial
  · trivial

theorem uses_syncResultsFromSacct (a : SacctSync) :
    Uses (Touches (a.jobMapping.map Prod.fst)) (syncResultsFromSacct a) := by
  have hall : ∀ records, Uses (Touches (a.jobMapping.map Prod.fst)) (applySaccts a records) := by
    intro records
    induction records with
    | nil => trivial
    | cons entry records ih => exact (uses_applySacct a entry.1 entry.2).bind fun _ => ih
  unfold syncResultsFromSacct
  split
  · trivial
  · exact hall a.records

/-! ### Runs -/

/-- A Ray synchronisation that has read the rows of its run, or a SLURM synchronisation, that
is not at its end. -/
def UnderWay : Operation → Program Outcome → Prop
  | .session _, _ => False
  | .driver a, p => Unfinished p ∧ ∃ current, Prog.Leads (syncCurrent a current) p
  | .sacct _, p => Unfinished p

/-- The jobs of a SLURM synchronisation that have a row belong to its run. -/
def Begins : Operation → World → Prop
  | .sacct a, w => ∀ jobId ∈ a.jobMapping.map Prod.fst, Own a.runId w jobId
  | _, _ => True

/-- A step that registers no job of a synchronisation under way for another run, and starts
a SLURM synchronisation only on jobs of its run. -/
structure OwnStep (leaseSecs : ℕ) (x : Syncs) (label : Option Event) (y : Syncs) : Prop where
  step : Step (syncs leaseSecs) x label y
  /-- No job of a synchronisation under way is registered for another run. -/
  keeps : ∀ c op p, x.calls c = some (op, p) → UnderWay op p →
    ∀ e ∈ label, ¬ Steals op e.statement.2 e.before
  /-- A SLURM synchronisation starts on jobs of its run. -/
  begins : ∀ c op p, x.calls c = none → y.calls c = some (op, p) → Begins op x.world

theorem OwnStep.heedful {leaseSecs : ℕ} {x y : Syncs} {label : Option Event}
    (h : OwnStep leaseSecs x label y) :
    HeedfulStep (syncs leaseSecs) UnderWay Keeps Begins x label y := by
  obtain ⟨hstep, hkeeps, hbegins⟩ := h
  refine ⟨hstep, ?_, hbegins⟩
  intro c op p hcall hway
  cases hstep with
  | call | abort => exact fun _ hmine => hmine
  | execute c' op' s k r w hc' hexec => exact keeps_exec hexec (hkeeps c op p hcall hway _ rfl)
  | drift w hw =>
    intro jobId hmine
    refine mine_of_runs hmine ?_ ?_
    · intro hnone
      rw [hw.1]
      exact hnone
    · intro j hj
      rw [hw.1]
      exact ⟨j, hj, rfl⟩

def SyncChangesOwn (e : Event) : Prop :=
  ∀ runId, synchronised e.operation = some runId → ChangesOnly runId e

theorem guarded_of_mine {leaseSecs : ℕ} {op : Operation} {ids : List String}
    {p : Program Outcome} (hp : Uses (Touches ids) p) {w : World} (hw : ∀ id ∈ ids, Mine op w id) :
    Guarded (syncs leaseSecs) (Keeps op) SyncChangesOwn op p w := by
  refine guarded_of_invariant (I := fun w => ∀ id ∈ ids, Mine op w id)
    (fun v v' hkeeps hv id hid => hkeeps id (hv id hid)) ?_ hp hw
  intro β s k v r v' hs hexec hv
  constructor
  · intro id hid
    exact keeps_exec hexec (not_steals_of_touches hs op v) id (hv id hid)
  · intro runId hop
    exact changesOnly_of_touches hs hexec (fun id hid => (hv id hid).own hop) op (k r)

theorem mine_jobIdsForRun (a : DriverSync) (w : World) :
    ∀ id ∈ jobIdsForRun w.db a.runId, Mine (.driver a) w id := by
  intro id hid
  obtain ⟨j, hj, hrun⟩ := (Table.mem_select_iff _ _ _).mp hid
  exact ⟨j, hj, of_decide_eq_true hrun⟩

theorem heeds_syncs (leaseSecs : ℕ) :
    Heeds (syncs leaseSecs) UnderWay Keeps Begins SyncChangesOwn where
  refl _ _ := fun _ hmine => hmine
  trans _ _ _ _ h₁ h₂ := fun jobId hmine => h₂ jobId (h₁ jobId hmine)
  start := by
    intro op w hbegin hway
    cases op with
    | session => cases hway
    | driver a =>
      intro w₁ _ current w₂ hread
      cases hread
      refine ⟨fun _ _ _ _ => rfl, ?_⟩
      exact guarded_of_mine (uses_syncCurrent a _) (mine_jobIdsForRun a w₁)
    | sacct a =>
      exact guarded_of_mine (uses_syncResultsFromSacct a) fun id hid => ⟨hid, hbegin id hid⟩
  look := by
    intro op β s k hleads hnot w r w' hexec
    cases op with
    | session =>
      constructor
      · intro runId hop
        cases hop
      · intro hway
        cases hway
    | driver a =>
      rcases hleads.first with heq | ⟨_, _, _, current, heq, hrest⟩
      · cases heq
        cases hexec
        refine ⟨fun _ _ _ _ => rfl, ?_⟩
        exact fun _ => guarded_of_mine (uses_syncCurrent a _) (mine_jobIdsForRun a w)
      · cases heq
        exact absurd ⟨trivial, current, hrest⟩ hnot
    | sacct => exact absurd trivial hnot

/-- In every run in which nobody registers a job of a synchronisation under way for another
run and every SLURM synchronisation starts on jobs of its run, each statement of a
synchronisation changes only rows that belong to its run at that moment. -/
theorem sync_changes_own_rows {leaseSecs : ℕ} {start finish : Syncs} {log : List Event}
    (hidle : start.Idle) (hrun : Run (OwnStep leaseSecs) start log finish) :
    ∀ e ∈ log, ∀ runId, synchronised e.operation = some runId →
      ∀ jobId, ¬ BelongsTo runId e.before jobId →
        e.after.db.jobs.get jobId = e.before.db.jobs.get jobId :=
  heedful_run (heeds_syncs leaseSecs) hidle (hrun.mono fun _ _ _ hstep _ => hstep.heedful)

/-- The kind of statement that may steal a job. -/
def isRegistering : {β : Type} → Statement β → Bool
  | _, .inl s => isRegistration s
  | _, .inr _ => false

theorem Steals.isRegistering {op : Operation} {β : Type} {s : Statement β} {w : World}
    (h : Steals op s w) : isRegistering s = true := by
  unfold Steals at h
  split at h
  · rfl
  · cases h

theorem own_advance {leaseSecs n : ℕ} (x : Syncs) (c : ℕ) (e : Event) (y : Syncs)
    (_ : ∀ c, n ≤ c → x.calls c = none) (hadv : advance (syncs leaseSecs) x c = some (e, y))
    (hok : (!isRegistering e.statement.2) = true) : OwnStep leaseSecs x (some e) y := by
  refine ⟨step_of_advance hadv, ?_, ?_⟩
  · rintro c' op p _ _ f ⟨⟩ hsteals
    rw [hsteals.isRegistering] at hok
    cases hok
  · intro c' op p hnone hsome
    exact nomatch (calls_none_of_advance hadv hnone).symm.trans hsome

def submitted : World where
  db := Db.empty.registerJob ⟨"j", "rule", "", none, some "r1"⟩
  now := 100

/-- The synchronisation of `r1` with a record of its only task. -/
def taskSync : DriverSync where
  runId := "r1"
  session := "sync"
  pid := 1
  records := [(⟨"j", .completed, some 0, 5, 9⟩, ⟨false, false, false⟩)]
  results := []
  closeFails := false

/-- The run `r2` has a job of its own, and its session claims it. -/
def besideRun : List Operation :=
  [.driver taskSync, .session (.createSession "s" 2 "host" none),
    .session (.claimJobForSession "k" "s")]

def bothRuns : World :=
  { submitted with db := submitted.db.registerJob ⟨"k", "rule", "", none, some "r2"⟩ }

/-- The session of `r2` claims its job after the synchronisation has read the rows of `r1`. -/
def besideSync : List Event × Syncs :=
  (schedule (syncs 90) [1, 1, 0, 0, 2, 0, 2, 0, 0, 0, 0, 0, 0]
    (started (syncs 90) bothRuns besideRun)).get rfl

/-- The synchronisation terminalises the job of its run and leaves the row that the session
of the other run claims meanwhile. -/
theorem sync_changes_own_rows_besideSync :
    (besideSync.2.world.db.jobs.get "j").map (·.status) = some .completed ∧
      (besideSync.2.world.db.jobs.get "k").map (fun j => (j.runId, j.status, j.sessionId)) =
        some (some "r2", .running, some "s") ∧
      ∀ e ∈ besideSync.1, ∀ runId, synchronised e.operation = some runId →
        ∀ jobId, ¬ BelongsTo runId e.before jobId →
          e.after.db.jobs.get jobId = e.before.db.jobs.get jobId := by
  have hstart : Run (OwnStep 90) (System.idle bothRuns) []
      (started (syncs 90) bothRuns besideRun) := by
    refine run_started_of _ _ _ ?_
    intro x c op hop hfree
    refine ⟨.call x c op hfree, fun _ _ _ _ _ e he => (by cases he), ?_⟩
    intro c' op' p hnone hcall
    rcases System.calls_setCall hcall with ⟨-, heq⟩ | ⟨-, hold⟩
    · cases heq
      rcases List.mem_cons.mp hop with rfl | hop
      · trivial
      · rcases List.mem_pair.mp hop with rfl | rfl <;> trivial
    · exact nomatch hnone.symm.trans hold
  have hrest : schedule (syncs 90) [1, 1, 0, 0, 2, 0, 2, 0, 0, 0, 0, 0, 0]
      (started (syncs 90) bothRuns besideRun) = some (besideSync.1, besideSync.2) := rfl
  have hrun := hstart.trans (run_along (fun _ e => !isRegistering e.statement.2)
    own_advance (fun _ h => calls_started_none h) hrest rfl)
  exact ⟨rfl, rfl, sync_changes_own_rows (fun _ => rfl) hrun⟩

/-- A newer run registers the job again and its session claims it. -/
def newerRun : List Operation :=
  [.driver taskSync, .session (.createSession "s" 2 "host" none),
    .session (.registerJobs [⟨"j", "rule", "", none, some "r2"⟩]),
    .session (.claimJobForSession "j" "s")]

/-- The synchronisation has read the rows of `r1` when the newer run takes the job. -/
def beforeReconcile : List Event × Syncs :=
  (schedule (syncs 90) [0, 1, 1, 2, 3, 3, 0, 0, 0, 0, 0]
    (started (syncs 90) submitted newerRun)).get rfl

def reconciling : Event × Syncs := (advance (syncs 90) beforeReconcile.2 0).get rfl

/-- The synchronisation of `r1` with a mapping that names the job. -/
def mappedSync : SacctSync where
  runId := "r1"
  jobMapping := [("j", 7)]
  records := [(⟨7, "FAILED".toList, 1, none, 0, []⟩, false)]

/-- A newer run has registered and claimed the job before the synchronisation starts. -/
def beforeSacct : List Event × Syncs :=
  (schedule (syncs 90) [1, 1, 2, 3, 3, 0]
    (started (syncs 90) submitted (.sacct mappedSync :: newerRun.tail))).get rfl

def failing : Event × Syncs := (advance (syncs 90) beforeSacct.2 0).get rfl

/-- Both synchronisations of `r1` terminalise a row that belongs to the newer run `r2` and
that a session of `r2` runs. -/
theorem not_sync_changes_own_rows_newer :
    (∃ (start finish : Syncs) (log : List Event) (e : Event), start.Idle ∧
      Run (Step (syncs 90)) start (log ++ [e]) finish ∧
      synchronised e.operation = some "r1" ∧ BelongsTo "r2" e.before "j" ∧
      e.operation = .driver taskSync ∧
      (e.before.db.jobs.get "j").map (·.status) = some .running ∧
      (e.after.db.jobs.get "j").map (·.status) = some .completed) ∧
    ∃ (start finish : Syncs) (log : List Event) (e : Event), start.Idle ∧
      Run (Step (syncs 90)) start (log ++ [e]) finish ∧
      synchronised e.operation = some "r1" ∧ BelongsTo "r2" e.before "j" ∧
      e.operation = .sacct mappedSync ∧
      (e.before.db.jobs.get "j").map (·.status) = some .running ∧
      (e.after.db.jobs.get "j").map (·.status) = some .failed := by
  constructor
  · have hrest : schedule (syncs 90) [0, 1, 1, 2, 3, 3, 0, 0, 0, 0, 0]
        (started (syncs 90) submitted newerRun) =
        some (beforeReconcile.1, beforeReconcile.2) := rfl
    have hlast : advance (syncs 90) beforeReconcile.2 0 =
        some (reconciling.1, reconciling.2) := rfl
    have hrun : Run (Step (syncs 90)) (System.idle submitted)
        (beforeReconcile.1 ++ [reconciling.1]) reconciling.2 :=
      ((run_started _ _ _).trans (run_of_schedule hrest)).trans
        (Run.single (step_of_advance hlast))
    exact ⟨_, _, _, _, fun _ => rfl, hrun, rfl, ⟨_, rfl, rfl⟩, rfl, rfl, rfl⟩
  · have hrest : schedule (syncs 90) [1, 1, 2, 3, 3, 0]
        (started (syncs 90) submitted (.sacct mappedSync :: newerRun.tail)) =
        some (beforeSacct.1, beforeSacct.2) := rfl
    have hlast : advance (syncs 90) beforeSacct.2 0 = some (failing.1, failing.2) := rfl
    have hrun : Run (Step (syncs 90)) (System.idle submitted)
        (beforeSacct.1 ++ [failing.1]) failing.2 :=
      ((run_started _ _ _).trans (run_of_schedule hrest)).trans
        (Run.single (step_of_advance hlast))
    exact ⟨_, _, _, _, fun _ => rfl, hrun, rfl, ⟨_, rfl, rfl⟩, rfl, rfl, rfl⟩

end OxyMake.SyncOwnership
