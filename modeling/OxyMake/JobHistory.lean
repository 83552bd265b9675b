import OxyMake.Interleaving
import OxyMake.StateDb
import Mathlib.Data.List.Pairwise

/-!
# The audit trail of a run

Finalising a run and synchronising it with a remote executor run the same
program: one query selects the terminal jobs of the run without a history row,
and one insertion for each of them follows. Other processes run the same
program at the same time, and every other statement of theirs changes the jobs
table only. No unique index stands behind the query, so what the trail holds
depends on how the queries and the insertions interleave.
-/

namespace OxyMake.JobHistory

open List
open StateDb KeyedTable LabelledRuns Interleaving

/-- What the cache layer knows of a job. -/
structure JobProvenance where
  inputHashes : Option String
  outputHashes : Option String
  paramsHash : Option String
  envHash : Option String
  reproducibilityClass : Option String
  artifactProvenanceJson : Option String
  deriving DecidableEq, Repr

/-- Provenance of a job the cache layer does not know. -/
def JobProvenance.default : JobProvenance := ⟨none, none, none, none, none, none⟩

/-- A row of the `job_history` table. -/
structure HistoryRow where
  runId : String
  jobId : String
  ruleName : String
  wildcards : Option String
  provenance : JobProvenance
  executor : Option String
  hostname : Option String
  startedAt : Option ℕ
  /-- When the job reached its terminal status, in UNIX seconds. -/
  completedAt : Option ℕ
  wallTimeMs : Option ℕ
  peakMemMb : Option ℕ
  cpuTimeMs : Option ℕ
  node : Option String
  exitCode : Option ℤ
  status : JobStatus
  cached : Option Bool
  submissionId : Option String
  deriving DecidableEq, Repr

def HistoryRow.key (row : HistoryRow) : String × String := (row.runId, row.jobId)

/-- The tables that the programs read and write. -/
structure World where
  db : Db
  /-- The submission of each job to a remote executor. -/
  submissionId : String → Option String
  history : List HistoryRow

/-- The number of history rows of a job of a run. -/
def World.rowsFor (w : World) (runId jobId : String) : ℕ :=
  w.history.countP fun row => row.key = (runId, jobId)

def isTerminal (status : JobStatus) : Bool :=
  status = .completed || status = .failed || status = .skipped || status = .cancelled

/-- The query: the terminal jobs of a run without a history row, with their submissions. -/
def World.unrecorded (w : World) (runId : String) : List (String × Job × Option String) :=
  (w.db.jobs.rows.filter fun e =>
    e.2.runId = some runId && isTerminal e.2.status && w.rowsFor runId e.1 = 0).map
      fun e => (e.1, e.2, w.submissionId e.1)

/-- Single statements on the audit trail, with their answers. -/
inductive Statement : Type → Type
  | unrecorded (runId : String) : Statement (List (String × Job × Option String))
  | insert (row : HistoryRow) : Statement Unit

def Statement.exec : {β : Type} → Statement β → World → Option (β × World)
  | _, .unrecorded runId, w => some (w.unrecorded runId, w)
  | _, .insert row, w => some ((), { w with history := w.history ++ [row] })

/-- What a finalisation or a synchronisation is given. -/
structure Recording where
  runId : String
  /-- The jobs a synchronisation has just terminalised; none for a finalisation. -/
  only : Option (List String)
  executor : String
  hostname : String
  wallTimes : String → Option ℕ
  peakMemoryBytes : String → Option ℕ
  provenance : String → Option JobProvenance
  executors : String → Option String
  cpuTimesMs : String → Option ℕ
  nodes : String → Option String

def bytesToMibRoundedUp (bytes : ℕ) : ℕ :=
  bytes / 2 ^ 20 + if bytes % 2 ^ 20 ≠ 0 then 1 else 0

/-- The exit code of a row without a stored one. -/
def defaultExitCode : JobStatus → Option ℤ
  | .completed => some 0
  | .failed => some 1
  | _ => none

def Recording.entry (a : Recording) (e : String × Job × Option String) : HistoryRow where
  runId := a.runId
  jobId := e.1
  ruleName := e.2.1.ruleName
  wildcards := some e.2.1.wildcards
  provenance := (a.provenance e.1).getD .default
  executor := some ((a.executors e.1).getD a.executor)
  hostname := some a.hostname
  startedAt := e.2.1.startedAt
  completedAt := e.2.1.completedAt
  wallTimeMs := a.wallTimes e.1
  peakMemMb := (a.peakMemoryBytes e.1).map bytesToMibRoundedUp
  cpuTimeMs := a.cpuTimesMs e.1
  node := a.nodes e.1
  exitCode := e.2.1.exitCode.or (defaultExitCode e.2.1.status)
  status := e.2.1.status
  cached := some e.2.1.cached
  submissionId := e.2.2

def Recording.covers (a : Recording) (jobId : String) : Bool :=
  match a.only with
  | some ids => jobId ∈ ids
  | none => true

def Recording.entries (a : Recording) (selected : List (String × Job × Option String)) :
    List HistoryRow :=
  (selected.map a.entry).filter fun row => a.covers row.jobId

/-- Insert rows one after another and return their number. -/
def insertRows (count : ℕ) : List HistoryRow → Prog Statement ℕ
  | [] => .ret count
  | row :: rows => .stmt (.insert row) fun _ => insertRows count rows

/-- Insert a history row for every terminal job that has none yet. -/
def recordUnrecordedHistory (a : Recording) : Prog Statement ℕ :=
  .stmt (.unrecorded a.runId) fun selected =>
    insertRows (a.entries selected).length (a.entries selected)

/-- Finalisations and synchronisations of any number of processes; every other statement
leaves the audit trail alone. -/
def recorders : Machine Statement World Recording ℕ where
  exec := Statement.exec
  program := recordUnrecordedHistory
  drift w w' := w'.history = w.history

abbrev Recorders := System Statement World Recording ℕ

abbrev Event := Executed Statement World Recording ℕ

/-- The rows that a call has selected and not inserted. -/
def pending : Prog Statement ℕ → List HistoryRow
  | .stmt (.insert row) k => row :: pending (k ())
  | _ => []

/-- The job is a terminal job of the run. -/
def TerminalIn (w : World) (runId jobId : String) : Prop :=
  ∃ j, w.db.jobs.get jobId = some j ∧ j.runId = some runId ∧ isTerminal j.status = true

/-- No job of a run has two history rows. -/
def AtMostOneRow (w : World) : Prop := ∀ runId jobId, w.rowsFor runId jobId ≤ 1

def Completes (e : Event) : Prop := ∃ count, e.rest = .ret count

/-- Every terminal job of the run has one row when a call for the run completes. -/
def CompleteAt (e : Event) : Prop :=
  Completes e → ∀ jobId, TerminalIn e.after e.operation.runId jobId →
    e.after.rowsFor e.operation.runId jobId = 1

def isQuery : (β : Type) × Statement β → Bool
  | ⟨_, .unrecorded _⟩ => true
  | ⟨_, .insert _⟩ => false

/-- A step during which recordings of one job do not overlap: a query selects no job that
another call has selected and not inserted, and no job of a run becomes terminal between the
query and the last insertion of a call for that run. -/
structure Orderly (x : Recorders) (label : Option Event) (y : Recorders) : Prop where
  /-- A query selects no job that another call is about to insert. -/
  apart : ∀ e ∈ label, isQuery e.statement = true → ∀ c a p,
    x.calls c = some (a, p) → ∀ row ∈ pending p,
      ∀ row' ∈ e.operation.entries (x.world.unrecorded e.operation.runId), row.key ≠ row'.key
  /-- No job becomes terminal while a call for its run is inserting. -/
  settled : ∀ c a p, x.calls c = some (a, p) → pending p ≠ [] →
    ∀ jobId, TerminalIn y.world a.runId jobId → TerminalIn x.world a.runId jobId

/-- Steps during which recordings of one job do not overlap. -/
def OrderlyStep (x : Recorders) (label : Option Event) (y : Recorders) : Prop :=
  Step recorders x label y ∧ Orderly x label y

section Queries

/-- The rows left to insert are those pending. -/
@[simp]
theorem pending_insertRows (count : ℕ) (rows : List HistoryRow) :
    pending (insertRows count rows) = rows := by
  induction rows with
  | nil => rfl
  | cons row rows ih =>
    rw [insertRows, pending, ih]

theorem rowsFor_insert (w : World) (row : HistoryRow) (runId jobId : String) :
    ({ w with history := w.history ++ [row] } : World).rowsFor runId jobId =
      w.rowsFor runId jobId + if row.key = (runId, jobId) then 1 else 0 := by
  rw [World.rowsFor, World.rowsFor, countP_append, countP_singleton]
  simp only [decide_eq_true_eq]

theorem mem_unrecorded {w : World} {runId : String} {e : String × Job × Option String} :
    e ∈ w.unrecorded runId ↔ w.db.jobs.get e.1 = some e.2.1 ∧ e.2.1.runId = some runId ∧
      isTerminal e.2.1.status = true ∧ w.rowsFor runId e.1 = 0 ∧
      w.submissionId e.1 = e.2.2 := by
  obtain ⟨jobId, job, _⟩ := e
  rw [World.unrecorded, mem_map]
  constructor
  · rintro ⟨⟨k, j⟩, hmem, heq⟩
    rw [mem_filter, Bool.and_eq_true, Bool.and_eq_true, decide_eq_true_eq,
      decide_eq_true_eq] at hmem
    cases heq
    exact ⟨(w.db.jobs.mem_rows_iff _ _).mp hmem.1, hmem.2.1.1, hmem.2.1.2, hmem.2.2, rfl⟩
  · rintro ⟨hget, hrun, hterminal, hrows, hsubmission⟩
    refine ⟨(jobId, job), ?_, congrArg (fun s => (jobId, job, s)) hsubmission⟩
    rw [mem_filter, Bool.and_eq_true, Bool.and_eq_true, decide_eq_true_eq,
      decide_eq_true_eq]
    exact ⟨(w.db.jobs.mem_rows_iff _ _).mpr hget, ⟨hrun, hterminal⟩, hrows⟩

theorem mem_entries {w : World} {a : Recording} {row : HistoryRow}
    (h : row ∈ a.entries (w.unrecorded a.runId)) :
    row.runId = a.runId ∧ w.rowsFor row.runId row.jobId = 0 := by
  rw [Recording.entries, mem_filter, mem_map] at h
  obtain ⟨⟨e, he, rfl⟩, -⟩ := h
  exact ⟨rfl, (mem_unrecorded.mp he).2.2.2.1⟩

theorem nodup_entries (w : World) (a : Recording) :
    ((a.entries (w.unrecorded a.runId)).map HistoryRow.key).Nodup := by
  have hrows : ((w.db.jobs.rows.filter fun e => e.2.runId = some a.runId &&
      isTerminal e.2.status && w.rowsFor a.runId e.1 = 0).map Prod.fst).Nodup :=
    w.db.jobs.nodup.sublist (filter_sublist.map Prod.fst)
  have hall : (((w.unrecorded a.runId).map a.entry).map HistoryRow.key).Nodup := by
    rw [World.unrecorded, map_map, map_map]
    have hkeys := hrows.map (f := fun jobId => (a.runId, jobId)) (fun _ _ h => congrArg Prod.snd h)
    rw [map_map] at hkeys
    exact hkeys
  exact hall.sublist (filter_sublist.map HistoryRow.key)

theorem recorded_or_mem_entries {w : World} {a : Recording} {jobId : String}
    (hterminal : TerminalIn w a.runId jobId) (hcovers : a.covers jobId = true) :
    0 < w.rowsFor a.runId jobId ∨
      ∃ row ∈ a.entries (w.unrecorded a.runId), row.key = (a.runId, jobId) := by
  obtain ⟨job, hget, hrun, hstatus⟩ := hterminal
  rcases Nat.eq_zero_or_pos (w.rowsFor a.runId jobId) with hzero | hpos
  · have hmem : (jobId, job, w.submissionId jobId) ∈ w.unrecorded a.runId :=
      mem_unrecorded.mpr ⟨hget, hrun, hstatus, hzero, rfl⟩
    refine .inr ⟨a.entry (jobId, job, w.submissionId jobId), ?_, rfl⟩
    exact mem_filter.mpr ⟨mem_map_of_mem hmem, hcovers⟩
  · exact .inl hpos

end Queries

theorem recorded_insert {w : World} {row : HistoryRow} {rows : List HistoryRow}
    {runId jobId : String}
    (h : 0 < w.rowsFor runId jobId ∨ ∃ row' ∈ row :: rows, row'.key = (runId, jobId)) :
    0 < ({ w with history := w.history ++ [row] } : World).rowsFor runId jobId ∨
      ∃ row' ∈ rows, row'.key = (runId, jobId) := by
  rw [rowsFor_insert]
  rcases h with hpos | ⟨row', hrow', hkey⟩
  · exact .inl (Nat.add_pos_left hpos _)
  · rcases mem_cons.mp hrow' with rfl | hrow'
    · rw [if_pos hkey]
      exact .inl (Nat.succ_pos _)
    · exact .inr ⟨row', hrow', hkey⟩

/-- What is left of a call: its whole program, the insertions after its query, or an error. -/
def Shape (a : Recording) (p : Prog Statement ℕ) : Prop :=
  p = recordUnrecordedHistory a ∨
    (∃ count rows, p = insertRows count rows ∧ ∀ row ∈ rows, row.runId = a.runId) ∨ p = .err

/-- What a call knows of the rows it is about to insert. -/
structure Inserting (w : World) (a : Recording) (p : Prog Statement ℕ) : Prop where
  shape : Shape a p
  /-- The jobs have no row yet. -/
  fresh : ∀ row ∈ pending p, w.rowsFor row.runId row.jobId = 0
  distinct : ((pending p).map HistoryRow.key).Nodup
  /-- The terminal jobs it covers have a row or are about to get one. -/
  covered : pending p ≠ [] → ∀ jobId, TerminalIn w a.runId jobId → a.covers jobId = true →
    0 < w.rowsFor a.runId jobId ∨ ∃ row ∈ pending p, row.key = (a.runId, jobId)

/-- What every orderly run keeps. -/
structure Consistent (x : Recorders) : Prop where
  recorded : AtMostOneRow x.world
  /-- Every call inserts what its query found missing. -/
  calls : ∀ c a p, x.calls c = some (a, p) → Inserting x.world a p
  /-- Two calls insert rows of different jobs. -/
  apart : ∀ c c' a a' p p', c ≠ c' → x.calls c = some (a, p) → x.calls c' = some (a', p') →
    ∀ row ∈ pending p, ∀ row' ∈ pending p', row.key ≠ row'.key

section Steps

variable {x y : Recorders} {w w' : World} {a : Recording} {p : Prog Statement ℕ}

theorem Inserting.of_pending_nil (hshape : Shape a p) (hpending : pending p = []) :
    Inserting w a p := by
  refine ⟨hshape, ?_, ?_, fun hne => absurd hpending hne⟩
  · rw [hpending]
    exact fun row hrow => nomatch hrow
  · rw [hpending]
    exact nodup_nil

theorem Consistent.setCall (hx : Consistent x) {c : ℕ} (hrecorded : AtMostOneRow w)
    (hp : Inserting w a p)
    (hothers : ∀ c' a' p', c' ≠ c → x.calls c' = some (a', p') → Inserting w a' p')
    (hapart : ∀ c' a' p', c' ≠ c → x.calls c' = some (a', p') →
      ∀ row ∈ pending p, ∀ row' ∈ pending p', row.key ≠ row'.key) :
    Consistent (x.setCall w c a p) := by
  refine ⟨hrecorded, ?_, ?_⟩
  · intro c' a' p' hcall
    rcases System.calls_setCall hcall with ⟨-, heq⟩ | ⟨hne, hold⟩
    · cases heq
      exact hp
    · exact hothers c' a' p' hne hold
  · intro c₁ c₂ a₁ a₂ p₁ p₂ hne hcall₁ hcall₂ row₁ hrow₁ row₂ hrow₂
    rcases System.calls_setCall hcall₁ with ⟨rfl, heq₁⟩ | ⟨hne₁, hold₁⟩
    · cases heq₁
      rcases System.calls_setCall hcall₂ with ⟨rfl, -⟩ | ⟨hne₂, hold₂⟩
      · exact absurd rfl hne
      · exact hapart c₂ a₂ p₂ hne₂ hold₂ row₁ hrow₁ row₂ hrow₂
    · rcases System.calls_setCall hcall₂ with ⟨rfl, heq₂⟩ | ⟨-, hold₂⟩
      · cases heq₂
        exact (hapart c₁ a₁ p₁ hne₁ hold₁ row₂ hrow₂ row₁ hrow₁).symm
      · exact hx.apart c₁ c₂ a₁ a₂ p₁ p₂ hne hold₁ hold₂ row₁ hrow₁ row₂ hrow₂

theorem Consistent.setCall_nil (hx : Consistent x) (c : ℕ) (hshape : Shape a p)
    (hpending : pending p = []) : Consistent (x.setCall x.world c a p) := by
  refine hx.setCall hx.recorded (.of_pending_nil hshape hpending)
    (fun c' a' p' _ hcall => hx.calls c' a' p' hcall) ?_
  rw [hpending]
  exact fun c' a' p' _ _ row hrow => nomatch hrow

theorem inserting_entries (w : World) (a : Recording) :
    Inserting w a (insertRows (a.entries (w.unrecorded a.runId)).length
      (a.entries (w.unrecorded a.runId))) := by
  refine ⟨.inr (.inl ⟨_, _, rfl, fun row hrow => (mem_entries hrow).1⟩), ?_, ?_, ?_⟩
  · rw [pending_insertRows]
    exact fun row hrow => (mem_entries hrow).2
  · rw [pending_insertRows]
    exact nodup_entries w a
  · rw [pending_insertRows]
    exact fun _ jobId hterminal hcovers => recorded_or_mem_entries hterminal hcovers

theorem Consistent.query (hx : Consistent x) (c : ℕ)
    (hapart : ∀ c' a' p', x.calls c' = some (a', p') → ∀ row ∈ pending p',
      ∀ row' ∈ a.entries (x.world.unrecorded a.runId), row.key ≠ row'.key) :
    Consistent (x.setCall x.world c a (insertRows (a.entries (x.world.unrecorded a.runId)).length
      (a.entries (x.world.unrecorded a.runId)))) := by
  refine hx.setCall hx.recorded (inserting_entries x.world a)
    (fun c' a' p' _ hcall' => hx.calls c' a' p' hcall') ?_
  intro c' a' p' _ hcall' row hrow row' hrow'
  rw [pending_insertRows] at hrow
  exact (hapart c' a' p' hcall' row' hrow' row hrow).symm

theorem Inserting.insert (h : Inserting w a p) {row : HistoryRow}
    (hother : ∀ row' ∈ pending p, row'.key ≠ row.key) :
    Inserting { w with history := w.history ++ [row] } a p := by
  refine ⟨h.shape, ?_, h.distinct, ?_⟩
  · intro row' hrow'
    have hne : row.key ≠ (row'.runId, row'.jobId) := (hother row' hrow').symm
    rw [rowsFor_insert, h.fresh row' hrow', if_neg hne]
  · intro hne jobId hterminal hcovers
    refine (h.covered hne jobId hterminal hcovers).imp_left ?_
    intro hpos
    rw [rowsFor_insert]
    omega

theorem Inserting.insert_own {row : HistoryRow} {count : ℕ} {rows : List HistoryRow}
    (h : Inserting w a (insertRows count (row :: rows))) :
    Inserting { w with history := w.history ++ [row] } a (insertRows count rows) := by
  obtain ⟨hshape, hfresh, hdistinct, hcovered⟩ := h
  rw [pending_insertRows] at hfresh hdistinct hcovered
  obtain ⟨hnew, hrest⟩ := nodup_cons.mp hdistinct
  refine ⟨?_, ?_, ?_, ?_⟩
  · rcases hshape with hshape | ⟨count', rows', hrows, hrun⟩ | hshape
    · have hpending := congrArg pending hshape
      rw [pending_insertRows] at hpending
      cases hpending
    · have hpending := congrArg pending hrows
      rw [pending_insertRows, pending_insertRows] at hpending
      subst hpending
      exact .inr (.inl ⟨count, rows, rfl, fun row hrow => hrun row (.tail _ hrow)⟩)
    · cases hshape
  · rw [pending_insertRows]
    intro row' hrow'
    have hne : row.key ≠ (row'.runId, row'.jobId) := by
      intro heq
      exact hnew (mem_map.mpr ⟨row', hrow', heq.symm⟩)
    rw [rowsFor_insert, hfresh row' (.tail _ hrow'), if_neg hne]
  · rw [pending_insertRows]
    exact hrest
  · rw [pending_insertRows]
    intro _ jobId hterminal hcovers
    exact recorded_insert (hcovered (cons_ne_nil _ _) jobId hterminal hcovers)

theorem Consistent.insert (hx : Consistent x) {c count : ℕ} {row : HistoryRow}
    {rows : List HistoryRow} (hcall : x.calls c = some (a, insertRows count (row :: rows))) :
    Consistent (x.setCall { x.world with history := x.world.history ++ [row] } c a
      (insertRows count rows)) := by
  have hown := hx.calls c a _ hcall
  have hmem : ∀ row' ∈ row :: rows, row' ∈ pending (insertRows count (row :: rows)) := by
    rw [pending_insertRows]
    exact fun row' hrow' => hrow'
  refine hx.setCall ?_ hown.insert_own ?_ ?_
  · intro runId jobId
    rw [rowsFor_insert]
    split_ifs with hkey
    · have hzero := hown.fresh row (hmem row mem_cons_self)
      cases hkey
      omega
    · exact hx.recorded runId jobId
  · intro c' a' p' hne hcall'
    refine (hx.calls c' a' p' hcall').insert ?_
    intro row' hrow'
    exact hx.apart c' c a' a p' _ hne hcall' hcall row' hrow' row (hmem row mem_cons_self)
  · intro c' a' p' hne hcall' row₁ hrow₁ row₂ hrow₂
    rw [pending_insertRows] at hrow₁
    exact hx.apart c c' a a' _ p' hne.symm hcall hcall' row₁
      (hmem row₁ (.tail _ hrow₁)) row₂ hrow₂

theorem Consistent.drift (hx : Consistent x) (hhistory : w.history = x.world.history)
    (hsettled : ∀ c a p, x.calls c = some (a, p) → pending p ≠ [] →
      ∀ jobId, TerminalIn w a.runId jobId → TerminalIn x.world a.runId jobId) :
    Consistent ⟨w, x.calls⟩ := by
  have hrows : ∀ runId jobId, w.rowsFor runId jobId = x.world.rowsFor runId jobId := by
    intro runId jobId
    rw [World.rowsFor, World.rowsFor, hhistory]
  refine ⟨?_, ?_, hx.apart⟩
  · intro runId jobId
    dsimp only
    rw [hrows]
    exact hx.recorded runId jobId
  · intro c a p hcall
    have hold := hx.calls c a p hcall
    refine ⟨hold.shape, ?_, hold.distinct, ?_⟩
    · intro row hrow
      rw [hrows]
      exact hold.fresh row hrow
    · intro hne jobId hterminal hcovers
      rw [hrows]
      exact hold.covered hne jobId (hsettled c a p hcall hne jobId hterminal) hcovers

theorem complete_of_consistent {c count : ℕ} {rows : List HistoryRow}
    (hx : Consistent (x.setCall w c a (insertRows count rows)))
    (hcovered : ∀ jobId, TerminalIn w a.runId jobId → a.covers jobId = true →
      0 < w.rowsFor a.runId jobId ∨ ∃ row ∈ rows, row.key = (a.runId, jobId))
    (hret : ∃ n, insertRows count rows = .ret n) {jobId : String}
    (hterminal : TerminalIn w a.runId jobId) (hcovers : a.covers jobId = true) :
    w.rowsFor a.runId jobId = 1 := by
  cases rows with
  | cons =>
    obtain ⟨n, hn⟩ := hret
    cases hn
  | nil =>
    have hle := hx.recorded a.runId jobId
    rcases hcovered jobId hterminal hcovers with hpos | ⟨row, hrow, -⟩
    · exact Nat.le_antisymm hle hpos
    · cases hrow

theorem Consistent.step {label : Option Event} (hx : Consistent x)
    (hstep : OrderlyStep x label y) :
    Consistent y ∧ ∀ e ∈ label, Completes e → ∀ jobId,
      TerminalIn e.after e.operation.runId jobId → e.operation.covers jobId = true →
      e.after.rowsFor e.operation.runId jobId = 1 := by
  obtain ⟨hstep, horderly⟩ := hstep
  cases hstep with
  | call c =>
    exact ⟨hx.setCall_nil c (.inl rfl) rfl, fun e he => nomatch he⟩
  | abort c =>
    exact ⟨hx.setCall_nil c (.inr (.inr rfl)) rfl, fun e he => nomatch he⟩
  | drift w hw =>
    exact ⟨hx.drift hw horderly.settled, fun e he => nomatch he⟩
  | execute c a s k r w hcall hexec =>
    have hown := hx.calls c a _ hcall
    rcases hown.shape with hshape | ⟨count, rows, hrows, -⟩ | hshape
    · cases hshape
      cases hexec
      have hnext := hx.query c (fun c' a' p' => horderly.apart _ rfl rfl c' a' p')
      refine ⟨hnext, ?_⟩
      rintro e ⟨⟩ hcomplete jobId hterminal hcovers
      exact complete_of_consistent hnext
        (fun jobId hterminal hcovers => recorded_or_mem_entries hterminal hcovers)
        hcomplete hterminal hcovers
    · cases rows with
      | nil => cases hrows
      | cons =>
        cases hrows
        cases hexec
        have hnext := hx.insert hcall
        refine ⟨hnext, ?_⟩
        rintro e ⟨⟩ hcomplete jobId hterminal hcovers
        refine complete_of_consistent hnext ?_ hcomplete hterminal hcovers
        intro jobId hterminal hcovers
        have hknown := hown.covered (by rw [pending]; exact cons_ne_nil _ _) jobId
          hterminal hcovers
        rw [pending, pending_insertRows] at hknown
        exact recorded_insert hknown
    · cases hshape

end Steps

/-- In a run during which recordings of one job do not overlap, no job of a run ever has two
rows, and a call that completes leaves exactly one for every terminal job of its run that it
covers. -/
theorem one_row_of_orderly {x y : Recorders} {log : List Event} (hidle : x.Idle)
    (hx : AtMostOneRow x.world) (hrun : Run OrderlyStep x log y) :
    AtMostOneRow y.world ∧ ∀ e ∈ log,
      (∀ jobId, TerminalIn e.after e.operation.runId jobId →
        e.operation.covers jobId = true) → CompleteAt e := by
  have hstart : Consistent x := by
    refine ⟨hx, ?_, ?_⟩
    · intro c a p hcall
      rw [hidle c] at hcall
      cases hcall
    · intro c c' a a' p p' _ hcall
      rw [hidle c] at hcall
      cases hcall
  suffices h : Consistent y ∧ ∀ e ∈ log, Completes e → ∀ jobId,
      TerminalIn e.after e.operation.runId jobId → e.operation.covers jobId = true →
      e.after.rowsFor e.operation.runId jobId = 1 by
    refine ⟨h.1.recorded, ?_⟩
    intro e he hcovers hcomplete jobId hterminal
    exact h.2 e he hcomplete jobId hterminal (hcovers jobId hterminal)
  clear hidle hx
  induction hrun with
  | refl => exact ⟨hstart, fun e he => nomatch he⟩
  | cons hstep _ ih =>
    obtain ⟨hnext, hlabel⟩ := hstart.step hstep
    obtain ⟨hfinal, hrest⟩ := ih hnext
    refine ⟨hfinal, ?_⟩
    intro e he
    rcases mem_append.mp he with he | he
    · exact hlabel e (Option.mem_toList.mp he)
    · exact hrest e he

/-- A database whose only job completed in the run `r`. -/
def finished : World where
  db :=
    { jobs := Table.empty.upsert "j"
        { Db.newRow ⟨"j", "rule", "", none, some "r"⟩ with
          status := .completed, startedAt := some 1, completedAt := some 2,
          exitCode := some 0 } id
      sessions := Table.empty }
  submissionId _ := none
  history := []

def idle (w : World) : Recorders := ⟨w, fun _ => none⟩

def finalisation : Recording where
  runId := "r"
  only := none
  executor := "local"
  hostname := "host"
  wallTimes _ := none
  peakMemoryBytes _ := none
  provenance _ := none
  executors _ := none
  cpuTimesMs _ := none
  nodes _ := none

/-- The synchronisation of the job `j` of the run `r` with its remote executor. -/
def synchronisation : Recording :=
  { finalisation with only := some ["j"], executor := "ray" }

theorem orderly_call {x : Recorders} {c : ℕ} {a : Recording} (h : x.calls c = none) :
    OrderlyStep x none (x.setCall x.world c a (recordUnrecordedHistory a)) := by
  refine ⟨.call x c a h, ?_, fun _ _ _ _ _ _ hterminal => hterminal⟩
  intro e he
  cases he

/-- No row that one of the first `n` calls is about to insert is selected by the query. -/
def apartBelow (n : ℕ) (x : Recorders) (e : Event) : Bool :=
  !isQuery e.statement || (List.range n).all fun c => (x.calls c).all fun call =>
    (pending call.2).all fun row =>
      (e.operation.entries (x.world.unrecorded e.operation.runId)).all fun row' =>
        row.key ≠ row'.key

theorem orderly_advance {n : ℕ} (x : Recorders) (c : ℕ) (e : Event) (y : Recorders)
    (hfree : ∀ c, n ≤ c → x.calls c = none) (hadv : advance recorders x c = some (e, y))
    (hok : apartBelow n x e = true) : OrderlyStep x (some e) y := by
  have hstep := step_of_advance hadv
  refine ⟨hstep, ?_, ?_⟩
  · rintro e ⟨⟩ hquery c a p hcall row hrow row' hrow'
    have hlt : c < n := by
      by_contra hge
      rw [hfree c (Nat.le_of_not_lt hge)] at hcall
      cases hcall
    rw [apartBelow, hquery, Bool.not_true, Bool.false_or] at hok
    have hcalls := all_eq_true.mp hok c (mem_range.mpr hlt)
    rw [hcall] at hcalls
    exact of_decide_eq_true (all_eq_true.mp (all_eq_true.mp hcalls row hrow) row' hrow')
  · intro c a p _ _ jobId hterminal
    cases hstep with
    | execute c op s k r w hcall hexec =>
      cases s with
      | unrecorded | insert =>
        cases hexec
        exact hterminal

/-- Two synchronisations, each of one job of a run, and the finalisation of the run. -/
def threeRecorders : List Recording :=
  [synchronisation, { synchronisation with only := some ["k"] }, finalisation]

/-- Both jobs of the run `r` are terminal. -/
def finishedPair : World :=
  { finished with
    db := finished.db.registerJob ⟨"k", "rule", "", none, some "r"⟩ |>.skipJob 2 "k" |>.2 }

/-- The synchronisations overlap, and the finalisation finds their rows. -/
def threeRecorded : List Event × Recorders :=
  (schedule recorders [0, 1, 0, 1, 2] (started recorders finishedPair threeRecorders)).get rfl

/-- Each job has the one row of its synchronisation when the finalisation completes. -/
theorem one_row_of_orderly_three :
    AtMostOneRow threeRecorded.2.world ∧ threeRecorded.2.world.history.length = 2 ∧
      ∀ jobId, TerminalIn threeRecorded.2.world "r" jobId →
        threeRecorded.2.world.rowsFor "r" jobId = 1 := by
  have hrest : schedule recorders [0, 1, 0, 1, 2]
      (started recorders finishedPair threeRecorders) =
      some (threeRecorded.1, threeRecorded.2) := rfl
  have hrun : Run OrderlyStep (System.idle finishedPair) threeRecorded.1 threeRecorded.2 :=
    (run_started_of recorders finishedPair threeRecorders fun x c a _ h => orderly_call h).trans
      (run_along _ orderly_advance (fun _ h => calls_started_none h) hrest rfl)
  have h := one_row_of_orderly (fun _ => rfl) (fun _ _ => Nat.zero_le _) hrun
  refine ⟨h.1, rfl, ?_⟩
  exact h.2 _ (mem_of_getElem? (i := 4) rfl) (fun _ _ => rfl) ⟨0, rfl⟩

def finalising : Recorders :=
  (idle finished).setCall finished 0 finalisation (recordUnrecordedHistory finalisation)

def overlapping : Recorders :=
  finalising.setCall finished 1 synchronisation (recordUnrecordedHistory synchronisation)

def overlapped : List Event × Recorders :=
  (schedule recorders [0, 1, 0, 1] overlapping).get rfl

/-- A finalisation and a synchronisation that overlap record one job twice. -/
theorem not_one_row_overlapped :
    ¬ ∀ (x y : Recorders) (log : List Event), x.Idle → AtMostOneRow x.world →
      Run (Step recorders) x log y → AtMostOneRow y.world ∧ ∀ e ∈ log, CompleteAt e := by
  intro h
  have hcalls : Run (Step recorders) (idle finished) [] overlapping :=
    (Run.silent (Step.call _ 0 finalisation rfl)).trans
      (Run.silent (Step.call _ 1 synchronisation rfl))
  have hsteps : schedule recorders [0, 1, 0, 1] overlapping =
      some (overlapped.1, overlapped.2) := rfl
  have hrun := hcalls.trans (run_of_schedule hsteps)
  have htwo := (h _ _ _ (fun _ => rfl) (fun _ _ => Nat.zero_le _) hrun).1 "r" "j"
  exact absurd htwo (by decide)

end OxyMake.JobHistory
