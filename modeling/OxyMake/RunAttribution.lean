import OxyMake.HistoryTracking

/-!
# To which run the audit trail attributes a job

A finalisation reads whatever the shared rows say. The history of a run is what
the run recorded when nobody else changes the row of a job between the run's
outcome for it and the run's finalisation, and it names no job the run had
nothing to do with when the run deals with every terminal row that came to it
by its registration or by another run. A run that registers a job of another
run before that run finalises takes the job out of its history.
-/

namespace OxyMake.RunAttribution

open List
open KeyedTable StateDb Interleaving LabelledRuns AuditedRuns JobOutcomes
open HistoryTracking
open JobHistory (HistoryRow Recording isTerminal TerminalIn mem_unrecorded)

/-! ### Outcomes that stand until they are read -/

/-- The run, status, exit code and cache flag that the row of a job states. -/
def standing (w : World) (jobId : String) :
    Option (Option String × JobStatus × Option ℤ × Bool) :=
  (w.db.jobs.get jobId).map fun j => (j.runId, j.status, j.exitCode, j.cached)

/-- The finalisation of the run has executed its query. -/
def Queried (runId : String) (past : List Event) : Prop :=
  ∃ q ∈ past, ∃ a, QueryOf a q ∧ a.runId = runId

/-- A run that has begun to finalise only inserts history. -/
def InOrder (past : List Event) (e : Event) : Prop :=
  Queried e.operation.run past → ∃ row, e.statement = ⟨_, .inr (.insert row)⟩

/-- What the runs leave each other. -/
structure Undisturbed (past : List Event) (e : Event) : Prop where
  /-- A run records outcomes in rows that belong to it. -/
  own : ∀ runId jobId, Makes runId jobId e →
    ∃ j, e.before.db.jobs.get jobId = some j ∧ j.runId = some runId
  /-- From an outcome of a run to its finalisation only a further outcome of the run changes
  what the row states. -/
  kept : ∀ runId jobId, (∃ r ∈ past, Makes runId jobId r) → ¬ Queried runId past →
    ¬ Makes runId jobId e → standing e.after jobId = standing e.before jobId
  /-- Before it finalises, a run deals with every job whose terminal row came to it. -/
  dealt : ∀ a, QueryOf a e → ∀ g ∈ past, ∀ jobId, Inherits a.runId jobId g →
    ∃ d ∈ past, Deals a.runId jobId d

/-- Until the run finalises, the row states the last outcome the run recorded. -/
def Stands (runId jobId : String) (past : List Event) (x : Runs) : Prop :=
  ¬ Queried runId past → ∀ pre r post, past = pre ++ r :: post → Makes runId jobId r →
    (∀ f ∈ post, ¬ Makes runId jobId f) →
      standing x.world jobId = standing r.after jobId ∧ TerminalIn r.after.audit runId jobId

theorem terminal_of_makes {op : Operation} {β : Type} {s : Statement β} {w w' : World} {r : β}
    {p : Program Outcome} (hexec : exec s w = some (r, w')) {runId jobId : String}
    (hmakes : Makes runId jobId ⟨op, ⟨β, s⟩, w, w', p⟩)
    (hown : ∃ j, w.db.jobs.get jobId = some j ∧ j.runId = some runId) :
    TerminalIn w'.audit runId jobId := by
  obtain ⟨-, hproduces⟩ := hmakes
  cases s with
  | inr => cases hproduces
  | inl =>
    obtain ⟨j, j', hj, hj', hrun, hterminal⟩ := terminal_of_produces hproduces
    obtain ⟨i, hi, hirun⟩ := hown
    have heq : i = j := Option.some.inj (hi.symm.trans hj)
    subst heq
    rw [exec_inl hexec]
    exact ⟨j', hj', hrun.trans hirun, hterminal⟩

theorem Stands.step {leaseSecs : ℕ} {runId jobId : String} {past : List Event} {x y : Runs}
    {label : Option Event} (h : Stands runId jobId past x)
    (hstep : Step (runs leaseSecs) x label y) (hcond : ∀ e ∈ label, Undisturbed past e) :
    Stands runId jobId (past ++ label.toList) y := by
  have hsilent : label = none → y.world.db = x.world.db →
      Stands runId jobId (past ++ label.toList) y := by
    intro hnone hdb
    subst hnone
    rw [Option.toList_none, append_nil]
    intro hopen pre r post hpast hmakes hlast
    have hworld : standing y.world jobId = standing x.world jobId := by
      unfold standing
      rw [hdb]
    rw [hworld]
    exact h hopen pre r post hpast hmakes hlast
  cases hstep with
  | call | abort => exact hsilent rfl rfl
  | drift w hw => exact hsilent rfl hw.1
  | execute c op s k v w hcall hexec =>
    have hun := hcond _ rfl
    intro hopen pre r post hpast hmakes hlast
    have hopen' : ¬ Queried runId past := by
      rintro ⟨q, hq, hquery⟩
      exact hopen ⟨q, mem_append_left _ hq, hquery⟩
    rw [Option.toList_some] at hpast
    rcases eq_nil_or_concat post with hnil | ⟨post', f, hconcat⟩
    · subst hnil
      obtain ⟨-, hr⟩ := append_inj' hpast rfl
      obtain ⟨rfl, -⟩ := cons_eq_cons.mp hr
      exact ⟨rfl, terminal_of_makes hexec hmakes (hun.own runId jobId hmakes)⟩
    · subst hconcat
      rw [concat_eq_append, ← cons_append, ← append_assoc] at hpast
      obtain ⟨hpre, hf⟩ := append_inj' hpast rfl
      obtain ⟨rfl, -⟩ := cons_eq_cons.mp hf
      have hmade : ∃ m ∈ past, Makes runId jobId m :=
        ⟨r, by rw [hpre]; exact mem_append_right _ mem_cons_self, hmakes⟩
      rw [concat_eq_append] at hlast
      have hnot := hlast _ (mem_append_right _ (mem_singleton_self _))
      have hkept := hun.kept runId jobId hmade hopen' hnot
      have hold := h hopen' pre r post' hpre hmakes fun f hf => hlast f (mem_append_left _ hf)
      exact ⟨hkept.trans hold.1, hold.2⟩

/-! ### The history of a run -/

/-- The history row states what the row of the job stated. -/
def States (row : HistoryRow) (j : Job) : Prop :=
  row.status = j.status ∧ row.exitCode = j.exitCode.or (JobHistory.defaultExitCode j.status) ∧
    row.cached = some j.cached

theorem states_of_selected {a : Recording} {w : World} {row : HistoryRow}
    (h : row ∈ selected a w) : row.runId = a.runId ∧
      ∃ j, w.db.jobs.get row.jobId = some j ∧ j.runId = some a.runId ∧
        isTerminal j.status = true ∧ States row j := by
  rw [selected, Recording.entries, mem_filter, mem_map] at h
  obtain ⟨⟨e, he, rfl⟩, -⟩ := h
  obtain ⟨hget, hrun, hterminal, -⟩ := mem_unrecorded.mp he
  exact ⟨rfl, e.2.1, hget, hrun, hterminal, rfl, rfl, rfl⟩

theorem selected_of_terminal {a : Recording} {w : World} {jobId : String}
    (hterminal : TerminalIn w.audit a.runId jobId)
    (hnone : ∀ row ∈ w.history, row.runId = a.runId → row.jobId ≠ jobId) :
    ∃ row ∈ selected a w, row.jobId = jobId := by
  have hzero : w.audit.rowsFor a.runId jobId = 0 := by
    rw [JobHistory.World.rowsFor, countP_eq_zero]
    intro row hrow hkey
    have heq : row.key = (a.runId, jobId) := of_decide_eq_true hkey
    exact hnone row hrow (congrArg Prod.fst heq) (congrArg Prod.snd heq)
  rcases JobHistory.recorded_or_mem_entries (a := ofRun a) hterminal rfl with hpos | hmem
  · have hrows : 0 < w.audit.rowsFor a.runId jobId := hpos
    rw [hzero] at hrows
    cases hrows
  · obtain ⟨row, hrow, hkey⟩ := hmem
    exact ⟨row, hrow, congrArg Prod.snd hkey⟩

theorem states_of_standing {w w' : World} {jobId : String} {row : HistoryRow} {j j' : Job}
    (h : standing w jobId = standing w' jobId) (hj : w.db.jobs.get jobId = some j)
    (hj' : w'.db.jobs.get jobId = some j') (hrow : States row j) : States row j' := by
  rw [standing, standing, hj, hj', Option.map_some, Option.map_some] at h
  have heq := Option.some.inj h
  simp only [Prod.mk.injEq] at heq
  obtain ⟨-, hstatus, hexit, hcached⟩ := heq
  obtain ⟨h₁, h₂, h₃⟩ := hrow
  refine ⟨h₁.trans hstatus, ?_, ?_⟩
  · rw [h₂, hexit, hstatus]
  · rw [h₃, hcached]

theorem terminal_of_standing {w w' : World} {runId jobId : String}
    (h : standing w jobId = standing w' jobId) (h' : TerminalIn w'.audit runId jobId) :
    TerminalIn w.audit runId jobId := by
  obtain ⟨j', hj', hrun, hterminal⟩ := h'
  have hget' : w'.db.jobs.get jobId = some j' := hj'
  rw [standing, standing, hget', Option.map_some] at h
  obtain ⟨j, hj, heq⟩ := Option.map_eq_some_iff.mp h
  simp only [Prod.mk.injEq] at heq
  exact ⟨j, hj, heq.1.trans hrun, by rw [heq.2.1]; exact hterminal⟩

section Run

variable {leaseSecs : ℕ} {start finish : Runs} {log : List Event} (hidle : start.Idle)
  (hjobs : start.world.db = Db.empty) (hhistory : start.world.history = [])
  (hrun : Run (Step (runs leaseSecs)) start log finish)

include hidle hrun

theorem allowed_at : ∀ pre e post, log = pre ++ e :: post → Allowed e.operation e.statement.2 := by
  intro pre e post heq
  refine allowed_of_run hidle hrun e ?_
  rw [heq]
  exact mem_append_right _ mem_cons_self

include hhistory in
theorem tracked_of_run : Tracked leaseSecs log finish := by
  have hstart : Tracked leaseSecs [] start := by
    constructor
    · intro row hrow
      rw [hhistory] at hrow
      cases hrow
    · intro c a p hcall
      rw [hidle c] at hcall
      cases hcall
  exact Run.recorded_if (fun _ e => Allowed e.operation e.statement.2)
    (fun _ _ _ _ hx hstep hallowed => hx.step hstep hallowed) hrun hstart
    (allowed_at hidle hrun)

include hjobs in
theorem explained_of_run : Explained log finish := by
  have hstart : Explained [] start := by
    intro runId jobId hterminal
    obtain ⟨j, hj, -⟩ := hterminal
    have hget : start.world.db.jobs.get jobId = some j := hj
    rw [hjobs] at hget
    cases hget
  exact Run.recorded_if (fun _ e => Allowed e.operation e.statement.2)
    (fun _ _ _ _ hx hstep hallowed => hx.step hstep hallowed) hrun hstart
    (allowed_at hidle hrun)

omit hidle in
theorem stands_of_run (hun : ∀ pre e post, log = pre ++ e :: post → Undisturbed pre e)
    (runId jobId : String) : Stands runId jobId log finish := by
  have hstart : Stands runId jobId [] start := by
    intro _ pre r post hnil
    exact absurd hnil.symm (append_ne_nil_of_right_ne_nil pre (cons_ne_nil r post))
  exact Run.recorded_if _ (fun _ _ _ _ hx hstep hcond => hx.step hstep hcond) hrun hstart hun

end Run

theorem made_before_query {log : List Event}
    (horder : ∀ pre e post, log = pre ++ e :: post → InOrder pre e) {a : Recording}
    {jobId : String} {pre post pre' post' : List Event} {q r : Event}
    (hq : log = pre ++ q :: post) (hquery : QueryOf a q) (hr : log = pre' ++ r :: post')
    (hmakes : Makes a.runId jobId r) :
    ∃ between, pre = pre' ++ r :: between ∧ post' = between ++ q :: post := by
  have hne : r ≠ q := by
    intro heq
    obtain ⟨β, s, hs⟩ := hmakes.isJob
    rw [heq, hquery.2] at hs
    cases hs
  rcases append_eq_append_iff.mp (hq.symm.trans hr) with ⟨l, hpre', hrest⟩ | ⟨l, hpre, hrest⟩
  · -- the query would come first
    cases l with
    | nil =>
      rw [nil_append] at hrest
      exact absurd (cons_eq_cons.mp hrest).1.symm hne
    | cons =>
      obtain ⟨rfl, -⟩ := cons_eq_cons.mp hrest
      have hqueried : Queried r.operation.run pre' := by
        refine ⟨q, ?_, a, hquery, hmakes.1.symm⟩
        rw [hpre']
        exact mem_append_right _ mem_cons_self
      obtain ⟨_, hinsert⟩ := horder pre' r post' hr hqueried
      obtain ⟨β, s, hs⟩ := hmakes.isJob
      rw [hinsert] at hs
      cases hs
  · cases l with
    | nil =>
      rw [nil_append] at hrest
      exact absurd (cons_eq_cons.mp hrest).1 hne
    | cons f l =>
      obtain ⟨rfl, hpost'⟩ := cons_eq_cons.mp hrest
      exact ⟨l, hpre, hpost'⟩

theorem not_queried {log : List Event}
    (horder : ∀ pre e post, log = pre ++ e :: post → InOrder pre e) {a : Recording}
    {pre post : List Event} {q : Event} (hq : log = pre ++ q :: post) (hquery : QueryOf a q) :
    ¬ Queried a.runId pre := by
  intro hqueried
  have hrun : q.operation.run = a.runId := by
    rw [hquery.1]
    rfl
  rw [← hrun] at hqueried
  obtain ⟨_, hinsert⟩ := horder pre q post hq hqueried
  rw [hquery.2] at hinsert
  have hkind : true = false := congrArg (fun s : (β : Type) × Statement β =>
    HistoryTracking.isQuery s.2) hinsert
  cases hkind

section Attribution

variable {leaseSecs : ℕ} {start finish : Runs} {log : List Event} (hidle : start.Idle)
  (hjobs : start.world.db = Db.empty) (hhistory : start.world.history = [])
  (hrun : Run (Step (runs leaseSecs)) start log finish)
  (horder : ∀ pre e post, log = pre ++ e :: post → InOrder pre e)
  (hun : ∀ pre e post, log = pre ++ e :: post → Undisturbed pre e)

include hrun horder hun in
theorem standing_at_query {a : Recording} {pre post pre' post' : List Event} {q r : Event}
    {jobId : String} (hq : log = pre ++ q :: post) (hquery : QueryOf a q)
    (hr : log = pre' ++ r :: post') (hmakes : Makes a.runId jobId r)
    (hlast : ∀ f ∈ post', ¬ Makes a.runId jobId f) :
    standing q.before jobId = standing r.after jobId ∧ TerminalIn r.after.audit a.runId jobId := by
  obtain ⟨between, hpre, hpost'⟩ := made_before_query horder hq hquery hr hmakes
  have hcut := hrun
  rw [hq] at hcut
  obtain ⟨m, n, hbefore, hstep, -⟩ := hcut.split_at
  have hworld : q.before = m.world := hstep.executed.1
  rw [hworld]
  refine stands_of_run hbefore ?_ a.runId jobId (not_queried horder hq hquery) pre' r between hpre
    hmakes ?_
  · intro pre₁ e post₁ heq
    refine hun pre₁ e (post₁ ++ q :: post) ?_
    rw [hq, heq, append_assoc, cons_append]
  · intro f hf
    refine hlast f ?_
    rw [hpost']
    exact mem_append_left _ hf

include hidle hhistory hrun horder hun in
theorem history_of_made {c count : ℕ} {a : Recording}
    (hreturned : finish.calls c = some (.finalize a, .ret (.finalized count)))
    {jobId : String} {pre post : List Event} {r : Event} (hr : log = pre ++ r :: post)
    (hmakes : Makes a.runId jobId r) (hlast : ∀ f ∈ post, ¬ Makes a.runId jobId f) :
    ∃ j, r.after.db.jobs.get jobId = some j ∧
      (∃ row ∈ finish.world.history, row.key = (a.runId, jobId)) ∧
      ∀ row ∈ finish.world.history, row.key = (a.runId, jobId) → States row j := by
  have htracked := tracked_of_run hidle hhistory hrun
  have hfilled : Filling log finish.world.history a (.ret (.finalized count)) := by
    rcases htracked.calls c a _ hreturned with hstart | herr | hfilling
    · cases hstart
    · cases herr
    · exact hfilling
  obtain ⟨_, q, _, _, left, hq, hquery, hp, hall, -⟩ := hfilled
  have hleft : left = [] := by
    cases left with
    | nil => rfl
    | cons => cases hp
  subst hleft
  obtain ⟨hstanding, hmade⟩ := standing_at_query hrun horder hun hq hquery hr hmakes hlast
  obtain ⟨j, hj, hjrun, hjterminal⟩ := hmade
  refine ⟨j, hj, ?_, ?_⟩
  · have hterminal : TerminalIn q.before.audit a.runId jobId :=
      terminal_of_standing hstanding ⟨j, hj, hjrun, hjterminal⟩
    have hnone : ∀ row ∈ q.before.history, row.runId = a.runId → row.jobId ≠ jobId := by
      intro row hrow hrowrun
      have hcut := hrun
      rw [hq] at hcut
      obtain ⟨m, n, hbefore, hstep, -⟩ := hcut.split_at
      rw [hstep.executed.1] at hrow
      obtain ⟨pre₂, q₂, post₂, a₂, hpre₂, hquery₂, hsel₂⟩ :=
        (tracked_of_run hidle hhistory hbefore).sourced row hrow
      have hrun₂ : a₂.runId = a.runId := (states_of_selected hsel₂).1.symm.trans hrowrun
      refine absurd ⟨q₂, ?_, a₂, hquery₂, hrun₂⟩ (not_queried horder hq hquery)
      rw [hpre₂]
      exact mem_append_right _ mem_cons_self
    obtain ⟨row, hrow, hid⟩ := selected_of_terminal hterminal hnone
    rcases hall row hrow with hin | hin
    · refine ⟨row, hin, ?_⟩
      rw [HistoryRow.key, (states_of_selected hrow).1, hid]
    · cases hin
  · intro row hrow hkey
    obtain ⟨pre₂, q₂, post₂, a₂, hq₂, hquery₂, hsel₂⟩ := htracked.sourced row hrow
    obtain ⟨hrun₂, _, hj₂, -, -, hstates⟩ := states_of_selected hsel₂
    have hrunid : a₂.runId = a.runId := hrun₂.symm.trans (congrArg Prod.fst hkey)
    have hid : row.jobId = jobId := congrArg Prod.snd hkey
    rw [← hrunid] at hmakes hlast
    obtain ⟨hstanding₂, -⟩ := standing_at_query hrun horder hun hq₂ hquery₂ hr hmakes hlast
    rw [hid] at hj₂
    exact states_of_standing hstanding₂ hj₂ hj hstates

include hidle hjobs hhistory hrun hun in
theorem dealt_of_history {row : HistoryRow} (hrow : row ∈ finish.world.history) :
    ∃ d ∈ log, Deals row.runId row.jobId d := by
  obtain ⟨pre, q, post, a, hq, hquery, hsel⟩ :=
    (tracked_of_run hidle hhistory hrun).sourced row hrow
  obtain ⟨hrunid, j, hj, hjrun, hterminal, -⟩ := states_of_selected hsel
  have hcut := hrun
  rw [hq] at hcut
  obtain ⟨m, n, hbefore, hstep, -⟩ := hcut.split_at
  have hworld : q.before = m.world := hstep.executed.1
  rw [hworld] at hj
  have hmem : ∀ d ∈ pre, d ∈ log := by
    intro d hd
    rw [hq]
    exact mem_append_left _ hd
  obtain ⟨g, hg, hdeals | hinherits⟩ :=
    explained_of_run hidle hjobs hbefore a.runId row.jobId ⟨j, hj, hjrun, hterminal⟩
  · exact ⟨g, hmem g hg, by rw [hrunid]; exact hdeals⟩
  · obtain ⟨d, hd, hdeals⟩ := (hun pre q post hq).dealt a hquery g hg row.jobId hinherits
    exact ⟨d, hmem d hd, by rw [hrunid]; exact hdeals⟩

end Attribution

/-- Over runs that each finalise at their end, leave the rows of the others' outcomes alone
until these are finalised, and deal with every terminal row that comes to them: a finalised
run has a history row for every job it executed or satisfied from the cache, its rows state
the outcome it recorded, and no row names a job the run had nothing to do with. -/
theorem history_belongs_to_run {leaseSecs : ℕ} {start finish : Runs} {log : List Event}
    (hidle : start.Idle) (hjobs : start.world.db = Db.empty) (hhistory : start.world.history = [])
    (hrun : Run (Step (runs leaseSecs)) start log finish)
    (horder : ∀ pre e post, log = pre ++ e :: post → InOrder pre e)
    (hun : ∀ pre e post, log = pre ++ e :: post → Undisturbed pre e) :
    (∀ c a count, finish.calls c = some (.finalize a, .ret (.finalized count)) →
      ∀ jobId pre r post, log = pre ++ r :: post → Makes a.runId jobId r →
        (∀ f ∈ post, ¬ Makes a.runId jobId f) →
        ∃ j, r.after.db.jobs.get jobId = some j ∧
          (∃ row ∈ finish.world.history, row.key = (a.runId, jobId)) ∧
          ∀ row ∈ finish.world.history, row.key = (a.runId, jobId) → States row j) ∧
    ∀ row ∈ finish.world.history, ∃ d ∈ log, Deals row.runId row.jobId d := by
  constructor
  · intro c a count hreturned jobId pre r post hr hmakes hlast
    exact history_of_made hidle hhistory hrun horder hun hreturned hr hmakes hlast
  · intro row hrow
    exact dealt_of_history hidle hjobs hhistory hrun hun hrow

theorem inOrder_of_unqueried {past : List Event} {e : Event}
    (h : past.all (fun q => !(isQuery q.statement.2 && q.operation.run == e.operation.run)) = true) :
    InOrder past e := by
  rintro ⟨q, hq, a, hquery, hrun⟩
  have hnot := all_eq_true.mp h q hq
  have hkind := hquery.isQuery
  have hsame : (q.operation.run == e.operation.run) = true := by
    rw [hquery.1, ← hrun]
    exact beq_self_eq_true _
  rw [hkind, hsame] at hnot
  cases hnot

theorem inOrder_of_insert {past : List Event} {e : Event} {row : HistoryRow}
    (h : e.statement = ⟨_, .inr (.insert row)⟩) : InOrder past e := fun _ => ⟨row, h⟩

def freshWorld : World := ⟨Db.empty, 100, fun _ => none, []⟩

def finalisation (runId : String) : Recording where
  runId := runId
  only := none
  executor := "local"
  hostname := "host"
  wallTimes _ := none
  peakMemoryBytes _ := none
  provenance _ := none
  executors _ := none
  cpuTimesMs _ := none
  nodes _ := none

section Sharing

variable {past : List Event} {e : Event}

theorem kept_of_settled (h : ∀ r ∈ past, mayDeal r.statement.2 = true →
    Queried r.operation.run past ∨ e.after.db = e.before.db) (runId jobId : String)
    (hmade : ∃ r ∈ past, Makes runId jobId r) (hopen : ¬ Queried runId past)
    (_ : ¬ Makes runId jobId e) : standing e.after jobId = standing e.before jobId := by
  obtain ⟨r, hr, hmakes⟩ := hmade
  rcases h r hr hmakes.mayDeal with hqueried | hdb
  · rw [hmakes.1] at hqueried
    exact absurd hqueried hopen
  · rw [standing, standing, hdb]

theorem settled_of_undealt {P : Event → Prop}
    (h : past.all (fun r => !mayDeal r.statement.2) = true) :
    ∀ r ∈ past, mayDeal r.statement.2 = true → P r := by
  intro r hr hdeal
  have hnone := all_eq_true.mp h r hr
  rw [hdeal] at hnone
  cases hnone

theorem settled_of_queried {i : ℕ} {a : Recording} {q : Event} (hq : past[i]? = some q)
    (hquery : QueryOf a q)
    (h : past.all (fun r => !mayDeal r.statement.2 || r.operation.run == a.runId) = true) :
    ∀ r ∈ past, mayDeal r.statement.2 = true →
      Queried r.operation.run past ∨ e.after.db = e.before.db := by
  intro r hr hdeal
  have hrun := all_eq_true.mp h r hr
  rw [hdeal, Bool.not_true, Bool.false_or, beq_iff_eq] at hrun
  rw [hrun]
  exact .inl ⟨q, mem_of_getElem? hq, a, hquery, rfl⟩

/-- A statement that records no outcome disturbs nobody while every outcome has been
queried or the rows stay as they are. -/
theorem undisturbed_of_idle (hkind : mayDeal e.statement.2 = false)
    (hquery : isQuery e.statement.2 = false) (hpast : ∀ r ∈ past, mayDeal r.statement.2 = true →
      Queried r.operation.run past ∨ e.after.db = e.before.db) : Undisturbed past e :=
  ⟨fun _ _ h => absurd (hkind.symm.trans h.mayDeal) Bool.false_ne_true, kept_of_settled hpast,
    fun _ h => absurd (hquery.symm.trans h.isQuery) Bool.false_ne_true⟩

/-- Nor does the outcome of a job in a row of the run. -/
theorem undisturbed_of_made {β : Type} {s : ClaimProtocol.Statement β} {id : String} {j : Job}
    (hs : e.statement = ⟨β, .inl s⟩) (hid : ∀ jobId w, Produces jobId s w → id = jobId)
    (hj : e.before.db.jobs.get id = some j) (hrun : j.runId = some e.operation.run)
    (hpast : ∀ r ∈ past, mayDeal r.statement.2 = true →
      Queried r.operation.run past ∨ e.after.db = e.before.db) : Undisturbed past e := by
  refine ⟨?_, kept_of_settled hpast, ?_⟩
  · rintro runId jobId ⟨hop, hproduces⟩
    rw [hs] at hproduces
    have heq := hid jobId _ hproduces
    subst heq
    exact ⟨j, hj, by rw [hrun, hop]⟩
  · rintro a ⟨-, hquery⟩
    cases hs.symm.trans hquery

/-- Nor does a query of a run that dealt with the only job that has a row. -/
theorem undisturbed_of_query {a : Recording} {id : String} (hquery : QueryOf a e)
    (hdb : e.after.db = e.before.db) (hsole : past.all (fun g =>
      (g.before.db.jobs.rows ++ g.after.db.jobs.rows).all fun row => row.1 = id) = true)
    (hdeals : ∃ d ∈ past, Deals a.runId id d) : Undisturbed past e := by
  refine ⟨?_, kept_of_settled fun _ _ _ => .inr hdb, ?_⟩
  · rintro runId jobId hmakes
    obtain ⟨β, s, hs⟩ := hmakes.isJob
    cases hs.symm.trans hquery.2
  · intro a' hquery' g hg jobId hinherits
    cases hquery.1.symm.trans hquery'.1
    have hrow : ∃ row ∈ g.before.db.jobs.rows ++ g.after.db.jobs.rows, row.1 = jobId := by
      rcases hinherits with ⟨-, j, hj, -⟩ | ⟨-, -, j, hj, -⟩
      · exact ⟨(jobId, j), mem_append_left _ ((Table.mem_rows_iff _ _ _).mpr hj), rfl⟩
      · exact ⟨(jobId, j), mem_append_right _ ((Table.mem_rows_iff _ _ _).mpr hj), rfl⟩
    obtain ⟨row, hrow, rfl⟩ := hrow
    have hid : row.1 = id :=
      of_decide_eq_true (all_eq_true.mp (all_eq_true.mp hsole g hg) row hrow)
    rw [hid]
    exact hdeals

end Sharing

/-- `A` executes a job and finalises, `B` registers the job, finds it in the cache and
finalises. -/
def successiveRuns : List Operation :=
  [.job "A" (.createSession "s" 1 "host" none),
    .job "A" (.registerJobs [⟨"j", "rule", "", none, none⟩]),
    .job "A" (.claimJobForSession "j" "s"), .job "A" (.completeJob "j" "s" 0 ""),
    .finalize (finalisation "A"), .job "B" (.registerJobs [⟨"j", "rule", "", none, none⟩]),
    .job "B" (.skipJob "j"), .finalize (finalisation "B")]

/-- `B` registers the job between the query of `A` and its insertion. -/
def successiveEnd : List Event × Runs :=
  (schedule (runs 90) [0, 0, 1, 2, 2, 3, 3, 4, 5, 4, 6, 6, 7, 7]
    (started (runs 90) freshWorld successiveRuns)).get rfl

theorem undisturbed_successive : Each Undisturbed [] successiveEnd.1 :=
  ⟨undisturbed_of_idle rfl rfl (settled_of_undealt rfl),
    undisturbed_of_idle rfl rfl (settled_of_undealt rfl),
    undisturbed_of_idle rfl rfl (settled_of_undealt rfl),
    undisturbed_of_idle rfl rfl (settled_of_undealt rfl),
    undisturbed_of_idle rfl rfl (settled_of_undealt rfl),
    undisturbed_of_idle rfl rfl (settled_of_undealt rfl),
    undisturbed_of_made (s := .completeJob 0 "" 100 "j" "s") rfl (fun _ _ h => h.1) rfl rfl
      (settled_of_undealt rfl),
    undisturbed_of_query (a := finalisation "A") ⟨rfl, rfl⟩ rfl rfl
      ⟨_, mem_of_getElem? (i := 6) rfl, .inl ⟨rfl, rfl, by decide⟩⟩,
    undisturbed_of_idle rfl rfl (settled_of_queried (i := 7) rfl ⟨rfl, rfl⟩ rfl),
    undisturbed_of_idle rfl rfl fun _ _ _ => .inr rfl,
    undisturbed_of_idle rfl rfl fun _ _ _ => .inr rfl,
    undisturbed_of_made (s := .skipJob 100 "j") rfl (fun _ _ h => h.1) rfl rfl
      (settled_of_queried (i := 7) rfl ⟨rfl, rfl⟩ rfl),
    undisturbed_of_query (a := finalisation "B") ⟨rfl, rfl⟩ rfl rfl
      ⟨_, mem_of_getElem? (i := 11) rfl, .inl ⟨rfl, rfl, by decide⟩⟩,
    undisturbed_of_idle rfl rfl fun _ _ _ => .inr rfl, trivial⟩

/-- Each run has the history row of its own outcome of the job they share. -/
theorem history_belongs_to_run_successive :
    (∃ row ∈ successiveEnd.2.world.history, row.key = ("A", "j") ∧ row.cached = some false) ∧
      (∃ row ∈ successiveEnd.2.world.history, row.key = ("B", "j") ∧ row.cached = some true) ∧
      ∀ row ∈ successiveEnd.2.world.history, ∃ d ∈ successiveEnd.1,
        Deals row.runId row.jobId d := by
  have hrest : schedule (runs 90) [0, 0, 1, 2, 2, 3, 3, 4, 5, 4, 6, 6, 7, 7]
      (started (runs 90) freshWorld successiveRuns) =
      some (successiveEnd.1, successiveEnd.2) := rfl
  have hrun : Run (Step (runs 90)) (System.idle freshWorld) successiveEnd.1 successiveEnd.2 :=
    (run_started _ _ _).trans (run_of_schedule hrest)
  have horder : Each InOrder [] successiveEnd.1 := by
    refine ⟨?_, ?_, ?_, ?_, ?_, ?_, ?_, ?_, ?_, inOrder_of_insert rfl, ?_, ?_, ?_,
      inOrder_of_insert rfl, trivial⟩
    all_goals exact inOrder_of_unqueried rfl
  have hboth :=
    history_belongs_to_run (fun _ => rfl) rfl rfl hrun horder.at undisturbed_successive.at
  have hlast : ∀ (runId : String) (rest : List Event),
      rest.all (fun f => !(mayDeal f.statement.2 && f.operation.run == runId)) = true →
      ∀ f ∈ rest, ¬ Makes runId "j" f := by
    intro runId rest hrest f hf hmakes
    have hnot := all_eq_true.mp hrest f hf
    rw [hmakes.mayDeal, hmakes.1, beq_self_eq_true] at hnot
    cases hnot
  obtain ⟨j, hj, ⟨row, hrow, hkey⟩, hstates⟩ := hboth.1 4 (finalisation "A") 1 rfl "j"
    (successiveEnd.1.take 6) _ (successiveEnd.1.drop 7) rfl ⟨rfl, rfl, by decide⟩
    (hlast "A" _ rfl)
  obtain ⟨_, hj', ⟨row', hrow', hkey'⟩, hstates'⟩ := hboth.1 7 (finalisation "B") 1 rfl "j"
    (successiveEnd.1.take 11) _ (successiveEnd.1.drop 12) rfl ⟨rfl, rfl, by decide⟩
    (hlast "B" _ rfl)
  have hcached := (hstates row hrow hkey).2.2
  have hcached' := (hstates' row' hrow' hkey').2.2
  cases hj
  cases hj'
  exact ⟨⟨row, hrow, hkey, hcached⟩, ⟨row', hrow', hkey', hcached'⟩, hboth.2⟩

/-- Two runs share a job: `A` executes it, `B` registers it before `A` finalises. -/
def sharedRuns : List Operation :=
  [.job "A" (.createSession "s" 1 "host" none),
    .job "A" (.registerJobs [⟨"j", "rule", "", none, none⟩]),
    .job "A" (.claimJobForSession "j" "s"), .job "A" (.completeJob "j" "s" 0 ""),
    .job "B" (.registerJobs [⟨"j", "rule", "", none, none⟩]),
    .finalize (finalisation "A"), .finalize (finalisation "B")]

def sharedEnd : List Event × Runs :=
  (schedule (runs 90) [0, 0, 1, 2, 2, 3, 3, 4, 5, 6, 6]
    (started (runs 90) freshWorld sharedRuns)).get rfl

/-- The history of `A` misses the job that `A` executed, and that of `B` names it although `B`
had nothing to do with it. -/
theorem not_history_belongs_to_run_shared :
    ∃ (start finish : Runs) (log : List Event), start.Idle ∧ start.world.db = Db.empty ∧
      start.world.history = [] ∧ Run (Step (runs 90)) start log finish ∧
      (∀ pre e post, log = pre ++ e :: post → InOrder pre e) ∧
      finish.calls 5 = some (.finalize (finalisation "A"), .ret (.finalized 0)) ∧
      finish.calls 6 = some (.finalize (finalisation "B"), .ret (.finalized 1)) ∧
      (∃ r ∈ log, Makes "A" "j" r) ∧ (∀ row ∈ finish.world.history, row.key ≠ ("A", "j")) ∧
      (∃ row ∈ finish.world.history, row.key = ("B", "j")) ∧ ∀ d ∈ log, ¬ Deals "B" "j" d := by
  have hrest : schedule (runs 90) [0, 0, 1, 2, 2, 3, 3, 4, 5, 6, 6]
      (started (runs 90) freshWorld sharedRuns) = some (sharedEnd.1, sharedEnd.2) := rfl
  have hrun : Run (Step (runs 90)) (System.idle freshWorld) sharedEnd.1 sharedEnd.2 :=
    (run_started _ _ _).trans (run_of_schedule hrest)
  have horder : Each InOrder [] sharedEnd.1 :=
    ⟨inOrder_of_unqueried rfl, inOrder_of_unqueried rfl, inOrder_of_unqueried rfl,
      inOrder_of_unqueried rfl, inOrder_of_unqueried rfl, inOrder_of_unqueried rfl,
      inOrder_of_unqueried rfl, inOrder_of_unqueried rfl, inOrder_of_unqueried rfl,
      inOrder_of_unqueried rfl, inOrder_of_insert rfl, trivial⟩
  have hmakes : ∃ r ∈ sharedEnd.1, Makes "A" "j" r :=
    ⟨_, mem_of_getElem? (i := 6) rfl, rfl, rfl, by decide⟩
  have hkinds : sharedEnd.1.all
      (fun d => !(mayDeal d.statement.2 && d.operation.run == "B")) = true := rfl
  have hmissing : sharedEnd.2.world.history.all (fun row => row.key ≠ ("A", "j")) = true := rfl
  refine ⟨System.idle freshWorld, sharedEnd.2, sharedEnd.1, fun _ => rfl, rfl, rfl, hrun,
    horder.at, rfl, rfl, hmakes, ?_, ⟨_, mem_singleton_self _, rfl⟩, ?_⟩
  · intro row hrow
    exact of_decide_eq_true (all_eq_true.mp hmissing row hrow)
  · intro d hd hdeals
    have hkind := all_eq_true.mp hkinds d hd
    rw [hdeals.mayDeal] at hkind
    cases hkind

end OxyMake.RunAttribution
