import OxyMake.JobOutcomes

/-!
# What the finalisations insert

Every history row was selected by the query of a finalisation of its run, and a
finalisation that returns has inserted all rows that its query selected.
-/

namespace OxyMake.HistoryTracking

open List
open Interleaving Watching AuditedRuns JobOutcomes
open JobHistory (HistoryRow Recording insertRows)

def QueryOf (a : Recording) (e : Event) : Prop :=
  e.operation = .finalize a ∧ e.statement = ⟨_, .inr (.unrecorded a.runId)⟩

def selected (a : Recording) (w : World) : List HistoryRow :=
  (ofRun a).entries (w.audit.unrecorded a.runId)

/-- What is left of a finalisation that has rows to insert. -/
def finalizing (count : ℕ) (rows : List HistoryRow) : Program Outcome :=
  .finalized <$> lift Sum.inr (insertRows count rows)

/-- The row was selected by the query of a finalisation. -/
def Sourced (past : List Event) (row : HistoryRow) : Prop :=
  ∃ pre q post a, past = pre ++ q :: post ∧ QueryOf a q ∧ row ∈ selected a q.before

/-- A finalisation that has executed its query has inserted the selected rows or is about
to. -/
def Filling (past : List Event) (history : List HistoryRow) (a : Recording)
    (p : Program Outcome) : Prop :=
  ∃ pre q post count left, past = pre ++ q :: post ∧ QueryOf a q ∧ p = finalizing count left ∧
    (∀ row ∈ selected a q.before, row ∈ history ∨ row ∈ left) ∧
    ∀ row ∈ left, row ∈ selected a q.before

/-- Every history row was selected by a query, and every finalisation is at its start, has
failed or inserts what its query selected. -/
structure Tracked (leaseSecs : ℕ) (past : List Event) (x : Runs) : Prop where
  /-- Every history row was selected by a query. -/
  sourced : ∀ row ∈ x.world.history, Sourced past row
  calls : ∀ c a p, x.calls c = some (.finalize a, p) →
    p = program leaseSecs (.finalize a) ∨ p = .err ∨ Filling past x.world.history a p

theorem Sourced.extend {past : List Event} {row : HistoryRow} (h : Sourced past row)
    (more : List Event) : Sourced (past ++ more) row := by
  obtain ⟨pre, q, post, a, rfl, hq, hrow⟩ := h
  exact ⟨pre, q, post ++ more, a, by rw [append_assoc, cons_append], hq, hrow⟩

theorem Filling.extend {past : List Event} {history : List HistoryRow} {a : Recording}
    {p : Program Outcome} (h : Filling past history a p) (more : List Event)
    (rows : List HistoryRow) : Filling (past ++ more) (history ++ rows) a p := by
  obtain ⟨pre, q, post, count, left, rfl, hq, hp, hall, hleft⟩ := h
  refine ⟨pre, q, post ++ more, count, left, by rw [append_assoc, cons_append], hq, hp,
    ?_, hleft⟩
  intro row hrow
  rcases hall row hrow with hin | hin
  · exact Or.inl (mem_append_left _ hin)
  · exact Or.inr hin

theorem finalizing_stmt {count : ℕ} {left : List HistoryRow} {β : Type} {s : Statement β}
    {k : β → Program Outcome} (h : .stmt s k = finalizing count left) :
    ∃ row rest, left = row :: rest ∧
      (.stmt s k : Program Outcome) = .stmt (.inr (.insert row)) fun _ => finalizing count rest := by
  cases left with
  | nil => cases h
  | cons row rest => exact ⟨row, rest, rfl, h⟩

theorem Filling.insert {past : List Event} {history : List HistoryRow} {a : Recording}
    {row : HistoryRow} {count : ℕ} {rest : List HistoryRow} (more : List Event)
    (h : Filling past history a (finalizing count (row :: rest))) :
    Filling (past ++ more) (history ++ [row]) a (finalizing count rest) := by
  obtain ⟨pre, q, post, count', _, rfl, hq, hp, hall, hleft⟩ := h
  obtain ⟨row', rest', rfl, heq⟩ := finalizing_stmt hp
  obtain ⟨rfl, hk⟩ : row = row' ∧ finalizing count rest = finalizing count' rest' := by
    simp only [Prog.stmt.injEq, heq_eq_eq, Sum.inr.injEq, JobHistory.Statement.insert.injEq,
      true_and] at heq
    exact ⟨heq.1, congrFun heq.2 ()⟩
  refine ⟨pre, q, post ++ more, count', rest', by rw [append_assoc, cons_append], hq, hk,
    ?_, fun r hr => hleft r (.tail _ hr)⟩
  intro r hr
  rcases hall r hr with hin | hin
  · exact Or.inl (mem_append_left _ hin)
  · rcases mem_cons.mp hin with heq | hin
    · exact Or.inl (mem_append_right _ (by rw [heq]; exact mem_singleton_self row))
    · exact Or.inr hin

def startsInsertion : Program Outcome → Bool
  | .stmt (.inr (.insert _)) _ => true
  | _ => false

theorem program_finalize (leaseSecs : ℕ) (a : Recording) :
    program leaseSecs (.finalize a) = .stmt (.inr (.unrecorded a.runId)) fun rows =>
      finalizing ((ofRun a).entries rows).length ((ofRun a).entries rows) := rfl

theorem Tracked.setCall {leaseSecs : ℕ} {past more : List Event} {x : Runs} {w : World}
    (rows : List HistoryRow) (h : Tracked leaseSecs past x)
    (hhistory : w.history = x.world.history ++ rows)
    (hrows : ∀ row ∈ rows, Sourced (past ++ more) row) {c : ℕ} {op : Operation}
    {p : Program Outcome} (hp : ∀ a, op = .finalize a → p = program leaseSecs (.finalize a) ∨
      p = .err ∨ Filling (past ++ more) w.history a p) :
    Tracked leaseSecs (past ++ more) (x.setCall w c op p) := by
  constructor
  · intro row hrow
    have hmem : row ∈ x.world.history ++ rows := by
      rw [← hhistory]
      exact hrow
    rcases mem_append.mp hmem with hin | hin
    · exact (h.sourced row hin).extend more
    · exact hrows row hin
  · intro c' a' p' hcall
    rcases System.calls_setCall hcall with ⟨-, heq⟩ | ⟨-, hold⟩
    · cases heq
      exact hp a' rfl
    · rcases h.calls c' a' p' hold with hstart | herr | hfilling
      · exact Or.inl hstart
      · exact Or.inr (Or.inl herr)
      · refine Or.inr (Or.inr ?_)
        change Filling (past ++ more) w.history a' p'
        rw [hhistory]
        exact hfilling.extend more rows

theorem Tracked.step {leaseSecs : ℕ} {past : List Event} {x y : Runs} {label : Option Event}
    (h : Tracked leaseSecs past x) (hstep : Step (runs leaseSecs) x label y)
    (hallowed : ∀ e ∈ label, Allowed e.operation e.statement.2) :
    Tracked leaseSecs (past ++ label.toList) y := by
  cases hstep with
  | call =>
    refine h.setCall [] (append_nil _).symm (fun _ hrow => nomatch hrow) ?_
    intro a hop
    rw [hop]
    exact Or.inl rfl
  | execute c op s k r w hcall hexec =>
    have hmay := hallowed _ rfl
    cases s with
    | inl s =>
      have hw := exec_inl hexec
      refine h.setCall [] ?_ (fun _ hrow => nomatch hrow) ?_
      · rw [hw, append_nil]
      · intro a hop
        subst hop
        have hjob : ∃ runId op', Operation.finalize a = .job runId op' := by
          cases s with
          | registerJobs =>
            obtain ⟨runId, op', hop, -⟩ := hmay
            exact ⟨runId, op', hop⟩
          | _ => exact hmay
        obtain ⟨runId, op', hop⟩ := hjob
        cases hop
    | inr s =>
      cases s with
      | unrecorded =>
        cases hexec
        obtain ⟨a, hop, hrun⟩ := hmay
        change op = .finalize a at hop
        subst hop hrun
        refine h.setCall [] (append_nil _).symm (fun _ hrow => nomatch hrow) ?_
        intro a' hop
        cases hop
        rcases h.calls c a _ hcall with hstart | herr | hfilling
        · rw [program_finalize] at hstart
          cases hstart
          refine Or.inr (Or.inr ⟨past, _, [], _, _, rfl, ⟨rfl, rfl⟩, rfl, ?_, fun _ hrow => hrow⟩)
          exact fun row hrow => Or.inr hrow
        · cases herr
        · obtain ⟨_, _, _, count, left, -, -, hp, -⟩ := hfilling
          obtain ⟨row, rest, -, heq⟩ := finalizing_stmt hp
          have hkind : false = true := congrArg startsInsertion heq
          cases hkind
      | insert row =>
        cases hexec
        obtain ⟨a, hop⟩ := hmay
        change op = .finalize a at hop
        subst hop
        rcases h.calls c a _ hcall with hstart | herr | hfilling
        · have hkind : true = false := congrArg startsInsertion hstart
          cases hkind
        · cases herr
        · have hshape := hfilling
          obtain ⟨pre, q, post, count, left, hpast, hq, hp, -, hleft⟩ := hshape
          obtain ⟨row', rest, rfl, heq⟩ := finalizing_stmt hp
          cases heq
          have hsource : Sourced past row :=
            ⟨pre, q, post, a, hpast, hq, hleft row mem_cons_self⟩
          refine h.setCall [row] rfl ?_ ?_
          · intro row' hrow'
            rw [mem_singleton.mp hrow']
            exact hsource.extend _
          · intro a' hop
            cases hop
            exact Or.inr (Or.inr (hfilling.insert _))
  | abort =>
    refine h.setCall [] (append_nil _).symm (fun _ hrow => nomatch hrow) ?_
    exact fun a hop => Or.inr (Or.inl rfl)
  | drift w hw =>
    constructor
    · intro row hrow
      refine (h.sourced row ?_).extend _
      rw [← hw.2.1]
      exact hrow
    · intro c a p hcall
      rcases h.calls c a p hcall with hstart | herr | hfilling
      · exact Or.inl hstart
      · exact Or.inr (Or.inl herr)
      · refine Or.inr (Or.inr ?_)
        have hmore := hfilling.extend [] []
        rw [append_nil x.world.history, ← hw.2.1] at hmore
        exact hmore

/-- The statement is a query of the audit trail. -/
def isQuery : {β : Type} → Statement β → Bool
  | _, .inr (.unrecorded _) => true
  | _, _ => false

theorem QueryOf.isQuery {a : Recording} {e : Event} (h : QueryOf a e) :
    isQuery e.statement.2 = true := by
  rw [h.2]
  rfl

end OxyMake.HistoryTracking
