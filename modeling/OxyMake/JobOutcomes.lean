import OxyMake.AuditedRuns

/-!
# Outcomes that a run records for its jobs

A run executes a job, satisfies it from the cache, leaves it out or cancels it
through statements that take effect on the shared row, or it consumes the
outcome of a peer. Every terminal row of a run comes from such a statement of
the run, from the registration of a job whose row was terminal already, or from
another run that made the row terminal.
-/

namespace OxyMake.JobOutcomes

open StateDb Interleaving RowMoves AuditedRuns
open JobHistory (isTerminal TerminalIn)

/-! ### Outcomes of a job -/

/-- The statement records that the job was executed or satisfied from the cache. -/
def Produces (jobId : String) : {β : Type} → ClaimProtocol.Statement β → ClaimProtocol.World → Prop
  | _, .completeJob exitCode hashes now id sessionId, w =>
    id = jobId ∧ 0 < (w.db.completeJob exitCode hashes now id sessionId).1
  | _, .failJob exitCode now id sessionId, w =>
    id = jobId ∧ 0 < (w.db.failJob exitCode now id sessionId).1
  | _, .reconcileCompleteJob exitCode hashes now id, w =>
    id = jobId ∧ 0 < (w.db.reconcileCompleteJob exitCode hashes now id).1
  | _, .reconcileFailJob exitCode now id, w =>
    id = jobId ∧ 0 < (w.db.reconcileFailJob exitCode now id).1
  | _, .skipJob now id, w => id = jobId ∧ 0 < (w.db.skipJob now id).1
  | _, _, _ => False

/-- The statement records any outcome: the job was executed, satisfied from the cache, left
out or cancelled. -/
def Settles (jobId : String) : {β : Type} → ClaimProtocol.Statement β → ClaimProtocol.World → Prop
  | _, .excludeJob id, w => id = jobId ∧ 0 < (w.db.excludeJob id).1
  | _, .cancelJobIds now ids, w => jobId ∈ (w.db.cancelJobIds now ids).1
  | _, .cancelJobIdsForSession now ids sessionId, w =>
    jobId ∈ (w.db.cancelJobIdsForSession now ids sessionId).1
  | _, s, w => Produces jobId s w

theorem mem_cancelEach {p : Job → Bool} {now : ℕ} {ids : List String} {db : Db} {jobId : String}
    {j j' : Job} (h : db.jobs.get jobId = some j)
    (h' : (Db.cancelEach p now ids db).2.jobs.get jobId = some j') (hne : j'.status ≠ j.status) :
    jobId ∈ (Db.cancelEach p now ids db).1 := by
  rw [get_cancelEach p now ids db h] at h'
  refine (mem_cancelEach_iff h).mpr ?_
  by_contra hkeep
  rw [if_neg hkeep] at h'
  exact hne (congrArg Job.status (Option.some.inj h').symm)

theorem settles_of_terminal {β : Type} (s : ClaimProtocol.Statement β) (w : ClaimProtocol.World)
    (hreg : isRegistration s = false) {jobId : String} {j j' : Job}
    (h : w.db.jobs.get jobId = some j) (h' : (s.effect w).2.jobs.get jobId = some j')
    (hj : isTerminal j.status = false) (hj' : isTerminal j'.status = true) :
    Settles jobId s w := by
  have hne : j'.status ≠ j.status := by
    intro heq
    rw [heq, hj] at hj'
    cases hj'
  have hkeyed : ∀ {id : String} {q : Job → Bool} {f : Job → Job},
      (w.db.updateJobs (fun i j => i = id && q j) f).2.jobs.get jobId = some j' →
      id = jobId ∧ 0 < (w.db.updateJobs (fun i j => i = id && q j) f).1 ∧ j' = f j := by
    intro id q f hupdate
    obtain ⟨i, hi, hcase⟩ := updateJobs_key_cases hupdate
    have heq : i = j := Option.some.inj (hi.symm.trans h)
    subst heq
    rcases hcase with hsame | ⟨hid, hq, hf⟩
    · exact absurd (congrArg Job.status hsame) hne
    · exact ⟨hid, (updateJobs_pos_iff _ _ _ _).mpr ⟨i, hid ▸ hi, hq⟩, hf⟩
  have hmove : ∀ j₁, (s.effect w).2.jobs.get jobId = some j₁ → (SameOwner j j₁ ∨ Freed j₁) →
      Settles jobId s w := by
    intro j₁ hj₁ hcase
    have heq : j₁ = j' := Option.some.inj (hj₁.symm.trans h')
    subst heq
    rcases hcase with hsame | hfree
    · exact absurd hsame.1 hne
    · rw [hfree.1] at hj'
      cases hj'
  cases s with
  | registerJobs => cases hreg
  | completeJob | failJob | reconcileCompleteJob | reconcileFailJob | skipJob | excludeJob =>
    exact ⟨(hkeyed h').1, (hkeyed h').2.1⟩
  | cancelJobIds | cancelJobIdsForSession => exact mem_cancelEach h h' hne
  | claimJob | retryFailed | resetJobRow =>
    rw [(hkeyed h').2.2] at hj'
    cases hj'
  | setJobTimes =>
    exact absurd (congrArg Job.status (hkeyed h').2.2) hne
  | reclaimJobsUnlessLive sessionId cutoff =>
    obtain ⟨j₁, hj₁, hcase⟩ := reclaimJobsUnlessLive_swept w.db sessionId cutoff h
    exact hmove j₁ hj₁ (hcase.imp_right fun hfree => hfree.1)
  | resetInactiveJobRows ids cutoff =>
    obtain ⟨j₁, hj₁, hcase⟩ := resetInactiveJobRows_swept w.db ids cutoff h
    exact hmove j₁ hj₁ (hcase.imp_right fun hfree => hfree.1)
  | _ => exact hmove j h (Or.inl (SameOwner.refl j))

theorem terminal_of_produces {β : Type} {s : ClaimProtocol.Statement β} {w : ClaimProtocol.World}
    {jobId : String} (h : Produces jobId s w) :
    ∃ j j', w.db.jobs.get jobId = some j ∧ (s.effect w).2.jobs.get jobId = some j' ∧
      j'.runId = j.runId ∧ isTerminal j'.status = true := by
  have hkeyed : ∀ {q : Job → Bool} {f : Job → Job},
      0 < (w.db.updateJobs (fun i j => i = jobId && q j) f).1 → (∀ j, (f j).runId = j.runId) →
      (∀ j, isTerminal (f j).status = true) → ∃ j j', w.db.jobs.get jobId = some j ∧
        (w.db.updateJobs (fun i j => i = jobId && q j) f).2.jobs.get jobId = some j' ∧
        j'.runId = j.runId ∧ isTerminal j'.status = true := by
    intro q f hpos hrun hterminal
    obtain ⟨j, hj, hq⟩ := (updateJobs_pos_iff _ _ _ _).mp hpos
    have hget := get_updateJobs w.db (fun i j => i = jobId && q j) f hj
    rw [if_pos (by simp only [hq, decide_true, Bool.and_true])] at hget
    exact ⟨j, f j, hj, hget, hrun j, hterminal j⟩
  unfold Produces at h
  split at h
  · obtain ⟨rfl, hpos⟩ := h
    exact hkeyed hpos (fun _ => rfl) fun _ => rfl
  · obtain ⟨rfl, hpos⟩ := h
    exact hkeyed hpos (fun _ => rfl) fun _ => rfl
  · obtain ⟨rfl, hpos⟩ := h
    exact hkeyed hpos (fun _ => rfl) fun _ => rfl
  · obtain ⟨rfl, hpos⟩ := h
    exact hkeyed hpos (fun _ => rfl) fun _ => rfl
  · obtain ⟨rfl, hpos⟩ := h
    exact hkeyed hpos (fun _ => rfl) fun _ => rfl
  · cases h

/-! ### What a run does with a job -/

/-- The run executes the job or satisfies it from the cache. -/
def Makes (runId jobId : String) (e : Event) : Prop :=
  e.operation.run = runId ∧
    match e.statement with
    | ⟨_, .inl s⟩ => Produces jobId s e.before.claims
    | ⟨_, .inr _⟩ => False

def TerminalRow (w : World) (jobId : String) : Prop :=
  ∃ j, w.db.jobs.get jobId = some j ∧ isTerminal j.status = true

/-- The run asks for the outcome of a peer and finds the job terminal. -/
def Consumes (runId jobId : String) (e : Event) : Prop :=
  e.operation = .job runId (.peerJobState jobId) ∧
    e.statement = ⟨_, .inl (.jobRow jobId)⟩ ∧ TerminalRow e.before jobId

/-- The run records an outcome of the job or consumes that of a peer. -/
def Deals (runId jobId : String) (e : Event) : Prop :=
  (e.operation.run = runId ∧
    match e.statement with
    | ⟨_, .inl s⟩ => Settles jobId s e.before.claims
    | ⟨_, .inr _⟩ => False) ∨ Consumes runId jobId e

def Registers (runId jobId : String) (e : Event) : Prop :=
  e.operation.run = runId ∧
    match e.statement with
    | ⟨_, .inl (.registerJobs jobs)⟩ => ∃ r ∈ jobs, r.id = jobId
    | _ => False

/-- A terminal row comes to the run: the run registers a job whose row is terminal, or
another run makes a row of the run terminal. -/
def Inherits (runId jobId : String) (e : Event) : Prop :=
  (Registers runId jobId e ∧ TerminalRow e.before jobId) ∨
    (e.operation.run ≠ runId ∧ (∃ j, e.before.db.jobs.get jobId = some j ∧
      j.runId = some runId ∧ isTerminal j.status = false) ∧ TerminalRow e.after jobId)

theorem exec_inl {β : Type} {s : ClaimProtocol.Statement β} {w w' : World} {r : β}
    (h : exec (.inl s) w = some (r, w')) : w' = { w with db := (s.effect w.claims).2 } := by
  obtain ⟨⟨_, v⟩, hexec, heq⟩ := Option.map_eq_some_iff.mp h
  cases heq
  rw [(ClaimDiscipline.exec_eq_some hexec).2]
  rfl

theorem exec_inr {β : Type} {s : JobHistory.Statement β} {w w' : World} {r : β}
    (h : exec (.inr s) w = some (r, w')) : w'.db = w.db := by
  obtain ⟨⟨_, v⟩, _, heq⟩ := Option.map_eq_some_iff.mp h
  cases heq
  rfl

theorem terminal_origin {op : Operation} {β : Type} {s : Statement β} {w w' : World} {r : β}
    {p : Program Outcome} (hexec : exec s w = some (r, w')) (hallowed : Allowed op s)
    {runId jobId : String} (h : TerminalIn w'.audit runId jobId) :
    TerminalIn w.audit runId jobId ∨ Deals runId jobId ⟨op, ⟨β, s⟩, w, w', p⟩ ∨
      Inherits runId jobId ⟨op, ⟨β, s⟩, w, w', p⟩ := by
  obtain ⟨j', hj', hrun', hterminal'⟩ := h
  cases s with
  | inr =>
    refine Or.inl ⟨j', ?_, hrun', hterminal'⟩
    have hdb := exec_inr hexec
    change w.db.jobs.get jobId = some j'
    rw [← hdb]
    exact hj'
  | inl s =>
    have hw' := exec_inl hexec
    have hafter : (s.effect w.claims).2.jobs.get jobId = some j' := by
      rw [hw'] at hj'
      exact hj'
    cases hget : w.db.jobs.get jobId with
    | none =>
      have hnew := pending_of_new s w.claims hget hafter
      rw [hnew] at hterminal'
      cases hterminal'
    | some j =>
      cases hreg : isRegistration s with
      | true =>
        cases s with
        | registerJobs jobs =>
          obtain ⟨j₁, hj₁, hsame⟩ := registerJobs_sameOwner w.db jobs hget
          have heq : j₁ = j' := Option.some.inj (hj₁.symm.trans hafter)
          subst heq
          have hterminal : isTerminal j.status = true := by rw [← hsame.1]; exact hterminal'
          rcases runId_registerJobs w.db jobs hj₁ with ⟨i, hi, hrun⟩ | ⟨q, hq, hid, hrun⟩
          · have heq : i = j := Option.some.inj (hi.symm.trans hget)
            subst heq
            exact Or.inl ⟨i, hget, hrun.symm.trans hrun', hterminal⟩
          · obtain ⟨own, _, hop, hjobs⟩ := hallowed
            have howner : own = runId :=
              Option.some.inj (((hjobs q hq).symm.trans hrun.symm).trans hrun')
            refine Or.inr (Or.inr (Or.inl ⟨⟨?_, q, hq, hid⟩, j, hget, hterminal⟩))
            change op.run = runId
            rw [hop]
            exact howner
        | _ => cases hreg
      | false =>
        obtain ⟨j₁, hj₁, hsame⟩ := runId_effect s w.claims hreg hget
        have heq : j₁ = j' := Option.some.inj (hj₁.symm.trans hafter)
        subst heq
        have hrun : j.runId = some runId := hsame.symm.trans hrun'
        cases hterminal : isTerminal j.status with
        | true => exact Or.inl ⟨j, hget, hrun, hterminal⟩
        | false =>
          by_cases hop : op.run = runId
          · exact Or.inr (Or.inl (Or.inl
              ⟨hop, settles_of_terminal s w.claims hreg hget hafter hterminal hterminal'⟩))
          · exact Or.inr (Or.inr (Or.inr ⟨hop, ⟨j, hget, hrun, hterminal⟩, j₁, hj', hterminal'⟩))

/-- Every terminal row of a run has an origin among the executed statements. -/
def Explained (past : List Event) (x : Runs) : Prop :=
  ∀ runId jobId, TerminalIn x.world.audit runId jobId →
    ∃ g ∈ past, Deals runId jobId g ∨ Inherits runId jobId g

theorem Explained.step {leaseSecs : ℕ} {past : List Event} {x y : Runs} {label : Option Event}
    (h : Explained past x) (hstep : Step (runs leaseSecs) x label y)
    (hallowed : ∀ e ∈ label, Allowed e.operation e.statement.2) :
    Explained (past ++ label.toList) y := by
  intro runId jobId hterminal
  have hold : TerminalIn x.world.audit runId jobId →
      ∃ g ∈ past ++ label.toList, Deals runId jobId g ∨ Inherits runId jobId g := by
    intro hbefore
    obtain ⟨g, hg, horigin⟩ := h runId jobId hbefore
    exact ⟨g, List.mem_append_left _ hg, horigin⟩
  cases hstep with
  | call | abort => exact hold hterminal
  | execute c op s k r w hcall hexec =>
    have horigin := terminal_origin (p := k r) hexec (hallowed _ rfl) hterminal
    rcases horigin with hbefore | horigin
    · exact hold hbefore
    · exact ⟨_, List.mem_append_right _ (List.mem_singleton_self _), horigin⟩
  | drift w hw =>
    obtain ⟨j, hj, hrest⟩ := hterminal
    refine hold ⟨j, ?_, hrest⟩
    change x.world.db.jobs.get jobId = some j
    rw [← hw.1]
    exact hj

theorem Makes.isJob {runId jobId : String} {e : Event} (h : Makes runId jobId e) :
    ∃ (β : Type) (s : ClaimProtocol.Statement β), e.statement = ⟨β, .inl s⟩ := by
  obtain ⟨_, ⟨β, s⟩, w, _, p⟩ := e
  cases s with
  | inl s => exact ⟨β, s, rfl⟩
  | inr => cases h.2

/-- The kinds of statements by which a run may deal with a job. -/
def mayDeal : {β : Type} → Statement β → Bool
  | _, .inl (.completeJob ..) => true
  | _, .inl (.failJob ..) => true
  | _, .inl (.reconcileCompleteJob ..) => true
  | _, .inl (.reconcileFailJob ..) => true
  | _, .inl (.skipJob ..) => true
  | _, .inl (.excludeJob _) => true
  | _, .inl (.cancelJobIds ..) => true
  | _, .inl (.cancelJobIdsForSession ..) => true
  | _, .inl (.jobRow _) => true
  | _, _ => false

theorem Settles.mayDeal {jobId : String} {β : Type} {s : ClaimProtocol.Statement β}
    {w : ClaimProtocol.World} (h : Settles jobId s w) : mayDeal (.inl s : Statement β) = true := by
  cases s with
  | completeJob | failJob | reconcileCompleteJob => rfl
  | reconcileFailJob | skipJob | excludeJob | cancelJobIds | cancelJobIdsForSession | jobRow => rfl
  | _ => cases h

theorem Makes.mayDeal {runId jobId : String} {e : Event} (h : Makes runId jobId e) :
    mayDeal e.statement.2 = true := by
  obtain ⟨β, s, hs⟩ := h.isJob
  obtain ⟨-, hproduces⟩ := h
  rw [hs] at hproduces ⊢
  cases s with
  | completeJob | failJob | reconcileCompleteJob | reconcileFailJob | skipJob => rfl
  | _ => cases hproduces

theorem Deals.mayDeal {runId jobId : String} {e : Event} (h : Deals runId jobId e) :
    (mayDeal e.statement.2 && e.operation.run == runId) = true := by
  rcases h with ⟨hrun, hsettles⟩ | ⟨hop, hstatement, -⟩
  · obtain ⟨_, ⟨β, s⟩, w, _, p⟩ := e
    cases s with
    | inl =>
      have hkind := Settles.mayDeal hsettles
      rw [hkind, hrun, beq_self_eq_true]
      rfl
    | inr => cases hsettles
  · rw [hop, hstatement]
    exact beq_self_eq_true runId

end OxyMake.JobOutcomes
