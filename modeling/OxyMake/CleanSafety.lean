import OxyMake.CleanCommand

/-!
# What `ox clean` does to live sessions

Once `ox clean` has read the `active` sessions and found all of them stale, no
session is live until one starts or heartbeats again. So it spares every live
session in each run in which no session starts or heartbeats while a clean is
between its look and its end, provided that the lease is not longer than the
threshold of `ox clean`. A session that starts after the look loses its rows.
-/

namespace OxyMake.CleanSafety

open KeyedTable StateDb Interleaving LabelledRuns Watching CleanCommand RowMoves

/-! ### Statements that make no session live -/

/-- Every `active` session of the second database is one of the first, with its heartbeat. -/
def Fewer (db db' : Db) : Prop :=
  ∀ id s', db'.sessions.get id = some s' → s'.status = .active →
    ∃ s, db.sessions.get id = some s ∧ s.status = .active ∧ s.heartbeatAt = s'.heartbeatAt

theorem Fewer.refl (db : Db) : Fewer db db := fun _ s' hs' hactive => ⟨s', hs', hactive, rfl⟩

theorem Fewer.trans {a b c : Db} (h₁ : Fewer a b) (h₂ : Fewer b c) : Fewer a c := by
  intro id s' hs' hactive
  obtain ⟨s, hs, hact, hbeat⟩ := h₂ id s' hs' hactive
  obtain ⟨r, hr, hact', hbeat'⟩ := h₁ id s hs hact
  exact ⟨r, hr, hact', hbeat'.trans hbeat⟩

theorem Fewer.of_sessions {db db' : Db} (h : db'.sessions = db.sessions) : Fewer db db' := by
  intro id s' hs' hactive
  rw [h] at hs'
  exact ⟨s', hs', hactive, rfl⟩

theorem Fewer.updateSessions (db : Db) (p : String → Session → Bool) {f : Session → Session}
    (hf : ∀ id s, db.sessions.get id = some s → p id s = true → (f s).status = .active →
      s.status = .active ∧ s.heartbeatAt = (f s).heartbeatAt) :
    Fewer db (db.updateSessions p f).2 := by
  intro id s' hs' hactive
  have hget : (db.sessions.get id).map (fun s => if p id s then f s else s) = some s' := by
    rw [← hs']
    exact (Table.get_update p f db.sessions id).symm
  obtain ⟨s, hs, heq⟩ := Option.map_eq_some_iff.mp hget
  refine ⟨s, hs, ?_⟩
  by_cases hp : p id s = true
  · rw [if_pos hp] at heq
    subst heq
    exact hf id s hs hp hactive
  · rw [if_neg hp] at heq
    subst heq
    exact ⟨hactive, rfl⟩

theorem fewer_reclaimJobsUnlessLive (db : Db) (owner : String) (cutoff : ℕ) :
    Fewer db (db.reclaimJobsUnlessLive owner cutoff).2 :=
  Fewer.updateSessions _ _ fun _ _ _ _ hactive => nomatch hactive

theorem fewer_reclaimOwners (cutoff : ℕ) (owners : List String) (acc : ℕ × Db) :
    Fewer acc.2 (Db.reclaimOwners cutoff owners acc).2 := by
  induction owners generalizing acc with
  | nil => exact Fewer.refl acc.2
  | cons owner owners ih =>
    unfold Db.reclaimOwners
    exact (fewer_reclaimJobsUnlessLive acc.2 owner cutoff).trans (ih _)

theorem fewer_resetInactiveJobRows (db : Db) (ids : List String) (cutoff : ℕ) :
    Fewer db (db.resetInactiveJobRows ids cutoff).2 := by
  unfold Db.resetInactiveJobRows
  suffices hall : ∀ (chunks : List (List String)) (acc : ℕ × Db),
      Fewer acc.2 (chunks.foldl (Db.resetInactiveChunk cutoff) acc).2 from hall _ (0, db)
  intro chunks
  induction chunks with
  | nil => exact fun acc => Fewer.refl acc.2
  | cons chunk chunks ih =>
    intro acc
    have hchunk : Fewer acc.2 (Db.resetInactiveChunk cutoff acc chunk).2 :=
      (fewer_reclaimOwners cutoff (acc.2.deadOwners chunk cutoff) acc).trans
        (Fewer.of_sessions rfl)
    exact hchunk.trans (ih _)

theorem registerJobs_sessions (db : Db) (jobs : List JobRecord) :
    (db.registerJobs jobs).sessions = db.sessions := by
  unfold Db.registerJobs
  induction jobs generalizing db with
  | nil => rfl
  | cons r jobs ih => exact (ih (db.registerJob r)).trans rfl

theorem cancelEach_sessions (p : Job → Bool) (now : ℕ) (ids : List String) (db : Db) :
    (Db.cancelEach p now ids db).2.sessions = db.sessions := by
  induction ids generalizing db with
  | nil => rfl
  | cons id ids ih =>
    unfold Db.cancelEach
    exact (ih _).trans rfl

/-- The statement starts a session or records the heartbeat of an `active` one. -/
def Revives : {β : Type} → Statement β → World → Prop
  | _, .inl (.createSession ..), _ => True
  | _, .inl (.heartbeat _ id), w =>
    ∃ s, w.db.sessions.get id = some s ∧ s.status = .active
  | _, _, _ => False

theorem fewer_effect {β : Type} (s : ClaimProtocol.Statement β) (w : World)
    (h : ¬ Revives (.inl s) w) : Fewer w.db (s.effect ⟨w.db, w.now⟩).2 := by
  cases s with
  | createSession => exact absurd trivial h
  | heartbeat =>
    refine Fewer.updateSessions _ _ ?_
    intro id' s hs hp hactive
    simp only [Bool.and_eq_true, decide_eq_true_eq] at hp
    rw [hp.1] at hs
    exact absurd ⟨s, hs, hp.2⟩ h
  | completeSession | interruptSession =>
    exact Fewer.updateSessions _ _ fun _ _ _ _ hactive => nomatch hactive
  | reclaimJobsUnlessLive id cutoff => exact fewer_reclaimJobsUnlessLive w.db id cutoff
  | resetInactiveJobRows ids cutoff => exact fewer_resetInactiveJobRows w.db ids cutoff
  | registerJobs jobs => exact Fewer.of_sessions (registerJobs_sessions w.db jobs)
  | cancelJobIds now ids => exact Fewer.of_sessions (cancelEach_sessions _ now ids w.db)
  | cancelJobIdsForSession now ids => exact Fewer.of_sessions (cancelEach_sessions _ now ids w.db)
  | _ => exact Fewer.of_sessions rfl

/-! ### What holds while a clean is under way -/

/-- The clock goes on and no session becomes live. -/
def Quiet (w w' : World) : Prop := w.now ≤ w'.now ∧ Fewer w.db w'.db

theorem Quiet.refl (w : World) : Quiet w w := ⟨Nat.le_refl _, Fewer.refl _⟩

theorem Quiet.trans {u v w : World} (h₁ : Quiet u v) (h₂ : Quiet v w) : Quiet u w :=
  ⟨Nat.le_trans h₁.1 h₂.1, h₁.2.trans h₂.2⟩

theorem fewer_empty (db : Db) : Fewer db Db.empty := fun _ _ hs' => nomatch hs'

theorem quiet_exec {β : Type} {s : Statement β} {w w' : World} {r : β}
    (h : exec s w = some (r, w')) (hs : ¬ Revives s w) : Quiet w w' := by
  cases s with
  | inl s =>
    obtain ⟨⟨_, v⟩, hexec, heq⟩ := Option.map_eq_some_iff.mp h
    cases heq
    unfold ClaimProtocol.Statement.exec at hexec
    split_ifs at hexec
    cases hexec
    exact ⟨Nat.le_refl _, fewer_effect s w hs⟩
  | inr s =>
    cases s with
    | removeStateDb =>
      change (if w.state.isSome then some ((), ({ w with state := none } : World)) else none) =
        some (r, w') at h
      split_ifs at h
      cases h
      exact ⟨Nat.le_refl _, fewer_empty _⟩
    | clearExecutionState =>
      cases h
      exact ⟨Nat.le_refl _, fewer_empty _⟩
    | _ =>
      cases h
      exact ⟨Nat.le_refl _, Fewer.refl _⟩

/-- Every `active` session is past the threshold of `ox clean`. -/
def AllStale (w : World) : Prop :=
  ∀ id s, w.db.sessions.get id = some s → s.status = .active →
    s.heartbeatAt + staleThresholdSecs < w.now

theorem AllStale.quiet {w w' : World} (h : AllStale w) (hq : Quiet w w') : AllStale w' := by
  intro id s' hs' hactive
  obtain ⟨s, hs, hact, _⟩ := hq.2 id s' hs' hactive
  have hstale := h id s hs hact
  have hnow := hq.1
  omega

/-- A session that is `active` and within its lease. -/
def LiveSession (leaseSecs : ℕ) (w : World) (id : String) (s : Session) : Prop :=
  w.db.sessions.get id = some s ∧ s.status = .active ∧ w.now - s.heartbeatAt < leaseSecs

/-- The statement keeps the row of every live session and the rows of its jobs, so that the
session can record the outcome of a job it runs. -/
def Spares (leaseSecs : ℕ) (e : Event) : Prop :=
  ∀ id s, LiveSession leaseSecs e.before id s →
    e.after.db.sessions.get id = some s ∧
    ∀ jobId j, e.before.db.jobs.get jobId = some j → j.sessionId = some id →
      e.after.db.jobs.get jobId = some j ∧
      (j.status = .running → ∀ exitCode hashes now,
        0 < (e.after.db.completeJob exitCode hashes now jobId id).1)

theorem spares_of_allStale {leaseSecs : ℕ} (hlease : leaseSecs ≤ staleThresholdSecs + 1) {e : Event}
    (h : AllStale e.before) : Spares leaseSecs e := by
  intro id s hlive
  obtain ⟨hs, hactive, _⟩ := hlive
  have hstale := h id s hs hactive
  omega

theorem spares_of_eq (leaseSecs : ℕ) {e : Event} (h : e.after.db = e.before.db) :
    Spares leaseSecs e := by
  intro id s hlive
  rw [h]
  refine ⟨hlive.1, ?_⟩
  intro jobId j hj howner
  refine ⟨hj, ?_⟩
  intro hrunning exitCode hashes now
  refine (updateJobs_pos_iff _ _ _ _).mpr ⟨j, hj, ?_⟩
  rw [hrunning, howner]
  simp

/-- The clean has read the `active` sessions, or has found no database, and is not at its
end. -/
def Armed : Operation → Program Outcome → Prop
  | .session _, _ => False
  | .clean args env, p => Unfinished p ∧
    ((∃ totalJobs sessions, Prog.Leads (checkSessions args env totalJobs sessions) p) ∨
      Prog.Leads (afterInventory args env 0 0) p)

/-- A step that starts no session and records no heartbeat while a clean is armed. -/
def QuietStep (leaseSecs : ℕ) (x : Cleaners) (label : Option Event) (y : Cleaners) : Prop :=
  Step (cleaners leaseSecs) x label y ∧
    ∀ c op p, x.calls c = some (op, p) → Armed op p →
      ∀ e ∈ label, ¬ Revives e.statement.2 e.before

theorem heedful_of_quietStep {leaseSecs : ℕ} {x y : Cleaners} {label : Option Event}
    (h : QuietStep leaseSecs x label y) :
    HeedfulStep (cleaners leaseSecs) Armed (fun _ => Quiet) (fun _ _ => True) x label y := by
  obtain ⟨hstep, hquiet⟩ := h
  refine ⟨hstep, ?_, fun _ _ _ _ _ => trivial⟩
  intro c op p hcall harmed
  cases hstep with
  | call | abort => exact Quiet.refl _
  | execute c' op' s k r w hc' hexec =>
    exact quiet_exec hexec (hquiet c op p hcall harmed _ rfl)
  | drift w hw =>
    refine ⟨hw.2, Fewer.of_sessions ?_⟩
    dsimp only [World.db]
    rw [hw.1]

/-- The statement revives no session, whatever the database holds. -/
def Tame {β : Type} (s : Statement β) : Prop := ∀ w, ¬ Revives s w

theorem uses_reclaimEach (cutoff : ℕ) (ids : List String) {rest : Program Outcome}
    (h : Uses Tame rest) : Uses Tame (reclaimEach cutoff ids rest) := by
  induction ids with
  | nil => exact h
  | cons id ids ih => exact ⟨fun _ hr => hr, fun _ => ih⟩

theorem uses_execute (args : CleanArgs) (staleSessions staleJobs : ℕ) :
    Uses Tame (execute args staleSessions staleJobs) := by
  have hclear : Uses Tame (do run .clearExecutionState; return .clean : Program Outcome) :=
    ⟨fun _ hr => hr, fun _ => trivial⟩
  simp only [execute, run, Prog.exec_bind]
  by_cases hstate : args.cleanState
  · rw [if_pos hstate]
    refine ⟨fun _ hr => hr, ?_⟩
    intro present
    dsimp only
    by_cases hpresent : present
    · rw [if_pos hpresent]
      by_cases hall : args.all
      · rw [if_pos hall]
        exact ⟨fun _ hr => hr, fun _ => trivial⟩
      · rw [if_neg hall]
        by_cases hplanned : (decide (0 < staleSessions) || decide (0 < staleJobs)) = true
        · rw [if_pos hplanned]
          exact ⟨fun _ hr => hr, fun _ => ⟨fun _ hr => hr, fun _ => ⟨fun _ hr => hr, fun _ =>
            uses_reclaimEach _ _ hclear⟩⟩⟩
        · rw [if_neg hplanned]
          trivial
    · rw [if_neg hpresent]
      trivial
  · rw [if_neg hstate]
    trivial

theorem uses_afterInventory (args : CleanArgs) (env : Surroundings) (staleSessions staleJobs : ℕ) :
    Uses Tame (afterInventory args env staleSessions staleJobs) := by
  unfold afterInventory
  split
  · trivial
  · split
    · trivial
    · split
      · exact uses_execute args staleSessions staleJobs
      · trivial

def CleanSpares (leaseSecs : ℕ) (e : Event) : Prop :=
  ∀ args env, e.operation = .clean args env → args.force = false → Spares leaseSecs e

section Guards

variable {leaseSecs : ℕ} (hlease : leaseSecs ≤ staleThresholdSecs + 1)

include hlease in
theorem guarded_of_allStale (op : Operation) {p : Program Outcome} (hp : Uses Tame p) {w : World}
    (hw : AllStale w) : Guarded (cleaners leaseSecs) Quiet (CleanSpares leaseSecs) op p w := by
  refine guarded_of_invariant (fun _ _ hq h => h.quiet hq) ?_ hp hw
  intro β s k v r v' hs hexec hv
  exact ⟨hv.quiet (quiet_exec hexec (hs v)), fun _ _ _ _ => spares_of_allStale hlease hv⟩

theorem afterInventory_dryRun {args : CleanArgs} (h : args.dryRun = true) (env : Surroundings)
    (staleSessions staleJobs : ℕ) :
    afterInventory args env staleSessions staleJobs = .ret .clean := by
  unfold afterInventory
  rw [if_pos h]
  split <;> rfl

theorem allStale_of_found {w : World} {sessions : List String} {now : ℕ} (hnow : now ≤ w.now)
    (hsessions : ∀ id s, w.db.sessions.get id = some s → s.status = .active → id ∈ sessions)
    (hlive : ¬ 0 < (sessions.filter
      (· ∉ findStaleSessions w.db (now - staleThresholdSecs))).length) : AllStale w := by
  intro id s hs hactive
  have hnil : sessions.filter (· ∉ findStaleSessions w.db (now - staleThresholdSecs)) = [] :=
    List.length_eq_zero_iff.mp (Nat.eq_zero_of_not_pos hlive)
  have hstale : id ∈ findStaleSessions w.db (now - staleThresholdSecs) := by
    by_contra hnot
    have hmem : id ∈ sessions.filter (· ∉ findStaleSessions w.db (now - staleThresholdSecs)) :=
      List.mem_filter.mpr ⟨hsessions id s hs hactive, decide_eq_true hnot⟩
    rw [hnil] at hmem
    cases hmem
  obtain ⟨s', hs', hfound⟩ := (Table.mem_select_iff _ _ _).mp hstale
  have heq : s' = s := Option.some.inj (hs'.symm.trans hs)
  subst heq
  simp only [Bool.and_eq_true, decide_eq_true_eq] at hfound
  omega

include hlease in
theorem guarded_checkSessions {args : CleanArgs} (hforce : args.force = false)
    (env : Surroundings) (totalJobs : ℕ) {sessions : List String} {w : World}
    (hw : ∀ id s, w.db.sessions.get id = some s → s.status = .active → id ∈ sessions) :
    Guarded (cleaners leaseSecs) Quiet (CleanSpares leaseSecs) (.clean args env)
      (checkSessions args env totalJobs sessions) w := by
  have hquiet : ∀ v v' : World, Quiet v v' →
      (∀ id s, v.db.sessions.get id = some s → s.status = .active → id ∈ sessions) →
      ∀ id s, v'.db.sessions.get id = some s → s.status = .active → id ∈ sessions := by
    intro v v' hq hv id s' hs' hactive
    obtain ⟨s, hs, hact, -⟩ := hq.2 id s' hs' hactive
    exact hv id s hs hact
  intro w₁ hw₁ now w₂ hclock
  cases hclock
  have hsess₁ := hquiet w w₁ hw₁ hw
  refine ⟨fun _ _ _ _ => spares_of_eq leaseSecs rfl, ?_⟩
  intro w₃ hw₃ stale w₄ hfind
  cases hfind
  have hsess₃ := hquiet w₁ w₃ hw₃ hsess₁
  refine ⟨fun _ _ _ _ => spares_of_eq leaseSecs rfl, ?_⟩
  change Guarded _ _ _ _ (guardLive args env totalJobs sessions
    (findStaleSessions w₃.db (w₁.now - staleThresholdSecs))) _
  unfold guardLive
  split
  · trivial
  · rename_i hlive
    by_cases hdry : args.dryRun = true
    · rw [afterInventory_dryRun hdry]
      trivial
    · have hstale : AllStale w₃ := by
        refine allStale_of_found hw₃.1 hsess₃ ?_
        intro hpos
        rw [Bool.not_eq_true] at hdry
        exact hlive (by simp only [hpos, hforce, hdry, decide_true, Bool.not_false, Bool.and_true])
      exact guarded_of_allStale hlease _ (uses_afterInventory args env _ _) hstale

end Guards

theorem uses_any (p : Program Outcome) : Uses (fun _ => True) p := by
  induction p with
  | ret | err => trivial
  | stmt s k ih => exact ⟨trivial, ih⟩

theorem guarded_forced (leaseSecs : ℕ) {args : CleanArgs} (hforce : args.force = true)
    (env : Surroundings) (p : Program Outcome) (w : World) :
    Guarded (cleaners leaseSecs) Quiet (CleanSpares leaseSecs) (.clean args env) p w := by
  refine guarded_of_invariant (I := fun _ => True) (fun _ _ _ _ => trivial) ?_ (uses_any p) trivial
  intro β s k v r v' _ _ _
  refine ⟨trivial, ?_⟩
  intro args' env' hop hforce'
  cases hop
  rw [hforce] at hforce'
  cases hforce'

section Look

variable {leaseSecs : ℕ} (hlease : leaseSecs ≤ staleThresholdSecs + 1) {args : CleanArgs}
  (hforce : args.force = false) (env : Surroundings)

include hlease hforce

theorem guarded_activeSessions (totalJobs : ℕ) (w : World) :
    Guarded (cleaners leaseSecs) Quiet (CleanSpares leaseSecs) (.clean args env)
      (.stmt (.inr .activeSessions) (checkSessions args env totalJobs)) w := by
  intro w₁ _ sessions w₂ hlook
  cases hlook
  refine ⟨fun _ _ _ _ => spares_of_eq leaseSecs rfl, ?_⟩
  refine guarded_checkSessions hlease hforce env totalJobs ?_
  intro id s hs hactive
  exact (Table.mem_select_iff _ _ _).mpr ⟨s, hs, decide_eq_true hactive⟩

theorem guarded_inventory (w : World) :
    Guarded (cleaners leaseSecs) Quiet (CleanSpares leaseSecs) (.clean args env)
      (.stmt (.inr .jobCounts) fun counts => .stmt (.inr .activeSessions)
        (checkSessions args env counts.total)) w := by
  intro w₁ _ counts w₂ hcount
  cases hcount
  exact ⟨fun _ _ _ _ => spares_of_eq leaseSecs rfl,
    guarded_activeSessions hlease hforce env _ _⟩

omit hforce in
theorem guarded_missing {w : World} (hw : w.state = none) :
    Guarded (cleaners leaseSecs) Quiet (CleanSpares leaseSecs) (.clean args env)
      (afterInventory args env 0 0) w := by
  refine guarded_of_allStale hlease _ (uses_afterInventory args env 0 0) ?_
  intro id x hx
  rw [World.db, hw] at hx
  cases hx

theorem guarded_cmdClean (w : World) :
    Guarded (cleaners leaseSecs) Quiet (CleanSpares leaseSecs) (.clean args env)
      (cmdClean args env) w := by
  simp only [cmdClean, run, Prog.exec_bind]
  by_cases hdir : (!env.directory) = true
  · rw [if_pos hdir]
    trivial
  · rw [if_neg hdir]
    by_cases hstate : (args.cleanState || args.events) = true
    · rw [if_pos hstate]
      intro w₁ _ present w₂ hexists
      cases hexists
      refine ⟨fun _ _ _ _ => spares_of_eq leaseSecs rfl, ?_⟩
      dsimp only
      by_cases hpresent : w₁.state.isSome = true
      · rw [if_pos hpresent]
        exact guarded_inventory hlease hforce env w₁
      · rw [if_neg hpresent]
        exact guarded_missing hlease env (Option.not_isSome_iff_eq_none.mp hpresent)
    · rw [if_neg hstate]
      have hclean : args.cleanState = false := by
        rw [Bool.not_eq_true, Bool.or_eq_false_iff] at hstate
        exact hstate.1
      unfold afterInventory execute
      rw [hclean]
      split
      · trivial
      · split
        · trivial
        · split <;> trivial

theorem look_clean {β : Type} {s : Statement β} {k : β → Program Outcome}
    (hleads : Prog.Leads (cmdClean args env) (.stmt s k))
    (hnot : ¬ Armed (.clean args env) (.stmt s k)) {w w' : World} {r : β}
    (hexec : exec s w = some (r, w')) :
    CleanSpares leaseSecs ⟨.clean args env, ⟨β, s⟩, w, w', k r⟩ ∧
      Guarded (cleaners leaseSecs) Quiet (CleanSpares leaseSecs) (.clean args env) (k r) w' := by
  have hafter : ¬ Prog.Leads (afterInventory args env 0 0) (.stmt s k) :=
    fun h => hnot ⟨trivial, Or.inr h⟩
  have hcheck : ∀ totalJobs sessions,
      ¬ Prog.Leads (checkSessions args env totalJobs sessions) (.stmt s k) :=
    fun totalJobs sessions h => hnot ⟨trivial, Or.inl ⟨totalJobs, sessions, h⟩⟩
  have hguarded : ∀ p, Guarded (cleaners leaseSecs) Quiet (CleanSpares leaseSecs)
      (.clean args env) p w → .stmt s k = p → CleanSpares leaseSecs
        ⟨.clean args env, ⟨β, s⟩, w, w', k r⟩ ∧ Guarded (cleaners leaseSecs) Quiet
          (CleanSpares leaseSecs) (.clean args env) (k r) w' := by
    intro p hp heq
    subst heq
    exact hp w (Quiet.refl w) r w' hexec
  have hstart := hguarded _ (guarded_cmdClean hlease hforce env w)
  simp only [cmdClean, run, Prog.exec_bind] at hleads hstart
  rcases hleads.first with heq | ⟨_, _, _, present, heq, hrest⟩
  · exact hstart heq
  · by_cases hdir : (!env.directory) = true
    · rw [if_pos hdir] at heq
      cases heq
    · rw [if_neg hdir] at heq hleads
      by_cases hstate : (args.cleanState || args.events) = true
      · rw [if_pos hstate] at heq
        cases heq
        dsimp only at hrest
        by_cases hpresent : present = true
        · rw [if_pos hpresent] at hrest
          rcases hrest.first with heq | ⟨_, _, _, counts, heq, hrest⟩
          · exact hguarded _ (guarded_inventory hlease hforce env w) heq
          · cases heq
            rcases hrest.first with heq | ⟨_, _, _, sessions, heq, hrest⟩
            · exact hguarded _ (guarded_activeSessions hlease hforce env _ w) heq
            · cases heq
              exact absurd hrest (hcheck _ _)
        · rw [if_neg hpresent] at hrest
          exact absurd hrest hafter
      · rw [if_neg hstate] at hleads
        exact absurd hleads hafter

end Look

theorem heeds_cleaners {leaseSecs : ℕ} (hlease : leaseSecs ≤ staleThresholdSecs + 1) :
    Heeds (cleaners leaseSecs) Armed (fun _ => Quiet) (fun _ _ => True)
      (CleanSpares leaseSecs) where
  refl _ w := Quiet.refl w
  trans _ _ _ _ h₁ h₂ := h₁.trans h₂
  start := by
    intro op w _ harmed
    cases op with
    | session => cases harmed
    | clean args env =>
      cases hforce : args.force with
      | true => exact guarded_forced leaseSecs hforce env _ w
      | false => exact guarded_cmdClean hlease hforce env w
  look := by
    intro op β s k hleads hnot w r w' hexec
    cases op with
    | session =>
      refine ⟨?_, fun harmed => nomatch harmed⟩
      intro args env hop
      cases hop
    | clean args env =>
      cases hforce : args.force with
      | true =>
        have hguard := guarded_forced leaseSecs hforce env (.stmt s k) w
        obtain ⟨hspares, hrest⟩ := hguard w (Quiet.refl w) r w' hexec
        exact ⟨hspares, fun _ => hrest⟩
      | false =>
        obtain ⟨hspares, hrest⟩ := look_clean hlease hforce env hleads hnot hexec
        exact ⟨hspares, fun _ => hrest⟩

/-- With a lease that is not longer than the threshold of `ox clean`, and in every run in
which no session starts or heartbeats while a clean is armed, every statement of a clean
without `--force` spares the live sessions. -/
theorem clean_spares_live {leaseSecs : ℕ} (hlease : leaseSecs ≤ staleThresholdSecs + 1)
    {start finish : Cleaners} {log : List Event} (hidle : start.Idle)
    (hrun : Run (QuietStep leaseSecs) start log finish) :
    ∀ e ∈ log, ∀ args env, e.operation = .clean args env → args.force = false →
      Spares leaseSecs e := by
  have hheedful : Run (HeedfulStep (cleaners leaseSecs) Armed (fun _ => Quiet) fun _ _ => True)
      start log finish := hrun.mono fun _ _ _ hstep _ => heedful_of_quietStep hstep
  exact heedful_run (heeds_cleaners hlease) hidle hheedful

/-- The kinds of statements that may revive a session. -/
def isRevival : {β : Type} → Statement β → Bool
  | _, .inl (.createSession ..) => true
  | _, .inl (.heartbeat ..) => true
  | _, _ => false

theorem Revives.isRevival {β : Type} {s : Statement β} {w : World} (h : Revives s w) :
    isRevival s = true := by
  unfold Revives at h
  split at h
  · rfl
  · rfl
  · cases h

theorem quiet_run {leaseSecs : ℕ} {start finish : Cleaners} {log : List Event}
    (hrun : Run (Step (cleaners leaseSecs)) start log finish)
    (hlog : log.all (fun e => !isRevival e.statement.2) = true) :
    Run (QuietStep leaseSecs) start log finish := by
  refine hrun.mono ?_
  intro x label y hstep hmem
  refine ⟨hstep, ?_⟩
  intro c op p _ _ e he hrevives
  have hkind := List.all_eq_true.mp hlog e (hmem e he)
  rw [hrevives.isRevival] at hkind
  cases hkind

def cleanYes : CleanArgs where
  dryRun := false
  cacheOnly := false
  stateOnly := false
  events := false
  all := false
  yes := true
  force := false
  json := false

/-- A directory `.oxymake` with nothing but `state.db` in it. -/
def onlyState : Surroundings := ⟨true, false, false⟩

/-- A registered job, and a session that is live. -/
def attended : World where
  state := some
    { jobs := Table.empty.upsert "j" (Db.newRow ⟨"j", "rule", "", none, none⟩) id
      sessions := Table.empty.upsert "s" ⟨1, "host", 995, none, 995, .active⟩ id }
  now := 1000

/-- A session claims a job, completes it and ends, and two cleans. -/
def twoCleans : List Operation :=
  [.session (.claimJobForSession "j" "s"), .clean cleanYes onlyState,
    .session (.completeJob "j" "s" 0 ""), .session (.completeSession "s"),
    .clean cleanYes onlyState]

/-- The first clean looks while the session runs its job, the second one after its end. -/
def twoCleaned : List Event × Cleaners :=
  (schedule (cleaners 90) [1, 0, 1, 0, 1, 1, 1, 2, 2, 3, 4, 4, 4, 4, 4, 4, 4, 4, 4, 4]
    (started (cleaners 90) attended twoCleans)).get rfl

/-- The clean that meets the live session is refused and spares it with its running job, and
the clean after the end of the session empties the tables. -/
theorem clean_spares_live_twoCleans :
    (∃ e ∈ twoCleaned.1, e.operation = .clean cleanYes onlyState ∧ e.rest = .err ∧
      (∃ s, LiveSession 90 e.before "s" s ∧ e.after.db.sessions.get "s" = some s) ∧
      ∃ j, e.before.db.jobs.get "j" = some j ∧ j.status = .running ∧
        e.after.db.jobs.get "j" = some j) ∧
      twoCleaned.2.world.db = Db.empty ∧
      ∀ e ∈ twoCleaned.1, ∀ args env, e.operation = .clean args env → args.force = false →
        Spares 90 e := by
  have hrest : schedule (cleaners 90)
      [1, 0, 1, 0, 1, 1, 1, 2, 2, 3, 4, 4, 4, 4, 4, 4, 4, 4, 4, 4]
      (started (cleaners 90) attended twoCleans) = some (twoCleaned.1, twoCleaned.2) := rfl
  have hrun : Run (Step (cleaners 90)) (System.idle attended) twoCleaned.1 twoCleaned.2 :=
    (run_started _ _ _).trans (run_of_schedule hrest)
  have hspares := clean_spares_live (by decide) (fun _ => rfl) (quiet_run hrun rfl)
  have hmem := List.mem_of_getElem? (l := twoCleaned.1) (i := 6) rfl
  have hlive : LiveSession 90 (twoCleaned.1[6]).before "s" ⟨1, "host", 995, none, 995, .active⟩ :=
    ⟨rfl, rfl, by decide⟩
  obtain ⟨hkept, hjobs⟩ := hspares _ hmem cleanYes onlyState rfl rfl "s" _ hlive
  obtain ⟨hjob, -⟩ := hjobs "j" _ rfl rfl
  exact ⟨⟨_, hmem, rfl, rfl, ⟨_, hlive, hkept⟩, ⟨_, rfl, rfl, hjob⟩⟩, rfl, hspares⟩

def earlierRun : World where
  state := some
    { jobs := Table.empty.upsert "old"
        { Db.newRow ⟨"old", "rule", "", none, none⟩ with
          status := .completed, completedAt := some 5, exitCode := some 0 } id
      sessions := Table.empty }
  now := 1000

/-- A clean, and a session that starts, registers a job and claims it. -/
def cleanAndSession : List Operation :=
  [.clean cleanYes onlyState, .session (.createSession "s" 1 "host" none),
    .session (.registerJobs [⟨"j", "rule", "", none, none⟩]),
    .session (.claimJobForSession "j" "s")]

/-- The clean looks at the sessions, and the session starts and wins its claim after that. -/
def beforeClear : List Event × Cleaners :=
  (schedule (cleaners 90) [0, 0, 0, 0, 0, 1, 1, 2, 3, 3, 0, 0, 0, 0]
    (started (cleaners 90) earlierRun cleanAndSession)).get rfl

def clearing : Event × Cleaners := (advance (cleaners 90) beforeClear.2 0).get rfl

/-- A clean without `--force` deletes the session and the running job of a session that is
live and has won its claim. -/
theorem not_clean_spares_live_started :
    ∃ (start finish : Cleaners) (log : List Event) (e : Event), start.Idle ∧
      Run (Step (cleaners 90)) start (log ++ [e]) finish ∧
      e.operation = .clean cleanYes onlyState ∧ cleanYes.force = false ∧
      (∃ s, LiveSession 90 e.before "s" s) ∧
      (∃ j, e.before.db.jobs.get "j" = some j ∧ j.status = .running ∧ j.sessionId = some "s") ∧
      beforeClear.2.calls 3 = some (.session (.claimJobForSession "j" "s"),
        .ret (.session (.claim .won))) ∧
      e.after.db.sessions.get "s" = none ∧ e.after.db.jobs.get "j" = none ∧ ¬ Spares 90 e := by
  have hrest : schedule (cleaners 90) [0, 0, 0, 0, 0, 1, 1, 2, 3, 3, 0, 0, 0, 0]
      (started (cleaners 90) earlierRun cleanAndSession) = some (beforeClear.1, beforeClear.2) := rfl
  have hclear : advance (cleaners 90) beforeClear.2 0 = some (clearing.1, clearing.2) := rfl
  have hrun : Run (Step (cleaners 90)) (System.idle earlierRun) (beforeClear.1 ++ [clearing.1])
      clearing.2 :=
    ((run_started _ _ _).trans (run_of_schedule hrest)).trans (Run.single (step_of_advance hclear))
  have hlive : LiveSession 90 clearing.1.before "s" ⟨1, "host", 1000, none, 1000, .active⟩ :=
    ⟨rfl, rfl, by decide⟩
  refine ⟨System.idle earlierRun, clearing.2, beforeClear.1, clearing.1, fun _ => rfl, hrun, rfl,
    rfl, ⟨_, hlive⟩, ⟨_, rfl, rfl, rfl⟩, rfl, rfl, rfl, ?_⟩
  intro hspares
  cases (hspares "s" _ hlive).1

end OxyMake.CleanSafety
