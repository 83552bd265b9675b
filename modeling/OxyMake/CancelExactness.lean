import OxyMake.CancelCourses
import OxyMake.RowWrites

/-!
# What an `ox cancel` may do to jobs and sessions

A command acts exactly when it moves only rows that its selectors mean or that
are on a Ray driver with one they mean, and signals the active owners of the
running rows it moved and nobody else. It does so when it is given no filter by
tag, names are not combined with a rule or a session, and the rows it selected
are not disturbed: none starts to run between the first read and the update,
none changes its owner or driver between the read that selected it and the
update, and the owner of each is still the one it had at the update when the
command asks for it.
-/

namespace OxyMake.CancelExactness

open List
open KeyedTable StateDb PhysicalGraph LabelledRuns Interleaving CallCourses CancelCommand
open CancelSelection CancelCourses RowMoves

/-! ### Rows that nobody has claimed -/

/-- The row has no owner while it is `pending`. -/
def Unclaimed (j : Job) : Prop := j.status = .pending → j.sessionId = none

def Orderly (db : Db) : Prop := ∀ jobId j, db.jobs.get jobId = some j → Unclaimed j

theorem stable_unclaimed : RowWrites.Stable Unclaimed where
  inserted _ _ := rfl
  registered _ _ hj := hj
  claimed _ _ _ _ _ := nofun
  retried _ _ _ _ _ _ := nofun
  completed _ _ _ _ _ _ := nofun
  failed _ _ _ _ _ := nofun
  timed _ _ _ hj _ := hj
  skipped _ _ _ _ := nofun
  excluded _ _ _ := nofun
  cancelled _ _ _ _ := nofun
  reset _ _ _ := rfl
  reclaimed _ _ _ _ := rfl

theorem orderly_effect {β : Type} (s : ClaimProtocol.Statement β) {w : ClaimProtocol.World}
    (h : Orderly w.db) :
    Orderly (s.effect w).2 :=
  RowWrites.everywhere_effect stable_unclaimed s h

/-! ### What every process keeps -/

/-- No `pending` row gets an owner and no row gets another rule. -/
def Sound (w w' : World) : Prop :=
  (Orderly w.db → Orderly w'.db) ∧ ∀ id j, w.db.jobs.get id = some j →
    ∃ j', w'.db.jobs.get id = some j' ∧ j'.ruleName = j.ruleName

theorem Sound.refl (w : World) : Sound w w := ⟨id, fun _ j hj => ⟨j, hj, rfl⟩⟩

theorem Sound.trans {u v w : World} (h₁ : Sound u v) (h₂ : Sound v w) : Sound u w := by
  refine ⟨fun h => h₂.1 (h₁.1 h), ?_⟩
  intro id j hj
  obtain ⟨j₁, hget, hrule⟩ := h₁.2 id j hj
  obtain ⟨j₂, hlast, hrest⟩ := h₂.2 id j₁ hget
  exact ⟨j₂, hlast, hrest.trans hrule⟩

theorem Sound.of_db {w w' : World} (h : w'.db = w.db) : Sound w w' := by
  constructor
  · rw [h]
    exact id
  · rw [h]
    exact fun _ j hj => ⟨j, hj, rfl⟩

theorem sound_exec {β : Type} (s : Statement β) (w : World) (r : β) (w' : World)
    (h : exec s w = some (r, w')) : Sound w w' := by
  cases s with
  | inl s =>
    obtain ⟨⟨_, u⟩, hexec, heq⟩ := Option.map_eq_some_iff.mp h
    cases heq
    unfold ClaimProtocol.Statement.exec at hexec
    split_ifs at hexec with hrefused
    cases hexec
    have horderly : Orderly w.db → Orderly (s.effect ⟨w.db, w.now⟩).2 := fun h =>
      orderly_effect s (w := ⟨w.db, w.now⟩) h
    exact ⟨horderly, fun id j hj => rule_effect s ⟨w.db, w.now⟩ hj⟩
  | inr =>
    cases h
    exact Sound.refl w

theorem relies_sound (leaseSecs : ℕ) : Relies (cancellers leaseSecs) Sound where
  refl := Sound.refl
  trans _ _ _ := Sound.trans
  exec := sound_exec
  drift _ _ h := Sound.of_db h.1

/-! ### What a command should do -/

/-- The job meets every selector that is given; the number of a session means the session it
stands for in a store that the command met. -/
structure Satisfies (args : CancelArgs) (env : Surroundings)
    (own : List (Moment Statement World)) (w : World) (id : String) : Prop where
  /-- It is one of the named jobs or downstream of one. -/
  names : args.names = [] ∨ ∃ g, env.graph = some g ∧ Named g args.names id
  /-- It is a job of the rule. -/
  rule : ∀ r ∈ args.rule, ∃ j, w.db.jobs.get id = some j ∧ j.ruleName = r
  session : ∀ n ∈ args.session, ∃ j s, w.db.jobs.get id = some j ∧ j.sessionId = some s ∧
    ∃ m ∈ own, denotedSession (activeSessions m.before.db) n = some s
  filters : ∀ f ∈ args.filters, env.tagged id f = true

def Moves (m : Moment Statement World) (id : String) : Prop :=
  ∃ j j', m.before.db.jobs.get id = some j ∧ m.after.db.jobs.get id = some j' ∧
    j.status ≠ .cancelled ∧ j'.status = .cancelled

/-- The process is that of the active session that runs the job. -/
def Owns (w : World) (id : String) (pid : ℕ) : Prop :=
  (∃ j, w.db.jobs.get id = some j ∧ j.status = .running) ∧ jobSessionPid w.db id = some pid

def Signals (own : List (Moment Statement World)) (pid : ℕ) : Prop :=
  ∃ m ∈ own, signalledPid m.statement.2 = some pid

/-- The command acts on exactly the selected jobs. -/
structure Exact (args : CancelArgs) (env : Surroundings) (own : List (Moment Statement World))
    (finished : Prop) : Prop where
  /-- A row it moves is pending or running then, and meets every given selector or is on a
  Ray driver with a job that met them. -/
  moved : ∀ m ∈ own, ∀ id, Moves m id →
    (∃ j, m.before.db.jobs.get id = some j ∧ Cancellable j) ∧
      (Satisfies args env own m.before id ∨ ∃ a, (∃ look ∈ own,
        Satisfies args env own look.before a) ∧ SameDriver m.before a id)
  /-- A process it signals runs a row that it moved, when it moved it. -/
  signalled : ∀ pid, Signals own pid → ∃ m ∈ own, ∃ id, Moves m id ∧ Owns m.before id pid
  /-- Once it is through, every process that ran a row it moved is signalled. -/
  owners : finished → ∀ m ∈ own, ∀ id pid, Moves m id → Owns m.before id pid →
    Signals own pid

/-! ### When the selected rows are not disturbed -/

/-- When the command asks for the owner of a row after the update it is the one at the
update, or it has ended after the command asked for it by another row. -/
def StillOwned (past : List (Moment Statement World)) (ask : Moment Statement World) : Prop :=
  ∀ id, askedJob ask.statement.2 = some id →
    ∀ up ∈ past, (updatedIds up.statement.2).isSome = true →
      jobSessionPid ask.before.db id = jobSessionPid up.before.db id ∨
        (jobSessionPid ask.before.db id = none ∧ ∃ earlier ∈ past, ∃ id',
          askedJob earlier.statement.2 = some id' ∧
          jobSessionPid up.before.db id' = jobSessionPid up.before.db id)

/-- The selected rows are not disturbed while the command is under way. -/
structure Undisturbed (own : List (Moment Statement World)) : Prop where
  /-- A row that an active session runs at the update was running at the first read. -/
  running : ∀ first ∈ own, readsRunning first.statement.2 = true → ∀ up ∈ own, ∀ ids,
    updatedIds up.statement.2 = some ids → ∀ id ∈ ids, ∀ pid, Owns up.before id pid →
      ∃ j, first.before.db.jobs.get id = some j ∧ j.status = .running
  /-- A row that was selected for its session still belongs to it at the update. -/
  session : ∀ look ∈ own, ∀ s, selectedSession look.statement.2 = some s → ∀ up ∈ own, ∀ ids,
    updatedIds up.statement.2 = some ids → ∀ id ∈ ids, ∀ j j',
      look.before.db.jobs.get id = some j → j.sessionId = some s →
      up.before.db.jobs.get id = some j' → Cancellable j' → j'.sessionId = some s
  /-- Rows that were on one Ray driver when the submissions were read still are. -/
  drivers : ∀ read ∈ own, readsSubmissions read.statement.2 = true → ∀ up ∈ own, ∀ ids,
    updatedIds up.statement.2 = some ids → ∀ a ∈ ids, ∀ b ∈ ids, ∀ j,
      up.before.db.jobs.get b = some j → Cancellable j →
      SameDriver read.before a b → SameDriver up.before a b
  /-- The owners that the command asks for are those at the update. -/
  owners : ∀ past ask later, own = past ++ ask :: later → StillOwned past ask

/-! ### A command that reached its update -/

theorem row_of_mem_cancellableJobIds {db : Db} {rule sessionId : Option String} {id : String}
    (h : id ∈ db.cancellableJobIds rule sessionId) :
    ∃ j, db.jobs.get id = some j ∧ (∀ r ∈ rule, j.ruleName = r) ∧
      ∀ s ∈ sessionId, j.sessionId = some s := by
  obtain ⟨j, hj, hfound⟩ := (Table.mem_select_iff _ _ _).mp h
  simp only [Bool.and_eq_true, Option.all_eq_true, decide_eq_true_eq] at hfound
  exact ⟨j, hj, hfound.1.2, hfound.2⟩

/-- A command in whose course the update is. -/
structure Acted (args : CancelArgs) (env : Surroundings) (own pre : List (Moment Statement World))
    (up : Moment Statement World) (asks : List (Moment Statement World))
    (running chosen ids cancelled : List String) (finished : Prop) : Prop where
  /-- The update is between the reads and the questions. -/
  split : own = pre ++ up :: asks
  led : Led args env pre running chosen ids
  update : Update up ids cancelled
  signalled : Signalled cancelled running asks finished
  executed : ∀ m ∈ own, ∃ r, exec m.statement.2 m.before = some (r, m.after)
  /-- Between a read and the update the others were sound. -/
  sound : ∀ m ∈ pre, Sound m.before up.before
  orderly : Orderly up.before.db

section Update

variable {args : CancelArgs} {env : Surroundings} {own pre asks : List (Moment Statement World)}
  {up : Moment Statement World} {running chosen ids cancelled : List String} {finished : Prop}
  (h : Acted args env own pre up asks running chosen ids cancelled finished)

include h

theorem Acted.mem_own {m : Moment Statement World} :
    m ∈ own ↔ m ∈ pre ∨ m = up ∨ m ∈ asks := by
  rw [h.split, mem_append, mem_cons]

theorem Acted.updatedIds_up : updatedIds up.statement.2 = some ids := by
  obtain ⟨_, hstatement, -, -⟩ := h.update
  rw [hstatement]
  rfl

theorem Acted.up_silent : askedJob up.statement.2 = none ∧ signalledPid up.statement.2 = none := by
  obtain ⟨_, hstatement, -, -⟩ := h.update
  rw [hstatement]
  exact ⟨rfl, rfl⟩

theorem Acted.eq_up {m : Moment Statement World} (hm : m ∈ own) {id : String}
    (hmoves : Moves m id) : m = up := by
  obtain ⟨r, hexec⟩ := h.executed m hm
  have hkeeps : m.after = m.before → m = up := by
    intro hsame
    obtain ⟨j, _, hj, hj', hne, hcancelled⟩ := hmoves
    rw [hsame, hj] at hj'
    cases hj'
    exact absurd hcancelled hne
  rcases h.mem_own.mp hm with hpre | heq | hask
  · exact hkeeps ((h.led.reads m hpre).exec hexec)
  · exact heq
  · exact hkeeps ((h.signalled.asks m hask).exec hexec)

theorem Acted.cancellable {id : String} (hmoves : Moves up id) :
    id ∈ ids ∧ ∃ j, up.before.db.jobs.get id = some j ∧ Cancellable j := by
  obtain ⟨j, j', hj, hj', hne, hcancelled⟩ := hmoves
  have hchanged : j'.status ≠ j.status := by
    rw [hcancelled]
    exact fun heq => hne heq.symm
  obtain ⟨hid, hcase⟩ := h.update.moved hj hj' hchanged
  exact ⟨hid, j, hj, hcase⟩

theorem Acted.moves {id : String} (hid : id ∈ cancelled) : Moves up id := by
  obtain ⟨j, j', hj, hj', hcase, hcancelled⟩ := h.update.cancels hid
  refine ⟨j, j', hj, hj', ?_, hcancelled⟩
  intro heq
  rcases hcase with hcase | hcase <;> rw [hcase] at heq <;> cases heq

theorem Acted.mem_asks {m : Moment Statement World} (hm : m ∈ own)
    (hview : askedJob m.statement.2 ≠ none ∨ signalledPid m.statement.2 ≠ none) : m ∈ asks := by
  rcases h.mem_own.mp hm with hpre | rfl | hask
  · have hreads := (h.led.reads m hpre).views
    exact absurd hview (not_or.mpr ⟨not_not.mpr hreads.2.1, not_not.mpr hreads.2.2⟩)
  · exact absurd hview (not_or.mpr ⟨not_not.mpr h.up_silent.1, not_not.mpr h.up_silent.2⟩)
  · exact hask

/-! ### The selectors -/

section Selectors

variable (hfilters : args.filters = [])
  (hnames : args.names ≠ [] → args.rule = none ∧ args.session = none)

include hfilters hnames

omit h in
theorem satisfies_named {g : JobGraph} (hgiven : args.names ≠ []) (hgraph : env.graph = some g)
    {id : String} (hid : Named g args.names id) (u : World) : Satisfies args env own u id where
  names := .inr ⟨g, hgraph, hid⟩
  rule := by
    rw [(hnames hgiven).1]
    exact nofun
  session := by
    rw [(hnames hgiven).2]
    exact nofun
  filters := by
    rw [hfilters]
    exact forall_mem_nil _

omit hnames in
theorem Acted.satisfies_row {sessionId : Option String} (hgiven : args.names = [])
    (hdenoted : ∀ n ∈ args.session, ∃ s, sessionId = some s ∧
      ∃ m ∈ pre, denotedSession (activeSessions m.before.db) n = some s)
    {u : World} {id : String} {j : Job} (hj : u.db.jobs.get id = some j)
    (hrule : ∀ r ∈ args.rule, j.ruleName = r)
    (hsession : ∀ s ∈ sessionId, j.sessionId = some s) : Satisfies args env own u id where
  names := .inl hgiven
  rule := fun r hr => ⟨j, hj, hrule r hr⟩
  session := by
    intro n hn
    obtain ⟨s, hs, m, hm, hsome⟩ := hdenoted n hn
    exact ⟨j, s, hj, hsession s hs, m, h.mem_own.mpr (.inl hm), hsome⟩
  filters := by
    rw [hfilters]
    exact forall_mem_nil _

theorem Acted.satisfies_chosen {a : String} (ha : a ∈ chosen) :
    ∃ look ∈ own, Satisfies args env own look.before a := by
  rcases h.led.selected with ⟨hgiven, g, hgraph, hnamed⟩ |
    ⟨hgiven, look, hlook, _, -, hchosen, -, hdenoted⟩
  · exact ⟨up, h.mem_own.mpr (.inr (.inl rfl)),
      satisfies_named hfilters hnames hgiven hgraph ((hnamed a).mp ha) up.before⟩
  · rw [hchosen] at ha
    obtain ⟨j, hj, hrule, hsession⟩ := row_of_mem_cancellableJobIds ha
    exact ⟨look, h.mem_own.mpr (.inl hlook),
      h.satisfies_row hfilters hgiven hdenoted hj hrule hsession⟩

theorem Acted.satisfies_moved (hund : Undisturbed own) {id : String} (hid : id ∈ chosen) {j : Job}
    (hj : up.before.db.jobs.get id = some j) (hcase : Cancellable j) :
    Satisfies args env own up.before id := by
  rcases h.led.selected with ⟨hgiven, g, hgraph, hnamed⟩ |
    ⟨hgiven, look, hlook, _, hview, hchosen, -, hdenoted⟩
  · exact satisfies_named hfilters hnames hgiven hgraph ((hnamed id).mp hid) up.before
  · have hids := h.led.keeps id hid
    rw [hchosen] at hid
    obtain ⟨j₀, hj₀, hrule, hsession⟩ := row_of_mem_cancellableJobIds hid
    obtain ⟨j₁, hj₁, hsame⟩ := (h.sound look hlook).2 id j₀ hj₀
    have heq : j₁ = j := Option.some.inj (hj₁.symm.trans hj)
    subst heq
    refine h.satisfies_row hfilters hgiven hdenoted hj ?_ ?_
    · intro r hr
      rw [hsame]
      exact hrule r hr
    · intro s hs
      rw [hs] at hview
      exact hund.session look (h.mem_own.mpr (.inl hlook)) s hview up
        (h.mem_own.mpr (.inr (.inl rfl))) ids h.updatedIds_up id hids j₀ j₁ hj₀
        (hsession s hs) hj hcase

theorem Acted.moved (hund : Undisturbed own) {id : String} (hmoves : Moves up id) :
    (∃ j, up.before.db.jobs.get id = some j ∧ Cancellable j) ∧
      (Satisfies args env own up.before id ∨ ∃ a, (∃ look ∈ own,
        Satisfies args env own look.before a) ∧ SameDriver up.before a id) := by
  obtain ⟨hid, j, hj, hcase⟩ := h.cancellable hmoves
  refine ⟨⟨j, hj, hcase⟩, ?_⟩
  obtain ⟨read, hread, hview, hjoined⟩ := h.led.joined
  rcases hjoined id hid with hchosen | ⟨a, ha, hsame⟩
  · exact .inl (h.satisfies_moved hfilters hnames hund hchosen hj hcase)
  · have hstill := hund.drivers read (h.mem_own.mpr (.inl hread)) hview up
      (h.mem_own.mpr (.inr (.inl rfl))) ids h.updatedIds_up a (h.led.keeps a ha) id hid j hj
      hcase hsame
    exact .inr ⟨a, h.satisfies_chosen hfilters hnames ha, hstill⟩

end Selectors

/-! ### The signals -/

theorem Acted.owns {id : String} {pid : ℕ} (hid : id ∈ cancelled)
    (hpid : jobSessionPid up.before.db id = some pid) : Owns up.before id pid := by
  obtain ⟨j, _, hj, -, hcase, -⟩ := h.update.cancels hid
  refine ⟨⟨j, hj, ?_⟩, hpid⟩
  rcases hcase with hpending | hrunning
  · have hnone : j.sessionId = none := h.orderly id j hj hpending
    simp only [jobSessionPid, hj, hnone, Option.bind_eq_bind, Option.bind_some,
      Option.bind_none] at hpid
    cases hpid
  · exact hrunning

theorem Acted.split_asks {a b : List (Moment Statement World)} {ask : Moment Statement World}
    (hasks : asks = a ++ ask :: b) : own = (pre ++ up :: a) ++ ask :: b := by
  rw [h.split, hasks, append_assoc, cons_append]

theorem Acted.signalled_owns (hund : Undisturbed own) {pid : ℕ} (hpid : Signals own pid) :
    ∃ id, Moves up id ∧ Owns up.before id pid := by
  obtain ⟨m, hm, hsignal⟩ := hpid
  have hask : m ∈ asks := h.mem_asks hm (.inr (by rw [hsignal]; exact nofun))
  obtain ⟨ask, hask, id, hasked, hanswer⟩ := h.signalled.answered m hask pid hsignal
  have hid := h.signalled.about ask hask id hasked
  obtain ⟨a, b, hab⟩ := append_of_mem hask
  have hsome : (updatedIds up.statement.2).isSome = true := by
    rw [h.updatedIds_up]
    rfl
  rcases hund.owners _ ask b (h.split_asks hab) id hasked up
    (mem_append_right _ mem_cons_self) hsome with hsame | ⟨hnone, -⟩
  · exact ⟨id, h.moves hid, h.owns hid (hsame.symm.trans hanswer)⟩
  · rw [hnone] at hanswer
    cases hanswer

theorem Acted.signals_of_asked (hund : Undisturbed own) (hfin : finished) {pid : ℕ} :
    ∀ (n : ℕ) (a b : List (Moment Statement World)) (ask : Moment Statement World) (id : String),
      a.length < n → asks = a ++ ask :: b → askedJob ask.statement.2 = some id →
      jobSessionPid up.before.db id = some pid → Signals own pid := by
  intro n
  induction n with
  | zero => exact fun a b ask id hlt => absurd hlt (Nat.not_lt_zero _)
  | succ n ih =>
    intro a b ask id hlt hab hasked hpid
    have hask : ask ∈ asks := by
      rw [hab]
      exact mem_append_right _ mem_cons_self
    have hsome : (updatedIds up.statement.2).isSome = true := by
      rw [h.updatedIds_up]
      rfl
    rcases hund.owners _ ask b (h.split_asks hab) id hasked up
      (mem_append_right _ mem_cons_self) hsome with
      hsame | ⟨-, earlier, hearlier, id', hasked', hsame⟩
    · obtain ⟨m, hm, hsignal⟩ :=
        h.signalled.sent hfin ask hask id pid hasked (hsame.trans hpid)
      exact ⟨m, h.mem_own.mpr (.inr (.inr hm)), hsignal⟩
    · have hmem : earlier ∈ a := by
        rcases mem_append.mp hearlier with hpre | hrest
        · rw [(h.led.reads earlier hpre).views.2.1] at hasked'
          cases hasked'
        · rcases mem_cons.mp hrest with rfl | hrest
          · rw [h.up_silent.1] at hasked'
            cases hasked'
          · exact hrest
      obtain ⟨a₁, a₂, ha⟩ := append_of_mem hmem
      refine ih a₁ (a₂ ++ ask :: b) earlier id' ?_ ?_ hasked' (hsame.trans hpid)
      · rw [ha, length_append, length_cons] at hlt
        omega
      · rw [hab, ha, append_assoc, cons_append]

theorem Acted.owner_signalled (hund : Undisturbed own) (hfin : finished) {id : String} {pid : ℕ}
    (hmoves : Moves up id) (howns : Owns up.before id pid) : Signals own pid := by
  obtain ⟨hid, j, hj, hcase⟩ := h.cancellable hmoves
  have hcancelled : id ∈ cancelled := (h.update.mem_cancelled hj).mpr ⟨hid, hcase⟩
  obtain ⟨first, hfirst, hview, hrunning⟩ := h.led.listed
  obtain ⟨j₀, hj₀, hstatus⟩ := hund.running first (h.mem_own.mpr (.inl hfirst)) hview up
    (h.mem_own.mpr (.inr (.inl rfl))) ids h.updatedIds_up id hid pid howns
  have hlisted : id ∈ running := by
    rw [hrunning]
    exact (Table.mem_select_iff _ _ _).mpr ⟨j₀, hj₀, decide_eq_true hstatus⟩
  obtain ⟨ask, hask, hasked⟩ := h.signalled.complete hfin id hlisted hcancelled
  obtain ⟨a, b, hab⟩ := append_of_mem hask
  exact h.signals_of_asked hund hfin _ a b ask id (Nat.lt_succ_self _) hab hasked howns.2

end Update

theorem exact_of_reads (args : CancelArgs) (env : Surroundings)
    {own : List (Moment Statement World)} (finished : Prop)
    (hreads : ∀ m ∈ own, Reads m.statement.2)
    (hexec : ∀ m ∈ own, ∃ r, exec m.statement.2 m.before = some (r, m.after)) :
    Exact args env own finished := by
  have hstill : ∀ m ∈ own, ∀ id, ¬ Moves m id := by
    intro m hm id hmoves
    obtain ⟨r, hr⟩ := hexec m hm
    obtain ⟨j, _, hj, hj', hne, hcancelled⟩ := hmoves
    rw [(hreads m hm).exec hr, hj] at hj'
    cases hj'
    exact hne hcancelled
  constructor
  · exact fun m hm id hmoves => absurd hmoves (hstill m hm id)
  · intro pid hpid
    obtain ⟨m, hm, hsignal⟩ := hpid
    rw [(hreads m hm).views.2.2] at hsignal
    cases hsignal
  · exact fun _ m hm id _ hmoves => absurd hmoves (hstill m hm id)

theorem exact_of_course {args : CancelArgs} {env : Surroundings}
    {own : List (Moment Statement World)} {w v : World} {q : Program Outcome}
    (h : Course exec Sound (cmdCancel args env) w own q v) (horderly : Orderly w.db)
    (hfilters : args.filters = [])
    (hnames : args.names ≠ [] → args.rule = none ∧ args.session = none)
    (hund : Undisturbed own) : Exact args env own (∃ outcome, q = .ret outcome) := by
  have hexecuted := h.executed
  rcases course_cmdCancel h with hreads |
    ⟨pre, up, asks, running, chosen, ids, cancelled, hsplit, hled, hup, hsignalled⟩
  · exact exact_of_reads args env _ hreads hexecuted
  · have hsound : ∀ m ∈ pre, Sound m.before up.before := by
      rw [hsplit] at h
      obtain ⟨p, u, hcourse, hlast⟩ := h.cut
      intro m hm
      obtain ⟨r, hr⟩ := hcourse.executed m hm
      have hafter := ((hcourse.relies Sound.refl (fun _ _ _ => Sound.trans) sound_exec).2 m hm).2
      exact (sound_exec _ _ _ _ hr).trans (hafter.trans hlast)
    have hstart : Sound w up.before := by
      rw [hsplit] at h
      obtain ⟨p, u, hcourse, hlast⟩ := h.cut
      exact (hcourse.relies Sound.refl (fun _ _ _ => Sound.trans) sound_exec).1.trans hlast
    have hacted : Acted args env own pre up asks running chosen ids cancelled
        (∃ outcome, q = .ret outcome) :=
      ⟨hsplit, hled, hup, hsignalled, hexecuted, hsound, hstart.1 horderly⟩
    constructor
    · intro m hm id hmoves
      have heq := hacted.eq_up hm hmoves
      subst heq
      exact hacted.moved hfilters hnames hund hmoves
    · intro pid hpid
      obtain ⟨id, hmoves, howns⟩ := hacted.signalled_owns hund hpid
      exact ⟨up, hacted.mem_own.mpr (.inr (.inl rfl)), id, hmoves, howns⟩
    · intro hfin m hm id pid hmoves howns
      have heq := hacted.eq_up hm hmoves
      subst heq
      exact hacted.owner_signalled hund hfin hmoves howns

def cancelAll : CancelArgs where
  names := []
  all := true
  filters := []
  rule := none
  session := none

/-- No Oxymakefile is read and no job has a tag. -/
def noFile : Surroundings where
  graph := none
  order := id
  order_perm _ := .refl _
  tagged _ _ := false

def jobOf (status : JobStatus) (sessionId : Option String) : Job :=
  { Db.newRow ⟨"", "rule", "", none, none⟩ with
    status := status, sessionId := sessionId, lockedBy := sessionId }

/-- Session `s` of process 7 runs `a` and `b`. -/
def twoRunning : World where
  db :=
    { jobs := (Table.empty.upsert "a" (jobOf .running (some "s")) id).upsert "b"
        (jobOf .running (some "s")) id
      sessions := Table.empty.upsert "s" ⟨7, "host", 5, none, 9, .active⟩ id }
  now := 10
  submissionId _ := none
  dagSubmission _ := none

/-- Both rows are cancelled, the session is signalled for the first and ends before the
command asks for the owner of the second. -/
def gracefulEnd : List Event × Cancellers :=
  (schedule (cancellers 90) [0, 0, 0, 0, 0, 0, 0, 1, 0]
    (started (cancellers 90) twoRunning
      [.cancel cancelAll noFile, .session (.interruptSession "s")])).get rfl

def cancelledBoth : World :=
  { twoRunning with db := (twoRunning.db.cancelJobIds 10 ["a", "b"]).2 }

/-- Both rows are cancelled and the session has ended. -/
def endedAfter : World :=
  { cancelledBoth with db := (cancelledBoth.db.interruptSession "s").2 }

def gracefulLog : List (ℕ × Event) := [0, 0, 0, 0, 0, 0, 0, 1, 0].zip gracefulEnd.1

theorem own_gracefulLog : own 0 gracefulLog =
    [⟨⟨_, .inr .runningJobsDetail⟩, twoRunning, twoRunning⟩,
      ⟨⟨_, .inl (.cancellableJobIds none none)⟩, twoRunning, twoRunning⟩,
      ⟨⟨_, .inr .remoteJobSubmissions⟩, twoRunning, twoRunning⟩,
      ⟨⟨_, .inl .unixNow⟩, twoRunning, twoRunning⟩,
      ⟨⟨_, .inl (.cancelJobIds 10 ["a", "b"])⟩, twoRunning, cancelledBoth⟩,
      ⟨⟨_, .inr (.jobSessionPid "a")⟩, cancelledBoth, cancelledBoth⟩,
      ⟨⟨_, .inr (.sendSigterm 7)⟩, cancelledBoth, cancelledBoth⟩,
      ⟨⟨_, .inr (.jobSessionPid "b")⟩, endedAfter, endedAfter⟩] := rfl

theorem undisturbed_gracefulLog : Undisturbed (own 0 gracefulLog) := by
  rw [own_gracefulLog]
  constructor
  · simp only [mem_cons, not_mem_nil, or_false, readsRunning, updatedIds,
      forall_eq_or_imp, reduceCtorEq, IsEmpty.forall_iff, implies_true, Option.some.injEq,
      forall_eq', forall_eq, and_self, and_true, true_and, forall_const, Bool.false_eq_true]
    exact ⟨fun _ h => h.1, fun _ h => h.1⟩
  · simp only [mem_cons, not_mem_nil, or_false, selectedSession, updatedIds,
      forall_eq_or_imp, reduceCtorEq, IsEmpty.forall_iff, implies_true, Option.some.injEq,
      forall_eq', forall_eq, and_self, and_true, true_and]
  · simp only [mem_cons, not_mem_nil, or_false, readsSubmissions, updatedIds,
      forall_eq_or_imp, reduceCtorEq, IsEmpty.forall_iff, implies_true, Option.some.injEq,
      forall_eq', forall_eq, and_self, and_true, true_and, Bool.false_eq_true, imp_self]
  · refine Each.at (?_ : Each StillOwned [] _)
    simp only [Each, StillOwned, askedJob, reduceCtorEq, not_mem_nil, updatedIds, false_and,
      exists_false, and_false, or_false, IsEmpty.forall_iff, implies_true, nil_append,
      mem_cons, exists_eq_left, forall_eq, Option.isSome_none,
      Bool.false_eq_true, cons_append, exists_eq_or_imp, ↓existsAndEq, or_self,
      forall_eq_or_imp, and_self, Option.some.injEq, Option.isSome_some, forall_const, true_and,
      forall_eq', exists_eq_left', false_or, true_or, and_true]
    exact ⟨rfl, .inr ⟨rfl, rfl⟩⟩

theorem orderly_twoRunning : Orderly twoRunning.db := by
  intro id j hj hpending
  have hall : twoRunning.db.jobs.rows.all (fun row => row.2.status ≠ .pending) = true := rfl
  have hrow := all_eq_true.mp hall _ ((Table.mem_rows_iff _ _ _).mpr hj)
  exact absurd hpending (of_decide_eq_true hrow)

theorem run_gracefulLog :
    Run (Numbered (cancellers 90)) (System.idle twoRunning) gracefulLog gracefulEnd.2 := by
  have hrest : schedule (cancellers 90) [0, 0, 0, 0, 0, 0, 0, 1, 0]
      (started (cancellers 90) twoRunning
        [.cancel cancelAll noFile, .session (.interruptSession "s")]) =
      some (gracefulEnd.1, gracefulEnd.2) := rfl
  exact (numbered_started _ _ _).trans (numbered_of_schedule hrest)

/-- Session `s` of process 7 is active and `j` waits. -/
def waiting : World where
  db :=
    { jobs := Table.empty.upsert "j" (jobOf .pending none) id
      sessions := Table.empty.upsert "s" ⟨7, "host", 5, none, 9, .active⟩ id }
  now := 10
  submissionId _ := none
  dagSubmission _ := none

/-- The session claims the job after the command listed the running jobs. -/
def claimedBetween : List Event × Cancellers :=
  (schedule (cancellers 90) [0, 1, 1, 0, 0, 0, 0]
    (started (cancellers 90) waiting
      [.cancel cancelAll noFile, .session (.claimJobForSession "j" "s")])).get rfl

end OxyMake.CancelExactness
