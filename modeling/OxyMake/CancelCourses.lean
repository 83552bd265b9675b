import OxyMake.CancelSelection
import OxyMake.RowMoves

/-!
# The course of an `ox cancel`

Up to the update the command only reads, and after it it only asks for owners
and signals. So a command either has moved nothing and signalled nobody, or its
course is what led to the update, the update, and the questions that follow.
-/

namespace OxyMake.CancelCourses

open List
open StateDb Interleaving Watching CallCourses CancelCommand CancelSelection RowMoves

variable {rely : World → World → Prop} {own : List (Moment Statement World)} {w v : World}

/-! ### Signalling the owners -/

/-- Every signal follows the answer to a question about a cancelled job that was seen
running, and a command that is through has asked about each of them and signalled every
answer. -/
structure Signalled (cancelled running : List String) (own : List (Moment Statement World))
    (finished : Prop) : Prop where
  asks : ∀ m ∈ own, Asks m.statement.2
  /-- A question is about a cancelled job that was seen running. -/
  about : ∀ m ∈ own, ∀ id, askedJob m.statement.2 = some id → id ∈ cancelled
  /-- A signalled process was the answer to a question. -/
  answered : ∀ m ∈ own, ∀ pid, signalledPid m.statement.2 = some pid →
    ∃ ask ∈ own, ∃ id, askedJob ask.statement.2 = some id ∧
      jobSessionPid ask.before.db id = some pid
  sent : finished → ∀ ask ∈ own, ∀ id pid, askedJob ask.statement.2 = some id →
    jobSessionPid ask.before.db id = some pid → ∃ m ∈ own, signalledPid m.statement.2 = some pid
  complete : finished → ∀ id ∈ running, id ∈ cancelled →
    ∃ ask ∈ own, askedJob ask.statement.2 = some id

theorem Signalled.mono {cancelled running : List String} {finished finished' : Prop}
    (h : Signalled cancelled running own finished) (hfin : finished' → finished) :
    Signalled cancelled running own finished' where
  asks := h.asks
  about := h.about
  answered := h.answered
  sent := fun hf => h.sent (hfin hf)
  complete := fun hf => h.complete (hfin hf)

theorem Signalled.nil {cancelled running : List String} {finished : Prop} (h : ¬ finished) :
    Signalled cancelled running [] finished where
  asks := forall_mem_nil _
  about := forall_mem_nil _
  answered := forall_mem_nil _
  sent := fun hfin => absurd hfin h
  complete := fun hfin => absurd hfin h

theorem Signalled.halted {cancelled running : List String} {finished : Prop} (h : ¬ finished)
    {id : String} (hid : id ∈ cancelled) (u : World) :
    Signalled cancelled running [⟨⟨_, .inr (.jobSessionPid id)⟩, u, u⟩] finished where
  asks := by
    intro m hm
    rw [mem_singleton.mp hm]
    trivial
  about := by
    intro m hm id' hasked
    rw [mem_singleton.mp hm] at hasked
    cases hasked
    exact hid
  answered := by
    intro m hm pid hpid
    rw [mem_singleton.mp hm] at hpid
    cases hpid
  sent := fun hfin => absurd hfin h
  complete := fun hfin => absurd hfin h

theorem Signalled.skip {cancelled running : List String} {finished : Prop} {id : String}
    (h : Signalled cancelled running own finished) (hid : id ∉ cancelled) :
    Signalled cancelled (id :: running) own finished where
  asks := h.asks
  about := h.about
  answered := h.answered
  sent := h.sent
  complete := by
    intro hfin id' hid' hcancelled
    rcases mem_cons.mp hid' with rfl | hrest
    · exact absurd hcancelled hid
    · exact h.complete hfin id' hrest hcancelled

theorem Signalled.unanswered {cancelled running : List String} {finished : Prop} {id : String}
    (h : Signalled cancelled running own finished) (hid : id ∈ cancelled) {u : World}
    (hnone : jobSessionPid u.db id = none) :
    Signalled cancelled (id :: running)
      (⟨⟨_, .inr (.jobSessionPid id)⟩, u, u⟩ :: own) finished where
  asks := by
    intro m hm
    rcases mem_cons.mp hm with rfl | hm
    · trivial
    · exact h.asks m hm
  about := by
    intro m hm id' hasked
    rcases mem_cons.mp hm with rfl | hm
    · cases hasked
      exact hid
    · exact h.about m hm id' hasked
  answered := by
    intro m hm pid hpid
    rcases mem_cons.mp hm with rfl | hm
    · cases hpid
    · obtain ⟨ask, hask, hrest⟩ := h.answered m hm pid hpid
      exact ⟨ask, mem_cons_of_mem _ hask, hrest⟩
  sent := by
    intro hfin ask hask id' pid hasked hanswer
    rcases mem_cons.mp hask with rfl | hask
    · cases hasked
      rw [hnone] at hanswer
      cases hanswer
    · obtain ⟨m, hm, hpid⟩ := h.sent hfin ask hask id' pid hasked hanswer
      exact ⟨m, mem_cons_of_mem _ hm, hpid⟩
  complete := by
    intro hfin id' hid' hcancelled
    rcases mem_cons.mp hid' with rfl | hrest
    · exact ⟨_, mem_cons_self, rfl⟩
    · obtain ⟨ask, hask, hasked⟩ := h.complete hfin id' hrest hcancelled
      exact ⟨ask, mem_cons_of_mem _ hask, hasked⟩

theorem Signalled.signal {cancelled running : List String} {finished : Prop} {id : String}
    (h : Signalled cancelled running own finished) (hid : id ∈ cancelled) {u u' : World}
    {pid : ℕ} (hsome : jobSessionPid u.db id = some pid) :
    Signalled cancelled (id :: running)
      (⟨⟨_, .inr (.jobSessionPid id)⟩, u, u⟩ :: ⟨⟨_, .inr (.sendSigterm pid)⟩, u', u'⟩ :: own)
      finished where
  asks := by
    intro m hm
    rcases mem_cons.mp hm with rfl | hm
    · trivial
    · rcases mem_cons.mp hm with rfl | hm
      · trivial
      · exact h.asks m hm
  about := by
    intro m hm id' hasked
    rcases mem_cons.mp hm with rfl | hm
    · cases hasked
      exact hid
    · rcases mem_cons.mp hm with rfl | hm
      · cases hasked
      · exact h.about m hm id' hasked
  answered := by
    intro m hm pid' hpid
    rcases mem_cons.mp hm with rfl | hm
    · cases hpid
    · rcases mem_cons.mp hm with rfl | hm
      · cases hpid
        exact ⟨_, mem_cons_self, id, rfl, hsome⟩
      · obtain ⟨ask, hask, hrest⟩ := h.answered m hm pid' hpid
        exact ⟨ask, mem_cons_of_mem _ (.tail _ hask), hrest⟩
  sent := by
    intro hfin ask hask id' pid' hasked hanswer
    rcases mem_cons.mp hask with rfl | hask
    · cases hasked
      rw [hsome] at hanswer
      cases hanswer
      exact ⟨_, mem_cons_of_mem _ mem_cons_self, rfl⟩
    · rcases mem_cons.mp hask with rfl | hask
      · cases hasked
      · obtain ⟨m, hm, hpid⟩ := h.sent hfin ask hask id' pid' hasked hanswer
        exact ⟨m, mem_cons_of_mem _ (.tail _ hm), hpid⟩
  complete := by
    intro hfin id' hid' hcancelled
    rcases mem_cons.mp hid' with rfl | hrest
    · exact ⟨_, mem_cons_self, rfl⟩
    · obtain ⟨ask, hask, hasked⟩ := h.complete hfin id' hrest hcancelled
      exact ⟨ask, mem_cons_of_mem _ (.tail _ hask), hasked⟩

theorem course_signalOwners {cancelled running : List String} {q : Program Unit}
    (h : Course exec rely (signalOwners cancelled running) w own q v) :
    Signalled cancelled running own (q = .ret ()) := by
  induction running generalizing w own with
  | nil =>
    obtain ⟨rfl, rfl, -⟩ := h.of_ret
    exact ⟨forall_mem_nil _, forall_mem_nil _, forall_mem_nil _,
      fun _ => forall_mem_nil _, fun _ => forall_mem_nil _⟩
  | cons id running ih =>
    unfold signalOwners at h
    by_cases hid : id ∈ cancelled
    · rw [if_pos (contains_iff_mem.mpr hid)] at h
      rcases h.of_stmt with ⟨rfl, rfl, -⟩ | ⟨u, r, _, _, -, hexec, rfl, hgo⟩
      · exact Signalled.nil fun h => by cases h
      · cases hexec
        cases hanswer : jobSessionPid u.db id with
        | none =>
          simp only [CancelStatement.answer, hanswer] at hgo
          exact (ih hgo).unanswered hid hanswer
        | some =>
          simp only [CancelStatement.answer, hanswer] at hgo
          rcases hgo.of_stmt with ⟨rfl, rfl, -⟩ | ⟨_, _, _, _, -, hexec₁, rfl, hgo₁⟩
          · exact Signalled.halted (fun h => by cases h) hid u
          · cases hexec₁
            exact (ih hgo₁).signal hid hanswer
    · have hskip : ¬ cancelled.contains id = true := fun h => hid (contains_iff_mem.mp h)
      rw [if_neg hskip] at h
      exact (ih h).skip hid

/-! ### The update -/

/-- The statement moves the rows of some ids and lists those it moved. -/
def Update (m : Moment Statement World) (ids cancelled : List String) : Prop :=
  ∃ now, m.statement = ⟨_, .inl (.cancelJobIds now ids)⟩ ∧
    m.after = { m.before with db := (m.before.db.cancelJobIds now ids).2 } ∧
    cancelled = (m.before.db.cancelJobIds now ids).1

def Cancellable (j : Job) : Prop := j.status = .pending ∨ j.status = .running

theorem Update.mem_cancelled {m : Moment Statement World} {ids cancelled : List String}
    (h : Update m ids cancelled) {id : String} {j : Job}
    (hj : m.before.db.jobs.get id = some j) : id ∈ cancelled ↔ id ∈ ids ∧ Cancellable j := by
  obtain ⟨_, -, -, rfl⟩ := h
  rw [Db.cancelJobIds, mem_cancelEach_iff hj, Bool.or_eq_true, decide_eq_true_eq,
    decide_eq_true_eq, Cancellable, or_comm]

theorem Update.cancels {m : Moment Statement World} {ids cancelled : List String}
    (h : Update m ids cancelled) {id : String} (hid : id ∈ cancelled) :
    ∃ j j', m.before.db.jobs.get id = some j ∧ m.after.db.jobs.get id = some j' ∧
      Cancellable j ∧ j'.status = .cancelled := by
  have hrow : ∃ j, m.before.db.jobs.get id = some j := by
    obtain ⟨now, -, -, rfl⟩ := h
    exact get_of_mem_cancelEach hid
  obtain ⟨j, hj⟩ := hrow
  have hcase := (h.mem_cancelled hj).mp hid
  obtain ⟨now, -, hafter, hlist⟩ := h
  rw [hlist, Db.cancelJobIds, mem_cancelEach_iff hj] at hid
  have hget := get_cancelEach (fun j => j.status = .running || j.status = .pending) now ids
    m.before.db hj
  rw [if_pos hid] at hget
  rw [hafter]
  exact ⟨j, _, hj, hget, hcase.2, rfl⟩

theorem Update.moved {m : Moment Statement World} {ids cancelled : List String}
    (h : Update m ids cancelled) {id : String} {j j' : Job}
    (hj : m.before.db.jobs.get id = some j) (hj' : m.after.db.jobs.get id = some j')
    (hne : j'.status ≠ j.status) : id ∈ ids ∧ Cancellable j := by
  obtain ⟨now, -, hafter, -⟩ := h
  rw [hafter] at hj'
  have hget := get_cancelEach (fun j => j.status = .running || j.status = .pending) now ids
    m.before.db hj
  have heq := Option.some.inj (hj'.symm.trans hget)
  split_ifs at heq with hcase
  · rw [Bool.or_eq_true, decide_eq_true_eq, decide_eq_true_eq] at hcase
    exact ⟨hcase.1, hcase.2.symm⟩
  · exact absurd (congrArg Job.status heq) hne

theorem course_cancelIds {ids : List String} {q : Program (List String)}
    (h : Course exec rely (lift Sum.inl (ClaimProtocol.cancelIds ids fun now =>
      .cancelJobIds now ids)) w own q v) :
    ((∀ m ∈ own, Reads m.statement.2) ∧ ∀ cancelled, q = .ret cancelled → cancelled = []) ∨
      ∃ pre up cancelled, own = pre ++ [up] ∧ (∀ m ∈ pre, Reads m.statement.2) ∧
        Update up ids cancelled ∧ q = .ret cancelled := by
  unfold ClaimProtocol.cancelIds at h
  by_cases hids : ids = []
  · rw [if_pos hids] at h
    obtain ⟨rfl, rfl, -⟩ := h.of_ret
    refine .inl ⟨forall_mem_nil _, ?_⟩
    intro cancelled hq
    cases hq
    rfl
  · rw [if_neg hids] at h
    rcases h.of_stmt with ⟨rfl, rfl, -⟩ | ⟨u, r, _, _, -, hexec, rfl, hgo⟩
    · exact .inl ⟨forall_mem_nil _, nofun⟩
    · cases hexec
      rcases hgo.of_stmt with ⟨rfl, rfl, -⟩ | ⟨_, _, _, _, -, hexec₁, rfl, hgo₁⟩
      · refine .inl ⟨?_, nofun⟩
        intro m hm
        rw [mem_singleton.mp hm]
        trivial
      · cases hexec₁
        obtain ⟨rfl, rfl, -⟩ := hgo₁.of_ret
        refine .inr ⟨[_], _, _, rfl, ?_, ⟨_, rfl, rfl, rfl⟩, rfl⟩
        intro m hm
        rw [mem_singleton.mp hm]
        trivial

theorem course_update {ids : List String} {f : List String → Program Outcome}
    {q : Program Outcome}
    (h : Course exec rely (lift Sum.inl (ClaimProtocol.cancelIds ids fun now =>
      .cancelJobIds now ids) >>= f) w own q v) :
    (∀ m ∈ own, Reads m.statement.2) ∨
      (∃ pre rest u, own = pre ++ rest ∧ (∀ m ∈ pre, Reads m.statement.2) ∧
        Course exec rely (f []) u rest q v) ∨
      ∃ pre up cancelled rest u, own = pre ++ up :: rest ∧ (∀ m ∈ pre, Reads m.statement.2) ∧
        Update up ids cancelled ∧ Course exec rely (f cancelled) u rest q v := by
  rcases h.of_bind with ⟨p, hp, rfl⟩ | ⟨cancelled, own₁, rest, u, hp, hf, rfl⟩
  · rcases course_cancelIds hp with ⟨hreads, -⟩ | ⟨pre, up, cancelled, rfl, hpre, hup, rfl⟩
    · exact .inl hreads
    · exact .inr (.inr ⟨pre, up, cancelled, [], v, rfl, hpre, hup, .done _ _⟩)
  · rcases course_cancelIds hp with ⟨hreads, hnil⟩ | ⟨pre, up, _, rfl, hpre, hup, heq⟩
    · rw [hnil cancelled rfl] at hf
      exact .inr (.inl ⟨own₁, rest, u, rfl, hreads, hf⟩)
    · cases heq
      refine .inr (.inr ⟨pre, up, cancelled, rest, u, ?_, hpre, hup, hf⟩)
      rw [append_assoc, singleton_append]

/-! ### The whole command -/

/-- What a command read before the update. -/
structure Led (args : CancelArgs) (env : Surroundings) (pre : List (Moment Statement World))
    (running chosen ids : List String) : Prop where
  reads : ∀ m ∈ pre, Reads m.statement.2
  listed : ∃ m ∈ pre, readsRunning m.statement.2 = true ∧ running = runningJobsDetail m.before.db
  selected : Selected args env pre chosen
  keeps : ∀ id ∈ chosen, id ∈ ids
  /-- It added jobs on the drivers of selected ones. -/
  joined : ∃ read ∈ pre, readsSubmissions read.statement.2 = true ∧
    ∀ id ∈ ids, id ∈ chosen ∨ ∃ a ∈ chosen, SameDriver read.before a id

theorem Signalled.eq_nil {running : List String} {finished : Prop}
    (h : Signalled [] running own finished) : own = [] := by
  have hnone : ∀ m ∈ own, askedJob m.statement.2 = none := by
    intro m hm
    cases hasked : askedJob m.statement.2 with
    | none => rfl
    | some id => cases h.about m hm id hasked
  refine eq_nil_iff_forall_not_mem.mpr ?_
  intro m hm
  cases hpid : signalledPid m.statement.2 with
  | some pid =>
    obtain ⟨ask, hask, id, hasked, -⟩ := h.answered m hm pid hpid
    rw [hnone ask hask] at hasked
    cases hasked
  | none => exact (h.asks m hm).signals (hnone m hm) hpid

theorem course_signals {cancelled running : List String} {f : Unit → Program Outcome}
    (hf : ∃ outcome, f () = .ret outcome) {q : Program Outcome}
    (h : Course exec rely (signalOwners cancelled running >>= f) w own q v) :
    Signalled cancelled running own (∃ outcome, q = .ret outcome) := by
  obtain ⟨outcome, hout⟩ := hf
  rcases h.of_bind with ⟨p, hp, rfl⟩ | ⟨⟨⟩, _, _, u, hp, hrest, rfl⟩
  · have hsignalled := course_signalOwners hp
    cases p with
    | ret a =>
      have hfin : ((.ret a : Program Unit) = .ret ()) = True := eq_self _
      rw [hfin] at hsignalled
      exact hsignalled.mono fun _ => trivial
    | err | stmt => exact hsignalled.mono fun h => nomatch h.choose_spec
  · rw [hout] at hrest
    obtain ⟨rfl, -, -⟩ := hrest.of_ret
    rw [append_nil]
    exact (course_signalOwners hp).mono fun _ => rfl

theorem course_cmdCancel {args : CancelArgs} {env : Surroundings} {q : Program Outcome}
    (h : Course exec rely (cmdCancel args env) w own q v) :
    (∀ m ∈ own, Reads m.statement.2) ∨ ∃ pre up asks running chosen ids cancelled,
      own = pre ++ up :: asks ∧ Led args env pre running chosen ids ∧ Update up ids cancelled ∧
        Signalled cancelled running asks (∃ outcome, q = .ret outcome) := by
  simp only [cmdCancel, CancelCommand.run, Prog.exec_bind] at h
  rcases h.of_stmt with ⟨rfl, -, -⟩ | ⟨u, r, _, _, -, hexec, rfl, hselect⟩
  · exact .inl (forall_mem_nil _)
  cases hexec
  have hfirst : Reads (β := List String) (.inr .runningJobsDetail) := trivial
  rcases hselect.of_bind with ⟨p, hp, -⟩ | ⟨chosen, own₁, _, _, hchosen, hstop, rfl⟩
  · exact .inl (forall_mem_cons.mpr ⟨hfirst, hp.uses (uses_selectJobs args env)⟩)
  have hreads₁ := hchosen.uses (uses_selectJobs args env)
  rcases hstop.of_bind with ⟨p, hp, -⟩ | ⟨ids, own₂, _, _, hids, hupdate, rfl⟩
  · exact .inl (forall_mem_cons.mpr ⟨hfirst, forall_mem_append.mpr
      ⟨hreads₁, hp.uses (uses_stopSelected chosen)⟩⟩)
  have hreads₂ := hids.uses (uses_stopSelected chosen)
  obtain ⟨hkeeps, read, hread, hview, hjoined⟩ := course_stopSelected hids
  have hbefore : ∀ own₃ : List (Moment Statement World), (∀ m ∈ own₃, Reads m.statement.2) →
      ∀ m ∈ ⟨⟨_, .inr .runningJobsDetail⟩, u, u⟩ :: (own₁ ++ (own₂ ++ own₃)),
        Reads m.statement.2 :=
    fun own₃ hreads₃ => forall_mem_cons.mpr ⟨hfirst, forall_mem_append.mpr
      ⟨hreads₁, forall_mem_append.mpr ⟨hreads₂, hreads₃⟩⟩⟩
  rcases course_update hupdate with hreads₃ | ⟨pre, rest₃, u₃, rfl, hpre, hsignal⟩ |
    ⟨pre, up, cancelled, asks, u₃, rfl, hpre, hup, hsignal⟩
  · exact .inl (hbefore _ hreads₃)
  · have hnone := (course_signals ⟨_, rfl⟩ hsignal).eq_nil
    subst hnone
    rw [append_nil]
    exact .inl (hbefore _ hpre)
  · refine .inr ⟨⟨⟨_, .inr .runningJobsDetail⟩, u, u⟩ :: (own₁ ++ (own₂ ++ pre)), up, asks,
      runningJobsDetail u.db, chosen, ids, cancelled, ?_, ?_, hup,
      course_signals ⟨_, rfl⟩ hsignal⟩
    · simp only [cons_append, append_assoc]
    · constructor
      · exact hbefore _ hpre
      · exact ⟨_, mem_cons_self, rfl, rfl⟩
      · refine (course_selectJobs hchosen).mono ?_
        exact fun m hm => mem_cons_of_mem _ (mem_append_left _ hm)
      · exact hkeeps
      · exact ⟨read, mem_cons_of_mem _ (mem_append_right _
          (mem_append_left _ hread)), hview, hjoined⟩

end OxyMake.CancelCourses
