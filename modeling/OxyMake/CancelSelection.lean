import Mathlib.Logic.Relation
import OxyMake.CallCourses
import OxyMake.CancelCommand

/-!
# What the steps of `ox cancel` choose

The names select the jobs they find with all jobs downstream, and without names
the rows that one query finds under the rule and the session are selected. The
read of the remote submissions adds the jobs on the drivers of selected jobs.
After the update the command asks for the owner of each cancelled job that it
saw running and signals every process it is told.
-/

namespace OxyMake.CancelSelection

open List
open KeyedTable StateDb PhysicalGraph Flood Interleaving Watching CallCourses CancelCommand

/-! ### What a statement is -/

def Reads : {β : Type} → Statement β → Prop
  | _, .inl .unixNow => True
  | _, .inl (.cancellableJobIds ..) => True
  | _, .inr .runningJobsDetail => True
  | _, .inr .activeSessions => True
  | _, .inr .remoteJobSubmissions => True
  | _, .inr (.stopJob ..) => True
  | _, _ => False

/-- The statement asks for the owner of a job or signals a process. -/
def Asks : {β : Type} → Statement β → Prop
  | _, .inr (.jobSessionPid _) => True
  | _, .inr (.sendSigterm _) => True
  | _, _ => False

def readsRunning : {β : Type} → Statement β → Bool
  | _, .inr .runningJobsDetail => true
  | _, _ => false

def readsSubmissions : {β : Type} → Statement β → Bool
  | _, .inr .remoteJobSubmissions => true
  | _, _ => false

def selectedSession : {β : Type} → Statement β → Option String
  | _, .inl (.cancellableJobIds _ sessionId) => sessionId
  | _, _ => none

def updatedIds : {β : Type} → Statement β → Option (List String)
  | _, .inl (.cancelJobIds _ ids) => some ids
  | _, _ => none

def askedJob : {β : Type} → Statement β → Option String
  | _, .inr (.jobSessionPid jobId) => some jobId
  | _, _ => none

def signalledPid : {β : Type} → Statement β → Option ℕ
  | _, .inr (.sendSigterm pid) => some pid
  | _, _ => none

theorem Reads.exec {β : Type} {s : Statement β} (h : Reads s) {w w' : World} {r : β}
    (hexec : exec s w = some (r, w')) : w' = w := by
  cases s with
  | inl s =>
    cases s with
    | unixNow | cancellableJobIds =>
      cases hexec
      rfl
    | _ => cases h
  | inr =>
    cases hexec
    rfl

theorem Asks.exec {β : Type} {s : Statement β} (h : Asks s) {w w' : World} {r : β}
    (hexec : exec s w = some (r, w')) : w' = w := by
  cases s with
  | inl => cases h
  | inr =>
    cases hexec
    rfl

theorem Reads.views {β : Type} {s : Statement β} (h : Reads s) :
    updatedIds s = none ∧ askedJob s = none ∧ signalledPid s = none := by
  cases s with
  | inl s => cases s <;> first | exact ⟨rfl, rfl, rfl⟩ | cases h
  | inr s => cases s <;> first | exact ⟨rfl, rfl, rfl⟩ | cases h

theorem Asks.signals {β : Type} {s : Statement β} (h : Asks s) (hask : askedJob s = none) :
    signalledPid s ≠ none := by
  cases s with
  | inl => cases h
  | inr s =>
    cases s with
    | jobSessionPid => cases hask
    | sendSigterm => exact nofun
    | _ => cases h

/-! ### Selecting by name -/

/-- The job is found by one of the names, or is downstream of one that is. -/
def Named (g : JobGraph) (names : List String) (id : JobId) : Prop :=
  ∃ name ∈ names, ∃ root, findTargetJob g name = some root ∧
    Relation.ReflTransGen (fun a b => b ∈ g.downstream a) root id

theorem reflTransGen_of_bridge {g : JobGraph} {a b : JobId}
    (h : Bridge g.downstream (fun _ => true) a b) :
    Relation.ReflTransGen (fun a b => b ∈ g.downstream a) a b := by
  induction h with
  | direct hm => exact .single hm
  | through hm _ _ ih => exact .head hm ih

theorem mem_downstreamClosure {g : JobGraph} {root id : JobId} :
    id ∈ downstreamClosure g root ↔
      Relation.ReflTransGen (fun a b => b ∈ g.downstream a) root id := by
  have hdom : ∀ x, ∀ y ∈ g.downstream x, y ∈ g.jobIds := fun x y hy =>
    bridgedNeighborsIds_mem_jobIds hy
  have hflood : id ∈ downstreamClosure g root ↔
      id = root ∨ Bridge g.downstream (fun _ => true) root id :=
    mem_flood hdom (Nat.le_refl _) id
  rw [hflood]
  constructor
  · intro h
    rcases h with rfl | h
    · exact .refl
    · exact reflTransGen_of_bridge h
  · intro h
    induction h with
    | refl => exact .inl rfl
    | tail _ hstep ih =>
      rcases ih (mem_flood hdom (Nat.le_refl _) _) with rfl | hbridge
      · exact .inr (.direct hstep)
      · exact .inr (hbridge.snoc rfl hstep)

theorem mem_mapM {g : JobGraph} {names : List String} {roots : List JobId}
    (h : names.mapM (findTargetJob g) = some roots) {root : JobId} :
    root ∈ roots ↔ ∃ name ∈ names, findTargetJob g name = some root := by
  induction names generalizing roots with
  | nil =>
    cases h
    simp only [reverse_nil, not_mem_nil, false_and, exists_false]
  | cons name names ih =>
    rw [mapM_cons] at h
    cases hfirst : findTargetJob g name with
    | none =>
      rw [hfirst] at h
      cases h
    | some =>
      cases hrest : names.mapM (findTargetJob g) with
      | none =>
        rw [hfirst, hrest] at h
        cases h
      | some =>
        rw [hfirst, hrest] at h
        cases h
        simp only [mem_cons, ih hrest, exists_eq_or_imp, hfirst, Option.some.injEq]
        exact or_congr_left eq_comm

section Courses

variable {rely : World → World → Prop} {own : List (Moment Statement World)} {w v : World}
  {args : CancelArgs} {env : Surroundings}

theorem course_selectByNames {ids : List String}
    (h : Course exec rely (selectByNames args env) w own (.ret ids) v) :
    ∃ g, env.graph = some g ∧ ∀ id, id ∈ ids ↔ Named g args.names id := by
  unfold selectByNames at h
  cases hgraph : env.graph with
  | none =>
    rw [hgraph] at h
    cases h.of_err.2.1
  | some g =>
    rw [hgraph] at h
    dsimp only at h
    cases hroots : args.names.mapM (findTargetJob g) with
    | none =>
      rw [hroots] at h
      cases h.of_err.2.1
    | some =>
      rw [hroots] at h
      obtain ⟨-, heq, -⟩ := h.of_ret
      cases heq
      refine ⟨g, rfl, ?_⟩
      intro id
      rw [(env.order_perm _).mem_iff, mem_dedup, mem_flatMap]
      constructor
      · intro hid
        obtain ⟨root, hroot, hclosure⟩ := hid
        obtain ⟨name, hname, hfind⟩ := (mem_mapM hroots).mp hroot
        exact ⟨name, hname, root, hfind, mem_downstreamClosure.mp hclosure⟩
      · intro hid
        obtain ⟨name, hname, root, hfind, hpath⟩ := hid
        exact ⟨root, (mem_mapM hroots).mpr ⟨name, hname, hfind⟩, mem_downstreamClosure.mpr hpath⟩

theorem course_resolveSessionId {num : Option ℕ} {sessionId : Option String}
    (h : Course exec rely (resolveSessionId num) w own (.ret sessionId) v) :
    (num = none → sessionId = none) ∧ ∀ n ∈ num, ∃ s, sessionId = some s ∧
      ∃ m ∈ own, denotedSession (activeSessions m.before.db) n = some s := by
  cases num with
  | none =>
    obtain ⟨-, heq, -⟩ := h.of_ret
    cases heq
    exact ⟨fun _ => rfl, fun n hn => nomatch hn⟩
  | some n =>
    refine ⟨nofun, ?_⟩
    intro n' hn'
    cases hn'
    simp only [resolveSessionId, CancelCommand.run, Prog.exec_bind] at h
    rcases h.of_stmt with ⟨-, heq, -⟩ | ⟨w₁, r, _, _, -, hexec, rfl, hrest⟩
    · cases heq
    · cases hexec
      cases hdenoted : denotedSession (activeSessions w₁.db) n with
      | none =>
        simp only [CancelStatement.answer, hdenoted] at hrest
        cases hrest.of_err.2.1
      | some s =>
        simp only [CancelStatement.answer, hdenoted] at hrest
        obtain ⟨-, heq, -⟩ := hrest.of_ret
        cases heq
        exact ⟨s, rfl, _, mem_cons_self, hdenoted⟩

theorem uses_resolveSessionId (num : Option ℕ) : Uses Reads (resolveSessionId num) := by
  cases num with
  | none => trivial
  | some n =>
    refine ⟨trivial, ?_⟩
    intro sessions
    dsimp only [Prog.bind]
    cases denotedSession sessions n <;> trivial

theorem uses_selectJobs (args : CancelArgs) (env : Surroundings) :
    Uses Reads (selectJobs args env) := by
  unfold selectJobs
  split_ifs
  · unfold selectByNames
    cases env.graph with
    | none => trivial
    | some g =>
      dsimp only
      cases args.names.mapM (findTargetJob g) <;> trivial
  · exact (uses_resolveSessionId args.session).bind fun sessionId => ⟨trivial, fun _ => trivial⟩

/-- Where the selected ids come from: from the names, or from one query under the rule and
the session that the number of the session stands for. -/
def Selected (args : CancelArgs) (env : Surroundings) (own : List (Moment Statement World))
    (ids : List String) : Prop :=
  (args.names ≠ [] ∧ ∃ g, env.graph = some g ∧ ∀ id, id ∈ ids ↔ Named g args.names id) ∨
    (args.names = [] ∧ ∃ look ∈ own, ∃ sessionId, selectedSession look.statement.2 = sessionId ∧
      ids = look.before.db.cancellableJobIds args.rule sessionId ∧
      (args.session = none → sessionId = none) ∧
      ∀ n ∈ args.session, ∃ s, sessionId = some s ∧
        ∃ m ∈ own, denotedSession (activeSessions m.before.db) n = some s)

theorem Selected.mono {args : CancelArgs} {env : Surroundings}
    {own own' : List (Moment Statement World)} {ids : List String}
    (h : Selected args env own ids) (hsub : ∀ m ∈ own, m ∈ own') : Selected args env own' ids := by
  rcases h with hnames | ⟨hnames, look, hlook, sessionId, hview, hids, hnone, hsome⟩
  · exact .inl hnames
  · refine .inr ⟨hnames, look, hsub look hlook, sessionId, hview, hids, hnone, ?_⟩
    intro n hn
    obtain ⟨s, hs, m, hm, hdenoted⟩ := hsome n hn
    exact ⟨s, hs, m, hsub m hm, hdenoted⟩

theorem course_selectJobs {ids : List String}
    (h : Course exec rely (selectJobs args env) w own (.ret ids) v) :
    Selected args env own ids := by
  unfold selectJobs at h
  by_cases hnames : args.names ≠ []
  · rw [if_pos hnames] at h
    exact .inl ⟨hnames, course_selectByNames h⟩
  · rw [if_neg hnames] at h
    obtain ⟨sessionId, _, _, u, hresolve, hquery, rfl⟩ := h.of_bind_ret
    obtain ⟨hnone, hsome⟩ := course_resolveSessionId hresolve
    rcases hquery.of_stmt with ⟨-, heq, -⟩ | ⟨_, r, _, _, -, hexec, rfl, hrest⟩
    · cases heq
    · cases hexec
      obtain ⟨rfl, heq, -⟩ := hrest.of_ret
      cases heq
      refine .inr ⟨not_not.mp hnames, _, mem_append_right _ mem_cons_self, sessionId,
        rfl, rfl, hnone, ?_⟩
      intro n hn
      obtain ⟨s, hs, m, hm, hdenoted⟩ := hsome n hn
      exact ⟨s, hs, m, mem_append_left _ hm, hdenoted⟩

/-! ### Stopping remote drivers -/

/-- Executor, dashboard address and name of the driver of a job. -/
def driverOf (w : World) (id : String) : Option (String × Option String × String) :=
  (w.db.jobs.get id).bind fun j =>
    (remoteJobSubmission w id j).map fun d => (d.executor, d.address, d.submissionId)

def SameDriver (w : World) (a b : String) : Prop :=
  ∃ d, d.1 = "ray" ∧ driverOf w a = some d ∧ driverOf w b = some d

theorem jobId_of_submission {w : World} {id : String} {j : Job} {d : RemoteJobSubmission}
    (h : remoteJobSubmission w id j = some d) : d.jobId = id := by
  simp only [remoteJobSubmission, Option.bind_eq_bind, Option.bind_eq_some_iff, pure,
    Option.some.injEq] at h
  obtain ⟨-, -, -, -, -, -, rfl⟩ := h
  rfl

theorem mem_remoteJobSubmissions {w : World} {d : RemoteJobSubmission} :
    d ∈ remoteJobSubmissions w ↔
      ∃ j, w.db.jobs.get d.jobId = some j ∧ remoteJobSubmission w d.jobId j = some d := by
  unfold remoteJobSubmissions
  rw [mem_filterMap]
  constructor
  · intro h
    obtain ⟨⟨id, j⟩, hrow, hd⟩ := h
    have hid : d.jobId = id := jobId_of_submission hd
    subst hid
    exact ⟨j, (Table.mem_rows_iff _ _ _).mp hrow, hd⟩
  · intro h
    obtain ⟨j, hj, hd⟩ := h
    exact ⟨(d.jobId, j), (Table.mem_rows_iff _ _ _).mpr hj, hd⟩

theorem submission_unique {w : World} {a b : RemoteJobSubmission}
    (ha : a ∈ remoteJobSubmissions w) (hb : b ∈ remoteJobSubmissions w)
    (heq : a.jobId = b.jobId) : a = b := by
  obtain ⟨j, hj, hda⟩ := mem_remoteJobSubmissions.mp ha
  obtain ⟨_, hj', hdb⟩ := mem_remoteJobSubmissions.mp hb
  rw [heq, hj'] at hj
  cases hj
  rw [heq, hdb] at hda
  exact (Option.some.inj hda).symm

theorem sameDriver_of_submissions {w : World} {a b : RemoteJobSubmission}
    (ha : a ∈ remoteJobSubmissions w) (hb : b ∈ remoteJobSubmissions w)
    (hray : a.executor = "ray") (hsame : sameDriver a b = true) :
    SameDriver w a.jobId b.jobId := by
  obtain ⟨j, hj, hda⟩ := mem_remoteJobSubmissions.mp ha
  obtain ⟨_, hj', hdb⟩ := mem_remoteJobSubmissions.mp hb
  simp only [sameDriver, Bool.and_eq_true, decide_eq_true_eq] at hsame
  refine ⟨(a.executor, a.address, a.submissionId), hray, ?_, ?_⟩
  · rw [driverOf, hj, Option.bind_some, hda, Option.map_some]
  · rw [driverOf, hj', Option.bind_some, hdb, Option.map_some, hsame.1.1, hsame.1.2, hsame.2]

theorem sameDriver_trans {a b c : RemoteJobSubmission} (h₁ : sameDriver a b = true)
    (h₂ : sameDriver b c = true) : sameDriver a c = true := by
  simp only [sameDriver, Bool.and_eq_true, decide_eq_true_eq] at h₁ h₂ ⊢
  exact ⟨⟨h₁.1.1.trans h₂.1.1, h₁.1.2.trans h₂.1.2⟩, h₁.2.trans h₂.2⟩

theorem mem_addSiblings {job : RemoteJobSubmission} {others : List RemoteJobSubmission}
    {selected : List String} {id : String} :
    id ∈ addSiblings job others selected ↔
      id ∈ selected ∨ ∃ other ∈ others, sameDriver job other = true ∧ other.jobId = id := by
  induction others generalizing selected with
  | nil => simp only [addSiblings, not_mem_nil, false_and, exists_false, or_false]
  | cons other rest ih =>
    rw [addSiblings, ih]
    simp only [mem_cons, exists_eq_or_imp]
    by_cases hsame : sameDriver job other = true
    · by_cases hmem : other.jobId ∈ selected
      · have hkeep : (sameDriver job other && !selected.contains other.jobId) = false := by
          rw [contains_iff_mem.mpr hmem, Bool.not_true, Bool.and_false]
        rw [hkeep, if_neg Bool.false_ne_true]
        constructor
        · intro h
          exact h.imp_right .inr
        · intro h
          rcases h with h | ⟨-, rfl⟩ | h
          · exact .inl h
          · exact .inl hmem
          · exact .inr h
      · have hadd : (sameDriver job other && !selected.contains other.jobId) = true := by
          rw [Bool.and_eq_true, Bool.not_eq_true']
          exact ⟨hsame, eq_false_of_ne_true fun h => hmem (contains_iff_mem.mp h)⟩
        rw [hadd, if_pos rfl, mem_append, mem_singleton, or_assoc]
        simp only [hsame, true_and, eq_comm]
    · have hkeep : (sameDriver job other && !selected.contains other.jobId) = false := by
        rw [eq_false_of_ne_true hsame, Bool.false_and]
      rw [hkeep, if_neg Bool.false_ne_true]
      simp only [hsame, false_and, false_or, Bool.false_eq_true]

/-- The ids were selected first, or are on a Ray driver of one that was. -/
def Joined (jobs : List RemoteJobSubmission) (chosen ids : List String) : Prop :=
  ∀ id ∈ ids, id ∈ chosen ∨ ∃ a ∈ jobs, a.jobId ∈ chosen ∧ a.executor = "ray" ∧
    ∃ b ∈ jobs, b.jobId = id ∧ sameDriver a b = true

theorem Joined.addSiblings {jobs : List RemoteJobSubmission} {chosen selected : List String}
    (hunique : ∀ a ∈ jobs, ∀ b ∈ jobs, a.jobId = b.jobId → a = b)
    (h : Joined jobs chosen selected) {job : RemoteJobSubmission} (hjob : job ∈ jobs)
    (hray : job.executor = "ray") (hsel : job.jobId ∈ selected) :
    Joined jobs chosen (CancelCommand.addSiblings job jobs selected) := by
  intro id hid
  rcases mem_addSiblings.mp hid with hold | ⟨other, hother, hsame, rfl⟩
  · exact h id hold
  · rcases h _ hsel with hchosen | ⟨a, ha, hachosen, haray, b, hb, hbid, hab⟩
    · exact .inr ⟨job, hjob, hchosen, hray, other, hother, rfl, hsame⟩
    · have heq : b = job := hunique b hb job hjob hbid
      subst heq
      exact .inr ⟨a, ha, hachosen, haray, other, hother, rfl, sameDriver_trans hab hsame⟩

theorem course_stopEach {jobs : List RemoteJobSubmission} {chosen : List String}
    (hunique : ∀ a ∈ jobs, ∀ b ∈ jobs, a.jobId = b.jobId → a = b)
    {rest : List RemoteJobSubmission} (hrest : ∀ a ∈ rest, a ∈ jobs)
    {stopped : List (Option String × String)} {selected ids : List String}
    (hsel : Joined jobs chosen selected)
    (h : Course exec rely (stopEach jobs rest stopped selected) w own (.ret ids) v) :
    (∀ id ∈ selected, id ∈ ids) ∧ Joined jobs chosen ids := by
  induction rest generalizing stopped selected w own with
  | nil =>
    obtain ⟨-, heq, -⟩ := h.of_ret
    cases heq
    exact ⟨fun id hid => hid, hsel⟩
  | cons job rest ih =>
    have htail : ∀ a ∈ rest, a ∈ jobs := fun a ha => hrest a (.tail _ ha)
    unfold stopEach at h
    split_ifs at h with hskip hstopped
    · exact ih htail hsel h
    · exact ih htail hsel h
    · rcases h.of_stmt with ⟨-, heq, -⟩ | ⟨_, r, _, _, -, _, rfl, hgo⟩
      · cases heq
      · simp only [Bool.or_eq_true, decide_eq_true_eq, Bool.not_eq_true', not_or,
          not_not, Bool.not_eq_false, contains_iff_mem] at hskip
        have hjoined := hsel.addSiblings hunique (hrest job mem_cons_self) hskip.1.1
          hskip.1.2
        obtain ⟨hkeep, hids⟩ := ih htail hjoined hgo
        refine ⟨?_, hids⟩
        intro id hid
        exact hkeep id (mem_addSiblings.mpr (.inl hid))

theorem course_stopSelected {chosen ids : List String}
    (h : Course exec rely (stopSelected chosen) w own (.ret ids) v) :
    (∀ id ∈ chosen, id ∈ ids) ∧ ∃ read ∈ own, readsSubmissions read.statement.2 = true ∧
      ∀ id ∈ ids, id ∈ chosen ∨ ∃ a ∈ chosen, SameDriver read.before a id := by
  rcases h.of_stmt with ⟨-, heq, -⟩ | ⟨w₁, r, _, _, -, hexec, rfl, hgo⟩
  · cases heq
  · cases hexec
    have hunique : ∀ a ∈ remoteJobSubmissions w₁, ∀ b ∈ remoteJobSubmissions w₁,
        a.jobId = b.jobId → a = b := fun a ha b hb => submission_unique ha hb
    have hstart : Joined (remoteJobSubmissions w₁) chosen chosen := fun id hid => .inl hid
    obtain ⟨hkeep, hjoined⟩ := course_stopEach hunique (fun a ha => ha) hstart hgo
    refine ⟨hkeep, _, mem_cons_self, rfl, ?_⟩
    intro id hid
    rcases hjoined id hid with hchosen | ⟨a, ha, hachosen, haray, b, hb, rfl, hab⟩
    · exact .inl hchosen
    · exact .inr ⟨a.jobId, hachosen, sameDriver_of_submissions ha hb haray hab⟩

theorem uses_stopSelected (selected : List String) : Uses Reads (stopSelected selected) := by
  refine ⟨trivial, ?_⟩
  intro jobs
  change Uses Reads (stopEach jobs jobs [] selected)
  suffices hall : ∀ rest stopped selected, Uses Reads (stopEach jobs rest stopped selected) from
    hall jobs [] selected
  intro rest
  induction rest with
  | nil => exact fun _ _ => trivial
  | cons job rest ih =>
    intro stopped selected
    unfold stopEach
    split_ifs
    · exact ih _ _
    · exact ih _ _
    · exact ⟨trivial, fun _ => ih _ _⟩

end Courses

end OxyMake.CancelSelection
