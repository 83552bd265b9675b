import OxyMake.ObservedGrowth

/-!
# Lifecycle events of a job

The event stream tells the lifecycle of each job: it starts, an attempt ends
with the announcement of another one, or the job ends. A step narrates
what it does when, for every job, the events it emits tell what happens to the
status of the job, and the failure details grow by the jobs that fail.
-/

namespace OxyMake.LifecycleEvents

open List
open PhysicalGraph Observation SchedulingFrontier Frontier

section Marks

inductive Ending
  | completed
  | failed
  | skipped
  | cancelled
  deriving DecidableEq, Repr

/-- What one lifecycle event says about its job. -/
inductive Mark
  | started
  | retried
  | ended (ending : Ending)
  deriving DecidableEq, Repr

/-- The end that a terminal status stands for; an ignored failure is a completion. -/
def ending : JobLifecycle → Option Ending
  | .succeeded => some .completed
  | .failed _ => some .failed
  | .skipped => some .skipped
  | .cancelled => some .cancelled
  | .pending | .ready | .running => none

def endingOf (status : Option JobLifecycle) : Option Ending := status.bind ending

@[simp] theorem endingOf_none : endingOf none = none := rfl
@[simp] theorem endingOf_some (st : JobLifecycle) : endingOf (some st) = ending st := rfl

theorem endingOf_eq_none_iff (status : Option JobLifecycle) :
    endingOf status = none ↔ terminal status = false := by
  cases status with
  | none => simp
  | some st => cases st <;> simp [ending, JobLifecycle.isTerminal]

/-- A message of a failed attempt that is followed by another attempt. -/
def announcesRetry (message : String) : Bool := ", retrying)".toList.isSuffixOf message.toList

theorem announcesRetry_retrying (text : String) :
    announcesRetry (text ++ ", retrying)") = true := by
  rw [announcesRetry, isSuffixOf_iff_suffix, String.toList_append]
  exact suffix_append _ _

theorem announcesRetry_retries (text : String) :
    announcesRetry (text ++ " retries)") = false := by
  rw [announcesRetry, List.isSuffixOf, String.toList_append, reverse_append]
  rfl

theorem exitCode_last (exitCode : ℤ) :
    ∃ front d, (toString exitCode).toList = front ++ [d] ∧ d.isDigit = true := by
  have hdigits : ∀ n : ℕ, ∃ front d, Nat.toDigits 10 n = front ++ [d] ∧ d.isDigit = true := by
    intro n
    have hne : Nat.toDigits 10 n ≠ [] := Nat.toDigits_ne_nil
    refine ⟨(Nat.toDigits 10 n).dropLast, (Nat.toDigits 10 n).getLast hne,
      (dropLast_append_getLast hne).symm, ?_⟩
    exact Nat.isDigit_of_mem_toDigits (by decide) (by decide) (getLast_mem hne)
  cases exitCode with
  | ofNat n =>
    obtain ⟨front, d, hd, hdigit⟩ := hdigits n
    have hrepr : (toString (Int.ofNat n)).toList = Nat.toDigits 10 n := by
      simp [toString, Int.repr]
    exact ⟨front, d, hrepr.trans hd, hdigit⟩
  | negSucc n =>
    obtain ⟨front, d, hd, hdigit⟩ := hdigits (n + 1)
    refine ⟨'-' :: front, d, ?_, hdigit⟩
    have hrepr : (toString (Int.negSucc n)).toList = '-' :: Nat.toDigits 10 (n + 1) := by
      simp [toString, Int.repr, String.toList_append]
    rw [hrepr, hd]
    rfl

theorem announcesRetry_exitCode (exitCode : ℤ) :
    announcesRetry ("exit code " ++ toString exitCode) = false := by
  obtain ⟨_, d, hlast, hdigit⟩ := exitCode_last exitCode
  rw [Bool.eq_false_iff]
  intro hsuffix
  rw [announcesRetry, isSuffixOf_iff_suffix, String.toList_append, hlast] at hsuffix
  obtain ⟨_, hbefore⟩ := hsuffix
  have hclosing : ", retrying)".toList = ", retrying".toList ++ [')'] := rfl
  rw [hclosing, ← append_assoc, ← append_assoc] at hbefore
  obtain ⟨-, hd⟩ := append_inj' hbefore rfl
  cases hd
  cases hdigit

/-- The job and the mark of a lifecycle event. -/
def lifecycleEvent : Event → Option (JobId × Mark)
  | .jobStarted id _ _ _ => some (id, .started)
  | .jobCompleted id _ _ _ _ _ => some (id, .ended .completed)
  | .jobFailed id message _ _ =>
    some (id, if announcesRetry message then .retried else .ended .failed)
  | .jobSkipped id _ => some (id, .ended .skipped)
  | .jobCancelled id _ => some (id, .ended .cancelled)
  | .runStarted _ _ _ | .jobPlanned _ _ _ | .gateReached _ _ | .gateApproved _ _
  | .rootCauseDetected _ _ _ | .executorMessage _ _ | .runCompleted _ _ _ _ _ => none

def markOn (id : JobId) : Obs → Option Mark
  | .event event => (lifecycleEvent event).bind fun mark =>
      if mark.1 = id then some mark.2 else none
  | _ => none

/-- The lifecycle of a job as the log tells it. -/
def lifecycle (id : JobId) (log : List Obs) : List Mark := log.filterMap (markOn id)

@[simp] theorem lifecycle_nil (id : JobId) : lifecycle id [] = [] := rfl

@[simp] theorem lifecycle_append (id : JobId) (log log' : List Obs) :
    lifecycle id (log ++ log') = lifecycle id log ++ lifecycle id log' :=
  filterMap_append

@[simp] theorem lifecycle_cons (id : JobId) (o : Obs) (log : List Obs) :
    lifecycle id (o :: log) = (markOn id o).toList ++ lifecycle id log := by
  rw [lifecycle, filterMap_cons]
  cases markOn id o <;> rfl

def Open (marks : List Mark) : Prop := ∀ mark ∈ marks, ∀ e, mark ≠ .ended e

/-- A lifecycle that tells a status: it ends once, at its last event and as the
status says, or it has not ended. -/
def Told (status : Option JobLifecycle) (marks : List Mark) : Prop :=
  ∃ before, marks = before ++ (endingOf status).toList.map .ended ∧ Open before

/-- Further events of a job and what they do to its status: a finished job
stays as it is without an event, any other goes where the events tell. -/
def Moves (st : Option JobLifecycle) (marks : List Mark) (st' : Option JobLifecycle) : Prop :=
  if endingOf st = none then Told st' marks else endingOf st' = endingOf st ∧ marks = []

variable {st st' st'' : Option JobLifecycle} {marks marks' : List Mark}

theorem Told.open (h : Told st marks) (hst : endingOf st = none) : Open marks := by
  obtain ⟨_, rfl, hbefore⟩ := h
  rw [hst]
  simpa using hbefore

theorem Open.append (h : Open marks) (h' : Open marks') : Open (marks ++ marks') := by
  intro mark hmark
  cases mem_append.mp hmark with
  | inl hleft => exact h mark hleft
  | inr hright => exact h' mark hright

theorem told_nil (hst : endingOf st = none) : Told st [] := by
  refine ⟨[], ?_, by simp [Open]⟩
  rw [hst]
  rfl

theorem Told.congr (h : Told st marks) (he : endingOf st' = endingOf st) : Told st' marks := by
  rw [Told, he]
  exact h

theorem Told.moves (h : Told st marks) (h' : Moves st marks' st') : Told st' (marks ++ marks') := by
  unfold Moves at h'
  split at h'
  · next hopen =>
    obtain ⟨before, rfl, hbefore⟩ := h'
    refine ⟨marks ++ before, (append_assoc _ _ _).symm, ?_⟩
    exact (h.open hopen).append hbefore
  · obtain ⟨hsame, rfl⟩ := h'
    rw [append_nil]
    exact h.congr hsame

theorem Moves.refl (st : Option JobLifecycle) : Moves st [] st := by
  unfold Moves
  split
  · next hopen => exact told_nil hopen
  · exact ⟨rfl, rfl⟩

theorem Moves.trans (h : Moves st marks st') (h' : Moves st' marks' st'') :
    Moves st (marks ++ marks') st'' := by
  unfold Moves at h ⊢
  split
  · next hopen =>
    rw [if_pos hopen] at h
    exact h.moves h'
  · next hclosed =>
    rw [if_neg hclosed] at h
    obtain ⟨hsame, rfl⟩ := h
    rw [Moves, if_neg (by rw [hsame]; exact hclosed), hsame] at h'
    exact ⟨h'.1, h'.2⟩

theorem Moves.ended (h : Moves st marks st') {e : Ending} (he : endingOf st = some e) :
    endingOf st' = some e := by
  rw [Moves, if_neg (by rw [he]; simp)] at h
  exact h.1.trans he

end Marks

section Steps

/-- A step narrates what it does: for every job it moves the status as its
events tell, and it adds one failure detail for each job that fails. -/
def Narrates (f f' : Frontier) : Prop :=
  ∃ obs more, f'.log = f.log ++ obs ∧ f'.failedDetails = f.failedDetails ++ more ∧
    (∀ id, Moves (f.statuses id) (lifecycle id obs) (f'.statuses id)) ∧
    (more.map FailedJobDetail.jobId).Nodup ∧
    ∀ id, id ∈ more.map FailedJobDetail.jobId ↔
      endingOf (f.statuses id) ≠ some .failed ∧ endingOf (f'.statuses id) = some .failed

variable {f f' f'' : Frontier}

theorem Narrates.of_same {obs : List Obs} (hlog : f'.log = f.log ++ obs)
    (hquiet : ∀ id, lifecycle id obs = []) (hstatuses : f'.statuses = f.statuses)
    (hdetails : f'.failedDetails = f.failedDetails) : Narrates f f' := by
  refine ⟨obs, [], hlog, by rw [hdetails, append_nil], ?_, nodup_nil, ?_⟩
  · intro id
    rw [hquiet, hstatuses]
    exact .refl _
  · intro id
    rw [hstatuses]
    simp

theorem Narrates.refl (f : Frontier) : Narrates f f :=
  .of_same (append_nil _).symm (fun _ => rfl) rfl rfl

theorem Narrates.trans (h : Narrates f f') (h' : Narrates f' f'') : Narrates f f'' := by
  obtain ⟨obs, more, hlog, hdetails, hmoves, hnodup, hmore⟩ := h
  obtain ⟨obs', more', hlog', hdetails', hmoves', hnodup', hmore'⟩ := h'
  refine ⟨obs ++ obs', more ++ more', ?_, ?_, ?_, ?_, ?_⟩
  · rw [hlog', hlog, append_assoc]
  · rw [hdetails', hdetails, append_assoc]
  · intro id
    rw [lifecycle_append]
    exact (hmoves id).trans (hmoves' id)
  · rw [map_append]
    refine nodup_append'.mpr ⟨hnodup, hnodup', ?_⟩
    intro id hid hid'
    exact ((hmore' id).mp hid').1 ((hmore id).mp hid).2
  · intro id
    rw [map_append, mem_append, hmore id, hmore' id]
    have hstays := (hmoves' id).ended (e := .failed)
    have hcame : endingOf (f.statuses id) = some .failed →
        endingOf (f'.statuses id) = some .failed := (hmoves id).ended
    constructor
    · intro h
      cases h with
      | inl h => exact ⟨h.1, hstays h.2⟩
      | inr h => exact ⟨fun hf => h.1 (hcame hf), h.2⟩
    · intro h
      by_cases hmid : endingOf (f'.statuses id) = some .failed
      · exact .inl ⟨h.1, hmid⟩
      · exact .inr ⟨hmid, h.2⟩

theorem Narrates.foldl {σ ι : Type*} {v : σ → Frontier} {step : σ → ι → σ}
    (hstep : ∀ acc i, Narrates (v acc) (v (step acc i))) (is : List ι) (acc : σ) :
    Narrates (v acc) (v (is.foldl step acc)) := by
  induction is generalizing acc with
  | nil => exact .refl _
  | cons i is ih => exact (hstep acc i).trans (ih _)

theorem Narrates.writes (ids : List JobId) (st : JobLifecycle) (more : List FailedJobDetail)
    {obs : List Obs}
    (hopen : ∀ id ∈ ids, endingOf (f.statuses id) = none)
    (hlog : f'.log = f.log ++ obs)
    (hstatuses : ∀ id, f'.statuses id = if id ∈ ids then some st else f.statuses id)
    (htold : ∀ id ∈ ids, Told (some st) (lifecycle id obs))
    (hothers : ∀ id, id ∉ ids → lifecycle id obs = [])
    (hdetails : f'.failedDetails = f.failedDetails ++ more)
    (hmore : more.map FailedJobDetail.jobId = if ending st = some .failed then ids else [])
    (hnodup : ids.Nodup) : Narrates f f' := by
  refine ⟨obs, more, hlog, hdetails, ?_, ?_, ?_⟩
  · intro id
    rw [hstatuses]
    by_cases hid : id ∈ ids
    · rw [if_pos hid, Moves, if_pos (hopen id hid)]
      exact htold id hid
    · rw [if_neg hid, hothers id hid]
      exact .refl _
  · rw [hmore]
    split
    · exact hnodup
    · exact nodup_nil
  · intro id
    rw [hstatuses, hmore]
    by_cases hid : id ∈ ids
    · rw [if_pos hid, hopen id hid]
      by_cases hfailed : ending st = some .failed
      · simp [hfailed, hid]
      · simp [hfailed]
    · rw [if_neg hid]
      by_cases hfailed : ending st = some .failed
      · simp [hfailed, hid]
      · simp [hfailed]

theorem Narrates.write (id : JobId) (st : JobLifecycle) (more : List FailedJobDetail)
    {obs : List Obs} (hopen : endingOf (f.statuses id) = none) (hlog : f'.log = f.log ++ obs)
    (hstatuses : f'.statuses = Function.update f.statuses id (some st))
    (htold : Told (some st) (lifecycle id obs)) (hothers : ∀ j, j ≠ id → lifecycle j obs = [])
    (hdetails : f'.failedDetails = f.failedDetails ++ more)
    (hmore : more.map FailedJobDetail.jobId = if ending st = some .failed then [id] else []) :
    Narrates f f' := by
  refine .writes [id] st more ?_ hlog ?_ ?_ ?_ hdetails hmore (by simp)
  · intro j hj
    rw [mem_singleton.mp hj]
    exact hopen
  · intro j
    rw [hstatuses, Function.update_apply]
    simp
  · intro j hj
    rw [mem_singleton.mp hj]
    exact htold
  · intro j hj
    exact hothers j fun he => hj (mem_singleton.mpr he)

end Steps

end OxyMake.LifecycleEvents
