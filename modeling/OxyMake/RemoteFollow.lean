import Mathlib.Data.List.DropRight
import OxyMake.FinalAccounting
import OxyMake.SlurmPolling

/-!
# Following a remote run

The follow loop polls every job once a round, after a sleep. It ends when a
round finds every job in a terminal state, when enough rounds in a row met a
poll error, or at an interrupt. The counts it reports are those of the last
observation of each job.
-/

namespace OxyMake.RemoteFollow

open List
open Wildcard (Text)
open KeyedTable
open SlurmPolling (JobStatus)
open FinalAccounting (SchedulerResult)

/-! ### The loop -/

/-- What the poll of a job brings; the interrupt may come before its answer. -/
inductive Polled
  | interrupted
  | answered (status : JobStatus)
  | refused (error : Text)

structure Round where
  /-- The interrupt comes before the end of the sleep. -/
  sleepInterrupted : Bool
  poll : Text → Polled

/-- Why the loop stopped before the jobs were finished. -/
inductive FollowStop
  | interrupted
  | unreachable (endpoint lastError : Text) (rounds : ℕ)
  deriving DecidableEq

/-- What the loop is asked to follow. -/
structure FollowRequest where
  jobs : List Text
  total : ℕ
  skipped : ℕ
  endpoint : Text
  /-- Number of failed rounds in a row after which the loop gives up. -/
  failedRoundLimit : ℕ

/-- The counters of a round. -/
structure Counters where
  completed : ℕ
  failed : ℕ
  lastError : Option Text
  stillRunning : Bool

def Counters.start : Counters := ⟨0, 0, none, false⟩

def Counters.count (c : Counters) : JobStatus → Counters
  | .completed => { c with completed := c.completed + 1 }
  | .failed _ | .cancelled => { c with failed := c.failed + 1 }
  | .queued | .running => { c with stillRunning := true }

/-- Poll the jobs in order, keeping each status under its job; without counters
if the interrupt comes. -/
def pollJobs (poll : Text → Polled) :
    List Text → Counters → Table Text JobStatus → Table Text JobStatus × Option Counters
  | [], c, known => (known, some c)
  | job :: jobs, c, known =>
    match poll job with
    | .interrupted => (known, none)
    | .answered status => pollJobs poll jobs (c.count status) (known.put job status)
    | .refused error =>
      pollJobs poll jobs { c with stillRunning := true, lastError := some error } known

/-- The loop between two rounds. -/
inductive Loop
  | polling (known : Table Text JobStatus) (failedRounds : ℕ)
  | stopped (known : Table Text JobStatus) (stop : Option FollowStop)

/-- How the loop goes on after a round that polled every job. -/
def concludeRound (request : FollowRequest) (known : Table Text JobStatus) (failedRounds : ℕ)
    (c : Counters) : Loop :=
  let done := c.completed + c.failed
  match c.lastError with
  | some lastError =>
    let failedRounds := failedRounds + 1
    if failedRounds ≥ request.failedRoundLimit then
      .stopped known (some (.unreachable request.endpoint lastError failedRounds))
    else if !c.stillRunning || decide (done ≥ request.total) then .stopped known none
    else .polling known failedRounds
  | none =>
    if !c.stillRunning || decide (done ≥ request.total) then .stopped known none
    else .polling known 0

def Loop.round (request : FollowRequest) (x : Round) : Loop → Loop
  | .stopped known stop => .stopped known stop
  | .polling known failedRounds =>
    if x.sleepInterrupted then .stopped known (some .interrupted)
    else
      match pollJobs x.poll request.jobs .start known with
      | (known, none) => .stopped known (some .interrupted)
      | (known, some c) => concludeRound request known failedRounds c

def follow (request : FollowRequest) (rounds : List Round) : Loop :=
  rounds.foldl (fun loop x => loop.round request x) (.polling .empty 0)

def isFailure : JobStatus → Bool
  | .failed _ | .cancelled => true
  | .queued | .running | .completed => false

/-- The result the loop reports from the last observations. -/
def followResult (request : FollowRequest) (known : Table Text JobStatus) : SchedulerResult where
  totalJobs := request.total
  succeeded := known.count fun _ status => status = .completed
  failed := known.count fun _ status => isFailure status
  skipped := request.skipped
  cancelled := 0
  failedDetails := []
  rootCause := none

/-! ### Rounds -/

def Polled.isInterrupt : Polled → Bool
  | .interrupted => true
  | .answered _ | .refused _ => false

def Polled.isError : Polled → Bool
  | .refused _ => true
  | .interrupted | .answered _ => false

/-- The poll found the job in a terminal state. -/
def Polled.finished : Polled → Bool
  | .answered .completed => true
  | .answered status => isFailure status
  | .interrupted | .refused _ => false

def Round.interrupted (jobs : List Text) (x : Round) : Bool :=
  x.sleepInterrupted || jobs.any fun job => (x.poll job).isInterrupt

def Round.failed (jobs : List Text) (x : Round) : Bool :=
  jobs.any fun job => (x.poll job).isError

/-- Every poll of the round is answered with a terminal status. -/
def Round.finished (jobs : List Text) (x : Round) : Bool :=
  jobs.all fun job => (x.poll job).finished

/-- The polls that end before the interrupt, in order. -/
def polled (poll : Text → Polled) : List Text → List (Text × Polled)
  | [] => []
  | job :: jobs =>
    match poll job with
    | .interrupted => []
    | answer => (job, answer) :: polled poll jobs

/-- The polls of a round that end before the interrupt. -/
def Round.polls (jobs : List Text) (x : Round) : List (Text × Polled) :=
  if x.sleepInterrupted then [] else polled x.poll jobs

def Polled.status : Polled → Option JobStatus
  | .answered status => some status
  | .interrupted | .refused _ => none

/-- The status of the last answered poll of a job. -/
def lastObservation (job : Text) (polls : List (Text × Polled)) : Option JobStatus :=
  (polls.filterMap fun e => if e.1 = job then e.2.status else none).getLast?

theorem lastObservation_append (job : Text) (polls later : List (Text × Polled)) :
    lastObservation job (polls ++ later) =
      (lastObservation job later).or (lastObservation job polls) := by
  rw [lastObservation, filterMap_append, getLast?_append]
  rfl

theorem lastObservation_cons (job : Text) (e : Text × Polled) (later : List (Text × Polled)) :
    lastObservation job (e :: later) =
      (lastObservation job later).or (if e.1 = job then e.2.status else none) := by
  have happend := lastObservation_append job [e] later
  have hone : lastObservation job [e] = if e.1 = job then e.2.status else none := by
    rw [lastObservation, filterMap_cons]
    cases (if e.1 = job then e.2.status else none) with
    | none | some => rfl
  rw [singleton_append, hone] at happend
  exact happend

theorem get_pollJobs (poll : Text → Polled) (jobs : List Text) (c : Counters)
    (known : Table Text JobStatus) (job : Text) :
    (pollJobs poll jobs c known).1.get job =
      (lastObservation job (polled poll jobs)).or (known.get job) := by
  induction jobs generalizing c known with
  | nil => rfl
  | cons first jobs ih =>
    rw [pollJobs, polled]
    cases hpoll : poll first with
    | interrupted => rfl
    | answered =>
      dsimp only
      rw [ih, lastObservation_cons, Table.get_put, Option.or_assoc]
      congr 1
      by_cases hjob : job = first
      · rw [if_pos hjob, if_pos hjob.symm]
        rfl
      · rw [if_neg hjob, if_neg (Ne.symm hjob)]
        rfl
    | refused error =>
      dsimp only
      rw [ih, lastObservation_cons]
      have hnone : (if first = job then (Polled.refused error).status else none) = none := by
        split_ifs <;> rfl
      rw [hnone, Option.or_none]

theorem isNone_pollJobs (poll : Text → Polled) (jobs : List Text) (c : Counters)
    (known : Table Text JobStatus) :
    (pollJobs poll jobs c known).2.isNone = jobs.any fun job => (poll job).isInterrupt := by
  induction jobs generalizing c known with
  | nil => rfl
  | cons job jobs ih =>
    rw [pollJobs, any_cons]
    cases hpoll : poll job with
    | interrupted => rfl
    | answered | refused => exact ih _ _

theorem Counters.count_done (c : Counters) (status : JobStatus) :
    (c.count status).completed + (c.count status).failed =
      c.completed + c.failed + if (Polled.answered status).finished then 1 else 0 := by
  cases status with
  | queued | running | failed | cancelled => rfl
  | completed =>
    change c.completed + 1 + c.failed = c.completed + c.failed + 1
    omega

theorem Counters.count_stillRunning (c : Counters) (status : JobStatus) :
    (c.count status).stillRunning =
      (c.stillRunning || !(Polled.answered status).finished) := by
  cases status with
  | queued | running => exact (Bool.or_true _).symm
  | completed | failed | cancelled => exact (Bool.or_false _).symm

theorem Counters.count_lastError (c : Counters) (status : JobStatus) :
    (c.count status).lastError = c.lastError := by
  cases status <;> rfl

variable {poll : Text → Polled} {jobs : List Text} {c c' : Counters}
  {known known' : Table Text JobStatus}

theorem pollJobs_done (h : pollJobs poll jobs c known = (known', some c')) :
    c'.completed + c'.failed =
      c.completed + c.failed + jobs.countP fun job => (poll job).finished := by
  induction jobs generalizing c known with
  | nil =>
    cases h
    rfl
  | cons job jobs ih =>
    rw [pollJobs] at h
    rw [countP_cons]
    cases hpoll : poll job with
    | interrupted =>
      rw [hpoll] at h
      cases h
    | answered =>
      rw [hpoll] at h
      rw [ih h, Counters.count_done]
      omega
    | refused =>
      rw [hpoll] at h
      rw [ih h]
      rfl

theorem pollJobs_stillRunning (h : pollJobs poll jobs c known = (known', some c')) :
    c'.stillRunning = (c.stillRunning || jobs.any fun job => !(poll job).finished) := by
  induction jobs generalizing c known with
  | nil =>
    cases h
    exact (Bool.or_false _).symm
  | cons job jobs ih =>
    rw [pollJobs] at h
    rw [any_cons, ← Bool.or_assoc]
    cases hpoll : poll job with
    | interrupted =>
      rw [hpoll] at h
      cases h
    | answered =>
      rw [hpoll] at h
      rw [ih h, Counters.count_stillRunning]
    | refused =>
      rw [hpoll] at h
      rw [ih h, Bool.true_or]
      cases c.stillRunning <;> rfl

theorem pollJobs_lastError (h : pollJobs poll jobs c known = (known', some c')) :
    c'.lastError.isSome = (c.lastError.isSome || jobs.any fun job => (poll job).isError) := by
  induction jobs generalizing c known with
  | nil =>
    cases h
    exact (Bool.or_false _).symm
  | cons job jobs ih =>
    rw [pollJobs] at h
    rw [any_cons, ← Bool.or_assoc]
    cases hpoll : poll job with
    | interrupted =>
      rw [hpoll] at h
      cases h
    | answered =>
      rw [hpoll] at h
      rw [ih h, Counters.count_lastError]
      exact congrArg (· || _) (Bool.or_false _).symm
    | refused =>
      rw [hpoll] at h
      rw [ih h]
      exact congrArg (· || _) (Bool.or_true _).symm

theorem polled_eq_map (h : (jobs.any fun job => (poll job).isInterrupt) = false) :
    polled poll jobs = jobs.map fun job => (job, poll job) := by
  induction jobs with
  | nil => rfl
  | cons job jobs ih =>
    rw [any_cons, Bool.or_eq_false_iff] at h
    obtain ⟨hfirst, hrest⟩ := h
    rw [polled, map_cons]
    cases hpoll : poll job with
    | interrupted =>
      rw [hpoll] at hfirst
      cases hfirst
    | answered | refused => rw [ih hrest]

/-! ### Rounds of the loop -/

variable {request : FollowRequest}

theorem done_lt_length {x : Round} (h : x.finished jobs = false) :
    (jobs.countP fun job => (x.poll job).finished) < jobs.length := by
  refine lt_of_le_of_ne countP_le_length fun heq => ?_
  have hall : x.finished jobs = true := all_eq_true.mpr (countP_eq_length.mp heq)
  rw [h] at hall
  cases hall

theorem Round.finished_of_failed {x : Round} (h : x.failed jobs = true) :
    x.finished jobs = false := by
  obtain ⟨job, hjob, herror⟩ := any_eq_true.mp h
  refine all_eq_false.mpr ⟨job, hjob, ?_⟩
  cases hpoll : x.poll job with
  | interrupted | refused => exact nofun
  | answered =>
    rw [hpoll] at herror
    cases herror

/-- What one round makes of a loop that still polls. -/
inductive RoundOutcome (request : FollowRequest) (x : Round) (failedRounds : ℕ)
    (known : Table Text JobStatus) : Loop → Prop
  | interrupted (h : x.interrupted request.jobs = true) :
    RoundOutcome request x failedRounds known (.stopped known (some .interrupted))
  | unreachable (h : x.interrupted request.jobs = false) (hfailed : x.failed request.jobs = true)
    (hlimit : request.failedRoundLimit ≤ failedRounds + 1) (error : Text) :
    RoundOutcome request x failedRounds known
      (.stopped known (some (.unreachable request.endpoint error (failedRounds + 1))))
  | failed (h : x.interrupted request.jobs = false) (hfailed : x.failed request.jobs = true)
    (hlimit : failedRounds + 1 < request.failedRoundLimit) :
    RoundOutcome request x failedRounds known (.polling known (failedRounds + 1))
  | finished (h : x.interrupted request.jobs = false)
    (hfinished : x.finished request.jobs = true) :
    RoundOutcome request x failedRounds known (.stopped known none)
  | running (h : x.interrupted request.jobs = false) (hfailed : x.failed request.jobs = false)
    (hfinished : x.finished request.jobs = false) :
    RoundOutcome request x failedRounds known (.polling known 0)

theorem concludeRound_goes_on (htotal : request.jobs.length ≤ request.total) {x : Round}
    {c : Counters} (hdone : c.completed + c.failed =
      request.jobs.countP fun job => (x.poll job).finished)
    (hrunning : c.stillRunning = !x.finished request.jobs)
    (hfinished : x.finished request.jobs = false) :
    ¬ (!c.stillRunning || decide (c.completed + c.failed ≥ request.total)) = true := by
  have hlt := done_lt_length hfinished
  rw [hrunning, hfinished, Bool.not_false, Bool.not_true, Bool.false_or, decide_eq_true_eq, hdone]
  omega

theorem concludeRound_outcome (htotal : request.jobs.length ≤ request.total) {x : Round}
    {c : Counters} (known : Table Text JobStatus) (failedRounds : ℕ)
    (hthrough : x.interrupted request.jobs = false)
    (hdone : c.completed + c.failed = request.jobs.countP fun job => (x.poll job).finished)
    (hrunning : c.stillRunning = !x.finished request.jobs)
    (herror : c.lastError.isSome = x.failed request.jobs) :
    RoundOutcome request x failedRounds known (concludeRound request known failedRounds c) := by
  have hgo := concludeRound_goes_on htotal hdone hrunning
  dsimp only [concludeRound]
  cases hlast : c.lastError with
  | some error =>
    rw [hlast] at herror
    have hunfinished := Round.finished_of_failed herror.symm
    dsimp only
    by_cases hlimit : failedRounds + 1 ≥ request.failedRoundLimit
    · rw [if_pos hlimit]
      exact .unreachable hthrough herror.symm hlimit error
    · rw [if_neg hlimit, if_neg (hgo hunfinished)]
      exact .failed hthrough herror.symm (Nat.not_le.mp hlimit)
  | none =>
    rw [hlast] at herror
    dsimp only
    cases hfinished : x.finished request.jobs with
    | true =>
      rw [hrunning, hfinished, Bool.not_true, Bool.not_false, Bool.true_or, if_pos rfl]
      exact .finished hthrough hfinished
    | false =>
      rw [if_neg (hgo hfinished)]
      exact .running hthrough herror.symm hfinished

theorem round_outcome (htotal : request.jobs.length ≤ request.total) (x : Round)
    (known : Table Text JobStatus) (failedRounds : ℕ) :
    ∃ known', RoundOutcome request x failedRounds known'
        ((Loop.polling known failedRounds).round request x) ∧
      ∀ job, known'.get job = (lastObservation job (x.polls request.jobs)).or (known.get job) := by
  rw [Loop.round, Round.polls]
  cases hsleep : x.sleepInterrupted with
  | true =>
    refine ⟨known, .interrupted ?_, fun job => rfl⟩
    rw [Round.interrupted, hsleep, Bool.true_or]
  | false =>
    rw [if_neg Bool.false_ne_true, if_neg Bool.false_ne_true]
    have hget := get_pollJobs x.poll request.jobs .start known
    have hnone := isNone_pollJobs x.poll request.jobs .start known
    have hinterrupted : x.interrupted request.jobs =
        request.jobs.any fun job => (x.poll job).isInterrupt := by
      rw [Round.interrupted, hsleep, Bool.false_or]
    cases hpolled : pollJobs x.poll request.jobs .start known with
    | mk known' counters =>
    rw [hpolled, ← hinterrupted] at hnone
    rw [hpolled] at hget
    refine ⟨known', ?_, hget⟩
    cases counters with
    | none => exact .interrupted hnone.symm
    | some =>
      have hdone := pollJobs_done hpolled
      have hrunning := pollJobs_stillRunning hpolled
      have herror := pollJobs_lastError hpolled
      rw [Counters.start, Nat.add_zero, Nat.zero_add] at hdone
      rw [Counters.start, Bool.false_or, ← not_all_eq_any_not] at hrunning
      rw [Counters.start, Option.isSome_none, Bool.false_or] at herror
      exact concludeRound_outcome htotal known' failedRounds hnone.symm hdone hrunning herror

/-! ### Runs of the loop -/

theorem follow_concat (rounds : List Round) (x : Round) :
    follow request (rounds ++ [x]) = (follow request rounds).round request x := by
  rw [follow, foldl_append]
  rfl

theorem follow_polling (htotal : request.jobs.length ≤ request.total) {rounds : List Round}
    {known : Table Text JobStatus} {failedRounds : ℕ}
    (h : follow request rounds = .polling known failedRounds) :
    (∀ job, known.get job =
      lastObservation job (rounds.flatMap fun x => x.polls request.jobs)) ∧
    failedRounds = (rounds.rtakeWhile fun x => x.failed request.jobs).length ∧
    (0 < failedRounds → failedRounds < request.failedRoundLimit) := by
  induction rounds using List.reverseRecOn generalizing known failedRounds with
  | nil =>
    cases h
    exact ⟨fun job => rfl, rfl, fun h => absurd h (lt_irrefl 0)⟩
  | append_singleton rounds x ih =>
    rw [follow_concat] at h
    cases hbefore : follow request rounds with
    | stopped =>
      rw [hbefore] at h
      cases h
    | polling known₀ failed₀ =>
      rw [hbefore] at h
      obtain ⟨hget₀, hfailed₀, -⟩ := ih hbefore
      obtain ⟨_, houtcome, hget⟩ := round_outcome htotal x known₀ failed₀
      rw [h] at houtcome
      cases houtcome with
      | failed hthrough hfailed hlimit =>
        refine ⟨fun job => ?_, ?_, fun _ => hlimit⟩
        · rw [hget, hget₀, flatMap_append, flatMap_singleton, lastObservation_append]
        · rw [rtakeWhile_concat_pos _ _ _ hfailed, length_append, ← hfailed₀]
          rfl
      | running hthrough hfailed =>
        refine ⟨fun job => ?_, ?_, fun h => absurd h (lt_irrefl 0)⟩
        · rw [hget, hget₀, flatMap_append, flatMap_singleton, lastObservation_append]
        · rw [rtakeWhile_concat_neg _ _ _ (Bool.eq_false_iff.mp hfailed)]
          rfl

theorem le_length_rtakeWhile_iff {α : Type} (p : α → Bool) (l : List α) (k : ℕ) :
    k ≤ (l.rtakeWhile p).length ↔
      ∃ before recent, l = before ++ recent ∧ recent.length = k ∧ ∀ a ∈ recent, p a = true := by
  constructor
  · intro hk
    obtain ⟨before, hbefore⟩ := rtakeWhile_suffix p l
    refine ⟨before ++ (l.rtakeWhile p).take ((l.rtakeWhile p).length - k),
      (l.rtakeWhile p).drop ((l.rtakeWhile p).length - k), ?_, ?_, ?_⟩
    · rw [append_assoc, take_append_drop, hbefore]
    · rw [length_drop]
      omega
    · intro a ha
      exact mem_rtakeWhile_imp (mem_of_mem_drop ha)
  · rintro ⟨before, recent, rfl, rfl, hall⟩
    induction recent using List.reverseRecOn with
    | nil => exact Nat.zero_le _
    | append_singleton recent a ih =>
      have ha : p a = true := hall a (mem_append_right recent (mem_singleton_self a))
      have hrest := ih fun b hb => hall b (mem_append_left [a] hb)
      rw [← append_assoc, rtakeWhile_concat_pos _ _ _ ha, length_append,
        length_append]
      exact Nat.add_le_add_right hrest 1

theorem get_of_stopped (htotal : request.jobs.length ≤ request.total) {earlier : List Round}
    {last : Round} {known₀ known : Table Text JobStatus} {failedRounds : ℕ}
    {stop : Option FollowStop} (hrunning : follow request earlier = .polling known₀ failedRounds)
    (hstop : follow request (earlier ++ [last]) = .stopped known stop) (job : Text) :
    known.get job =
      lastObservation job ((earlier ++ [last]).flatMap fun x => x.polls request.jobs) := by
  obtain ⟨known', houtcome, hget⟩ := round_outcome htotal last known₀ failedRounds
  obtain ⟨hget₀, -, -⟩ := follow_polling htotal hrunning
  rw [follow_concat, hrunning] at hstop
  rw [hstop] at houtcome
  have hsame : known = known' := by
    cases houtcome <;> rfl
  rw [hsame, hget, hget₀, flatMap_append, flatMap_singleton, lastObservation_append]

theorem mem_jobs_of_lastObservation {rounds : List Round} {job : Text} {status : JobStatus}
    (h : lastObservation job (rounds.flatMap fun x => x.polls jobs) = some status) :
    job ∈ jobs := by
  have hpolled : ∀ (jobs : List Text) (poll : Text → Polled), ∀ e ∈ polled poll jobs,
      e.1 ∈ jobs := by
    intro jobs poll
    induction jobs with
    | nil => exact fun e he => nomatch he
    | cons first jobs ih =>
      intro e he
      rw [polled] at he
      cases hpoll : poll first with
      | interrupted =>
        rw [hpoll] at he
        cases he
      | answered | refused =>
        rw [hpoll] at he
        rcases mem_cons.mp he with rfl | he
        · exact mem_cons_self
        · exact mem_cons_of_mem first (ih e he)
  obtain ⟨e, he, hstatus⟩ := mem_filterMap.mp (mem_of_getLast? h)
  obtain ⟨x, -, hx⟩ := mem_flatMap.mp he
  have hjob : e.1 = job := by
    by_contra hne
    rw [if_neg hne] at hstatus
    cases hstatus
  rw [Round.polls] at hx
  split_ifs at hx with hsleep
  · cases hx
  · rw [← hjob]
    exact hpolled jobs x.poll e hx

theorem followResult_of_stopped (hjobs : request.jobs.Nodup)
    (htotal : request.jobs.length ≤ request.total) {earlier : List Round}
    {last : Round} {known₀ known : Table Text JobStatus} {failedRounds : ℕ}
    {stop : Option FollowStop} (hrunning : follow request earlier = .polling known₀ failedRounds)
    (hstop : follow request (earlier ++ [last]) = .stopped known stop)
    (q : JobStatus → Bool) :
    (known.count fun _ status => q status) = request.jobs.countP fun job =>
      (lastObservation job ((earlier ++ [last]).flatMap fun x => x.polls request.jobs)).any q := by
  have hget := get_of_stopped htotal hrunning hstop
  have hcovers : ∀ job status, known.get job = some status → job ∈ request.jobs := by
    intro job status hjob
    rw [hget] at hjob
    exact mem_jobs_of_lastObservation hjob
  rw [Table.count_eq_countP hjobs hcovers]
  exact countP_congr fun job _ => by rw [hget]

theorem lastObservation_of_forall {job : Text} {polls : List (Text × Polled)}
    {status : JobStatus} (hmem : (job, .answered status) ∈ polls)
    (hall : ∀ e ∈ polls, e.1 = job → e.2 = .answered status) :
    lastObservation job polls = some status := by
  have hseen : status ∈ polls.filterMap fun e => if e.1 = job then e.2.status else none :=
    mem_filterMap.mpr ⟨(job, .answered status), hmem, if_pos rfl⟩
  rw [lastObservation]
  cases hlast : (polls.filterMap fun e => if e.1 = job then e.2.status else none).getLast? with
  | none =>
    rw [getLast?_eq_none_iff.mp hlast] at hseen
    cases hseen
  | some =>
    obtain ⟨e, he, hstatus⟩ := mem_filterMap.mp (mem_of_getLast? hlast)
    by_cases hjob : e.1 = job
    · rw [if_pos hjob, hall e he hjob] at hstatus
      exact hstatus.symm
    · rw [if_neg hjob] at hstatus
      cases hstatus

theorem Polled.exists_of_finished {answer : Polled} (h : answer.finished = true) :
    ∃ status, answer = .answered status ∧ (status = .completed ∨ isFailure status = true) := by
  cases answer with
  | interrupted | refused => cases h
  | answered status =>
    refine ⟨status, rfl, ?_⟩
    cases status with
    | completed => exact .inl rfl
    | queued | running => cases h
    | failed | cancelled => exact .inr rfl

theorem lastObservation_of_finished {earlier : List Round} {last : Round}
    (hthrough : last.interrupted jobs = false) (hfinished : last.finished jobs = true)
    {job : Text} (hjob : job ∈ jobs) :
    ∃ status, (status = .completed ∨ isFailure status = true) ∧
      lastObservation job ((earlier ++ [last]).flatMap fun x => x.polls jobs) = some status := by
  obtain ⟨status, hanswer, hfinal⟩ :=
    Polled.exists_of_finished (all_eq_true.mp hfinished job hjob)
  rw [Round.interrupted, Bool.or_eq_false_iff] at hthrough
  obtain ⟨hawake, hno⟩ := hthrough
  refine ⟨status, hfinal, ?_⟩
  rw [flatMap_append, flatMap_singleton, lastObservation_append, Round.polls, hawake,
    if_neg Bool.false_ne_true, polled_eq_map hno]
  have hlast : lastObservation job (jobs.map fun job => (job, last.poll job)) = some status := by
    apply lastObservation_of_forall
    · rw [← hanswer]
      exact mem_map_of_mem hjob
    · intro e he hsame
      obtain ⟨_, -, rfl⟩ := mem_map.mp he
      dsimp only at hsame ⊢
      rw [hsame, hanswer]
  rw [hlast]
  rfl

theorem countP_terminal {observed : Text → Option JobStatus}
    (h : ∀ job ∈ jobs, ∃ status, (status = .completed ∨ isFailure status = true) ∧
      observed job = some status) :
    (jobs.countP fun job => (observed job).any fun status => status = .completed) +
      (jobs.countP fun job => (observed job).any isFailure) = jobs.length := by
  induction jobs with
  | nil => rfl
  | cons job jobs ih =>
    obtain ⟨⟨status, hfinal, hjob⟩, hrest⟩ := forall_mem_cons.mp h
    have hsum := ih hrest
    rw [countP_cons, countP_cons, length_cons, hjob, Option.any_some,
      Option.any_some]
    rcases hfinal with rfl | hfailure
    · have hno : isFailure .completed = false := rfl
      rw [hno, if_pos (decide_eq_true rfl), if_neg Bool.false_ne_true]
      omega
    · have hne : decide (status = .completed) = false := by
        refine decide_eq_false fun heq => ?_
        rw [heq] at hfailure
        cases hfailure
      rw [hne, hfailure, if_neg Bool.false_ne_true, if_pos rfl]
      omega

theorem outcome_of_polling (htotal : request.jobs.length ≤ request.total) {earlier : List Round}
    {known₀ : Table Text JobStatus} {failedRounds : ℕ}
    (hrunning : follow request earlier = .polling known₀ failedRounds) (last : Round) :
    ∃ known, RoundOutcome request last failedRounds known (follow request (earlier ++ [last])) := by
  obtain ⟨known, houtcome, -⟩ := round_outcome htotal last known₀ failedRounds
  refine ⟨known, ?_⟩
  rw [follow_concat, hrunning]
  exact houtcome

theorem unreachable_iff (htotal : request.jobs.length ≤ request.total)
    (hlimit : 1 ≤ request.failedRoundLimit) {earlier : List Round}
    {known₀ : Table Text JobStatus} {failedRounds : ℕ}
    (hrunning : follow request earlier = .polling known₀ failedRounds) {last : Round}
    (hthrough : last.interrupted request.jobs = false) :
    (∃ known endpoint error rounds, follow request (earlier ++ [last]) =
        .stopped known (some (.unreachable endpoint error rounds))) ↔
      ∃ before recent, earlier ++ [last] = before ++ recent ∧
        recent.length = request.failedRoundLimit ∧
        ∀ x ∈ recent, x.failed request.jobs = true := by
  obtain ⟨-, htail, _⟩ := follow_polling htotal hrunning
  obtain ⟨known, houtcome⟩ := outcome_of_polling htotal hrunning last
  rw [← le_length_rtakeWhile_iff]
  have hfailed : last.failed request.jobs = true →
      (List.rtakeWhile (fun x => x.failed request.jobs) (earlier ++ [last])).length =
        failedRounds + 1 := by
    intro h
    rw [rtakeWhile_concat_pos _ _ _ h, length_append, ← htail]
    rfl
  have hclean : last.failed request.jobs = false →
      (List.rtakeWhile (fun x => x.failed request.jobs) (earlier ++ [last])).length = 0 := by
    intro h
    rw [rtakeWhile_concat_neg _ _ _ (Bool.eq_false_iff.mp h)]
    rfl
  generalize follow request (earlier ++ [last]) = loop at houtcome
  cases houtcome with
  | interrupted h =>
    rw [hthrough] at h
    cases h
  | unreachable _ h hreached error =>
    rw [hfailed h]
    exact iff_of_true ⟨known, request.endpoint, error, failedRounds + 1, rfl⟩ hreached
  | failed _ h hleft =>
    rw [hfailed h]
    exact iff_of_false (fun ⟨_, _, _, _, h⟩ => nomatch h) (Nat.not_le.mpr hleft)
  | finished _ h =>
    have hno : last.failed request.jobs = false := by
      by_contra hyes
      rw [Round.finished_of_failed (Bool.eq_true_of_not_eq_false hyes)] at h
      cases h
    rw [hclean hno]
    exact iff_of_false (fun ⟨_, _, _, _, h⟩ => nomatch h) (by omega)
  | running _ h _ =>
    rw [hclean h]
    exact iff_of_false (fun ⟨_, _, _, _, h⟩ => nomatch h) (by omega)

/-- Accounting of the follow loop, at every round it reaches. It stops without a
reason only when the round found every job in a terminal state, and then
successes and failures add up to the jobs. Unless the round is interrupted, it
stops as unreachable exactly when the configured number of last rounds each met
a poll error. A round without error that goes on resets that number. On
interrupt the counts are those of the last observation of each job. -/
theorem follow_accounts (hjobs : request.jobs.Nodup)
    (htotal : request.jobs.length ≤ request.total) (hlimit : 1 ≤ request.failedRoundLimit)
    {earlier : List Round} {known₀ : Table Text JobStatus} {failedRounds : ℕ}
    (hrunning : follow request earlier = .polling known₀ failedRounds) (last : Round) :
    (∀ known, follow request (earlier ++ [last]) = .stopped known none →
      (∀ job ∈ request.jobs, ∃ status, last.poll job = .answered status ∧
        (status = .completed ∨ isFailure status = true)) ∧
      (followResult request known).succeeded + (followResult request known).failed =
        request.jobs.length) ∧
    (last.interrupted request.jobs = false →
      ((∃ known endpoint error rounds, follow request (earlier ++ [last]) =
          .stopped known (some (.unreachable endpoint error rounds))) ↔
        ∃ before recent, earlier ++ [last] = before ++ recent ∧
          recent.length = request.failedRoundLimit ∧
          ∀ x ∈ recent, x.failed request.jobs = true)) ∧
    (last.failed request.jobs = false → ∀ known n,
      follow request (earlier ++ [last]) = .polling known n → n = 0) ∧
    (∀ known, follow request (earlier ++ [last]) = .stopped known (some .interrupted) →
      (followResult request known).succeeded = (request.jobs.countP fun job =>
        (lastObservation job ((earlier ++ [last]).flatMap fun x => x.polls request.jobs)).any
          fun status => status = .completed) ∧
      (followResult request known).failed = (request.jobs.countP fun job =>
        (lastObservation job ((earlier ++ [last]).flatMap fun x => x.polls request.jobs)).any
          isFailure)) := by
  obtain ⟨_, houtcome⟩ := outcome_of_polling htotal hrunning last
  have hcounts := fun {known stop} (hstop : follow request (earlier ++ [last]) =
    .stopped known stop) => followResult_of_stopped hjobs htotal hrunning hstop
  refine ⟨fun known hstop => ?_, unreachable_iff htotal hlimit hrunning, fun hclean known n h => ?_,
    fun known hstop => ⟨hcounts hstop fun status => status = .completed, hcounts hstop isFailure⟩⟩
  · rw [hstop] at houtcome
    cases houtcome with
    | finished hthrough hfinished =>
      refine ⟨fun job hjob =>
        Polled.exists_of_finished (all_eq_true.mp hfinished job hjob), ?_⟩
      refine Eq.trans (congrArg₂ (· + ·) (hcounts hstop fun status => status = .completed)
        (hcounts hstop isFailure)) ?_
      exact countP_terminal fun job hjob => lastObservation_of_finished hthrough hfinished hjob
  · rw [h] at houtcome
    cases houtcome with
    | failed _ hfailed =>
      rw [hclean] at hfailed
      cases hfailed
    | running => rfl

/-- Two jobs to follow, with two failed rounds in a row as the limit. -/
def twoJobs : FollowRequest := ⟨[['a'], ['b']], 2, 0, ['e'], 2⟩

/-- A round in which only the first job answers. -/
def halfRound (status : JobStatus) : Round :=
  ⟨false, fun job => if job = ['a'] then .answered status else .refused ['x']⟩

/-- A second round with an error ends the loop as unreachable. -/
theorem follow_accounts_half :
    ∃ known endpoint error rounds, follow twoJobs ([halfRound .running] ++ [halfRound .completed]) =
      .stopped known (some (.unreachable endpoint error rounds)) :=
  have hrunning : follow twoJobs [halfRound .running] =
      .polling (Table.empty.put ['a'] .running) 1 := rfl
  have hfailed : ∀ x ∈ [halfRound .running, halfRound .completed],
      x.failed twoJobs.jobs = true := by
    intro x hx
    rcases mem_cons.mp hx with rfl | hx
    · rfl
    · rw [mem_singleton.mp hx]
      rfl
  ((follow_accounts (by decide) (by decide) (by decide) hrunning (halfRound .completed)).2.1
    rfl).mpr ⟨[], _, rfl, rfl, hfailed⟩

end OxyMake.RemoteFollow
