import Mathlib.Data.List.Basic
import Mathlib.Data.List.TakeDrop

/-!
# Requests to a warm worker and its answers

Dispatches on one environment key take turns on one worker: a request line is
written to its standard input and one line is read from its standard output. The
pipes outlive a dispatch. Every written character carries the number of its
dispatch, so that an answer shows which request it belongs to. While no request
is cut short and no line precedes a status line, an accepted line answers the
request of the dispatch that accepts it.
-/

namespace OxyMake.WarmDispatch

open List

/-- Resource usage that an answer reports. -/
structure DispatchUsage where
  peakMemoryBytes : Option ℕ
  cpuTime : Option ℕ
  deriving DecidableEq, Repr

/-- Failures of input and output. -/
inductive IoError
  | unexpectedEof
  | invalidData
  | brokenPipe
  deriving DecidableEq, Repr

inductive WorkerError
  | dispatchTimeout
  | pythonError (message : String)
  | io (error : IoError)
  | invalidResponse (status : Option String)
  deriving DecidableEq, Repr

/-- What is read of a line that is JSON. -/
structure Response where
  status : Option String
  msg : Option String
  usage : DispatchUsage
  deriving DecidableEq, Repr

/-- Characters in a pipe, each with the number of the dispatch that wrote it. -/
abbrev Written := List (Char × ℕ)

/-- A line that the worker has written. -/
structure Output where
  value : Option Response
  /-- For a status line, the request line that it answers. -/
  answers : Option Written
  deriving DecidableEq, Repr

/-- A warm worker with its pipes. -/
structure Worker where
  alive : Bool
  stdin : Written
  busy : Option Written
  stdout : List Output
  deriving DecidableEq, Repr

/-- A payload in compact JSON. -/
structure Payload where
  text : List Char
  single : '\n' ∉ text

/-- The request line of a dispatch, as the worker reads it. -/
def Payload.request (payload : Payload) (number : ℕ) : Written :=
  payload.text.map fun c => (c, number)

def Payload.line (payload : Payload) (number : ℕ) : Written :=
  payload.request number ++ [('\n', number)]

/-- A dispatch that has returned. -/
structure Returned where
  number : ℕ
  payload : Payload
  result : Except WorkerError DispatchUsage
  consumed : Option Output

/-- The pool's entry for one environment key. -/
structure State where
  worker : Option Worker
  /-- The dispatch that waits for its answer; it holds the lock of the pool. -/
  current : Option Payload
  count : ℕ
  returned : List Returned

/-- Everything that can happen on the key. -/
inductive Action
  /-- A worker is started where there is none. -/
  | ensureWarm
  | noWorker (payload : Payload)
  | request (payload : Payload)
  /-- A dispatch times out having written a part of its request. -/
  | writeTimeout (payload : Payload) (written : ℕ)
  /-- A dispatch fails to write to a worker that has gone. -/
  | writeError (payload : Payload) (written : ℕ)
  /-- The waiting dispatch reads a line. -/
  | receive
  /-- The waiting dispatch reads the end of the output. -/
  | eof
  /-- The waiting dispatch times out; the worker is killed and evicted. -/
  | responseTimeout
  /-- The worker is killed and evicted between dispatches. -/
  | killEnv
  /-- The worker reads a request line. -/
  | take
  /-- The worker prints a line that is no status line. -/
  | print (value : Option Response)
  /-- The worker answers the request it is working on. -/
  | answer (response : Response)
  | die

def interpret (output : Output) : Except WorkerError DispatchUsage :=
  match output.value with
  | none => .error (.io .invalidData)
  | some response =>
    if response.status = some "ok" then .ok response.usage
    else if response.status = some "error" then
      .error (.pythonError (response.msg.getD "unknown error"))
    else .error (.invalidResponse response.status)

/-- A dispatch begins and returns without having consumed a line. -/
def State.fail (s : State) (payload : Payload) (error : WorkerError) (worker : Option Worker) :
    State where
  worker := worker
  current := none
  count := s.count + 1
  returned := ⟨s.count + 1, payload, .error error, none⟩ :: s.returned

def State.finish (s : State) (payload : Payload) (result : Except WorkerError DispatchUsage)
    (consumed : Option Output) (worker : Option Worker) : State where
  worker := worker
  current := none
  count := s.count
  returned := ⟨s.count, payload, result, consumed⟩ :: s.returned

def Worker.write (w : Worker) (text : Written) : Worker := { w with stdin := w.stdin ++ text }

/-- The worker reads a line, if there is one. -/
def Worker.take (w : Worker) : Option Worker :=
  match w.stdin.span fun c => c.1 ≠ '\n' with
  | (_, []) => none
  | (line, _ :: rest) => some { w with stdin := rest, busy := some line }

def Worker.emit (w : Worker) (output : Output) : Worker := { w with stdout := w.stdout ++ [output] }

/-- The state after an action, where the action is possible. -/
def step (s : State) : Action → Option State
  | .ensureWarm =>
    match s.worker, s.current with
    | none, none => some { s with worker := some ⟨true, [], none, []⟩ }
    | _, _ => none
  | .noWorker payload =>
    match s.worker, s.current with
    | none, none => some (s.fail payload (.pythonError "no warm worker for env") none)
    | _, _ => none
  | .request payload =>
    match s.worker, s.current with
    | some w, none =>
      if w.alive then
        some { s with worker := some (w.write (payload.line (s.count + 1))),
                      current := some payload, count := s.count + 1 }
      else none
    | _, _ => none
  | .writeTimeout payload written =>
    match s.worker, s.current with
    | some w, none =>
      if written ≤ payload.text.length then
        some (s.fail payload .dispatchTimeout
          (some (w.write ((payload.line (s.count + 1)).take written))))
      else none
    | _, _ => none
  | .writeError payload written =>
    match s.worker, s.current with
    | some w, none =>
      if w.alive then none
      else some (s.fail payload (.io .brokenPipe)
        (some (w.write ((payload.line (s.count + 1)).take written))))
    | _, _ => none
  | .receive =>
    match s.worker, s.current with
    | some w, some payload =>
      match w.stdout with
      | output :: rest =>
        some (s.finish payload (interpret output) (some output) (some { w with stdout := rest }))
      | [] => none
    | _, _ => none
  | .eof =>
    match s.worker, s.current with
    | some w, some payload =>
      if w.alive = false ∧ w.stdout = [] then
        some (s.finish payload (.error (.io .unexpectedEof)) none (some w))
      else none
    | _, _ => none
  | .responseTimeout =>
    match s.current with
    | some payload => some (s.finish payload (.error .dispatchTimeout) none none)
    | none => none
  | .killEnv =>
    match s.current with
    | none => some { s with worker := none }
    | some _ => none
  | .take =>
    match s.worker with
    | some w =>
      if w.alive = true ∧ w.busy = none then w.take.map fun w => { s with worker := some w }
      else none
    | none => none
  | .print value =>
    match s.worker with
    | some w =>
      if w.alive = true ∧ w.busy.isSome = true ∧ (value.bind Response.status) = none then
        some { s with worker := some (w.emit ⟨value, none⟩) }
      else none
    | none => none
  | .answer response =>
    match s.worker with
    | some w =>
      match w.busy with
      | some line =>
        if w.alive then
          some { s with worker := some { w.emit ⟨some response, some line⟩ with busy := none } }
        else none
      | none => none
    | none => none
  | .die => some { s with worker := s.worker.map fun w => { w with alive := false } }

def start : State := ⟨none, none, 0, []⟩

/-- States of runs whose actions all meet a condition. -/
inductive Reachable (Cond : Action → Prop) : State → Prop
  | init : Reachable Cond start
  | step {s t : State} (action : Action) (h : Reachable Cond s) (hcond : Cond action)
      (hstep : WarmDispatch.step s action = some t) : Reachable Cond t

/-- A dispatch that returned Ok consumed the answer to its own request. -/
def Paired (r : Returned) : Prop :=
  ∀ usage, r.result = .ok usage →
    ∃ output, r.consumed = some output ∧ output.answers = some (r.payload.request r.number)

/-- No request is cut short, and nothing is printed before a status line. -/
def Orderly : Action → Prop
  | .writeTimeout _ written => written = 0
  | .print _ => False
  | _ => True

/-- Nothing of an earlier dispatch is left. -/
structure Settled (w : Worker) : Prop where
  /-- No line waits to be read. -/
  read : w.stdout = []
  /-- A living worker has nothing to do. -/
  idle : w.alive = true → w.stdin = [] ∧ w.busy = none

/-- The request of the waiting dispatch, or its answer, is all that is on its way. -/
inductive Awaiting (request : Written) (line : Written) : Worker → Prop
  | sent (alive : Bool) : Awaiting request line ⟨alive, line, none, []⟩
  | busy (alive : Bool) : Awaiting request line ⟨alive, [], some request, []⟩
  | answered (alive : Bool) (response : Response) :
    Awaiting request line ⟨alive, [], none, [⟨some response, some request⟩]⟩

/-- What holds in runs that are orderly. -/
structure Invariant (s : State) : Prop where
  settled : ∀ w, s.worker = some w → s.current = none → Settled w
  /-- During a dispatch only its own request or answer is on its way. -/
  awaiting : ∀ w payload, s.worker = some w → s.current = some payload →
    Awaiting (payload.request s.count) (payload.line s.count) w
  /-- Every dispatch so far was paired. -/
  paired : ∀ r ∈ s.returned, Paired r

theorem request_inside (payload : Payload) (number : ℕ) :
    ∀ c ∈ payload.request number, decide (c.1 ≠ '\n') = true := by
  intro c hc
  obtain ⟨letter, hletter, rfl⟩ := mem_map.mp hc
  have hne : letter ≠ '\n' := by
    intro heq
    exact payload.single (heq ▸ hletter)
  simpa using hne

theorem take_line (payload : Payload) (number : ℕ) (alive : Bool) :
    (⟨alive, payload.line number, none, []⟩ : Worker).take =
      some ⟨alive, [], some (payload.request number), []⟩ := by
  have hinside := request_inside payload number
  have htake : (payload.line number).takeWhile (fun c => c.1 ≠ '\n') =
      payload.request number := by
    rw [Payload.line, takeWhile_append_of_pos hinside]
    simp
  have hdrop : (payload.line number).dropWhile (fun c => c.1 ≠ '\n') = [('\n', number)] := by
    rw [Payload.line, dropWhile_append_of_pos hinside]
    simp
  have hspan : (payload.line number).span (fun c => c.1 ≠ '\n') =
      (payload.request number, [('\n', number)]) := by
    rw [span_eq_takeWhile_dropWhile, htake, hdrop]
  dsimp only [Worker.take]
  rw [hspan]

theorem Invariant.of_absent {s : State} (hworker : s.worker = none)
    (hpaired : ∀ r ∈ s.returned, Paired r) : Invariant s where
  settled w hw := by
    rw [hworker] at hw
    cases hw
  awaiting w payload hw := by
    rw [hworker] at hw
    cases hw
  paired := hpaired

theorem paired_error (number : ℕ) (payload : Payload) (error : WorkerError)
    (consumed : Option Output) : Paired ⟨number, payload, .error error, consumed⟩ := by
  intro usage hresult
  cases hresult

theorem paired_cons_error {s : State} (hs : ∀ r ∈ s.returned, Paired r) (number : ℕ)
    (payload : Payload) (error : WorkerError) (consumed : Option Output) :
    ∀ r ∈ ⟨number, payload, .error error, consumed⟩ :: s.returned, Paired r := by
  intro r hr
  cases mem_cons.mp hr with
  | inl h => exact h ▸ paired_error number payload error consumed
  | inr h => exact hs r h

theorem Invariant.fail {s : State} (hs : ∀ r ∈ s.returned, Paired r) (payload : Payload)
    (error : WorkerError) {w : Worker} (hw : Settled w) :
    Invariant (s.fail payload error (some w)) where
  settled u hu _ := by
    have heq : w = u := Option.some.inj hu
    exact heq ▸ hw
  awaiting u other _ hcurrent := by cases hcurrent
  paired := paired_cons_error hs _ payload error none

theorem Settled.write {w : Worker} (h : Settled w) (halive : w.alive = true)
    (payload : Payload) (number : ℕ) :
    Awaiting (payload.request number) (payload.line number) (w.write (payload.line number)) := by
  obtain ⟨alive, _, _, stdout⟩ := w
  have hstdout : stdout = [] := h.read
  obtain ⟨hstdin, hbusy⟩ := h.idle halive
  dsimp only at hstdin hbusy
  subst hstdout hstdin hbusy
  exact Awaiting.sent alive

theorem Settled.take {w : Worker} (h : Settled w) (halive : w.alive = true) : w.take = none := by
  have hstdin := (h.idle halive).1
  dsimp only [Worker.take]
  rw [hstdin]
  rfl

theorem Awaiting.receive {request line : Written} {w : Worker} (h : Awaiting request line w)
    {output : Output} {rest : List Output} (hstdout : w.stdout = output :: rest) :
    output.answers = some request ∧ Settled { w with stdout := rest } := by
  cases h with
  | sent | busy => cases hstdout
  | answered =>
    obtain ⟨rfl, rfl⟩ := List.cons.inj hstdout
    exact ⟨rfl, rfl, fun _ => ⟨rfl, rfl⟩⟩

theorem Awaiting.take {payload : Payload} {number : ℕ} {w u : Worker}
    (h : Awaiting (payload.request number) (payload.line number) w) (hbusy : w.busy = none)
    (htake : w.take = some u) :
    Awaiting (payload.request number) (payload.line number) u := by
  cases h with
  | sent alive =>
    rw [take_line] at htake
    cases htake
    exact Awaiting.busy alive
  | busy => cases hbusy
  | answered alive response =>
    have hnone : (⟨alive, [], none, [⟨some response, some (payload.request number)⟩]⟩ :
        Worker).take = none := rfl
    rw [hnone] at htake
    cases htake

theorem Awaiting.answer {request line answered : Written} {w : Worker}
    (h : Awaiting request line w) (hbusy : w.busy = some answered) (response : Response) :
    Awaiting request line { w.emit ⟨some response, some answered⟩ with busy := none } := by
  cases h with
  | sent | answered => cases hbusy
  | busy alive =>
    cases hbusy
    exact Awaiting.answered alive response

theorem Awaiting.die {request line : Written} {w : Worker} (h : Awaiting request line w) :
    Awaiting request line { w with alive := false } := by
  cases h with
  | sent => exact Awaiting.sent false
  | busy => exact Awaiting.busy false
  | answered alive response => exact Awaiting.answered false response

theorem Invariant.begin {s : State} (hs : Invariant s) {w : Worker} (hw : s.worker = some w)
    (hcurrent : s.current = none) (halive : w.alive = true) (payload : Payload) :
    Invariant { s with worker := some (w.write (payload.line (s.count + 1))),
                       current := some payload, count := s.count + 1 } where
  settled _ _ hnone := by cases hnone
  awaiting u other hu hother := by
    cases hu
    cases hother
    exact (hs.settled w hw hcurrent).write halive payload (s.count + 1)
  paired := hs.paired

theorem Invariant.receive {s : State} (hs : Invariant s) {w : Worker} {payload : Payload}
    (hw : s.worker = some w) (hcurrent : s.current = some payload) {output : Output}
    {rest : List Output} (hstdout : w.stdout = output :: rest) :
    Invariant (s.finish payload (interpret output) (some output)
      (some { w with stdout := rest })) := by
  obtain ⟨hanswers, hsettled⟩ := (hs.awaiting w payload hw hcurrent).receive hstdout
  refine ⟨fun u hu _ => ?_, fun _ _ _ hnone => (by cases hnone), fun r hr => ?_⟩
  · cases hu
    exact hsettled
  · cases mem_cons.mp hr with
    | inl h =>
      subst h
      intro usage _
      exact ⟨output, rfl, hanswers⟩
    | inr h => exact hs.paired r h

theorem Invariant.eof {s : State} (hs : Invariant s) {w : Worker} (payload : Payload)
    (halive : w.alive = false) (hstdout : w.stdout = []) :
    Invariant (s.finish payload (.error (.io .unexpectedEof)) none (some w)) where
  settled u hu _ := by
    cases hu
    refine ⟨hstdout, fun htrue => ?_⟩
    rw [halive] at htrue
    cases htrue
  awaiting _ _ _ hnone := by cases hnone
  paired := paired_cons_error hs.paired _ payload _ none

theorem Invariant.of_worker {s : State} (hs : Invariant s) {w u : Worker}
    (hw : s.worker = some w)
    (hsettled : s.current = none → Settled w → Settled u)
    (hawaiting : ∀ payload, s.current = some payload →
      Awaiting (payload.request s.count) (payload.line s.count) w →
      Awaiting (payload.request s.count) (payload.line s.count) u) :
    Invariant { s with worker := some u } where
  settled v hv hcurrent := by
    cases hv
    exact hsettled hcurrent (hs.settled w hw hcurrent)
  awaiting v payload hv hcurrent := by
    cases hv
    exact hawaiting payload hcurrent (hs.awaiting w payload hw hcurrent)
  paired := hs.paired

theorem Invariant.take {s : State} (hs : Invariant s) {w u : Worker} (hw : s.worker = some w)
    (halive : w.alive = true) (hbusy : w.busy = none) (htake : w.take = some u) :
    Invariant { s with worker := some u } := by
  refine hs.of_worker hw (fun _ hsettled => ?_) fun payload _ hawaiting => ?_
  · rw [hsettled.take halive] at htake
    cases htake
  · exact hawaiting.take hbusy htake

theorem Invariant.answer {s : State} (hs : Invariant s) {w : Worker} (hw : s.worker = some w)
    {line : Written} (halive : w.alive = true) (hbusy : w.busy = some line)
    (response : Response) :
    Invariant { s with
      worker := some { w.emit ⟨some response, some line⟩ with busy := none } } := by
  refine hs.of_worker hw (fun _ hsettled => ?_) fun payload _ hawaiting => ?_
  · have hidle := (hsettled.idle halive).2
    rw [hbusy] at hidle
    cases hidle
  · exact hawaiting.answer hbusy response

theorem Invariant.die {s : State} (hs : Invariant s) :
    Invariant { s with worker := s.worker.map fun w => { w with alive := false } } := by
  cases hw : s.worker with
  | none => exact Invariant.of_absent rfl hs.paired
  | some =>
    refine hs.of_worker hw (fun _ hsettled => ?_) fun payload _ hawaiting => hawaiting.die
    exact ⟨hsettled.read, fun hfalse => (by cases hfalse)⟩

theorem Invariant.step {s t : State} (hs : Invariant s) {action : Action}
    (horderly : Orderly action) (hstep : WarmDispatch.step s action = some t) : Invariant t := by
  cases action with
  | ensureWarm =>
    dsimp only [WarmDispatch.step] at hstep
    split at hstep
    · rename_i hworker hcurrent
      cases hstep
      refine ⟨fun w hw _ => ?_, fun w payload _ hpayload => ?_, hs.paired⟩
      · cases hw
        exact ⟨rfl, fun _ => ⟨rfl, rfl⟩⟩
      · rw [hcurrent] at hpayload
        cases hpayload
    · cases hstep
  | noWorker payload =>
    dsimp only [WarmDispatch.step] at hstep
    split at hstep
    · cases hstep
      exact Invariant.of_absent rfl (paired_cons_error hs.paired _ payload _ none)
    · cases hstep
  | request payload =>
    dsimp only [WarmDispatch.step] at hstep
    split at hstep
    · rename_i w hworker hcurrent
      split at hstep
      · rename_i halive
        cases hstep
        exact hs.begin hworker hcurrent halive payload
      · cases hstep
    · cases hstep
  | writeTimeout payload written =>
    have hzero : written = 0 := horderly
    subst hzero
    dsimp only [WarmDispatch.step] at hstep
    split at hstep
    · rename_i w hworker hcurrent
      split at hstep
      · cases hstep
        refine Invariant.fail hs.paired payload _ ?_
        have hsettled := hs.settled w hworker hcurrent
        dsimp only [Worker.write]
        rw [take_zero, append_nil]
        exact hsettled
      · cases hstep
    · cases hstep
  | writeError payload written =>
    dsimp only [WarmDispatch.step] at hstep
    split at hstep
    · rename_i w hworker hcurrent
      split at hstep
      · cases hstep
      · rename_i halive
        cases hstep
        refine Invariant.fail hs.paired payload _ ?_
        have hsettled := hs.settled w hworker hcurrent
        exact ⟨hsettled.read, fun htrue => absurd htrue halive⟩
    · cases hstep
  | receive =>
    dsimp only [WarmDispatch.step] at hstep
    split at hstep
    · rename_i w payload hworker hcurrent
      split at hstep
      · rename_i output rest hstdout
        cases hstep
        exact hs.receive hworker hcurrent hstdout
      · cases hstep
    · cases hstep
  | eof =>
    dsimp only [WarmDispatch.step] at hstep
    split at hstep
    · rename_i w payload hworker hcurrent
      split at hstep
      · rename_i hend
        cases hstep
        exact hs.eof payload hend.1 hend.2
      · cases hstep
    · cases hstep
  | responseTimeout =>
    dsimp only [WarmDispatch.step] at hstep
    split at hstep
    · rename_i payload hcurrent
      cases hstep
      exact Invariant.of_absent rfl (paired_cons_error hs.paired _ payload _ none)
    · cases hstep
  | killEnv =>
    dsimp only [WarmDispatch.step] at hstep
    split at hstep
    · cases hstep
      exact Invariant.of_absent rfl hs.paired
    · cases hstep
  | take =>
    dsimp only [WarmDispatch.step] at hstep
    split at hstep
    · rename_i w hworker
      split at hstep
      · rename_i hready
        obtain ⟨u, htake, rfl⟩ := Option.map_eq_some_iff.mp hstep
        exact hs.take hworker hready.1 hready.2 htake
      · cases hstep
    · cases hstep
  | print => exact horderly.elim
  | answer response =>
    dsimp only [WarmDispatch.step] at hstep
    split at hstep
    · rename_i w hworker
      split at hstep
      · rename_i line hbusy
        split at hstep
        · rename_i halive
          cases hstep
          exact hs.answer hworker halive hbusy response
        · cases hstep
      · cases hstep
    · cases hstep
  | die =>
    cases hstep
    exact hs.die

theorem Reachable.invariant {s : State} (h : Reachable Orderly s) : Invariant s := by
  induction h with
  | init => exact Invariant.of_absent rfl fun r hr => (by cases hr)
  | step action _ horderly hstep ih => exact ih.step horderly hstep

theorem Reachable.run {Cond : Action → Prop} {s t : State} (h : Reachable Cond s)
    (actions : List Action) (hcond : ∀ a ∈ actions, Cond a)
    (hrun : actions.foldlM WarmDispatch.step s = some t) : Reachable Cond t := by
  induction actions generalizing s with
  | nil =>
    cases hrun
    exact h
  | cons action actions ih =>
    rw [foldlM_cons] at hrun
    obtain ⟨next, hnext, hrest⟩ := Option.bind_eq_some_iff.mp hrun
    have hreach : Reachable Cond next :=
      Reachable.step action h (hcond action mem_cons_self) hnext
    exact ih hreach (fun a ha => hcond a (.tail _ ha)) hrest

/-- Where no request is cut short and nothing precedes a status line, a dispatch returns Ok
only for the answer to its own payload. -/
theorem ok_answers_own_request (s : State) (h : Reachable Orderly s) :
    ∀ r ∈ s.returned, Paired r :=
  h.invariant.paired

def firstPayload : Payload := ⟨['a'], by decide⟩

def secondPayload : Payload := ⟨['b'], by decide⟩

def okResponse : Response := ⟨some "ok", none, ⟨none, none⟩⟩

def orderlyRun : List Action :=
  [.ensureWarm, .request firstPayload, .take, .answer okResponse, .receive,
    .request secondPayload, .take, .answer okResponse, .receive]

def orderlyState : State where
  worker := some ⟨true, [], none, []⟩
  current := none
  count := 2
  returned :=
    [⟨2, secondPayload, .ok ⟨none, none⟩,
        some ⟨some okResponse, some (secondPayload.request 2)⟩⟩,
      ⟨1, firstPayload, .ok ⟨none, none⟩,
        some ⟨some okResponse, some (firstPayload.request 1)⟩⟩]

theorem orderlyState_reachable : Reachable Orderly orderlyState := by
  refine Reachable.run Reachable.init orderlyRun (fun a ha => ?_) rfl
  simp only [orderlyRun, mem_cons, not_mem_nil, or_false] at ha
  obtain rfl | rfl | rfl | rfl | rfl | rfl | rfl | rfl | rfl := ha <;> trivial

/-- The second of them consumed the answer to its own payload. -/
theorem ok_answers_own_request_run :
    Paired ⟨2, secondPayload, .ok ⟨none, none⟩,
      some ⟨some okResponse, some (secondPayload.request 2)⟩⟩ :=
  ok_answers_own_request orderlyState orderlyState_reachable _ mem_cons_self

/-- The first dispatch reads a line that its target has printed, the second dispatch reads
the answer to the first. -/
def printingRun : List Action :=
  [.ensureWarm, .request firstPayload, .take, .print none, .receive, .answer okResponse,
    .request secondPayload, .receive]

def printingState : State where
  worker := some ⟨true, secondPayload.line 2, none, []⟩
  current := none
  count := 2
  returned :=
    [⟨2, secondPayload, .ok ⟨none, none⟩,
        some ⟨some okResponse, some (firstPayload.request 1)⟩⟩,
      ⟨1, firstPayload, .error (.io .invalidData), some ⟨none, none⟩⟩]

/-- A line printed by one target makes the next dispatch accept the answer to the first. -/
theorem not_ok_answers_own_request :
    ¬ ∀ s : State, Reachable (fun _ => True) s → ∀ r ∈ s.returned, Paired r := by
  intro hall
  have hreach : Reachable (fun _ => True) printingState :=
    Reachable.run Reachable.init printingRun (fun _ _ => trivial) rfl
  have hpaired := hall printingState hreach _ mem_cons_self
  obtain ⟨_, hconsumed, hanswers⟩ := hpaired ⟨none, none⟩ rfl
  cases hconsumed
  cases hanswers

end OxyMake.WarmDispatch
