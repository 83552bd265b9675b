import Mathlib.Logic.Relation
import OxyMake.KeyedTable

/-!
# The background disk writer

Calls of `write` register their path and enqueue a request; a background loop
takes the requests one by one, writes them and releases the path. A reader waits
until none of its paths is registered. Who releases a path notifies the readers
afterwards, in a step of its own. Calls, loop and readers take their steps in any
order, and the channel may close at any time.
-/

namespace OxyMake.DiskWriter

open List
open KeyedTable

variable {P D : Type} [DecidableEq P]

/-! ### Pending counts -/

def register (pending : Table P ℕ) (path : P) : Table P ℕ :=
  pending.upsert path 1 fun count => count + 1

/-- Count one write to a path less, and forget the path at zero; `none` when the
count would fall below zero. -/
def complete (pending : Table P ℕ) (path : P) : Option (Table P ℕ) :=
  match pending.get path with
  | none => some pending
  | some 0 => none
  | some (count + 1) =>
    some (if count = 0 then pending.delete fun p => p = path else pending.put path count)

def anyPending (pending : Table P ℕ) (paths : List P) : Bool :=
  paths.any fun p => (pending.get p).isSome

/-! ### Calls, loop and readers -/

/-- How far a call of `write` has come. -/
inductive Phase
  /-- The path is registered; the request waits for a slot of the channel. -/
  | registered
  /-- The request went into the channel. -/
  | enqueued
  | refused
  /-- The path of a refused request is released; the readers are notified next. -/
  | released
  | failed
  /-- The loop has handled the request and released its path. -/
  | finished (landed : Bool)
  deriving DecidableEq

def Phase.isOpen : Phase → Bool
  | .registered | .enqueued | .refused => true
  | .released | .failed | .finished _ => false

/-- The request went into the channel at some time. -/
def Phase.wasEnqueued : Phase → Bool
  | .enqueued | .finished _ => true
  | .registered | .refused | .released | .failed => false

structure WriteCall (P D : Type) where
  targetPath : P
  data : D
  phase : Phase

/-- Where the background loop is. -/
inductive LoopPhase
  | receiving
  /-- It resolves and writes the request of a call. -/
  | writing (call : ℕ)
  | settled (call : ℕ) (landed : Bool)
  /-- It has released the path of a request and notifies the readers next. -/
  | notifying
  /-- It has ended and the channel is closed. -/
  | ended

def LoopPhase.call : LoopPhase → List ℕ
  | .writing i | .settled i _ => [i]
  | .receiving | .notifying | .ended => []

inductive WaiterPhase
  /-- It has asked to be notified and checks its paths next. -/
  | armed
  /-- It has found a registered path and sleeps until notified. -/
  | sleeping
  | returned
  deriving DecidableEq

structure Waiter (P : Type) where
  paths : List P
  enqueued : List ℕ
  /-- It was notified since it last asked for it. -/
  notified : Bool
  phase : WaiterPhase

/-- The writer with its callers. -/
structure State (P D : Type) where
  pending : Table P ℕ
  /-- The calls of `write`, in the order of their registration. -/
  calls : List (WriteCall P D)
  channel : List ℕ
  loop : LoopPhase
  waiters : List (Waiter P)
  landed : List (P × D)
  writesCompleted : ℕ
  writesFailed : ℕ
  underflow : Bool

def State.start : State P D := ⟨.empty, [], [], .receiving, [], [], 0, 0, false⟩

namespace State

def setPhase (s : State P D) (i : ℕ) (phase : Phase) : State P D :=
  { s with calls := s.calls.modify i fun c => { c with phase := phase } }

def release (s : State P D) (path : P) : State P D :=
  { s with
    pending := (complete s.pending path).getD s.pending
    underflow := s.underflow || (complete s.pending path).isNone }

def notify (s : State P D) : State P D :=
  { s with waiters := s.waiters.map fun w => { w with notified := true } }

def enqueuedCalls (s : State P D) : List ℕ :=
  (List.range s.calls.length).filter fun i => (s.calls[i]?).any fun c => c.phase.wasEnqueued

def checkWaiter (s : State P D) (w : Waiter P) : Waiter P :=
  { w with phase := if anyPending s.pending w.paths then .sleeping else .returned }

end State

/-- One step of a call, the loop or a reader. The loop resolves the requested
path, which may refuse it; writing may fail as well. It does not end between a
release and its notification. -/
inductive Step (resolve : P → Option P) (capacity : ℕ) : State P D → State P D → Prop
  | register (s : State P D) (path : P) (data : D) :
    Step resolve capacity s
      { s with
        pending := register s.pending path
        calls := s.calls ++ [⟨path, data, .registered⟩] }
  | send (s : State P D) (i : ℕ) (c : WriteCall P D) (hcall : s.calls[i]? = some c)
    (hphase : c.phase = .registered) (hopen : s.loop ≠ .ended)
    (hslot : s.channel.length < capacity) :
    Step resolve capacity s { s.setPhase i .enqueued with channel := s.channel ++ [i] }
  | refuse (s : State P D) (i : ℕ) (c : WriteCall P D) (hcall : s.calls[i]? = some c)
    (hphase : c.phase = .registered) (hclosed : s.loop = .ended) :
    Step resolve capacity s (s.setPhase i .refused)
  | giveUp (s : State P D) (i : ℕ) (c : WriteCall P D) (hcall : s.calls[i]? = some c)
    (hphase : c.phase = .refused) :
    Step resolve capacity s ((s.setPhase i .released).release c.targetPath)
  | report (s : State P D) (i : ℕ) (c : WriteCall P D) (hcall : s.calls[i]? = some c)
    (hphase : c.phase = .released) : Step resolve capacity s (s.setPhase i .failed).notify
  | receive (s : State P D) (i : ℕ) (rest : List ℕ) (hloop : s.loop = .receiving)
    (hchannel : s.channel = i :: rest) :
    Step resolve capacity s { s with channel := rest, loop := .writing i }
  | land (s : State P D) (i : ℕ) (c : WriteCall P D) (target : P) (hloop : s.loop = .writing i)
    (hcall : s.calls[i]? = some c) (htarget : resolve c.targetPath = some target) :
    Step resolve capacity s
      { s with
        loop := .settled i true
        landed := s.landed ++ [(target, c.data)]
        writesCompleted := s.writesCompleted + 1 }
  | fail (s : State P D) (i : ℕ) (hloop : s.loop = .writing i) :
    Step resolve capacity s
      { s with loop := .settled i false, writesFailed := s.writesFailed + 1 }
  | finish (s : State P D) (i : ℕ) (c : WriteCall P D) (landed : Bool)
    (hloop : s.loop = .settled i landed) (hcall : s.calls[i]? = some c) :
    Step resolve capacity s
      { (s.setPhase i (.finished landed)).release c.targetPath with loop := .notifying }
  | notify (s : State P D) (hloop : s.loop = .notifying) :
    Step resolve capacity s { s.notify with loop := .receiving }
  | close (s : State P D) (hloop : s.loop ≠ .notifying) :
    Step resolve capacity s { s with channel := [], loop := .ended }
  | wait (s : State P D) (paths : List P) :
    Step resolve capacity s
      { s with waiters := s.waiters ++ [⟨paths, s.enqueuedCalls, false, .armed⟩] }
  | check (s : State P D) (j : ℕ) (w : Waiter P) (hwaiter : s.waiters[j]? = some w)
    (hphase : w.phase = .armed) :
    Step resolve capacity s { s with waiters := s.waiters.set j (s.checkWaiter w) }
  | wake (s : State P D) (j : ℕ) (w : Waiter P) (hwaiter : s.waiters[j]? = some w)
    (hphase : w.phase = .sleeping) (hnotified : w.notified = true) :
    Step resolve capacity s
      { s with waiters := s.waiters.set j { w with notified := false, phase := .armed } }

def Reachable (resolve : P → Option P) (capacity : ℕ) (s : State P D) : Prop :=
  Relation.ReflTransGen (Step resolve capacity) .start s

/-! ### Counting the open writes -/

/-- Number of registered writes to a path that are not released. -/
def State.openCount (s : State P D) (path : P) : ℕ :=
  s.calls.countP fun c => decide (c.targetPath = path) && c.phase.isOpen

/-- How a registry holds a count; zero is not kept. -/
def tally (count : ℕ) : Option ℕ := if count = 0 then none else some count

/-- The registry counts the open writes, and no count was to fall below zero. -/
structure Counted (s : State P D) : Prop where
  pending : ∀ path, s.pending.get path = tally (s.openCount path)
  /-- Every decrement found a positive count. -/
  noUnderflow : s.underflow = false

theorem get_register (pending : Table P ℕ) (path p : P) {count : ℕ}
    (h : pending.get p = tally count) :
    (register pending path).get p = tally (if p = path then count + 1 else count) := by
  rw [register, Table.get_upsert]
  by_cases hp : p = path
  · rw [if_pos hp, if_pos hp, ← hp, h]
    cases count <;> rfl
  · rw [if_neg hp, if_neg hp, h]

theorem exists_complete {pending : Table P ℕ} {path : P} {count : ℕ}
    (h : pending.get path = tally (count + 1)) :
    ∃ pending', complete pending path = some pending' ∧
      ∀ p, pending'.get p = if p = path then tally count else pending.get p := by
  have hget : pending.get path = some (count + 1) := h
  rw [complete, hget]
  refine ⟨_, rfl, fun p => ?_⟩
  cases count with
  | zero =>
    rw [if_pos rfl, Table.get_delete]
    by_cases hp : p = path
    · rw [if_pos (decide_eq_true hp), if_pos hp]
      rfl
    · rw [if_neg (decide_eq_false hp ▸ Bool.false_ne_true), if_neg hp]
  | succ count =>
    rw [if_neg (Nat.succ_ne_zero count), Table.get_put]
    rfl

theorem openCount_setPhase {s : State P D} {i : ℕ} {c : WriteCall P D} (phase : Phase)
    (hcall : s.calls[i]? = some c) (hopen : c.phase.isOpen = true) (path : P) :
    (s.setPhase i phase).openCount path + (if c.targetPath = path then 1 else 0) =
      s.openCount path + if c.targetPath = path ∧ phase.isOpen = true then 1 else 0 := by
  have hcount := Counting.countP_modify hcall (fun c => { c with phase := phase })
    fun c => decide (c.targetPath = path) && c.phase.isOpen
  simp only [Bool.and_eq_true, decide_eq_true_eq, hopen, and_true] at hcount
  exact hcount

theorem openCount_setPhase_same {s : State P D} {i : ℕ} {c : WriteCall P D} (phase : Phase)
    (hcall : s.calls[i]? = some c) (hsame : phase.isOpen = c.phase.isOpen) (path : P) :
    (s.setPhase i phase).openCount path = s.openCount path := by
  have hcount := Counting.countP_modify hcall (fun c => { c with phase := phase })
    fun c => decide (c.targetPath = path) && c.phase.isOpen
  rw [hsame] at hcount
  exact Nat.add_right_cancel hcount

theorem Counted.setPhase {s : State P D} {i : ℕ} {c : WriteCall P D} (phase : Phase)
    (h : Counted s) (hcall : s.calls[i]? = some c) (hsame : phase.isOpen = c.phase.isOpen) :
    Counted (s.setPhase i phase) := by
  refine ⟨fun path => ?_, h.noUnderflow⟩
  rw [openCount_setPhase_same phase hcall hsame]
  exact h.pending path

theorem Counted.release {s : State P D} {i : ℕ} {c : WriteCall P D} (phase : Phase)
    (h : Counted s) (hcall : s.calls[i]? = some c) (hopen : c.phase.isOpen = true)
    (hphase : phase.isOpen = false) :
    Counted ((s.setPhase i phase).release c.targetPath) := by
  have hcount : ∀ path, (s.setPhase i phase).openCount path +
      (if c.targetPath = path then 1 else 0) = s.openCount path := by
    intro path
    have hset := openCount_setPhase phase hcall hopen path
    simp only [hphase, Bool.false_eq_true, and_false, if_false, Nat.add_zero] at hset
    exact hset
  have hpath : s.pending.get c.targetPath =
      tally ((s.setPhase i phase).openCount c.targetPath + 1) := by
    rw [h.pending, ← hcount c.targetPath, if_pos rfl]
  obtain ⟨pending', hcomplete, hget⟩ := exists_complete hpath
  have hcomplete' : complete (s.setPhase i phase).pending c.targetPath = some pending' := hcomplete
  constructor
  · intro path
    change ((complete (s.setPhase i phase).pending c.targetPath).getD _).get path =
      tally ((s.setPhase i phase).openCount path)
    rw [hcomplete', Option.getD_some, hget]
    by_cases hp : path = c.targetPath
    · rw [if_pos hp, hp]
    · have hother := hcount path
      rw [if_neg (Ne.symm hp), Nat.add_zero] at hother
      rw [if_neg hp, hother, h.pending]
  · change (s.underflow || (complete (s.setPhase i phase).pending c.targetPath).isNone) = false
    rw [hcomplete', h.noUnderflow]
    rfl

/-! ### Requests in flight -/

/-- Every request in the channel or with the loop belongs to one enqueued call. -/
structure Flight (s : State P D) : Prop where
  nodup : (s.loop.call ++ s.channel).Nodup
  /-- Its call waits for the loop. -/
  enqueued : ∀ i ∈ s.loop.call ++ s.channel, ∃ c, s.calls[i]? = some c ∧ c.phase = .enqueued

omit [DecidableEq P] in
theorem getElem?_setPhase_ne {s : State P D} {i j : ℕ} (phase : Phase) (h : i ≠ j) :
    (s.setPhase i phase).calls[j]? = s.calls[j]? := getElem?_modify_ne _ _ h

omit [DecidableEq P] in
theorem getElem?_setPhase_self {s : State P D} {i : ℕ} {c : WriteCall P D} (phase : Phase)
    (h : s.calls[i]? = some c) :
    (s.setPhase i phase).calls[i]? = some { c with phase := phase } := by
  refine (getElem?_modify_eq _ i s.calls).trans ?_
  rw [h]
  rfl

omit [DecidableEq P] in
theorem Flight.setPhase {s : State P D} {i : ℕ} {c : WriteCall P D} (phase : Phase)
    (h : Flight s) (hcall : s.calls[i]? = some c) (hphase : c.phase ≠ .enqueued) :
    Flight (s.setPhase i phase) := by
  refine ⟨h.nodup, fun j hj => ?_⟩
  obtain ⟨c', hc', henqueued⟩ := h.enqueued j hj
  have hne : i ≠ j := by
    rintro rfl
    rw [hcall] at hc'
    cases hc'
    exact hphase henqueued
  exact ⟨c', (getElem?_setPhase_ne phase hne).trans hc', henqueued⟩

theorem Flight.step {resolve : P → Option P} {capacity : ℕ} {s t : State P D} (h : Flight s)
    (hstep : Step resolve capacity s t) : Flight t := by
  cases hstep with
  | register =>
    refine ⟨h.nodup, fun i hi => ?_⟩
    obtain ⟨c, hc, henqueued⟩ := h.enqueued i hi
    exact ⟨c, getElem?_append_left (List.getElem?_eq_some_iff.mp hc).1 ▸ hc, henqueued⟩
  | send i c hcall hphase =>
    have hnew : i ∉ s.loop.call ++ s.channel := by
      intro hi
      obtain ⟨c', hc', henqueued⟩ := h.enqueued i hi
      rw [hcall] at hc'
      cases hc'
      rw [hphase] at henqueued
      cases henqueued
    have hset := h.setPhase .enqueued hcall (by rw [hphase]; exact nofun)
    constructor
    · change (s.loop.call ++ (s.channel ++ [i])).Nodup
      rw [← append_assoc]
      exact List.Nodup.append h.nodup (nodup_singleton i)
        (disjoint_singleton.mpr hnew)
    · intro j hj
      change j ∈ s.loop.call ++ (s.channel ++ [i]) at hj
      rw [← append_assoc] at hj
      rcases mem_append.mp hj with hj | hj
      · exact hset.enqueued j hj
      · rw [mem_singleton.mp hj]
        exact ⟨_, getElem?_setPhase_self .enqueued hcall, rfl⟩
  | refuse i c hcall hphase => exact h.setPhase .refused hcall (by rw [hphase]; exact nofun)
  | giveUp i c hcall hphase =>
    have hset := h.setPhase .released hcall (by rw [hphase]; exact nofun)
    exact ⟨hset.nodup, hset.enqueued⟩
  | report i c hcall hphase =>
    have hset := h.setPhase .failed hcall (by rw [hphase]; exact nofun)
    exact ⟨hset.nodup, hset.enqueued⟩
  | receive i rest hloop hchannel =>
    have hsame : s.loop.call ++ s.channel = LoopPhase.call (.writing i) ++ rest := by
      rw [hloop, hchannel]
      rfl
    exact ⟨hsame ▸ h.nodup, hsame ▸ h.enqueued⟩
  | land i c target hloop =>
    have hsame : s.loop.call = LoopPhase.call (.settled i true) := by
      rw [hloop]
      rfl
    constructor
    · exact hsame ▸ h.nodup
    · exact hsame ▸ h.enqueued
  | fail i hloop =>
    have hsame : s.loop.call = LoopPhase.call (.settled i false) := by
      rw [hloop]
      rfl
    exact ⟨hsame ▸ h.nodup, hsame ▸ h.enqueued⟩
  | finish i c landed hloop =>
    have hflight : s.loop.call ++ s.channel = i :: s.channel := by
      rw [hloop]
      rfl
    have hnodup := h.nodup
    rw [hflight] at hnodup
    obtain ⟨hnot, hrest⟩ := nodup_cons.mp hnodup
    refine ⟨hrest, fun j hj => ?_⟩
    have hne : i ≠ j := fun heq => hnot (heq ▸ hj)
    obtain ⟨c', hc', henqueued⟩ := h.enqueued j (hflight ▸ mem_cons_of_mem i hj)
    exact ⟨c', (getElem?_setPhase_ne (.finished landed) hne).trans hc', henqueued⟩
  | notify hloop =>
    have hsame : s.loop.call = LoopPhase.call .receiving := by
      rw [hloop]
      rfl
    exact ⟨hsame ▸ h.nodup, hsame ▸ h.enqueued⟩
  | close => exact ⟨nodup_nil, fun i hi => nomatch hi⟩
  | wait | check | wake => exact ⟨h.nodup, h.enqueued⟩

theorem Counted.step {resolve : P → Option P} {capacity : ℕ} {s t : State P D} (h : Counted s)
    (hflight : Flight s) (hstep : Step resolve capacity s t) : Counted t := by
  cases hstep with
  | register path data =>
    refine ⟨fun p => ?_, h.noUnderflow⟩
    have hcount : (s.calls ++ [WriteCall.mk path data .registered]).countP (fun c =>
        decide (c.targetPath = p) && c.phase.isOpen) =
        if p = path then s.openCount p + 1 else s.openCount p := by
      rw [countP_append, countP_singleton]
      by_cases hp : p = path
      · rw [if_pos hp, hp, decide_eq_true rfl]
        rfl
      · rw [if_neg hp, decide_eq_false (Ne.symm hp)]
        rfl
    change (register s.pending path).get p = tally (List.countP _ _)
    rw [hcount]
    exact get_register s.pending path p (h.pending p)
  | send i c hcall hphase =>
    have hset := h.setPhase .enqueued hcall (by rw [hphase]; rfl)
    exact ⟨hset.pending, hset.noUnderflow⟩
  | refuse i c hcall hphase => exact h.setPhase .refused hcall (by rw [hphase]; rfl)
  | giveUp i c hcall hphase => exact h.release .released hcall (by rw [hphase]; rfl) rfl
  | report i c hcall hphase =>
    have hset := h.setPhase .failed hcall (by rw [hphase]; rfl)
    exact ⟨hset.pending, hset.noUnderflow⟩
  | receive | land | fail | notify | close | wait | check | wake => exact ⟨h.pending, h.noUnderflow⟩
  | finish i c landed hloop hcall =>
    have hopen : c.phase.isOpen = true := by
      have hmem : i ∈ s.loop.call ++ s.channel := by
        rw [hloop]
        exact mem_cons_self
      obtain ⟨_, hc', henqueued⟩ := hflight.enqueued i hmem
      rw [hcall] at hc'
      cases hc'
      rw [henqueued]
      rfl
    have hreleased := h.release (.finished landed) hcall hopen rfl
    exact ⟨hreleased.pending, hreleased.noUnderflow⟩

/-! ### What became of a write -/

/-- The data of a request is where its path resolves to. -/
def Written (resolve : P → Option P) (s : State P D) (c : WriteCall P D) : Prop :=
  ∃ target, resolve c.targetPath = some target ∧ (target, c.data) ∈ s.landed

omit [DecidableEq P] in
theorem exists_of_setPhase {s : State P D} {i j : ℕ} {phase : Phase} {c : WriteCall P D}
    (h : (s.setPhase i phase).calls[j]? = some c) :
    s.calls[j]? = some c ∨ i = j ∧ c.phase = phase ∧
      ∃ c₀, s.calls[j]? = some c₀ ∧ c = { c₀ with phase := phase } := by
  by_cases hij : i = j
  · subst hij
    cases hcall : s.calls[i]? with
    | none =>
      have hnone : (s.setPhase i phase).calls[i]? = none := by
        refine (getElem?_modify_eq _ i s.calls).trans ?_
        rw [hcall]
        rfl
      rw [hnone] at h
      cases h
    | some c₀ =>
      rw [getElem?_setPhase_self phase hcall] at h
      cases h
      exact .inr ⟨rfl, rfl, c₀, rfl, rfl⟩
  · rw [getElem?_setPhase_ne phase hij] at h
    exact .inl h

/-- What counts as written is where it should be. -/
structure Landed (resolve : P → Option P) (s : State P D) : Prop where
  /-- The request the loop has just written. -/
  settled : ∀ i c, s.loop = .settled i true → s.calls[i]? = some c → Written resolve s c
  finished : ∀ (i : ℕ) c, s.calls[i]? = some c → c.phase = .finished true → Written resolve s c

omit [DecidableEq P] in
theorem Landed.setPhase {resolve : P → Option P} {s : State P D} {i : ℕ} (phase : Phase)
    (h : Landed resolve s) (hphase : phase ≠ .finished true) :
    Landed resolve (s.setPhase i phase) := by
  constructor
  · intro j c hloop hc
    rcases exists_of_setPhase hc with hc | ⟨-, -, c₀, hc₀, rfl⟩
    · exact h.settled j c hloop hc
    · exact h.settled j c₀ hloop hc₀
  · intro j c hc hfinished
    rcases exists_of_setPhase hc with hc | ⟨-, hc, -⟩
    · exact h.finished j c hc hfinished
    · exact absurd (hc.symm.trans hfinished) hphase

theorem Landed.step {resolve : P → Option P} {capacity : ℕ} {s t : State P D}
    (h : Landed resolve s) (hflight : Flight s) (hstep : Step resolve capacity s t) :
    Landed resolve t := by
  cases hstep with
  | register path data =>
    constructor
    · intro i c hloop hc
      have hmem : i ∈ s.loop.call ++ s.channel := by
        rw [show s.loop = .settled i true from hloop]
        exact mem_cons_self
      obtain ⟨c₀, hc₀, -⟩ := hflight.enqueued i hmem
      have hsame : (s.calls ++ [WriteCall.mk path data .registered])[i]? = some c₀ :=
        (getElem?_append_left (List.getElem?_eq_some_iff.mp hc₀).1).trans hc₀
      have heq : c₀ = c := Option.some.inj (hsame.symm.trans hc)
      exact h.settled i c hloop (heq ▸ hc₀)
    · intro i c hc hfinished
      by_cases hi : i < s.calls.length
      · exact h.finished i c ((getElem?_append_left hi).symm.trans hc) hfinished
      · have hlast := (getElem?_append_right (Nat.not_lt.mp hi)).symm.trans hc
        rw [mem_singleton.mp (mem_of_getElem? hlast)] at hfinished
        cases hfinished
  | send i =>
    have hset := h.setPhase (i := i) .enqueued nofun
    exact ⟨hset.settled, hset.finished⟩
  | refuse => exact h.setPhase .refused nofun
  | giveUp i =>
    have hset := h.setPhase (i := i) .released nofun
    exact ⟨hset.settled, hset.finished⟩
  | report i =>
    have hset := h.setPhase (i := i) .failed nofun
    exact ⟨hset.settled, hset.finished⟩
  | receive | fail | notify | close => exact ⟨fun j c hj => (nomatch hj), h.finished⟩
  | land i c target hloop hcall htarget =>
    have hmore : ∀ c', Written resolve s c' → ∃ target', resolve c'.targetPath = some target' ∧
        (target', c'.data) ∈ s.landed ++ [(target, c.data)] := by
      rintro c' ⟨target', htarget', hmem⟩
      exact ⟨target', htarget', mem_append_left _ hmem⟩
    constructor
    · intro j c' hj hc'
      cases hj
      rw [show s.calls[i]? = some c' from hc'] at hcall
      cases hcall
      exact ⟨target, htarget, mem_append_right _ (mem_singleton_self _)⟩
    · intro j c' hc' hfinished
      exact hmore c' (h.finished j c' hc' hfinished)
  | finish i c landed hloop =>
    refine ⟨fun j c hj => (nomatch hj), fun j c' hc' hfinished => ?_⟩
    rcases exists_of_setPhase hc' with hc' | ⟨hij, hphase, c₀, hc₀, rfl⟩
    · exact h.finished j c' hc' hfinished
    · rw [hphase] at hfinished
      cases hfinished
      exact h.settled i c₀ hloop (hij ▸ hc₀)
  | wait | check | wake => exact ⟨h.settled, h.finished⟩

/-! ### Readers -/

def Phase.Follows (later earlier : Phase) : Prop :=
  (earlier.wasEnqueued = true → later.wasEnqueued = true) ∧
    ∀ landed, earlier = .finished landed → later = .finished landed

omit [DecidableEq P] in
theorem exists_setPhase {s : State P D} {i j : ℕ} {phase : Phase} {c c₀ : WriteCall P D}
    (hc : s.calls[j]? = some c) (hcall : s.calls[i]? = some c₀)
    (hfollows : phase.Follows c₀.phase) :
    ∃ later, (s.setPhase i phase).calls[j]? = some { c with phase := later } ∧
      later.Follows c.phase := by
  by_cases hij : i = j
  · subst hij
    rw [hc] at hcall
    cases hcall
    exact ⟨phase, getElem?_setPhase_self phase hc, hfollows⟩
  · exact ⟨c.phase, (getElem?_setPhase_ne phase hij).trans hc, id, fun _ h => h⟩

theorem exists_call_of_step {resolve : P → Option P} {capacity : ℕ} {s t : State P D}
    (hflight : Flight s) (hstep : Step resolve capacity s t) {j : ℕ} {c : WriteCall P D}
    (hc : s.calls[j]? = some c) :
    ∃ later, t.calls[j]? = some { c with phase := later } ∧ later.Follows c.phase := by
  have hsame : ∃ later, s.calls[j]? = some { c with phase := later } ∧ later.Follows c.phase :=
    ⟨c.phase, hc, id, fun _ h => h⟩
  cases hstep with
  | register =>
    obtain ⟨later, hlater, hfollows⟩ := hsame
    exact ⟨later, (getElem?_append_left (List.getElem?_eq_some_iff.mp hc).1).trans hlater,
      hfollows⟩
  | send i c₀ hcall hphase =>
    refine exists_setPhase hc hcall ⟨fun _ => rfl, ?_⟩
    rw [hphase]
    exact nofun
  | refuse i c₀ hcall hphase =>
    refine exists_setPhase hc hcall ?_
    rw [hphase]
    exact ⟨nofun, nofun⟩
  | giveUp i c₀ hcall hphase =>
    have hnext : Phase.Follows .released c₀.phase := by
      rw [hphase]
      exact ⟨nofun, nofun⟩
    exact exists_setPhase hc hcall hnext
  | report i c₀ hcall hphase =>
    have hnext : Phase.Follows .failed c₀.phase := by
      rw [hphase]
      exact ⟨nofun, nofun⟩
    exact exists_setPhase hc hcall hnext
  | receive | land | fail | notify | close | wait | check | wake => exact hsame
  | finish i c₀ landed hloop hcall =>
    have hmem : i ∈ s.loop.call ++ s.channel := by
      rw [hloop]
      exact mem_cons_self
    obtain ⟨_, hc₁, henqueued⟩ := hflight.enqueued i hmem
    rw [hcall] at hc₁
    cases hc₁
    have hnext : Phase.Follows (.finished landed) c₀.phase := by
      rw [henqueued]
      exact ⟨fun _ => rfl, nofun⟩
    exact exists_setPhase hc hcall hnext

/-- A path was released and the readers are not notified yet. -/
def State.Announces (s : State P D) : Prop :=
  s.loop = .notifying ∨ ∃ c ∈ s.calls, c.phase = .released

omit [DecidableEq P] in
theorem State.Announces.mono {s u : State P D} (h : s.Announces) (hloop : u.loop = s.loop)
    (hcalls : s.calls ⊆ u.calls) : u.Announces := by
  rcases h with h | ⟨c, hc, hphase⟩
  · exact .inl (hloop.trans h)
  · exact .inr ⟨c, hcalls hc, hphase⟩

omit [DecidableEq P] in
theorem State.Announces.setPhase {s : State P D} {i : ℕ} {c : WriteCall P D} (phase : Phase)
    (h : s.Announces) (hcall : s.calls[i]? = some c) (hphase : c.phase ≠ .released) :
    (s.setPhase i phase).Announces := by
  rcases h with hloop | ⟨c', hc', hreleased⟩
  · exact .inl hloop
  · obtain ⟨j, hj⟩ := mem_iff_getElem?.mp hc'
    have hne : i ≠ j := by
      rintro rfl
      rw [hcall] at hj
      cases hj
      exact hphase hreleased
    exact .inr ⟨c', mem_of_getElem? ((getElem?_setPhase_ne phase hne).trans hj), hreleased⟩

/-- What the readers may rely on. -/
structure Waiting (s : State P D) : Prop where
  /-- The writes enqueued before a reader was called are known. -/
  known : ∀ w ∈ s.waiters, ∀ i ∈ w.enqueued, ∃ c, s.calls[i]? = some c ∧
    c.phase.wasEnqueued = true
  /-- Those to its paths are finished once the reader has returned. -/
  returned : ∀ w ∈ s.waiters, w.phase = .returned → ∀ i ∈ w.enqueued, ∀ c,
    s.calls[i]? = some c → c.targetPath ∈ w.paths → ∃ landed, c.phase = .finished landed
  /-- A reader sleeps without a notification only while a path is registered or a
  notification is to come. -/
  sleeping : ∀ w ∈ s.waiters, w.phase = .sleeping → w.notified = false →
    anyPending s.pending w.paths = true ∨ s.Announces

theorem Waiting.congr {resolve : P → Option P} {capacity : ℕ} {s t : State P D} (h : Waiting s)
    (hflight : Flight s) (hstep : Step resolve capacity s t)
    (hwaiters : ∀ w ∈ t.waiters, ∃ w₀ ∈ s.waiters, w.paths = w₀.paths ∧
      w.enqueued = w₀.enqueued ∧ w.phase = w₀.phase)
    (hsleeping : ∀ w ∈ t.waiters, w.phase = .sleeping → w.notified = false →
      anyPending t.pending w.paths = true ∨ t.Announces) : Waiting t := by
  refine ⟨?_, ?_, hsleeping⟩
  · intro w hw i hi
    obtain ⟨w₀, hw₀, -, henqueued, -⟩ := hwaiters w hw
    obtain ⟨c, hc, hwas⟩ := h.known w₀ hw₀ i (henqueued ▸ hi)
    obtain ⟨later, hlater, hfollows⟩ := exists_call_of_step hflight hstep hc
    exact ⟨_, hlater, hfollows.1 hwas⟩
  · intro w hw hphase i hi c hc hpath
    obtain ⟨w₀, hw₀, hpaths, henqueued, hsame⟩ := hwaiters w hw
    obtain ⟨c₀, hc₀, -⟩ := h.known w₀ hw₀ i (henqueued ▸ hi)
    obtain ⟨later, hlater, hfollows⟩ := exists_call_of_step hflight hstep hc₀
    rw [hc] at hlater
    cases hlater
    obtain ⟨landed, hfinished⟩ :=
      h.returned w₀ hw₀ (hsame ▸ hphase) i (henqueued ▸ hi) c₀ hc₀ (hpaths ▸ hpath)
    exact ⟨landed, hfollows.2 landed hfinished⟩

theorem anyPending_register {pending : Table P ℕ} {paths : List P} (path : P)
    (h : anyPending pending paths = true) : anyPending (register pending path) paths = true := by
  obtain ⟨p, hp, hsome⟩ := any_eq_true.mp h
  refine any_eq_true.mpr ⟨p, hp, ?_⟩
  rw [register, Table.get_upsert]
  split_ifs
  · rfl
  · exact hsome

theorem Counted.finished {s : State P D} (h : Counted s) {paths : List P}
    (hnone : ¬ anyPending s.pending paths = true) {i : ℕ} {c : WriteCall P D}
    (hc : s.calls[i]? = some c) (hwas : c.phase.wasEnqueued = true) (hpath : c.targetPath ∈ paths) :
    ∃ landed, c.phase = .finished landed := by
  have hzero : s.openCount c.targetPath = 0 := by
    by_contra hne
    refine hnone (any_eq_true.mpr ⟨c.targetPath, hpath, ?_⟩)
    rw [h.pending, tally, if_neg hne]
    rfl
  have hclosed := countP_eq_zero.mp hzero c (mem_of_getElem? hc)
  rw [decide_eq_true rfl, Bool.true_and] at hclosed
  cases hphase : c.phase with
  | finished landed => exact ⟨landed, rfl⟩
  | enqueued =>
    rw [hphase] at hclosed
    exact absurd rfl hclosed
  | registered | refused | released | failed =>
    rw [hphase] at hwas
    cases hwas

theorem Waiting.step {resolve : P → Option P} {capacity : ℕ} {s t : State P D} (h : Waiting s)
    (hcounted : Counted s) (hflight : Flight s) (hstep : Step resolve capacity s t) :
    Waiting t := by
  have hsame : ∀ w ∈ s.waiters, ∃ w₀ ∈ s.waiters, w.paths = w₀.paths ∧
      w.enqueued = w₀.enqueued ∧ w.phase = w₀.phase := fun w hw => ⟨w, hw, rfl, rfl, rfl⟩
  have hnotified : ∀ w ∈ s.waiters.map fun w => { w with notified := true },
      (∃ w₀ ∈ s.waiters, w.paths = w₀.paths ∧ w.enqueued = w₀.enqueued ∧ w.phase = w₀.phase) ∧
        w.notified = true := by
    intro w hw
    obtain ⟨w₀, hw₀, rfl⟩ := mem_map.mp hw
    exact ⟨⟨w₀, hw₀, rfl, rfl, rfl⟩, rfl⟩
  have hquiet : ∀ {u : State P D}, s.loop ≠ .notifying → (u.pending, u.calls) = (s.pending, s.calls) →
      ∀ w ∈ s.waiters, w.phase = .sleeping → w.notified = false →
        anyPending u.pending w.paths = true ∨ u.Announces := by
    intro u hloop hu w hw hsleeps hno
    obtain ⟨hpending, hcalls⟩ := Prod.mk.inj hu
    rw [hpending, State.Announces, hcalls]
    exact (h.sleeping w hw hsleeps hno).imp_right fun hnext => .inr (hnext.resolve_left hloop)
  have hall := hstep
  cases hstep with
  | register path =>
    refine h.congr hflight hall hsame fun w hw hphase hno => ?_
    exact (h.sleeping w hw hphase hno).imp (anyPending_register path)
      fun hnext => hnext.mono rfl (subset_append_left _ _)
  | send i c hcall hphase =>
    refine h.congr hflight hall hsame fun w hw hsleeps hno => ?_
    exact (h.sleeping w hw hsleeps hno).imp_right fun hnext =>
      hnext.setPhase .enqueued hcall (by rw [hphase]; exact nofun)
  | refuse i c hcall hphase =>
    refine h.congr hflight hall hsame fun w hw hsleeps hno => ?_
    exact (h.sleeping w hw hsleeps hno).imp_right fun hnext =>
      hnext.setPhase .refused hcall (by rw [hphase]; exact nofun)
  | giveUp i c hcall =>
    refine h.congr hflight hall hsame fun w hw _ _ => .inr (.inr ?_)
    exact ⟨_, mem_of_getElem? (getElem?_setPhase_self .released hcall), rfl⟩
  | report | notify =>
    refine h.congr hflight hall (fun w hw => (hnotified w hw).1) fun w hw _ hno => ?_
    rw [(hnotified w hw).2] at hno
    cases hno
  | receive i rest hloop =>
    exact h.congr hflight hall hsame (hquiet (by rw [hloop]; exact nofun) rfl)
  | land i c target hloop =>
    exact h.congr hflight hall hsame (hquiet (by rw [hloop]; exact nofun) rfl)
  | fail i hloop => exact h.congr hflight hall hsame (hquiet (by rw [hloop]; exact nofun) rfl)
  | finish =>
    exact h.congr hflight hall hsame fun w hw _ _ => .inr (.inl rfl)
  | close hloop => exact h.congr hflight hall hsame (hquiet hloop rfl)
  | wait =>
    have hnew : ∀ i ∈ s.enqueuedCalls, ∃ c, s.calls[i]? = some c ∧ c.phase.wasEnqueued = true := by
      intro i hi
      have hany := (mem_filter.mp hi).2
      cases hc : s.calls[i]? with
      | none =>
        rw [hc] at hany
        cases hany
      | some c =>
        rw [hc] at hany
        exact ⟨c, rfl, hany⟩
    constructor
    · intro w hw
      rcases mem_append.mp hw with hw | hw
      · exact h.known w hw
      · rw [mem_singleton.mp hw]
        exact hnew
    · intro w hw hphase
      rcases mem_append.mp hw with hw | hw
      · exact h.returned w hw hphase
      · rw [mem_singleton.mp hw] at hphase
        cases hphase
    · intro w hw hphase
      rcases mem_append.mp hw with hw | hw
      · exact h.sleeping w hw hphase
      · rw [mem_singleton.mp hw] at hphase
        cases hphase
  | check j w hwaiter =>
    have hw := mem_of_getElem? hwaiter
    constructor
    · intro w' hw'
      rcases mem_or_eq_of_mem_set hw' with hw' | rfl
      · exact h.known w' hw'
      · exact h.known w hw
    · intro w' hw' hreturned
      rcases mem_or_eq_of_mem_set hw' with hw' | rfl
      · exact h.returned w' hw' hreturned
      · intro i hi c hc hpath
        have hnone : ¬ anyPending s.pending w.paths = true := by
          intro hyes
          rw [State.checkWaiter, if_pos hyes] at hreturned
          cases hreturned
        obtain ⟨c₀, hc₀, hwas⟩ := h.known w hw i hi
        have heq : c₀ = c := Option.some.inj (hc₀.symm.trans hc)
        exact hcounted.finished hnone hc (heq ▸ hwas) hpath
    · intro w' hw' hsleeping hno
      rcases mem_or_eq_of_mem_set hw' with hw' | rfl
      · exact h.sleeping w' hw' hsleeping hno
      · refine .inl (by_contra fun hnone => ?_)
        have hclear : ¬ anyPending s.pending w.paths = true := hnone
        rw [State.checkWaiter, if_neg hclear] at hsleeping
        cases hsleeping
  | wake j w hwaiter =>
    have hw := mem_of_getElem? hwaiter
    constructor
    · intro w' hw'
      rcases mem_or_eq_of_mem_set hw' with hw' | rfl
      · exact h.known w' hw'
      · exact h.known w hw
    · intro w' hw' hreturned
      rcases mem_or_eq_of_mem_set hw' with hw' | rfl
      · exact h.returned w' hw' hreturned
      · cases hreturned
    · intro w' hw' hsleeping
      rcases mem_or_eq_of_mem_set hw' with hw' | rfl
      · exact h.sleeping w' hw' hsleeping
      · cases hsleeping

/-! ### Reachable states -/

/-- All invariants of the writer. -/
structure Inv (resolve : P → Option P) (s : State P D) : Prop where
  counted : Counted s
  flight : Flight s
  landed : Landed resolve s
  waiting : Waiting s

theorem Reachable.inv {resolve : P → Option P} {capacity : ℕ} {s : State P D}
    (h : Reachable resolve capacity s) : Inv resolve s := by
  induction h with
  | refl =>
    exact ⟨⟨fun _ => rfl, rfl⟩, ⟨nodup_nil, fun _ hi => nomatch hi⟩,
      ⟨fun _ _ hloop => (nomatch hloop), fun _ _ hc => (nomatch hc)⟩,
      ⟨fun _ hw => (nomatch hw), fun _ hw => (nomatch hw), fun _ hw => (nomatch hw)⟩⟩
  | tail _ hstep ih =>
    exact ⟨ih.counted.step ih.flight hstep, ih.flight.step hstep, ih.landed.step ih.flight hstep,
      ih.waiting.step ih.counted ih.flight hstep⟩

theorem exists_open_of_pending {s : State P D} (h : Counted s) {paths : List P}
    (hpending : anyPending s.pending paths = true) :
    ∃ c ∈ s.calls, c.targetPath ∈ paths ∧ c.phase.isOpen = true := by
  obtain ⟨p, hp, hsome⟩ := any_eq_true.mp hpending
  have hpositive : 0 < s.openCount p := by
    rw [Nat.pos_iff_ne_zero]
    intro hzero
    rw [h.pending, tally, if_pos hzero] at hsome
    cases hsome
  obtain ⟨c, hc, hopen⟩ := countP_pos_iff.mp hpositive
  rw [Bool.and_eq_true, decide_eq_true_eq] at hopen
  exact ⟨c, hc, hopen.1 ▸ hp, hopen.2⟩

/-- A step that closes a write announces a notification, and an announcement stands until all
readers are notified. -/
theorem announces_of_step {resolve : P → Option P} {capacity : ℕ} {s t : State P D}
    (hstep : Step resolve capacity s t) :
    (∀ path, t.openCount path < s.openCount path → t.Announces) ∧
      (s.Announces → t.Announces ∨ ∀ w ∈ t.waiters, w.notified = true) := by
  have hnotified : ∀ w ∈ s.waiters.map fun w => { w with notified := true },
      w.notified = true := by
    intro w hw
    obtain ⟨_, -, rfl⟩ := mem_map.mp hw
    rfl
  have hsame : ∀ {u : State P D}, s.loop ≠ .notifying → u.calls = s.calls →
      (∀ path, u.openCount path < s.openCount path → u.Announces) ∧
        (s.Announces → u.Announces ∨ ∀ w ∈ u.waiters, w.notified = true) := by
    intro u hloop hcalls
    rw [State.Announces, hcalls]
    refine ⟨fun path hlt => ?_, fun h => .inl (.inr (h.resolve_left hloop))⟩
    rw [State.openCount, hcalls] at hlt
    exact absurd hlt (Nat.lt_irrefl _)
  cases hstep with
  | register path data =>
    constructor
    · intro p hlt
      have hle : s.openCount p ≤ (s.calls ++ [WriteCall.mk path data .registered]).countP
          (fun c => decide (c.targetPath = p) && c.phase.isOpen) := by
        rw [countP_append]
        exact Nat.le_add_right _ _
      exact absurd hlt (Nat.not_lt.mpr hle)
    · exact fun h => .inl (h.mono rfl (subset_append_left _ _))
  | send i c hcall hphase =>
    constructor
    · intro p hlt
      have hcount := openCount_setPhase_same .enqueued hcall (by rw [hphase]; rfl) p
      exact absurd hlt (Nat.not_lt.mpr (Nat.le_of_eq hcount.symm))
    · exact fun h => .inl (h.setPhase .enqueued hcall (by rw [hphase]; exact nofun))
  | refuse i c hcall hphase =>
    constructor
    · intro p hlt
      have hcount := openCount_setPhase_same .refused hcall (by rw [hphase]; rfl) p
      exact absurd hlt (Nat.not_lt.mpr (Nat.le_of_eq hcount.symm))
    · exact fun h => .inl (h.setPhase .refused hcall (by rw [hphase]; exact nofun))
  | giveUp i c hcall =>
    have hnext : ((s.setPhase i .released).release c.targetPath).Announces :=
      .inr ⟨_, mem_of_getElem? (getElem?_setPhase_self .released hcall), rfl⟩
    exact ⟨fun _ _ => hnext, fun _ => .inl hnext⟩
  | report i c hcall hphase =>
    refine ⟨fun p hlt => ?_, fun _ => .inr hnotified⟩
    have hcount := openCount_setPhase_same .failed hcall (by rw [hphase]; rfl) p
    exact absurd hlt (Nat.not_lt.mpr (Nat.le_of_eq hcount.symm))
  | receive i rest hloop => exact hsame (by rw [hloop]; exact nofun) rfl
  | land i c target hloop => exact hsame (by rw [hloop]; exact nofun) rfl
  | fail i hloop => exact hsame (by rw [hloop]; exact nofun) rfl
  | finish => exact ⟨fun _ _ => .inl rfl, fun _ => .inl (.inl rfl)⟩
  | notify =>
    exact ⟨fun p hlt => absurd hlt (Nat.lt_irrefl _), fun _ => .inr hnotified⟩
  | close hloop => exact hsame hloop rfl
  | wait => exact ⟨fun p hlt => absurd hlt (Nat.lt_irrefl _), fun h => .inl h⟩
  | check | wake =>
    exact ⟨fun p hlt => absurd hlt (Nat.lt_irrefl _), fun h => .inl h⟩

/-- A reader that sleeps and was not notified waits for an open write to one of its paths, whose
release announces a notification, or for an announced one, which stands until all readers are
notified. -/
theorem exists_open_of_sleeping {resolve : P → Option P} {capacity : ℕ} {s : State P D}
    (h : Reachable resolve capacity s) {w : Waiter P} (hw : w ∈ s.waiters)
    (hphase : w.phase = .sleeping) (hno : w.notified = false) :
    ((∃ c ∈ s.calls, c.targetPath ∈ w.paths ∧ c.phase.isOpen = true) ∨ s.Announces) ∧
      ∀ t, Step resolve capacity s t →
        (∀ path, t.openCount path < s.openCount path → t.Announces) ∧
        (s.Announces → t.Announces ∨ ∀ w ∈ t.waiters, w.notified = true) := by
  refine ⟨?_, fun t hstep => announces_of_step hstep⟩
  exact (h.inv.waiting.sleeping w hw hphase hno).imp_left (exists_open_of_pending h.inv.counted)

/-- In every reachable state the count of each path is the number of its
registered writes that are neither finished nor failed to enqueue, no count was
to fall below zero, and every write to a path of a reader that has returned, if
it was enqueued before the reader was called, has been written or has failed. -/
theorem no_torn_read {resolve : P → Option P} {capacity : ℕ} {s : State P D}
    (h : Reachable resolve capacity s) :
    (∀ path, (s.pending.get path).getD 0 =
      s.calls.countP fun c => decide (c.targetPath = path) && c.phase.isOpen) ∧
    s.underflow = false ∧
    ∀ w ∈ s.waiters, w.phase = .returned → ∀ i ∈ w.enqueued, ∃ c, s.calls[i]? = some c ∧
      (c.targetPath ∈ w.paths → c.phase = .finished false ∨
        c.phase = .finished true ∧ Written resolve s c) := by
  have hinv := h.inv
  refine ⟨fun path => ?_, hinv.counted.noUnderflow, ?_⟩
  · rw [hinv.counted.pending, tally]
    split_ifs with hzero
    · exact hzero.symm
    · rfl
  · intro w hw hreturned i hi
    obtain ⟨c, hc, -⟩ := hinv.waiting.known w hw i hi
    refine ⟨c, hc, fun hpath => ?_⟩
    obtain ⟨landed, hfinished⟩ := hinv.waiting.returned w hw hreturned i hi c hc hpath
    cases landed with
    | false => exact .inl hfinished
    | true => exact .inr ⟨hfinished, hinv.landed.finished i c hc hfinished⟩

/-- The writer after one write whose reader has returned. -/
def oneWrite : State (List Char) (List Char) where
  pending := .empty
  calls := [⟨['a'], ['x'], .finished true⟩]
  channel := []
  loop := .receiving
  waiters := [⟨[['a']], [0], true, .returned⟩]
  landed := [(['a'], ['x'])]
  writesCompleted := 1
  writesFailed := 0
  underflow := false

theorem oneWrite_reachable : Reachable some 1 oneWrite := by
  have henqueued := (Relation.ReflTransGen.refl (r := Step some 1) (a := State.start)).tail
    (.register _ ['a'] ['x']) |>.tail (.send _ 0 _ rfl rfl nofun (by decide))
  have hlanded := henqueued.tail (.wait _ [['a']]) |>.tail (.receive _ 0 [] rfl rfl)
    |>.tail (.land _ 0 _ ['a'] rfl rfl rfl)
  have hfinished := hlanded.tail (.finish _ 0 _ true rfl rfl) |>.tail (.notify _ rfl)
  have hreturned := hfinished.tail (.check _ 0 ⟨[['a']], [0], true, .armed⟩ rfl rfl)
  exact hreturned

/-- The awaited write is written. -/
theorem no_torn_read_oneWrite : ∃ c, oneWrite.calls[0]? = some c ∧
    ([['a']].contains c.targetPath → c.phase = .finished false ∨
      c.phase = .finished true ∧ Written some oneWrite c) := by
  obtain ⟨-, -, hreturned⟩ := no_torn_read oneWrite_reachable
  obtain ⟨c, hc, hdone⟩ := hreturned _ (mem_singleton_self _) rfl 0 (mem_singleton_self _)
  exact ⟨c, hc, fun hpath => hdone (contains_iff_mem.mp hpath)⟩

/-- A reader sleeps while the write to its path is released and not announced yet. -/
theorem exists_open_of_sleeping_released : ∃ s : State (List Char) (List Char),
    Reachable some 1 s ∧ (∀ c ∈ s.calls, c.phase.isOpen = false) ∧
      ∀ t, Step some 1 s t → t.Announces ∨ ∀ w ∈ t.waiters, w.notified = true := by
  have henqueued := (Relation.ReflTransGen.refl (r := Step some 1) (a := State.start)).tail
    (.register _ ['a'] ['x']) |>.tail (.send _ 0 _ rfl rfl nofun (by decide))
  have hasleep := henqueued.tail (.wait _ [['a']]) |>.tail
    (.check _ 0 ⟨[['a']], [0], false, .armed⟩ rfl rfl)
  have hreleased := hasleep.tail (.receive _ 0 [] rfl rfl) |>.tail
    (.land _ 0 _ ['a'] rfl rfl rfl) |>.tail (.finish _ 0 _ true rfl rfl)
  obtain ⟨hwaker, hsteps⟩ := exists_open_of_sleeping (w := ⟨[['a']], [0], false, .sleeping⟩)
    hreleased (mem_singleton_self _) rfl rfl
  have hclosed : ∀ c ∈ [WriteCall.mk ['a'] ['x'] (.finished true)], c.phase.isOpen = false := by
    intro c hc
    rw [mem_singleton.mp hc]
    rfl
  have hannounced := by
    refine hwaker.resolve_left ?_
    rintro ⟨c, hc, -, hopen⟩
    exact Bool.false_ne_true ((hclosed c hc).symm.trans hopen)
  exact ⟨_, hreleased, hclosed, fun t hstep => (hsteps t hstep).2 hannounced⟩

end OxyMake.DiskWriter
