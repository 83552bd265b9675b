import Mathlib.Data.Set.Insert
import OxyMake.Counting
import OxyMake.LabelledRuns
import OxyMake.Observation

/-!
# An abstract net of dependent jobs

The net keeps one status and one counter per job and says where each job that
is not finished currently is: offered in the frontier, in the hand of the
dispatcher, in flight, or parked behind another session. Every rule writes at
most one status. The rules say what the scheduler is for; the executable model
is shown to run by them.
-/

namespace OxyMake.DependencyNet

open Counting Observation

variable {J : Type*} [DecidableEq J]

/-- A finite acyclic dependency relation, given from both sides. -/
structure Wiring (J : Type*) where
  nodes : List J
  up : J → List J
  down : J → List J
  /-- No upstream job is listed twice. -/
  up_nodup : ∀ j, (up j).Nodup
  /-- Upstream jobs belong to the net. -/
  up_mem : ∀ {u d}, u ∈ up d → u ∈ nodes
  /-- Downstream jobs belong to the net. -/
  down_mem : ∀ {u d}, d ∈ down u → d ∈ nodes
  adjoint : ∀ {u d}, u ∈ nodes → d ∈ nodes → (u ∈ up d ↔ d ∈ down u)
  rank : J → ℕ
  rank_lt : ∀ {u d}, d ∈ nodes → u ∈ up d → rank u < rank d

/-- How one attempt of a job ends. -/
inductive Verdict
  | success
  | again
  | failure (message : String)
  deriving DecidableEq, Repr

/-- Restrictions under which a net runs. -/
structure Discipline (J : Type*) where
  stop : Prop
  hit : Prop
  park : Prop
  /-- A job may be rejected before its launch, given the current statuses. -/
  reject : (J → Option JobLifecycle) → J → Prop
  /-- Possible ends of the numbered attempts of a job. -/
  verdict : J → ℕ → Verdict → Prop

structure Net (J : Type*) where
  status : J → Option JobLifecycle
  count : J → Option ℕ
  front : Set J
  /-- Jobs taken from the frontier and not yet decided upon. -/
  hand : Set J
  flight : Set J
  parked : Set J
  todo : Set J
  tries : J → ℕ
  stopping : Bool
  closed : Bool

namespace Net

def write (s : Net J) (j : J) (st : JobLifecycle) : Net J :=
  { s with status := Function.update s.status j (some st) }

/-- Count down the pending jobs behind a satisfied one and offer those that
reach zero. -/
def promoted (W : Wiring J) (s : Net J) (j : J) : Net J :=
  { s with
    count := fun x =>
      if x ∈ W.down j ∧ s.status x = some .pending then (s.count x).map (· - 1) else s.count x
    front := {x | x ∈ s.front ∨
      (x ∈ W.down j ∧ s.status x = some .pending ∧ ∃ c, s.count x = some c ∧ c - 1 = 0)} }

/-- An attempt of the job ends here or elsewhere and the job leaves its place. -/
def Settles (s : Net J) (j : J) (flight parked : Set J) : Prop :=
  (j ∈ s.flight ∧ s.status j = some .running ∧ flight = s.flight \ {j} ∧ parked = s.parked) ∨
    (j ∈ s.parked ∧ s.status j = some .pending ∧ flight = s.flight ∧ parked = s.parked \ {j})

/-- A set of jobs still to be visited after the cancellation of a job. -/
def Spreads (W : Wiring J) (s : Net J) (j : J) (rest : Set J) : Prop :=
  (∀ d ∈ s.todo, d ≠ j → d ∈ rest) ∧ (∀ d ∈ rest, d ∈ s.todo ∨ d ∈ W.down j) ∧
    ∀ d ∈ W.down j, d ∈ rest ∨ terminal (s.status d) = true

end Net

open Net

/-- The rules of the net, labelled with the status they write. -/
inductive Fire (W : Wiring J) (D : Discipline J) :
    Net J → Option (J × JobLifecycle) → Net J → Prop
  | drain {s : Net J} : s.closed = false → s.hand = ∅ →
      Fire W D s none { s with front := ∅, hand := s.front }
  | drop {s : Net J} {j : J} : j ∈ s.hand → s.status j ≠ some .pending →
      s.status j ≠ some .ready →
      Fire W D s none { s with hand := s.hand \ {j} }
  | putBack {s : Net J} {j : J} : j ∈ s.hand → s.status j = some .pending →
      Fire W D s none { s with front := insert j s.front, hand := s.hand \ {j} }
  | arm {s : Net J} {j : J} : j ∈ s.hand → s.status j = some .pending →
      Fire W D s (some (j, .ready)) (s.write j .ready)
  | reject {s : Net J} {j : J} : j ∈ s.hand → s.status j = some .pending → D.reject s.status j →
      Fire W D s (some (j, .cancelled)) { s.write j .cancelled with hand := s.hand \ {j} }
  | hit {s : Net J} {j : J} : D.hit → j ∈ s.hand → s.status j = some .ready →
      Fire W D s (some (j, .skipped))
        (promoted W { s.write j .skipped with hand := s.hand \ {j} } j)
  | park {s : Net J} {j : J} : D.park → j ∈ s.hand → s.status j = some .ready →
      Fire W D s (some (j, .pending))
        { s.write j .pending with hand := s.hand \ {j}, parked := insert j s.parked }
  | defer {s : Net J} {j : J} : j ∈ s.hand → s.status j = some .ready →
      Fire W D s (some (j, .pending))
        { s.write j .pending with front := insert j s.front, hand := s.hand \ {j} }
  | launch {s : Net J} {j : J} : j ∈ s.hand → s.status j = some .ready →
      Fire W D s (some (j, .running))
        { s.write j .running with hand := s.hand \ {j}, flight := insert j s.flight }
  | stop {s : Net J} : D.stop → Fire W D s none { s with stopping := true }
  | abandon {s : Net J} : s.stopping = true → (∀ j ∈ s.hand, s.status j = some .ready) →
      Fire W D s none { s with hand := ∅ }
  | unpark {s : Net J} {j : J} : j ∈ s.parked → s.status j ≠ some .pending →
      Fire W D s none { s with parked := s.parked \ {j} }
  | unclaim {s : Net J} {j : J} : j ∈ s.parked → s.status j = some .pending →
      Fire W D s none { s with front := insert j s.front, parked := s.parked \ {j} }
  | succeed {s : Net J} {j : J} {flight parked : Set J} : s.Settles j flight parked →
      D.verdict j (s.tries j + 1) .success →
      Fire W D s (some (j, .succeeded))
        (promoted W { s.write j .succeeded with flight := flight, parked := parked } j)
  | again {s : Net J} {j : J} {flight parked : Set J} : s.Settles j flight parked →
      D.verdict j (s.tries j + 1) .again →
      Fire W D s (some (j, .pending))
        { s.write j .pending with
          front := insert j s.front, flight := flight, parked := parked,
          tries := Function.update s.tries j (s.tries j + 1) }
  | fail {s : Net J} {j : J} {flight parked : Set J} {message : String} {rest : Set J} {n : ℕ} :
      s.Settles j flight parked → D.verdict j (s.tries j + 1) (.failure message) →
      s.Spreads W j rest →
      Fire W D s (some (j, .failed message))
        { s.write j (.failed message) with
          flight := flight, parked := parked, todo := rest,
          tries := Function.update s.tries j n }
  | discard {s : Net J} {j : J} : j ∈ s.flight → s.status j = some .cancelled →
      Fire W D s none { s with flight := s.flight \ {j} }
  | mirror {s : Net J} {j : J} {rest : Set J} : j ∈ s.parked → s.status j = some .pending →
      s.Spreads W j rest →
      Fire W D s (some (j, .cancelled))
        { s.write j .cancelled with parked := s.parked \ {j}, todo := rest }
  | cancelIdle {s : Net J} {j : J} {rest : Set J} : j ∈ s.todo → j ∉ s.hand →
      s.status j = some .pending ∨ s.status j = some .ready → s.Spreads W j rest →
      Fire W D s (some (j, .cancelled))
        { s.write j .cancelled with front := s.front \ {j}, todo := rest }
  | cancelActive {s : Net J} {j : J} {rest : Set J} : j ∈ s.todo →
      s.status j = some .running → s.Spreads W j rest →
      Fire W D s (some (j, .cancelled)) { s.write j .cancelled with todo := rest }
  | visit {s : Net J} {j : J} : j ∈ s.todo → unfinished (s.status j) = false →
      Fire W D s none { s with todo := s.todo \ {j} }
  | interrupt {s : Net J} {j : J} : s.stopping = true → j ∈ s.flight →
      Fire W D s (some (j, .cancelled)) (s.write j .cancelled)
  | close {s : Net J} {j : J} : s.stopping = true → s.flight = ∅ → s.hand = ∅ →
      s.status j = some .pending ∨ s.status j = some .ready →
      Fire W D s (some (j, .cancelled)) { s.write j .cancelled with closed := true }

def unsat (W : Wiring J) (status : J → Option JobLifecycle) (j : J) : ℕ :=
  (W.up j).countP fun u => !satisfied (status u)

omit [DecidableEq J] in
/-- No dependency is open when the number of open ones is zero. -/
theorem unsat_eq_zero {W : Wiring J} {status : J → Option JobLifecycle} {j : J} :
    unsat W status j = 0 ↔ ∀ u ∈ W.up j, satisfied (status u) = true := by
  simp [unsat, List.countP_eq_zero]

/-- Writing a status that is not satisfied over one that is not leaves the open
dependencies as they are. -/
theorem unsat_update {W : Wiring J} {status : J → Option JobLifecycle} {k : J}
    {st : JobLifecycle} (hk : satisfied (status k) = false) (hst : st.isSatisfied = false) (j : J) :
    unsat W (Function.update status k (some st)) j = unsat W status j := by
  refine List.countP_congr fun u _ => ?_
  by_cases hu : u = k
  · subst hu; simp [hk, hst]
  · simp [hu]

/-- Satisfying a job closes one dependency of each job behind it. -/
theorem unsat_satisfy {W : Wiring J} {status : J → Option JobLifecycle} {k : J}
    {st : JobLifecycle} (hk : satisfied (status k) = false) (hst : st.isSatisfied = true) (j : J) :
    unsat W status j =
      unsat W (Function.update status k (some st)) j + if k ∈ W.up j then 1 else 0 := by
  refine countP_flip (W.up_nodup j) ?_ ?_ fun a ha => ?_
  · simp [hk]
  · simp [hst]
  · simp [ha]

/-- Each rule changes the statuses as its label says. -/
theorem Fire.status_eq {W : Wiring J} {D : Discipline J} {s t : Net J}
    {label : Option (J × JobLifecycle)} (h : Fire W D s label t) :
    t.status = replay s.status label.toList := by
  cases h <;> rfl

end OxyMake.DependencyNet
