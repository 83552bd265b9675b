import OxyMake.DependencySafety
import OxyMake.LoopFrames

/-!
# No run gets stuck

When nothing is in flight, parked or waiting for a retry, a run that has not
finished offers a job that can be dispatched. Two things break this: a rejected
gate cancels its job without cancelling what lies behind it, and a snapshot can
record a failed or cancelled job whose downstream jobs are still to be run.
-/

namespace OxyMake.NoStuckRun

open PhysicalGraph Observation SchedulingFrontier SchedulerLoop FrontierInitialisation
open DependencyNet NetInvariants CompletionRefinement LoopRefinement LoopFrames DependencySafety

variable {x : Setup}

/-- The snapshot records the job as failed or cancelled. -/
def recordedBroken (config : SchedulerConfig) (id : JobId) : Bool :=
  config.resumeSnapshot.any fun snapshot => broken (snapshot.statuses id)

/-- Behind a job that is recorded as failed or cancelled and not skip-listed,
every job is skip-listed or recorded as finished. -/
def SnapshotClosed (x : Setup) : Prop :=
  ∀ id ∈ x.topo.order, id ∉ x.config.skipJobs → recordedBroken x.config id = true →
    ∀ d ∈ x.graph.downstream id, d ∈ x.config.skipJobs ∨ recordedTerminal x.config d = true

/-- Gates reject only offered jobs behind which everything is finished. -/
def rejectsClosed (x : Setup) : Conduct where
  pass s a := ∀ id ∈ s.frontier.readyFrontier, Rejected x a id →
    ∀ d ∈ x.graph.downstream id, terminal (s.frontier.statuses d) = true
  await _ _ := True

def propagating (x : Setup) : Discipline JobId :=
  { freely with reject := fun status id =>
      ∀ d ∈ x.graph.downstream id, terminal (status d) = true }

theorem obeys_propagating (x : Setup) : Obeys x (rejectsClosed x) (propagating x) where
  shutdown _ := trivial
  failure _ := trivial
  park _ := trivial
  hit _ _ _ := trivial
  reject hpass hid hrejected f hkeeps d hd := by
    have hterm := hpass _ hid hrejected d hd
    rw [hkeeps d hterm]
    exact hterm
  peer _ _ _ _ _ := trivial
  completed _ _ := trivial

theorem recordedBroken_of_base {id : JobId} (h : broken
    ((Frontier.base x.topo.order x.graph x.config x.budget).statuses id) = true) :
    id ∈ x.topo.order ∧ recordedBroken x.config id = true := by
  unfold Frontier.base at h
  unfold recordedBroken
  cases hsnap : x.config.resumeSnapshot with
  | none =>
    rw [hsnap] at h
    by_cases hid : id ∈ x.topo.order <;> simp [Frontier.new, hid, JobLifecycle.isBroken] at h
  | some snapshot =>
    rw [hsnap] at h
    by_cases hid : id ∈ x.topo.order
    · simp only [Frontier.resume, hid, if_true, Frontier.adopted] at h
      refine ⟨hid, ?_⟩
      cases hrec : snapshot.statuses id with
      | none => simp [hrec, JobLifecycle.isBroken] at h
      | some st =>
        rw [hrec] at h
        cases st <;> simp_all [JobLifecycle.isBroken, JobLifecycle.isTerminal]
    · simp [Frontier.resume, hid] at h

theorem initial_propagated (hclosed : SnapshotClosed x) :
    Propagated (wiring x.topo) (loopNet (initial x) ∅ false) := by
  intro _ u hu d hd
  left
  have hstatus : ∀ id, (loopNet (initial x) ∅ false).status id =
      if id ∈ x.config.skipJobs ∧ id ∈ x.topo.order then some .skipped
      else (Frontier.base x.topo.order x.graph x.config x.budget).statuses id :=
    init_statuses x.topo x.config x.budget
  have hdorder : d ∈ x.topo.order := (wiring x.topo).down_mem hd
  rw [hstatus] at hu
  split at hu
  · cases hu
  · next hskip =>
    obtain ⟨huorder, hrecorded⟩ := recordedBroken_of_base hu
    have hunskipped : u ∉ x.config.skipJobs := fun h => hskip ⟨h, huorder⟩
    by_contra hterm
    have hun := (initial_placed x).unfinished_of_not_terminal hdorder hterm
    have hpending := init_unfinished x.topo x.config x.budget hun
    obtain ⟨-, hdskip, hdrec⟩ := (init_pending x.topo x.config x.budget d).mp hpending
    obtain h | h := hclosed u huorder hunskipped hrecorded d hd
    · exact hdskip h
    · rw [hdrec] at h
      cases h

/-- A job that the next iteration can launch. -/
structure Dispatchable (x : Setup) (s : LoopState) (id : JobId) : Prop where
  /-- The run is not winding down. -/
  going : s.terminateRequested = false
  offered : id ∈ s.frontier.readyFrontier
  pending : s.frontier.statuses id = some .pending
  /-- No retry deadline holds it back. -/
  due : s.frontier.retryReadyAt id = none
  upstream : ∀ up ∈ x.graph.upstream id, satisfied (s.frontier.statuses up) = true
  room : s.frontier.resourceBudget.fitsUnits (x.demands id) = true
  slot : s.permitHeld.length < x.config.maxJobs

def Finished (x : Setup) (s : LoopState) : Prop :=
  ∀ id ∈ x.topo.order, terminal (s.frontier.statuses id) = true

/-- A point is not stuck: when nothing is in flight, parked or waiting for a
retry, the run is finished, a job can be dispatched, or the run is winding down
and its next iteration finishes it. -/
def Unstuck (x : Setup) (p : Point) : Prop :=
  p.state.inFlight = [] → p.state.peerWaits = [] →
  (∀ id, p.state.frontier.statuses id = some .pending → p.state.frontier.retryReadyAt id = none) →
    Finished x p.state ∨ (∃ id, Dispatchable x p.state id) ∨
      ∃ s, p = .head s ∧ s.terminateRequested = true ∧
        ∀ a, ∃ s', pass x a s = .returned s' ∧ Finished x s'

theorem cancelRemaining_statuses (s : LoopState) {id : JobId} (hid : id ∈ x.topo.order) :
    (cancelRemaining x s).frontier.statuses id =
      if s.frontier.statuses id = some .pending ∨ s.frontier.statuses id = some .ready then
        some .cancelled
      else s.frontier.statuses id := by
  have hfold : ∀ (ids : List JobId) (f : Frontier), (ids.foldl (fun f id =>
      (f.setStatus id .cancelled).note
        [.event (.jobCancelled id "run terminated due to failure")]) f).statuses id =
      if id ∈ ids then some .cancelled else f.statuses id := by
    intro ids
    induction ids with
    | nil => simp
    | cons k ids ih =>
      intro f
      rw [List.foldl_cons, ih]
      by_cases hk : id = k
      · subst hk
        simp
      · simp [hk]
  unfold cancelRemaining
  dsimp only
  rw [hfold]
  simp only [List.mem_filter, (x.topo.mem_iff id).mp hid, true_and, decide_eq_true_eq]
  rfl

theorem exitTests_returned {m s : LoopState} {skipped : Bool}
    (h : exitTests x m skipped = .returned s) : s.inFlight = [] ∧
      ∀ id ∈ x.topo.order, s.frontier.statuses id ≠ some .pending ∧
        s.frontier.statuses id ≠ some .ready := by
  unfold exitTests at h
  split at h
  · next hall =>
    cases h
    refine ⟨hall.2, fun id hid => ?_⟩
    have hterm : terminal (m.frontier.statuses id) = true := List.all_eq_true.mp hall.1 id hid
    constructor <;> intro hst <;> change m.frontier.statuses id = _ at hst <;>
      rw [hst] at hterm <;> cases hterm
  · split at h
    · next hstop =>
      cases h
      refine ⟨hstop.2, fun id hid => ?_⟩
      have hst := cancelRemaining_statuses (x := x) m hid
      change (cancelRemaining x m).frontier.statuses id ≠ _ ∧
        (cancelRemaining x m).frontier.statuses id ≠ _
      rw [hst]
      split
      · exact ⟨by simp, by simp⟩
      · next hnot => exact ⟨fun h => hnot (.inl h), fun h => hnot (.inr h)⟩
    · split at h
      · next hnone =>
        cases h
        refine ⟨hnone.2, fun id hid => ?_⟩
        have hfree := List.any_eq_false.mp hnone.1 id hid
        simp only [decide_eq_true_eq, not_or] at hfree
        exact hfree
      · cases h

theorem pass_exitTests (a : Answers) (s : LoopState) :
    ∃ m skipped, pass x a s = exitTests x m skipped := by
  unfold SchedulerLoop.pass
  dsimp only
  split
  · exact ⟨_, _, rfl⟩
  · exact ⟨_, _, rfl⟩

theorem waiting_going {c : Conduct} {s : LoopState} {skipped : Bool}
    (h : Reachable x c (.waiting s skipped)) (hflight : s.inFlight = []) :
    s.terminateRequested = false := by
  generalize hp : Point.waiting s skipped = p at h
  cases h with
  | start => cases hp
  | @pass s₀ a _ _ =>
    obtain ⟨m, _, he⟩ := pass_exitTests (x := x) a s₀
    rw [he] at hp
    unfold exitTests at hp
    split at hp
    · cases hp
    · split at hp
      · cases hp
      · next hgoing =>
        split at hp
        · cases hp
        · cases hp
          cases hstop : m.terminateRequested with
          | false => exact hstop
          | true => exact absurd ⟨hstop, hflight⟩ hgoing
  | await _ _ hq =>
    subst hp
    cases await_cases x hq

theorem aborted_flying {c : Conduct} {s : LoopState} (h : Reachable x c (.aborted s)) :
    s.inFlight ≠ [] := by
  generalize hp : Point.aborted s = p at h
  cases h with
  | start => cases hp
  | @pass s₀ a _ _ =>
    obtain ⟨m, _, he⟩ := pass_exitTests (x := x) a s₀
    rw [he] at hp
    unfold exitTests at hp
    split at hp
    · cases hp
    · split at hp
      · cases hp
      · split at hp <;> cases hp
  | await _ _ hq =>
    subst hp
    cases await_cases x hq with
    | taskFailed hid => exact List.ne_nil_of_mem hid

theorem returned_finished {c : Conduct} {s : LoopState} (h : Reachable x c (.returned s)) :
    Finished x s := by
  obtain ⟨closed, _, hlinked⟩ := reachable_linked (obeys_freely x c) h
  have hplaced : Placed (wiring x.topo) (loopNet s ∅ closed) :=
    hlinked.run.invariant (Placed (wiring x.topo)) (fun _ _ _ hs hfire => hs.fire hfire)
      (initial_placed x)
  have hidle : s.inFlight = [] ∧ ∀ id ∈ x.topo.order, s.frontier.statuses id ≠ some .pending ∧
      s.frontier.statuses id ≠ some .ready := by
    generalize hp : Point.returned s = p at h
    cases h with
    | start => cases hp
    | @pass s₀ a _ _ =>
      obtain ⟨m, skipped, he⟩ := pass_exitTests (x := x) a s₀
      exact exitTests_returned (he.symm.trans hp.symm)
    | await _ _ hq =>
      subst hp
      cases await_cases x hq
  intro id hid
  obtain ⟨st, hst⟩ := Option.isSome_iff_exists.mp ((hplaced.known id).mpr hid)
  have hst : s.frontier.statuses id = some st := hst
  obtain ⟨hpending, hready⟩ := hidle.2 id hid
  cases st with
  | pending => exact absurd hst hpending
  | ready => exact absurd hst hready
  | running =>
    have hfly : id ∈ s.inFlight := hplaced.running id hst
    rw [hidle.1] at hfly
    cases hfly
  | succeeded | failed | skipped | cancelled => rw [hst]; rfl

/-- Every run whose rejections and snapshot are closed and which has a slot is
never stuck: it returns finished, no job waits behind a failed or cancelled one
while the run goes on, and every point without work under way is unstuck. -/
theorem reachable_unstuck (hslot : 1 ≤ x.config.maxJobs) (hclosed : SnapshotClosed x) {p : Point}
    (h : Reachable x (rejectsClosed x) p) :
    (∀ s, p = .returned s → Finished x s) ∧
    (p.state.terminateRequested = false → ∀ id ∈ x.topo.order,
      terminal (p.state.frontier.statuses id) = false →
        ∀ up ∈ x.graph.upstream id, broken (p.state.frontier.statuses up) = false) ∧
    Unstuck x p := by
  have hreturned : ∀ s, p = .returned s → Finished x s := by
    rintro s rfl
    exact returned_finished h
  obtain ⟨closed, _, hlinked⟩ := reachable_linked (obeys_propagating x) h
  have hsound : Sound (wiring x.topo) False (loopNet p.state ∅ closed) :=
    (initial_sound x False.elim).run hlinked.run
  have hprop : Propagated (wiring x.topo) (loopNet p.state ∅ closed) :=
    (initial_propagated hclosed).run (initial_placed x) (fun _ _ hreject => hreject) hlinked.run
  refine ⟨hreturned, ?_, ?_⟩
  · intro hgoing id hid hterm up hup
    by_contra hbroken
    have hdown := ((wiring x.topo).adjoint ((wiring x.topo).up_mem hup) hid).mp hup
    obtain h | h := hprop hgoing up (Bool.not_eq_false _ ▸ hbroken) id hdown
    · have hdone : terminal (p.state.frontier.statuses id) = true := h
      rw [hterm] at hdone
      cases hdone
    · exact h.elim
  · intro hflight hpeers hretry
    by_cases hfinished : Finished x p.state
    · exact .inl hfinished
    · right
      cases hstop : p.state.terminateRequested with
      | true =>
        right
        cases p with
        | head s =>
          have hstop : s.terminateRequested = true := hstop
          have hflight : s.inFlight = [] := hflight
          refine ⟨s, rfl, hstop, fun a => ?_⟩
          have hpass : ∀ a : Answers, pass x a s = .returned (if allTerminal x (entered s) then
              finishRun x (entered s) else finishRun x (cancelRemaining x (entered s))) := by
            intro a
            unfold SchedulerLoop.pass
            dsimp only
            rw [if_pos hstop]
            by_cases hall : allTerminal x (entered s) = true
            · rw [if_pos hall]
              exact if_pos ⟨hall, hflight⟩
            · rw [if_neg hall]
              refine (if_neg fun h => hall h.1).trans ?_
              exact if_pos ⟨hstop, hflight⟩
          refine ⟨_, hpass a, returned_finished (c := rejectsClosed x) ?_⟩
          rw [← hpass .plain]
          refine .pass h fun id _ hrejected => ?_
          obtain ⟨-, hin⟩ := hrejected
          obtain ⟨_, -, hcontra⟩ := List.mem_map.mp hin
          cases hcontra
        | waiting =>
          rw [Point.state, waiting_going h hflight] at hstop
          cases hstop
        | returned s => exact absurd (hreturned s rfl) hfinished
        | aborted => exact absurd hflight (aborted_flying h)
      | false =>
        left
        have hun : ∃ id ∈ x.topo.order, terminal (p.state.frontier.statuses id) ≠ true := by
          by_contra hnone
          exact hfinished fun id hid => by_contra fun hne => hnone ⟨id, hid, hne⟩
        obtain ⟨id, hid, hterm⟩ := hun
        obtain ⟨k, hk, hpending, hup⟩ := hsound.exists_offered hprop hstop rfl
          (by simp [loopNet, net, hflight]) (by simp [loopNet, net, hpeers]) rfl
          (hsound.placed.unfinished_of_not_terminal hid hterm)
        obtain ⟨hpermits, hfits⟩ := (reachable_books h).idle hflight
        refine ⟨k, hstop, hk, hpending, hretry k hpending, hup, hfits k, ?_⟩
        rw [hpermits]
        exact hslot

/-- The chain with a gate in front of its first job. -/
def gatedGraph : JobGraph := chainGraph.addGate "review" "a"

def gatedOrder : TopologicalOrder gatedGraph :=
  .ofPrefixes ["a", "b"] DependencySafety.nodup_chainIds (by decide) (by decide)

def gatedChain : Setup :=
  { Setup.plain gatedGraph gatedOrder (skipping [] List.nodup_nil) with gateChecker := true }

/-- The gate has let the first job run, and the job has succeeded. -/
def afterGate : LoopState :=
  consume gatedChain ⟨fileJob "a" [] ["a.txt"], ⟨0, 5, none, none, none⟩, true, 0⟩
    (joinTask gatedChain "a" (pass gatedChain .plain (initial gatedChain)).state)

theorem accepts_gate (s : LoopState) : (rejectsClosed gatedChain).pass s .plain := by
  rintro id - ⟨-, h⟩
  obtain ⟨_, _, h⟩ := List.mem_map.mp h
  cases h

theorem reachable_afterGate : Reachable gatedChain (rejectsClosed gatedChain) (.head afterGate) := by
  have hfirst : Reachable gatedChain (rejectsClosed gatedChain)
      (.waiting (pass gatedChain .plain (initial gatedChain)).state false) :=
    .pass (a := .plain) (.start rfl) (accepts_gate _)
  exact Reachable.await hfirst trivial (show await gatedChain _ _
    (.completed ⟨fileJob "a" [] ["a.txt"], ⟨0, 5, none, none, none⟩, true, 0⟩) = _ from rfl)

/-- Behind the gate that was passed the second job can be dispatched. -/
theorem reachable_unstuck_gate : ∃ id, Dispatchable gatedChain afterGate id := by
  have hunstuck := (reachable_unstuck (by decide) (fun _ _ _ h => by cases h)
    reachable_afterGate).2.2
  have hretry : ∀ id, afterGate.frontier.retryReadyAt id = none := by
    intro id
    change Function.update (fun _ => none) "a" none id = none
    simp
  obtain hfinished | hnext | ⟨s, hhead, hstop, -⟩ := hunstuck rfl rfl fun id _ => hretry id
  · exact absurd (hfinished "b" (by decide)) (by decide)
  · exact hnext
  · cases hhead
    exact absurd hstop (by decide)

def rejecting : Answers := { Answers.plain with gate := fun _ _ => .rejected }

/-- After the rejection the second job is pending, nothing is offered and the
run waits. -/
theorem not_unstuck_gated : 1 ≤ gatedChain.config.maxJobs ∧ SnapshotClosed gatedChain ∧
    Reachable gatedChain .free (pass gatedChain rejecting (initial gatedChain)) ∧
    ¬ Unstuck gatedChain (pass gatedChain rejecting (initial gatedChain)) := by
  refine ⟨by decide, (fun _ _ _ h => by cases h), .pass (.start rfl) trivial, fun h => ?_⟩
  have hretry : ∀ id, (pass gatedChain rejecting
      (initial gatedChain)).state.frontier.retryReadyAt id = none := by
    intro id
    change Function.update (fun _ => none) "a" none id = none
    simp
  obtain hfinished | ⟨id, hid⟩ | ⟨s, hhead, -⟩ := h (by decide) (by decide) fun id _ => hretry id
  · exact absurd (hfinished "b" (by decide)) (by decide)
  · have hnone : (pass gatedChain rejecting (initial gatedChain)).state.frontier.readyFrontier =
        [] := by decide
    have hoffered := hid.offered
    rw [hnone] at hoffered
    cases hoffered
  · cases hhead

end OxyMake.NoStuckRun
