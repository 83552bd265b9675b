import OxyMake.CompletionRefinement

/-!
# The scheduling loop runs by the rules of the net

The hand of the net holds the drained jobs while they travel through gate
check and dispatch; between two phases of an iteration it is empty. Every
point a run reaches is reached by the net, with the status writes of the log
as labels.
-/

namespace OxyMake.LoopRefinement

open List
open PhysicalGraph Observation SchedulingFrontier Frontier Completion SchedulerLoop
open LabelledRuns DependencyNet Net NetInvariants CompletionRefinement

variable {x : Setup} {a : Answers} {D : Discipline JobId}

section Search

variable (flight parked : Set JobId) (stopping closed : Bool)

/-- Finished jobs of an earlier frontier keep their status. -/
def Keeps (f₀ f : Frontier) : Prop :=
  ∀ j, terminal (f₀.statuses j) = true → f.statuses j = f₀.statuses j

theorem Keeps.setStatus {f₀ f : Frontier} (h : Keeps f₀ f) {id : JobId} {st : JobLifecycle}
    (hid : terminal (f.statuses id) = false) : Keeps f₀ (f.setStatus id st) := by
  intro j hj
  have hold := h j hj
  have hne : j ≠ id := by
    rintro rfl
    rw [hold, hj] at hid
    cases hid
  rw [setStatus_statuses, Function.update_of_ne hne, hold]

def drainHand (acc : Search) (rest : List JobId) : Set JobId :=
  {j | j ∈ rest ∨ j ∈ acc.gateBlocked ∨ j ∈ acc.ready}

structure DrainInv (f₀ : Frontier) (acc : Search) (rest : List JobId) : Prop where
  restNodup : rest.Nodup
  blockedNodup : acc.gateBlocked.Nodup
  readyNodup : acc.ready.Nodup
  /-- A drained job is not yet among the gated ones. -/
  fresh : ∀ j ∈ rest, j ∉ acc.gateBlocked
  notReady : ∀ j ∈ rest, acc.frontier.statuses j ≠ some .ready
  blocked : ∀ j ∈ acc.gateBlocked, acc.frontier.statuses j = some .pending
  ready : ∀ j ∈ acc.ready, acc.frontier.statuses j = some .ready
  keeps : Keeps f₀ acc.frontier
  /-- Gated and drained jobs come from the frontier. -/
  source : ∀ j, j ∈ rest ∨ j ∈ acc.gateBlocked → j ∈ f₀.readyFrontier

theorem drainOne_simulates {f₀ : Frontier} {acc : Search} {id : JobId} {rest : List JobId}
    (hinv : DrainInv f₀ acc (id :: rest)) :
    Simulates (wiring x.topo) D routine acc.frontier
      (net acc.frontier (drainHand acc (id :: rest)) flight parked ∅ stopping closed)
      (drainOne x a acc id).frontier
      (net (drainOne x a acc id).frontier (drainHand (drainOne x a acc id) rest) flight parked ∅
        stopping closed) ∧
    DrainInv f₀ (drainOne x a acc id) rest := by
  obtain ⟨hrest, hblocked, hready, hfresh, hnot, hb, hr, hk, hsource⟩ := hinv
  obtain ⟨hid, hrest⟩ := nodup_cons.mp hrest
  have hmem : id ∈ drainHand acc (id :: rest) := .inl (by simp)
  have hnotReady : id ∉ acc.ready := fun h => hnot id (by simp) (hr id h)
  have hnotBlocked := hfresh id (by simp)
  have hleave : drainHand acc (id :: rest) \ {id} = drainHand acc rest := by
    ext j
    simp only [drainHand, Set.mem_sdiff, Set.mem_ofPred_eq, Set.mem_singleton_iff, mem_cons]
    grind
  have hsource' : ∀ j, j ∈ rest ∨ j ∈ acc.gateBlocked → j ∈ f₀.readyFrontier := fun j hj =>
    hsource j (hj.imp_left (.tail _))
  unfold drainOne
  split
  · next hp =>
    refine ⟨?_, hrest, hblocked, hready, fun j hj => hfresh j (by simp [hj]),
      fun j hj => hnot j (by simp [hj]), hb, hr, hk, hsource'⟩
    rw [← hleave]
    exact .silent rfl (fun h => h) (.drop hmem hp (hnot id (by simp)))
  · next hp =>
    have hp : acc.frontier.statuses id = some .pending := not_not.mp hp
    split
    · refine ⟨?_, hrest, hblocked, hready, fun j hj => hfresh j (by simp [hj]),
        fun j hj => hnot j (by simp [hj]), hb, hr, hk, hsource'⟩
      have hhand : drainHand { acc with frontier := acc.frontier.offer id } rest =
          drainHand acc (id :: rest) \ {id} := hleave.symm
      rw [hhand]
      refine .silent rfl (fun h => h.insert) ?_
      rw [net_offer]
      exact .putBack hmem hp
    · dsimp only
      split
      · have hsame : ∀ f : Frontier, drainHand
            { acc with frontier := f, ready := acc.ready ++ [id] } rest =
              drainHand acc (id :: rest) := by
          intro f
          ext j
          simp only [drainHand, Set.mem_ofPred_eq, mem_cons, mem_append,
            not_mem_nil, or_false]
          grind
        refine ⟨?_, hrest, hblocked, ?_, fun j hj => hfresh j (by simp [hj]), ?_, ?_, ?_,
          hk.setStatus (by rw [hp]; rfl), hsource'⟩
        · rw [hsame]
          exact .write rfl rfl (fun h => h) (.arm hmem hp)
        · exact nodup_append.mpr ⟨hready, by simp, by grind⟩
        · intro j hj
          have hne : j ≠ id := fun h => hid (h ▸ hj)
          simpa [hne] using hnot j (by simp [hj])
        · intro j hj
          have hne : j ≠ id := fun h => hnotBlocked (h ▸ hj)
          simpa [hne] using hb j hj
        · intro j hj
          by_cases hne : j = id
          · subst hne; simp
          · have hj : j ∈ acc.ready := by simpa [hne] using hj
            simpa [hne] using hr j hj
      · have hsame : ∀ f : Frontier, drainHand
            { acc with frontier := f, gateBlocked := acc.gateBlocked ++ [id] } rest =
              drainHand acc (id :: rest) := by
          intro f
          ext j
          simp only [drainHand, Set.mem_ofPred_eq, mem_cons, mem_append,
            not_mem_nil, or_false]
          grind
        refine ⟨?_, hrest, ?_, hready, ?_, fun j hj => hnot j (by simp [hj]), ?_, hr, hk, ?_⟩
        · rw [hsame]
          exact ⟨[], by simp, by simp, fun h => h, .refl _⟩
        · exact nodup_append.mpr ⟨hblocked, by simp, by grind⟩
        · intro j hj
          have hne : j ≠ id := fun h => hid (h ▸ hj)
          simpa [hne] using hfresh j (by simp [hj])
        · intro j hj
          by_cases hne : j = id
          · subst hne; exact hp
          · exact hb j (by simpa [hne] using hj)
        · intro j hj
          refine hsource j ?_
          simp only [mem_append, mem_singleton] at hj
          grind

theorem drain_simulates {f₀ : Frontier} {acc : Search} {rest : List JobId}
    (hinv : DrainInv f₀ acc rest) :
    Simulates (wiring x.topo) D routine acc.frontier
      (net acc.frontier (drainHand acc rest) flight parked ∅ stopping closed)
      (rest.foldl (drainOne x a) acc).frontier
      (net (rest.foldl (drainOne x a) acc).frontier
        (drainHand (rest.foldl (drainOne x a) acc) []) flight parked ∅ stopping closed) ∧
    DrainInv f₀ (rest.foldl (drainOne x a) acc) [] := by
  induction rest generalizing acc with
  | nil => exact ⟨.refl, hinv⟩
  | cons id rest ih =>
    obtain ⟨hsim, hnext⟩ :=
      drainOne_simulates (x := x) (a := a) (D := D) flight parked stopping closed hinv
    obtain ⟨hsim', hlast⟩ := ih hnext
    exact ⟨hsim.trans hsim', hlast⟩

/-- The second frontier differs from the first by observations without a write. -/
def Notes (f f' : Frontier) : Prop :=
  ∃ obs, f' = f.note obs ∧ ∀ o ∈ obs, routine o = true ∧ o.write? = none

theorem Notes.refl (f : Frontier) : Notes f f := ⟨[], by simp [note], by simp⟩

theorem Notes.note {f f' : Frontier} (h : Notes f f') {obs : List Obs}
    (hobs : ∀ o ∈ obs, routine o = true ∧ o.write? = none) : Notes f (f'.note obs) := by
  obtain ⟨before, rfl, hbefore⟩ := h
  refine ⟨before ++ obs, by simp [Frontier.note], ?_⟩
  intro o ho
  obtain h | h := mem_append.mp ho
  · exact hbefore o h
  · exact hobs o h

theorem Notes.trans {f f' f'' : Frontier} (h : Notes f f') (h' : Notes f' f'') : Notes f f'' := by
  obtain ⟨_, rfl, hobs⟩ := h'
  exact h.note hobs

theorem Notes.simulates {f f' : Frontier} (h : Notes f f') {W : Wiring JobId} (n : Net JobId) :
    Simulates W D routine f n f' n := by
  obtain ⟨_, rfl, hobs⟩ := h
  exact .note (fun o ho => (hobs o ho).1)
    (filterMap_eq_nil_iff.mpr fun o ho => (hobs o ho).2)

theorem askGate_notes (id : JobId) (acc : Search) (entry : GateId × ℕ) :
    Notes acc.frontier (askGate a id acc entry).frontier ∧
      (askGate a id acc entry).ready = acc.ready := by
  have hasked : Notes acc.frontier (acc.frontier.note
      ((if entry.1 ∈ acc.gatesSeen.registered then [] else [Obs.gateRegistered entry.1]) ++
        [.gateAnswered id entry.1 (a.gate id entry.2)])) := by
    refine (Notes.refl _).note fun o ho => ?_
    obtain h | h := mem_append.mp ho
    · split at h
      · cases h
      · rw [mem_singleton.mp h]; exact ⟨rfl, rfl⟩
    · rw [mem_singleton.mp h]; exact ⟨rfl, rfl⟩
  unfold askGate
  dsimp only
  split
  · exact ⟨hasked, rfl⟩
  · exact ⟨hasked, rfl⟩
  · split
    · exact ⟨hasked, rfl⟩
    · exact ⟨hasked.note (by simp [routine, Obs.write?]), rfl⟩
  · split
    · exact ⟨hasked, rfl⟩
    · exact ⟨hasked.note (by simp [routine, Obs.write?]), rfl⟩

theorem askGates_notes (id : JobId) (acc : Search) (entries : List (GateId × ℕ)) :
    Notes acc.frontier (entries.foldl (askGate a id) acc).frontier ∧
      (entries.foldl (askGate a id) acc).ready = acc.ready := by
  induction entries generalizing acc with
  | nil => exact ⟨.refl _, rfl⟩
  | cons entry entries ih =>
    obtain ⟨hnotes, hready⟩ := askGate_notes (a := a) id acc entry
    obtain ⟨hnotes', hready'⟩ := ih (askGate a id acc entry)
    exact ⟨hnotes.trans hnotes', hready'.trans hready⟩

def gateHand (acc : Search) (rest : List JobId) : Set JobId := {j | j ∈ rest ∨ j ∈ acc.ready}

/-- Invariant of the gate check. -/
structure GateInv (f₀ : Frontier) (acc : Search) (rest : List JobId) : Prop where
  restNodup : rest.Nodup
  readyNodup : acc.ready.Nodup
  pending : ∀ j ∈ rest, acc.frontier.statuses j = some .pending
  ready : ∀ j ∈ acc.ready, acc.frontier.statuses j = some .ready
  keeps : Keeps f₀ acc.frontier

theorem GateInv.notes {f₀ : Frontier} {acc asked : Search} {rest : List JobId}
    (h : GateInv f₀ acc rest) (hnotes : Notes acc.frontier asked.frontier)
    (hready : asked.ready = acc.ready) : GateInv f₀ asked rest := by
  obtain ⟨_, hf, -⟩ := hnotes
  have hst : asked.frontier.statuses = acc.frontier.statuses := by rw [hf]; rfl
  refine ⟨h.restNodup, hready ▸ h.readyNodup, ?_, ?_, ?_⟩
  · rw [hst]; exact h.pending
  · rw [hst, hready]; exact h.ready
  · unfold Keeps; rw [hst]; exact h.keeps

theorem GateInv.not_ready {f₀ : Frontier} {acc : Search} {id : JobId} {rest : List JobId}
    (hinv : GateInv f₀ acc (id :: rest)) : id ∉ acc.ready := by
  intro h
  have hready := hinv.ready id h
  rw [hinv.pending id (by simp)] at hready
  cases hready

/-- Search state after a gated job has been made ready. -/
def armed (acc : Search) (f : Frontier) (id : JobId) : Search :=
  { acc with frontier := f.setStatus id .ready, ready := acc.ready ++ [id] }

theorem GateInv.arm {f₀ : Frontier} {acc : Search} {id : JobId} {rest : List JobId}
    (hinv : GateInv f₀ acc (id :: rest)) {f : Frontier} (hnotes : Notes acc.frontier f) :
    GateInv f₀ (armed acc f id) rest := by
  obtain ⟨_, rfl, -⟩ := hnotes
  obtain ⟨hid, hrest⟩ := nodup_cons.mp hinv.restNodup
  have hp := hinv.pending id (by simp)
  have hnotReady := hinv.not_ready
  refine ⟨hrest, ?_, ?_, ?_, Keeps.setStatus hinv.keeps (by rw [hp]; rfl)⟩
  · exact nodup_append.mpr ⟨hinv.readyNodup, by simp, by grind⟩
  · intro j hj
    have hne : j ≠ id := fun h => hid (h ▸ hj)
    simpa [armed, hne] using hinv.pending j (by simp [hj])
  · intro j hj
    by_cases hne : j = id
    · subst hne; simp [armed]
    · have hj : j ∈ acc.ready := by simpa [armed, hne] using hj
      simpa [armed, hne] using hinv.ready j hj

theorem armed_simulates {f₀ : Frontier} {acc : Search} {id : JobId} {rest : List JobId}
    (hinv : GateInv f₀ acc (id :: rest)) {f : Frontier} (hnotes : Notes acc.frontier f) :
    Simulates (wiring x.topo) D routine acc.frontier
      (net acc.frontier (gateHand acc (id :: rest)) flight parked ∅ stopping closed)
      (armed acc f id).frontier
      (net (armed acc f id).frontier (gateHand (armed acc f id) rest) flight parked ∅
        stopping closed) := by
  obtain ⟨obs, rfl, hobs⟩ := hnotes
  have hhand : gateHand (armed acc (acc.frontier.note obs) id) rest =
      gateHand acc (id :: rest) := by
    ext j
    simp only [gateHand, armed, Set.mem_ofPred_eq, mem_cons, mem_append,
      not_mem_nil, or_false]
    grind
  rw [hhand]
  refine (Notes.simulates ⟨obs, rfl, hobs⟩ _).trans ?_
  exact .write rfl rfl (fun h => h) (.arm (.inl (by simp)) (hinv.pending id (by simp)))

def Rejected (x : Setup) (a : Answers) (id : JobId) : Prop :=
  x.gateChecker = true ∧ .rejected ∈ gateAnswers x a id

theorem checkGated_simulates {f₀ : Frontier} {acc : Search} {id : JobId} {rest : List JobId}
    (hinv : GateInv f₀ acc (id :: rest))
    (hreject : .rejected ∈ gateAnswers x a id → ∀ f, Keeps f₀ f → D.reject f.statuses id) :
    Simulates (wiring x.topo) D routine acc.frontier
      (net acc.frontier (gateHand acc (id :: rest)) flight parked ∅ stopping closed)
      (checkGated x a acc id).frontier
      (net (checkGated x a acc id).frontier (gateHand (checkGated x a acc id) rest) flight parked ∅
        stopping closed) ∧
    GateInv f₀ (checkGated x a acc id) rest := by
  obtain ⟨hnotes, hready⟩ :=
    askGates_notes (a := a) id acc (x.graph.blockingGates id).zipIdx
  unfold checkGated
  dsimp only
  generalize (x.graph.blockingGates id).zipIdx.foldl (askGate a id) acc = asked at hnotes hready ⊢
  have hasked := hinv.notes hnotes hready
  obtain ⟨hid, hrest⟩ := nodup_cons.mp hinv.restNodup
  have hp : asked.frontier.statuses id = some .pending := hasked.pending id (by simp)
  have hnotReady := hasked.not_ready
  have hmem : id ∈ gateHand asked (id :: rest) := .inl (by simp)
  have hsame : gateHand acc (id :: rest) = gateHand asked (id :: rest) := by
    simp only [gateHand, hready]
  have hleave : gateHand asked (id :: rest) \ {id} = gateHand asked rest := by
    ext j
    simp only [gateHand, Set.mem_sdiff, Set.mem_ofPred_eq, Set.mem_singleton_iff, mem_cons]
    grind
  have hstart : Simulates (wiring x.topo) D routine acc.frontier
      (net acc.frontier (gateHand acc (id :: rest)) flight parked ∅ stopping closed)
      asked.frontier
      (net asked.frontier (gateHand asked (id :: rest)) flight parked ∅ stopping closed) := by
    rw [hsame]
    obtain ⟨obs, hf, hobs⟩ := hnotes
    rw [hf]
    exact Notes.simulates ⟨obs, rfl, hobs⟩ _
  have hstill : asked.frontier.getStatus id = some .pending := hp
  rw [if_neg (not_not_intro hstill)]
  by_cases hrej : .rejected ∈ gateAnswers x a id
  · rw [if_pos hrej]
    refine ⟨?_, hrest, hasked.readyNodup, ?_, ?_, ?_⟩
    · refine hstart.trans ?_
      have hhand : ∀ f : Frontier, gateHand { asked with frontier := f } rest =
          gateHand asked (id :: rest) \ {id} := fun f => hleave.symm
      rw [hhand]
      refine Simulates.andNote ?_ (by simp [routine]) rfl
      exact .write rfl rfl (fun h => h) (.reject hmem hp (hreject hrej _ hasked.keeps))
    · intro j hj
      have hne : j ≠ id := fun h => hid (h ▸ hj)
      simpa [hne] using hasked.pending j (by simp [hj])
    · intro j hj
      have hne : j ≠ id := fun h => hnotReady (h ▸ hj)
      simpa [hne] using hasked.ready j hj
    · exact Keeps.setStatus hasked.keeps (by rw [hp]; rfl)
  · rw [if_neg hrej]
    split
    · have happroved : Notes asked.frontier (asked.frontier.note
          ((x.graph.blockingGates id).map fun gate =>
            .event (.gateApproved gate "gate-check"))) :=
        (Notes.refl asked.frontier).note (by simp [routine, Obs.write?])
      exact ⟨hstart.trans (armed_simulates _ _ _ _ hasked happroved), hasked.arm happroved⟩
    · refine ⟨?_, hrest, hasked.readyNodup, fun j hj => hasked.pending j (by simp [hj]),
        hasked.ready, hasked.keeps⟩
      refine hstart.trans ?_
      have hhand : ∀ f : Frontier, gateHand { asked with frontier := f } rest =
          gateHand asked (id :: rest) \ {id} := fun f => hleave.symm
      rw [hhand]
      refine .silent rfl (fun h => h.insert) ?_
      rw [net_offer]
      exact .putBack hmem hp

theorem passGated_simulates {f₀ : Frontier} {acc : Search} {id : JobId} {rest : List JobId}
    (hinv : GateInv f₀ acc (id :: rest)) :
    Simulates (wiring x.topo) D routine acc.frontier
      (net acc.frontier (gateHand acc (id :: rest)) flight parked ∅ stopping closed)
      (passGated acc id).frontier
      (net (passGated acc id).frontier (gateHand (passGated acc id) rest) flight parked ∅
        stopping closed) ∧
    GateInv f₀ (passGated acc id) rest := by
  have hp : acc.frontier.getStatus id = some .pending := hinv.pending id (by simp)
  unfold passGated
  rw [if_pos hp]
  exact ⟨armed_simulates _ _ _ _ hinv (.refl _), hinv.arm (.refl _)⟩

theorem gates_simulate {f₀ : Frontier} {acc : Search} {rest : List JobId}
    (hinv : GateInv f₀ acc rest)
    (hreject : ∀ id ∈ rest, Rejected x a id → ∀ f, Keeps f₀ f → D.reject f.statuses id) :
    let checked := rest.foldl (if x.gateChecker then checkGated x a else passGated) acc
    Simulates (wiring x.topo) D routine acc.frontier
      (net acc.frontier (gateHand acc rest) flight parked ∅ stopping closed)
      checked.frontier (net checked.frontier (gateHand checked []) flight parked ∅ stopping closed) ∧
    GateInv f₀ checked [] := by
  induction rest generalizing acc with
  | nil => exact ⟨.refl, hinv⟩
  | cons id rest ih =>
    have hone : Simulates (wiring x.topo) D routine acc.frontier
        (net acc.frontier (gateHand acc (id :: rest)) flight parked ∅ stopping closed)
        ((if x.gateChecker then checkGated x a else passGated) acc id).frontier
        (net ((if x.gateChecker then checkGated x a else passGated) acc id).frontier
          (gateHand ((if x.gateChecker then checkGated x a else passGated) acc id) rest)
          flight parked ∅ stopping closed) ∧
        GateInv f₀ ((if x.gateChecker then checkGated x a else passGated) acc id) rest := by
      split
      · next hc =>
        exact checkGated_simulates _ _ _ _ hinv fun hr => hreject id (by simp) ⟨hc, hr⟩
      · exact passGated_simulates _ _ _ _ hinv
    obtain ⟨hsim, hlast⟩ := ih hone.2 fun j hj => hreject j (by simp [hj])
    exact ⟨hone.1.trans hsim, hlast⟩

theorem findReadyJobs_simulates {s : LoopState} (hnodup : s.frontier.readyFrontier.Nodup)
    (hready : ∀ j ∈ s.frontier.readyFrontier, s.frontier.statuses j ≠ some .ready)
    (hreject : ∀ id ∈ s.frontier.readyFrontier, Rejected x a id →
      ∀ f, Keeps s.frontier f → D.reject f.statuses id) :
    let found := findReadyJobs x a s
    Simulates (wiring x.topo) D routine s.frontier
      (net s.frontier ∅ flight parked ∅ stopping false)
      found.frontier
      (net found.frontier {j | j ∈ found.ready} flight parked ∅ stopping false) ∧
    found.ready.Nodup ∧ ∀ j ∈ found.ready, found.frontier.statuses j = some .ready := by
  intro found
  have hperm := a.drainOrder_perm s.frontier.readyFrontier
  let start : Search := ⟨{ s.frontier with readyFrontier := [] }, [], [], s.gatesSeen⟩
  have hstart : DrainInv s.frontier start (a.drainOrder s.frontier.readyFrontier) := by
    refine ⟨hperm.nodup_iff.mpr hnodup, nodup_nil, nodup_nil, by simp [start], ?_,
      by simp [start], by simp [start], fun j hj => rfl, ?_⟩
    · intro j hj
      exact hready j (hperm.mem_iff.mp hj)
    · intro j hj
      simpa [start, hperm.mem_iff] using hj
  have hdrain : Simulates (wiring x.topo) D routine s.frontier
      (net s.frontier ∅ flight parked ∅ stopping false) start.frontier
      (net start.frontier (drainHand start (a.drainOrder s.frontier.readyFrontier)) flight parked
        ∅ stopping false) := by
    have hhand : drainHand start (a.drainOrder s.frontier.readyFrontier) =
        {j | j ∈ s.frontier.readyFrontier} := by
      ext j
      simp [drainHand, start, hperm.mem_iff]
    have hfront : {j : JobId | j ∈ start.frontier.readyFrontier} = ∅ := by
      simp [start]
    rw [hhand]
    refine .silent rfl (fun _ => nodup_nil) ?_
    unfold net
    rw [hfront]
    exact .drain rfl rfl
  obtain ⟨hdrained, hinv⟩ :=
    drain_simulates (x := x) (a := a) (D := D) flight parked stopping false hstart
  generalize hd : (a.drainOrder s.frontier.readyFrontier).foldl (drainOne x a) start = drained
    at hdrained hinv
  have hgate : GateInv s.frontier drained drained.gateBlocked :=
    ⟨hinv.blockedNodup, hinv.readyNodup, hinv.blocked, hinv.ready, hinv.keeps⟩
  have hhand : drainHand drained [] = gateHand drained drained.gateBlocked := by
    simp [drainHand, gateHand]
  rw [hhand] at hdrained
  obtain ⟨hchecked, hlast⟩ := gates_simulate (x := x) (a := a) (D := D) flight parked stopping
    false hgate fun id hid => hreject id (hinv.source id (.inr hid))
  generalize hc : drained.gateBlocked.foldl
    (if x.gateChecker then checkGated x a else passGated) drained = checked at hchecked hlast
  have hfound : found = { checked with
      ready := checked.ready.insertionSort fun id id' => priorityOf x id' ≤ priorityOf x id } := by
    simp only [found, findReadyJobs, ← hc, ← hd]
    rfl
  have hsort := perm_insertionSort (fun id id' => priorityOf x id' ≤ priorityOf x id)
    checked.ready
  have hset : gateHand checked [] = {j | j ∈ found.ready} := by
    ext j
    simp [gateHand, hfound, hsort.mem_iff]
  rw [hset] at hchecked
  refine ⟨?_, ?_, ?_⟩
  · have hsame : found.frontier = checked.frontier := by rw [hfound]
    rw [hsame]
    exact (hdrain.trans hdrained).trans hchecked
  · rw [hfound]
    exact hsort.nodup_iff.mpr hlast.readyNodup
  · rw [hfound]
    intro j hj
    exact hlast.ready j (hsort.mem_iff.mp hj)

end Search

section Dispatch

def dispatching (o : Obs) : Bool := routine o || ofAttempt o

theorem hand_leave {id : JobId} {rest : List JobId} (hid : id ∉ rest) :
    {j | j ∈ id :: rest} \ {id} = {j | j ∈ rest} := by
  ext j
  simp only [Set.mem_sdiff, Set.mem_ofPred_eq, Set.mem_singleton_iff, mem_cons]
  grind

theorem ready_setStatus {f : Frontier} {id : JobId} {rest : List JobId} {st : JobLifecycle}
    (hid : id ∉ rest) (hready : ∀ j ∈ rest, f.statuses j = some .ready) :
    ∀ j ∈ rest, (f.setStatus id st).statuses j = some .ready := by
  intro j hj
  have hne : j ≠ id := fun h => hid (h ▸ hj)
  rw [setStatus_statuses, Function.update_of_ne hne]
  exact hready j hj

theorem deferJob_simulates {flight parked : Set JobId} {stopping closed : Bool} {f : Frontier}
    {id : JobId} {rest : List JobId} (hid : id ∉ rest) (hready : f.statuses id = some .ready) :
    Simulates (wiring x.topo) D dispatching f
      (net f {j | j ∈ id :: rest} flight parked ∅ stopping closed) (deferJob f id)
      (net (deferJob f id) {j | j ∈ rest} flight parked ∅ stopping closed) := by
  refine .write rfl rfl (fun h => h.insert) ?_
  have hnet : net (deferJob f id) {j | j ∈ rest} flight parked ∅ stopping closed =
      { (net f {j | j ∈ id :: rest} flight parked ∅ stopping closed).write id .pending with
        front := insert id {j | j ∈ f.readyFrontier}
        hand := {j | j ∈ id :: rest} \ {id} } := by
    rw [hand_leave hid]
    exact congrArg (fun n : Net JobId => n.write id .pending)
      (net_offer f {j | j ∈ rest} flight parked ∅ stopping closed id)
  rw [hnet]
  exact .defer (by simp [net]) hready

theorem deferAll_simulates {flight parked : Set JobId} {stopping closed : Bool} {f : Frontier}
    {rest : List JobId} (hnodup : rest.Nodup) (hready : ∀ j ∈ rest, f.statuses j = some .ready) :
    Simulates (wiring x.topo) D dispatching f
      (net f {j | j ∈ rest} flight parked ∅ stopping closed) (rest.foldl deferJob f)
      (net (rest.foldl deferJob f) ∅ flight parked ∅ stopping closed) := by
  induction rest generalizing f with
  | nil =>
    have hempty : {j : JobId | j ∈ []} = ∅ := by simp
    rw [hempty]
    exact .refl
  | cons id rest ih =>
    obtain ⟨hid, hrest⟩ := nodup_cons.mp hnodup
    refine (deferJob_simulates hid (hready id (by simp))).trans (ih hrest ?_)
    exact ready_setStatus hid fun j hj => hready j (by simp [hj])

theorem launchJob_simulates {s : LoopState} {job : ConcreteJob} {id : JobId} {rest : List JobId}
    {closed : Bool} (hid : id ∉ rest) (hready : s.frontier.statuses id = some .ready) :
    Simulates (wiring x.topo) D dispatching s.frontier (loopNet s {j | j ∈ id :: rest} closed)
      (launchJob x job id s).frontier (loopNet (launchJob x job id s) {j | j ∈ rest} closed) := by
  unfold launchJob loopNet
  dsimp only
  refine Simulates.andNote ?_ (by simp [dispatching, routine, ofAttempt]) rfl
  refine .write rfl rfl (fun h => h) ?_
  have hflight : {j | j ∈ s.inFlight.insert id} = insert id {j | j ∈ s.inFlight} := by
    ext j
    simp
  rw [hflight, ← hand_leave hid]
  exact .launch (by simp [net]) hready

theorem skipJob_simulates {flight parked : Set JobId} {stopping closed : Bool} {f : Frontier}
    {id : JobId} {rest : List JobId} (hhit : D.hit) (hid : id ∉ rest)
    (hready : f.statuses id = some .ready) :
    let skipped := ((f.setStatus id .skipped).promoteDownstream x.graph id).note
      [.event (.jobSkipped id "cached")]
    Simulates (wiring x.topo) D dispatching f
      (net f {j | j ∈ id :: rest} flight parked ∅ stopping closed) skipped
      (net skipped {j | j ∈ rest} flight parked ∅ stopping closed) := by
  have hlog : ((f.setStatus id .skipped).promoteDownstream x.graph id).log =
      f.log ++ [.status id .skipped] := by
    rw [promoteDownstream_log, setStatus_log]
  refine Simulates.andNote ?_ (by simp [dispatching, routine]) rfl
  refine .write hlog rfl
    (fun h => promoteDownstream_nodup (f := f.setStatus id .skipped) h id) ?_
  have hnet := net_promoteDownstream (f.setStatus id .skipped) {j | j ∈ rest} flight parked ∅
    stopping closed id x.topo
  change Fire _ _ _ _ (net ((f.setStatus id .skipped).promoteDownstream x.graph id) _ _ _ _ _ _)
  rw [hnet, ← hand_leave hid]
  exact .hit hhit (by simp [net]) hready

theorem commitDispatch_simulates {s : LoopState} (job : ConcreteJob) {id : JobId}
    {rest : List JobId} (cached : Bool) (hnodup : (id :: rest).Nodup)
    (hready : ∀ j ∈ id :: rest, s.frontier.statuses j = some .ready)
    (hhit : cached = true → D.hit) :
    let r := commitDispatch x job id cached (id :: rest) s
    (r.2 = .halt → Simulates (wiring x.topo) D dispatching s.frontier
      (loopNet s {j | j ∈ id :: rest} false) r.1.frontier (loopNet r.1 ∅ false)) ∧
    (r.2 ≠ .halt → Simulates (wiring x.topo) D dispatching s.frontier
      (loopNet s {j | j ∈ id :: rest} false) r.1.frontier (loopNet r.1 {j | j ∈ rest} false) ∧
      ∀ j ∈ rest, r.1.frontier.statuses j = some .ready) := by
  obtain ⟨hid, _⟩ := nodup_cons.mp hnodup
  have hself : s.frontier.getStatus id = some .ready := hready id (by simp)
  have hlater : ∀ j ∈ rest, s.frontier.statuses j = some .ready := fun j hj =>
    hready j (by simp [hj])
  unfold commitDispatch
  dsimp only
  rw [if_neg (not_not_intro hself)]
  split
  · next hskip =>
    refine ⟨by simp, fun _ => ⟨?_, ?_⟩⟩
    · exact skipJob_simulates (hhit hskip.1) hid hself
    · intro j hj
      dsimp only
      rw [note_statuses, promoteDownstream_statuses]
      exact ready_setStatus hid hlater j hj
  · split
    · refine ⟨by simp, fun _ => ⟨deferJob_simulates hid hself, ?_⟩⟩
      exact ready_setStatus hid hlater
    · split
      · exact ⟨fun _ => deferAll_simulates hnodup hready, by simp⟩
      · exact ⟨by simp, fun _ => ⟨launchJob_simulates hid hself, ready_setStatus hid hlater⟩⟩

theorem checkCache_simulates (s : LoopState) (id : JobId) (n : Net JobId) :
    let r := checkCache x a id s
    Simulates (wiring x.topo) D dispatching s.frontier n r.1.frontier n ∧
      r.1.frontier.statuses = s.frontier.statuses ∧
      (∀ hand, loopNet r.1 hand false = loopNet s hand false) ∧
      (r.2 = true → x.cache = true ∧ a.check id = .ok ()) := by
  have hnote : ∀ hit : Bool, Simulates (wiring x.topo) D dispatching s.frontier n
      (s.frontier.note (.attempt id :: if x.cache then [.cacheChecked id hit] else [])) n := by
    intro hit
    refine .note ?_ ?_
    · intro o ho
      split at ho
      · simp only [mem_cons, not_mem_nil, or_false] at ho
        obtain rfl | rfl := ho <;> rfl
      · rw [mem_singleton.mp ho]; rfl
    · split <;> rfl
  unfold checkCache
  dsimp only
  split
  · next u hanswer =>
    refine ⟨hnote _, rfl, fun _ => rfl, fun _ => ?_⟩
    split at hanswer
    · next hc => exact ⟨hc, hanswer⟩
    · cases hanswer
  · exact ⟨hnote _, rfl, fun _ => rfl, by simp⟩

theorem parkJob_simulates {s : LoopState} {id : JobId} {rest : List JobId} {closed : Bool}
    (owner : Option String) (hpark : D.park) (hid : id ∉ rest)
    (hready : s.frontier.statuses id = some .ready) :
    Simulates (wiring x.topo) D dispatching s.frontier (loopNet s {j | j ∈ id :: rest} closed)
      (parkJob id owner s).frontier (loopNet (parkJob id owner s) {j | j ∈ rest} closed) := by
  have hself : s.frontier.getStatus id = some .ready := hready
  unfold parkJob loopNet
  rw [if_pos hself]
  dsimp only
  refine Simulates.andNote ?_ (by simp [dispatching, routine]) rfl
  refine .write rfl rfl (fun h => h) ?_
  have hparked : {j | j ∈ List.map Prod.fst ((id, owner) ::
      s.peerWaits.filter fun entry => entry.1 ≠ id)} =
      insert id {j | j ∈ s.peerWaits.map Prod.fst} := by
    ext j
    simp only [map_cons, Set.mem_ofPred_eq, mem_cons, mem_map, mem_filter,
      Set.mem_insert_iff]
    grind
  rw [hparked, ← hand_leave hid]
  exact .park hpark (by simp [net]) hready

theorem dispatchJob_simulates {s : LoopState} {id : JobId} {rest : List JobId}
    (hnodup : (id :: rest).Nodup) (hready : ∀ j ∈ id :: rest, s.frontier.statuses j = some .ready)
    (hjob : (x.graph.getJob id).isSome) (hhit : x.cache = true → a.check id = .ok () → D.hit)
    (hsignal : x.shutdown = true → D.stop) (hpark : x.claimer = true → D.park) :
    let r := dispatchJob x a (id :: rest) id s
    (r.2 = .halt → Simulates (wiring x.topo) D dispatching s.frontier
      (loopNet s {j | j ∈ id :: rest} false) r.1.frontier (loopNet r.1 ∅ false)) ∧
    (r.2 ≠ .halt → Simulates (wiring x.topo) D dispatching s.frontier
      (loopNet s {j | j ∈ id :: rest} false) r.1.frontier (loopNet r.1 {j | j ∈ rest} false) ∧
      ∀ j ∈ rest, r.1.frontier.statuses j = some .ready) := by
  obtain ⟨job, hjob⟩ := Option.isSome_iff_exists.mp hjob
  obtain ⟨hid, -⟩ := nodup_cons.mp hnodup
  obtain ⟨hcheck, hst, hnet, hcached⟩ := checkCache_simulates (x := x) (a := a) (D := D) s id
    (loopNet s {j | j ∈ id :: rest} false)
  unfold dispatchJob
  rw [hjob]
  dsimp only
  generalize checkCache x a id s = r at hcheck hst hnet hcached
  obtain ⟨checked, cached⟩ := r
  dsimp only at hcheck hst hnet hcached ⊢
  have hclaimed : Simulates (wiring x.topo) D dispatching s.frontier
      (loopNet s {j | j ∈ id :: rest} false) (claimJob x a id cached checked).1.frontier
      (loopNet (claimJob x a id cached checked).1 {j | j ∈ id :: rest} false) ∧
      (∀ j ∈ id :: rest, (claimJob x a id cached checked).1.frontier.statuses j = some .ready) ∧
      ((claimJob x a id cached checked).2 ≠ none → x.claimer = true) := by
    have hstill : ∀ j ∈ id :: rest, checked.frontier.statuses j = some .ready := fun j hj =>
      (congrFun hst j).trans (hready j hj)
    rw [← hnet] at hcheck ⊢
    unfold claimJob
    split
    · next hclaim =>
      exact ⟨hcheck.andNote (by simp [dispatching, ofAttempt]) rfl, hstill, fun _ => by
        simp_all⟩
    · exact ⟨hcheck, hstill, fun h => absurd rfl h⟩
  generalize claimJob x a id cached checked = claim at hclaimed
  obtain ⟨claimed, _⟩ := claim
  dsimp only at hclaimed
  obtain ⟨hsim, hstill, hgiven⟩ := hclaimed
  split
  · next owner heq =>
    obtain ⟨rfl, rfl⟩ := Prod.mk.inj heq
    have hallowed : D.park := hpark (hgiven (by simp))
    refine ⟨by simp, fun _ =>
      ⟨hsim.trans (parkJob_simulates owner hallowed hid (hstill id (by simp))), ?_⟩⟩
    have hself : claimed.frontier.getStatus id = some .ready := hstill id (by simp)
    unfold parkJob
    rw [if_pos hself]
    exact ready_setStatus hid fun j hj => hstill j (by simp [hj])
  · next heq =>
    obtain ⟨rfl, rfl⟩ := Prod.mk.inj heq
    split
    · next hshut =>
      refine ⟨fun _ => ?_, by simp⟩
      have hallowed : D.stop := hsignal (by simp_all)
      refine hsim.trans ((Simulates.silent rfl (fun h => h) (.stop hallowed)).trans
        (.silent rfl (fun h => h) (.abandon rfl ?_)))
      exact hstill
    · have hcommit := commitDispatch_simulates (x := x) (D := D)
        (s := releaseTasks x a id claimed) job cached hnodup hstill fun hc =>
          hhit (hcached hc).1 (hcached hc).2
      exact ⟨fun h => hsim.trans (hcommit.1 h),
        fun h => ⟨hsim.trans (hcommit.2 h).1, (hcommit.2 h).2⟩⟩

theorem dispatchLoop_simulates {rest : List JobId} {s : LoopState} (skipped : Bool)
    (hnodup : rest.Nodup) (hready : ∀ j ∈ rest, s.frontier.statuses j = some .ready)
    (hjob : ∀ j ∈ rest, (x.graph.getJob j).isSome)
    (hhit : ∀ id, x.cache = true → a.check id = .ok () → D.hit)
    (hsignal : x.shutdown = true → D.stop) (hpark : x.claimer = true → D.park) :
    let r := dispatchLoop x a rest s skipped
    Simulates (wiring x.topo) D dispatching s.frontier (loopNet s {j | j ∈ rest} false)
      r.1.frontier (loopNet r.1 ∅ false) := by
  induction rest generalizing s skipped with
  | nil =>
    have hempty : {j : JobId | j ∈ []} = ∅ := by simp
    rw [hempty]
    exact .refl
  | cons id rest ih =>
    obtain ⟨-, hrest⟩ := nodup_cons.mp hnodup
    have hone := dispatchJob_simulates (x := x) (a := a) (D := D) hnodup hready
      (hjob id (by simp)) (hhit id) hsignal hpark
    have hlater : ∀ j ∈ rest, (x.graph.getJob j).isSome := fun j hj => hjob j (by simp [hj])
    unfold dispatchLoop
    dsimp only at hone ⊢
    generalize dispatchJob x a (id :: rest) id s = r at hone
    obtain ⟨_, flow⟩ := r
    cases flow with
    | next =>
      obtain ⟨hsim, hstill⟩ := hone.2 (by simp)
      exact hsim.trans (ih skipped hrest hstill hlater)
    | skipped =>
      obtain ⟨hsim, hstill⟩ := hone.2 (by simp)
      exact hsim.trans (ih true hrest hstill hlater)
    | halt => exact hone.1 rfl

/-- Facts about the loop state that the net does not show. -/
structure Regular (x : Setup) (s : LoopState) : Prop where
  peers : (s.peerWaits.map Prod.fst).Nodup
  /-- Only a given signal is consumed. -/
  signalled : s.shutdownSignalled = true → x.shutdown = true

theorem Regular.unpark {s : LoopState} (h : Regular x s) (id : JobId) :
    Regular x (unparkJob id s) :=
  ⟨(filter_sublist.map Prod.fst).nodup h.peers, h.signalled⟩

theorem Regular.park {s : LoopState} (h : Regular x s) (id : JobId) (owner : Option String) :
    Regular x (parkJob id owner s) := by
  unfold parkJob
  split
  · refine ⟨nodup_cons.mpr ⟨?_, (filter_sublist.map Prod.fst).nodup h.peers⟩, h.signalled⟩
    simp
  · exact h

theorem Regular.commitDispatch {s : LoopState} (h : Regular x s) (job : ConcreteJob) (id : JobId)
    (cached : Bool) (remaining : List JobId) :
    Regular x (commitDispatch x job id cached remaining s).1 := by
  unfold SchedulerLoop.commitDispatch
  dsimp only
  split
  · exact h
  · split
    · exact ⟨h.peers, h.signalled⟩
    · split
      · exact ⟨h.peers, h.signalled⟩
      · split <;> exact ⟨h.peers, h.signalled⟩

theorem Regular.dispatchJob {s : LoopState} (h : Regular x s) (remaining : List JobId)
    (id : JobId) : Regular x (dispatchJob x a remaining id s).1 := by
  have hcheck : Regular x (checkCache x a id s).1 := by
    unfold checkCache
    dsimp only
    split <;> exact ⟨h.peers, h.signalled⟩
  unfold SchedulerLoop.dispatchJob
  split
  · exact h
  · next job _ =>
    dsimp only
    generalize checkCache x a id s = r at hcheck
    obtain ⟨checked, cached⟩ := r
    have hclaimed : Regular x (claimJob x a id cached checked).1 := by
      unfold claimJob
      split <;> exact ⟨hcheck.peers, hcheck.signalled⟩
    dsimp only
    generalize claimJob x a id cached checked = claim at hclaimed
    obtain ⟨claimed, _⟩ := claim
    split
    · next owner heq =>
      obtain ⟨rfl, rfl⟩ := Prod.mk.inj heq
      exact hclaimed.park id owner
    · next heq =>
      obtain ⟨rfl, rfl⟩ := Prod.mk.inj heq
      split
      · next hsignal => exact ⟨hclaimed.peers, fun _ => by simp_all⟩
      · exact Regular.commitDispatch (s := releaseTasks x a id claimed)
          ⟨hclaimed.peers, hclaimed.signalled⟩ job id cached remaining

theorem Regular.dispatchLoop {s : LoopState} (h : Regular x s) (rest : List JobId)
    (skipped : Bool) : Regular x (dispatchLoop x a rest s skipped).1 := by
  induction rest generalizing s skipped with
  | nil => exact h
  | cons id rest ih =>
    have hone := Regular.dispatchJob (a := a) h (id :: rest) id
    unfold SchedulerLoop.dispatchLoop
    generalize SchedulerLoop.dispatchJob x a (id :: rest) id s = r at hone
    obtain ⟨_, flow⟩ := r
    cases flow with
    | next => exact ih hone skipped
    | skipped => exact ih hone true
    | halt => exact hone

end Dispatch

section Peers

theorem getJob_of_placed {s : LoopState} {hand : Set JobId} {closed : Bool}
    (hplaced : Placed (wiring x.topo) (loopNet s hand closed)) {id : JobId} {st : JobLifecycle}
    (hst : s.frontier.statuses id = some st) : ∃ job, x.graph.getJob id = some job := by
  refine getJob_of_mem_jobIds ((x.topo.mem_iff id).mp ((hplaced.known id).mp ?_))
  change (s.frontier.statuses id).isSome
  rw [hst]
  rfl

/-- Possible outcomes a peer session reports for a job. -/
def PeerReports (a : Answers) (id : JobId) (exitCode : ℤ) : Prop :=
  (a.peer id = .completed ∧ exitCode = 0) ∨ a.peer id = .failed exitCode

theorem parked_unpark (s : LoopState) (id : JobId) :
    {j | j ∈ (unparkJob id s).peerWaits.map Prod.fst} =
      {j | j ∈ s.peerWaits.map Prod.fst} \ {id} := by
  ext j
  simp only [unparkJob, Set.mem_ofPred_eq, mem_map, mem_filter, Set.mem_sdiff,
    Set.mem_singleton_iff]
  grind

theorem pollPeer_simulates {acc : LoopState × Bool} {id : JobId}
    (hplaced : Placed (wiring x.topo) (loopNet acc.1 ∅ false))
    (hid : id ∈ acc.1.peerWaits.map Prod.fst) (hfailure : x.config.keepGoing = false → D.stop)
    (hverdict : ∀ job exitCode, x.graph.getJob id = some job → PeerReports a id exitCode →
      ∀ attempt, D.verdict id attempt (judge job.errorStrategy attempt exitCode)) :
    let r := pollPeer x a acc id
    Simulates (wiring x.topo) D settling acc.1.frontier (loopNet acc.1 ∅ false)
      r.1.frontier (loopNet r.1 ∅ false) := by
  have hsub : ∀ o, routine o = true → settling o = true := fun o ho => by simp [settling, ho]
  obtain ⟨s, _⟩ := acc
  dsimp only at hplaced hid ⊢
  have hknown : ∀ j ∈ x.topo.order, (s.frontier.statuses j).isSome := fun j hj =>
    (hplaced.known j).mpr hj
  have hconsume : ∀ (job : ConcreteJob) (owner : String) (exitCode : ℤ),
      x.graph.getJob id = some job → PeerReports a id exitCode →
      s.frontier.statuses id = some .pending →
      Simulates (wiring x.topo) D settling s.frontier (loopNet s ∅ false)
        (consume x (peerCompletion a job owner exitCode) (unparkJob id s)).frontier
        (loopNet (consume x (peerCompletion a job owner exitCode) (unparkJob id s)) ∅ false) := by
    intro job owner exitCode hjob hreports hp
    have hname : job.id = id := getJob_id hjob
    refine consume_simulates (s := unparkJob id s) hfailure hknown (.inl ⟨.inr ⟨?_, ?_, rfl, ?_⟩, ?_⟩)
    · change job.id ∈ s.peerWaits.map Prod.fst
      rw [hname]
      exact hid
    · change s.frontier.statuses job.id = some .pending
      rw [hname]
      exact hp
    · change _ = _ \ {job.id}
      rw [hname]
      exact parked_unpark s id
    · change D.verdict job.id _ _
      rw [hname]
      exact hverdict job exitCode hjob hreports _
  unfold pollPeer
  dsimp only
  split
  · next hp =>
    refine .silent rfl (fun h => h) ?_
    unfold loopNet
    rw [parked_unpark]
    exact .unpark hid hp
  · next hp =>
    have hp : s.frontier.statuses id = some .pending := not_not.mp hp
    obtain ⟨job, hjob⟩ := getJob_of_placed hplaced hp
    rw [hjob]
    dsimp only
    cases hpeer : a.peer id with
    | running => exact .refl
    | unclaimed =>
      refine .silent rfl (fun h => h.insert) ?_
      have hnet := net_offer s.frontier ∅ {j | j ∈ s.inFlight}
        {j | j ∈ (unparkJob id s).peerWaits.map Prod.fst} ∅ s.terminateRequested false id
      change Fire _ _ _ _ (net (s.frontier.offer id) ∅ {j | j ∈ s.inFlight}
        {j | j ∈ (unparkJob id s).peerWaits.map Prod.fst} ∅ s.terminateRequested false)
      rw [hnet, parked_unpark]
      exact .unclaim hid hp
    | completed => exact hconsume job _ 0 hjob (.inl ⟨hpeer, rfl⟩) hp
    | failed exitCode => exact hconsume job _ exitCode hjob (.inr hpeer) hp
    | cancelled =>
      refine Simulates.mono ?_ hsub
      have hmirror : Simulates (wiring x.topo) D routine s.frontier (loopNet s ∅ false)
          (s.frontier.setStatus id .cancelled)
          (net (s.frontier.setStatus id .cancelled) ∅ {j | j ∈ s.inFlight}
            {j | j ∈ (unparkJob id s).peerWaits.map Prod.fst} (behind x.graph id)
            s.terminateRequested false) := by
        refine .write rfl rfl (fun h => h) ?_
        rw [parked_unpark]
        exact .mirror hid hp (spreads_behind x.topo id)
      have hterm : terminal ((s.frontier.setStatus id .cancelled).statuses id) = true := by
        rw [setStatus_statuses, Function.update_self]
        rfl
      refine Simulates.trans ?_
        (cancelDownstream_simulates x.topo (isSome_setStatus id .cancelled hknown) hterm)
      exact hmirror.andNote (by simp [routine]) rfl

theorem pollPeer_peerWaits (acc : LoopState × Bool) (id : JobId) :
    ((pollPeer x a acc id).1.peerWaits = acc.1.peerWaits ∨
      (pollPeer x a acc id).1.peerWaits = (unparkJob id acc.1).peerWaits) ∧
    (pollPeer x a acc id).1.shutdownSignalled = acc.1.shutdownSignalled ∧
    (pollPeer x a acc id).1.inFlight = acc.1.inFlight := by
  unfold pollPeer
  dsimp only
  split
  · exact ⟨.inr rfl, rfl, rfl⟩
  · split
    · exact ⟨.inr rfl, rfl, rfl⟩
    · split
      · exact ⟨.inl rfl, rfl, rfl⟩
      all_goals exact ⟨.inr rfl, rfl, rfl⟩

theorem Regular.pollPeer {acc : LoopState × Bool} (h : Regular x acc.1) (id : JobId) :
    Regular x (pollPeer x a acc id).1 := by
  obtain ⟨hpeers, hsignal, -⟩ := pollPeer_peerWaits (x := x) (a := a) acc id
  refine ⟨?_, fun hs => h.signalled (hsignal ▸ hs)⟩
  obtain he | he := hpeers <;> rw [he]
  · exact h.peers
  · exact (h.unpark id).peers

theorem pollPeers_simulates {waiting : List JobId} (acc : LoopState × Bool)
    (hnodup : waiting.Nodup) (hwaiting : ∀ j ∈ waiting, j ∈ acc.1.peerWaits.map Prod.fst)
    (hplaced : Placed (wiring x.topo) (loopNet acc.1 ∅ false)) (hregular : Regular x acc.1)
    (hfailure : x.config.keepGoing = false → D.stop)
    (hverdict : ∀ id job exitCode, x.graph.getJob id = some job → PeerReports a id exitCode →
      ∀ attempt, D.verdict id attempt (judge job.errorStrategy attempt exitCode)) :
    let r := waiting.foldl (pollPeer x a) acc
    Simulates (wiring x.topo) D settling acc.1.frontier (loopNet acc.1 ∅ false)
      r.1.frontier (loopNet r.1 ∅ false) ∧ Regular x r.1 ∧ r.1.inFlight = acc.1.inFlight := by
  induction waiting generalizing acc with
  | nil => exact ⟨.refl, hregular, rfl⟩
  | cons id waiting ih =>
    obtain ⟨hid, hrest⟩ := nodup_cons.mp hnodup
    have hone := pollPeer_simulates (a := a) hplaced (hwaiting id (by simp)) hfailure (hverdict id)
    obtain ⟨hpeers, -, hflight⟩ := pollPeer_peerWaits (x := x) (a := a) acc id
    have hstill : ∀ j ∈ waiting, j ∈ (pollPeer x a acc id).1.peerWaits.map Prod.fst := by
      intro j hj
      have hold := hwaiting j (by simp [hj])
      obtain he | he := hpeers
      · rw [he]
        exact hold
      · have hne : j ≠ id := fun h => hid (h ▸ hj)
        have hmem : j ∈ {k | k ∈ (unparkJob id acc.1).peerWaits.map Prod.fst} := by
          rw [parked_unpark]
          exact ⟨hold, hne⟩
        rw [he]
        exact hmem
    obtain ⟨hsim, hlast, hsame⟩ := ih _ hrest hstill (hone.placed hplaced) (hregular.pollPeer id)
    exact ⟨hone.trans hsim, hlast, hsame.trans hflight⟩

theorem pollPeerWaits_simulates {s : LoopState}
    (hplaced : Placed (wiring x.topo) (loopNet s ∅ false)) (hregular : Regular x s)
    (hfailure : x.config.keepGoing = false → D.stop)
    (hverdict : ∀ id job exitCode, x.graph.getJob id = some job → PeerReports a id exitCode →
      ∀ attempt, D.verdict id attempt (judge job.errorStrategy attempt exitCode)) :
    let r := pollPeerWaits x a s
    Simulates (wiring x.topo) D settling s.frontier (loopNet s ∅ false)
      r.1.frontier (loopNet r.1 ∅ false) ∧ Regular x r.1 ∧ r.1.inFlight = s.inFlight := by
  have hperm := a.peerOrder_perm (s.peerWaits.map Prod.fst)
  exact pollPeers_simulates (s, false) (hperm.nodup_iff.mpr hregular.peers)
    (fun j hj => hperm.mem_iff.mp hj) hplaced hregular hfailure hverdict

end Peers

section Points

/-- Restrictions of the inputs of a run imply restrictions of the net. -/
structure Obeys (x : Setup) (c : Conduct) (D : Discipline JobId) : Prop where
  /-- A shutdown signal stops the net. -/
  shutdown : x.shutdown = true → D.stop
  /-- So does a failure without keep-going. -/
  failure : x.config.keepGoing = false → D.stop
  /-- A claimer can leave jobs to other sessions. -/
  park : x.claimer = true → D.park
  /-- A cache hit satisfies a job. -/
  hit : ∀ {s a id}, c.pass s a → x.cache = true → a.check id = .ok () → D.hit
  /-- A rejected gate rejects the job. -/
  reject : ∀ {s a id}, c.pass s a → id ∈ s.frontier.readyFrontier → Rejected x a id →
    ∀ f, Keeps s.frontier f → D.reject f.statuses id
  /-- A peer session reports a possible verdict. -/
  peer : ∀ {s a id job exitCode}, c.pass s a → x.claimer = true →
    x.graph.getJob id = some job → PeerReports a id exitCode →
    ∀ attempt, D.verdict id attempt (judge job.errorStrategy attempt exitCode)
  /-- The executor reports a possible verdict. -/
  completed : ∀ {s msg}, c.await s (.completed msg) →
    x.graph.getJob msg.job.id = some msg.job →
    D.verdict msg.job.id (s.frontier.retryCounts msg.job.id + 1)
      (judge msg.job.errorStrategy (s.frontier.retryCounts msg.job.id + 1) msg.result.exitCode)

def anything (_ : Obs) : Bool := true

theorem Simulates.widen {W : Wiring JobId} {kind : Obs → Bool} {f f' : Frontier} {n n' : Net JobId}
    (h : Simulates W D kind f n f' n') : Simulates W D anything f n f' n' :=
  h.mono fun _ _ => rfl

variable {c : Conduct}

def entered (s : LoopState) : LoopState := { s with frontier := s.frontier.note [.pass] }

theorem search_simulates (hobeys : Obeys x c D) {s : LoopState} (hpass : c.pass s a)
    (hplaced : Placed (wiring x.topo) (loopNet s ∅ false))
    (hnodup : s.frontier.readyFrontier.Nodup) (hgoing : s.terminateRequested = false) :
    let found := findReadyJobs x a (entered s)
    let m : LoopState :=
      { entered s with frontier := found.frontier, gatesSeen := found.gatesSeen }
    Simulates (wiring x.topo) D anything s.frontier (loopNet s ∅ false)
      m.frontier (loopNet m {j | j ∈ found.ready} false) ∧
    found.ready.Nodup ∧ ∀ j ∈ found.ready, found.frontier.statuses j = some .ready := by
  have henter : Simulates (wiring x.topo) D anything s.frontier (loopNet s ∅ false)
      (entered s).frontier (loopNet (entered s) ∅ false) := .note (by simp [anything]) rfl
  have hready : ∀ j ∈ (entered s).frontier.readyFrontier,
      (entered s).frontier.statuses j ≠ some .ready := by
    intro j _ hj
    obtain h | h := hplaced.ready j hj
    · exact h
    · exact absurd h (by simp [loopNet, net, hgoing])
  obtain ⟨hfind, hrest⟩ := findReadyJobs_simulates (x := x) (a := a) (D := D)
    {j | j ∈ s.inFlight} {j | j ∈ s.peerWaits.map Prod.fst} s.terminateRequested
    (s := entered s) hnodup hready fun id hid hrej => hobeys.reject (s := s) hpass hid hrej
  exact ⟨henter.trans (Simulates.widen hfind), hrest⟩

theorem attempts_simulate (hobeys : Obeys x c D) {s : LoopState} (hpass : c.pass s a)
    (hplaced : Placed (wiring x.topo) (loopNet s ∅ false))
    (hnodup : s.frontier.readyFrontier.Nodup) (hgoing : s.terminateRequested = false) :
    let found := findReadyJobs x a (entered s)
    let m : LoopState :=
      { entered s with frontier := found.frontier, gatesSeen := found.gatesSeen }
    let r := dispatchLoop x a found.ready m false
    (found.ready.Nodup ∧ ∀ j ∈ found.ready, found.frontier.statuses j = some .ready) ∧
    Simulates (wiring x.topo) D anything s.frontier (loopNet s ∅ false)
      r.1.frontier (loopNet r.1 ∅ false) := by
  obtain ⟨hm, hfoundNodup, hfoundReady⟩ := search_simulates hobeys hpass hplaced hnodup hgoing
  dsimp only at hm ⊢
  generalize findReadyJobs x a (entered s) = found at hm hfoundNodup hfoundReady
  let m : LoopState := { entered s with frontier := found.frontier, gatesSeen := found.gatesSeen }
  have hjob : ∀ j ∈ found.ready, (x.graph.getJob j).isSome := by
    intro j hj
    obtain ⟨_, hjob⟩ := getJob_of_placed (hm.placed hplaced) (hfoundReady j hj)
    rw [hjob]
    rfl
  have hloop := dispatchLoop_simulates (x := x) (a := a) (D := D) (s := m) false hfoundNodup
    hfoundReady hjob (fun id => hobeys.hit hpass) hobeys.shutdown hobeys.park
  exact ⟨⟨hfoundNodup, hfoundReady⟩, hm.trans (Simulates.widen hloop)⟩

theorem dispatchPhase_simulates (hobeys : Obeys x c D) {s : LoopState} (hpass : c.pass s a)
    (hplaced : Placed (wiring x.topo) (loopNet s ∅ false)) (hregular : Regular x s)
    (hnodup : s.frontier.readyFrontier.Nodup) (hgoing : s.terminateRequested = false) :
    let r := dispatchPhase x a (entered s)
    Simulates (wiring x.topo) D anything s.frontier (loopNet s ∅ false)
      r.1.frontier (loopNet r.1 ∅ false) ∧ Regular x r.1 := by
  obtain ⟨-, hdispatched⟩ := attempts_simulate hobeys hpass hplaced hnodup hgoing
  unfold dispatchPhase
  dsimp only at hdispatched ⊢
  generalize findReadyJobs x a (entered s) = found at hdispatched
  let m : LoopState := { entered s with frontier := found.frontier, gatesSeen := found.gatesSeen }
  have hregular' : Regular x (dispatchLoop x a found.ready m false).1 :=
    Regular.dispatchLoop (s := m) ⟨hregular.peers, hregular.signalled⟩ found.ready false
  split
  · next hpolled =>
    obtain ⟨hpoll, hreg, -⟩ := pollPeerWaits_simulates (x := x) (a := a) (D := D)
      (hdispatched.placed hplaced) hregular' hobeys.failure fun id job exitCode =>
        hobeys.peer hpass hpolled.1
    exact ⟨hdispatched.trans (Simulates.widen hpoll), hreg⟩
  · exact ⟨hdispatched, hregular'⟩

theorem cancelRemaining_simulates {s : LoopState} (hstop : s.terminateRequested = true)
    (hflight : s.inFlight = []) :
    ∃ closed, Simulates (wiring x.topo) D anything s.frontier (loopNet s ∅ false)
      (cancelRemaining x s).frontier (loopNet (cancelRemaining x s) ∅ closed) := by
  have hfold : ∀ (ids : List JobId) (f : Frontier) (closed : Bool), ids.Nodup →
      (∀ j ∈ ids, f.statuses j = some .pending ∨ f.statuses j = some .ready) →
      ∃ closed', Simulates (wiring x.topo) D anything f
        (net f ∅ ∅ {j | j ∈ s.peerWaits.map Prod.fst} ∅ true closed)
        (ids.foldl (fun f id => (f.setStatus id .cancelled).note
          [.event (.jobCancelled id "run terminated due to failure")]) f)
        (net (ids.foldl (fun f id => (f.setStatus id .cancelled).note
          [.event (.jobCancelled id "run terminated due to failure")]) f) ∅ ∅
          {j | j ∈ s.peerWaits.map Prod.fst} ∅ true closed') := by
    intro ids
    induction ids with
    | nil => exact fun f closed _ _ => ⟨closed, .refl⟩
    | cons id ids ih =>
      intro f closed hnodup hopen
      obtain ⟨hid, hrest⟩ := nodup_cons.mp hnodup
      have hone : Simulates (wiring x.topo) D anything f
          (net f ∅ ∅ {j | j ∈ s.peerWaits.map Prod.fst} ∅ true closed)
          ((f.setStatus id .cancelled).note
            [.event (.jobCancelled id "run terminated due to failure")])
          (net ((f.setStatus id .cancelled).note
            [.event (.jobCancelled id "run terminated due to failure")]) ∅ ∅
            {j | j ∈ s.peerWaits.map Prod.fst} ∅ true true) := by
        refine Simulates.andNote ?_ (by simp [anything]) rfl
        exact .write rfl rfl (fun h => h) (.close rfl rfl rfl (hopen id (by simp)))
      obtain ⟨closed', hsim⟩ := ih ((f.setStatus id .cancelled).note
        [.event (.jobCancelled id "run terminated due to failure")]) true hrest (by
          intro j hj
          have hne : j ≠ id := fun h => hid (h ▸ hj)
          simpa [hne] using hopen j (by simp [hj]))
      exact ⟨closed', hone.trans hsim⟩
  have hnet : ∀ f closed, net f ∅ {j | j ∈ s.inFlight} {j | j ∈ s.peerWaits.map Prod.fst} ∅
      s.terminateRequested closed =
      net f ∅ ∅ {j | j ∈ s.peerWaits.map Prod.fst} ∅ true closed := by
    intro f closed
    rw [hflight, hstop]
    simp
  obtain ⟨closed, hsim⟩ := hfold (x.graph.jobIds.filter fun id =>
      s.frontier.getStatus id = some .pending ∨ s.frontier.getStatus id = some .ready)
    s.frontier false (jobIds_nodup.filter _) (by
      intro j hj
      exact of_decide_eq_true (mem_filter.mp hj).2)
  refine ⟨closed, ?_⟩
  unfold loopNet cancelRemaining
  dsimp only
  rw [hnet, hnet]
  exact hsim

theorem interrupt_simulates {s : LoopState} {order : List JobId} (hstop : D.stop)
    (hperm : order.Perm s.inFlight) :
    Simulates (wiring x.topo) D anything s.frontier (loopNet s ∅ false)
      (interrupt order s).frontier (loopNet (interrupt order s) ∅ false) := by
  have hfold : ∀ (ids : List JobId) (f : Frontier), (∀ j ∈ ids, j ∈ s.inFlight) →
      Simulates (wiring x.topo) D anything f
        (net f ∅ {j | j ∈ s.inFlight} {j | j ∈ s.peerWaits.map Prod.fst} ∅ true false)
        (ids.foldl (fun f id => f.setStatus id .cancelled) f)
        (net (ids.foldl (fun f id => f.setStatus id .cancelled) f) ∅ {j | j ∈ s.inFlight}
          {j | j ∈ s.peerWaits.map Prod.fst} ∅ true false) := by
    intro ids
    induction ids with
    | nil => exact fun f _ => .refl
    | cons id ids ih =>
      intro f hflight
      have hone : Simulates (wiring x.topo) D anything f
          (net f ∅ {j | j ∈ s.inFlight} {j | j ∈ s.peerWaits.map Prod.fst} ∅ true false)
          (f.setStatus id .cancelled)
          (net (f.setStatus id .cancelled) ∅ {j | j ∈ s.inFlight}
            {j | j ∈ s.peerWaits.map Prod.fst} ∅ true false) :=
        .write rfl rfl (fun h => h) (.interrupt rfl (hflight id (by simp)))
      exact hone.trans (ih _ fun j hj => hflight j (by simp [hj]))
  have hstopped : Simulates (wiring x.topo) D anything s.frontier (loopNet s ∅ false) s.frontier
      (net s.frontier ∅ {j | j ∈ s.inFlight} {j | j ∈ s.peerWaits.map Prod.fst} ∅ true false) :=
    .silent rfl (fun h => h) (.stop hstop)
  refine hstopped.trans ?_
  unfold interrupt loopNet
  dsimp only
  refine Simulates.andNote (hfold order s.frontier fun j hj => hperm.mem_iff.mp hj)
    (by simp [anything]) ?_
  refine filterMap_eq_nil_iff.mpr fun o ho => ?_
  obtain ⟨id, -, ho⟩ := mem_flatMap.mp ho
  simp only [mem_cons, not_mem_nil, or_false] at ho
  obtain rfl | rfl := ho <;> rfl

/-- A point of a run together with the run of the net that reaches it from a
state of the loop. -/
structure Linked (x : Setup) (D : Discipline JobId) (start : LoopState) (p : Point)
    (closed : Bool) (obs : List Obs) : Prop where
  log : p.state.frontier.log = start.frontier.log ++ obs
  /-- The net reaches the same state with the same writes. -/
  run : Run (Fire (wiring x.topo) D) (loopNet start ∅ false) (writes obs)
    (loopNet p.state ∅ closed)
  nodup : p.state.frontier.readyFrontier.Nodup
  regular : Regular x p.state
  /-- Only a returned run has cancelled the remaining jobs. -/
  isOpen : (∀ s, p ≠ .returned s) → closed = false

variable {start : LoopState}

theorem Linked.extend {p q : Point} {closed closed' : Bool} {obs : List Obs}
    (h : Linked x D start p closed obs)
    (hsim : Simulates (wiring x.topo) D anything p.state.frontier (loopNet p.state ∅ closed)
      q.state.frontier (loopNet q.state ∅ closed'))
    (hregular : Regular x q.state) (hopen : (∀ s, q ≠ .returned s) → closed' = false) :
    ∃ obs, Linked x D start q closed' obs := by
  obtain ⟨new, hlog, -, hnodup, hrun⟩ := hsim
  refine ⟨obs ++ new, ?_, ?_, hnodup h.nodup, hregular, hopen⟩
  · rw [hlog, h.log, append_assoc]
  · rw [writes_append]
    exact h.run.trans hrun

theorem Linked.exitTests {m : LoopState} {obs : List Obs} (h : Linked x D start (.head m) false obs)
    (skipped : Bool) : ∃ closed obs, Linked x D start (exitTests x m skipped) closed obs := by
  have hfinish : ∀ (s : LoopState) (closed : Bool), Simulates (wiring x.topo) D anything
      s.frontier (loopNet s ∅ closed) (finishRun x s).frontier (loopNet (finishRun x s) ∅ closed) :=
    fun s closed => .note (by simp [anything]) rfl
  unfold SchedulerLoop.exitTests
  split
  · exact ⟨false, h.extend (q := .returned (finishRun x m)) (hfinish m false)
      ⟨h.regular.peers, h.regular.signalled⟩ fun _ => rfl⟩
  · split
    · next hstop =>
      obtain ⟨closed, hcancel⟩ :=
        cancelRemaining_simulates (x := x) (D := D) hstop.1 hstop.2
      exact ⟨closed, h.extend (q := .returned (finishRun x (cancelRemaining x m)))
        (hcancel.trans (hfinish _ closed)) ⟨h.regular.peers, h.regular.signalled⟩
        fun hq => absurd rfl (hq _)⟩
    · split
      · exact ⟨false, h.extend (q := .returned (finishRun x m)) (hfinish m false)
          ⟨h.regular.peers, h.regular.signalled⟩ fun _ => rfl⟩
      · exact ⟨false, h.extend (q := .waiting (armHardKill m) skipped) .refl
          ⟨h.regular.peers, h.regular.signalled⟩ fun _ => rfl⟩

theorem Linked.pass (hobeys : Obeys x c D)
    (hstart : Placed (wiring x.topo) (loopNet start ∅ false)) {s : LoopState}
    {closed : Bool} {obs : List Obs} (h : Linked x D start (.head s) closed obs) (hpass : c.pass s a) :
    ∃ closed obs, Linked x D start (pass x a s) closed obs := by
  obtain rfl := h.isOpen (by simp)
  have hplaced : Placed (wiring x.topo) (loopNet s ∅ false) :=
    h.run.invariant (Placed (wiring x.topo)) (fun _ _ _ hs hfire => hs.fire hfire) hstart
  unfold SchedulerLoop.pass
  dsimp only
  split
  · have henter : Simulates (wiring x.topo) D anything s.frontier (loopNet s ∅ false)
        (entered s).frontier (loopNet (entered s) ∅ false) := .note (by simp [anything]) rfl
    obtain ⟨obs', hentered⟩ := h.extend (q := .head (entered s)) henter
      ⟨h.regular.peers, h.regular.signalled⟩ fun _ => rfl
    exact hentered.exitTests false
  · next hgoing =>
    have hgoing : s.terminateRequested = false := by simpa using hgoing
    obtain ⟨hsim, hregular⟩ := dispatchPhase_simulates hobeys hpass hplaced h.regular h.nodup hgoing
    obtain ⟨obs', hphased⟩ := h.extend (q := .head (dispatchPhase x a (entered s)).1) hsim hregular
      fun _ => rfl
    exact hphased.exitTests _

theorem completed_simulates (hobeys : Obeys x c D) {s : LoopState} {msg : CompletionMsg}
    (hplaced : Placed (wiring x.topo) (loopNet s ∅ false)) (hawait : c.await s (.completed msg))
    (hflight : msg.job.id ∈ s.inFlight) (hjob : x.graph.getJob msg.job.id = some msg.job) :
    Simulates (wiring x.topo) D anything s.frontier (loopNet s ∅ false)
      (consume x msg (joinTask x msg.job.id s)).frontier
      (loopNet (consume x msg (joinTask x msg.job.id s)) ∅ false) := by
  have hleft : {j | j ∈ (joinTask x msg.job.id s).inFlight} =
      {j | j ∈ s.inFlight} \ {msg.job.id} := by
    ext j
    simp [joinTask]
  refine Simulates.widen (consume_simulates (s := joinTask x msg.job.id s) hobeys.failure
    (fun j hj => (hplaced.known j).mpr hj) ?_)
  obtain hrunning | hcancelled := hplaced.flying msg.job.id hflight
  · exact .inl ⟨.inl ⟨hflight, hrunning, hleft, rfl⟩, hobeys.completed (s := s) hawait hjob⟩
  · exact .inr ⟨hflight, hcancelled, hleft, rfl⟩

theorem Linked.await (hobeys : Obeys x c D)
    (hstart : Placed (wiring x.topo) (loopNet start ∅ false)) {s : LoopState}
    {skipped : Bool} {arm : Arm} {q : Point} {closed : Bool} {obs : List Obs}
    (h : Linked x D start (.waiting s skipped) closed obs) (hawait : c.await s arm)
    (hq : await x s skipped arm = some q) : ∃ closed obs, Linked x D start q closed obs := by
  obtain rfl := h.isOpen (by simp)
  have hplaced : Placed (wiring x.topo) (loopNet s ∅ false) :=
    h.run.invariant (Placed (wiring x.topo)) (fun _ _ _ hs hfire => hs.fire hfire) hstart
  have hregular := h.regular
  have hsame : ∃ closed obs, Linked x D start (.head s) closed obs :=
    ⟨false, h.extend (q := .head s) .refl hregular fun _ => rfl⟩
  cases await_cases x hq with
  | again | polled | retryElapsed => exact hsame
  | interrupted _ hgiven _ hperm =>
    have hallowed : D.stop := hgiven.elim hobeys.shutdown fun hs =>
      hobeys.shutdown (hregular.signalled hs)
    exact ⟨false, h.extend (q := .head _) (interrupt_simulates hallowed hperm)
      ⟨hregular.peers, hregular.signalled⟩ fun _ => rfl⟩
  | stopped _ _ hgiven _ =>
    exact ⟨false, h.extend (q := .head _)
      (.silent rfl (fun h => h) (.stop (hobeys.shutdown hgiven)))
      ⟨hregular.peers, hregular.signalled⟩ fun _ => rfl⟩
  | completed hflight hjob =>
    exact ⟨false, h.extend (q := .head _) (completed_simulates hobeys hplaced hawait hflight hjob)
      ⟨hregular.peers, hregular.signalled⟩ fun _ => rfl⟩
  | taskFailed =>
    refine ⟨false, h.extend (q := .aborted _) (.note (by simp [anything]) ?_)
      ⟨hregular.peers, hregular.signalled⟩ fun _ => rfl⟩
    simp [writes, Obs.write?]
  | hardKill =>
    refine ⟨false, h.extend (q := .head _) (.note (by simp [anything]) ?_)
      ⟨hregular.peers, hregular.signalled⟩ fun _ => rfl⟩
    simp [writes, Obs.write?]

end Points

section Start

open FrontierInitialisation

variable (x)

theorem initial_placed : Placed (wiring x.topo) (loopNet (initial x) ∅ false) := by
  have hpending : ∀ j, unfinished ((initial x).frontier.statuses j) = true →
      (initial x).frontier.statuses j = some .pending := fun j hj =>
    init_unfinished x.topo x.config x.budget hj
  refine ⟨fun j => ?_, fun j hj => absurd hj (by simp [loopNet, net, initial]), fun j hj => ?_,
    fun j hj => ?_⟩
  · change ((init x.topo.order x.graph x.config x.budget).statuses j).isSome ↔ j ∈ x.topo.order
    rw [init_statuses]
    split
    · next h => simp [h.2]
    · exact base_statuses_isSome x.topo.order x.config x.budget j
  · have hst : (initial x).frontier.statuses j = some .running := hj
    have hp := hpending j (by rw [hst]; rfl)
    rw [hst] at hp
    cases hp
  · have hst : (initial x).frontier.statuses j = some .ready := hj
    have hp := hpending j (by rw [hst]; rfl)
    rw [hst] at hp
    cases hp

theorem initial_sound {exact : Prop}
    (hexact : exact → SkipsCountOnce x.topo.order x.graph x.config) :
    Sound (wiring x.topo) exact (loopNet (initial x) ∅ false) := by
  have hready := init_readyExact x.topo x.config x.budget
  have hpending : ∀ j, unfinished ((initial x).frontier.statuses j) = true →
      (initial x).frontier.statuses j = some .pending := fun j hj =>
    init_unfinished x.topo x.config x.budget hj
  refine ⟨initial_placed x, fun j hj hc => .inl ((hready j).mpr ⟨hj, hc⟩), fun j hj hl => ?_,
    fun j hj => ?_⟩
  · have hp := hpending j hj
    obtain (hfront | hhand | hparked) | hne := hl
    · exact ((hready j).mp hfront).2
    · exact absurd hhand (by simp [loopNet, net])
    · exact absurd hparked (by simp [loopNet, net, initial])
    · exact absurd hp hne
  · have hp := hpending j hj
    refine ⟨_, init_pendingUpstream x.topo x.config x.budget hp, Nat.sub_le _ _, fun he => ?_⟩
    have hinit := (init_initialised_iff x.topo x.config x.budget).mpr (hexact he)
    have hcount := hinit.counts j hp
    rw [init_pendingUpstream x.topo x.config x.budget hp, Option.some.injEq] at hcount
    exact hcount

theorem initial_tidy : Tidy (loopNet (initial x) ∅ false) := by
  refine ⟨fun _ j hj => ?_, fun j hj => absurd hj (by simp [loopNet, net]),
    fun j hj => absurd hj (by simp [loopNet, net, initial])⟩
  exact ((init_readyExact x.topo x.config x.budget j).mp hj).1

variable {x} {c : Conduct}

theorem initial_linked : Linked x D (initial x) (.head (initial x)) false [] :=
  ⟨by simp [Point.state], .refl _, init_nodup x.topo x.config x.budget,
    ⟨by simp [Point.state, initial], by simp [Point.state, initial]⟩, fun _ => rfl⟩

theorem reachable_linked (hobeys : Obeys x c D) {p : Point} (h : Reachable x c p) :
    ∃ closed obs, Linked x D (initial x) p closed obs := by
  induction h with
  | start => exact ⟨false, [], initial_linked⟩
  | pass _ hpass ih =>
    obtain ⟨closed, obs, hlinked⟩ := ih
    exact hlinked.pass hobeys (initial_placed x) hpass
  | await _ hawait hq ih =>
    obtain ⟨closed, obs, hlinked⟩ := ih
    exact hlinked.await hobeys (initial_placed x) hawait hq

end Start

end OxyMake.LoopRefinement
