import OxyMake.ObservedGrowth

/-!
# Launches behind gates

With a gate checker the search for ready jobs makes a gated job ready only when
all its blocking gates are approved. Every launch therefore follows, in the
same iteration, the approvals of all blocking gates of the job.
-/

namespace OxyMake.GatedLaunches

open List
open PhysicalGraph Observation SchedulingFrontier Frontier SchedulerLoop LoopRefinement
open ObservedGrowth

section Search

variable {x : Setup} {a : Answers}

/-- The observation is the answer of this iteration to a blocking gate of a job. -/
def Asks (x : Setup) (a : Answers) (o : Obs) : Prop :=
  ∃ id, ∃ entry ∈ (x.graph.blockingGates id).zipIdx,
    o = .gateAnswered id entry.1 (a.gate id entry.2)

/-- Observations of a search: calm ones and answers to gates. -/
def Searches (x : Setup) (a : Answers) (o : Obs) : Prop := calm o = true ∨ Asks x a o

/-- The gates of a job were all approved, and the log shows each answer. -/
def Approved (x : Setup) (a : Answers) (obs : List Obs) (id : JobId) : Prop :=
  (∀ st ∈ gateAnswers x a id, st = .approved) ∧
    ∀ gate ∈ x.graph.blockingGates id, .gateAnswered id gate .approved ∈ obs

theorem Approved.mono {obs obs' : List Obs} {id : JobId} (h : Approved x a obs id)
    (hsub : ∀ o ∈ obs, o ∈ obs') : Approved x a obs' id :=
  ⟨h.1, fun gate hgate => hsub _ (h.2 gate hgate)⟩

theorem Approved.ungated {obs : List Obs} {id : JobId} (h : x.graph.blockingGates id = []) :
    Approved x a obs id := by
  constructor
  · rw [gateAnswers, h]
    simp
  · rw [h]
    simp

theorem Approved.answers {obs : List Obs} {id : JobId} (h : Approved x a obs id) {gate : GateId}
    {st : GateStatus} (hasks : Asks x a (.gateAnswered id gate st)) : st = .approved := by
  obtain ⟨_, entry, hentry, he⟩ := hasks
  cases he
  exact h.1 _ (mem_map.mpr ⟨entry, hentry, rfl⟩)

theorem askGate_log (id : JobId) (acc : Search) {entry : GateId × ℕ}
    (hentry : entry ∈ (x.graph.blockingGates id).zipIdx) :
    ∃ obs, (askGate a id acc entry).frontier.log = acc.frontier.log ++ obs ∧
      (∀ o ∈ obs, Searches x a o) ∧ .gateAnswered id entry.1 (a.gate id entry.2) ∈ obs := by
  have hsearches : ∀ o ∈ (if entry.1 ∈ acc.gatesSeen.registered then []
      else [Obs.gateRegistered entry.1]) ++ [.gateAnswered id entry.1 (a.gate id entry.2)],
      Searches x a o := by
    intro o ho
    cases mem_append.mp ho with
    | inl h =>
      split at h
      · cases h
      · rw [mem_singleton.mp h]
        exact .inl rfl
    | inr h => exact .inr ⟨id, entry, hentry, mem_singleton.mp h⟩
  have hannounced : ∀ ev : Event, ∀ o ∈ ((if entry.1 ∈ acc.gatesSeen.registered then []
      else [Obs.gateRegistered entry.1]) ++ [.gateAnswered id entry.1 (a.gate id entry.2)]) ++
        [Obs.event ev], Searches x a o := by
    intro ev o ho
    cases mem_append.mp ho with
    | inl h => exact hsearches o h
    | inr h =>
      rw [mem_singleton.mp h]
      exact .inl rfl
  unfold askGate
  dsimp only
  split
  · exact ⟨_, rfl, hsearches, by simp⟩
  · exact ⟨_, rfl, hsearches, by simp⟩
  · split
    · exact ⟨_, rfl, hsearches, by simp⟩
    · exact ⟨_, append_assoc _ _ _, hannounced _, by simp⟩
  · split
    · exact ⟨_, rfl, hsearches, by simp⟩
    · exact ⟨_, append_assoc _ _ _, hannounced _, by simp⟩

theorem askGates_log (id : JobId) (acc : Search) (entries : List (GateId × ℕ))
    (hentries : ∀ entry ∈ entries, entry ∈ (x.graph.blockingGates id).zipIdx) :
    ∃ obs, (entries.foldl (askGate a id) acc).frontier.log = acc.frontier.log ++ obs ∧
      (∀ o ∈ obs, Searches x a o) ∧
      ∀ entry ∈ entries, .gateAnswered id entry.1 (a.gate id entry.2) ∈ obs := by
  induction entries generalizing acc with
  | nil => exact ⟨[], by simp, by simp, by simp⟩
  | cons entry entries ih =>
    obtain ⟨obs, hlog, hobs, hanswer⟩ := askGate_log (a := a) id acc (hentries entry (by simp))
    obtain ⟨obs', hlog', hobs', hanswers⟩ :=
      ih (askGate a id acc entry) fun e he => hentries e (.tail _ he)
    refine ⟨obs ++ obs', ?_, ?_, ?_⟩
    · rw [foldl_cons, hlog', hlog, append_assoc]
    · intro o ho
      cases mem_append.mp ho with
      | inl h => exact hobs o h
      | inr h => exact hobs' o h
    · intro e he
      cases mem_cons.mp he with
      | inl h => exact mem_append_left _ (h ▸ hanswer)
      | inr h => exact mem_append_right _ (hanswers e h)

/-- A search so far: what it observed, and that its ready jobs are approved. -/
def Cleared (x : Setup) (a : Answers) (f₀ : Frontier) (acc : Search) : Prop :=
  ∃ obs, acc.frontier.log = f₀.log ++ obs ∧ (∀ o ∈ obs, Searches x a o) ∧
    ∀ id ∈ acc.ready, Approved x a obs id

theorem Cleared.extend {f₀ : Frontier} {acc acc' : Search} (h : Cleared x a f₀ acc)
    (obs : List Obs) (hlog : acc'.frontier.log = acc.frontier.log ++ obs)
    (hobs : ∀ o ∈ obs, Searches x a o)
    (hready : ∀ id ∈ acc'.ready, id ∈ acc.ready ∨ Approved x a obs id) : Cleared x a f₀ acc' := by
  obtain ⟨before, hbefore, hsearches, happroved⟩ := h
  refine ⟨before ++ obs, by rw [hlog, hbefore, append_assoc], ?_, ?_⟩
  · intro o ho
    cases mem_append.mp ho with
    | inl h => exact hsearches o h
    | inr h => exact hobs o h
  · intro id hid
    cases hready id hid with
    | inl h => exact (happroved id h).mono fun o ho => mem_append_left _ ho
    | inr h => exact h.mono fun o ho => mem_append_right _ ho

theorem Cleared.drainOne {f₀ : Frontier} {acc : Search} (h : Cleared x a f₀ acc) (id : JobId) :
    Cleared x a f₀ (drainOne x a acc id) := by
  unfold SchedulerLoop.drainOne
  split
  · exact h
  · split
    · exact h.extend [] (append_nil _).symm (by simp) fun j hj => .inl hj
    · dsimp only
      split
      · next hungated =>
        refine h.extend [.status id .ready] rfl ?_ fun j hj => ?_
        · intro o ho
          rw [mem_singleton.mp ho]
          exact .inl rfl
        · cases mem_append.mp hj with
          | inl hj => exact .inl hj
          | inr hj =>
            rw [mem_singleton.mp hj]
            exact .inr (.ungated hungated)
      · exact h.extend [] (append_nil _).symm (by simp) fun j hj => .inl hj

theorem Cleared.checkGated {f₀ : Frontier} {acc : Search} (h : Cleared x a f₀ acc) (id : JobId) :
    Cleared x a f₀ (checkGated x a acc id) := by
  obtain ⟨obs, hlog, hobs, hanswers⟩ := askGates_log (x := x) (a := a) id acc
    (x.graph.blockingGates id).zipIdx fun _ he => he
  have hkeeps := (askGates_notes (a := a) id acc (x.graph.blockingGates id).zipIdx).2
  have hcalm : ∀ rest : List Obs, (∀ o ∈ rest, calm o = true) →
      ∀ o ∈ obs ++ rest, Searches x a o := by
    intro rest hrest o ho
    cases mem_append.mp ho with
    | inl h => exact hobs o h
    | inr h => exact .inl (hrest o h)
  unfold SchedulerLoop.checkGated
  dsimp only
  split
  · exact h.extend obs hlog hobs fun j hj => .inl (hkeeps ▸ hj)
  · split
    · refine h.extend (obs ++ [.status id .cancelled, .event (.jobCancelled id
        "gate rejected")]) ?_ (hcalm _ (by simp [calm])) fun j hj => .inl (hkeeps ▸ hj)
      simp [Frontier.setStatus, Frontier.note, hlog]
    · split
      · next happroved =>
        refine h.extend (obs ++ ((x.graph.blockingGates id).map (fun gate =>
          Obs.event (.gateApproved gate "gate-check")) ++ [.status id .ready])) ?_
          (hcalm _ ?_) fun j hj => ?_
        · simp [Frontier.setStatus, Frontier.note, hlog]
        · intro o ho
          cases mem_append.mp ho with
          | inl h =>
            obtain ⟨gate, -, rfl⟩ := mem_map.mp h
            rfl
          | inr h =>
            rw [mem_singleton.mp h]
            rfl
        · cases mem_append.mp hj with
          | inl hj => exact .inl (hkeeps ▸ hj)
          | inr hj =>
            rw [mem_singleton.mp hj]
            refine .inr ⟨happroved, fun gate hgate => mem_append_left _ ?_⟩
            obtain ⟨i, hi⟩ := mem_iff_getElem?.mp hgate
            have hentry : (gate, i) ∈ (x.graph.blockingGates id).zipIdx :=
              mk_mem_zipIdx_iff_getElem?.mpr hi
            have hanswer := hanswers _ hentry
            rwa [happroved _ (mem_map.mpr ⟨_, hentry, rfl⟩)] at hanswer
      · exact h.extend obs hlog hobs fun j hj => .inl (hkeeps ▸ hj)

theorem findReadyJobs_cleared (hchecker : x.gateChecker = true) (s : LoopState) :
    Cleared x a s.frontier (findReadyJobs x a s) := by
  have hdrain : ∀ (ids : List JobId) (acc : Search), Cleared x a s.frontier acc →
      Cleared x a s.frontier (ids.foldl (drainOne x a) acc) := by
    intro ids
    induction ids with
    | nil => exact fun acc h => h
    | cons id ids ih => exact fun acc h => ih _ (h.drainOne id)
  have hgates : ∀ (ids : List JobId) (acc : Search), Cleared x a s.frontier acc →
      Cleared x a s.frontier (ids.foldl (checkGated x a) acc) := by
    intro ids
    induction ids with
    | nil => exact fun acc h => h
    | cons id ids ih => exact fun acc h => ih _ (h.checkGated id)
  have hstart : Cleared x a s.frontier
      ⟨{ s.frontier with readyFrontier := [] }, [], [], s.gatesSeen⟩ :=
    ⟨[], (append_nil _).symm, by simp, by simp⟩
  unfold findReadyJobs
  dsimp only
  rw [if_pos hchecker]
  obtain ⟨obs, hlog, hobs, hready⟩ := hgates _ _ (hdrain _ _ hstart)
  refine ⟨obs, hlog, hobs, fun id hid => hready id ?_⟩
  exact (perm_insertionSort _ _).mem_iff.mp hid

end Search

section Launches

variable {x : Setup} {a : Answers}

/-- Every launch in a log follows, in the same iteration, approvals of all
blocking gates of the job, and no other answer to one of them. -/
def LaunchesApproved (x : Setup) (log : List Obs) : Prop :=
  ∀ earlier id later, log = earlier ++ .launched id :: later →
    ∃ before mid, earlier = before ++ .pass :: mid ∧ .pass ∉ mid ∧
      (∀ gate ∈ x.graph.blockingGates id, .gateAnswered id gate .approved ∈ mid) ∧
      ∀ gate st, .gateAnswered id gate st ∈ mid → st = .approved

theorem LaunchesApproved.calm {log obs : List Obs} (h : LaunchesApproved x log)
    (hobs : ∀ o ∈ obs, calm o = true) : LaunchesApproved x (log ++ obs) := by
  intro earlier id later he
  cases append_eq_append_iff.mp he with
  | inl hright =>
    obtain ⟨mid, -, hmid⟩ := hright
    have hcalm := hobs (.launched id) (by rw [hmid]; simp)
    cases hcalm
  | inr hleft =>
    obtain ⟨mid, hlog, hmid⟩ := hleft
    cases mid with
    | nil =>
      have hcalm := hobs (.launched id) (by rw [← nil_append obs, ← hmid]; simp)
      cases hcalm
    | cons o mid =>
      obtain ⟨rfl, -⟩ := cons_eq_cons.mp hmid
      exact h earlier id mid hlog

theorem LaunchesApproved.iteration {log : List Obs} (searched attempts : List Obs)
    (ready : List JobId) (h : LaunchesApproved x log) (hsearched : ∀ o ∈ searched, Searches x a o)
    (hready : ∀ id ∈ ready, Approved x a searched id)
    (hattempts : ∀ o ∈ attempts, Attempts ready o) :
    LaunchesApproved x (log ++ .pass :: (searched ++ attempts)) := by
  have hquiet : ∀ id, .launched id ∉ searched := by
    intro id hid
    cases hsearched _ hid with
    | inl h => cases h
    | inr h =>
      obtain ⟨_, _, _, he⟩ := h
      cases he
  intro earlier id later he
  cases append_eq_append_iff.mp he with
  | inl hright =>
    obtain ⟨mid, hearlier, hmid⟩ := hright
    cases mid with
    | nil => cases hmid
    | cons o mid =>
      obtain ⟨rfl, hrest⟩ := cons_eq_cons.mp hmid
      -- the launch is one of the attempts, which follow the search
      have hsplit : ∃ done, mid = searched ++ done ∧ attempts = done ++ .launched id :: later := by
        cases append_eq_append_iff.mp hrest with
        | inl h =>
          obtain ⟨done, hdone, hattempt⟩ := h
          exact ⟨done, hdone, hattempt⟩
        | inr h =>
          obtain ⟨done, hdone, hattempt⟩ := h
          cases done with
          | nil => exact ⟨[], by simpa using hdone.symm, by simpa using hattempt.symm⟩
          | cons =>
            obtain ⟨rfl, -⟩ := cons_eq_cons.mp hattempt
            exact absurd (by rw [hdone]; simp) (hquiet id)
      obtain ⟨done, rfl, hdone⟩ := hsplit
      have hid : id ∈ ready := by
        cases hattempts (.launched id) (by rw [hdone]; simp) with
        | inl h => cases h
        | inr h =>
          obtain ⟨j, hj, hl | hl⟩ := h
          · cases hl
            exact hj
          · cases hl
      have hbefore : ∀ o ∈ done, Attempts ready o := fun o ho =>
        hattempts o (by rw [hdone]; exact mem_append_left _ ho)
      refine ⟨log, searched ++ done, hearlier, ?_, ?_, ?_⟩
      · intro hpass
        cases mem_append.mp hpass with
        | inl h =>
          cases hsearched _ h with
          | inl h => cases h
          | inr h =>
            obtain ⟨_, _, _, he⟩ := h
            cases he
        | inr h =>
          cases hbefore _ h with
          | inl h => cases h
          | inr h =>
            obtain ⟨_, _, hl | hl⟩ := h
            · cases hl
            · cases hl
      · exact fun gate hgate => mem_append_left _ ((hready id hid).2 gate hgate)
      · intro gate st hst
        cases mem_append.mp hst with
        | inl h =>
          cases hsearched _ h with
          | inl h => cases h
          | inr h => exact (hready id hid).answers h
        | inr h =>
          cases hbefore _ h with
          | inl h => cases h
          | inr h =>
            obtain ⟨_, _, hl | hl⟩ := h
            · cases hl
            · cases hl
  | inr hleft =>
    obtain ⟨mid, hlog, hmid⟩ := hleft
    cases mid with
    | nil => cases hmid
    | cons o mid =>
      obtain ⟨rfl, -⟩ := cons_eq_cons.mp hmid
      exact h earlier id mid hlog

theorem LaunchesApproved.adds {f f' : Frontier} (h : LaunchesApproved x f.log)
    (hadds : Calm f f') : LaunchesApproved x f'.log := by
  obtain ⟨_, hlog, -, hobs⟩ := hadds
  rw [hlog]
  exact h.calm hobs

theorem LaunchesApproved.pass (hchecker : x.gateChecker = true) {s : LoopState}
    (h : LaunchesApproved x s.frontier.log) :
    LaunchesApproved x (pass x a s).state.frontier.log := by
  unfold SchedulerLoop.pass
  dsimp only
  split
  · refine LaunchesApproved.adds ?_ (exitTests_calm _ _)
    exact LaunchesApproved.iteration (a := a) [] [] [] h (by simp) (by simp) (by simp)
  · refine LaunchesApproved.adds ?_ (exitTests_calm _ _)
    obtain ⟨searched, hsearch, hsearched, hready⟩ :=
      findReadyJobs_cleared (a := a) hchecker (entered s)
    obtain ⟨attempts, hattempt, -, hattempts⟩ := dispatchLoop_adds (x := x) (a := a)
      (findReadyJobs x a (entered s)).ready
      { entered s with
        frontier := (findReadyJobs x a (entered s)).frontier
        gatesSeen := (findReadyJobs x a (entered s)).gatesSeen } false
    have hdispatched := h.iteration searched attempts _ hsearched hready hattempts
    have hlog : (dispatchLoop x a (findReadyJobs x a (entered s)).ready
        { entered s with
          frontier := (findReadyJobs x a (entered s)).frontier
          gatesSeen := (findReadyJobs x a (entered s)).gatesSeen } false).1.frontier.log =
        s.frontier.log ++ .pass :: (searched ++ attempts) := by
      rw [hattempt]
      dsimp only
      rw [hsearch]
      simp [entered]
    rw [← hlog] at hdispatched
    unfold dispatchPhase
    dsimp only
    split
    · exact hdispatched.adds (pollPeerWaits_calm _)
    · exact hdispatched

theorem reachable_launchesApproved {c : Conduct} (hchecker : x.gateChecker = true) {p : Point}
    (h : Reachable x c p) : LaunchesApproved x p.state.frontier.log := by
  induction h with
  | start _ =>
    intro earlier id later he
    have hcalm := initial_calm x (.launched id) (by
      change (initial x).frontier.log = _ at he
      rw [he]
      simp)
    cases hcalm
  | pass _ _ ih => exact ih.pass hchecker
  | await _ _ hq ih => exact ih.adds (await_calm hq)

end Launches

end OxyMake.GatedLaunches
