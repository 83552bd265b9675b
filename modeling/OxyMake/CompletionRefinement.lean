import Mathlib.Algebra.Order.BigOperators.Group.List
import OxyMake.NetInvariants
import OxyMake.FrontierInitialisation
import OxyMake.SchedulerLoop

/-!
# Completions run by the rules of the net

An operation on the frontier is matched by a run of the dependency net whose
labels are the status writes the operation appends to the log. Shown here for
the handling of a completion: a success promotes, a retry is offered again, a
failure is propagated until the worklist of the cancellation is empty, and the
completion of a cancelled job is discarded.
-/

namespace OxyMake.CompletionRefinement

open PhysicalGraph Observation SchedulingFrontier Frontier Completion SchedulerLoop
open LabelledRuns DependencyNet Net NetInvariants

def wiring {g : JobGraph} (topo : TopologicalOrder g) : Wiring JobId where
  nodes := topo.order
  up := g.upstream
  down := g.downstream
  up_nodup := upstream_nodup
  up_mem := fun h => (topo.mem_iff _).mpr (bridgedNeighborsIds_mem_jobIds h)
  down_mem := fun h => (topo.mem_iff _).mpr (bridgedNeighborsIds_mem_jobIds h)
  adjoint := fun hu hd => mem_upstream_iff_mem_downstream
    (mem_jobIds.mp ((topo.mem_iff _).mp hu)).2 (mem_jobIds.mp ((topo.mem_iff _).mp hd)).2
  rank := fun id => topo.order.idxOf id
  rank_lt := by
    intro u d hd hu
    obtain ⟨earlier, later, horder⟩ := List.append_of_mem hd
    have hmem := topo.before earlier d later horder u hu
    have hnodup := topo.nodup
    rw [horder] at hnodup ⊢
    have hnot : d ∉ earlier := fun h =>
      (List.nodup_append.mp hnodup).2.2 d h d (by simp) rfl
    rw [List.idxOf_append_of_mem hmem, List.idxOf_append_of_notMem hnot]
    have hlt := List.idxOf_lt_length_iff.mpr hmem
    omega

/-- The net a frontier shows, given where the jobs outside it are. -/
def net (f : Frontier) (hand flight parked todo : Set JobId) (stopping closed : Bool) :
    Net JobId where
  status := f.statuses
  count := f.pendingUpstream
  front := {j | j ∈ f.readyFrontier}
  hand := hand
  flight := flight
  parked := parked
  todo := todo
  tries := f.retryCounts
  stopping := stopping
  closed := closed

/-- Observations that neither belong to a dispatch attempt nor to a completion. -/
def routine : Obs → Bool
  | .status _ _ | .event _ | .pass | .gateRegistered _ | .gateAnswered _ _ _
  | .cancelRequested _ | .killRequested _ => true
  | _ => false

def ofAttempt : Obs → Bool
  | .attempt _ | .cacheChecked _ _ | .claimed _ _ | .launched _ => true
  | _ => false

def ofCompletion : Obs → Bool
  | .delivered _ _ | .recorded _ => true
  | _ => false

/-- An operation appends observations of a given kind to the log, lists no
offered job twice, and is matched by a run of the net. -/
def Simulates (W : Wiring JobId) (D : Discipline JobId) (kind : Obs → Bool)
    (f : Frontier) (n : Net JobId) (f' : Frontier) (n' : Net JobId) : Prop :=
  ∃ obs, f'.log = f.log ++ obs ∧ (∀ o ∈ obs, kind o = true) ∧
    (f.readyFrontier.Nodup → f'.readyFrontier.Nodup) ∧ Run (Fire W D) n (writes obs) n'

section Composition

variable {W : Wiring JobId} {D : Discipline JobId} {kind : Obs → Bool} {f f' f'' : Frontier}
  {n n' n'' : Net JobId}

theorem Simulates.refl : Simulates W D kind f n f n :=
  ⟨[], by simp, by simp, id, .refl n⟩

theorem Simulates.trans (h : Simulates W D kind f n f' n')
    (h' : Simulates W D kind f' n' f'' n'') : Simulates W D kind f n f'' n'' := by
  obtain ⟨obs, hlog, hkind, hnodup, hrun⟩ := h
  obtain ⟨obs', hlog', hkind', hnodup', hrun'⟩ := h'
  refine ⟨obs ++ obs', ?_, ?_, hnodup' ∘ hnodup, ?_⟩
  · rw [hlog', hlog, List.append_assoc]
  · intro o ho
    obtain h | h := List.mem_append.mp ho
    · exact hkind o h
    · exact hkind' o h
  · rw [writes_append]
    exact hrun.trans hrun'

theorem Simulates.mono {kind' : Obs → Bool} (h : Simulates W D kind f n f' n')
    (hk : ∀ o, kind o = true → kind' o = true) : Simulates W D kind' f n f' n' := by
  obtain ⟨obs, hlog, hkind, hnodup, hrun⟩ := h
  exact ⟨obs, hlog, fun o ho => hk o (hkind o ho), hnodup, hrun⟩

theorem Simulates.silent (hlog : f'.log = f.log)
    (hnodup : f.readyFrontier.Nodup → f'.readyFrontier.Nodup) (h : Fire W D n none n') :
    Simulates W D kind f n f' n' :=
  ⟨[], by simp [hlog], by simp, hnodup, Run.silent h⟩

theorem Simulates.write {id : JobId} {st : JobLifecycle} (hlog : f'.log = f.log ++ [.status id st])
    (hkind : kind (.status id st) = true)
    (hnodup : f.readyFrontier.Nodup → f'.readyFrontier.Nodup)
    (h : Fire W D n (some (id, st)) n') : Simulates W D kind f n f' n' :=
  ⟨[.status id st], hlog, by simpa using hkind, hnodup, Run.single h⟩

theorem Simulates.note {obs : List Obs} (hkind : ∀ o ∈ obs, kind o = true)
    (hwrites : writes obs = []) : Simulates W D kind f n (f.note obs) n :=
  ⟨obs, rfl, hkind, id, by rw [hwrites]; exact .refl n⟩

theorem Simulates.andNote {obs : List Obs} (h : Simulates W D kind f n f' n')
    (hkind : ∀ o ∈ obs, kind o = true) (hwrites : writes obs = []) :
    Simulates W D kind f n (f'.note obs) n' :=
  h.trans (.note hkind hwrites)

theorem Simulates.placed (h : Simulates W D kind f n f' n') (hn : Placed W n) : Placed W n' := by
  obtain ⟨_, _, _, _, hrun⟩ := h
  exact hrun.invariant (Placed W) (fun _ _ _ hs hfire => hs.fire hfire) hn

end Composition

section Nets

variable (f : Frontier) (hand flight parked todo : Set JobId) (stopping closed : Bool) (id : JobId)

theorem net_offer : net (f.offer id) hand flight parked todo stopping closed =
    { net f hand flight parked todo stopping closed with
      front := insert id {j | j ∈ f.readyFrontier} } := by
  have hfront : {j | j ∈ (f.offer id).readyFrontier} = insert id {j | j ∈ f.readyFrontier} := by
    ext j
    simp
  simp only [net, hfront]
  rfl

theorem net_withdraw : net (f.withdraw id) hand flight parked todo stopping closed =
    { net f hand flight parked todo stopping closed with
      front := {j | j ∈ f.readyFrontier} \ {id} } := by
  have hfront : {j | j ∈ (f.withdraw id).readyFrontier} = {j | j ∈ f.readyFrontier} \ {id} := by
    ext j
    simp
  simp only [net, hfront]
  rfl

theorem net_promoteDownstream {g : JobGraph} (topo : TopologicalOrder g) :
    net (f.promoteDownstream g id) hand flight parked todo stopping closed =
      (net f hand flight parked todo stopping closed).promoted (wiring topo) id := by
  obtain ⟨_, _, he⟩ := foldl_promote_eq (g.downstream id) f
  have hfront : {j | j ∈ (f.promoteDownstream g id).readyFrontier} =
      ((net f hand flight parked todo stopping closed).promoted (wiring topo) id).front := by
    ext j
    exact mem_promoteDownstream_readyFrontier f id j
  have hcount : (f.promoteDownstream g id).pendingUpstream =
      ((net f hand flight parked todo stopping closed).promoted (wiring topo) id).count := by
    funext j
    exact promoteDownstream_pendingUpstream f id j
  have htries : (f.promoteDownstream g id).retryCounts = f.retryCounts := by
    rw [promoteDownstream, he]
  simp only [net, promoteDownstream_statuses, htries]
  rw [hfront, hcount]
  rfl

end Nets

section Cancellation

variable {g : JobGraph} (topo : TopologicalOrder g) {D : Discipline JobId}
  {flight parked : Set JobId} {stopping closed : Bool}

/-- Weight of the worklist: its entries and all entries that may still be added. -/
def worklistWeight (g : JobGraph) (toCancel visited : List JobId) : ℕ :=
  toCancel.length + ((g.jobIds.filter (· ∉ visited)).map fun id => (g.downstream id).length).sum

theorem worklistWeight_visit {id : JobId} {toCancel visited : List JobId} (hid : id ∈ g.jobIds)
    (hv : id ∉ visited) :
    worklistWeight g ((g.downstream id).reverse ++ toCancel) (id :: visited) + 1 =
      worklistWeight g (id :: toCancel) visited := by
  have hsum := Counting.sum_unmarked (fun id => (g.downstream id).length) jobIds_nodup hid hv
  simp only [worklistWeight, List.length_append, List.length_reverse, List.length_cons]
  omega

theorem spreads_visit {f : Frontier} {hand : Set JobId} {id : JobId} {toCancel visited : List JobId}
    (hvisited : ∀ j ∈ visited, terminal (f.statuses j) = true) :
    (net f hand flight parked {j | j ∈ id :: toCancel ∧ j ∉ visited} stopping closed).Spreads
      (wiring topo) id {j | j ∈ (g.downstream id).reverse ++ toCancel ∧ j ∉ id :: visited} := by
  refine ⟨?_, ?_, ?_⟩
  · rintro d ⟨hd, hnew⟩ hne
    have hmem := (List.mem_cons.mp hd).resolve_left hne
    exact ⟨List.mem_append_right _ hmem, by simp [hne, hnew]⟩
  · rintro d ⟨hd, hnew⟩
    obtain ⟨-, hnew⟩ := not_or.mp (fun h => hnew (List.mem_cons.mpr h))
    obtain h | h := List.mem_append.mp hd
    · exact .inr (List.mem_reverse.mp h)
    · exact .inl ⟨List.mem_cons_of_mem _ h, hnew⟩
  · intro d hd
    by_cases hv : d ∈ visited
    · exact .inr (hvisited d hv)
    · left
      have hne : d ≠ id := fun h => not_mem_downstream_self id (h ▸ hd)
      exact ⟨List.mem_append_left _ (List.mem_reverse.mpr hd), by simp [hne, hv]⟩

theorem terminal_update_cancelled {f : Frontier} {id : JobId} {visited : List JobId}
    (hvisited : ∀ j ∈ visited, terminal (f.statuses j) = true) :
    ∀ j ∈ id :: visited, terminal ((f.setStatus id .cancelled).statuses j) = true := by
  intro j hj
  by_cases hne : j = id
  · subst hne
    simp [JobLifecycle.isTerminal]
  · rw [setStatus_statuses, Function.update_of_ne hne]
    exact hvisited j ((List.mem_cons.mp hj).resolve_left hne)

theorem isSome_setStatus {f : Frontier} {order : List JobId} (id : JobId) (st : JobLifecycle)
    (hknown : ∀ j ∈ order, (f.statuses j).isSome) :
    ∀ j ∈ order, ((f.setStatus id st).statuses j).isSome := by
  intro j hj
  by_cases hne : j = id
  · subst hne
    simp
  · rw [setStatus_statuses, Function.update_of_ne hne]
    exact hknown j hj

theorem cancelLoop_simulates (failedId : JobId) (fuel : ℕ) (toCancel visited : List JobId)
    (f : Frontier) (hfuel : worklistWeight g toCancel visited < fuel)
    (hnodes : ∀ j ∈ toCancel, j ∈ topo.order) (hknown : ∀ j ∈ topo.order, (f.statuses j).isSome)
    (hvisited : ∀ j ∈ visited, terminal (f.statuses j) = true) :
    Simulates (wiring topo) D routine f
      (net f ∅ flight parked {j | j ∈ toCancel ∧ j ∉ visited} stopping closed)
      (cancelLoop g failedId fuel toCancel visited f)
      (net (cancelLoop g failedId fuel toCancel visited f) ∅ flight parked ∅ stopping closed) := by
  induction fuel generalizing toCancel visited f with
  | zero => omega
  | succ fuel ih =>
    cases toCancel with
    | nil =>
      have hempty : {j : JobId | j ∈ [] ∧ j ∉ visited} = ∅ := by simp
      rw [hempty]
      exact .refl
    | cons id toCancel =>
      have hid := hnodes id (by simp)
      have hrest : ∀ j ∈ toCancel, j ∈ topo.order := fun j hj =>
        hnodes j (.tail _ hj)
      have hfurther : ∀ j ∈ (g.downstream id).reverse ++ toCancel, j ∈ topo.order := by
        intro j hj
        obtain h | h := List.mem_append.mp hj
        · exact (wiring topo).down_mem (List.mem_reverse.mp h)
        · exact hrest j h
      rw [cancelLoop]
      by_cases hv : id ∈ visited
      · rw [if_pos hv]
        have hsame : {j | j ∈ id :: toCancel ∧ j ∉ visited} =
            {j | j ∈ toCancel ∧ j ∉ visited} := by
          ext j
          simp only [Set.mem_ofPred_eq, List.mem_cons]
          grind
        rw [hsame]
        refine ih toCancel visited f ?_ hrest hknown hvisited
        simp only [worklistWeight, List.length_cons] at hfuel ⊢
        omega
      · rw [if_neg hv]
        have hweight : worklistWeight g ((g.downstream id).reverse ++ toCancel) (id :: visited) + 1 =
            worklistWeight g (id :: toCancel) visited :=
          worklistWeight_visit ((topo.mem_iff id).mp hid) hv
        have hmem : id ∈ {j | j ∈ id :: toCancel ∧ j ∉ visited} := ⟨by simp, hv⟩
        have hlater : ∀ j ∈ id :: visited, terminal ((f.setStatus id .cancelled).statuses j) = true :=
          terminal_update_cancelled hvisited
        have hstill := isSome_setStatus id .cancelled hknown
        have hidle : f.statuses id = some .pending ∨ f.statuses id = some .ready →
            Simulates (wiring topo) D routine f
              (net f ∅ flight parked {j | j ∈ id :: toCancel ∧ j ∉ visited} stopping closed)
              ((f.setStatus id .cancelled).withdraw id)
              (net ((f.setStatus id .cancelled).withdraw id) ∅ flight parked
                {j | j ∈ (g.downstream id).reverse ++ toCancel ∧ j ∉ id :: visited}
                stopping closed) := by
          intro hst
          refine .write rfl rfl (fun h => h.filter _) ?_
          rw [net_withdraw]
          exact .cancelIdle hmem (Set.notMem_empty _) hst (spreads_visit topo hvisited)
        split
        · next hst =>
          refine ((hidle (.inl hst)).trans ?_).trans (ih _ _ _ (by omega) hfurther hstill hlater)
          exact .note (by simp [routine]) rfl
        · next hst =>
          refine ((hidle (.inr hst)).trans ?_).trans (ih _ _ _ (by omega) hfurther hstill hlater)
          exact .note (by simp [routine]) rfl
        · next hst =>
          have hactive : Simulates (wiring topo) D routine f
              (net f ∅ flight parked {j | j ∈ id :: toCancel ∧ j ∉ visited} stopping closed)
              (f.setStatus id .cancelled)
              (net (f.setStatus id .cancelled) ∅ flight parked
                {j | j ∈ (g.downstream id).reverse ++ toCancel ∧ j ∉ id :: visited}
                stopping closed) :=
            .write rfl rfl (fun h => h) (.cancelActive hmem hst (spreads_visit topo hvisited))
          refine (hactive.trans ?_).trans (ih _ _ _ (by omega) hfurther hstill hlater)
          exact .note (by simp [routine]) rfl
        · next hpending hready hrunning =>
          have hterm : terminal (f.statuses id) = true := by
            obtain ⟨st, hst⟩ := Option.isSome_iff_exists.mp (hknown id hid)
            rw [getStatus_eq, hst] at hpending hready hrunning
            rw [hst]
            cases st <;> simp_all [JobLifecycle.isTerminal]
          have hdone : unfinished (f.statuses id) = false := by
            obtain ⟨st, hst⟩ := Option.isSome_iff_exists.mp (hknown id hid)
            rw [hst] at hterm ⊢
            simpa using hterm
          have hset : {j | j ∈ id :: toCancel ∧ j ∉ visited} \ {id} =
              {j | j ∈ toCancel ∧ j ∉ id :: visited} := by
            ext j
            simp only [Set.mem_sdiff, Set.mem_ofPred_eq, Set.mem_singleton_iff, List.mem_cons]
            grind
          have hvisit : Simulates (wiring topo) D routine f
              (net f ∅ flight parked {j | j ∈ id :: toCancel ∧ j ∉ visited} stopping closed) f
              (net f ∅ flight parked {j | j ∈ toCancel ∧ j ∉ id :: visited} stopping closed) := by
            rw [← hset]
            exact .silent rfl (fun h => h) (.visit hmem hdone)
          refine hvisit.trans (ih _ _ _ ?_ hrest hknown ?_)
          · simp only [worklistWeight, List.length_append, List.length_cons] at hweight hfuel ⊢
            omega
          · intro j hj
            obtain rfl | hj := List.mem_cons.mp hj
            · exact hterm
            · exact hvisited j hj

def behind (g : JobGraph) (id : JobId) : Set JobId :=
  {j | j ∈ (g.downstream id).reverse ∧ j ∉ [id]}

theorem cancelDownstream_simulates {id : JobId} {f : Frontier}
    (hknown : ∀ j ∈ topo.order, (f.statuses j).isSome) (hid : terminal (f.statuses id) = true) :
    Simulates (wiring topo) D routine f (net f ∅ flight parked (behind g id) stopping closed)
      (cancelDownstream g id f)
      (net (cancelDownstream g id f) ∅ flight parked ∅ stopping closed) := by
  refine cancelLoop_simulates topo id _ _ [id] f ?_ ?_ hknown ?_
  · have hle : ((g.jobIds.filter (· ∉ [id])).map fun id => (g.downstream id).length).sum ≤
        (g.jobIds.map fun id => (g.downstream id).length).sum :=
      (List.filter_sublist.map _).sum_le_sum (fun _ _ => Nat.zero_le _)
    simp only [worklistWeight, cancelFuel, List.length_reverse]
    omega
  · exact fun j hj => (wiring topo).down_mem (List.mem_reverse.mp hj)
  · intro j hj
    rw [List.mem_singleton.mp hj]
    exact hid

theorem spreads_behind {f : Frontier} {hand : Set JobId} (id : JobId) :
    (net f hand flight parked ∅ stopping closed).Spreads (wiring topo) id (behind g id) := by
  refine ⟨fun d hd => absurd hd (Set.notMem_empty d), ?_, ?_⟩
  · rintro d ⟨hd, -⟩
    exact .inr (List.mem_reverse.mp hd)
  · intro d hd
    have hne : d ≠ id := fun h => not_mem_downstream_self id (h ▸ hd)
    exact .inl ⟨List.mem_reverse.mpr hd, by simpa using hne⟩

end Cancellation

section Completions

variable {g : JobGraph} (topo : TopologicalOrder g) {D : Discipline JobId}
  {flight parked flight' parked' : Set JobId} {stopping closed : Bool}

def judge (strategy : ErrorStrategy) (attempt : ℕ) (exitCode : ℤ) : Verdict :=
  if exitCode = 0 then .success
  else
    match strategy with
    | .ignore => .success
    | .retry count _ => if attempt < count then .again else .failure s!"exit code {exitCode}"
    | .terminate | .finish => .failure s!"exit code {exitCode}"

variable {p : Policy} {msg : CompletionMsg} {f : Frontier}

theorem commitSuccess_simulates (hg : p.graph = g) (outputs : List String)
    (hsettles : (net f ∅ flight parked ∅ stopping closed).Settles msg.job.id flight' parked')
    (hverdict : D.verdict msg.job.id (f.retryCounts msg.job.id + 1) .success) :
    Simulates (wiring topo) D routine f (net f ∅ flight parked ∅ stopping closed)
      (commitSuccess p msg outputs f)
      (net (commitSuccess p msg outputs f) ∅ flight' parked' ∅ stopping closed) := by
  subst hg
  refine ⟨[.event (.jobCompleted msg.job.id msg.result.durationMs outputs
    msg.result.peakMemoryBytes msg.result.cpuTimeMs (p.endpoint msg.job)),
    .status msg.job.id .succeeded], ?_, by simp [routine], ?_, ?_⟩
  · unfold commitSuccess
    dsimp only
    rw [promoteDownstream_log]
    split <;> simp
  · intro hf
    unfold commitSuccess
    dsimp only
    refine promoteDownstream_nodup ?_ _
    split <;> exact hf
  · unfold commitSuccess
    dsimp only
    rw [net_promoteDownstream _ _ _ _ _ _ _ _ topo]
    refine Run.single ?_
    split <;> exact .succeed hsettles hverdict

theorem scheduleRetry_simulates (count : ℕ) (backoff : Backoff)
    (hsettles : (net f ∅ flight parked ∅ stopping closed).Settles msg.job.id flight' parked')
    (hverdict : D.verdict msg.job.id (f.retryCounts msg.job.id + 1) .again) :
    let counted := { f with
      retryCounts := Function.update f.retryCounts msg.job.id (f.retryCounts msg.job.id + 1) }
    let retried := scheduleRetry msg count backoff (f.retryCounts msg.job.id + 1) counted
    Simulates (wiring topo) D routine f (net f ∅ flight parked ∅ stopping closed)
      retried (net retried ∅ flight' parked' ∅ stopping closed) := by
  intro counted retried
  have hoffered : Simulates (wiring topo) D routine f (net f ∅ flight parked ∅ stopping closed)
      ((counted.setStatus msg.job.id .pending).offer msg.job.id)
      (net ((counted.setStatus msg.job.id .pending).offer msg.job.id) ∅ flight' parked' ∅
        stopping closed) := by
    refine .write rfl rfl (fun h => h.insert) ?_
    rw [net_offer]
    exact .again hsettles hverdict
  have hsame : ∀ n : Net JobId, Simulates (wiring topo) D routine
      ((counted.setStatus msg.job.id .pending).offer msg.job.id) n retried n := by
    intro n
    refine ⟨[.event (.jobFailed msg.job.id s!"exit code {msg.result.exitCode} (attempt {f.retryCounts msg.job.id + 1}/{count}, retrying)" (some msg.result.exitCode) msg.result.stderrTail)], ?_, by simp [routine], ?_, .refl n⟩
    · unfold retried scheduleRetry
      dsimp only
      split <;> rfl
    · unfold retried scheduleRetry
      dsimp only
      split <;> exact fun h => h
  refine hoffered.trans ?_
  have hnet : net retried ∅ flight' parked' ∅ stopping closed =
      net ((counted.setStatus msg.job.id .pending).offer msg.job.id) ∅ flight' parked' ∅
        stopping closed := by
    unfold retried scheduleRetry
    dsimp only
    split <;> rfl
  rw [hnet]
  exact hsame _

theorem recordFailure_simulates {W : Wiring JobId} (n : Net JobId) :
    Simulates W D routine f n (recordFailure p msg f) n := by
  refine ⟨_, rfl, ?_, fun h => h, ?_⟩
  · intro o ho
    obtain ⟨cause, -, rfl⟩ := List.mem_map.mp ho
    rfl
  · have hnone : ∀ causes : List RootCause, writes (causes.map rootCauseEvent) = [] := by
      intro causes
      induction causes with
      | nil => rfl
      | cons cause causes ih => exact ih
    rw [hnone]
    exact .refl n

theorem propagate_simulates (hg : p.graph = g) {failed : Frontier}
    (hknown : ∀ j ∈ topo.order, (failed.statuses j).isSome)
    (hterm : terminal (failed.statuses msg.job.id) = true) :
    let cancelled := cancelDownstream p.graph msg.job.id (recordFailure p msg failed)
    Simulates (wiring topo) D routine failed
      (net failed ∅ flight parked (behind g msg.job.id) stopping closed)
      cancelled (net cancelled ∅ flight parked ∅ stopping closed) := by
  subst hg
  intro cancelled
  have hrecord : Simulates (wiring topo) D routine failed
      (net failed ∅ flight parked (behind p.graph msg.job.id) stopping closed)
      (recordFailure p msg failed)
      (net (recordFailure p msg failed) ∅ flight parked (behind p.graph msg.job.id)
        stopping closed) := recordFailure_simulates _
  exact hrecord.trans (cancelDownstream_simulates topo hknown hterm)

theorem handleCompletion_simulates (hg : p.graph = g) (terminateRequested : Bool)
    (hknown : ∀ j ∈ topo.order, (f.statuses j).isSome)
    (hsettles : (net f ∅ flight parked ∅ stopping closed).Settles msg.job.id flight' parked')
    (hverdict : D.verdict msg.job.id (f.retryCounts msg.job.id + 1)
      (judge msg.job.errorStrategy (f.retryCounts msg.job.id + 1) msg.result.exitCode)) :
    let handled := (handleCompletion p msg terminateRequested f).frontier
    Simulates (wiring topo) D routine f (net f ∅ flight parked ∅ stopping closed)
      handled (net handled ∅ flight' parked' ∅ stopping closed) := by
  have hlive : f.getStatus msg.job.id ≠ some .cancelled := by
    obtain ⟨-, h, -⟩ | ⟨-, h, -⟩ := hsettles <;> exact fun hc => by
      have hst : f.statuses msg.job.id = some .cancelled := hc
      change f.statuses msg.job.id = _ at h
      rw [hst] at h
      cases h
  have hfailed : ∀ (n : ℕ) (message : String), D.verdict msg.job.id (f.retryCounts msg.job.id + 1) (.failure message) →
      Fire (wiring topo) D (net f ∅ flight parked ∅ stopping closed)
        (some (msg.job.id, .failed message))
        (net ({ f with retryCounts := Function.update f.retryCounts msg.job.id n }.setStatus
          msg.job.id (.failed message)) ∅ flight' parked' (behind g msg.job.id) stopping closed) :=
    fun n message hv => .fail hsettles hv (spreads_behind topo msg.job.id)
  have hterm : ∀ message : String, terminal
      (Function.update f.statuses msg.job.id (some (.failed message)) msg.job.id) = true := by
    intro message
    rw [Function.update_self]
    rfl
  unfold handleCompletion
  dsimp only
  rw [if_neg hlive]
  by_cases hzero : msg.result.exitCode = 0
  · rw [if_pos hzero]
    refine commitSuccess_simulates topo hg _ hsettles ?_
    simpa [judge, hzero] using hverdict
  · rw [if_neg hzero]
    simp only [judge, hzero, if_false] at hverdict
    cases hstrategy : msg.job.errorStrategy with
    | ignore =>
      rw [hstrategy] at hverdict
      exact commitSuccess_simulates topo hg _ hsettles hverdict
    | retry count backoff =>
      rw [hstrategy] at hverdict
      dsimp only at hverdict ⊢
      by_cases hlt : f.retryCounts msg.job.id + 1 < count
      · rw [if_pos hlt] at hverdict ⊢
        exact scheduleRetry_simulates topo count backoff hsettles hverdict
      · rw [if_neg hlt] at hverdict ⊢
        refine Simulates.trans ?_ (propagate_simulates topo hg
          (isSome_setStatus msg.job.id (.failed _) hknown) (hterm _))
        exact ⟨[.status _ _, .event _], List.append_assoc _ _ _, by simp [routine], fun h => h,
          Run.single (hfailed _ _ hverdict)⟩
    | terminate | finish =>
      rw [hstrategy] at hverdict
      refine Simulates.trans ?_ (propagate_simulates topo hg
        (isSome_setStatus msg.job.id (.failed _) hknown) (hterm _))
      have hfire := hfailed (f.retryCounts msg.job.id) _ hverdict
      rw [Function.update_eq_self] at hfire
      exact ⟨[.event _, .status _ _], List.append_assoc _ _ _, by simp [routine], fun h => h,
        Run.single hfire⟩

theorem handleCompletion_terminateRequested (p : Policy) (msg : CompletionMsg)
    (terminateRequested : Bool) (f : Frontier) :
    (handleCompletion p msg terminateRequested f).terminateRequested = terminateRequested ∨
      (p.keepGoing = false ∧
        (handleCompletion p msg terminateRequested f).terminateRequested = true) := by
  unfold handleCompletion
  dsimp only
  split
  · exact .inl rfl
  · split
    · exact .inl rfl
    · split
      · exact .inl rfl
      · split
        · exact .inl rfl
        · cases p.keepGoing <;> simp
      · cases p.keepGoing <;> simp
      · cases p.keepGoing <;> simp

end Completions

section Loop

variable {x : Setup} {D : Discipline JobId}

/-- The net a loop state shows, given the jobs in the dispatcher's hand. -/
def loopNet (s : LoopState) (hand : Set JobId) (closed : Bool) : Net JobId :=
  net s.frontier hand {j | j ∈ s.inFlight} {j | j ∈ s.peerWaits.map Prod.fst} ∅
    s.terminateRequested closed

def settling (o : Obs) : Bool := routine o || ofCompletion o

theorem consume_simulates {s : LoopState} {msg : CompletionMsg} {flight parked : Set JobId}
    {closed : Bool} (hstop : x.config.keepGoing = false → D.stop)
    (hknown : ∀ j ∈ x.topo.order, (s.frontier.statuses j).isSome)
    (hplace : (net s.frontier ∅ flight parked ∅ s.terminateRequested closed).Settles msg.job.id
        {j | j ∈ s.inFlight} {j | j ∈ s.peerWaits.map Prod.fst} ∧
        D.verdict msg.job.id (s.frontier.retryCounts msg.job.id + 1)
          (judge msg.job.errorStrategy (s.frontier.retryCounts msg.job.id + 1)
            msg.result.exitCode) ∨
      (msg.job.id ∈ flight ∧ s.frontier.statuses msg.job.id = some .cancelled ∧
        {j | j ∈ s.inFlight} = flight \ {msg.job.id} ∧
        {j | j ∈ s.peerWaits.map Prod.fst} = parked)) :
    Simulates (wiring x.topo) D settling s.frontier
      (net s.frontier ∅ flight parked ∅ s.terminateRequested closed)
      (consume x msg s).frontier (loopNet (consume x msg s) ∅ closed) := by
  have hsub : ∀ o, routine o = true → settling o = true := fun o ho => by simp [settling, ho]
  have hdelivered : Simulates (wiring x.topo) D settling s.frontier
      (net s.frontier ∅ flight parked ∅ s.terminateRequested closed)
      (s.frontier.note [.delivered msg.job.id msg.result.exitCode])
      (net (s.frontier.note [.delivered msg.job.id msg.result.exitCode]) ∅ flight parked ∅
        s.terminateRequested closed) := .note (by simp [settling, ofCompletion]) rfl
  let delivered := s.frontier.note [.delivered msg.job.id msg.result.exitCode]
  let handled := handleCompletion x.policy msg s.terminateRequested delivered
  have hhandled : Simulates (wiring x.topo) D settling delivered
      (net delivered ∅ flight parked ∅ s.terminateRequested closed) handled.frontier
      (net handled.frontier ∅ {j | j ∈ s.inFlight} {j | j ∈ s.peerWaits.map Prod.fst} ∅
        s.terminateRequested closed) := by
    obtain ⟨hsettles, hverdict⟩ | ⟨hflight, hcancelled, hleft, hparked⟩ := hplace
    · have hgraph : x.policy.graph = x.graph := rfl
      exact (handleCompletion_simulates (f := delivered) x.topo hgraph _ hknown hsettles
        hverdict).mono hsub
    · have hsame : handled = ⟨delivered, s.terminateRequested, false⟩ := by
        unfold handled handleCompletion
        dsimp only
        exact if_pos hcancelled
      rw [hsame, hleft, hparked]
      exact .silent rfl (fun h => h) (.discard hflight hcancelled)
  have hstopped : Simulates (wiring x.topo) D settling handled.frontier
      (net handled.frontier ∅ {j | j ∈ s.inFlight} {j | j ∈ s.peerWaits.map Prod.fst} ∅
        s.terminateRequested closed) handled.frontier
      (net handled.frontier ∅ {j | j ∈ s.inFlight} {j | j ∈ s.peerWaits.map Prod.fst} ∅
        handled.terminateRequested closed) := by
    obtain h | ⟨hkeep, h⟩ :=
      handleCompletion_terminateRequested x.policy msg s.terminateRequested delivered
    · rw [show handled.terminateRequested = s.terminateRequested from h]
      exact .refl
    · rw [show handled.terminateRequested = true from h]
      exact .silent rfl (fun h => h) (.stop (hstop hkeep))
  refine ((hdelivered.trans hhandled).trans hstopped).trans ?_
  unfold loopNet consume
  dsimp only
  split
  · exact .note (by simp [settling, ofCompletion]) rfl
  · exact .refl

end Loop

end OxyMake.CompletionRefinement
