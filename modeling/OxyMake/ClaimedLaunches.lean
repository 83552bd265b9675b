import OxyMake.DependencySafety
import OxyMake.RunLog

/-!
# Claims and launches

With a claimer every launch follows, in its own dispatch attempt, a claim that
was won, unless the attempt found the job in the cache and the job is forced:
a cache hit takes no claim, and a forced job runs in spite of the hit.
-/

namespace OxyMake.ClaimedLaunches

open List
open PhysicalGraph Observation SchedulerLoop CompletionRefinement RunLog
open DependencySafety (skipping)

variable {x : Setup}

/-- Each launch is preceded in its attempt by a won claim and by no lost one. -/
def LaunchesClaimed (log : List Obs) : Prop :=
  ∀ earlier id later, log = earlier ++ .launched id :: later →
    ∃ before since, earlier = before ++ .attempt id :: since ∧ (∀ id', .attempt id' ∉ since) ∧
      .claimed id .won ∈ since ∧ ∀ owner, .claimed id (.lost owner) ∉ since

/-- No offered job that hits the cache is forced. -/
def hitsUnforced (x : Setup) : Conduct where
  pass s a := x.cache = true → ∀ id ∈ s.frontier.readyFrontier, a.check id = .ok () →
    id ∉ s.frontier.forceRerun
  await _ _ := True

theorem block_launched {block : List Obs} (h : Block x True block) (hx : x.claimer = true)
    {earlier later : List Obs} {id : JobId} (he : block = earlier ++ .launched id :: later) :
    ∃ since, earlier = .attempt id :: since ∧ (∀ id', .attempt id' ∉ since) ∧
      .claimed id .won ∈ since ∧ ∀ owner, .claimed id (.lost owner) ∉ since := by
  have hmem : .launched id ∈ block := by rw [he]; simp
  have hroutine : ∀ {mid : List Obs} {id : JobId}, (∀ o ∈ mid, routine o = true) →
      .launched id ∉ mid := fun hmid hin => Bool.noConfusion (hmid _ hin)
  cases h with
  | quiet hmid => exact absurd hmem (hroutine hmid)
  | completion hmid => simp [hroutine hmid] at hmem
  | recorded hmid => simp [hroutine hmid] at hmem
  | attempt hchecks hmid =>
    simp only [cons_append, mem_cons, reduceCtorEq, mem_append, hroutine hmid,
      or_false, false_or] at hmem
    obtain ⟨hit, h⟩ | ⟨outcome, h⟩ := hchecks _ hmem <;> cases h
  | @launch id' checks mid hchecks hmid hlost hwon =>
    have hfresh : .launched id ∉ Obs.attempt id' :: checks ++ mid := by
      simp only [cons_append, mem_cons, reduceCtorEq, mem_append, hroutine hmid,
        or_false, false_or]
      intro hin
      obtain ⟨hit, h⟩ | ⟨outcome, h⟩ := hchecks _ hin <;> cases h
    obtain ⟨rfl, hid, -⟩ := eq_of_append_last he.symm hfresh
    cases hid
    refine ⟨checks ++ mid, rfl, ?_, ?_, ?_⟩
    · intro id' hin
      obtain hin | hin := mem_append.mp hin
      · obtain ⟨hit, h⟩ | ⟨outcome, h⟩ := hchecks _ hin <;> cases h
      · exact Bool.noConfusion (hmid _ hin)
    · exact mem_append_left _ (hwon trivial hx)
    · intro owner hin
      obtain hin | hin := mem_append.mp hin
      · exact hlost owner hin
      · exact Bool.noConfusion (hmid _ hin)

/-- Claim before execution: in every run with a claimer whose iterations never
offer a forced job that hits the cache, each launch follows a won claim of the
same attempt and no lost one. -/
theorem launches_claimed (hx : x.claimer = true) {p : Point}
    (h : Reachable x (hitsUnforced x) p) : LaunchesClaimed p.state.frontier.log := by
  have hstrict : True → x.cache = true → ∀ s a, (hitsUnforced x).pass s a →
      ∀ id ∈ s.frontier.readyFrontier, a.check id = .ok () → id ∉ s.frontier.forceRerun :=
    fun _ hcache _ _ hpass => hpass hcache
  intro earlier id later he
  obtain ⟨before, _, _, _, hblock, hearlier, hmid⟩ := (reachable_blocks hstrict h).locate he
  obtain ⟨since, rfl, hrest⟩ := block_launched hblock hx hmid
  exact ⟨before, since, hearlier, hrest⟩

def loneGraph : JobGraph where
  jobs := [fileJob "a" [] ["a.txt"]]
  skipped := []
  gates := []
  idsNodup := by decide

def loneOrder : TopologicalOrder loneGraph :=
  .ofPrefixes ["a"] (nodup_singleton "a") (by decide) (by decide)

/-- One job, a cache and a claimer; some jobs are forced from the start. -/
def claiming (forced : List JobId) : Setup :=
  { Setup.plain loneGraph loneOrder
      { skipping [] nodup_nil with forceRerun := forced } with cache := true, claimer := true }

/-- An unforced job that misses the cache is claimed and launched. -/
theorem launches_claimed_lone :
    .launched "a" ∈ (pass (claiming []) .plain (initial (claiming []))).state.frontier.log ∧
    LaunchesClaimed (pass (claiming []) .plain (initial (claiming []))).state.frontier.log := by
  have hforced : (initial (claiming [])).frontier.forceRerun = [] := by decide
  refine ⟨by decide, launches_claimed rfl (.pass (.start rfl) fun _ id _ _ => ?_)⟩
  rw [hforced]
  exact not_mem_nil

def hitting : Answers := { Answers.plain with check := fun _ => .ok () }

/-- A forced job that hits the cache is launched without any claim. -/
theorem not_launches_claimed_forced : (claiming ["a"]).claimer = true ∧
    Reachable (claiming ["a"]) .free (pass (claiming ["a"]) hitting (initial (claiming ["a"]))) ∧
    ¬ LaunchesClaimed
      (pass (claiming ["a"]) hitting (initial (claiming ["a"]))).state.frontier.log := by
  refine ⟨rfl, .pass (.start rfl) trivial, fun h => ?_⟩
  obtain ⟨earlier, later, hlog⟩ := append_of_mem (show .launched "a" ∈
    (pass (claiming ["a"]) hitting (initial (claiming ["a"]))).state.frontier.log by decide)
  obtain ⟨_, _, hearlier, -, hwon, -⟩ := h earlier "a" later hlog
  have hclaimed : .claimed "a" .won ∈
      (pass (claiming ["a"]) hitting (initial (claiming ["a"]))).state.frontier.log := by
    rw [hlog, hearlier]
    simp [hwon]
  exact absurd hclaimed (by decide)

end OxyMake.ClaimedLaunches
