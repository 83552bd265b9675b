import OxyMake.DeliveredRuns
import OxyMake.ExecutionPlanning
import OxyMake.GraphQueries
import OxyMake.ResourceNormalization

/-!
# Selecting and forcing jobs

A run may be narrowed to the jobs a target needs and to the jobs that need not
another one; the jobs outside are excluded. Rules named on the command line are
forced: their jobs and everything downstream leave the set of satisfied jobs. What
is left of the plan, with the excluded jobs, is what the scheduler skips, and the
forced jobs bypass its own cache check.
-/

namespace OxyMake.RunSelection

open List
open PhysicalGraph Observation SchedulingFrontier Frontier SchedulerLoop DeliveredRuns
open ExecutionPlanning GraphQueries
open ResourceNormalization (bind_eq_ok)

/-! ### Selection -/

/-- A target, by job identifier, else by the path of an output. -/
def findTargetJob (g : JobGraph) (target : String) : Except String JobId :=
  if (g.getJob target).isSome then .ok target
  else
    match g.jobIds.find? (jobHas g fun job => job.outputs.any fun r => outputName r == target) with
    | some id => .ok id
    | none =>
      .error ("no job found that produces '" ++ target ++
        "'. Use `ox plan` to see available targets.")

/-- A root and all that a search reaches from it. -/
def closure (g : JobGraph) (next : JobId → List JobId) (root : JobId) : List JobId :=
  root :: (BreadthFirst.collect next (g.jobs.length + 1) root).getD []

def upstreamClosure (g : JobGraph) (root : JobId) : List JobId := closure g g.upstream root

def downstreamClosure (g : JobGraph) (root : JobId) : List JobId := closure g g.downstream root

/-- The arguments that select and force. -/
structure SelectionArgs where
  untilTarget : Option String
  omitTarget : Option String
  /-- Rules to execute again, by name or as a delimited pattern. -/
  forcerun : List String

/-- Jobs outside the closure of the last target to build. -/
def untilSkip (g : JobGraph) : Option String → Except String (List JobId)
  | none => .ok []
  | some target => do
    let root ← findTargetJob g target
    return g.jobIds.filter fun id => decide (id ∉ upstreamClosure g root)

/-- Jobs inside the closure of the first target to leave out. -/
def omitSkip (g : JobGraph) : Option String → Except String (List JobId)
  | none => .ok []
  | some target => do
    let root ← findTargetJob g target
    return downstreamClosure g root

def insertAll (ids set : List JobId) : List JobId := ids.foldl (fun set id => set.insert id) set

def selectiveSkip (g : JobGraph) (args : SelectionArgs) : Except String (List JobId) := do
  let outside ← untilSkip g args.untilTarget
  let omitted ← omitSkip g args.omitTarget
  return insertAll omitted outside

/-! ### Forcing -/

/-- Compiled patterns, as predicates on rule names. -/
abbrev Compile : Type := String → Option (String → Bool)

/-- A rule against an argument; an argument that begins and ends with a slash is a
pattern, and nothing matches a pattern that does not compile. Cutting both slashes
off a single one panics. -/
def matchesRule (compile : Compile) (pattern rule : String) : Option Bool :=
  if pattern.toList.head? = some '/' ∧ pattern.toList.getLast? = some '/' then
    if pattern.toList.length - 1 < 1 then none
    else
      let re := String.ofList ((pattern.toList.drop 1).dropLast)
      some (((compile re).map fun re => re rule).getD false)
  else some (rule == pattern)

/-- Force a matched job and its closure, unless it is forced already. -/
def forceMatched (g : JobGraph) (forced : List JobId) (id : JobId) : List JobId :=
  if id ∈ forced then forced else insertAll (downstreamClosure g id) forced

def forceJob (compile : Compile) (g : JobGraph) (pattern : String) (forced : List JobId)
    (id : JobId) : Option (List JobId) :=
  match g.getJob id with
  | none => some forced
  | some job =>
    (matchesRule compile pattern job.rule).map fun hit =>
      if hit then forceMatched g forced id else forced

/-- All jobs against all arguments; nothing after a panic. -/
def forceJobs (compile : Compile) (g : JobGraph) (patterns : List String) : Option (List JobId) :=
  patterns.foldlM (fun forced pattern => g.jobIds.foldlM (forceJob compile g pattern) forced) []

/-! ### Merging -/

/-- What is handed to the scheduler. -/
structure Selection where
  notSelected : List JobId
  forceRerun : List JobId
  skipJobs : List JobId
  cacheHits : List JobId

/-- Why nothing is handed to the scheduler. -/
inductive Refusal
  | error (message : String)
  | panic
  deriving DecidableEq

/-- Merge the plan with the jobs that are excluded and those that are forced. -/
def selectJobs {π : Type} (compile : Compile) (g : JobGraph) (plan : ExecutionPlan π)
    (args : SelectionArgs) : Except Refusal Selection :=
  match selectiveSkip g args with
  | .error e => .error (.error e)
  | .ok excluded =>
    match forceJobs compile g args.forcerun with
    | none => .error .panic
    | some forced =>
      let satisfied := plan.skipJobs.filter fun id => decide (id ∉ forced)
      let skip := insertAll excluded satisfied
      .ok ⟨excluded, forced, skip, skip.filter fun id => decide (id ∉ excluded)⟩

/-! ### Closures -/

variable {g : JobGraph}

/-- One job leads to another along any number of edges of a query. -/
abbrev Leads (next : JobId → List JobId) : JobId → JobId → Prop :=
  Relation.ReflTransGen fun a b => b ∈ next a

theorem mem_closure {next : JobId → List JobId} (hnext : ∀ x, ∀ y ∈ next x, y ∈ g.jobIds)
    {root id : JobId} : id ∈ closure g next root ↔ Leads next root id := by
  have hdomain : ∀ x, ∀ y ∈ next x, y ∈ g.jobs.map ConcreteJob.id :=
    fun x y hy => (mem_jobIds.mp (hnext x y hy)).1
  obtain ⟨_, hcollect, -, hmem⟩ := BreadthFirst.collect_eq hdomain root
  rw [length_map] at hcollect
  rw [closure, hcollect, Option.getD_some, mem_cons, hmem]
  constructor
  · rintro (rfl | ⟨-, hleads⟩)
    · exact .refl
    · exact hleads
  · intro hleads
    by_cases hroot : id = root
    · exact .inl hroot
    · exact .inr ⟨hroot, hleads⟩

theorem mem_upstreamClosure {root id : JobId} :
    id ∈ upstreamClosure g root ↔ Leads g.upstream root id :=
  mem_closure fun _ _ h => bridgedNeighborsIds_mem_jobIds h

theorem mem_downstreamClosure {root id : JobId} :
    id ∈ downstreamClosure g root ↔ Leads g.downstream root id :=
  mem_closure fun _ _ h => bridgedNeighborsIds_mem_jobIds h

theorem mem_upstream_of_mem_downstream {u d : JobId} (hu : u ∈ g.jobIds)
    (h : d ∈ g.downstream u) : u ∈ g.upstream d :=
  (mem_upstream_iff_mem_downstream (mem_jobIds.mp hu).2
    (mem_jobIds.mp (bridgedNeighborsIds_mem_jobIds h)).2).mpr h

theorem mem_downstream_of_mem_upstream {u d : JobId} (hd : d ∈ g.jobIds)
    (h : u ∈ g.upstream d) : d ∈ g.downstream u :=
  (mem_upstream_iff_mem_downstream (mem_jobIds.mp (bridgedNeighborsIds_mem_jobIds h)).2
    (mem_jobIds.mp hd).2).mp h

/-- A set that holds what is downstream of its members. -/
def DownClosed (g : JobGraph) (set : List JobId) : Prop :=
  ∀ id ∈ set, ∀ d ∈ g.downstream id, d ∈ set

theorem DownClosed.leads {set : List JobId} (h : DownClosed g set) {root id : JobId}
    (hroot : root ∈ set) (hleads : Leads g.downstream root id) : id ∈ set := by
  induction hleads with
  | refl => exact hroot
  | tail _ hstep ih => exact h _ ih _ hstep

theorem mem_insertAll {ids set : List JobId} {id : JobId} :
    id ∈ insertAll ids set ↔ id ∈ set ∨ id ∈ ids :=
  mem_foldl_insert ids set id

theorem DownClosed.insertAll {ids set : List JobId} (hids : DownClosed g ids)
    (hset : DownClosed g set) : DownClosed g (insertAll ids set) := by
  intro id hid d hd
  rcases mem_insertAll.mp hid with hid | hid
  · exact mem_insertAll.mpr (.inl (hset id hid d hd))
  · exact mem_insertAll.mpr (.inr (hids id hid d hd))

theorem downClosed_downstreamClosure (root : JobId) : DownClosed g (downstreamClosure g root) :=
  fun _ hid _ hd => mem_downstreamClosure.mpr ((mem_downstreamClosure.mp hid).tail hd)

/-! ### Excluded jobs -/

/-- A target that a job has, or that is the path of an output of a job. -/
def Names (g : JobGraph) (target : String) : Prop :=
  target ∈ g.jobIds ∨ ∃ id job, g.getJob id = some job ∧ ∃ r ∈ job.outputs, outputName r = target

theorem live_of_getJob {id : JobId} {job : ConcreteJob} (h : g.getJob id = some job) :
    id ∈ g.jobIds := by
  rw [JobGraph.getJob] at h
  by_cases hskip : g.isSkipped id = true
  · rw [if_pos hskip] at h
    cases h
  · rw [if_neg hskip] at h
    exact mem_jobIds.mpr ⟨findJob_isSome_iff.mp (by rw [h]; rfl), Bool.eq_false_of_not_eq_true hskip⟩

theorem jobHas_iff {property : ConcreteJob → Bool} {id : JobId} :
    jobHas g property id = true ↔ ∃ job, g.getJob id = some job ∧ property job = true := by
  rw [jobHas, Option.any_eq_true]

theorem findTargetJob_ok_iff {target : String} :
    (∃ root, findTargetJob g target = .ok root) ↔ Names g target := by
  have hlookup : (g.getJob target).isSome = true ↔ target ∈ g.jobIds := by
    constructor
    · intro h
      obtain ⟨job, hjob⟩ := Option.isSome_iff_exists.mp h
      exact live_of_getJob hjob
    · intro h
      obtain ⟨job, hjob⟩ := getJob_of_mem_jobIds h
      rw [hjob]
      rfl
  rw [findTargetJob, Names, ← hlookup]
  by_cases hid : (g.getJob target).isSome = true
  · rw [if_pos hid]
    exact ⟨fun _ => .inl hid, fun _ => ⟨target, rfl⟩⟩
  · rw [if_neg hid, or_iff_right hid]
    generalize hfind : g.jobIds.find? _ = found
    cases found with
    | none =>
      constructor
      · rintro ⟨root, hroot⟩
        cases hroot
      · rintro ⟨id, job, hjob, r, hr, hname⟩
        have hnot := List.find?_eq_none.mp hfind id (live_of_getJob hjob)
        refine absurd (jobHas_iff.mpr ⟨job, hjob, ?_⟩) hnot
        exact any_eq_true.mpr ⟨r, hr, beq_iff_eq.mpr hname⟩
    | some id =>
      constructor
      · intro _
        obtain ⟨job, hjob, hany⟩ := jobHas_iff.mp (List.find?_some hfind)
        obtain ⟨r, hr, hname⟩ := any_eq_true.mp hany
        exact ⟨id, job, hjob, r, hr, beq_iff_eq.mp hname⟩
      · intro _
        exact ⟨id, rfl⟩

theorem downClosed_outside (root : JobId) :
    DownClosed g (g.jobIds.filter fun id => decide (id ∉ upstreamClosure g root)) := by
  intro id hid d hd
  obtain ⟨hlive, houtside⟩ := mem_filter.mp hid
  refine mem_filter.mpr ⟨bridgedNeighborsIds_mem_jobIds hd, decide_eq_true fun hinside => ?_⟩
  have hleads := (mem_upstreamClosure.mp hinside).tail (mem_upstream_of_mem_downstream hlive hd)
  exact of_decide_eq_true houtside (mem_upstreamClosure.mpr hleads)

/-- A job is excluded: the last target does not need it, or it is the first target to leave
out or needs it. -/
def Excluded (g : JobGraph) (args : SelectionArgs) (id : JobId) : Prop :=
  (∃ target root, args.untilTarget = some target ∧ findTargetJob g target = .ok root ∧
    id ∈ g.jobIds ∧ ¬ Leads g.upstream root id) ∨
  ∃ target root, args.omitTarget = some target ∧ findTargetJob g target = .ok root ∧
    Leads g.downstream root id

theorem mem_untilSkip {untilTarget : Option String} {outside : List JobId}
    (h : untilSkip g untilTarget = .ok outside) :
    DownClosed g outside ∧ ∀ id, id ∈ outside ↔ ∃ target root, untilTarget = some target ∧
      findTargetJob g target = .ok root ∧ id ∈ g.jobIds ∧ ¬ Leads g.upstream root id := by
  cases untilTarget with
  | none =>
    cases h
    refine ⟨fun id hid => absurd hid not_mem_nil, fun id => ?_⟩
    constructor
    · intro hid
      cases hid
    · rintro ⟨target, root, htarget, -⟩
      cases htarget
  | some target =>
    obtain ⟨root, hroot, hrest⟩ := bind_eq_ok h
    cases hrest
    refine ⟨downClosed_outside root, fun id => ?_⟩
    rw [mem_filter, decide_eq_true_eq, mem_upstreamClosure]
    constructor
    · intro hid
      exact ⟨target, root, rfl, hroot, hid⟩
    · rintro ⟨_, _, heq, hroot', hid⟩
      cases heq
      cases hroot.symm.trans hroot'
      exact hid

theorem mem_omitSkip {omitTarget : Option String} {omitted : List JobId}
    (h : omitSkip g omitTarget = .ok omitted) :
    DownClosed g omitted ∧ ∀ id, id ∈ omitted ↔ ∃ target root, omitTarget = some target ∧
      findTargetJob g target = .ok root ∧ Leads g.downstream root id := by
  cases omitTarget with
  | none =>
    cases h
    refine ⟨fun id hid => absurd hid not_mem_nil, fun id => ?_⟩
    constructor
    · intro hid
      cases hid
    · rintro ⟨target, root, htarget, -⟩
      cases htarget
  | some target =>
    obtain ⟨root, hroot, hrest⟩ := bind_eq_ok h
    cases hrest
    refine ⟨downClosed_downstreamClosure root, fun id => ?_⟩
    rw [mem_downstreamClosure]
    constructor
    · intro hid
      exact ⟨target, root, rfl, hroot, hid⟩
    · rintro ⟨_, _, heq, hroot', hid⟩
      cases heq
      cases hroot.symm.trans hroot'
      exact hid

theorem selectiveSkip_spec {args : SelectionArgs} {excluded : List JobId}
    (h : selectiveSkip g args = .ok excluded) :
    DownClosed g excluded ∧ ∀ id, id ∈ excluded ↔ Excluded g args id := by
  obtain ⟨_, houtside, hrest⟩ := bind_eq_ok h
  obtain ⟨_, homitted, hrest⟩ := bind_eq_ok hrest
  cases hrest
  obtain ⟨hclosed, hmem⟩ := mem_untilSkip houtside
  obtain ⟨hclosed', hmem'⟩ := mem_omitSkip homitted
  refine ⟨hclosed'.insertAll hclosed, fun id => ?_⟩
  rw [mem_insertAll, hmem, hmem', Excluded]

theorem bind_pure_ok_iff {α β : Type} {x : Except String α} {f : α → β} :
    (∃ b, (x >>= fun a => pure (f a)) = .ok b) ↔ ∃ a, x = .ok a := by
  constructor
  · rintro ⟨b, hb⟩
    obtain ⟨a, ha, -⟩ := bind_eq_ok hb
    exact ⟨a, ha⟩
  · rintro ⟨a, rfl⟩
    exact ⟨f a, rfl⟩

theorem forall_eq_some_iff {target : String} {p : String → Prop} :
    (∀ t, some target = some t → p t) ↔ p target :=
  ⟨fun h => h target rfl, fun h _ heq => Option.some.inj heq ▸ h⟩

theorem untilSkip_ok_iff {untilTarget : Option String} :
    (∃ outside, untilSkip g untilTarget = .ok outside) ↔
      ∀ target, untilTarget = some target → Names g target := by
  cases untilTarget with
  | none => exact ⟨fun _ _ htarget => (nomatch htarget), fun _ => ⟨[], rfl⟩⟩
  | some =>
    rw [forall_eq_some_iff, ← findTargetJob_ok_iff]
    exact bind_pure_ok_iff

theorem omitSkip_ok_iff {omitTarget : Option String} :
    (∃ omitted, omitSkip g omitTarget = .ok omitted) ↔
      ∀ target, omitTarget = some target → Names g target := by
  cases omitTarget with
  | none => exact ⟨fun _ _ htarget => (nomatch htarget), fun _ => ⟨[], rfl⟩⟩
  | some =>
    rw [forall_eq_some_iff, ← findTargetJob_ok_iff]
    exact bind_pure_ok_iff

theorem selectiveSkip_ok_iff {args : SelectionArgs} :
    (∃ excluded, selectiveSkip g args = .ok excluded) ↔
      (∀ target, args.untilTarget = some target → Names g target) ∧
      ∀ target, args.omitTarget = some target → Names g target := by
  rw [← untilSkip_ok_iff, ← omitSkip_ok_iff]
  constructor
  · rintro ⟨excluded, h⟩
    obtain ⟨outside, houtside, hrest⟩ := bind_eq_ok h
    obtain ⟨omitted, homitted, -⟩ := bind_eq_ok hrest
    exact ⟨⟨outside, houtside⟩, omitted, homitted⟩
  · rintro ⟨⟨outside, houtside⟩, omitted, homitted⟩
    refine ⟨insertAll omitted outside, ?_⟩
    rw [selectiveSkip, houtside, homitted]
    rfl

/-! ### Forced jobs -/

/-- A job of a rule that an argument matches. -/
def Hit (compile : Compile) (g : JobGraph) (pattern : String) (id : JobId) : Prop :=
  ∃ job, g.getJob id = some job ∧ matchesRule compile pattern job.rule = some true

/-- A job that an argument matches, or one downstream of such a job. -/
def Forced (compile : Compile) (g : JobGraph) (patterns : List String) (id : JobId) : Prop :=
  ∃ pattern ∈ patterns, ∃ m, Hit compile g pattern m ∧ Leads g.downstream m id

/-- An argument in slashes matches as the pattern between them, a name matches itself. -/
theorem matchesRule_eq_some_true_iff (compile : Compile) (arg rule : String) :
    (matchesRule compile ("/" ++ arg ++ "/") rule = some true ↔
      ∃ re, compile arg = some re ∧ re rule = true) ∧
    (arg.toList.head? ≠ some '/' → (matchesRule compile arg rule = some true ↔ rule = arg)) := by
  constructor
  · have hlist : ("/" ++ arg ++ "/").toList = '/' :: arg.toList ++ ['/'] := by simp
    rw [matchesRule, hlist, if_pos ⟨rfl, getLast?_concat⟩]
    cases h : compile arg <;> simp [h]
  · intro hname
    rw [matchesRule, if_neg fun h => hname h.1, Option.some.injEq, beq_iff_eq]

theorem matchesRule_eq_none_iff {compile : Compile} {pattern rule : String} :
    matchesRule compile pattern rule = none ↔ pattern = "/" := by
  rw [matchesRule]
  constructor
  · intro h
    by_cases hregex : pattern.toList.head? = some '/' ∧ pattern.toList.getLast? = some '/'
    · rw [if_pos hregex] at h
      by_cases hshort : pattern.toList.length - 1 < 1
      · apply String.ext
        cases hlist : pattern.toList with
        | nil =>
          rw [hlist] at hregex
          cases hregex.1
        | cons =>
          rw [hlist] at hregex hshort
          rw [List.head?_cons, Option.some.injEq] at hregex
          rw [length_cons, Nat.add_sub_cancel] at hshort
          rw [hregex.1, length_eq_zero_iff.mp (Nat.lt_one_iff.mp hshort)]
          rfl
      · rw [if_neg hshort] at h
        cases h
    · rw [if_neg hregex] at h
      cases h
  · rintro rfl
    rfl

section

variable {compile : Compile} {pattern : String}

theorem forceJob_spec {forced forced' : List JobId} {id : JobId} (hclosed : DownClosed g forced)
    (h : forceJob compile g pattern forced id = some forced') :
    DownClosed g forced' ∧ ∀ j, j ∈ forced' ↔
      j ∈ forced ∨ Hit compile g pattern id ∧ Leads g.downstream id j := by
  rw [forceJob] at h
  cases hjob : g.getJob id with
  | none =>
    rw [hjob] at h
    cases h
    refine ⟨hclosed, fun j => ?_⟩
    rw [or_iff_left]
    rintro ⟨⟨job, hjob', -⟩, -⟩
    rw [hjob] at hjob'
    cases hjob'
  | some job =>
    rw [hjob] at h
    obtain ⟨hit, hmatch, rfl⟩ := Option.map_eq_some_iff.mp h
    have hhit : Hit compile g pattern id ↔ hit = true := by
      constructor
      · rintro ⟨_, hjob', hmatch'⟩
        cases hjob.symm.trans hjob'
        exact Option.some.inj (hmatch.symm.trans hmatch')
      · rintro rfl
        exact ⟨job, hjob, hmatch⟩
    cases hit with
    | false =>
      refine ⟨hclosed, fun j => ?_⟩
      rw [hhit]
      exact ⟨.inl, fun hj => hj.resolve_right fun hnot => Bool.false_ne_true hnot.1⟩
    | true =>
      rw [if_pos rfl, forceMatched]
      by_cases hmem : id ∈ forced
      · rw [if_pos hmem]
        refine ⟨hclosed, fun j => ⟨.inl, fun hj => ?_⟩⟩
        rcases hj with hj | ⟨-, hleads⟩
        · exact hj
        · exact hclosed.leads hmem hleads
      · rw [if_neg hmem]
        refine ⟨(downClosed_downstreamClosure id).insertAll hclosed, fun j => ?_⟩
        rw [mem_insertAll, mem_downstreamClosure, hhit]
        exact or_congr_right (and_iff_right rfl).symm

theorem forceJob_foldlM {ids : List JobId} {forced forced' : List JobId}
    (hclosed : DownClosed g forced)
    (h : ids.foldlM (forceJob compile g pattern) forced = some forced') :
    DownClosed g forced' ∧ ∀ j, j ∈ forced' ↔
      j ∈ forced ∨ ∃ m ∈ ids, Hit compile g pattern m ∧ Leads g.downstream m j := by
  induction ids generalizing forced with
  | nil =>
    cases h
    refine ⟨hclosed, fun j => ?_⟩
    simp
  | cons id ids ih =>
    rw [foldlM_cons] at h
    obtain ⟨_, hmid, hrest⟩ := Option.bind_eq_some_iff.mp h
    obtain ⟨hmidClosed, hmidMem⟩ := forceJob_spec hclosed hmid
    obtain ⟨hlast, hmem⟩ := ih hmidClosed hrest
    refine ⟨hlast, fun j => ?_⟩
    rw [hmem, hmidMem, exists_mem_cons_iff, or_assoc]

theorem forceJobs_foldlM {patterns : List String} {forced forced' : List JobId}
    (hclosed : DownClosed g forced)
    (h : patterns.foldlM (fun forced pattern => g.jobIds.foldlM (forceJob compile g pattern) forced)
      forced = some forced') :
    DownClosed g forced' ∧ ∀ j, j ∈ forced' ↔ j ∈ forced ∨ Forced compile g patterns j := by
  induction patterns generalizing forced with
  | nil =>
    cases h
    refine ⟨hclosed, fun j => ?_⟩
    simp [Forced]
  | cons pattern patterns ih =>
    rw [foldlM_cons] at h
    obtain ⟨_, hmid, hrest⟩ := Option.bind_eq_some_iff.mp h
    obtain ⟨hmidClosed, hmidMem⟩ := forceJob_foldlM hclosed hmid
    obtain ⟨hlast, hmem⟩ := ih hmidClosed hrest
    refine ⟨hlast, fun j => ?_⟩
    have hlive : (∃ m ∈ g.jobIds, Hit compile g pattern m ∧ Leads g.downstream m j) ↔
        ∃ m, Hit compile g pattern m ∧ Leads g.downstream m j := by
      constructor
      · rintro ⟨m, -, hm⟩
        exact ⟨m, hm⟩
      · rintro ⟨m, hm⟩
        obtain ⟨_, hjob, -⟩ := hm.1
        exact ⟨m, live_of_getJob hjob, hm⟩
    have hcons : Forced compile g (pattern :: patterns) j ↔
        (∃ m, Hit compile g pattern m ∧ Leads g.downstream m j) ∨ Forced compile g patterns j :=
      exists_mem_cons_iff ..
    rw [hmem, hmidMem, hlive, or_assoc, hcons]

theorem forceJobs_spec {patterns : List String} {forced : List JobId}
    (h : forceJobs compile g patterns = some forced) :
    DownClosed g forced ∧ ∀ j, j ∈ forced ↔ Forced compile g patterns j := by
  have hempty : DownClosed g [] := fun id hid => absurd hid not_mem_nil
  obtain ⟨hclosed, hmem⟩ := forceJobs_foldlM hempty h
  refine ⟨hclosed, fun j => ?_⟩
  rw [hmem, or_iff_right not_mem_nil]

theorem forceJob_isSome {forced : List JobId} {id : JobId} (hid : id ∈ g.jobIds) :
    (forceJob compile g pattern forced id).isSome = true ↔ pattern ≠ "/" := by
  obtain ⟨_, hjob⟩ := getJob_of_mem_jobIds hid
  rw [forceJob, hjob]
  dsimp only
  rw [Option.isSome_map, ← Option.ne_none_iff_isSome, Ne, matchesRule_eq_none_iff]

theorem isSome_foldlM {α β : Type} {step : β → α → Option β} {cond : α → Prop} {xs : List α}
    (hstep : ∀ b, ∀ a ∈ xs, (step b a).isSome = true ↔ cond a) (b : β) :
    (xs.foldlM step b).isSome = true ↔ ∀ a ∈ xs, cond a := by
  induction xs generalizing b with
  | nil => exact ⟨fun _ a ha => absurd ha not_mem_nil, fun _ => rfl⟩
  | cons a xs ih =>
    have hhead := hstep b a mem_cons_self
    have htail := ih fun b x hx => hstep b x (.tail a hx)
    rw [foldlM_cons, forall_mem_cons, ← hhead]
    cases hmid : step b a with
    | none => exact ⟨fun h => (nomatch h), fun h => (nomatch h.1)⟩
    | some mid => exact (htail mid).trans (and_iff_right rfl).symm

theorem forceJobs_isSome {patterns : List String} :
    (forceJobs compile g patterns).isSome = true ↔ ("/" ∈ patterns → g.jobIds = []) := by
  have hpattern : ∀ forced, ∀ pattern ∈ patterns,
      (g.jobIds.foldlM (forceJob compile g pattern) forced).isSome = true ↔
        ∀ id ∈ g.jobIds, pattern ≠ "/" :=
    fun forced pattern _ => isSome_foldlM (fun _ _ hid => forceJob_isSome hid) forced
  rw [forceJobs, isSome_foldlM hpattern, eq_nil_iff_forall_not_mem]
  constructor
  · intro h hslash id hid
    exact h "/" hslash id hid rfl
  · rintro h pattern hpattern id hid rfl
    exact h hpattern id hid

end

/-! ### Runs -/

section Runs

variable {x : Setup} {Hash : Type} [DecidableEq Hash]

theorem mem_initial_forceRerun {id : JobId} :
    id ∈ (initial x).frontier.forceRerun ↔ id ∈ x.config.forceRerun := by
  have hmark : ∀ (ids : List JobId) (f : Frontier),
      (ids.foldl (premark x.graph) f).forceRerun = f.forceRerun := by
    intro ids
    induction ids with
    | nil => exact fun f => rfl
    | cons first ids ih =>
      intro f
      rw [foldl_cons, ih, premark]
      split
      · exact (LoopFrames.promoteDownstream_framed x.graph first _).1
      · rfl
  have hinit : (initial x).frontier.forceRerun =
      x.config.forceRerun.foldl (fun set id => set.insert id) [] := hmark _ _
  rw [hinit, mem_foldl_insert, or_iff_right not_mem_nil]

/-- The jobs forced from the beginning stay forced, and the cache satisfies none of them. -/
structure Spared (x : Setup) (p : LoopState × Bool) : Prop where
  forced : ∀ id ∈ x.config.forceRerun, id ∈ p.1.frontier.forceRerun
  /-- None was skipped by the loop. -/
  unskipped : ∃ obs, p.1.frontier.log = (initial x).frontier.log ++ obs ∧
    ∀ id ∈ x.config.forceRerun, (id, .skipped) ∉ writes obs

theorem Spared.step {p q : LoopState × Bool} {label : Option (Delivery Hash)}
    (h : Spared x p) (hstep : LoopStep x p label q) : Spared x q := by
  obtain ⟨obs, hlog, hnone⟩ := h.unskipped
  cases hstep with
  | moves hmoves =>
    obtain ⟨new, hnew, -, -, hunforced⟩ := hmoves.grown
    refine ⟨fun id hid => hmoves.forceRerun ▸ h.forced id hid, obs ++ new, ?_, fun id hid => ?_⟩
    · rw [hnew, hlog, append_assoc]
    · rw [writes_append, mem_append]
      rintro (hold | hskipped)
      · exact hnone id hid hold
      · exact hunforced id hskipped (h.forced id hid)
  | delivers hdelivers =>
    obtain ⟨new, hnew, -, hnever, -⟩ := hdelivers.grown
    refine ⟨fun id hid => (hdelivers.forceRerun id).mpr (.inl (h.forced id hid)), obs ++ new, ?_,
      fun id hid => ?_⟩
    · rw [hnew, hlog, append_assoc]
    · rw [writes_append, mem_append]
      rintro (hold | hskipped)
      · exact hnone id hid hold
      · exact hnever id hskipped

theorem spared_of_recorded {p : Point} {ds : List (Delivery Hash)} (h : Recorded x p ds) :
    ∃ closed, Spared x (p.state, closed) := by
  obtain ⟨closed, hrun, -⟩ := recorded_run h
  have hstart : Spared x (initial x, false) := by
    refine ⟨fun id hid => mem_initial_forceRerun.mpr hid, [], (append_nil _).symm, ?_⟩
    intro id _ hmem
    cases hmem
  exact ⟨closed, hrun.invariant (Spared x) (fun _ _ _ hinv hstep => hinv.step hstep) hstart⟩

end Runs

/-! ### Composition -/

/-- The scheduler is configured with a selection. -/
structure Handed (sel : Selection) (x : Setup) : Prop where
  skipJobs : ∀ id, id ∈ x.config.skipJobs ↔ id ∈ sel.skipJobs
  notSelected : ∀ id, id ∈ x.config.notSelected ↔ id ∈ sel.notSelected
  forceRerun : ∀ id, id ∈ x.config.forceRerun ↔ id ∈ sel.forceRerun

/-- A job of the graph that is not excluded. -/
def Kept (g : JobGraph) (sel : Selection) (id : JobId) : Prop :=
  id ∈ g.jobIds ∧ id ∉ sel.notSelected

/-- How a selection is composed of a plan and the arguments, and what a run makes of it. -/
structure Composes {π : Type} (compile : Compile) (g : JobGraph) (plan : ExecutionPlan π)
    (args : SelectionArgs) (sel : Selection) : Prop where
  /-- The excluded jobs are those the targets exclude. -/
  excluded : ∀ id, id ∈ sel.notSelected ↔ Excluded g args id
  downClosed : DownClosed g sel.notSelected
  /-- No kept job has an excluded upstream job. -/
  kept : ∀ id, Kept g sel id → ∀ u, TransitiveUpstream g u id → Kept g sel u
  /-- Skipped are the excluded jobs and the kept jobs of the plan that are not forced. -/
  skipped : ∀ id, id ∈ sel.skipJobs ↔ id ∈ sel.notSelected ∨
    Kept g sel id ∧ id ∈ plan.skipJobs ∧ ¬ Forced compile g args.forcerun id
  /-- The upstream jobs of a kept job that is skipped are skipped as cache hits. -/
  hits : ∀ id, Kept g sel id → id ∈ sel.skipJobs → ∀ u, TransitiveUpstream g u id →
    u ∈ sel.skipJobs ∧ u ∈ sel.cacheHits
  /-- No run satisfies a kept job that is forced from the cache. -/
  unsatisfied : ∀ x : Setup, x.graph = g → Handed sel x → ∀ (Hash : Type) [DecidableEq Hash]
    (p : Point) (ds : List (Delivery Hash)), Recorded x p ds → ∀ id, Kept g sel id →
    Forced compile g args.forcerun id → id ∉ x.config.skipJobs ∧
      ∃ obs, p.state.frontier.log = (initial x).frontier.log ++ obs ∧ (id, .skipped) ∉ writes obs

theorem selectJobs_ok_iff {π : Type} {compile : Compile} {plan : ExecutionPlan π}
    {args : SelectionArgs} {sel : Selection} :
    selectJobs compile g plan args = .ok sel ↔
      selectiveSkip g args = .ok sel.notSelected ∧
      forceJobs compile g args.forcerun = some sel.forceRerun ∧
      sel.skipJobs = insertAll sel.notSelected
        (plan.skipJobs.filter fun id => decide (id ∉ sel.forceRerun)) ∧
      sel.cacheHits = sel.skipJobs.filter fun id => decide (id ∉ sel.notSelected) := by
  rw [selectJobs]
  cases hselect : selectiveSkip g args with
  | error => exact ⟨fun h => (nomatch h), fun h => (nomatch h.1)⟩
  | ok =>
    dsimp only
    cases hforce : forceJobs compile g args.forcerun with
    | none => exact ⟨fun h => (nomatch h), fun h => (nomatch h.2.1)⟩
    | some =>
      constructor
      · intro h
        cases h
        exact ⟨rfl, rfl, rfl, rfl⟩
      · obtain ⟨_, _, _, _⟩ := sel
        rintro ⟨hexcluded, hforced, hskip, hhits⟩
        cases hexcluded
        cases hforced
        dsimp only at hskip hhits
        rw [hhits, hskip]

theorem DownClosed.not_mem_of_upstream {set : List JobId} (h : DownClosed g set) {u id : JobId}
    (hup : TransitiveUpstream g u id) : id ∈ g.jobIds → id ∉ set → u ∈ g.jobIds ∧ u ∉ set := by
  induction hup with
  | single hstep =>
    intro hlive hnot
    exact ⟨bridgedNeighborsIds_mem_jobIds hstep,
      fun hu => hnot (h _ hu _ (mem_downstream_of_mem_upstream hlive hstep))⟩
  | tail _ hstep ih =>
    intro hlive hnot
    exact ih (bridgedNeighborsIds_mem_jobIds hstep)
      fun hu => hnot (h _ hu _ (mem_downstream_of_mem_upstream hlive hstep))

/-- A plan skips jobs of the graph only, with all that is upstream of them. -/
structure Satisfiable {π : Type} (g : JobGraph) (plan : ExecutionPlan π) : Prop where
  live : ∀ id ∈ plan.skipJobs, id ∈ g.jobIds
  /-- Skipped jobs are closed under upstream. -/
  closed : ∀ id ∈ plan.skipJobs, ∀ u ∈ g.upstream id, u ∈ plan.skipJobs

theorem satisfiable_determineExecution {σ κ π : Type} (topo : TopologicalOrder g)
    (checks : Checks σ κ π) (settings : Settings) (cacheEnabled : Bool) (s : σ) :
    Satisfiable g (determineExecution checks settings g cacheEnabled topo.order s) := by
  cases cacheEnabled with
  | false =>
    have hnone := (disabled_runReasons g.jobIds (ExecutionPlan.empty π)).1
    have hempty : ∀ id, id ∉ (determineExecution checks settings g false topo.order s).skipJobs := by
      intro id hid
      have hid' : id ∈ (ExecutionPlan.empty π).skipJobs := hnone ▸ hid
      cases hid'
    exact ⟨fun id hid => absurd hid (hempty id), fun id hid => absurd hid (hempty id)⟩
  | true =>
    have hplanned := planned_planJobs checks settings topo s topo.order [] (append_nil _).symm
    have hexact := hplanned.plansExactly topo
    exact ⟨fun id hid => (hexact.covers id).mpr (.inl hid), hexact.closed⟩

theorem composes_of_selected {π : Type} {compile : Compile} {plan : ExecutionPlan π}
    (hplan : Satisfiable g plan) {args : SelectionArgs} {sel : Selection}
    (h : selectJobs compile g plan args = .ok sel) : Composes compile g plan args sel := by
  obtain ⟨hselect, hforce, hskip, hhits⟩ := selectJobs_ok_iff.mp h
  obtain ⟨hclosed, hexcluded⟩ := selectiveSkip_spec hselect
  obtain ⟨hforcedClosed, hforced⟩ := forceJobs_spec hforce
  have hkept : ∀ id, Kept g sel id → ∀ u, TransitiveUpstream g u id → Kept g sel u :=
    fun id hid u hu => hclosed.not_mem_of_upstream hu hid.1 hid.2
  have hskipped : ∀ id, id ∈ sel.skipJobs ↔ id ∈ sel.notSelected ∨
      Kept g sel id ∧ id ∈ plan.skipJobs ∧ ¬ Forced compile g args.forcerun id := by
    intro id
    rw [hskip, mem_insertAll, mem_filter, decide_eq_true_eq, hforced, or_comm]
    constructor
    · rintro (hid | hid)
      · exact .inl hid
      · by_cases hex : id ∈ sel.notSelected
        · exact .inl hex
        · exact .inr ⟨⟨hplan.live id hid.1, hex⟩, hid⟩
    · rintro (hid | hid)
      · exact .inl hid
      · exact .inr hid.2
  refine ⟨hexcluded, hclosed, hkept, hskipped, ?_, ?_⟩
  · intro id hid hmem u hu
    obtain ⟨-, hplanned, hnot⟩ := ((hskipped id).mp hmem).resolve_left hid.2
    have huKept := hkept id hid u hu
    have huPlanned := closed_transitiveUpstream hplan.closed hu hplanned
    have hidForced : id ∉ sel.forceRerun := fun hin => hnot ((hforced id).mp hin)
    have huForced := (hforcedClosed.not_mem_of_upstream hu hid.1 hidForced).2
    have huSkip := (hskipped u).mpr
      (.inr ⟨huKept, huPlanned, fun hf => huForced ((hforced u).mpr hf)⟩)
    refine ⟨huSkip, ?_⟩
    rw [hhits]
    exact mem_filter.mpr ⟨huSkip, decide_eq_true huKept.2⟩
  · intro x _ hhanded Hash _ p ds hrun id hid hf
    constructor
    · intro hmem
      obtain ⟨-, -, hnot⟩ := ((hskipped id).mp ((hhanded.skipJobs id).mp hmem)).resolve_left hid.2
      exact hnot hf
    · obtain ⟨_, hspared⟩ := spared_of_recorded hrun
      obtain ⟨obs, hlog, hnone⟩ := hspared.unskipped
      exact ⟨obs, hlog, hnone id ((hhanded.forceRerun id).mpr ((hforced id).mpr hf))⟩

/-- On every acyclic graph, for all answers of the cache and all arguments, something is handed
to the scheduler exactly when the targets name jobs and no argument is a slash alone, and then
selection and forcing compose. -/
theorem selection_composes {σ κ π : Type} (compile : Compile) (topo : TopologicalOrder g)
    (checks : Checks σ κ π) (settings : Settings) (cacheEnabled : Bool) (s : σ)
    (args : SelectionArgs) :
    ((∃ sel, selectJobs compile g
        (determineExecution checks settings g cacheEnabled topo.order s) args = .ok sel) ↔
      (∀ target, args.untilTarget = some target → Names g target) ∧
      (∀ target, args.omitTarget = some target → Names g target) ∧
      ("/" ∈ args.forcerun → g.jobIds = [])) ∧
    ∀ sel, selectJobs compile g
        (determineExecution checks settings g cacheEnabled topo.order s) args = .ok sel →
      Composes compile g (determineExecution checks settings g cacheEnabled topo.order s) args
        sel := by
  constructor
  · rw [← and_assoc, ← selectiveSkip_ok_iff, ← @forceJobs_isSome g compile args.forcerun]
    constructor
    · rintro ⟨sel, hsel⟩
      obtain ⟨hselect, hforce, -⟩ := selectJobs_ok_iff.mp hsel
      exact ⟨⟨_, hselect⟩, hforce ▸ rfl⟩
    · rintro ⟨⟨_, hselect⟩, hsome⟩
      obtain ⟨_, hforce⟩ := Option.isSome_iff_exists.mp hsome
      rw [selectJobs, hselect]
      dsimp only
      rw [hforce]
      exact ⟨_, rfl⟩
  · intro sel hsel
    exact composes_of_selected (satisfiable_determineExecution topo checks settings cacheEnabled s)
      hsel

end OxyMake.RunSelection
