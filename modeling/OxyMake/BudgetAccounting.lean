import OxyMake.ResourceNormalization
import Mathlib.Algebra.Order.BigOperators.Group.List
import Mathlib.Tactic.Linarith

/-!
# Accounting of the resource budget

The capacity and the amounts in use are kept per canonical resource. The
scheduler checks that a validated demand fits and then acquires it; tasks drop
their guards at any time in between. Lookups, additions, subtractions and the
admission assertion are computed with their failures, and no run meets one: the
amounts in use are the sums over the outstanding guards and stay within the
capacity.
-/

namespace OxyMake.BudgetAccounting

open List
open Admission ResourceNormalization

/-- A panic of the budget code. -/
inductive Fault
  | missingCapacity (key : CanonicalResource)
  | missingUse (key : CanonicalResource)
  | missingDeclaration
  | subtractionUnderflow
  | additionOverflow
  | admissionAssertion
  deriving DecidableEq, Repr

def subU64 (a b : ℕ) : Except Fault ℕ :=
  if b ≤ a then .ok (a - b) else .error .subtractionUnderflow

def addU64 (a b : ℕ) : Except Fault ℕ :=
  if a + b < 2 ^ 64 then .ok (a + b) else .error .additionOverflow

/-- Capacity and amounts in use, as the guards share them. -/
structure ResourceBudgetInner where
  capacity : ResourceAmounts
  /-- Amounts in use of the resources acquired so far. -/
  inUse : ResourceAmounts
  deriving DecidableEq, Repr

inductive ConfigError
  | capacity (error : ResourceError)
  | demand (job : String) (error : ResourceError)
  | exceeds (job : String) (request : String) (key : CanonicalResource) (capacity : String)
  deriving DecidableEq, Repr

/-- Rendering of an amount: bytes of memory, tokens otherwise. -/
def renderAmount (key : CanonicalResource) (amount : ℕ) : String :=
  if key = .memory then toString amount
  else if amount % tokenScale = 0 then toString (amount / tokenScale)
  else
    let fractional := toString (amount % tokenScale)
    toString (amount / tokenScale) ++ "." ++
      String.ofList (List.replicate (4 - fractional.length) '0') ++ fractional

def displayKey : CanonicalResource → String
  | .cpu => "cpu"
  | .gpu => "gpu"
  | .memory => "memory"
  | .custom name => "custom:" ++ name

namespace ResourceBudgetInner

/-- Budget with the given capacities and nothing in use. -/
def tryNew (capacity : List (String × UInt64)) : Except ConfigError ResourceBudgetInner :=
  match normalizeResources (capacity.map fun e => (e.1, .str (toString e.2.toNat))) with
  | .error error => .error (.capacity error)
  | .ok n => .ok ⟨resourceAmounts n, []⟩

variable (inner : ResourceBudgetInner)

def constrained (raw : List (String × ResourceValue)) : List (String × ResourceValue) :=
  raw.filter fun e =>
    match canonicalizeResourceKey e.1 with
    | .ok key => (inner.capacity.lookup key).isSome
    | .error _ => false

def normalizeDemand (raw : List (String × ResourceValue)) :
    Except ResourceError ResourceAmounts :=
  if inner.capacity.isEmpty then .ok []
  else (normalizeResources (inner.constrained raw)).map resourceAmounts

/-- Rendering of a request above the capacity; memory shows its declaration. -/
def request (raw : List (String × ResourceValue)) (key : CanonicalResource) (required : ℕ) :
    Except Fault String :=
  if key = .memory then
    match raw.find? fun e => (canonicalizeResourceKey e.1).toOption = some key with
    | some (name, value) =>
      .ok (name ++ " = " ++ value.display ++ " (" ++ toString required ++ " bytes)")
    | none => .error .missingDeclaration
  else .ok (displayKey key ++ " = " ++ renderAmount key required)

/-- Check every amount of a demand against the capacity. -/
def checkDemand (job : String) (raw : List (String × ResourceValue)) :
    ResourceAmounts → Except Fault (Except ConfigError Unit)
  | [] => .ok (.ok ())
  | (key, required) :: rest =>
    match inner.capacity.lookup key with
    | none => .error (.missingCapacity key)
    | some capacity =>
      if capacity < required then
        (request raw key required).map fun request =>
          .error (.exceeds job request key (renderAmount key capacity))
      else checkDemand job raw rest

/-- Demand of a job, rejected when it exceeds the whole budget. -/
def validatedDemand (job : String) (raw : List (String × ResourceValue)) :
    Except Fault (Except ConfigError ResourceAmounts) :=
  match inner.normalizeDemand raw with
  | .error error => .ok (.error (.demand job error))
  | .ok demand => (inner.checkDemand job raw demand).map fun checked => checked.map fun _ => demand

/-- Every amount of a demand is within what is left of the capacity. -/
def fitsUnits : ResourceAmounts → Except Fault Bool
  | [] => .ok true
  | (key, required) :: rest =>
    match inner.capacity.lookup key with
    | none => .error (.missingCapacity key)
    | some capacity => do
      let left ← subU64 capacity ((inner.inUse.lookup key).getD 0)
      if required ≤ left then fitsUnits rest else .ok false

def setUse (key : CanonicalResource) (amount : ℕ) : ResourceBudgetInner :=
  { inner with inUse := SortedMap.insert key amount inner.inUse }

/-- Add one amount of a demand to the amounts in use. -/
def acquireUnit (key : CanonicalResource) (required : ℕ) : Except Fault ResourceBudgetInner :=
  match inner.capacity.lookup key with
  | none => .error (.missingCapacity key)
  | some capacity => do
    let used := (inner.inUse.lookup key).getD 0
    let left ← subU64 capacity used
    if required ≤ left then
      let sum ← addU64 used required
      .ok (inner.setUse key sum)
    else .error .admissionAssertion

/-- Add a demand to the amounts in use, one amount after another. -/
def acquireUnits (inner : ResourceBudgetInner) :
    ResourceAmounts → Except Fault ResourceBudgetInner
  | [] => .ok inner
  | (key, required) :: rest => do
    let inner' ← inner.acquireUnit key required
    acquireUnits inner' rest

def releaseUnit (key : CanonicalResource) (amount : ℕ) : Except Fault ResourceBudgetInner :=
  match inner.inUse.lookup key with
  | none => .error (.missingUse key)
  | some used => do
    let rest ← subU64 used amount
    .ok (inner.setUse key rest)

/-- Drop of a guard: return what it acquired, one amount after another. -/
def dropGuard (inner : ResourceBudgetInner) :
    ResourceAmounts → Except Fault ResourceBudgetInner
  | [] => .ok inner
  | (key, amount) :: rest => do
    let inner' ← inner.releaseUnit key amount
    dropGuard inner' rest

/-- The amounts per resource that the scheduler's admission check reasons with. -/
def admission : Admission.ResourceBudget where
  capacity := inner.capacity
  inUse key := (inner.inUse.lookup key).getD 0

end ResourceBudgetInner

/-- The demand of a job: a validated one, or none for a job that runs outside
the budget. -/
def JobDemand (inner : ResourceBudgetInner) (demand : ResourceAmounts) : Prop :=
  demand = [] ∨ ∃ job raw, inner.validatedDemand job raw = .ok (.ok demand)

/-- The shared budget, the guards held by tasks and the demand whose check has
succeeded and whose acquisition comes next. -/
structure State where
  inner : ResourceBudgetInner
  outstanding : List ResourceAmounts
  /-- Demand that the scheduler thread is about to acquire. -/
  admitted : Option ResourceAmounts

def State.start (inner : ResourceBudgetInner) : State := ⟨inner, [], none⟩

/-- One action of the scheduler thread or of a task, with its panics. -/
inductive Step : State → Except Fault State → Prop
  | check {s : State} {demand : ResourceAmounts} (hnone : s.admitted = none)
      (hdemand : JobDemand s.inner demand) :
      Step s ((s.inner.fitsUnits demand).map fun fits =>
        { s with admitted := if fits then some demand else none })
  | noPermit {s : State} : Step s (.ok { s with admitted := none })
  | acquire {s : State} {demand : ResourceAmounts} (hadmitted : s.admitted = some demand) :
      Step s ((s.inner.acquireUnits demand).map fun inner =>
        ⟨inner, s.outstanding ++ [demand], none⟩)
  | drop {s : State} {before after : List ResourceAmounts} {guarded : ResourceAmounts}
      (hguard : s.outstanding = before ++ guarded :: after) :
      Step s ((s.inner.dropGuard guarded).map fun inner =>
        ⟨inner, before ++ after, s.admitted⟩)

/-- Results of the runs from a state; a run ends at a panic. -/
inductive Reaches (start : State) : Except Fault State → Prop
  | refl : Reaches start (.ok start)
  | step {s : State} {result : Except Fault State} :
      Reaches start (.ok s) → Step s result → Reaches start result

section Amounts

theorem amountOf_cons (e : CanonicalResource × ℕ) (demand : ResourceAmounts)
    (key : CanonicalResource) :
    amountOf (e :: demand) key = (if e.1 = key then e.2 else 0) + amountOf demand key := by
  rw [amountOf, amountOf]
  by_cases h : e.1 = key
  · rw [filter_cons_of_pos (by simpa using h), map_cons, sum_cons, if_pos h]
  · rw [filter_cons_of_neg (by simpa using h), if_neg h, Nat.zero_add]

theorem amountOf_eq_zero {demand : ResourceAmounts} {key : CanonicalResource}
    (h : key ∉ demand.map Prod.fst) : amountOf demand key = 0 := by
  induction demand with
  | nil => rfl
  | cons e demand ih =>
    rw [map_cons, mem_cons, not_or] at h
    rw [amountOf_cons, if_neg (Ne.symm h.1), ih h.2]

theorem le_amountOf {demand : ResourceAmounts} {e : CanonicalResource × ℕ} (h : e ∈ demand) :
    e.2 ≤ amountOf demand e.1 := by
  induction demand with
  | nil => cases h
  | cons e' demand ih =>
    rw [amountOf_cons]
    rcases mem_cons.mp h with rfl | h
    · rw [if_pos rfl]
      exact Nat.le_add_right _ _
    · exact (ih h).trans (Nat.le_add_left _ _)

theorem amountOf_le {demand : ResourceAmounts} (bound : CanonicalResource → ℕ)
    (hdistinct : (demand.map Prod.fst).Nodup) (h : ∀ e ∈ demand, e.2 ≤ bound e.1)
    (key : CanonicalResource) : amountOf demand key ≤ bound key := by
  induction demand with
  | nil => exact Nat.zero_le _
  | cons e demand ih =>
    obtain ⟨hnew, hrest⟩ := nodup_cons.mp hdistinct
    rw [amountOf_cons]
    by_cases hkey : e.1 = key
    · subst hkey
      rw [if_pos rfl, amountOf_eq_zero hnew, Nat.add_zero]
      exact h e mem_cons_self
    · rw [if_neg hkey, Nat.zero_add]
      exact ih hrest fun e he => h e (.tail _ he)

theorem amountOf_eq_lookup {demand : ResourceAmounts}
    (hdistinct : (demand.map Prod.fst).Nodup) (key : CanonicalResource) :
    amountOf demand key = (demand.lookup key).getD 0 := by
  induction demand with
  | nil => rfl
  | cons e demand ih =>
    obtain ⟨hnew, hrest⟩ := nodup_cons.mp hdistinct
    rw [amountOf_cons, lookup_cons]
    by_cases hkey : e.1 = key
    · subst hkey
      rw [if_pos rfl, amountOf_eq_zero hnew, beq_self_eq_true, Nat.add_zero]
      rfl
    · rw [if_neg hkey, Nat.zero_add, beq_eq_false_iff_ne.mpr (Ne.symm hkey)]
      exact ih hrest

end Amounts

/-- What the accounting needs of a demand. -/
structure Sound (capacity demand : ResourceAmounts) : Prop where
  distinct : (demand.map Prod.fst).Nodup
  /-- Each amount is within a capacity. -/
  admits : ∀ e ∈ demand, ∃ c, capacity.lookup e.1 = some c ∧ e.2 ≤ c

namespace ResourceBudgetInner

variable {inner : ResourceBudgetInner}

theorem capacity_lt_of_tryNew {capacity : List (String × UInt64)}
    (h : tryNew capacity = .ok inner) : ∀ e ∈ inner.capacity, e.2 < 2 ^ 64 := by
  rw [tryNew] at h
  split at h
  · cases h
  · rename_i n hn
    cases h
    intro e he
    exact (mem_of_normalizeResources hn e he).2

theorem inUse_of_tryNew {capacity : List (String × UInt64)} (h : tryNew capacity = .ok inner) :
    inner.inUse = [] := by
  rw [tryNew] at h
  split at h
  · cases h
  · cases h
    rfl

theorem normalizeDemand_spec {raw : List (String × ResourceValue)} {demand : ResourceAmounts}
    (h : inner.normalizeDemand raw = .ok demand) :
    (demand.map Prod.fst).Nodup ∧ ∀ e ∈ demand, (inner.capacity.lookup e.1).isSome = true ∧
      ∃ r ∈ raw, canonicalizeResourceKey r.1 = .ok e.1 := by
  rw [normalizeDemand] at h
  split_ifs at h with hempty
  · cases h
    exact ⟨nodup_nil, fun e he => nomatch he⟩
  · cases hn : normalizeResources (inner.constrained raw) with
    | error =>
      rw [hn] at h
      cases h
    | ok n =>
      rw [hn] at h
      cases h
      refine ⟨nodup_resourceAmounts n, ?_⟩
      intro e he
      obtain ⟨⟨r, hr, hkey⟩, -⟩ := mem_of_normalizeResources hn e he
      obtain ⟨hraw, hbudgeted⟩ := mem_filter.mp hr
      rw [hkey] at hbudgeted
      exact ⟨hbudgeted, r, hraw, hkey⟩

theorem request_ok {raw : List (String × ResourceValue)} {key : CanonicalResource}
    {required : ℕ} (h : ∃ r ∈ raw, canonicalizeResourceKey r.1 = .ok key) :
    ∃ text, request raw key required = .ok text := by
  obtain ⟨r, hr, hkey⟩ := h
  rw [request]
  split_ifs with hmemory
  · have hfind : (raw.find? fun e =>
        (canonicalizeResourceKey e.1).toOption = some key).isSome = true := by
      rw [find?_isSome]
      refine ⟨r, hr, ?_⟩
      rw [hkey]
      exact decide_eq_true rfl
    obtain ⟨⟨_, _⟩, hsome⟩ := Option.isSome_iff_exists.mp hfind
    rw [hsome]
    exact ⟨_, rfl⟩
  · exact ⟨_, rfl⟩

theorem checkDemand_spec {job : String} {raw : List (String × ResourceValue)}
    {demand : ResourceAmounts}
    (h : ∀ e ∈ demand, (inner.capacity.lookup e.1).isSome = true ∧
      ∃ r ∈ raw, canonicalizeResourceKey r.1 = .ok e.1) :
    ∃ checked, inner.checkDemand job raw demand = .ok checked ∧
      (checked = .ok () → ∀ e ∈ demand, ∃ c, inner.capacity.lookup e.1 = some c ∧ e.2 ≤ c) := by
  induction demand with
  | nil => exact ⟨.ok (), rfl, fun _ e he => nomatch he⟩
  | cons e demand ih =>
    obtain ⟨_, _⟩ := e
    obtain ⟨hbudgeted, hdeclared⟩ := h _ mem_cons_self
    obtain ⟨capacity, hcapacity⟩ := Option.isSome_iff_exists.mp hbudgeted
    rw [checkDemand, hcapacity]
    dsimp only at hcapacity hdeclared ⊢
    split_ifs with hexceeds
    · obtain ⟨_, htext⟩ := request_ok hdeclared
      rw [htext]
      refine ⟨_, rfl, ?_⟩
      intro hok
      cases hok
    · obtain ⟨checked, hchecked, hle⟩ := ih fun e he => h e (.tail _ he)
      refine ⟨checked, hchecked, ?_⟩
      intro hok e he
      rcases mem_cons.mp he with rfl | he
      · exact ⟨capacity, hcapacity, not_lt.mp hexceeds⟩
      · exact hle hok e he

theorem validatedDemand_spec (inner : ResourceBudgetInner) (job : String)
    (raw : List (String × ResourceValue)) :
    ∃ result, inner.validatedDemand job raw = .ok result ∧
      ∀ demand, result = .ok demand → Sound inner.capacity demand := by
  rw [validatedDemand]
  cases hdemand : inner.normalizeDemand raw with
  | error =>
    refine ⟨_, rfl, ?_⟩
    intro demand hok
    cases hok
  | ok =>
    obtain ⟨hdistinct, hbudgeted⟩ := normalizeDemand_spec hdemand
    obtain ⟨checked, hchecked, hle⟩ := checkDemand_spec hbudgeted
    dsimp only
    rw [hchecked]
    refine ⟨_, rfl, ?_⟩
    intro demand' hok
    cases checked with
    | error => cases hok
    | ok =>
      cases hok
      exact ⟨hdistinct, hle rfl⟩

end ResourceBudgetInner

theorem JobDemand.sound {inner : ResourceBudgetInner} {demand : ResourceAmounts}
    (h : JobDemand inner demand) : Sound inner.capacity demand := by
  rcases h with rfl | ⟨job, raw, hvalid⟩
  · exact ⟨nodup_nil, fun e he => nomatch he⟩
  · obtain ⟨_, hresult, hsound⟩ := inner.validatedDemand_spec job raw
    rw [hvalid] at hresult
    cases hresult
    exact hsound demand rfl

def Bounded (inner : ResourceBudgetInner) : Prop :=
  ∀ key, inner.admission.inUse key ≤ inner.admission.capacityOf key

theorem capacityOf_eq {inner : ResourceBudgetInner} {key : CanonicalResource} {c : ℕ}
    (h : inner.capacity.lookup key = some c) : inner.admission.capacityOf key = c := by
  rw [ResourceBudget.capacityOf]
  change (inner.capacity.lookup key).getD 0 = c
  rw [h, Option.getD_some]

namespace ResourceBudgetInner

variable {inner : ResourceBudgetInner}

theorem fitsUnits_eq {demand : ResourceAmounts} (hbounded : Bounded inner)
    (hbudgeted : ∀ e ∈ demand, ∃ c, inner.capacity.lookup e.1 = some c ∧ e.2 ≤ c) :
    inner.fitsUnits demand = .ok (inner.admission.fitsUnits demand) := by
  induction demand with
  | nil => rfl
  | cons e demand ih =>
    obtain ⟨key, required⟩ := e
    obtain ⟨capacity, hcapacity, -⟩ := hbudgeted _ mem_cons_self
    have hrest := ih fun e he => hbudgeted e (.tail _ he)
    have hused := hbounded key
    rw [capacityOf_eq hcapacity] at hused
    have hleft : subU64 capacity ((inner.inUse.lookup key).getD 0) =
        .ok (capacity - inner.admission.inUse key) := if_pos hused
    rw [fitsUnits, hcapacity]
    dsimp only
    rw [hleft]
    change (if required ≤ capacity - inner.admission.inUse key then inner.fitsUnits demand
      else .ok false) = _
    rw [hrest, ResourceBudget.fitsUnits, ResourceBudget.fitsUnits, all_cons,
      capacityOf_eq hcapacity]
    by_cases hfits : required ≤ capacity - inner.admission.inUse key
    · rw [if_pos hfits, decide_eq_true hfits, Bool.true_and]
    · rw [if_neg hfits, decide_eq_false hfits, Bool.false_and]

theorem acquireUnit_eq {key : CanonicalResource} {required c : ℕ} (hbounded : Bounded inner)
    (hcapacity : inner.capacity.lookup key = some c) (hlt : c < 2 ^ 64)
    (hfits : required ≤ c - inner.admission.inUse key) :
    inner.acquireUnit key required =
      .ok (inner.setUse key (inner.admission.inUse key + required)) := by
  have hused := hbounded key
  rw [capacityOf_eq hcapacity] at hused
  have hleft : subU64 c ((inner.inUse.lookup key).getD 0) =
      .ok (c - inner.admission.inUse key) := if_pos hused
  have hsum : addU64 ((inner.inUse.lookup key).getD 0) required =
      .ok (inner.admission.inUse key + required) := by
    refine if_pos ?_
    change inner.admission.inUse key + required < 2 ^ 64
    omega
  rw [acquireUnit, hcapacity]
  dsimp only
  rw [hleft, hsum]
  exact if_pos hfits

/-- The amounts in use after setting one of them. -/
@[simp]
theorem setUse_inUse (inner : ResourceBudgetInner) (key key' : CanonicalResource)
    (amount : ℕ) : (inner.setUse key amount).admission.inUse key' =
      if key' = key then amount else inner.admission.inUse key' := by
  change ((SortedMap.insert key amount inner.inUse).lookup key').getD 0 = _
  rw [SortedMap.lookup_insert]
  split_ifs
  · rfl
  · rfl

/-- Setting an amount in use keeps the capacities. -/
@[simp]
theorem setUse_capacityOf (inner : ResourceBudgetInner) (key key' : CanonicalResource)
    (amount : ℕ) :
    (inner.setUse key amount).admission.capacityOf key' = inner.admission.capacityOf key' :=
  rfl

theorem setUse_isSome {key key' : CanonicalResource} {amount : ℕ}
    (h : key' = key ∨ (inner.inUse.lookup key').isSome = true) :
    ((inner.setUse key amount).inUse.lookup key').isSome = true := by
  change ((SortedMap.insert key amount inner.inUse).lookup key').isSome = true
  rw [SortedMap.lookup_insert]
  split_ifs with hkey
  · rfl
  · exact h.resolve_left hkey

theorem fitsUnits_setUse {key : CanonicalResource} {amount : ℕ} {demand : ResourceAmounts}
    (hnew : key ∉ demand.map Prod.fst) (hfits : inner.admission.fitsUnits demand = true) :
    (inner.setUse key amount).admission.fitsUnits demand = true := by
  rw [ResourceBudget.fitsUnits, all_eq_true] at hfits ⊢
  intro e he
  have hne : e.1 ≠ key := by
    rintro rfl
    exact hnew (mem_map_of_mem he)
  rw [setUse_inUse, setUse_capacityOf, if_neg hne]
  exact hfits e he

theorem acquireUnits_spec {demand : ResourceAmounts} (hbounded : Bounded inner)
    (hlt : ∀ key, inner.admission.capacityOf key < 2 ^ 64)
    (hsound : Sound inner.capacity demand) (hfits : inner.admission.fitsUnits demand = true) :
    ∃ inner', inner.acquireUnits demand = .ok inner' ∧
      inner'.admission = inner.admission.acquireUnits demand ∧
      ∀ key, key ∈ demand.map Prod.fst ∨ (inner.inUse.lookup key).isSome = true →
        (inner'.inUse.lookup key).isSome = true := by
  induction demand generalizing inner with
  | nil =>
    refine ⟨inner, rfl, rfl, ?_⟩
    intro key hkey
    exact hkey.resolve_left not_mem_nil
  | cons e demand ih =>
    obtain ⟨key, required⟩ := e
    obtain ⟨c, hcapacity, -⟩ := hsound.admits _ mem_cons_self
    obtain ⟨hnew, hdistinct⟩ := nodup_cons.mp hsound.distinct
    dsimp only at hcapacity hnew
    have hcapacityOf := capacityOf_eq hcapacity
    rw [ResourceBudget.fitsUnits, all_cons, Bool.and_eq_true, decide_eq_true_eq,
      hcapacityOf] at hfits
    obtain ⟨hhead, htail⟩ := hfits
    dsimp only at hhead
    have hused := hbounded key
    rw [hcapacityOf] at hused
    have hunit := acquireUnit_eq hbounded hcapacity (hcapacityOf ▸ hlt key) hhead
    have hnextBounded :
        Bounded (inner.setUse key (inner.admission.inUse key + required)) := by
      intro key'
      rw [setUse_inUse, setUse_capacityOf]
      split_ifs with hkey
      · rw [hkey, hcapacityOf]
        omega
      · exact hbounded key'
    obtain ⟨inner', hinner', hadmission, hkeys⟩ := ih hnextBounded hlt
      ⟨hdistinct, fun e he => hsound.admits e (.tail _ he)⟩
      (fitsUnits_setUse hnew htail)
    refine ⟨inner', ?_, ?_, ?_⟩
    · rw [acquireUnits, hunit]
      exact hinner'
    · rw [hadmission, ResourceBudget.acquireUnits, ResourceBudget.acquireUnits]
      refine congrArg (ResourceBudget.mk inner.capacity) ?_
      funext key'
      rw [setUse_inUse, amountOf_cons]
      by_cases hkey : key' = key
      · subst hkey
        rw [if_pos rfl, if_pos rfl, Nat.add_assoc]
      · rw [if_neg hkey, if_neg (Ne.symm hkey), Nat.zero_add]
    · intro key' hkey'
      refine hkeys key' ?_
      rw [map_cons, mem_cons, or_assoc] at hkey'
      rcases hkey' with hkey | hkey | hkey
      · exact .inr (setUse_isSome (.inl hkey))
      · exact .inl hkey
      · exact .inr (setUse_isSome (.inr hkey))

theorem releaseUnit_eq {key : CanonicalResource} {amount : ℕ}
    (hpresent : (inner.inUse.lookup key).isSome = true)
    (hle : amount ≤ inner.admission.inUse key) :
    inner.releaseUnit key amount =
      .ok (inner.setUse key (inner.admission.inUse key - amount)) := by
  obtain ⟨used, hused⟩ := Option.isSome_iff_exists.mp hpresent
  have hinUse : inner.admission.inUse key = used := by
    change (inner.inUse.lookup key).getD 0 = used
    rw [hused, Option.getD_some]
  rw [hinUse] at hle ⊢
  have hsub : subU64 used amount = .ok (used - amount) := if_pos hle
  rw [releaseUnit, hused]
  dsimp only
  rw [hsub]
  rfl

theorem dropGuard_spec {acquired : ResourceAmounts}
    (hdistinct : (acquired.map Prod.fst).Nodup)
    (hpresent : ∀ e ∈ acquired, (inner.inUse.lookup e.1).isSome = true)
    (hle : ∀ e ∈ acquired, e.2 ≤ inner.admission.inUse e.1) :
    ∃ inner', inner.dropGuard acquired = .ok inner' ∧
      inner'.admission = inner.admission.dropGuard acquired ∧
      ∀ key, (inner.inUse.lookup key).isSome = true →
        (inner'.inUse.lookup key).isSome = true := by
  induction acquired generalizing inner with
  | nil => exact ⟨inner, rfl, rfl, fun key hkey => hkey⟩
  | cons e acquired ih =>
    obtain ⟨key, amount⟩ := e
    obtain ⟨hnew, hdistinct⟩ := nodup_cons.mp hdistinct
    have hunit := releaseUnit_eq (hpresent _ mem_cons_self) (hle _ mem_cons_self)
    dsimp only at hunit hnew
    have hne : ∀ e ∈ acquired, e.1 ≠ key := by
      rintro e he rfl
      exact hnew (mem_map_of_mem he)
    have hnextLe : ∀ e ∈ acquired,
        e.2 ≤ (inner.setUse key (inner.admission.inUse key - amount)).admission.inUse e.1 := by
      intro e he
      rw [setUse_inUse, if_neg (hne e he)]
      exact hle e (.tail _ he)
    obtain ⟨inner', hinner', hadmission, hkeys⟩ := ih hdistinct
      (fun e he => setUse_isSome (.inr (hpresent e (.tail _ he)))) hnextLe
    refine ⟨inner', ?_, ?_, fun key' hkey' => hkeys key' (setUse_isSome (.inr hkey'))⟩
    · rw [dropGuard, hunit]
      exact hinner'
    · rw [hadmission, ResourceBudget.dropGuard, ResourceBudget.dropGuard]
      refine congrArg (ResourceBudget.mk inner.capacity) ?_
      funext key'
      rw [setUse_inUse, amountOf_cons]
      by_cases hkey : key' = key
      · subst hkey
        rw [if_pos rfl, if_pos rfl, Nat.sub_sub]
      · rw [if_neg hkey, if_neg (Ne.symm hkey), Nat.zero_add]

end ResourceBudgetInner

/-- What every state of a run keeps. -/
structure Accounted (capacity : ResourceAmounts) (s : State) : Prop where
  capacity_eq : s.inner.capacity = capacity
  /-- The amounts in use are those of the outstanding guards. -/
  balance : ∀ key, s.inner.admission.inUse key =
    (s.outstanding.map fun guarded => amountOf guarded key).sum
  bounded : Bounded s.inner
  /-- Every resource of an outstanding guard has an entry. -/
  present : ∀ guarded ∈ s.outstanding, ∀ e ∈ guarded,
    (s.inner.inUse.lookup e.1).isSome = true
  /-- The resources of an outstanding guard are distinct. -/
  distinct : ∀ guarded ∈ s.outstanding, (guarded.map Prod.fst).Nodup
  /-- A demand about to be acquired is sound and fits. -/
  admitted : ∀ demand, s.admitted = some demand →
    Sound capacity demand ∧ s.inner.admission.fitsUnits demand = true

theorem accounted_start {inner : ResourceBudgetInner} (h : inner.inUse = []) :
    Accounted inner.capacity (State.start inner) := by
  have hinUse : ∀ key, inner.admission.inUse key = 0 := by
    intro key
    change (inner.inUse.lookup key).getD 0 = 0
    rw [h]
    rfl
  constructor
  · rfl
  · exact hinUse
  · intro key
    rw [State.start, hinUse]
    exact Nat.zero_le _
  · intro guarded hguarded
    cases hguarded
  · intro guarded hguarded
    cases hguarded
  · intro demand hdemand
    cases hdemand

theorem fitsUnits_of_le {budget budget' : ResourceBudget} {demand : ResourceAmounts}
    (hcapacity : budget'.capacity = budget.capacity)
    (hle : ∀ key, budget'.inUse key ≤ budget.inUse key)
    (hfits : budget.fitsUnits demand = true) : budget'.fitsUnits demand = true := by
  rw [ResourceBudget.fitsUnits, all_eq_true] at hfits ⊢
  intro e he
  have hfit := of_decide_eq_true (hfits e he)
  refine decide_eq_true (hfit.trans ?_)
  rw [ResourceBudget.capacityOf, ResourceBudget.capacityOf, hcapacity]
  exact Nat.sub_le_sub_left (hle e.1) _

section Steps

variable {capacity : ResourceAmounts} {s : State}

theorem Accounted.check (h : Accounted capacity s) {demand : ResourceAmounts}
    (hdemand : JobDemand s.inner demand) :
    s.inner.fitsUnits demand = .ok (s.inner.admission.fitsUnits demand) ∧
      Accounted capacity { s with
        admitted := if s.inner.admission.fitsUnits demand then some demand else none } := by
  have hsound := hdemand.sound
  refine ⟨ResourceBudgetInner.fitsUnits_eq h.bounded hsound.admits,
    h.capacity_eq, h.balance, h.bounded, h.present, h.distinct, ?_⟩
  intro demand' hadmitted
  dsimp only at hadmitted
  split_ifs at hadmitted with hfits
  cases hadmitted
  rw [h.capacity_eq] at hsound
  exact ⟨hsound, hfits⟩

theorem Accounted.acquire (h : Accounted capacity s) (hlt : ∀ e ∈ capacity, e.2 < 2 ^ 64)
    {demand : ResourceAmounts} (hadmitted : s.admitted = some demand) :
    ∃ inner, s.inner.acquireUnits demand = .ok inner ∧
      Accounted capacity ⟨inner, s.outstanding ++ [demand], none⟩ := by
  obtain ⟨hsound, hfits⟩ := h.admitted demand hadmitted
  have hcapacityOf : ∀ key, s.inner.admission.capacityOf key < 2 ^ 64 := by
    intro key
    rw [ResourceBudget.capacityOf]
    change (s.inner.capacity.lookup key).getD 0 < 2 ^ 64
    rw [h.capacity_eq]
    cases hkey : capacity.lookup key with
    | none => exact Nat.two_pow_pos 64
    | some c =>
      obtain ⟨_, _, hsplit, -⟩ := lookup_eq_some_iff.mp hkey
      refine hlt (key, c) ?_
      rw [hsplit]
      exact mem_append_right _ mem_cons_self
  obtain ⟨inner, hinner, hadmission, hkeys⟩ := ResourceBudgetInner.acquireUnits_spec h.bounded
    hcapacityOf (h.capacity_eq ▸ hsound) hfits
  have hinUse : ∀ key, inner.admission.inUse key =
      s.inner.admission.inUse key + amountOf demand key := by
    intro key
    rw [hadmission]
    rfl
  have hcapacity : inner.capacity = s.inner.capacity :=
    congrArg ResourceBudget.capacity hadmission
  refine ⟨inner, hinner, hcapacity.trans h.capacity_eq, ?_, ?_, ?_, ?_, ?_⟩
  · intro key
    dsimp only
    rw [hinUse, h.balance, map_append, sum_append, map_singleton,
      sum_singleton]
  · intro key
    have hleft : amountOf demand key ≤
        s.inner.admission.capacityOf key - s.inner.admission.inUse key := by
      refine amountOf_le (fun key => s.inner.admission.capacityOf key -
        s.inner.admission.inUse key) hsound.distinct ?_ key
      intro e he
      rw [ResourceBudget.fitsUnits, all_eq_true] at hfits
      exact of_decide_eq_true (hfits e he)
    have hused := h.bounded key
    have hsame : inner.admission.capacityOf key = s.inner.admission.capacityOf key := by
      rw [hadmission]
      rfl
    dsimp only
    rw [hinUse, hsame]
    omega
  · intro guarded hguarded e he
    rcases mem_append.mp hguarded with hguarded | hguarded
    · exact hkeys e.1 (.inr (h.present guarded hguarded e he))
    · rw [mem_singleton.mp hguarded] at he
      exact hkeys e.1 (.inl (mem_map_of_mem he))
  · intro guarded hguarded
    rcases mem_append.mp hguarded with hguarded | hguarded
    · exact h.distinct guarded hguarded
    · rw [mem_singleton.mp hguarded]
      exact hsound.distinct
  · intro demand' hdemand'
    cases hdemand'

theorem Accounted.drop (h : Accounted capacity s) {before after : List ResourceAmounts}
    {guarded : ResourceAmounts} (hguard : s.outstanding = before ++ guarded :: after) :
    ∃ inner, s.inner.dropGuard guarded = .ok inner ∧
      Accounted capacity ⟨inner, before ++ after, s.admitted⟩ := by
  have hmem : guarded ∈ s.outstanding := by
    rw [hguard]
    exact mem_append_right _ mem_cons_self
  have hsub : ∀ g ∈ before ++ after, g ∈ s.outstanding := by
    intro g hg
    rw [hguard]
    rcases mem_append.mp hg with hg | hg
    · exact mem_append_left _ hg
    · exact mem_append_right _ (.tail _ hg)
  have hsum : ∀ key, s.inner.admission.inUse key =
      amountOf guarded key + ((before ++ after).map fun g => amountOf g key).sum := by
    intro key
    rw [h.balance, hguard, map_append, map_append, sum_append, sum_append,
      map_cons, sum_cons]
    omega
  have hle : ∀ e ∈ guarded, e.2 ≤ s.inner.admission.inUse e.1 := by
    intro e he
    have hamount := le_amountOf he
    rw [hsum]
    omega
  obtain ⟨inner, hinner, hadmission, hkeys⟩ := ResourceBudgetInner.dropGuard_spec
    (h.distinct guarded hmem) (h.present guarded hmem) hle
  have hinUse : ∀ key, inner.admission.inUse key =
      s.inner.admission.inUse key - amountOf guarded key := by
    intro key
    rw [hadmission]
    rfl
  have hcapacity : inner.capacity = s.inner.capacity :=
    congrArg ResourceBudget.capacity hadmission
  refine ⟨inner, hinner, hcapacity.trans h.capacity_eq, ?_, ?_, ?_, ?_, ?_⟩
  · intro key
    dsimp only
    rw [hinUse, hsum, Nat.add_sub_cancel_left]
  · intro key
    have hused := h.bounded key
    have hsame : inner.admission.capacityOf key = s.inner.admission.capacityOf key := by
      rw [hadmission]
      rfl
    dsimp only
    rw [hinUse, hsame]
    omega
  · intro g hg e he
    exact hkeys e.1 (h.present g (hsub g hg) e he)
  · intro g hg
    exact h.distinct g (hsub g hg)
  · intro demand hdemand
    obtain ⟨hsound, hfits⟩ := h.admitted demand hdemand
    refine ⟨hsound, fitsUnits_of_le ?_ ?_ hfits⟩
    · exact hcapacity
    · intro key
      rw [hinUse]
      exact Nat.sub_le _ _

theorem Accounted.step (h : Accounted capacity s) (hlt : ∀ e ∈ capacity, e.2 < 2 ^ 64)
    {result : Except Fault State} (hstep : Step s result) :
    ∃ s', result = .ok s' ∧ Accounted capacity s' := by
  cases hstep with
  | check hnone hdemand =>
    obtain ⟨hfits, hnext⟩ := h.check hdemand
    rw [hfits]
    exact ⟨_, rfl, hnext⟩
  | noPermit =>
    refine ⟨_, rfl, h.capacity_eq, h.balance, h.bounded, h.present, h.distinct, ?_⟩
    intro demand hdemand
    cases hdemand
  | acquire hadmitted =>
    obtain ⟨inner, hinner, hnext⟩ := h.acquire hlt hadmitted
    rw [hinner]
    exact ⟨_, rfl, hnext⟩
  | drop hguard =>
    obtain ⟨inner, hinner, hnext⟩ := h.drop hguard
    rw [hinner]
    exact ⟨_, rfl, hnext⟩

theorem Accounted.reaches (h : Accounted capacity s) (hlt : ∀ e ∈ capacity, e.2 < 2 ^ 64)
    {result : Except Fault State} (hreach : Reaches s result) :
    ∃ s', result = .ok s' ∧ Accounted capacity s' := by
  induction hreach with
  | refl => exact ⟨s, rfl, h⟩
  | step _ hstep ih =>
    obtain ⟨s', hs', hnext⟩ := ih
    cases hs'
    exact hnext.step hlt hstep

theorem Accounted.fits_of_idle (h : Accounted capacity s) (hidle : s.outstanding = [])
    {demand : ResourceAmounts} (hdemand : Sound capacity demand) :
    s.inner.fitsUnits demand = .ok true := by
  rw [← h.capacity_eq] at hdemand
  rw [ResourceBudgetInner.fitsUnits_eq h.bounded hdemand.admits]
  refine congrArg Except.ok (fitsUnits_of_idle ?_ ?_)
  · intro key
    rw [h.balance, hidle]
    rfl
  · intro e he
    obtain ⟨c, hc, hle⟩ := hdemand.admits e he
    rw [capacityOf_eq hc]
    exact hle

end Steps

/-- In every run from a new budget nothing panics, the amounts in use are those
of the outstanding guards and stay within the capacities, and with no guard
outstanding every demand of a job fits. -/
theorem budget_accounted {capacity : List (String × UInt64)} {inner : ResourceBudgetInner}
    (hnew : ResourceBudgetInner.tryNew capacity = .ok inner) {result : Except Fault State}
    (hreach : Reaches (State.start inner) result) :
    ∃ s, result = .ok s ∧ s.inner.capacity = inner.capacity ∧
      (∀ key, (s.inner.inUse.lookup key).getD 0 =
        (s.outstanding.map fun guarded => (guarded.lookup key).getD 0).sum) ∧
      (∀ key, (s.inner.inUse.lookup key).getD 0 ≤ (inner.capacity.lookup key).getD 0) ∧
      (s.outstanding = [] → ∀ demand, JobDemand inner demand →
        s.inner.fitsUnits demand = .ok true) := by
  have hstart := accounted_start (ResourceBudgetInner.inUse_of_tryNew hnew)
  have hlt := ResourceBudgetInner.capacity_lt_of_tryNew hnew
  obtain ⟨s, hs, h⟩ := hstart.reaches hlt hreach
  refine ⟨s, hs, h.capacity_eq, ?_, ?_, ?_⟩
  · intro key
    have hamounts : (s.outstanding.map fun guarded => amountOf guarded key) =
        s.outstanding.map fun guarded => (guarded.lookup key).getD 0 :=
      map_congr_left fun guarded hguarded =>
        amountOf_eq_lookup (h.distinct guarded hguarded) key
    rw [← hamounts]
    exact h.balance key
  · intro key
    have hle := h.bounded key
    rw [ResourceBudget.capacityOf] at hle
    change _ ≤ (s.inner.capacity.lookup key).getD 0 at hle
    rw [h.capacity_eq] at hle
    exact hle
  · intro hidle demand hdemand
    exact h.fits_of_idle hidle hdemand.sound

/-- Two CPUs and one token of a custom resource. -/
def twoCpus : ResourceBudgetInner := ⟨[(.cpu, 20000), (.custom "db", 10000)], []⟩

def busyRaw : List (String × ResourceValue) :=
  [("cpus", .str "15e-1"), ("custom:db", .int 1), ("gpu", .str "many")]

def busyDemand : ResourceAmounts := [(.cpu, 15000), (.custom "db", 10000)]

/-- The budget while a job with this demand runs. -/
def busy : State := ⟨⟨twoCpus.capacity, busyDemand⟩, [busyDemand], none⟩

/-- A run that admits a job declared under other spellings of the budget's keys. -/
theorem budget_accounted_busy :
    ResourceBudgetInner.tryNew [("cpu", 2), ("db", 1)] = .ok twoCpus ∧
      Reaches (State.start twoCpus) (.ok busy) ∧
      ∀ key, (busy.inner.inUse.lookup key).getD 0 ≤ (twoCpus.capacity.lookup key).getD 0 := by
  have hnew : ResourceBudgetInner.tryNew [("cpu", 2), ("db", 1)] = .ok twoCpus := by decide
  have hvalid : twoCpus.validatedDemand "job" busyRaw = .ok (.ok busyDemand) := by decide
  have hcheck : Step (State.start twoCpus) (.ok ⟨twoCpus, [], some busyDemand⟩) :=
    @Step.check (State.start twoCpus) busyDemand rfl (.inr ⟨"job", busyRaw, hvalid⟩)
  have hacquire : Step ⟨twoCpus, [], some busyDemand⟩ (.ok busy) :=
    @Step.acquire ⟨twoCpus, [], some busyDemand⟩ busyDemand rfl
  have hreach : Reaches (State.start twoCpus) (.ok busy) :=
    .step (.step .refl hcheck) hacquire
  obtain ⟨s, hs, -, -, hle, -⟩ := budget_accounted hnew hreach
  cases hs
  exact ⟨hnew, hreach, hle⟩

end OxyMake.BudgetAccounting
