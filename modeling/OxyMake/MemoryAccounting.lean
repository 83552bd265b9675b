import OxyMake.CacheKey
import OxyMake.KeyedTable
import OxyMake.PhysicalGraph
import OxyMake.RuleInstances

/-!
# Outputs held in memory

The frontier keeps the bytes of some outputs in a store, says for each output where it
is materialized, and counts the bytes it holds. The three are updated separately when
outputs are registered and when the largest evictable entries are removed to meet the
budget. Entries are stored in place of earlier ones, and only the first of them is
discounted when the entry is evicted.
-/

namespace OxyMake.MemoryAccounting

open Option
open KeyedTable PhysicalGraph RuleInstances
open CacheKey (Byte)

/-! ### Materializations -/

/-- A physical location of the data of an output. -/
inductive Materialization
  | inMemory (pinned : Bool)
  | onDisk (path : String) (verified : Bool)
  | objectStore (refId : String) (node : Option String)
  deriving DecidableEq, Repr

def Materialization.sameVariant : Materialization → Materialization → Bool
  | .inMemory _, .inMemory _ => true
  | .onDisk _ _, .onDisk _ _ => true
  | .objectStore _ _, .objectStore _ _ => true
  | _, _ => false

/-- Active materializations of an output and its consumers that have not yet fired. -/
structure MaterializationSet where
  materializations : List Materialization
  pendingConsumers : ℕ
  sizeBytes : ℕ
  deriving DecidableEq, Repr

namespace MaterializationSet

def new (pendingConsumers : ℕ) : MaterializationSet := ⟨[], pendingConsumers, 0⟩

/-- Add a materialization in place of one of the same variant. -/
def add (mat : Materialization) (set : MaterializationSet) : MaterializationSet :=
  { set with
    materializations := (set.materializations.filter fun m => !m.sameVariant mat) ++ [mat] }

/-- Remove a materialization, unless it is the last one and consumers are pending. -/
def tryRemove (mat : Materialization) (set : MaterializationSet) : MaterializationSet × Bool :=
  if set.materializations.length ≤ 1 ∧ 0 < set.pendingConsumers then (set, false)
  else
    let kept := set.materializations.filter fun m => !m.sameVariant mat
    ({ set with materializations := kept }, decide (kept.length < set.materializations.length))

def consumerFired (set : MaterializationSet) : MaterializationSet :=
  { set with pendingConsumers := set.pendingConsumers - 1 }

def isEvictable (set : MaterializationSet) : Bool := decide (set.pendingConsumers = 0)

def setSizeBytes (size : ℕ) (set : MaterializationSet) : MaterializationSet :=
  { set with sizeBytes := size }

def hasInMemory (set : MaterializationSet) : Bool :=
  set.materializations.any fun m => m matches .inMemory _

/-- The data is on disk or in an object store. -/
def hasDiskFallback (set : MaterializationSet) : Bool :=
  set.materializations.any fun m => m matches .onDisk _ _ | .objectStore _ _

/-- Remove the data in memory, unless it is pinned. -/
def evictInMemory (set : MaterializationSet) : MaterializationSet × Bool :=
  if set.materializations.any (fun m => m matches .inMemory true) then (set, false)
  else set.tryRemove (.inMemory false)

end MaterializationSet

/-! ### The frontier -/

/-- A background write of an output. -/
structure DiskWriteRequest where
  jobId : JobId
  targetPath : String
  data : List Byte
  deriving DecidableEq, Repr

/-- The fields of the frontier that concern memory. -/
structure Memory where
  /-- Materializations by output key, in the order the map enumerates them. -/
  outputMats : Table String MaterializationSet
  memoryUsedBytes : ℕ
  peakMemoryBytes : ℕ
  memoryBudgetBytes : ℕ
  evictionCount : ℕ
  evictionBytes : ℕ
  diskWriter : Bool
  memoryStore : Table String (List Byte)
  deriving DecidableEq

namespace Memory

def modify (key : String) (f : MaterializationSet → MaterializationSet) (m : Memory) : Memory :=
  { m with outputMats := m.outputMats.update (fun k _ => k = key) f }

def addMemoryBytes (bytes : ℕ) (m : Memory) : Memory :=
  { m with
    memoryUsedBytes := m.memoryUsedBytes + bytes
    peakMemoryBytes := max m.peakMemoryBytes (m.memoryUsedBytes + bytes) }

def keep (key : String) (data : List Byte) (m : Memory) : Memory :=
  let sized := m.modify key (.setSizeBytes data.length)
  let stored := { sized with memoryStore := sized.memoryStore.put key data }
  (stored.modify key (.add (.inMemory false))).addMemoryBytes data.length

end Memory

/-- An output as it is registered. -/
structure RegisteredOutput where
  reference : OutputRef
  materialize : MaterializePolicy
  deriving DecidableEq, Repr

/-- What a registration finds outside the frontier. -/
structure Surroundings where
  onCriticalPath : Bool
  /-- The data the executor left for the scheduler, by output key. -/
  memoryMap : Option (Table String (List Byte))
  readFile : String → Option (List Byte)

structure Registration where
  memory : Memory
  memoryMap : Option (Table String (List Byte))
  diskWrites : List DiskWriteRequest

/-- Take the data of an output from the map. -/
def drain (key : String) (memoryMap : Option (Table String (List Byte))) :
    Option (List Byte) × Option (Table String (List Byte)) :=
  (memoryMap.bind fun map => map.get key, memoryMap.map fun map => map.delete fun k => k = key)

def promoteToMemory (onCriticalPath : Bool) (budget : ℕ) (policy : MaterializePolicy) : Bool :=
  (onCriticalPath && decide (0 < budget) && decide (policy ≠ .always)) || decide (policy = .never)

/-- Register one output of a job. Release builds read the file also when a map is configured. -/
def registerOutput (jobId : JobId) (around : Surroundings) (acc : Registration)
    (output : RegisteredOutput) : Registration :=
  let key := outputRefKey output.reference
  if (acc.memory.outputMats.get key).isNone then acc
  else
    match output.reference with
    | .file path =>
      let placed := if output.materialize = .never then acc.memory
        else acc.memory.modify key (.add (.onDisk path false))
      if promoteToMemory around.onCriticalPath placed.memoryBudgetBytes output.materialize then
        match drain key acc.memoryMap with
        | (some data, map) =>
          { memory := placed.keep key data
            memoryMap := map
            diskWrites := if placed.diskWriter && decide (output.materialize ≠ .never) then
                acc.diskWrites ++ [⟨jobId, path, data⟩]
              else acc.diskWrites }
        | (none, map) =>
          { acc with
            memory := match around.readFile path with
              | some data => placed.keep key data
              | none => placed
            memoryMap := map }
      else { acc with memory := placed }
    | _ =>
      match drain key acc.memoryMap with
      | (some data, map) => { acc with memory := acc.memory.keep key data, memoryMap := map }
      | (none, map) => { acc with memoryMap := map }

/-- Register the outputs of a completed job, then drop what is left of its data. -/
def registerMaterializations (jobId : JobId) (outputs : List RegisteredOutput)
    (around : Surroundings) (m : Memory) : Registration :=
  let acc := outputs.foldl (registerOutput jobId around) ⟨m, around.memoryMap, []⟩
  { acc with
    memoryMap := outputs.foldl
      (fun map output => (drain (outputRefKey output.reference) map).2) acc.memoryMap }

/-- Count down the consumers of the inputs of a completed job. -/
def decrementInputConsumers (inputs : List OutputRef) (m : Memory) : Memory :=
  inputs.foldl (fun m input => m.modify (outputRefKey input) .consumerFired) m

def evictable (set : MaterializationSet) : Bool :=
  set.isEvictable && set.hasInMemory && set.hasDiskFallback

/-- The later one of two entries, unless the earlier one is larger. -/
def laterMax (best : Option (String × MaterializationSet)) (row : String × MaterializationSet) :
    Option (String × MaterializationSet) :=
  match best with
  | none => some row
  | some b => if b.2.sizeBytes ≤ row.2.sizeBytes then some row else some b

def maxBySize (rows : List (String × MaterializationSet)) : Option (String × MaterializationSet) :=
  rows.foldl laterMax none

def evictLargest (m : Memory) : Option Memory :=
  match maxBySize (m.outputMats.rows.filter fun row => evictable row.2) with
  | none => none
  | some (key, set) =>
    if set.evictInMemory.2 then
      some { m with
        outputMats := m.outputMats.update (fun k _ => k = key) fun s => s.evictInMemory.1
        memoryUsedBytes := m.memoryUsedBytes - set.sizeBytes
        memoryStore := m.memoryStore.delete fun k => k = key
        evictionCount := m.evictionCount + 1
        evictionBytes := m.evictionBytes + set.sizeBytes }
    else none

/-! ### Sets under their operations -/

namespace MaterializationSet

variable {set : MaterializationSet}

theorem hasInMemory_iff :
    set.hasInMemory = true ↔ ∃ pinned, .inMemory pinned ∈ set.materializations := by
  unfold hasInMemory
  rw [List.any_eq_true]
  constructor
  · rintro ⟨m, hmem, hm⟩
    cases m with
    | inMemory pinned => exact ⟨pinned, hmem⟩
    | onDisk | objectStore => cases hm
  · rintro ⟨pinned, hmem⟩
    exact ⟨.inMemory pinned, hmem, rfl⟩

theorem evictInMemory_spec (h : set.evictInMemory.2 = true) :
    set.hasInMemory = true ∧ set.evictInMemory.1 =
      { set with
        materializations :=
          set.materializations.filter fun m => !m.sameVariant (.inMemory false) } := by
  unfold evictInMemory at h ⊢
  split at h
  · cases h
  · next hpinned =>
    rw [if_neg hpinned]
    unfold tryRemove at h ⊢
    split at h
    · cases h
    · next hguard =>
      rw [if_neg hguard]
      refine ⟨?_, rfl⟩
      by_contra hnone
      rw [hasInMemory_iff, not_exists] at hnone
      have hall : ∀ m ∈ set.materializations, (!m.sameVariant (.inMemory false)) = true := by
        intro m hm
        cases m with
        | inMemory pinned => exact absurd hm (hnone pinned)
        | onDisk | objectStore => rfl
      have hlength := of_decide_eq_true h
      rw [List.filter_eq_self.mpr hall] at hlength
      omega

theorem hasInMemory_filter (mats : List Materialization) (pending size : ℕ) :
    hasInMemory ⟨mats.filter fun m => !m.sameVariant (.inMemory false), pending, size⟩ = false := by
  rw [Bool.eq_false_iff, Ne, hasInMemory_iff]
  rintro ⟨_, hmem⟩
  have hkept := (List.mem_filter.mp hmem).2
  cases hkept

theorem hasDiskFallback_filter (set : MaterializationSet) :
    hasDiskFallback { set with
      materializations := set.materializations.filter fun m => !m.sameVariant (.inMemory false) } =
        set.hasDiskFallback := by
  unfold hasDiskFallback
  rw [Bool.eq_iff_iff, List.any_eq_true, List.any_eq_true]
  constructor
  · rintro ⟨m, hmem, hm⟩
    exact ⟨m, List.mem_of_mem_filter hmem, hm⟩
  · rintro ⟨m, hmem, hm⟩
    refine ⟨m, List.mem_filter.mpr ⟨hmem, ?_⟩, hm⟩
    cases m with
    | inMemory => cases hm
    | onDisk | objectStore => rfl

theorem evictInMemory_of_evictable (h : evictable set = true)
    (hpinned : .inMemory true ∉ set.materializations) : set.evictInMemory.2 = true := by
  unfold evictable at h
  rw [Bool.and_eq_true, Bool.and_eq_true] at h
  obtain ⟨⟨hpending, hheld⟩, -⟩ := h
  have hzero : set.pendingConsumers = 0 := of_decide_eq_true hpending
  have hfree : ¬ set.materializations.any (fun m => m matches .inMemory true) = true := by
    rw [List.any_eq_true]
    rintro ⟨m, hmem, hm⟩
    cases m with
    | inMemory pinned =>
      cases pinned with
      | true => exact hpinned hmem
      | false => cases hm
    | onDisk | objectStore => cases hm
  unfold evictInMemory tryRemove
  rw [if_neg hfree, if_neg (by omega)]
  obtain ⟨pinned, hmem⟩ := hasInMemory_iff.mp hheld
  exact decide_eq_true (List.length_filter_lt_length_iff_exists.mpr
    ⟨_, hmem, by simp [Materialization.sameVariant]⟩)

end MaterializationSet

/-! ### Choosing what to evict -/

theorem laterMax_cases (best : Option (String × MaterializationSet))
    (row : String × MaterializationSet) :
    laterMax best row = some row ∨ laterMax best row = best ∧ best ≠ none := by
  cases best with
  | none => exact .inl rfl
  | some =>
    unfold laterMax
    dsimp only
    split
    · exact .inl rfl
    · exact .inr ⟨rfl, nofun⟩

theorem foldl_laterMax (rows : List (String × MaterializationSet))
    (best : Option (String × MaterializationSet)) :
    (∀ row, rows.foldl laterMax best = some row → row ∈ rows ∨ best = some row) ∧
      (rows.foldl laterMax best = none → rows = [] ∧ best = none) := by
  induction rows generalizing best with
  | nil => exact ⟨fun row h => .inr h, fun h => ⟨rfl, h⟩⟩
  | cons first rows ih =>
    obtain ⟨hchosen, hnone⟩ := ih (laterMax best first)
    rw [List.foldl_cons]
    constructor
    · intro row h
      rcases hchosen row h with hmem | hlater
      · exact .inl (.tail _ hmem)
      · rcases laterMax_cases best first with heq | ⟨heq, -⟩
        · rw [heq] at hlater
          cases hlater
          exact .inl List.mem_cons_self
        · exact .inr (heq ▸ hlater)
    · intro h
      have hlater := (hnone h).2
      rcases laterMax_cases best first with heq | ⟨heq, hsome⟩
      · rw [heq] at hlater
        cases hlater
      · exact absurd (heq ▸ hlater) hsome

theorem mem_of_maxBySize {rows : List (String × MaterializationSet)}
    {row : String × MaterializationSet} (h : maxBySize rows = some row) : row ∈ rows :=
  ((foldl_laterMax rows none).1 row h).resolve_right nofun

theorem evictLargest_cases {m m' : Memory} (h : evictLargest m = some m') :
    ∃ key set, m.outputMats.get key = some set ∧ evictable set = true ∧
      set.evictInMemory.2 = true ∧ m' = { m with
        outputMats := m.outputMats.update (fun k _ => k = key) fun s => s.evictInMemory.1
        memoryUsedBytes := m.memoryUsedBytes - set.sizeBytes
        memoryStore := m.memoryStore.delete fun k => k = key
        evictionCount := m.evictionCount + 1
        evictionBytes := m.evictionBytes + set.sizeBytes } := by
  unfold evictLargest at h
  split at h
  · cases h
  · next key set hmax =>
    split at h
    · next hevict =>
      have hrow := List.mem_filter.mp (mem_of_maxBySize hmax)
      cases h
      exact ⟨key, set, (m.outputMats.mem_rows_iff key set).mp hrow.1, hrow.2, hevict, rfl⟩
    · cases h

def heldCount (m : Memory) : ℕ := m.outputMats.weigh fun set => if set.hasInMemory then 1 else 0

theorem heldCount_evictLargest {m m' : Memory} (h : evictLargest m = some m') :
    heldCount m' < heldCount m := by
  obtain ⟨key, set, hget, -, hevict, rfl⟩ := evictLargest_cases h
  obtain ⟨hheld, hleft⟩ := MaterializationSet.evictInMemory_spec hevict
  have hweigh := m.outputMats.weigh_update (fun set => if set.hasInMemory then 1 else 0)
    (fun s => s.evictInMemory.1) key
  rw [hget, elim_some, elim_some, if_pos hheld, hleft,
    MaterializationSet.hasInMemory_filter] at hweigh
  unfold heldCount
  dsimp only
  simp only [Bool.false_eq_true, if_false] at hweigh
  omega

/-- Evict until the budget is met or nothing can be evicted; count the evictions. -/
def evictAll (m : Memory) (evicted : ℕ) : Memory × ℕ :=
  if m.memoryBudgetBytes < m.memoryUsedBytes then
    match h : evictLargest m with
    | none => (m, evicted)
    | some m' => evictAll m' (evicted + 1)
  else (m, evicted)
termination_by heldCount m
decreasing_by exact heldCount_evictLargest h

def enforceMemoryBudget (m : Memory) : Memory × ℕ :=
  if m.memoryBudgetBytes = 0 then (m, 0) else evictAll m 0

/-! ### The invariant -/

def held (m : Memory) : ℕ := m.memoryStore.weigh List.length

/-- The store holds the outputs in memory with their sizes, and none is pinned. -/
structure Kept (m : Memory) : Prop where
  /-- An entry is stored exactly when its output is in memory. -/
  stored : ∀ key, (m.memoryStore.get key).isSome = true ↔
    ∃ set, m.outputMats.get key = some set ∧ set.hasInMemory = true
  /-- The recorded size is that of the data. -/
  sizes : ∀ key set data, m.outputMats.get key = some set → m.memoryStore.get key = some data →
    set.sizeBytes = data.length
  unpinned : ∀ key set, m.outputMats.get key = some set → .inMemory true ∉ set.materializations

@[simp]
theorem modify_outputMats (key : String) (f : MaterializationSet → MaterializationSet)
    (m : Memory) (k : String) : (m.modify key f).outputMats.get k =
      (m.outputMats.get k).map fun set => if k = key then f set else set := by
  unfold Memory.modify
  dsimp only
  rw [Table.get_update]
  simp only [decide_eq_true_eq]

theorem Kept.modify {m : Memory} (h : Kept m) {key : String}
    {f : MaterializationSet → MaterializationSet}
    (hheld : ∀ set, (f set).hasInMemory = set.hasInMemory)
    (hsize : ∀ set, (f set).sizeBytes = set.sizeBytes)
    (hpinned : ∀ set, .inMemory true ∈ (f set).materializations →
      .inMemory true ∈ set.materializations) : Kept (m.modify key f) := by
  have hsets : ∀ k set', (m.modify key f).outputMats.get k = some set' →
      ∃ set, m.outputMats.get k = some set ∧ (set' = f set ∨ set' = set) := by
    intro k set' hset'
    rw [modify_outputMats, map_eq_some_iff] at hset'
    obtain ⟨set, hset, heq⟩ := hset'
    split at heq
    · exact ⟨set, hset, .inl heq.symm⟩
    · exact ⟨set, hset, .inr heq.symm⟩
  refine ⟨fun k => ?_, fun k set' data hset' hdata => ?_, fun k set' hset' => ?_⟩
  · rw [show (m.modify key f).memoryStore = m.memoryStore from rfl, h.stored]
    constructor
    · rintro ⟨set, hset, hin⟩
      refine ⟨if k = key then f set else set, ?_, ?_⟩
      · rw [modify_outputMats, hset, map_some]
      · split
        · rw [hheld]
          exact hin
        · exact hin
    · rintro ⟨set', hset', hin⟩
      obtain ⟨set, hset, rfl | rfl⟩ := hsets k set' hset'
      · exact ⟨set, hset, hheld set ▸ hin⟩
      · exact ⟨set', hset, hin⟩
  · obtain ⟨set, hset, rfl | rfl⟩ := hsets k set' hset'
    · rw [hsize]
      exact h.sizes k set data hset hdata
    · exact h.sizes k set' data hset hdata
  · obtain ⟨set, hset, rfl | rfl⟩ := hsets k set' hset'
    · exact fun hmem => h.unpinned k set hset (hpinned set hmem)
    · exact h.unpinned k set' hset

theorem hasInMemory_add {mat : Materialization} (set : MaterializationSet)
    (hmat : mat.sameVariant (.inMemory false) = false) :
    (set.add mat).hasInMemory = set.hasInMemory := by
  rw [Bool.eq_iff_iff, MaterializationSet.hasInMemory_iff, MaterializationSet.hasInMemory_iff]
  refine exists_congr fun pinned => ?_
  unfold MaterializationSet.add
  dsimp only
  rw [List.mem_append, List.mem_filter, List.mem_singleton]
  cases mat with
  | inMemory => cases hmat
  | onDisk | objectStore => simp [Materialization.sameVariant]

theorem mem_add {mat m : Materialization} {set : MaterializationSet}
    (h : m ∈ (set.add mat).materializations) : m ∈ set.materializations ∨ m = mat := by
  unfold MaterializationSet.add at h
  dsimp only at h
  rw [List.mem_append, List.mem_singleton] at h
  exact h.imp_left List.mem_of_mem_filter

theorem Kept.onDisk {m : Memory} (h : Kept m) (key path : String) :
    Kept (m.modify key (.add (.onDisk path false))) := by
  refine h.modify (fun set => hasInMemory_add set rfl) (fun _ => rfl) fun set hmem => ?_
  exact (mem_add hmem).resolve_right nofun

theorem Kept.fired {m : Memory} (h : Kept m) (key : String) :
    Kept (m.modify key .consumerFired) :=
  h.modify (fun _ => rfl) (fun _ => rfl) fun _ hmem => hmem

theorem keep_outputMats (key : String) (data : List Byte) (m : Memory) (k : String) :
    (m.keep key data).outputMats.get k = (m.outputMats.get k).map fun set =>
      if k = key then (set.setSizeBytes data.length).add (.inMemory false) else set := by
  change ((m.modify key (.setSizeBytes data.length)).modify key
    (.add (.inMemory false))).outputMats.get k = _
  rw [modify_outputMats, modify_outputMats, Option.map_map]
  congr 1
  funext set
  simp only [Function.comp_apply]
  split
  · rfl
  · rfl

theorem keep_memoryStore (key : String) (data : List Byte) (m : Memory) (k : String) :
    (m.keep key data).memoryStore.get k = if k = key then some data else m.memoryStore.get k :=
  Table.get_put key data m.memoryStore k

theorem Kept.keep {m : Memory} (h : Kept m) {key : String} (data : List Byte)
    (hset : (m.outputMats.get key).isSome = true) : Kept (m.keep key data) := by
  have hpresent : ∀ set : MaterializationSet,
      ((set.setSizeBytes data.length).add (.inMemory false)).hasInMemory = true :=
    fun set => MaterializationSet.hasInMemory_iff.mpr
      ⟨false, List.mem_append_right _ (List.mem_singleton_self _)⟩
  refine ⟨fun k => ?_, fun k set' data' hset' hdata => ?_, fun k set' hset' => ?_⟩
  · rw [keep_memoryStore, keep_outputMats]
    by_cases hk : k = key
    · obtain ⟨set, hset⟩ := isSome_iff_exists.mp hset
      rw [hk, if_pos rfl, hset, map_some, if_pos rfl]
      exact iff_of_true rfl ⟨_, rfl, hpresent set⟩
    · rw [if_neg hk, h.stored]
      have hsame : (m.outputMats.get k).map (fun set => if k = key then
          (set.setSizeBytes data.length).add (.inMemory false) else set) = m.outputMats.get k := by
        simp only [if_neg hk, Option.map_id']
      rw [hsame]
  · rw [keep_memoryStore] at hdata
    rw [keep_outputMats, map_eq_some_iff] at hset'
    obtain ⟨set, hset, heq⟩ := hset'
    by_cases hk : k = key
    · rw [if_pos hk] at hdata heq
      cases hdata
      rw [← heq]
      rfl
    · rw [if_neg hk] at hdata heq
      rw [← heq]
      exact h.sizes k set data' hset hdata
  · rw [keep_outputMats, map_eq_some_iff] at hset'
    obtain ⟨set, hset, heq⟩ := hset'
    have hfree := h.unpinned k set hset
    split at heq
    · rw [← heq]
      intro hmem
      rcases mem_add hmem with hold | hnew
      · exact hfree hold
      · cases hnew
    · rw [← heq]
      exact hfree

theorem keep_counts (key : String) (data : List Byte) (m : Memory) :
    (m.keep key data).memoryUsedBytes = m.memoryUsedBytes + data.length ∧
      held (m.keep key data) + (m.memoryStore.get key).elim 0 List.length =
        held m + data.length :=
  ⟨rfl, m.memoryStore.weigh_put List.length key data⟩

/-! ### Evictions -/

/-- What evictions leave as it was. -/
structure Evicted (m m' : Memory) : Prop where
  /-- The sets keep their consumers and their fallback. -/
  sets : ∀ key set', m'.outputMats.get key = some set' → ∃ set, m.outputMats.get key = some set ∧
    set'.pendingConsumers = set.pendingConsumers ∧ set'.hasDiskFallback = set.hasDiskFallback
  /-- No entry is added or changed. -/
  entries : ∀ key data, m'.memoryStore.get key = some data → m.memoryStore.get key = some data
  /-- What is removed has no pending consumer and a fallback. -/
  removed : ∀ key, (m.memoryStore.get key).isSome = true → m'.memoryStore.get key = none →
    ∃ set, m.outputMats.get key = some set ∧ set.pendingConsumers = 0 ∧
      set.hasDiskFallback = true
  budget : m'.memoryBudgetBytes = m.memoryBudgetBytes

theorem Evicted.refl (m : Memory) : Evicted m m := by
  refine ⟨fun key set h => ⟨set, h, rfl, rfl⟩, fun _ _ h => h, fun key hsome hnone => ?_, rfl⟩
  rw [hnone] at hsome
  cases hsome

theorem Evicted.trans {m m' m'' : Memory} (h : Evicted m m') (h' : Evicted m' m'') :
    Evicted m m'' := by
  refine ⟨fun key set'' hset'' => ?_, fun key data hdata => h.entries key data
    (h'.entries key data hdata), fun key hsome hnone => ?_, h'.budget.trans h.budget⟩
  · obtain ⟨set', hset', hpending', hdisk'⟩ := h'.sets key set'' hset''
    obtain ⟨set, hset, hpending, hdisk⟩ := h.sets key set' hset'
    exact ⟨set, hset, hpending'.trans hpending, hdisk'.trans hdisk⟩
  · cases hmid : m'.memoryStore.get key with
    | none => exact h.removed key hsome hmid
    | some =>
      obtain ⟨set', hset', hpending', hdisk'⟩ := h'.removed key (hmid ▸ rfl) hnone
      obtain ⟨set, hset, hpending, hdisk⟩ := h.sets key set' hset'
      exact ⟨set, hset, hpending ▸ hpending', hdisk ▸ hdisk'⟩

theorem Kept.evictLargest {m m' : Memory} (h : Kept m)
    (hevict : MemoryAccounting.evictLargest m = some m') :
    Kept m' ∧ Evicted m m' ∧ ∀ drift, m.memoryUsedBytes = held m + drift →
      m'.memoryUsedBytes = held m' + drift := by
  obtain ⟨key, set, hget, hevictable, hsucceeds, rfl⟩ := evictLargest_cases hevict
  obtain ⟨hin, hleft⟩ := MaterializationSet.evictInMemory_spec hsucceeds
  obtain ⟨data, hdata⟩ := isSome_iff_exists.mp ((h.stored key).mpr ⟨set, hget, hin⟩)
  have hsets : ∀ k set', (m.outputMats.update (fun k _ => k = key)
      fun s => s.evictInMemory.1).get k = some set' →
      k = key ∧ set' = set.evictInMemory.1 ∨ k ≠ key ∧ m.outputMats.get k = some set' := by
    intro k set' hset'
    rw [Table.get_update, map_eq_some_iff] at hset'
    obtain ⟨_, hold, heq⟩ := hset'
    by_cases hk : k = key
    · rw [hk, hget, Option.some.injEq] at hold
      rw [if_pos (decide_eq_true hk)] at heq
      exact .inl ⟨hk, hold ▸ heq.symm⟩
    · rw [if_neg (by simpa using hk)] at heq
      exact .inr ⟨hk, heq ▸ hold⟩
  have hstore : ∀ k, (m.memoryStore.delete fun k => k = key).get k =
      if k = key then none else m.memoryStore.get k := by
    intro k
    rw [Table.get_delete]
    simp only [decide_eq_true_eq]
  refine ⟨⟨fun k => ?_, fun k set' data' hset' hdata' => ?_, fun k set' hset' => ?_⟩,
    ⟨fun k set' hset' => ?_, fun k data' hdata' => ?_, fun k hsome hnone => ?_, rfl⟩, ?_⟩
  · dsimp only
    rw [hstore]
    by_cases hk : k = key
    · rw [if_pos hk]
      refine iff_of_false (fun hnone => by cases hnone) ?_
      rintro ⟨set', hset', hin'⟩
      obtain ⟨-, rfl⟩ | ⟨hne, -⟩ := hsets k set' hset'
      · rw [hleft, MaterializationSet.hasInMemory_filter] at hin'
        cases hin'
      · exact hne hk
    · rw [if_neg hk, h.stored, Table.get_update]
      have hsame : (m.outputMats.get k).map (fun s => if decide (k = key) = true then
          s.evictInMemory.1 else s) = m.outputMats.get k := by
        simp only [decide_eq_true_eq, if_neg hk, Option.map_id']
      rw [hsame]
  · dsimp only at hset' hdata'
    rw [hstore] at hdata'
    obtain ⟨hk, -⟩ | ⟨hk, hold⟩ := hsets k set' hset'
    · rw [if_pos hk] at hdata'
      cases hdata'
    · rw [if_neg hk] at hdata'
      exact h.sizes k set' data' hold hdata'
  · obtain ⟨-, rfl⟩ | ⟨-, hold⟩ := hsets k set' hset'
    · rw [hleft]
      exact fun hmem => h.unpinned key set hget (List.mem_of_mem_filter hmem)
    · exact h.unpinned k set' hold
  · obtain ⟨rfl, rfl⟩ | ⟨-, hold⟩ := hsets k set' hset'
    · refine ⟨set, hget, ?_, ?_⟩
      · rw [hleft]
      · rw [hleft]
        exact MaterializationSet.hasDiskFallback_filter set
    · exact ⟨set', hold, rfl, rfl⟩
  · dsimp only at hdata'
    rw [hstore] at hdata'
    split at hdata'
    · cases hdata'
    · exact hdata'
  · dsimp only at hnone
    rw [hstore] at hnone
    by_cases hk : k = key
    · unfold evictable at hevictable
      rw [Bool.and_eq_true, Bool.and_eq_true] at hevictable
      exact ⟨set, hk ▸ hget, of_decide_eq_true hevictable.1.1, hevictable.2⟩
    · rw [if_neg hk] at hnone
      rw [hnone] at hsome
      cases hsome
  · intro drift hused
    have hweigh := m.memoryStore.weigh_delete List.length key
    rw [hdata, elim_some] at hweigh
    have hsize := h.sizes key set data hget hdata
    unfold held at hused ⊢
    dsimp only
    omega

theorem Kept.not_evictable {m : Memory} (h : Kept m)
    (hnone : MemoryAccounting.evictLargest m = none) {key : String} {set : MaterializationSet}
    (hset : m.outputMats.get key = some set) : evictable set = false := by
  by_contra hevictable
  rw [Bool.not_eq_false] at hevictable
  unfold MemoryAccounting.evictLargest at hnone
  split at hnone
  · next hmax =>
    have hrows := ((foldl_laterMax _ none).2 hmax).1
    have hmem : (key, set) ∈ m.outputMats.rows.filter fun row => evictable row.2 :=
      List.mem_filter.mpr ⟨(m.outputMats.mem_rows_iff key set).mpr hset, hevictable⟩
    rw [hrows] at hmem
    cases hmem
  · next key' set' hmax =>
    have hrow := List.mem_filter.mp (mem_of_maxBySize hmax)
    have hget := (m.outputMats.mem_rows_iff key' set').mp hrow.1
    have hsucceeds := MaterializationSet.evictInMemory_of_evictable hrow.2
      (h.unpinned key' set' hget)
    rw [if_pos hsucceeds] at hnone
    cases hnone

theorem Kept.evictAll {m : Memory} (h : Kept m) (evicted : ℕ) :
    Kept (MemoryAccounting.evictAll m evicted).1 ∧
      Evicted m (MemoryAccounting.evictAll m evicted).1 ∧
      (∀ drift, m.memoryUsedBytes = held m + drift →
        (MemoryAccounting.evictAll m evicted).1.memoryUsedBytes =
          held (MemoryAccounting.evictAll m evicted).1 + drift) ∧
      ((MemoryAccounting.evictAll m evicted).1.memoryUsedBytes ≤ m.memoryBudgetBytes ∨
        ∀ key set, (MemoryAccounting.evictAll m evicted).1.outputMats.get key = some set →
          evictable set = false) := by
  -- Every iteration evicts one entry, so the induction is on the entries in memory.
  induction hcount : heldCount m using Nat.strong_induction_on generalizing m evicted with
  | _ n ih =>
    rw [MemoryAccounting.evictAll]
    split
    · split
      · next hnone =>
        exact ⟨h, .refl m, fun _ hused => hused, .inr fun _ _ hset => h.not_evictable hnone hset⟩
      · next m' hevict =>
        obtain ⟨hkept, hevicted, hused⟩ := h.evictLargest hevict
        have hfewer := heldCount_evictLargest hevict
        obtain ⟨hkept', hevicted', hused', hends⟩ := ih _ (hcount ▸ hfewer) hkept (evicted + 1) rfl
        rw [hevicted.budget] at hends
        exact ⟨hkept', hevicted.trans hevicted', fun drift hdrift => hused' drift
          (hused drift hdrift), hends⟩
    · next hmet => exact ⟨h, .refl m, fun _ hused => hused, .inl (Nat.le_of_not_lt hmet)⟩

/-- What meeting the budget does to the entries. -/
structure Enforces (m m' : Memory) : Prop where
  /-- What is removed has no pending consumer and a fallback on disk. -/
  removed : ∀ key, (m.memoryStore.get key).isSome = true → m'.memoryStore.get key = none →
    ∃ set, m.outputMats.get key = some set ∧ set.pendingConsumers = 0 ∧
      set.hasDiskFallback = true
  /-- No entry is added or changed. -/
  entries : ∀ key data, m'.memoryStore.get key = some data → m.memoryStore.get key = some data
  /-- The budget is met, or unlimited, or no such entry remains. -/
  met : m'.memoryUsedBytes ≤ m'.memoryBudgetBytes ∨ m'.memoryBudgetBytes = 0 ∨
    ∀ key set, m'.outputMats.get key = some set → (m'.memoryStore.get key).isSome = true →
      ¬ (set.pendingConsumers = 0 ∧ set.hasDiskFallback = true)

theorem Kept.enforce {m : Memory} (h : Kept m) :
    Kept (enforceMemoryBudget m).1 ∧ Evicted m (enforceMemoryBudget m).1 ∧
      (∀ drift, m.memoryUsedBytes = held m + drift →
        (enforceMemoryBudget m).1.memoryUsedBytes = held (enforceMemoryBudget m).1 + drift) ∧
      Enforces m (enforceMemoryBudget m).1 := by
  unfold enforceMemoryBudget
  split
  · next hzero =>
    have hsame := Evicted.refl m
    exact ⟨h, hsame, fun _ hused => hused, hsame.removed, hsame.entries, .inr (.inl hzero)⟩
  · obtain ⟨hkept, hevicted, hused, hends⟩ := h.evictAll 0
    refine ⟨hkept, hevicted, hused, hevicted.removed, hevicted.entries, ?_⟩
    rcases hends with hmet | hnone
    · exact .inl (hevicted.budget.symm ▸ hmet)
    · refine .inr (.inr fun key set hset hstored ⟨hpending, hdisk⟩ => ?_)
      obtain ⟨_, hset', hin⟩ := (hkept.stored key).mp hstored
      rw [hset, Option.some.injEq] at hset'
      have hnot := hnone key set hset
      unfold evictable MaterializationSet.isEvictable at hnot
      rw [hset', hin, ← hset', hdisk, decide_eq_true hpending] at hnot
      cases hnot

/-! ### Registrations -/

def offered (around : Surroundings) (acc : Registration) (output : RegisteredOutput) :
    Option (List Byte) :=
  let key := outputRefKey output.reference
  if (acc.memory.outputMats.get key).isNone then none
  else
    match output.reference with
    | .file path =>
      if promoteToMemory around.onCriticalPath acc.memory.memoryBudgetBytes output.materialize then
        (drain key acc.memoryMap).1.or (around.readFile path)
      else none
    | _ => (drain key acc.memoryMap).1

/-- The frontier after the file of an output was located. -/
def located (output : RegisteredOutput) (m : Memory) : Memory :=
  match output.reference with
  | .file path => if output.materialize = .never then m
      else m.modify (outputRefKey output.reference) (.add (.onDisk path false))
  | _ => m

theorem registerOutput_memory (jobId : JobId) (around : Surroundings) (acc : Registration)
    (output : RegisteredOutput) :
    ((offered around acc output).isSome = true →
      (acc.memory.outputMats.get (outputRefKey output.reference)).isSome = true) ∧
    ((registerOutput jobId around acc output).memory = acc.memory ∧
        offered around acc output = none ∨
      (registerOutput jobId around acc output).memory =
        (offered around acc output).elim (located output acc.memory)
          fun data => (located output acc.memory).keep (outputRefKey output.reference) data) := by
  unfold offered registerOutput located
  dsimp only
  cases hset : acc.memory.outputMats.get (outputRefKey output.reference) with
  | none =>
    exact ⟨nofun, .inl ⟨rfl, rfl⟩⟩
  | some =>
    refine ⟨fun _ => rfl, .inr ?_⟩
    rw [if_neg nofun, if_neg nofun]
    cases hreference : output.reference with
    | file path =>
      dsimp only
      have hbudget : (if output.materialize = .never then acc.memory else acc.memory.modify
          (outputRefKey (.file path)) (.add (.onDisk path false))).memoryBudgetBytes =
            acc.memory.memoryBudgetBytes := by
        split
        · rfl
        · rfl
      rw [hbudget]
      split
      · split
        · next data map hdrain =>
          rw [hdrain]
          rfl
        · next map hdrain =>
          rw [hdrain]
          cases around.readFile path with
          | none | some => rfl
      · rfl
    | virtual | inMemory =>
      dsimp only
      split
      · next data map hdrain =>
        rw [hdrain]
        rfl
      · next map hdrain =>
        rw [hdrain]
        rfl

theorem located_spec (output : RegisteredOutput) (m : Memory) :
    (Kept m → Kept (located output m)) ∧
      (located output m).memoryStore = m.memoryStore ∧
      (located output m).memoryUsedBytes = m.memoryUsedBytes ∧
      ∀ key, ((located output m).outputMats.get key).isSome = (m.outputMats.get key).isSome := by
  unfold located
  split
  · split
    · exact ⟨fun h => h, rfl, rfl, fun _ => rfl⟩
    · refine ⟨fun h => h.onDisk _ _, rfl, rfl, fun key => ?_⟩
      rw [modify_outputMats, isSome_map]
  · exact ⟨fun h => h, rfl, rfl, fun _ => rfl⟩

/-- The bytes of an entry that the registration of an output replaces. -/
def replacedBytes (around : Surroundings) (acc : Registration) (output : RegisteredOutput) : ℕ :=
  (offered around acc output).elim 0 fun _ =>
    (acc.memory.memoryStore.get (outputRefKey output.reference)).elim 0 List.length

/-- The bytes that registering outputs one after another replaces. -/
def replacedByOutputs (jobId : JobId) (around : Surroundings) :
    Registration → List RegisteredOutput → ℕ
  | _, [] => 0
  | acc, output :: outputs => replacedBytes around acc output +
      replacedByOutputs jobId around (registerOutput jobId around acc output) outputs

theorem Kept.registerOutput {acc : Registration} (h : Kept acc.memory) (jobId : JobId)
    (around : Surroundings) (output : RegisteredOutput) :
    Kept (MemoryAccounting.registerOutput jobId around acc output).memory ∧
      ∀ drift, acc.memory.memoryUsedBytes = held acc.memory + drift →
        (MemoryAccounting.registerOutput jobId around acc output).memory.memoryUsedBytes =
          held (MemoryAccounting.registerOutput jobId around acc output).memory +
            (drift + replacedBytes around acc output) := by
  obtain ⟨hpresent, hmemory⟩ := registerOutput_memory jobId around acc output
  obtain ⟨hkept, hstore, hused, hsome⟩ := located_spec output acc.memory
  unfold replacedBytes
  rcases hmemory with ⟨hmemory, hnone⟩ | hmemory
  · rw [hmemory, hnone]
    exact ⟨h, fun _ hdrift => hdrift⟩
  · rw [hmemory]
    cases hoffered : offered around acc output with
    | none =>
      refine ⟨hkept h, fun drift hdrift => ?_⟩
      rw [elim_none, elim_none, hused, hdrift]
      unfold held
      rw [hstore]
      rfl
    | some data =>
      rw [hoffered] at hpresent
      refine ⟨(hkept h).keep data ((hsome _).trans (hpresent rfl)), fun drift hdrift => ?_⟩
      obtain ⟨hcount, hheld⟩ := keep_counts (outputRefKey output.reference) data
        (located output acc.memory)
      have hsame : held (located output acc.memory) = held acc.memory := by
        unfold held
        rw [hstore]
      rw [hstore, hsame] at hheld
      rw [elim_some, elim_some, hcount, hused]
      omega

theorem Kept.registerOutputs {acc : Registration} (h : Kept acc.memory) (jobId : JobId)
    (around : Surroundings) (outputs : List RegisteredOutput) :
    Kept (outputs.foldl (MemoryAccounting.registerOutput jobId around) acc).memory ∧
      ∀ drift, acc.memory.memoryUsedBytes = held acc.memory + drift →
        (outputs.foldl (MemoryAccounting.registerOutput jobId around) acc).memory.memoryUsedBytes =
          held (outputs.foldl (MemoryAccounting.registerOutput jobId around) acc).memory +
            (drift + replacedByOutputs jobId around acc outputs) := by
  induction outputs generalizing acc with
  | nil => exact ⟨h, fun _ hdrift => hdrift⟩
  | cons output outputs ih =>
    obtain ⟨hone, hused⟩ := h.registerOutput jobId around output
    obtain ⟨hrest, hused'⟩ := ih hone
    refine ⟨hrest, fun drift hdrift => ?_⟩
    rw [List.foldl_cons, hused' _ (hused drift hdrift), replacedByOutputs, Nat.add_assoc drift]

theorem Kept.decrement {m : Memory} (h : Kept m) (inputs : List OutputRef) :
    Kept (decrementInputConsumers inputs m) ∧
      (decrementInputConsumers inputs m).memoryStore = m.memoryStore ∧
      (decrementInputConsumers inputs m).memoryUsedBytes = m.memoryUsedBytes := by
  unfold decrementInputConsumers
  induction inputs generalizing m with
  | nil => exact ⟨h, rfl, rfl⟩
  | cons input inputs ih =>
    obtain ⟨hkept, hstore, hused⟩ := ih (h.fired (outputRefKey input))
    exact ⟨hkept, hstore, hused⟩

/-! ### Runs -/

/-- A call that the scheduler makes. -/
inductive Call
  | register (jobId : JobId) (outputs : List RegisteredOutput) (around : Surroundings)
  | decrement (inputs : List OutputRef)
  | enforce

def perform (m : Memory) : Call → Memory
  | .register jobId outputs around => (registerMaterializations jobId outputs around m).memory
  | .decrement inputs => decrementInputConsumers inputs m
  | .enforce => (enforceMemoryBudget m).1

/-- The bytes of stored entries that a call replaces. -/
def replacedByCall (m : Memory) : Call → ℕ
  | .register jobId outputs around =>
    replacedByOutputs jobId around ⟨m, around.memoryMap, []⟩ outputs
  | _ => 0

def Fresh : Memory → List Call → Prop
  | _, [] => True
  | m, call :: calls => replacedByCall m call = 0 ∧ Fresh (perform m call) calls

theorem Kept.perform {m : Memory} (h : Kept m) (call : Call) :
    Kept (MemoryAccounting.perform m call) ∧
      ∀ drift, m.memoryUsedBytes = held m + drift →
        (MemoryAccounting.perform m call).memoryUsedBytes =
          held (MemoryAccounting.perform m call) + (drift + replacedByCall m call) := by
  cases call with
  | register jobId outputs around =>
    have hacc : Kept (⟨m, around.memoryMap, []⟩ : Registration).memory := h
    exact hacc.registerOutputs jobId around outputs
  | decrement inputs =>
    obtain ⟨hkept, hstore, hused⟩ := h.decrement inputs
    refine ⟨hkept, fun drift hdrift => ?_⟩
    change (decrementInputConsumers inputs m).memoryUsedBytes =
      (decrementInputConsumers inputs m).memoryStore.weigh List.length + (drift + 0)
    rw [hstore, hused]
    exact hdrift
  | enforce =>
    obtain ⟨hkept, -, hused, -⟩ := h.enforce
    exact ⟨hkept, fun drift hdrift => hused drift hdrift⟩

theorem Kept.run {m : Memory} (h : Kept m) (calls : List Call) :
    Kept (calls.foldl MemoryAccounting.perform m) ∧
      ∀ drift, m.memoryUsedBytes = held m + drift → ∃ total,
        (calls.foldl MemoryAccounting.perform m).memoryUsedBytes =
          held (calls.foldl MemoryAccounting.perform m) + (drift + total) ∧
        (total = 0 ↔ Fresh m calls) := by
  induction calls generalizing m with
  | nil => exact ⟨h, fun drift hdrift => ⟨0, hdrift, iff_of_true rfl trivial⟩⟩
  | cons call calls ih =>
    obtain ⟨hone, hused⟩ := h.perform call
    obtain ⟨hrest, hused'⟩ := ih hone
    refine ⟨hrest, fun drift hdrift => ?_⟩
    obtain ⟨total, htotal, hfresh⟩ := hused' _ (hused drift hdrift)
    refine ⟨replacedByCall m call + total, ?_, ?_⟩
    · rw [List.foldl_cons, htotal]
      omega
    · rw [Nat.add_eq_zero_iff, hfresh]
      rfl

def outputKeys (g : JobGraph) : List String :=
  (g.jobs.flatMap ConcreteJob.produces ++ g.jobs.flatMap ConcreteJob.consumes).dedup

/-- An order in which the map of outputs enumerates its keys. -/
structure MapOrder (g : JobGraph) where
  keys : List String
  perm : keys.Perm (outputKeys g)

/-- Number of edges from an output to the jobs that consume it. -/
def consumerCount (g : JobGraph) (key : String) : ℕ :=
  (g.jobs.flatMap ConcreteJob.consumes).count key

/-- An empty set for each output, with its consumers. -/
def initOutputMaterializations (g : JobGraph) (order : MapOrder g) :
    Table String MaterializationSet where
  rows := order.keys.map fun key => (key, .new (consumerCount g key))
  nodup := by
    rw [List.map_map]
    change (order.keys.map id).Nodup
    rw [List.map_id]
    exact order.perm.nodup_iff.mpr (List.nodup_dedup _)

def initialMemory (g : JobGraph) (order : MapOrder g) (budget : ℕ) (diskWriter : Bool) :
    Memory where
  outputMats := initOutputMaterializations g order
  memoryUsedBytes := 0
  peakMemoryBytes := 0
  memoryBudgetBytes := budget
  evictionCount := 0
  evictionBytes := 0
  diskWriter := diskWriter
  memoryStore := .empty

theorem initialMemory_get {g : JobGraph} {order : MapOrder g} {budget : ℕ} {diskWriter : Bool}
    {key : String} {set : MaterializationSet}
    (h : (initialMemory g order budget diskWriter).outputMats.get key = some set) :
    set = .new (consumerCount g key) := by
  have hrow := (Table.mem_rows_iff _ key set).mpr h
  obtain ⟨k, -, heq⟩ := List.mem_map.mp hrow
  cases heq
  rfl

theorem initialMemory_kept (g : JobGraph) (order : MapOrder g) (budget : ℕ) (diskWriter : Bool) :
    Kept (initialMemory g order budget diskWriter) := by
  refine ⟨fun key => iff_of_false nofun ?_, fun _ _ _ _ h => (nomatch h),
    fun key set hset => ?_⟩
  · rintro ⟨set, hset, hin⟩
    rw [initialMemory_get hset] at hin
    cases hin
  · rw [initialMemory_get hset]
    exact nofun

/-- The counted bytes are those in the store, an output is in memory exactly when its data is
stored, with its size, and the budget is met as far as entries can be spared. -/
structure Accounts (m : Memory) : Prop where
  used : m.memoryUsedBytes = held m
  inMemory : ∀ key, (∃ set, m.outputMats.get key = some set ∧ set.hasInMemory = true) ↔
    (m.memoryStore.get key).isSome = true
  sizes : ∀ key data, m.memoryStore.get key = some data →
    ∃ set, m.outputMats.get key = some set ∧ set.sizeBytes = data.length
  enforces : Enforces m (enforceMemoryBudget m).1

/-- Whatever calls are made on the frontier of a graph, the accounts are right exactly when no
registration stored data in place of data; only the counted bytes can be wrong. -/
theorem accounts_iff (g : JobGraph) (order : MapOrder g) (budget : ℕ) (diskWriter : Bool)
    (calls : List Call) :
    Accounts (calls.foldl perform (initialMemory g order budget diskWriter)) ↔
      Fresh (initialMemory g order budget diskWriter) calls := by
  obtain ⟨hkept, hrun⟩ := (initialMemory_kept g order budget diskWriter).run calls
  obtain ⟨_, _, hfresh⟩ := hrun 0 rfl
  rw [← hfresh]
  constructor
  · intro haccounts
    have hexact := haccounts.used
    omega
  · intro hzero
    refine ⟨by omega, fun key => (hkept.stored key).symm, fun key data hdata => ?_,
      hkept.enforce.2.2.2⟩
    obtain ⟨set, hset, -⟩ := (hkept.stored key).mp (hdata ▸ rfl)
    exact ⟨set, hset, hkept.sizes key set data hset hdata⟩

def twiceGraph : JobGraph where
  jobs := [fileJob "a" [] ["a.txt", "a.txt"]]
  skipped := []
  gates := []
  idsNodup := by decide

def twiceOrder : MapOrder twiceGraph := ⟨["a.txt"], by decide⟩

/-- The output is never written to disk and there is no map, so it is read twice. -/
def twice : Call :=
  .register "a" [⟨.file "a.txt", .never⟩, ⟨.file "a.txt", .never⟩]
    ⟨true, none, fun path => if path = "a.txt" then some [1, 2, 3] else none⟩

/-- Six bytes are counted for three. -/
theorem not_accounts_twice :
    ¬ Accounts (perform (initialMemory twiceGraph twiceOrder 0 false) twice) := by
  intro h
  exact absurd h.used (by decide)

end OxyMake.MemoryAccounting
