import OxyMake.CacheSoundness
import OxyMake.Invalidation

/-!
# Orphaned cache entries

Whatever was recorded, looked up, invalidated and swept before, every output record of
the cache belongs to an entry. Removing the orphans therefore removes every record of a
missing file: the entries with a missing output go with all their records, the other
ones stay as they are, and the number reported is the number of entries removed.
-/

namespace OxyMake.OrphanedEntries

open Option
open KeyedTable CacheKey CacheStore
open CacheSoundness (Operation World execute history)
open Invalidation (Gone Same removeEntries_spec)

variable {blake3 : List Byte → Str} {store : Store} {key : Str}

/-! ### Records without an entry -/

def Owned (store : Store) : Prop :=
  ∀ key path, (store.outputs.get (key, path)).isSome = true →
    (store.entries.get key).isSome = true

theorem Owned.removeEntry (h : Owned store) (key : Str) : Owned (store.removeEntry key) := by
  intro key' path hrow
  rw [get_removeEntry] at hrow
  by_cases hkey : key' = key
  · rw [if_pos hkey] at hrow
    cases hrow
  · rw [if_neg hkey] at hrow
    rw [Store.removeEntry, Table.get_delete, if_neg fun heq => hkey (of_decide_eq_true heq)]
    exact h key' path hrow

theorem Owned.removeEntries (h : Owned store) (keys : List Str) :
    Owned (Store.removeEntries keys store).2 := by
  induction keys generalizing store with
  | nil => exact h
  | cons key keys ih =>
    rw [Store.removeEntries]
    split_ifs
    · exact ih h
    · exact ih (h.removeEntry key)

theorem Owned.invalidate (h : Owned store) (outputs : List String) :
    Owned (Store.invalidate outputs store).2 := by
  induction outputs generalizing store with
  | nil => exact h
  | cons path outputs ih => exact ih (h.removeEntries _)

theorem Owned.checkCached (h : Owned store) (files : Files) (key : Str) (outputs : List String) :
    Owned (store.checkCached blake3 files key outputs).2 := by
  rcases checkCached_cases blake3 files store key outputs with ⟨-, hstore⟩ | hstops
  · rw [hstore]
    exact h
  · obtain ⟨-, ⟨-, -, hstore⟩ | ⟨-, hstore | hstore⟩⟩ := hstops
    · rw [hstore]
      intro key' path hrow
      rw [get_distrust, isSome_map] at hrow
      exact h key' path hrow
    · rw [hstore]
      exact h
    · rw [hstore]
      exact h.removeEntry key

theorem Owned.recordWithPlatform (h : Owned store) (files : Files) (key : Str)
    (pairs : List (String × Str)) (entry : Entry) :
    Owned (store.recordWithPlatform files key pairs entry).2 := by
  rcases recordWithPlatform_cases store files key pairs entry with
    ⟨e, he⟩ | ⟨_, hstore', hentries, hfrom, -, -⟩
  · rw [he]
    exact h
  · rw [hstore']
    intro key' path hrow
    obtain ⟨row, hrow⟩ := isSome_iff_exists.mp hrow
    rw [hentries, Table.get_put]
    by_cases hkey : key' = key
    · rw [if_pos hkey]
      rfl
    · rw [if_neg hkey]
      rcases hfrom _ row hrow with ⟨-, hold⟩ | ⟨e, -, _, heq, -⟩
      · exact h key' path (isSome_iff_exists.mpr ⟨row, hold⟩)
      · exact absurd (congrArg Prod.fst heq) hkey

theorem Owned.execute {w : World} (h : Owned w.store) (operation : Operation) :
    Owned (execute blake3 w operation).2.store := by
  cases operation with
  | record key outputs entry =>
    change Owned (w.store.record blake3 w.files key outputs entry).2
    unfold Store.record Store.recordWithHashes
    split
    · exact h
    · exact h.recordWithPlatform _ _ _ _
  | recordAdopted key outputs entry =>
    change Owned (w.store.recordAdopted blake3 w.files key outputs entry).2
    unfold Store.recordAdopted
    split
    · exact h
    · exact h.recordWithPlatform _ _ _ _
  | checkCached => exact h.checkCached _ _ _
  | isCached | change => exact h
  | invalidate => exact h.invalidate _
  | removeOrphans => exact h.removeEntries _

theorem Owned.history {w : World} (h : Owned w.store) (operations : List Operation) :
    Owned (history blake3 operations w).2.store := by
  induction operations generalizing w with
  | nil => exact h
  | cons operation operations ih => exact ih (h.execute operation)

/-! ### Removing the orphans -/

theorem isOrphan_iff {files : Files} : store.isOrphan files key = true ↔
    ∃ path, (store.outputs.get (key, path)).isSome = true ∧ files path = none := by
  rw [Store.isOrphan, List.any_eq_true]
  constructor
  · rintro ⟨⟨key', path⟩, hmem, hmissing⟩
    obtain ⟨row, hrow, hkey⟩ := (Table.mem_select_iff _ _ _).mp hmem
    have hkey : key' = key := of_decide_eq_true hkey
    rw [hkey] at hrow
    exact ⟨path, isSome_iff_exists.mpr ⟨row, hrow⟩, isNone_iff_eq_none.mp hmissing⟩
  · rintro ⟨path, hsome, hmissing⟩
    obtain ⟨row, hrow⟩ := isSome_iff_exists.mp hsome
    exact ⟨(key, path), (Table.mem_select_iff _ _ _).mpr ⟨row, hrow, decide_eq_true rfl⟩,
      isNone_iff_eq_none.mpr hmissing⟩

theorem removeEntries_count (keys : List Str) (store : Store) :
    (Store.removeEntries keys store).1 + (Store.removeEntries keys store).2.entries.rows.length =
      store.entries.rows.length := by
  induction keys generalizing store with
  | nil => exact Nat.zero_add _
  | cons key keys ih =>
    rw [Store.removeEntries]
    by_cases hnone : (store.entries.get key).isNone = true
    · rw [if_pos hnone]
      exact ih store
    · rw [if_neg hnone]
      obtain ⟨_, hentry⟩ :=
        isSome_iff_exists.mp (isNone_eq_false_iff.mp (Bool.eq_false_of_not_eq_true hnone))
      have hrest := ih (store.removeEntry key)
      have hweigh := store.entries.weigh_delete (fun _ => 1) key
      simp only [Table.weigh, hentry, elim_some, List.map_const', List.sum_replicate,
        smul_eq_mul, mul_one] at hweigh
      change (Store.removeEntries keys (store.removeEntry key)).1 + 1 +
        (Store.removeEntries keys (store.removeEntry key)).2.entries.rows.length = _
      change _ = (store.entries.delete fun key' => key' = key).rows.length at hrest
      omega

/-- After any history of a fresh cache, removing the orphans removes the entries with a missing
output and all their records, keeps the other ones as they are, leaves no record of a missing
file, and reports how many entries it removed. -/
theorem removeOrphans_history (blake3 : List Byte → Str) (validation : CacheValidation)
    (files : Files) (operations : List Operation) :
    let w := (history blake3 operations ⟨.open validation, files⟩).2
    let swept := (w.store.removeOrphans w.files).2
    (∀ key path, (w.store.outputs.get (key, path)).isSome = true → w.files path = none →
      Gone swept key) ∧
    (∀ key, (∀ path, (w.store.outputs.get (key, path)).isSome = true →
      (w.files path).isSome = true) → Same w.store swept key) ∧
    (∀ key path, (swept.outputs.get (key, path)).isSome = true →
      (w.files path).isSome = true) ∧
    (w.store.removeOrphans w.files).1 + swept.entries.rows.length =
      w.store.entries.rows.length := by
  intro w swept
  have hfresh : Owned (Store.open validation) := fun _ _ hrow => absurd hrow Bool.false_ne_true
  have howned : Owned w.store := Owned.history (w := ⟨.open validation, files⟩) hfresh operations
  have hkeys : ∀ key, key ∈ (w.store.entries.rows.map Prod.fst).filter
      (fun key => w.store.isOrphan w.files key) ↔
        (w.store.entries.get key).isSome = true ∧ w.store.isOrphan w.files key = true := by
    intro key
    rw [List.mem_filter, Table.mem_keys_iff, isSome_iff_exists]
  have hgone : ∀ key path, (w.store.outputs.get (key, path)).isSome = true →
      w.files path = none → Gone swept key := by
    intro key path hrow hmissing
    have hentry := howned key path hrow
    exact (removeEntries_spec _ w.store key).1
      ((hkeys key).mpr ⟨hentry, isOrphan_iff.mpr ⟨path, hrow, hmissing⟩⟩) hentry
  have hsame : ∀ key, (∀ path, (w.store.outputs.get (key, path)).isSome = true →
      (w.files path).isSome = true) → Same w.store swept key := by
    intro key hpresent
    refine (removeEntries_spec _ w.store key).2 fun hmem => ?_
    obtain ⟨path, hrow, hmissing⟩ := isOrphan_iff.mp ((hkeys key).mp hmem).2
    have hsome := hpresent path hrow
    rw [hmissing] at hsome
    cases hsome
  refine ⟨hgone, hsame, fun key path hrow => ?_, removeEntries_count _ _⟩
  by_contra hmissing
  obtain ⟨row, hget⟩ := isSome_iff_exists.mp hrow
  have hbefore := isSome_iff_exists.mpr ⟨row, get_of_removeEntries hget⟩
  have hnone := (hgone key path hbefore (not_isSome_iff_eq_none.mp hmissing)).2 path
  rw [hnone] at hrow
  cases hrow

end OxyMake.OrphanedEntries
