import OxyMake.CacheRecords

/-!
# Hashes of input files

The hash of an input file is remembered for a session and stored by the file's
metadata. Hashing files changes neither the hash that any file has for the store
nor any record.
-/

namespace OxyMake.CacheStore

open KeyedTable CacheKey

variable {blake3 : List Byte → Str} {files : Files} {store : Store}

def Store.inputHash (blake3 : List Byte → Str) (files : Files) (store : Store) (path : String) :
    Option Str :=
  (store.hashInputCached blake3 files path).1.toOption

variable (blake3 files store) in
theorem hashInputCached_cases (path : String) :
    (∃ e, store.hashInputCached blake3 files path = (.error e, store)) ∨
    ∃ hash rows, store.hashInputCached blake3 files path =
        (.ok hash, { store with
          inputHashes := rows
          inputMemo := Function.update store.inputMemo path (some hash) }) ∧
      ((store.inputMemo path = some hash ∧ rows = store.inputHashes) ∨
        ∃ node, files path = some node ∧ store.inputMemo path = none ∧
          ((store.storedHash path node.mtime node.size = some hash ∧ rows = store.inputHashes) ∨
            (hashFile blake3 files path = .ok hash ∧
              rows = store.inputHashes.put path ⟨hash, toI64 node.mtime, toI64 node.size⟩))) := by
  unfold Store.hashInputCached
  cases hmemo : store.inputMemo path with
  | some hash =>
    have hsame : Function.update store.inputMemo path (some hash) = store.inputMemo := by
      rw [← hmemo]
      exact Function.update_eq_self path store.inputMemo
    refine .inr ⟨hash, store.inputHashes, ?_, .inl ⟨rfl, rfl⟩⟩
    rw [hsame]
  | none =>
    unfold fileMeta
    cases hnode : files path with
    | none => exact .inl ⟨_, rfl⟩
    | some node =>
      dsimp only
      cases hstored : store.storedHash path node.mtime node.size with
      | some hash =>
        exact .inr ⟨hash, store.inputHashes, rfl, .inr ⟨node, rfl, rfl, .inl ⟨hstored, rfl⟩⟩⟩
      | none =>
        dsimp only
        cases hhash : hashFile blake3 files path with
        | error e => exact .inl ⟨e, rfl⟩
        | ok hash => exact .inr ⟨hash, _, rfl, .inr ⟨node, rfl, rfl, .inr ⟨rfl, rfl⟩⟩⟩

theorem inputHash_congr {store' : Store} {path : String}
    (hmemo : store'.inputMemo path = store.inputMemo path)
    (hrows : store'.inputHashes.get path = store.inputHashes.get path) :
    store'.inputHash blake3 files path = store.inputHash blake3 files path := by
  unfold Store.inputHash Store.hashInputCached Store.storedHash
  rw [hmemo, hrows]
  split
  · rfl
  · split
    · rfl
    · split
      · rfl
      · split
        · rfl
        · rfl

theorem inputHash_of_memo {path : String} {hash : Str} (h : store.inputMemo path = some hash) :
    store.inputHash blake3 files path = some hash := by
  unfold Store.inputHash Store.hashInputCached
  rw [h]
  rfl

/-- Two stores have the same records and the same hashes of input files. -/
structure Agrees (blake3 : List Byte → Str) (files : Files) (store store' : Store) : Prop where
  entries : store'.entries = store.entries
  outputs : store'.outputs = store.outputs
  validation : store'.validation = store.validation
  /-- The same hashes of input files. -/
  inputHash : ∀ path, store'.inputHash blake3 files path = store.inputHash blake3 files path

theorem Agrees.refl (store : Store) : Agrees blake3 files store store :=
  ⟨rfl, rfl, rfl, fun _ => rfl⟩

theorem Agrees.trans {store₁ store₂ store₃ : Store} (h : Agrees blake3 files store₁ store₂)
    (h' : Agrees blake3 files store₂ store₃) : Agrees blake3 files store₁ store₃ :=
  ⟨h'.entries.trans h.entries, h'.outputs.trans h.outputs, h'.validation.trans h.validation,
    fun path => (h'.inputHash path).trans (h.inputHash path)⟩

variable (blake3 files store) in
theorem agrees_hashInputCached (path : String) :
    Agrees blake3 files store (store.hashInputCached blake3 files path).2 := by
  rcases hashInputCached_cases blake3 files store path with ⟨e, he⟩ | ⟨hash, _, hok, hfrom⟩
  · rw [he]
    exact Agrees.refl store
  · have hhash : store.inputHash blake3 files path = some hash := by
      unfold Store.inputHash
      rw [hok]
      rfl
    rw [hok]
    refine ⟨rfl, rfl, rfl, ?_⟩
    intro q
    by_cases hq : q = path
    · subst hq
      rw [hhash]
      exact inputHash_of_memo (Function.update_self _ _ _)
    · refine inputHash_congr (Function.update_of_ne hq _ _) ?_
      rcases hfrom with ⟨-, rfl⟩ | ⟨_, -, -, ⟨-, rfl⟩ | ⟨-, rfl⟩⟩
      · rfl
      · rfl
      · rw [Table.get_put, if_neg hq]

end OxyMake.CacheStore
