import OxyMake.CacheStore

/-!
# What the operations do to the output records

A recording replaces the records of its key by those of its outputs, a check
changes nothing, stops trusting the metadata of its key or removes its entry,
and every removal keeps the other records. The two lookups agree on what is a
hit, and a hit says of each listed output which record it was compared with.
-/

namespace OxyMake.CacheStore

open List
open KeyedTable CacheKey

variable {blake3 : List Byte → Str} {files : Files} {store : Store} {key : Str}

/-! ### Lookups -/

theorem mtimeMatches_eq_true {path : String} {mtime size : ℕ}
    (h : mtimeMatches files path mtime size = true) :
    ∃ node, files path = some node ∧ node.mtime = mtime ∧ node.size = size := by
  unfold mtimeMatches fileMeta at h
  cases hnode : files path with
  | none =>
    rw [hnode] at h
    cases h
  | some node =>
    rw [hnode] at h
    dsimp only at h
    rw [Bool.and_eq_true, decide_eq_true_eq, decide_eq_true_eq] at h
    exact ⟨node, rfl, h⟩

theorem hashFile_eq_ok {path : String} {hash : Str} (h : hashFile blake3 files path = .ok hash) :
    ∃ node bytes, files path = some node ∧ node.content = some bytes ∧ blake3 bytes = hash := by
  unfold hashFile at h
  cases hbytes : (files path).bind Node.content with
  | none =>
    rw [hbytes] at h
    cases h
  | some bytes =>
    rw [hbytes] at h
    cases h
    obtain ⟨node, hnode, hcontent⟩ := Option.bind_eq_some_iff.mp hbytes
    exact ⟨node, bytes, hnode, hcontent, rfl⟩

/-- What a lookup found for one output: its metadata is the recorded one, or its bytes were
read and have the recorded hash. -/
def Validated (blake3 : List Byte → Str) (files : Files) (row : OutputRecord) (path : String)
    (hashed : List String) : Prop :=
  (∃ node, files path = some node ∧ node.mtime = toU64 row.mtimeSecs ∧
    node.size = toU64 row.size) ∨
  (path ∈ hashed ∧ ∃ node bytes, files path = some node ∧ node.content = some bytes ∧
    blake3 bytes = row.contentHash)

theorem Validated.mono {row : OutputRecord} {path : String} {hashed hashed' : List String}
    (h : Validated blake3 files row path hashed) (hsub : hashed ⊆ hashed') :
    Validated blake3 files row path hashed' :=
  h.imp_right fun ⟨hmem, hbytes⟩ => ⟨hsub hmem, hbytes⟩

theorem Lookup.reading_eq_iff {α : Type} {path : String} {l : Lookup α}
    {result : Except CacheError α} {hashed : List String} :
    l.reading path = ⟨result, hashed⟩ ↔
      ∃ hashed', hashed = path :: hashed' ∧ l = ⟨result, hashed'⟩ := by
  obtain ⟨_, hashed'⟩ := l
  constructor
  · intro h
    cases h
    exact ⟨hashed', rfl, rfl⟩
  · rintro ⟨_, rfl, h⟩
    cases h
    rfl

/-- Whether an output passes a lookup, and whether its bytes are read for that. -/
def passes (blake3 : List Byte → Str) (files : Files) (store : Store) (key : Str)
    (path : String) : Option Bool :=
  match store.outputs.get (key, path) with
  | none => none
  | some row =>
    if (files path).isNone then none
    else if store.validation ≠ .contentHash ∧
        mtimeMatches files path (toU64 row.mtimeSecs) (toU64 row.size) = true then some false
    else if store.validation ≠ .mtime ∧ hashFile blake3 files path = .ok row.contentHash then
      some true
    else none

theorem validated_of_passes {path : String} {read : Bool} {hashed : List String}
    (h : passes blake3 files store key path = some read) (hread : read = true → path ∈ hashed) :
    ∃ row, store.outputs.get (key, path) = some row ∧
      Validated blake3 files row path hashed := by
  unfold passes at h
  split at h
  · cases h
  · rename_i row hrow
    refine ⟨row, hrow, ?_⟩
    split_ifs at h with hnone hmeta hhash
    · exact .inl (mtimeMatches_eq_true hmeta.2)
    · cases h
      exact .inr ⟨hread rfl, hashFile_eq_ok hhash.2⟩

variable (blake3 files store key) in
theorem isCachedLoop_cons (path : String) (rest : List String) :
    match passes blake3 files store key path with
    | some false => store.isCachedLoop blake3 files key (path :: rest) =
        store.isCachedLoop blake3 files key rest
    | some true => store.isCachedLoop blake3 files key (path :: rest) =
        (store.isCachedLoop blake3 files key rest).reading path
    | none => (store.isCachedLoop blake3 files key (path :: rest)).result ≠ .ok true := by
  unfold passes
  rw [Store.isCachedLoop]
  cases hrow : store.outputs.get (key, path) with
  | none => simp
  | some =>
    dsimp only
    split_ifs <;> cases hval : store.validation <;> simp_all <;>
      cases hhash : hashFile blake3 files path <;> simp_all

/-- What a check that is no hit does: it reports a missing output and stops trusting the
metadata of its key, or it reports something else and changes nothing or removes the entry. -/
def Stops (store : Store) (key : Str) (r : Lookup CacheHitStatus × Store) : Prop :=
  r.1.result ≠ .ok .hit ∧
    ((∃ path, r.1.result = .ok (.outputMissing path) ∧ r.2 = store.distrust key) ∨
      ((∀ path, r.1.result ≠ .ok (.outputMissing path)) ∧
        (r.2 = store ∨ r.2 = store.removeEntry key)))

variable (blake3 files store key) in
theorem checkCachedLoop_cons (path : String) (rest : List String) :
    match passes blake3 files store key path with
    | some false => store.checkCachedLoop blake3 files key (path :: rest) =
        store.checkCachedLoop blake3 files key rest
    | some true => store.checkCachedLoop blake3 files key (path :: rest) =
        ((store.checkCachedLoop blake3 files key rest).1.reading path,
          (store.checkCachedLoop blake3 files key rest).2)
    | none => Stops store key (store.checkCachedLoop blake3 files key (path :: rest)) := by
  unfold passes
  rw [Store.checkCachedLoop]
  cases hrow : store.outputs.get (key, path) with
  | none => simp [Stops]
  | some =>
    dsimp only
    split_ifs <;> cases hval : store.validation <;> simp_all [Stops] <;>
      cases hhash : hashFile blake3 files path <;> simp_all

theorem Stops.reading {r : Lookup CacheHitStatus × Store} (h : Stops store key r)
    (path : String) : Stops store key (r.1.reading path, r.2) := h

variable (blake3 files store key) in
theorem checkCachedLoop_cases (outputs : List String) :
    ((store.checkCachedLoop blake3 files key outputs).1.result = .ok .hit ∧
      (store.checkCachedLoop blake3 files key outputs).2 = store) ∨
    Stops store key (store.checkCachedLoop blake3 files key outputs) := by
  induction outputs with
  | nil => exact .inl ⟨rfl, rfl⟩
  | cons path rest ih =>
    have hcons := checkCachedLoop_cons blake3 files store key path rest
    cases hpasses : passes blake3 files store key path with
    | none =>
      rw [hpasses] at hcons
      exact .inr hcons
    | some read =>
      rw [hpasses] at hcons
      cases read with
      | false =>
        dsimp only at hcons
        rw [hcons]
        exact ih
      | true =>
        dsimp only at hcons
        rw [hcons]
        exact ih.imp id fun h => h.reading path

theorem validated_of_hit {outputs hashed : List String}
    (h : (store.checkCachedLoop blake3 files key outputs).1 = ⟨.ok .hit, hashed⟩) :
    ∀ path ∈ outputs, ∃ row, store.outputs.get (key, path) = some row ∧
      Validated blake3 files row path hashed := by
  induction outputs generalizing hashed with
  | nil => exact fun path hpath => nomatch hpath
  | cons path rest ih =>
    have hcons := checkCachedLoop_cons blake3 files store key path rest
    cases hpasses : passes blake3 files store key path with
    | none =>
      rw [hpasses] at hcons
      exact absurd (congrArg Lookup.result h) hcons.1
    | some read =>
      have hrest : ∃ hashed', (store.checkCachedLoop blake3 files key rest).1 = ⟨.ok .hit, hashed'⟩
          ∧ hashed' ⊆ hashed ∧ (read = true → path ∈ hashed) := by
        rw [hpasses] at hcons
        cases read with
        | false =>
          dsimp only at hcons
          rw [hcons] at h
          exact ⟨hashed, h, List.Subset.refl _, fun hread => nomatch hread⟩
        | true =>
          dsimp only at hcons
          rw [hcons] at h
          obtain ⟨hashed', rfl, hhit⟩ := Lookup.reading_eq_iff.mp h
          exact ⟨hashed', hhit, subset_cons_self _ _, fun _ => mem_cons_self⟩
      obtain ⟨hashed', hhit, hsub, hread⟩ := hrest
      intro path' hpath'
      rcases mem_cons.mp hpath' with rfl | hpath'
      · exact validated_of_passes hpasses hread
      · obtain ⟨row, hrow, hvalid⟩ := ih hhit path' hpath'
        exact ⟨row, hrow, hvalid.mono hsub⟩

variable (blake3 files store key) in
theorem isCachedLoop_eq_iff (outputs hashed : List String) :
    store.isCachedLoop blake3 files key outputs = ⟨.ok true, hashed⟩ ↔
      (store.checkCachedLoop blake3 files key outputs).1 = ⟨.ok .hit, hashed⟩ := by
  induction outputs generalizing hashed with
  | nil =>
    rw [Store.isCachedLoop, Store.checkCachedLoop]
    constructor
    · intro h
      cases h
      rfl
    · intro h
      cases h
      rfl
  | cons path rest ih =>
    have hcached := isCachedLoop_cons blake3 files store key path rest
    have hcheck := checkCachedLoop_cons blake3 files store key path rest
    cases hpasses : passes blake3 files store key path with
    | none =>
      rw [hpasses] at hcached hcheck
      refine iff_of_false ?_ ?_
      · intro h
        exact hcached (congrArg Lookup.result h)
      · intro h
        exact hcheck.1 (congrArg Lookup.result h)
    | some read =>
      rw [hpasses] at hcached hcheck
      cases read with
      | false =>
        dsimp only at hcached hcheck
        rw [hcached, hcheck]
        exact ih hashed
      | true =>
        dsimp only at hcached hcheck
        rw [hcached, hcheck]
        rw [Lookup.reading_eq_iff, Lookup.reading_eq_iff]
        exact exists_congr fun hashed' => and_congr_right fun _ => ih hashed'

variable (blake3 files store key) in
theorem isCached_eq_iff (outputs hashed : List String) :
    store.isCached blake3 files key outputs = ⟨.ok true, hashed⟩ ↔
      (store.checkCached blake3 files key outputs).1 = ⟨.ok .hit, hashed⟩ := by
  unfold Store.isCached Store.checkCached
  split_ifs
  · exact iff_of_false (fun h => by cases h) (fun h => by cases h)
  · exact isCachedLoop_eq_iff blake3 files store key outputs hashed

variable (blake3 files store key) in
theorem isCached_result_iff (outputs : List String) :
    (store.isCached blake3 files key outputs).result = .ok true ↔
      (store.checkCached blake3 files key outputs).1.result = .ok .hit := by
  have hiff := isCached_eq_iff blake3 files store key outputs
  constructor
  · intro h
    exact congrArg Lookup.result ((hiff _).mp (Lookup.ext h rfl))
  · intro h
    exact congrArg Lookup.result ((hiff _).mpr (Lookup.ext h rfl))

theorem hit_spec {outputs hashed : List String}
    (h : (store.checkCached blake3 files key outputs).1 = ⟨.ok .hit, hashed⟩) :
    (store.entries.get key).isSome = true ∧
      ∀ path ∈ outputs, ∃ row, store.outputs.get (key, path) = some row ∧
        Validated blake3 files row path hashed := by
  unfold Store.checkCached at h
  split_ifs at h with hentry
  · cases congrArg Lookup.result h
  · refine ⟨?_, validated_of_hit h⟩
    rw [Option.isSome_iff_ne_none]
    intro hnone
    exact hentry (by rw [hnone]; rfl)

variable (blake3 files store key) in
theorem checkCached_cases (outputs : List String) :
    ((store.checkCached blake3 files key outputs).1.result = .ok .hit ∧
      (store.checkCached blake3 files key outputs).2 = store) ∨
    Stops store key (store.checkCached blake3 files key outputs) := by
  unfold Store.checkCached
  split_ifs
  · refine .inr ⟨?_, .inr ⟨?_, .inl rfl⟩⟩
    · intro h
      cases h
    · intro path h
      cases h
  · exact checkCachedLoop_cases blake3 files store key outputs

/-! ### Removals -/

/-- Rows after an entry was removed. -/
@[simp]
theorem get_removeEntry (key' : Str) (path : String) :
    (store.removeEntry key).outputs.get (key', path) =
      if key' = key then none else store.outputs.get (key', path) := by
  unfold Store.removeEntry
  dsimp only
  rw [Table.get_delete]
  simp only [decide_eq_true_eq]

/-- Rows after the metadata of an entry lost its trust. -/
@[simp]
theorem get_distrust (key' : Str) (path : String) :
    (store.distrust key).outputs.get (key', path) =
      (store.outputs.get (key', path)).map fun row =>
        if key' = key then { row with size := -1 } else row := by
  unfold Store.distrust
  dsimp only
  rw [Table.get_update]
  simp only [decide_eq_true_eq]

theorem get_of_removeEntries {keys : List Str} {store : Store} {k : Str × String}
    {row : OutputRecord} (h : (Store.removeEntries keys store).2.outputs.get k = some row) :
    store.outputs.get k = some row := by
  induction keys generalizing store with
  | nil => exact h
  | cons key keys ih =>
    rw [Store.removeEntries] at h
    split_ifs at h
    · exact ih h
    · have hrest := ih h
      obtain ⟨_, _⟩ := k
      rw [get_removeEntry] at hrest
      split_ifs at hrest
      exact hrest

theorem get_of_invalidate {outputs : List String} {store : Store} {k : Str × String}
    {row : OutputRecord} (h : (Store.invalidate outputs store).2.outputs.get k = some row) :
    store.outputs.get k = some row := by
  induction outputs generalizing store with
  | nil => exact h
  | cons path outputs ih => exact get_of_removeEntries (ih h)

/-! ### Recordings -/

/-- Supplied hashes are those of the bytes on disk. -/
def Describes (blake3 : List Byte → Str) (files : Files) (hashes : String → Option Str) : Prop :=
  ∀ path hash, hashes path = some hash → hashFile blake3 files path = .ok hash

theorem describes_none : Describes blake3 files fun _ => none := by
  intro path hash h
  cases h

theorem hashOutputs_cons (hashes : String → Option Str) (path : String) (outputs : List String) :
    Store.hashOutputs blake3 files hashes (path :: outputs) =
      match (match hashes path with
        | some hash => Except.ok hash
        | none => hashFile blake3 files path) with
      | .error e => .error e
      | .ok hash =>
        match Store.hashOutputs blake3 files hashes outputs with
        | .error e => .error e
        | .ok others => .ok ((path, hash) :: others) := by
  rw [Store.hashOutputs]
  cases hashes path with
  | none =>
    cases hashFile blake3 files path with
    | error => rfl
    | ok => cases Store.hashOutputs blake3 files hashes outputs <;> rfl
  | some => cases Store.hashOutputs blake3 files hashes outputs <;> rfl

theorem hashOutputs_eq_ok {hashes : String → Option Str} (hdescribes : Describes blake3 files hashes)
    {outputs : List String} {pairs : List (String × Str)}
    (h : Store.hashOutputs blake3 files hashes outputs = .ok pairs) :
    pairs.map Prod.fst = outputs ∧ ∀ e ∈ pairs, hashFile blake3 files e.1 = .ok e.2 := by
  induction outputs generalizing pairs with
  | nil =>
    cases h
    exact ⟨rfl, fun e he => nomatch he⟩
  | cons path outputs ih =>
    rw [hashOutputs_cons] at h
    have hfirst : ∀ hash, (match hashes path with
        | some hash => Except.ok hash
        | none => hashFile blake3 files path) = .ok hash →
        hashFile blake3 files path = .ok hash := by
      intro hash hhash
      cases hsupplied : hashes path with
      | none =>
        rw [hsupplied] at hhash
        exact hhash
      | some =>
        rw [hsupplied] at hhash
        cases hhash
        exact hdescribes path hash hsupplied
    split at h
    · cases h
    · rename_i hash hhash
      split at h
      · cases h
      · rename_i others hothers
        cases h
        obtain ⟨hpaths, hhashes⟩ := ih hothers
        refine ⟨by rw [map_cons, hpaths], ?_⟩
        intro e he
        rcases mem_cons.mp he with rfl | he
        · exact hfirst _ hhash
        · exact hhashes e he

theorem hashOutputs_of_readable (hashes : String → Option Str) {outputs : List String}
    (h : ∀ path ∈ outputs, ∃ hash, hashFile blake3 files path = .ok hash) :
    ∃ pairs, Store.hashOutputs blake3 files hashes outputs = .ok pairs := by
  induction outputs with
  | nil => exact ⟨[], rfl⟩
  | cons path outputs ih =>
    obtain ⟨hash, hhash⟩ := h path mem_cons_self
    obtain ⟨_, hothers⟩ := ih fun q hq => h q (.tail _ hq)
    rw [hashOutputs_cons, hhash, hothers]
    cases hashes path with
    | none | some => exact ⟨_, rfl⟩

/-- The record of an output with its present metadata. -/
def recordOf (node : Node) (hash : Str) : OutputRecord :=
  ⟨hash, toI64 node.mtime, toI64 node.size⟩

theorem insertOutputs_eq_ok {pairs : List (String × Str)}
    {rows rows' : Table (Str × String) OutputRecord}
    (h : Store.insertOutputs files key pairs rows = .ok rows') :
    (∀ k r, rows'.get k = some r → rows.get k = some r ∨
      ∃ e ∈ pairs, ∃ node, k = (key, e.1) ∧ files e.1 = some node ∧ r = recordOf node e.2) ∧
    (∀ k r, rows.get k = some r → rows'.get k = some r) ∧
    (∀ e ∈ pairs, ∃ node, files e.1 = some node ∧
      rows'.get (key, e.1) = some (recordOf node e.2)) := by
  induction pairs generalizing rows with
  | nil =>
    cases h
    exact ⟨fun k r hr => .inl hr, fun k r hr => hr, fun e he => by cases he⟩
  | cons e pairs ih =>
    obtain ⟨path, hash⟩ := e
    rw [Store.insertOutputs] at h
    unfold fileMeta at h
    cases hnode : files path with
    | none =>
      rw [hnode] at h
      cases h
    | some node =>
      rw [hnode] at h
      dsimp only [bind, Except.bind] at h
      cases hinsert : rows.insertNew (key, path) (recordOf node hash) with
      | none =>
        unfold recordOf at hinsert
        rw [hinsert] at h
        cases h
      | some =>
        have hrow := hinsert
        unfold recordOf at hrow
        rw [hrow] at h
        have hget := Table.get_insertNew hinsert
        obtain ⟨hfrom, hkeep, hnew⟩ := ih h
        refine ⟨?_, ?_, ?_⟩
        · intro k r hr
          rcases hfrom k r hr with hold | ⟨e, he, hrow⟩
          · rw [hget] at hold
            split_ifs at hold with hk
            · cases hold
              exact .inr ⟨(path, hash), mem_cons_self, node, hk, hnode, rfl⟩
            · exact .inl hold
          · exact .inr ⟨e, mem_cons_of_mem _ he, hrow⟩
        · intro k r hr
          refine hkeep k r ?_
          rw [hget, if_neg]
          · exact hr
          · rintro rfl
            have htaken := Table.insertNew_eq_none_iff (r := recordOf node hash).mpr
              (by rw [hr]; rfl)
            rw [hinsert] at htaken
            cases htaken
        · intro e he
          rcases mem_cons.mp he with rfl | he
          · refine ⟨node, hnode, hkeep _ _ ?_⟩
            rw [hget, if_pos rfl]
          · exact hnew e he

theorem insertOutputs_of_nodup {pairs : List (String × Str)}
    {rows : Table (Str × String) OutputRecord} (hnodup : (pairs.map Prod.fst).Nodup)
    (hfiles : ∀ e ∈ pairs, ∃ node, files e.1 = some node)
    (hfree : ∀ e ∈ pairs, rows.get (key, e.1) = none) :
    ∃ rows', Store.insertOutputs files key pairs rows = .ok rows' := by
  induction pairs generalizing rows with
  | nil => exact ⟨rows, rfl⟩
  | cons e pairs ih =>
    obtain ⟨path, hash⟩ := e
    obtain ⟨node, hnode⟩ := hfiles (path, hash) mem_cons_self
    obtain ⟨hnotin, hnodup⟩ := nodup_cons.mp hnodup
    have hinsert : ∃ rows₁, rows.insertNew (key, path) (recordOf node hash) = some rows₁ := by
      rw [← Option.isSome_iff_exists, Option.isSome_iff_ne_none]
      intro hnone
      have htaken := Table.insertNew_eq_none_iff.mp hnone
      rw [hfree (path, hash) mem_cons_self] at htaken
      cases htaken
    obtain ⟨rows₁, hrows₁⟩ := hinsert
    have hrest : ∃ rows', Store.insertOutputs files key pairs rows₁ = .ok rows' := by
      refine ih hnodup (fun e he => hfiles e (.tail _ he)) ?_
      intro e he
      rw [Table.get_insertNew hrows₁, if_neg]
      · exact hfree e (.tail _ he)
      · intro heq
        have hpath : e.1 = path := (Prod.mk.inj heq).2
        exact hnotin (mem_map.mpr ⟨e, he, hpath⟩)
    obtain ⟨rows', hrows'⟩ := hrest
    refine ⟨rows', ?_⟩
    rw [Store.insertOutputs]
    unfold fileMeta
    rw [hnode]
    dsimp only [bind, Except.bind]
    unfold recordOf at hrows₁
    rw [hrows₁]
    exact hrows'

theorem recordWithPlatform_cases (store : Store) (files : Files) (key : Str)
    (pairs : List (String × Str)) (entry : Entry) :
    (∃ e, store.recordWithPlatform files key pairs entry = (.error e, store)) ∨
    ∃ store', store.recordWithPlatform files key pairs entry = (.ok (), store') ∧
      store'.entries = store.entries.put key entry ∧
      (∀ k r, store'.outputs.get k = some r → (k.1 ≠ key ∧ store.outputs.get k = some r) ∨
        ∃ e ∈ pairs, ∃ node, k = (key, e.1) ∧ files e.1 = some node ∧ r = recordOf node e.2) ∧
      (∀ k r, k.1 ≠ key → store.outputs.get k = some r → store'.outputs.get k = some r) ∧
      (∀ e ∈ pairs, ∃ node, files e.1 = some node ∧
        store'.outputs.get (key, e.1) = some (recordOf node e.2)) := by
  unfold Store.recordWithPlatform
  cases hrows : Store.insertOutputs files key pairs (store.outputs.delete (·.1 = key)) with
  | error e => exact .inl ⟨e, rfl⟩
  | ok =>
    obtain ⟨hfrom, hkeep, hnew⟩ := insertOutputs_eq_ok hrows
    refine .inr ⟨_, rfl, rfl, ?_, ?_, hnew⟩
    · intro k r hr
      refine (hfrom k r hr).imp_left ?_
      intro hold
      rw [Table.get_delete] at hold
      simp only [decide_eq_true_eq] at hold
      split_ifs at hold with hk
      exact ⟨hk, hold⟩
    · intro k r hk hr
      refine hkeep k r ?_
      rw [Table.get_delete]
      simp only [decide_eq_true_eq]
      rw [if_neg hk]
      exact hr

/-- What a recording of outputs does: nothing when it fails, and otherwise it replaces the
records of its key by the outputs' present metadata and hashes. -/
def Recorded (blake3 : List Byte → Str) (files : Files) (store : Store) (key : Str)
    (outputs : List String) (r : Except CacheError Unit × Store) : Prop :=
  (∃ e, r = (.error e, store)) ∨
    (r.1 = .ok () ∧ ∀ k row, r.2.outputs.get k = some row →
      (k.1 ≠ key ∧ store.outputs.get k = some row) ∨
      (k.1 = key ∧ k.2 ∈ outputs ∧ ∃ node bytes, files k.2 = some node ∧
        node.content = some bytes ∧ row = recordOf node (blake3 bytes)))

theorem recorded_of_hashOutputs {outputs : List String} {entry : Entry} :
    Recorded blake3 files store key outputs
      (match Store.hashOutputs blake3 files (fun _ => none) outputs with
      | .error e => (.error e, store)
      | .ok pairs => store.recordWithPlatform files key pairs entry) := by
  cases hpairs : Store.hashOutputs blake3 files (fun _ => none) outputs with
  | error e => exact .inl ⟨e, rfl⟩
  | ok pairs =>
    obtain ⟨hpaths, hhashes⟩ := hashOutputs_eq_ok describes_none hpairs
    dsimp only
    rcases recordWithPlatform_cases store files key pairs entry with
      ⟨e, he⟩ | ⟨_, hstore', -, hfrom, -, -⟩
    · exact .inl ⟨e, he⟩
    · rw [hstore']
      refine .inr ⟨rfl, ?_⟩
      intro k row hrow
      refine (hfrom k row hrow).imp_right ?_
      rintro ⟨e, he, node, rfl, hnode, rfl⟩
      obtain ⟨_, bytes, hnode', hcontent, hbytes⟩ := hashFile_eq_ok (hhashes e he)
      rw [hnode] at hnode'
      cases hnode'
      refine ⟨rfl, ?_, node, bytes, hnode, hcontent, by rw [hbytes]⟩
      rw [← hpaths]
      exact mem_map_of_mem he

theorem recorded_record (outputs : List String) (entry : Entry) :
    Recorded blake3 files store key outputs (store.record blake3 files key outputs entry) :=
  recorded_of_hashOutputs

theorem recorded_recordAdopted (outputs : List String) (entry : Entry) :
    Recorded blake3 files store key outputs
      (store.recordAdopted blake3 files key outputs entry) :=
  recorded_of_hashOutputs

/-- The outputs of a key are recorded as they are on disk. -/
def HasRecords (blake3 : List Byte → Str) (files : Files) (store : Store) (key : Str)
    (outputs : List String) : Prop :=
  (store.entries.get key).isSome = true ∧
    ∀ path ∈ outputs, ∃ node hash, files path = some node ∧
      hashFile blake3 files path = .ok hash ∧
      store.outputs.get (key, path) = some (recordOf node hash)

variable (store key) in
theorem exists_insertOutputs {hashes : String → Option Str}
    (hdescribes : Describes blake3 files hashes) {outputs : List String} (hnodup : outputs.Nodup)
    (hread : ∀ path ∈ outputs, ∃ hash, hashFile blake3 files path = .ok hash) :
    ∃ pairs rows, Store.hashOutputs blake3 files hashes outputs = .ok pairs ∧
      Store.insertOutputs files key pairs (store.outputs.delete (·.1 = key)) = .ok rows := by
  obtain ⟨pairs, hpairs⟩ := hashOutputs_of_readable hashes hread
  obtain ⟨hpaths, hhashes⟩ := hashOutputs_eq_ok hdescribes hpairs
  have hrows : ∃ rows, Store.insertOutputs files key pairs (store.outputs.delete (·.1 = key)) =
      .ok rows := by
    refine insertOutputs_of_nodup (hpaths ▸ hnodup) ?_ ?_
    · intro e he
      obtain ⟨node, -, hnode, -, -⟩ := hashFile_eq_ok (hhashes e he)
      exact ⟨node, hnode⟩
    · intro e he
      rw [Table.get_delete]
      simp only [decide_true, if_true]
  obtain ⟨rows, hrows⟩ := hrows
  exact ⟨pairs, rows, hpairs, hrows⟩

variable (store key) in
theorem recordWithHashes_spec {hashes : String → Option Str}
    (hdescribes : Describes blake3 files hashes) {outputs : List String} (hnodup : outputs.Nodup)
    (hread : ∀ path ∈ outputs, ∃ hash, hashFile blake3 files path = .ok hash) (entry : Entry) :
    ∃ store', store.recordWithHashes blake3 files key outputs entry hashes = (.ok (), store') ∧
      store' = { store with entries := store'.entries, outputs := store'.outputs } ∧
      (∀ key', key' ≠ key → store'.entries.get key' = store.entries.get key') ∧
      (∀ k r, k.1 ≠ key → store.outputs.get k = some r → store'.outputs.get k = some r) ∧
      (∀ path r, store'.outputs.get (key, path) = some r → path ∈ outputs) ∧
      HasRecords blake3 files store' key outputs := by
  obtain ⟨_, _, hpairs, hrows⟩ := exists_insertOutputs store key hdescribes hnodup hread
  obtain ⟨hpaths, hhashes⟩ := hashOutputs_eq_ok hdescribes hpairs
  obtain ⟨hfrom, hkeep, hnew⟩ := insertOutputs_eq_ok hrows
  unfold Store.recordWithHashes
  rw [hpairs]
  dsimp only
  unfold Store.recordWithPlatform
  rw [hrows]
  refine ⟨_, rfl, rfl, ?_, ?_, ?_, ?_, ?_⟩
  · intro key' hkey'
    rw [Table.get_put, if_neg hkey']
  · intro k r hk hr
    refine hkeep k r ?_
    rw [Table.get_delete]
    simp only [decide_eq_true_eq]
    rw [if_neg hk]
    exact hr
  · intro path r hr
    rcases hfrom (key, path) r hr with hold | ⟨e, he, node, hk, -, -⟩
    · rw [Table.get_delete] at hold
      simp only [decide_true, if_true] at hold
      cases hold
    · obtain ⟨-, rfl⟩ := Prod.mk.inj hk
      rw [← hpaths]
      exact mem_map_of_mem he
  · rw [Table.get_put, if_pos rfl]
    rfl
  · intro path hpath
    rw [← hpaths] at hpath
    obtain ⟨e, he, rfl⟩ := mem_map.mp hpath
    obtain ⟨node, hnode, hrow⟩ := hnew e he
    exact ⟨node, e.2, hnode, hhashes e he, hrow⟩

theorem hit_of_hasRecords {outputs : List String}
    (h : HasRecords blake3 files store key outputs) :
    (store.checkCached blake3 files key outputs).1.result = .ok .hit := by
  obtain ⟨hentry, hrows⟩ := h
  unfold Store.checkCached
  rw [if_neg]
  · induction outputs with
    | nil => rfl
    | cons path outputs ih =>
      have hrest := ih fun q hq => hrows q (.tail _ hq)
      obtain ⟨node, _, hnode, hhash, hrow⟩ := hrows path mem_cons_self
      have hpasses : passes blake3 files store key path ≠ none := by
        unfold passes
        rw [hrow]
        dsimp only
        rw [hnode]
        rw [Option.isNone_some, if_neg Bool.false_ne_true]
        split_ifs with hmeta hbytes
        · exact Option.some_ne_none _
        · exact Option.some_ne_none _
        · intro _
          refine hbytes ⟨?_, hhash⟩
          intro hmode
          refine hmeta ⟨by rw [hmode]; decide, ?_⟩
          unfold mtimeMatches fileMeta recordOf
          rw [hnode]
          dsimp only
          rw [toU64_toI64 node.mtime_lt, toU64_toI64 (node.size_lt.trans (by norm_num))]
          simp only [decide_true, Bool.and_self]
      have hcons := checkCachedLoop_cons blake3 files store key path outputs
      cases hread : passes blake3 files store key path with
      | none => exact absurd hread hpasses
      | some read =>
        rw [hread] at hcons
        cases read with
        | false | true =>
          dsimp only at hcons
          rw [hcons]
          exact hrest
  · rw [Option.isNone_iff_eq_none]
    intro hnone
    rw [hnone] at hentry
    cases hentry

theorem not_hit_of_get_eq_none {outputs : List String} {path : String} (hpath : path ∈ outputs)
    (h : store.outputs.get (key, path) = none) :
    (store.checkCached blake3 files key outputs).1.result ≠ .ok .hit := by
  intro hhit
  obtain ⟨_, hrow, -⟩ := (hit_spec (Lookup.ext hhit rfl)).2 path hpath
  rw [h] at hrow
  cases hrow

end OxyMake.CacheStore
