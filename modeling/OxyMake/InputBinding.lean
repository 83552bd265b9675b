import OxyMake.SchedulerCache

/-!
# Recorded entries and the inputs on disk

In a session the prescan and the scheduler look up and record jobs through one
store, while jobs rewrite files in between. A recorded entry is keyed on the
hashes the store has for the job's tracked files. They are the hashes of the
bytes on disk as long as no file is rewritten with other bytes after its hash was
remembered: a remembered hash is used without looking at the file again.
-/

namespace OxyMake.InputBinding

open List
open KeyedTable CacheKey CacheStore JobCacheKey SchedulerCache

/-- What happens to the store and the files. -/
inductive Operation
  | check (job : Job)
  /-- The scheduler asks for the output hashes last recorded for a job. -/
  | recordedOutputHashes (job : Job)
  | record (job : Job) (completedAt : ℕ) (hashes : OutputHashes)
  /-- Files are written by a job, or by anyone else. -/
  | change (files : Files)
  /-- The next session opens the store. -/
  | reopen

section Run

variable (host : Host) (remote : Option Remote)

/-- Execute an operation; a recording notes what the job was keyed on. -/
def execute (w : World) : Operation → Option CacheKeyComponents × World
  | .check job => (none, (checkWithReason host remote job w).2)
  | .recordedOutputHashes job => (none, (SchedulerCache.recordedOutputHashes host job w).2)
  | .record job completedAt hashes => recordWithHashes host job completedAt hashes w
  | .change files => (none, { w with files })
  | .reopen => (none, { w with store := { w.store with inputMemo := fun _ => none } })

def run : List Operation → World → World
  | [], w => w
  | op :: ops, w => run ops (execute host remote w op).2

def fileStates : List Operation → World → List Files
  | [], w => [w.files]
  | op :: ops, w => w.files :: fileStates ops (execute host remote w op).2

/-- Hash of the bytes a file has on disk. -/
def diskHash (files : Files) (path : String) : Option Str :=
  (hashFile host.blake3 files path).toOption

/-- What a recording writes is keyed on the bytes that the tracked files have on disk. -/
def BindsInputs (w : World) (op : Operation) : Prop :=
  ∀ job completedAt hashes components, op = .record job completedAt hashes →
    (execute host remote w op).1 = some components →
      componentsOf host w.files (diskHash host w.files) job = some components ∧
      (execute host remote w op).2.store.entries.get components.cacheKey =
        some (entryOf host job completedAt components)

/-- Files whose hash is remembered after a step have the bytes they had before it. -/
def Steady (w w' : World) : Prop :=
  ∀ path, (w'.store.inputMemo path).isSome = true →
    (w'.files path).bind Node.content = (w.files path).bind Node.content

/-- Every step of a run leaves the bytes of files with a remembered hash alone. -/
def SteadyRun : List Operation → World → Prop
  | [], _ => True
  | op :: ops, w =>
    Steady w (execute host remote w op).2 ∧ SteadyRun ops (execute host remote w op).2

end Run

/-- A file has other metadata whenever it has other bytes. -/
def MetadataDetermines (states : List Files) : Prop :=
  ∀ files ∈ states, ∀ files' ∈ states, ∀ path node node', files path = some node →
    files' path = some node' → node.mtime = node'.mtime → node.size = node'.size →
      node.content = node'.content

/-! ### What is remembered and stored -/

variable {host : Host} {remote : Option Remote} {seen : List Files} {files : Files}
  {store store' : Store} {w : World}

/-- A stored hash is that of a file that was seen with the stored metadata. -/
def StoredRight (host : Host) (seen : List Files) (store : Store) : Prop :=
  ∀ path row, store.inputHashes.get path = some row → ∃ files ∈ seen, ∃ node,
    files path = some node ∧ toU64 row.mtimeNanos = node.mtime ∧ toU64 row.size = node.size ∧
      hashFile host.blake3 files path = .ok row.contentHash

/-- A remembered hash is that of the file on disk. -/
def RememberedRight (host : Host) (files : Files) (store : Store) : Prop :=
  ∀ path hash, store.inputMemo path = some hash → hashFile host.blake3 files path = .ok hash

/-- What is remembered and stored is right. -/
structure Right (host : Host) (seen : List Files) (files : Files) (store : Store) : Prop where
  stored : StoredRight host seen store
  remembered : RememberedRight host files store

theorem Right.congr (h : Right host seen files store)
    (hmemo : store'.inputMemo = store.inputMemo)
    (hrows : store'.inputHashes = store.inputHashes) : Right host seen files store' := by
  refine ⟨?_, ?_⟩
  · intro path row hrow
    rw [hrows] at hrow
    exact h.stored path row hrow
  · intro path hash hhash
    rw [hmemo] at hhash
    exact h.remembered path hash hhash

theorem hashFile_congr {files files' : Files} {path : String}
    (h : (files' path).bind Node.content = (files path).bind Node.content) :
    hashFile host.blake3 files' path = hashFile host.blake3 files path := by
  unfold hashFile
  rw [h]

theorem hashFile_of_storedHash (hstored : StoredRight host seen store)
    (hdetermines : MetadataDetermines seen) (hfiles : files ∈ seen) {path : String} {node : Node}
    {hash : Str} (hnode : files path = some node)
    (h : store.storedHash path node.mtime node.size = some hash) :
    hashFile host.blake3 files path = .ok hash := by
  unfold Store.storedHash at h
  split at h
  · rename_i row hrow
    split_ifs at h with hmeta
    cases h
    obtain ⟨files', hfiles', node', hnode', hmtime, hsize, hhash⟩ := hstored path row hrow
    have hcontent : node.content = node'.content :=
      hdetermines files hfiles files' hfiles' path node node' hnode hnode'
        (hmeta.1.symm.trans hmtime) (hmeta.2.symm.trans hsize)
    rw [← hhash]
    refine hashFile_congr ?_
    rw [hnode, hnode']
    exact hcontent
  · cases h

theorem right_hashInputCached (h : Right host seen files store)
    (hdetermines : MetadataDetermines seen) (hfiles : files ∈ seen) (path : String) :
    Right host seen files (store.hashInputCached host.blake3 files path).2 ∧
      ∀ hash, (store.hashInputCached host.blake3 files path).1 = .ok hash →
        hashFile host.blake3 files path = .ok hash := by
  rcases hashInputCached_cases host.blake3 files store path with
    ⟨e, he⟩ | ⟨hash, _, hok, hfrom⟩
  · rw [he]
    exact ⟨h, fun hash hhash => nomatch hhash⟩
  · have hdisk : hashFile host.blake3 files path = .ok hash := by
      rcases hfrom with ⟨hmemo, -⟩ | ⟨node, hnode, -, ⟨hstored, -⟩ | ⟨hhash, -⟩⟩
      · exact h.remembered path hash hmemo
      · exact hashFile_of_storedHash h.stored hdetermines hfiles hnode hstored
      · exact hhash
    rw [hok]
    refine ⟨⟨?_, ?_⟩, ?_⟩
    · rcases hfrom with ⟨-, rfl⟩ | ⟨node, hnode, -, ⟨-, rfl⟩ | ⟨-, rfl⟩⟩
      · exact h.stored
      · exact h.stored
      · intro q row hrow
        dsimp only at hrow
        rw [Table.get_put] at hrow
        split_ifs at hrow with hq
        · cases hrow
          subst hq
          exact ⟨files, hfiles, node, hnode, toU64_toI64 node.mtime_lt,
            toU64_toI64 (node.size_lt.trans (by norm_num)), hdisk⟩
        · exact h.stored q row hrow
    · intro q hash' hmemo
      dsimp only at hmemo
      by_cases hq : q = path
      · subst hq
        rw [Function.update_self] at hmemo
        cases hmemo
        exact hdisk
      · rw [Function.update_of_ne hq] at hmemo
        exact h.remembered q hash' hmemo
    · intro hash' hhash'
      cases hhash'
      exact hdisk

theorem inputHash_eq_diskHash (h : Right host seen files store)
    (hdetermines : MetadataDetermines seen) (hfiles : files ∈ seen) :
    store.inputHash host.blake3 files = diskHash host files := by
  funext path
  have hright := (right_hashInputCached h hdetermines hfiles path).2
  unfold Store.inputHash diskHash
  cases hcached : (store.hashInputCached host.blake3 files path).1 with
  | ok hash => rw [hright hash hcached]
  | error =>
    cases hhash : hashFile host.blake3 files path with
    | error => rfl
    | ok =>
      obtain ⟨_, _, hnode, -, -⟩ := hashFile_eq_ok hhash
      unfold Store.hashInputCached fileMeta at hcached
      rw [hnode, hhash] at hcached
      split at hcached
      · cases hcached
      · dsimp only at hcached
        split at hcached
        · cases hcached
        · cases hcached

theorem right_hashInto (h : Right host seen files store)
    (hdetermines : MetadataDetermines seen) (hfiles : files ∈ seen) (paths : List String) :
    Right host seen files (hashInto host files paths store).2 := by
  induction paths generalizing store with
  | nil => exact h
  | cons path rest ih =>
    have hright := (right_hashInputCached h hdetermines hfiles path).1
    rw [hashInto]
    split_ifs with hnone
    · exact h
    · rcases hcached : store.hashInputCached host.blake3 files path with ⟨result, store₁⟩
      rw [hcached] at hright
      cases result with
      | error => exact hright
      | ok =>
        have hrest := ih hright
        rcases hinto : hashInto host files rest store₁ with ⟨pairs, _⟩
        rw [hinto] at hrest
        dsimp only
        rw [hinto]
        cases pairs with
        | none | some => exact hrest

theorem right_jobCacheKeyWithComponents (h : Right host seen files store)
    (hdetermines : MetadataDetermines seen) (hfiles : files ∈ seen) (job : Job) :
    (jobCacheKeyWithComponents host files job store).1 =
        componentsOf host files (diskHash host files) job ∧
      Right host seen files (jobCacheKeyWithComponents host files job store).2 := by
  refine ⟨?_, ?_⟩
  · rw [(jobCacheKeyWithComponents_spec host files job store).1,
      inputHash_eq_diskHash h hdetermines hfiles]
  · have hright := right_hashInto h hdetermines hfiles job.trackedFiles
    unfold jobCacheKeyWithComponents
    rcases hinto : hashInto host files job.trackedFiles store with ⟨pairs, _⟩
    rw [hinto] at hright
    cases pairs with
    | none | some => exact hright

/-! ### One operation -/

theorem Right.checkCached (h : Right host seen files store) (files' : Files) (key : Str)
    (outputs : List String) :
    Right host seen files (store.checkCached host.blake3 files' key outputs).2 := by
  rcases checkCached_cases host.blake3 files' store key outputs with
    ⟨-, hsame⟩ | ⟨-, ⟨_, -, hsame⟩ | ⟨-, hsame | hsame⟩⟩
  · rw [hsame]
    exact h
  · rw [hsame]
    exact h.congr rfl rfl
  · rw [hsame]
    exact h
  · rw [hsame]
    exact h.congr rfl rfl

variable (host remote) in
theorem store_restore (key : Str) (outputs : List String) (w : World) :
    (restore host remote key outputs w).2.store = w.store := by
  unfold restore
  cases remote with
  | none => rfl
  | some remote =>
    dsimp only
    unfold restoreRemoteOutputs
    split_ifs
    · rfl
    · cases outputHashes w.store key with
      | none => rfl
      | some hashes =>
        dsimp only
        rcases fetchOutputs remote hashes outputs w.files with ⟨fetched, _⟩
        cases fetched with
        | false | true => rfl

variable (host files store) in
theorem recordWithHashes_frame (key : Str) (outputs : List String) (entry : Entry)
    (hashes : OutputHashes) :
    (store.recordWithHashes host.blake3 files key outputs entry hashes).2.inputMemo =
        store.inputMemo ∧
      (store.recordWithHashes host.blake3 files key outputs entry hashes).2.inputHashes =
        store.inputHashes ∧
      ((store.recordWithHashes host.blake3 files key outputs entry hashes).1 = .ok () →
        (store.recordWithHashes host.blake3 files key outputs entry hashes).2.entries.get key =
          some { entry with adopted := false }) := by
  unfold Store.recordWithHashes
  cases Store.hashOutputs host.blake3 files hashes outputs with
  | error => exact ⟨rfl, rfl, fun h => nomatch h⟩
  | ok pairs =>
    dsimp only
    unfold Store.recordWithPlatform
    cases Store.insertOutputs files key pairs (store.outputs.delete (·.1 = key)) with
    | error => exact ⟨rfl, rfl, fun h => nomatch h⟩
    | ok =>
      refine ⟨rfl, rfl, fun _ => ?_⟩
      dsimp only
      rw [Table.get_put, if_pos rfl]

theorem right_recordJob (h : Right host seen files store)
    (hdetermines : MetadataDetermines seen) (hfiles : files ∈ seen) (job : Job) (completedAt : ℕ)
    (hashes : OutputHashes) :
    Right host seen files (recordJob host files job completedAt hashes store).2 ∧
      ∀ components, (recordJob host files job completedAt hashes store).1 = some components →
        componentsOf host files (diskHash host files) job = some components ∧
        (recordJob host files job completedAt hashes store).2.entries.get components.cacheKey =
          some (entryOf host job completedAt components) := by
  obtain ⟨hkey, hright⟩ := right_jobCacheKeyWithComponents h hdetermines hfiles job
  unfold recordJob
  rcases hcall : jobCacheKeyWithComponents host files job store with ⟨noted, store₁⟩
  rw [hcall] at hkey hright
  cases noted with
  | none => exact ⟨hright, fun components hnone => nomatch hnone⟩
  | some keyed =>
    obtain ⟨hmemo, hrows, hentry⟩ := recordWithHashes_frame host files store₁ keyed.cacheKey
      job.outputFilePaths (entryOf host job completedAt keyed) hashes
    dsimp only
    rcases hrecord : store₁.recordWithHashes host.blake3 files keyed.cacheKey job.outputFilePaths
      (entryOf host job completedAt keyed) hashes with ⟨result, store₂⟩
    rw [hrecord] at hmemo hrows hentry
    have hright₂ : Right host seen files store₂ := hright.congr hmemo hrows
    cases result with
    | error => exact ⟨hright₂, fun components hnone => nomatch hnone⟩
    | ok =>
      refine ⟨hright₂, ?_⟩
      intro components hsome
      cases hsome
      exact ⟨hkey.symm, hentry rfl⟩

theorem right_checkWithReason (h : Right host seen w.files w.store)
    (hdetermines : MetadataDetermines seen) (hfiles : w.files ∈ seen) (job : Job) :
    Right host seen w.files (checkWithReason host remote job w).2.store := by
  have hright := (right_jobCacheKeyWithComponents h hdetermines hfiles job).2
  unfold checkWithReason
  split_ifs
  · exact h
  · exact h
  · rcases hcall : jobCacheKeyWithComponents host w.files job w.store with ⟨noted, store₁⟩
    rw [hcall] at hright
    cases noted with
    | none => exact hright
    | some components =>
      have hstore := store_restore host remote components.cacheKey job.outputFilePaths
        { w with store := store₁ }
      dsimp only
      rcases hrestore : restore host remote components.cacheKey job.outputFilePaths
        { w with store := store₁ } with ⟨restored, w₁⟩
      rw [hrestore] at hstore
      dsimp only at hstore
      have hright₁ : Right host seen w.files w₁.store := by
        rw [hstore]
        exact hright
      cases restored with
      | true => exact hright₁
      | false => exact hright₁.checkCached w₁.files components.cacheKey job.outputFilePaths

variable (remote) in
theorem right_execute (h : Right host seen w.files w.store)
    (hdetermines : MetadataDetermines seen) (hfiles : w.files ∈ seen) (op : Operation) :
    Right host seen w.files (execute host remote w op).2.store := by
  cases op with
  | check job => exact right_checkWithReason h hdetermines hfiles job
  | recordedOutputHashes job =>
    have hright := (right_jobCacheKeyWithComponents h hdetermines hfiles job).2
    rw [execute]
    dsimp only
    unfold SchedulerCache.recordedOutputHashes
    split_ifs
    · exact h
    · exact h
    · rcases hcall : jobCacheKeyWithComponents host w.files job w.store with ⟨noted, _⟩
      rw [hcall] at hright
      cases noted with
      | none | some => exact hright
  | record job completedAt hashes =>
    have hright := (right_recordJob h hdetermines hfiles job completedAt hashes).1
    rw [execute]
    unfold recordWithHashes
    split_ifs
    · exact h
    · exact h
    · exact hright
  | change => exact h
  | reopen => exact ⟨h.stored, fun path hash hnone => nomatch hnone⟩

theorem Right.steady {w' : World} (h : Right host seen w.files w'.store) (hsteady : Steady w w') :
    Right host (w'.files :: seen) w'.files w'.store := by
  refine ⟨?_, ?_⟩
  · intro path row hrow
    obtain ⟨files, hfiles, hseen⟩ := h.stored path row hrow
    exact ⟨files, mem_cons_of_mem _ hfiles, hseen⟩
  · intro path hash hmemo
    have hsame := hsteady path (by rw [hmemo]; rfl)
    rw [hashFile_congr hsame]
    exact h.remembered path hash hmemo

theorem bindsInputs_of_right (h : Right host seen w.files w.store)
    (hdetermines : MetadataDetermines seen) (hfiles : w.files ∈ seen) (op : Operation) :
    BindsInputs host remote w op := by
  rintro job completedAt hashes components rfl hnoted
  have hright := (right_recordJob h hdetermines hfiles job completedAt hashes).2
  rw [execute] at hnoted ⊢
  unfold recordWithHashes at hnoted ⊢
  split_ifs at hnoted ⊢
  exact hright components hnoted

/-! ### Runs -/

theorem MetadataDetermines.mono {states states' : List Files} (h : MetadataDetermines states)
    (hsub : states' ⊆ states) : MetadataDetermines states' :=
  fun files hfiles files' hfiles' => h files (hsub hfiles) files' (hsub hfiles')

theorem files_mem_fileStates (ops : List Operation) (w : World) :
    w.files ∈ fileStates host remote ops w := by
  cases ops with
  | nil | cons => exact mem_cons_self

theorem bindsInputs_of_steadyRun {ops : List Operation} (h : Right host seen w.files w.store)
    (hfiles : w.files ∈ seen)
    (hdetermines : MetadataDetermines (seen ++ fileStates host remote ops w))
    (hsteady : SteadyRun host remote ops w) {before after : List Operation} {op : Operation}
    (hops : ops = before ++ op :: after) :
    BindsInputs host remote (run host remote before w) op := by
  induction before generalizing ops w seen with
  | nil =>
    exact bindsInputs_of_right h (hdetermines.mono (subset_append_left _ _)) hfiles op
  | cons first before ih =>
    rw [cons_append] at hops
    subst hops
    obtain ⟨hstep, hrest⟩ := hsteady
    have hright := right_execute remote h (hdetermines.mono (subset_append_left _ _)) hfiles
      first
    refine ih (hright.steady hstep) mem_cons_self ?_ hrest rfl
    refine hdetermines.mono ?_
    intro files hmem
    rw [fileStates]
    rcases mem_append.mp hmem with hmem | hmem
    · rcases mem_cons.mp hmem with rfl | hmem
      · exact mem_append_right _ (.tail _ (files_mem_fileStates _ _))
      · exact mem_append_left _ hmem
    · exact mem_append_right _ (.tail _ hmem)

/-- In every run, over any number of sessions, that rewrites no file with other bytes once its hash
is remembered in the session, every recorded entry is keyed on the bytes that the job's tracked
files have on disk when it is recorded. -/
theorem recorded_inputs_on_disk (host : Host) (remote : Option Remote)
    (validation : CacheValidation) (files : Files) (ops : List Operation)
    (hdetermines : MetadataDetermines
      (fileStates host remote ops ⟨Store.open validation, files⟩))
    (hsteady : SteadyRun host remote ops ⟨Store.open validation, files⟩) :
    ∀ before op after, ops = before ++ op :: after →
      BindsInputs host remote (run host remote before ⟨Store.open validation, files⟩) op := by
  intro before op after hops
  have hright : Right host [files] files (Store.open validation) := by
    refine ⟨?_, ?_⟩
    · intro path row hnone
      cases hnone
    · intro path hash hnone
      cases hnone
  refine bindsInputs_of_steadyRun hright mem_cons_self ?_ hsteady hops
  refine hdetermines.mono ?_
  intro files' hmem
  rcases mem_append.mp hmem with hmem | hmem
  · rw [mem_singleton.mp hmem]
    exact files_mem_fileStates ops _
  · exact hmem

/-! ### A rewritten input -/

theorem files_execute (w : World) (op : Operation) :
    (execute host none w op).2.files =
      match op with
      | .change files => files
      | _ => w.files := by
  cases op with
  | check job =>
    rw [execute]
    dsimp only
    unfold checkWithReason
    split_ifs
    · rfl
    · rfl
    · rcases jobCacheKeyWithComponents host w.files job w.store with ⟨noted, store₁⟩
      cases noted with
      | none | some => rfl
  | recordedOutputHashes job =>
    rw [execute]
    dsimp only
    unfold SchedulerCache.recordedOutputHashes
    split_ifs
    · rfl
    · rfl
    · rcases jobCacheKeyWithComponents host w.files job w.store with ⟨noted, store₁⟩
      cases noted with
      | none | some => rfl
  | record =>
    rw [execute]
    unfold recordWithHashes
    split_ifs
    · rfl
    · rfl
    · rfl
  | change | reopen => rfl

def oneByteFile (mtime : Fin 16) (byte : Byte) : Node :=
  ⟨mtime, 1, some [byte], mtime.isLt.trans (by decide), one_bounded⟩

/-- The files of a job that reads `f` and writes `o`. -/
def tree (f o : Node) : Files := fun path =>
  if path = "f" then some f else if path = "o" then some o else none

def produce : Job := shellJob "touch f" none "f"

def consume : Job := shellJob "cp f o" (some "f") "o"

def noHashes : OutputHashes := fun _ => none

/-- A file system in which bytes and times go together. -/
def Stamped (files : Files) : Prop :=
  ∀ path node, files path = some node →
    node.content = some [if node.mtime ≤ 2 then 0 else 1]

theorem stamped_tree {f o : Node} (hf : f.content = some [if f.mtime ≤ 2 then 0 else 1])
    (ho : o.content = some [if o.mtime ≤ 2 then 0 else 1]) : Stamped (tree f o) := by
  intro path node hnode
  unfold tree at hnode
  split_ifs at hnode
  · cases hnode
    exact hf
  · cases hnode
    exact ho

theorem metadataDetermines_of_stamped {states : List Files}
    (h : ∀ files ∈ states, Stamped files) : MetadataDetermines states := by
  intro files hfiles files' hfiles' path node node' hnode hnode' hmtime _
  rw [h files hfiles path node hnode, h files' hfiles' path node' hnode', hmtime]

def start : World := ⟨Store.open .mtimeHash, tree (oneByteFile 1 0) (oneByteFile 2 0)⟩

def unforced : List Operation :=
  [.check consume, .change (tree (oneByteFile 1 0) (oneByteFile 4 1)), .record consume 1 noHashes]

theorem memo_check_consume :
    (execute firstBytesHost none start (.check consume)).2.store.inputMemo "o" = none := by
  decide

theorem steadyRun_unforced : SteadyRun firstBytesHost none unforced start := by
  refine ⟨?_, ?_, ?_, trivial⟩
  · intro path _
    rw [files_execute]
  · intro path hsome
    rw [files_execute]
    dsimp only
    rw [files_execute]
    dsimp only
    by_cases hpath : path = "o"
    · subst hpath
      change ((execute firstBytesHost none start (.check consume)).2.store.inputMemo "o").isSome =
        true at hsome
      rw [memo_check_consume] at hsome
      cases hsome
    · simp only [tree, start, hpath, if_false]
  · intro path _
    rw [files_execute]

/-- The recording of that job is keyed on the bytes on disk. -/
theorem recorded_inputs_on_disk_unforced :
    BindsInputs firstBytesHost none
      (run firstBytesHost none
        [.check consume, .change (tree (oneByteFile 1 0) (oneByteFile 4 1))] start)
      (.record consume 1 noHashes) := by
  have hdetermines : MetadataDetermines (fileStates firstBytesHost none unforced start) := by
    refine metadataDetermines_of_stamped ?_
    simp only [unforced, fileStates, files_execute, forall_mem_cons]
    refine ⟨stamped_tree rfl rfl, stamped_tree rfl rfl, stamped_tree rfl rfl, stamped_tree rfl rfl,
      ?_⟩
    intro files hfiles
    cases hfiles
  exact recorded_inputs_on_disk firstBytesHost none .mtimeHash _ unforced hdetermines
    steadyRun_unforced
    [.check consume, .change (tree (oneByteFile 1 0) (oneByteFile 4 1))] _ [] rfl

/-- Both jobs are recorded in a first session. In a second one both are checked, the first job is
run again and writes other bytes, and then the second one is run again. -/
def forced : List Operation :=
  [.record produce 0 noHashes, .record consume 0 noHashes, .reopen, .check produce,
    .check consume, .change (tree (oneByteFile 3 1) (oneByteFile 2 0)),
    .record produce 1 noHashes, .change (tree (oneByteFile 3 1) (oneByteFile 4 1))]

-- The prescan of the second session checks both jobs and finds them up to date.
example :
    (determineExecution firstBytesHost none (fun id => if id = "a" then produce else consume)
      (fun id => if id = "a" then ["b"] else []) ["a", "b"]
      (run firstBytesHost none (forced.take 3) start)).1.map (fun d => (d.1, d.2.toBool)) =
        [("a", true), ("b", true)] := by
  decide

theorem noted_forced :
    (execute firstBytesHost none (run firstBytesHost none forced start)
      (.record consume 1 noHashes)).1.map CacheKeyComponents.inputHashes =
        some [(firstBytes (ascii "f"), firstBytes [0])] := by
  decide +kernel

theorem components_forced :
    (componentsOf firstBytesHost (tree (oneByteFile 3 1) (oneByteFile 4 1))
      (diskHash firstBytesHost (tree (oneByteFile 3 1) (oneByteFile 4 1))) consume).map
        CacheKeyComponents.inputHashes = some [(firstBytes (ascii "f"), firstBytes [1])] := by
  decide +kernel

/-- A forced job rewrites an input whose hash is remembered from the prescan, and its consumer is
recorded under the old hash. -/
theorem not_recorded_inputs_forced :
    MetadataDetermines (fileStates firstBytesHost none (forced ++ [.record consume 1 noHashes])
        start) ∧
      ¬ BindsInputs firstBytesHost none (run firstBytesHost none forced start)
        (.record consume 1 noHashes) := by
  refine ⟨?_, ?_⟩
  · refine metadataDetermines_of_stamped ?_
    simp only [forced, cons_append, nil_append, fileStates, files_execute,
      forall_mem_cons]
    refine ⟨stamped_tree rfl rfl, stamped_tree rfl rfl, stamped_tree rfl rfl, stamped_tree rfl rfl,
      stamped_tree rfl rfl, stamped_tree rfl rfl, stamped_tree rfl rfl, stamped_tree rfl rfl,
      stamped_tree rfl rfl, stamped_tree rfl rfl, ?_⟩
    intro files hfiles
    cases hfiles
  · intro h
    obtain ⟨components, hcomponents, hhashes⟩ := Option.map_eq_some_iff.mp noted_forced
    have hdisk := (h consume 1 noHashes components rfl hcomponents).1
    have hfiles : (run firstBytesHost none forced start).files =
        tree (oneByteFile 3 1) (oneByteFile 4 1) := by
      simp only [forced, run, files_execute]
    rw [hfiles] at hdisk
    have hnew := components_forced
    rw [hdisk, Option.map_some, hhashes] at hnew
    exact absurd hnew (by decide)

end OxyMake.InputBinding
