import OxyMake.SchedulerCache

/-!
# Rebuilding without a change

Every job of a set is recorded once, in some order, and then checked under its
own key while no file changes. A recording replaces all output records of its
key, and the key says nothing about the outputs: the jobs are all hits, whatever
the order, exactly when no two of them that have outputs share the ingredients
of their keys.
-/

namespace OxyMake.NoOpRebuild

open List
open CacheKey CacheStore JobCacheKey SchedulerCache

/-- A job to be recorded. -/
structure Completed where
  job : Job
  completedAt : ℕ
  hashes : OutputHashes

def Completed.outputs (done : Completed) : List String := done.job.outputFilePaths

section Rebuild

variable (host : Host) (files : Files)

def recordJobs : List Completed → Store → Store
  | [], store => store
  | done :: rest, store =>
    recordJobs rest (recordJob host files done.job done.completedAt done.hashes store).2

def checkJob (job : Job) (store : Store) : Option (Except CacheError CacheHitStatus) :=
  match jobCacheKeyWithComponents host files job store with
  | (none, _) => none
  | (some components, store) =>
    some (store.checkCached host.blake3 files components.cacheKey job.outputFilePaths).1.result

/-- What is assumed of the jobs: distinct outputs that can be read, a key, and right hashes. -/
structure Ready (store : Store) (jobs : List Completed) : Prop where
  distinct : (jobs.flatMap Completed.outputs).Nodup
  /-- Every output exists and can be read. -/
  readable : ∀ done ∈ jobs, ∀ path ∈ done.outputs,
    ∃ hash, hashFile host.blake3 files path = .ok hash
  keyed : ∀ done ∈ jobs, (jobCacheKeyWithComponents host files done.job store).1.isSome = true
  /-- Supplied hashes describe the bytes on disk. -/
  described : ∀ done ∈ jobs, Describes host.blake3 files done.hashes

/-- The ingredients of a job's key are those of another's. -/
def Alike (store : Store) (a b : Job) : Prop :=
  ∃ pa pb, (hashInto host files a.trackedFiles store).1 = some pa ∧
    (hashInto host files b.trackedFiles store).1 = some pb ∧
    SameIngredients (cacheKeySpec host files a pa) (cacheKeySpec host files b pb)

/-- The hash function has no collision among the keys of the jobs. -/
def CollisionFree (store : Store) (jobs : List Completed) : Prop :=
  ∀ a ∈ jobs, ∀ b ∈ jobs, ∀ pa pb,
    (hashInto host files a.job.trackedFiles store).1 = some pa →
    (hashInto host files b.job.trackedFiles store).1 = some pb →
    host.blake3 (keyStream (cacheKeySpec host files a.job pa)) =
      host.blake3 (keyStream (cacheKeySpec host files b.job pb)) →
    keyStream (cacheKeySpec host files a.job pa) = keyStream (cacheKeySpec host files b.job pb)

end Rebuild

variable {host : Host} {files : Files} {store : Store}

/-! ### One recording -/

/-- A job can be recorded under the key it has with the given hashes of files. -/
structure Recordable (host : Host) (files : Files) (hashOf : String → Option Str)
    (done : Completed) (key : Str) : Prop where
  distinct : done.outputs.Nodup
  readable : ∀ path ∈ done.outputs, ∃ hash, hashFile host.blake3 files path = .ok hash
  keyed : ∃ components, componentsOf host files hashOf done.job = some components ∧
    components.cacheKey = key
  described : Describes host.blake3 files done.hashes

theorem recordJob_spec {done : Completed} {key : Str}
    (h : Recordable host files (store.inputHash host.blake3 files) done key) :
    ∃ store', (recordJob host files done.job done.completedAt done.hashes store).2 = store' ∧
      store'.inputHash host.blake3 files = store.inputHash host.blake3 files ∧
      (∀ key', key' ≠ key → store'.entries.get key' = store.entries.get key') ∧
      (∀ k r, k.1 ≠ key → store.outputs.get k = some r → store'.outputs.get k = some r) ∧
      (∀ path r, store'.outputs.get (key, path) = some r → path ∈ done.outputs) ∧
      HasRecords host.blake3 files store' key done.outputs := by
  obtain ⟨components, hcomponents, rfl⟩ := h.keyed
  obtain ⟨hkey, hagrees⟩ := jobCacheKeyWithComponents_spec host files done.job store
  rw [hcomponents] at hkey
  unfold recordJob
  rcases hcall : jobCacheKeyWithComponents host files done.job store with ⟨_, store₁⟩
  rw [hcall] at hkey hagrees
  dsimp only at hkey hagrees
  subst hkey
  obtain ⟨store', hok, hframe, hentries, hkeep, honly, hrecords⟩ :=
    recordWithHashes_spec store₁ components.cacheKey h.described h.distinct h.readable
      (entryOf host done.job done.completedAt components)
  have hview : store'.inputHash host.blake3 files = store.inputHash host.blake3 files := by
    funext path
    rw [← hagrees.inputHash path]
    exact inputHash_congr (by rw [hframe]) (by rw [hframe])
  rw [hagrees.entries] at hentries
  rw [hagrees.outputs] at hkeep
  dsimp only
  rw [show done.job.outputFilePaths = done.outputs from rfl, hok]
  exact ⟨store', rfl, hview, hentries, hkeep, honly, hrecords⟩

theorem hasRecords_recordJob {done : Completed} {key key' : Str} {outputs : List String}
    (hdone : Recordable host files (store.inputHash host.blake3 files) done key)
    (h : HasRecords host.blake3 files store key' outputs) (hkeys : key' = key → outputs = []) :
    HasRecords host.blake3 files
      (recordJob host files done.job done.completedAt done.hashes store).2 key' outputs := by
  obtain ⟨_, hstore', -, hentries, hkeep, -, hown⟩ := recordJob_spec hdone
  rw [hstore']
  by_cases hkey : key' = key
  · rw [hkeys hkey, hkey]
    exact ⟨hown.1, fun path hpath => nomatch hpath⟩
  · refine ⟨?_, ?_⟩
    · rw [hentries key' hkey]
      exact h.1
    · intro path hpath
      obtain ⟨node, hash, hnode, hhash, hrow⟩ := h.2 path hpath
      exact ⟨node, hash, hnode, hhash, hkeep (key', path) _ hkey hrow⟩

/-! ### All recordings -/

/-- Every job can be recorded under the key assigned to it. -/
abbrev AllRecordable (host : Host) (files : Files) (hashOf : String → Option Str)
    (keyOf : Completed → Str) (jobs : List Completed) : Prop :=
  ∀ done ∈ jobs, Recordable host files hashOf done (keyOf done)

theorem inputHash_recordJobs {keyOf : Completed → Str} {jobs : List Completed} {store : Store}
    (h : AllRecordable host files (store.inputHash host.blake3 files) keyOf jobs) :
    (recordJobs host files jobs store).inputHash host.blake3 files =
      store.inputHash host.blake3 files := by
  induction jobs generalizing store with
  | nil => rfl
  | cons done rest ih =>
    obtain ⟨_, hstore', hview, -⟩ := recordJob_spec (h done mem_cons_self)
    rw [recordJobs, hstore', ih, hview]
    rw [hview]
    exact fun other hother => h other (.tail _ hother)

theorem hasRecords_recordJobs {keyOf : Completed → Str} {jobs : List Completed} {store : Store}
    {key : Str} {outputs : List String}
    (hjobs : AllRecordable host files (store.inputHash host.blake3 files) keyOf jobs)
    (h : HasRecords host.blake3 files store key outputs)
    (hkeys : ∀ done ∈ jobs, key = keyOf done → outputs = []) :
    HasRecords host.blake3 files (recordJobs host files jobs store) key outputs := by
  induction jobs generalizing store with
  | nil => exact h
  | cons done rest ih =>
    have hdone := hjobs done mem_cons_self
    have hkept := hasRecords_recordJob hdone h (hkeys done mem_cons_self)
    obtain ⟨_, hstore', hview, -⟩ := recordJob_spec hdone
    rw [hstore'] at hkept
    rw [recordJobs, hstore']
    refine ih ?_ hkept fun other hother => hkeys other (.tail _ hother)
    rw [hview]
    exact fun other hother => hjobs other (.tail _ hother)

theorem hasRecords_of_pairwise {keyOf : Completed → Str} {jobs : List Completed} {store : Store}
    (hjobs : AllRecordable host files (store.inputHash host.blake3 files) keyOf jobs)
    (hkeys : jobs.Pairwise fun a b => keyOf a = keyOf b → a.outputs = []) :
    ∀ done ∈ jobs, HasRecords host.blake3 files (recordJobs host files jobs store) (keyOf done)
      done.outputs := by
  induction jobs generalizing store with
  | nil => exact fun done hdone => nomatch hdone
  | cons first rest ih =>
    obtain ⟨hfirst, hrest⟩ := pairwise_cons.mp hkeys
    obtain ⟨store', hstore', hview, -, -, -, hown⟩ :=
      recordJob_spec (hjobs first mem_cons_self)
    have hlater : AllRecordable host files (store'.inputHash host.blake3 files) keyOf rest := by
      rw [hview]
      exact fun other hother => hjobs other (.tail _ hother)
    intro done hdone
    rw [recordJobs, hstore']
    rcases mem_cons.mp hdone with rfl | hdone
    · exact hasRecords_recordJobs hlater hown hfirst
    · exact ih hlater hrest done hdone

theorem get_recordJobs_append {keyOf : Completed → Str} {jobs : List Completed} {last : Completed}
    {store : Store}
    (hjobs : AllRecordable host files (store.inputHash host.blake3 files) keyOf (jobs ++ [last]))
    {path : String} (hpath : path ∉ last.outputs) :
    (recordJobs host files (jobs ++ [last]) store).outputs.get (keyOf last, path) = none := by
  induction jobs generalizing store with
  | nil =>
    obtain ⟨store', hstore', -, -, -, honly, -⟩ :=
      recordJob_spec (hjobs last mem_cons_self)
    rw [nil_append, recordJobs, recordJobs, hstore', Option.eq_none_iff_forall_ne_some]
    intro row hrow
    exact hpath (honly path row hrow)
  | cons first rest ih =>
    obtain ⟨store', hstore', hview, -⟩ := recordJob_spec (hjobs first mem_cons_self)
    rw [cons_append, recordJobs, hstore']
    refine ih ?_
    rw [hview]
    exact fun other hother => hjobs other (.tail _ hother)

/-! ### Keys -/

def keyIn (host : Host) (files : Files) (store : Store) (done : Completed) : Str :=
  match componentsOf host files (store.inputHash host.blake3 files) done.job with
  | some components => components.cacheKey
  | none => ⟨[], nil_bounded⟩

theorem allRecordable_of_ready {jobs : List Completed} (h : Ready host files store jobs) :
    AllRecordable host files (store.inputHash host.blake3 files)
      (keyIn host files store) jobs := by
  intro done hdone
  have hkey := h.keyed done hdone
  rw [(jobCacheKeyWithComponents_spec host files done.job store).1] at hkey
  obtain ⟨components, hcomponents⟩ := Option.isSome_iff_exists.mp hkey
  refine ⟨(nodup_flatMap.mp h.distinct).1 done hdone, h.readable done hdone,
    ⟨components, hcomponents, ?_⟩, h.described done hdone⟩
  unfold keyIn
  rw [hcomponents]

theorem keyIn_eq {done : Completed} {pairs : Pairs done.job.trackedFiles.length}
    (h : (hashInto host files done.job.trackedFiles store).1 = some pairs) :
    keyIn host files store done =
      host.blake3 (keyStream (cacheKeySpec host files done.job pairs)) := by
  rw [(hashInto_spec host files done.job.trackedFiles store).1] at h
  unfold keyIn componentsOf
  rw [h]
  rfl

theorem keyIn_eq_of_alike {a b : Completed} (h : Alike host files store a.job b.job) :
    keyIn host files store a = keyIn host files store b := by
  obtain ⟨_, _, hpa, hpb, hsame⟩ := h
  rw [keyIn_eq hpa, keyIn_eq hpb, keyStream_eq_of_sameIngredients hsame]

theorem exists_pairs {jobs : List Completed} (h : Ready host files store jobs) {done : Completed}
    (hdone : done ∈ jobs) :
    ∃ pairs, (hashInto host files done.job.trackedFiles store).1 = some pairs := by
  have hkey := h.keyed done hdone
  unfold jobCacheKeyWithComponents at hkey
  rcases hcall : hashInto host files done.job.trackedFiles store with ⟨noted, _⟩
  rw [hcall] at hkey
  cases noted with
  | none => cases hkey
  | some pairs => exact ⟨pairs, rfl⟩

theorem alike_of_keyIn_eq {jobs : List Completed} (hready : Ready host files store jobs)
    (hcollision : CollisionFree host files store jobs) {a b : Completed} (ha : a ∈ jobs)
    (hb : b ∈ jobs)
    (h : keyIn host files store a = keyIn host files store b) :
    Alike host files store a.job b.job := by
  obtain ⟨pa, hpa⟩ := exists_pairs hready ha
  obtain ⟨pb, hpb⟩ := exists_pairs hready hb
  rw [keyIn_eq hpa, keyIn_eq hpb] at h
  exact ⟨pa, pb, hpa, hpb, sameIngredients_of_keyStream_eq (hcollision a ha b hb pa pb hpa hpb h)⟩

/-! ### Checks -/

theorem checkJob_spec {done : Completed} {key : Str}
    (h : Recordable host files (store.inputHash host.blake3 files) done key) :
    ∃ store' : Store, store'.entries = store.entries ∧ store'.outputs = store.outputs ∧
      checkJob host files done.job store =
        some (store'.checkCached host.blake3 files key done.outputs).1.result := by
  obtain ⟨_, hcomponents, rfl⟩ := h.keyed
  obtain ⟨hkey, hagrees⟩ := jobCacheKeyWithComponents_spec host files done.job store
  rw [hcomponents] at hkey
  unfold checkJob
  rcases hcall : jobCacheKeyWithComponents host files done.job store with ⟨_, store'⟩
  rw [hcall] at hkey hagrees
  dsimp only at hkey hagrees
  subst hkey
  exact ⟨store', hagrees.entries, hagrees.outputs, rfl⟩

theorem checkJob_eq_hit {done : Completed} {key : Str}
    (h : Recordable host files (store.inputHash host.blake3 files) done key)
    (hrecords : HasRecords host.blake3 files store key done.outputs) :
    checkJob host files done.job store = some (.ok .hit) := by
  obtain ⟨_, hentries, houtputs, hcheck⟩ := checkJob_spec h
  rw [hcheck, hit_of_hasRecords]
  unfold HasRecords
  rw [hentries, houtputs]
  exact hrecords

theorem checkJob_ne_hit {done : Completed} {key : Str} {path : String}
    (h : Recordable host files (store.inputHash host.blake3 files) done key)
    (hpath : path ∈ done.outputs) (hnone : store.outputs.get (key, path) = none) :
    checkJob host files done.job store ≠ some (.ok .hit) := by
  obtain ⟨_, -, houtputs, hcheck⟩ := checkJob_spec h
  rw [hcheck]
  intro hhit
  refine not_hit_of_get_eq_none hpath ?_ (Option.some.inj hhit)
  rw [houtputs]
  exact hnone

/-! ### The rebuild -/

/-- Every job is a hit after all were recorded, whatever the order. -/
def AllHit (host : Host) (files : Files) (store : Store) (jobs : List Completed) : Prop :=
  ∀ order : List Completed, order.Perm jobs → ∀ done ∈ jobs,
    checkJob host files done.job (recordJobs host files order store) = some (.ok .hit)

theorem allHit_of_pairwise {jobs : List Completed} (hready : Ready host files store jobs)
    (hkeys : jobs.Pairwise fun a b =>
      keyIn host files store a = keyIn host files store b → a.outputs = [] ∧ b.outputs = []) :
    AllHit host files store jobs := by
  intro order horder done hdone
  have hall := allRecordable_of_ready hready
  have horderAll : AllRecordable host files (store.inputHash host.blake3 files)
      (keyIn host files store) order :=
    fun other hother => hall other (horder.mem_iff.mp hother)
  have hsymm : ∀ {a b : Completed},
      (keyIn host files store a = keyIn host files store b →
          a.outputs = [] ∧ b.outputs = []) →
      keyIn host files store b = keyIn host files store a →
          b.outputs = [] ∧ a.outputs = [] :=
    fun h hkey => (h hkey.symm).symm
  have hpairwise := (horder.pairwise_iff hsymm).mpr hkeys
  have hrecords := hasRecords_of_pairwise horderAll
    (hpairwise.imp fun h hkey => (h hkey).1) done (horder.mem_iff.mpr hdone)
  refine checkJob_eq_hit ?_ hrecords
  rw [inputHash_recordJobs horderAll]
  exact hall done hdone

theorem outputs_eq_nil_of_allHit {jobs rest : List Completed} {a b : Completed}
    (hready : Ready host files store jobs) (hperm : (rest ++ [a] ++ [b]).Perm jobs)
    (hkey : keyIn host files store a = keyIn host files store b)
    (hdisjoint : List.Disjoint a.outputs b.outputs) (h : AllHit host files store jobs) :
    a.outputs = [] := by
  rw [eq_nil_iff_forall_not_mem]
  intro path hpath
  have hall := allRecordable_of_ready hready
  have horderAll : AllRecordable host files (store.inputHash host.blake3 files)
      (keyIn host files store) (rest ++ [a] ++ [b]) :=
    fun other hother => hall other (hperm.mem_iff.mp hother)
  have ha : a ∈ jobs := by
    refine hperm.mem_iff.mp (mem_append_left _ (mem_append_right _ ?_))
    exact mem_singleton_self a
  have hnone := get_recordJobs_append horderAll (hdisjoint hpath)
  rw [← hkey] at hnone
  refine checkJob_ne_hit ?_ hpath hnone (h _ hperm a ha)
  rw [inputHash_recordJobs horderAll]
  exact hall a ha

theorem pairwise_of_allHit {jobs : List Completed} (hready : Ready host files store jobs)
    (h : AllHit host files store jobs) :
    jobs.Pairwise fun a b =>
      keyIn host files store a = keyIn host files store b →
          a.outputs = [] ∧ b.outputs = [] := by
  rw [pairwise_iff_forall_sublist]
  intro a b hsub hkey
  have hpair := (nodup_flatMap.mp hready.distinct).2.sublist hsub
  have hdisjoint : List.Disjoint a.outputs b.outputs :=
    (pairwise_cons.mp hpair).1 b mem_cons_self
  obtain ⟨rest, hrest⟩ := hsub.exists_perm_append
  have hab : (rest ++ [a] ++ [b]).Perm jobs := by
    rw [append_assoc]
    exact perm_append_comm.trans hrest.symm
  have hba : (rest ++ [b] ++ [a]).Perm jobs := by
    refine List.Perm.trans ?_ hab
    rw [append_assoc, append_assoc]
    exact List.Perm.append_left rest (List.Perm.swap a b [])
  exact ⟨outputs_eq_nil_of_allHit hready hab hkey hdisjoint h,
    outputs_eq_nil_of_allHit hready hba hkey.symm (fun _ hb ha => hdisjoint ha hb) h⟩

/-- After recording every job once and changing no file, all jobs are hits in every order exactly
when no two jobs share the ingredients of their keys, apart from jobs without outputs. -/
theorem allHit_iff (host : Host) (files : Files) (store : Store) (jobs : List Completed)
    (hready : Ready host files store jobs) (hcollision : CollisionFree host files store jobs) :
    AllHit host files store jobs ↔
      jobs.Pairwise fun a b => Alike host files store a.job b.job →
        a.outputs = [] ∧ b.outputs = [] := by
  constructor
  · intro h
    exact (pairwise_of_allHit hready h).imp fun hkeys halike => hkeys (keyIn_eq_of_alike halike)
  · intro h
    refine allHit_of_pairwise hready ?_
    refine h.imp_of_mem ?_
    intro a b ha hb halike hkey
    exact halike (alike_of_keyIn_eq hready hcollision ha hb hkey)

/-! ### Two jobs -/

/-- A completed shell job without inputs that has one output. -/
def touched (command output : String) : Completed :=
  ⟨shellJob command none output, 0, fun _ => none⟩

def emptyFiles : Files := fun _ => some ⟨0, 0, some [], zero_bounded, by decide⟩

theorem ready_touched (command command' : String) {output output' : String}
    (h : output ≠ output') :
    Ready firstBytesHost emptyFiles (Store.open .mtimeHash)
      [touched command output, touched command' output'] := by
  refine ⟨?_, ?_, ?_, ?_⟩
  · change [output, output'].Nodup
    simp [h]
  · intro done hdone path hpath
    exact ⟨_, rfl⟩
  · intro done hdone
    rcases mem_cons.mp hdone with rfl | hdone
    · rfl
    · rw [mem_singleton.mp hdone]
      rfl
  · intro done hdone path hash hsome
    rcases mem_cons.mp hdone with rfl | hdone
    · cases hsome
    · rw [mem_singleton.mp hdone] at hsome
      cases hsome

theorem key_touch_ne :
    firstBytes (keyStream (cacheKeySpec firstBytesHost emptyFiles (touched "touch x" "x").job
        ⟨[], rfl⟩)) ≠
      firstBytes (keyStream (cacheKeySpec firstBytesHost emptyFiles (touched "touch y" "y").job
        ⟨[], rfl⟩)) := by
  intro h
  have hbytes := congrArg (fun key : Str => key.bytes[97]?) h
  revert hbytes
  decide

/-- Two jobs with different commands and outputs are hits in every order. -/
theorem allHit_touch :
    AllHit firstBytesHost emptyFiles (Store.open .mtimeHash)
      [touched "touch x" "x", touched "touch y" "y"] := by
  have hready := ready_touched "touch x" "touch y" (by decide : "x" ≠ "y")
  have hcollision : CollisionFree firstBytesHost emptyFiles (Store.open .mtimeHash)
      [touched "touch x" "x", touched "touch y" "y"] := by
    intro a ha b hb pa pb hpa hpb hkey
    simp only [mem_cons, not_mem_nil, or_false] at ha hb
    rcases ha with rfl | rfl <;> rcases hb with rfl | rfl <;> cases hpa <;> cases hpb
    · rfl
    · exact absurd hkey key_touch_ne
    · exact absurd hkey.symm key_touch_ne
    · rfl
  refine (allHit_iff _ _ _ _ hready hcollision).mpr ?_
  rw [pairwise_pair]
  rintro ⟨pa, pb, hpa, hpb, hsame⟩
  cases hpa
  cases hpb
  exact absurd (congrArg firstBytes (keyStream_eq_of_sameIngredients hsame)) key_touch_ne

/-- Two jobs with one command and different outputs overwrite each other's records. -/
theorem not_allHit_shared :
    Ready firstBytesHost emptyFiles (Store.open .mtimeHash)
        [touched "touch x y" "x", touched "touch x y" "y"] ∧
      ¬ AllHit firstBytesHost emptyFiles (Store.open .mtimeHash)
        [touched "touch x y" "x", touched "touch x y" "y"] := by
  have hready := ready_touched "touch x y" "touch x y" (by decide : "x" ≠ "y")
  refine ⟨hready, ?_⟩
  intro h
  have hpair := (pairwise_cons.mp (pairwise_of_allHit hready h)).1 _ mem_cons_self rfl
  cases hpair.1

end OxyMake.NoOpRebuild
