import OxyMake.CacheRecords

/-!
# Soundness of cache hits

A history of the store is a sequence of recordings, lookups, removals and
changes of the file system. Every output record comes from the last recording of
its key, and its size is the one recorded unless a check has reported a missing
output of the key since. A hit is then sound as far as equal metadata means
unchanged bytes, and after a missing output it has read every listed output.
-/

namespace OxyMake.CacheSoundness

open List
open CacheKey CacheStore

/-- An operation on the store, or a change of the file system. A recording with supplied hashes,
which must describe the bytes on disk, is that of `record`. -/
inductive Operation
  | record (key : Str) (outputs : List String) (entry : Entry)
  | recordAdopted (key : Str) (outputs : List String) (entry : Entry)
  | checkCached (key : Str) (outputs : List String)
  | isCached (key : Str) (outputs : List String)
  | invalidate (outputs : List String)
  | removeOrphans
  | change (files : Files)

inductive Answer
  | recorded (result : Except CacheError Unit)
  | status (lookup : Lookup CacheHitStatus)
  | cached (lookup : Lookup Bool)
  | removed (count : ℕ)
  | changed

/-- The store and the file system. -/
structure World where
  store : Store
  files : Files

/-- An operation, where it was executed and what it returned. -/
structure Event where
  operation : Operation
  before : World
  answer : Answer

section History

variable (blake3 : List Byte → Str)

def execute (w : World) : Operation → Answer × World
  | .record key outputs entry =>
    let (result, store) := w.store.record blake3 w.files key outputs entry
    (.recorded result, { w with store := store })
  | .recordAdopted key outputs entry =>
    let (result, store) := w.store.recordAdopted blake3 w.files key outputs entry
    (.recorded result, { w with store := store })
  | .checkCached key outputs =>
    let (lookup, store) := w.store.checkCached blake3 w.files key outputs
    (.status lookup, { w with store := store })
  | .isCached key outputs => (.cached (w.store.isCached blake3 w.files key outputs), w)
  | .invalidate outputs =>
    let (count, store) := Store.invalidate outputs w.store
    (.removed count, { w with store := store })
  | .removeOrphans =>
    let (count, store) := w.store.removeOrphans w.files
    (.removed count, { w with store := store })
  | .change files => (.changed, { w with files := files })

def history : List Operation → World → List Event × World
  | [], w => ([], w)
  | operation :: operations, w =>
    let (answer, w') := execute blake3 w operation
    let (log, w'') := history operations w'
    (⟨operation, w, answer⟩ :: log, w'')

end History

def Records (e : Event) (key : Str) (outputs : List String) : Prop :=
  (∃ entry, e.operation = .record key outputs entry ∨
    e.operation = .recordAdopted key outputs entry) ∧ e.answer = .recorded (.ok ())

/-- The event is a check that reported a missing output of a key. -/
def ReportsMissing (e : Event) (key : Str) : Prop :=
  ∃ outputs lookup path, e.operation = .checkCached key outputs ∧ e.answer = .status lookup ∧
    lookup.result = .ok (.outputMissing path)

/-- The event is a lookup of outputs under a key that is a hit after reading some of them. -/
def Hits (e : Event) (key : Str) (outputs hashed : List String) : Prop :=
  (e.operation = .checkCached key outputs ∧ e.answer = .status ⟨.ok .hit, hashed⟩) ∨
    (e.operation = .isCached key outputs ∧ e.answer = .cached ⟨.ok true, hashed⟩)

/-- The key whose records an operation may replace or stop trusting. -/
def Operation.target : Operation → Option Str
  | .record key _ _ => some key
  | .recordAdopted key _ _ => some key
  | .checkCached key _ => some key
  | _ => none

theorem Records.target {e : Event} {key : Str} {outputs : List String}
    (h : Records e key outputs) : e.operation.target = some key := by
  obtain ⟨⟨_, hop | hop⟩, -⟩ := h
  · rw [hop]
    rfl
  · rw [hop]
    rfl

theorem ReportsMissing.target {e : Event} {key : Str} (h : ReportsMissing e key) :
    e.operation.target = some key := by
  obtain ⟨_, _, _, hop, -, -⟩ := h
  rw [hop]
  rfl

theorem ReportsMissing.not_records {e : Event} {key key' : Str} {outputs : List String}
    (h : ReportsMissing e key) : ¬ Records e key' outputs := by
  obtain ⟨_, _, _, -, hanswer, -⟩ := h
  rintro ⟨-, hrecorded⟩
  rw [hanswer] at hrecorded
  cases hrecorded

def Unrecorded (log : List Event) (key : Str) : Prop :=
  ∀ e ∈ log, ∀ outputs, ¬ Records e key outputs

/-- Equal modification time and size mean equal bytes, between the last recording of an output
and a later event, as long as a condition holds of what happened in between. -/
def Unchanged (since : List Event → Str → String → Prop) (log : List Event) : Prop :=
  ∀ earlier r during e later key outputs path node node',
    log = earlier ++ r :: (during ++ e :: later) → Records r key outputs → path ∈ outputs →
    Unrecorded during key → since during key path →
    r.before.files path = some node → e.before.files path = some node' →
    node'.mtime = node.mtime → node'.size = node.size → node'.content = node.content

def StaysPresent (during : List Event) (_ : Str) (path : String) : Prop :=
  ∀ e ∈ during, (e.before.files path).isSome = true

/-- No check reported a missing output of the key. -/
def Unreported (during : List Event) (key : Str) (_ : String) : Prop :=
  ∀ e ∈ during, ¬ ReportsMissing e key

/-- The hash that was recorded last for an output under a key. -/
def LastRecorded (blake3 : List Byte → Str) (log : List Event) (key : Str) (path : String)
    (hash : Str) : Prop :=
  ∃ earlier r later outputs node bytes, log = earlier ++ r :: later ∧ Records r key outputs ∧
    path ∈ outputs ∧ Unrecorded later key ∧ r.before.files path = some node ∧
    node.content = some bytes ∧ blake3 bytes = hash

/-- Every hit has an entry, and every listed output exists with bytes of the hash recorded last
for it. -/
def HitsSound (blake3 : List Byte → Str) (log : List Event) : Prop :=
  ∀ earlier e later key outputs hashed, log = earlier ++ e :: later →
    Hits e key outputs hashed → (e.before.store.entries.get key).isSome = true ∧
      ∀ path ∈ outputs, ∃ node bytes, e.before.files path = some node ∧
        node.content = some bytes ∧ LastRecorded blake3 earlier key path (blake3 bytes)

/-- Every hit after a missing output was reported and before the next recording has read every
listed output. -/
def RereadAfterMissing (log : List Event) : Prop :=
  ∀ earlier c during e later key outputs hashed,
    log = earlier ++ c :: (during ++ e :: later) → ReportsMissing c key →
    Unrecorded during key → Hits e key outputs hashed → outputs ⊆ hashed

/-- The read-only lookup answers true exactly when the check would answer a hit. -/
def LookupsAgree (blake3 : List Byte → Str) (w : World) : Prop :=
  ∀ key outputs, (w.store.isCached blake3 w.files key outputs).result = .ok true ↔
    (w.store.checkCached blake3 w.files key outputs).1.result = .ok .hit

/-- Where an output record comes from: the last recording of its key, with the metadata at that
time unless it is not trusted any more. -/
def Tracked (blake3 : List Byte → Str) (log : List Event) (key : Str) (path : String)
    (row : OutputRecord) : Prop :=
  ∃ earlier r later outputs node bytes, log = earlier ++ r :: later ∧ Records r key outputs ∧
    path ∈ outputs ∧ Unrecorded later key ∧ r.before.files path = some node ∧
    node.content = some bytes ∧ blake3 bytes = row.contentHash ∧
    (row.size = -1 ∨ (row.mtimeSecs = toI64 node.mtime ∧ row.size = toI64 node.size ∧
      Unreported later key path))

def Consistent (blake3 : List Byte → Str) (log : List Event) (w : World) : Prop :=
  ∀ key path row, w.store.outputs.get (key, path) = some row → Tracked blake3 log key path row

section Steps

variable {blake3 : List Byte → Str} {log : List Event} {w : World}

theorem Unrecorded.snoc {key : Str} (h : Unrecorded log key) {e : Event}
    (he : ∀ outputs, ¬ Records e key outputs) : Unrecorded (log ++ [e]) key := by
  intro e' he'
  rcases mem_append.mp he' with he' | he'
  · exact h e' he'
  · rw [mem_singleton.mp he']
    exact he

theorem Tracked.snoc {key : Str} {path : String} {row : OutputRecord}
    (h : Tracked blake3 log key path row) {e : Event} (he : ∀ outputs, ¬ Records e key outputs)
    (hreport : ¬ ReportsMissing e key) : Tracked blake3 (log ++ [e]) key path row := by
  obtain ⟨earlier, r, later, outputs, node, bytes, rfl, hr, hpath, hlater, hnode, hcontent, hhash,
    hsize⟩ := h
  refine ⟨earlier, r, later ++ [e], outputs, node, bytes, ?_, hr, hpath, hlater.snoc he, hnode,
    hcontent, hhash, ?_⟩
  · rw [append_assoc, cons_append]
  · refine hsize.imp_right ?_
    rintro ⟨hmtime, hsize, hunreported⟩
    refine ⟨hmtime, hsize, ?_⟩
    intro e' he'
    rcases mem_append.mp he' with he' | he'
    · exact hunreported e' he'
    · rw [mem_singleton.mp he']
      exact hreport

theorem Tracked.distrust {key : Str} {path : String} {row : OutputRecord}
    (h : Tracked blake3 log key path row) {e : Event} (he : ∀ outputs, ¬ Records e key outputs) :
    Tracked blake3 (log ++ [e]) key path { row with size := -1 } := by
  obtain ⟨earlier, r, later, outputs, node, bytes, rfl, hr, hpath, hlater, hnode, hcontent, hhash,
    -⟩ := h
  refine ⟨earlier, r, later ++ [e], outputs, node, bytes, ?_, hr, hpath, hlater.snoc he, hnode,
    hcontent, hhash, .inl rfl⟩
  rw [append_assoc, cons_append]

theorem tracked_of_records {key : Str} {outputs : List String} {path : String} {e : Event}
    {node : Node} {bytes : List Byte} (he : Records e key outputs) (hpath : path ∈ outputs)
    (hnode : e.before.files path = some node) (hcontent : node.content = some bytes) :
    Tracked blake3 (log ++ [e]) key path (recordOf node (blake3 bytes)) := by
  refine ⟨log, e, [], outputs, node, bytes, rfl, he, hpath, ?_, hnode, hcontent, rfl,
    .inr ⟨rfl, rfl, ?_⟩⟩
  · intro e' he'
    cases he'
  · intro e' he'
    cases he'

theorem Tracked.of_target_ne {key : Str} {path : String} {row : OutputRecord}
    (h : Tracked blake3 log key path row) {e : Event} (he : e.operation.target ≠ some key) :
    Tracked blake3 (log ++ [e]) key path row :=
  h.snoc (fun _ hrecords => he hrecords.target) fun hreports => he hreports.target

theorem Consistent.keep (h : Consistent blake3 log w) {w' : World} {e : Event}
    (he : e.operation.target = none)
    (hfrom : ∀ k row, w'.store.outputs.get k = some row → w.store.outputs.get k = some row) :
    Consistent blake3 (log ++ [e]) w' := by
  intro key path row hrow
  refine (h key path row (hfrom _ row hrow)).of_target_ne ?_
  rw [he]
  exact (Option.some_ne_none key).symm

theorem Consistent.recorded (h : Consistent blake3 log w) {operation : Operation} {key : Str}
    {outputs : List String} {r : Except CacheError Unit × Store}
    (hr : Recorded blake3 w.files w.store key outputs r)
    (hoperation : ∃ entry, operation = .record key outputs entry ∨
      operation = .recordAdopted key outputs entry) :
    Consistent blake3 (log ++ [⟨operation, w, .recorded r.1⟩]) { w with store := r.2 } := by
  rcases hr with ⟨_, rfl⟩ | ⟨hok, hfrom⟩
  · intro key' path row hrow
    refine (h key' path row hrow).snoc ?_ ?_
    · rintro outputs' ⟨-, hok⟩
      cases hok
    · rintro ⟨outputs', _, _, -, hanswer, -⟩
      cases hanswer
  · have hrecords : Records ⟨operation, w, .recorded r.1⟩ key outputs :=
      ⟨hoperation, congrArg Answer.recorded hok⟩
    intro key' path row hrow
    rcases hfrom (key', path) row hrow with ⟨hne, hold⟩ | ⟨hkey, hpath, _, _, hnode,
      hcontent, rfl⟩
    · refine (h key' path row hold).of_target_ne ?_
      rw [hrecords.target]
      exact fun heq => hne (Option.some.inj heq).symm
    · dsimp only at hkey hpath hnode
      subst hkey
      exact tracked_of_records hrecords hpath hnode hcontent

theorem Consistent.check (h : Consistent blake3 log w) (key : Str) (outputs : List String) :
    Consistent blake3 (log ++ [⟨.checkCached key outputs, w,
        .status (w.store.checkCached blake3 w.files key outputs).1⟩])
      { w with store := (w.store.checkCached blake3 w.files key outputs).2 } := by
  have hrecords : ∀ key' outputs', ¬ Records ⟨.checkCached key outputs, w,
      .status (w.store.checkCached blake3 w.files key outputs).1⟩ key' outputs' := by
    rintro key' outputs' ⟨-, hanswer⟩
    cases hanswer
  rcases checkCached_cases blake3 w.files w.store key outputs with ⟨hhit, hstore⟩ | ⟨-, hstops⟩
  · rw [hstore]
    intro key' path row hrow
    refine (h key' path row hrow).snoc (hrecords key') ?_
    rintro ⟨outputs', lookup, path', -, hanswer, hresult⟩
    cases hanswer
    rw [hhit] at hresult
    cases hresult
  · rcases hstops with ⟨path, -, hstore⟩ | ⟨hother, hstore⟩
    · rw [hstore]
      intro key' path' row hrow
      dsimp only at hrow
      rw [get_distrust, Option.map_eq_some_iff] at hrow
      obtain ⟨row', hold, rfl⟩ := hrow
      split_ifs with hkey
      · exact (h key' path' row' hold).distrust (hrecords key')
      · exact (h key' path' row' hold).of_target_ne fun heq => hkey (Option.some.inj heq).symm
    · intro key' path row hrow
      refine Tracked.snoc (h key' path row ?_) (hrecords key') ?_
      · rcases hstore with hstore | hstore
        · rw [hstore] at hrow
          exact hrow
        · rw [hstore] at hrow
          dsimp only at hrow
          rw [get_removeEntry] at hrow
          split_ifs at hrow
          exact hrow
      · rintro ⟨outputs', lookup, path', -, hanswer, hresult⟩
        cases hanswer
        exact hother path' hresult

theorem Consistent.execute (h : Consistent blake3 log w) (operation : Operation) :
    Consistent blake3 (log ++ [⟨operation, w, (execute blake3 w operation).1⟩])
      (execute blake3 w operation).2 := by
  cases operation with
  | record key outputs entry => exact h.recorded (recorded_record outputs entry) ⟨entry, .inl rfl⟩
  | recordAdopted key outputs entry =>
    exact h.recorded (recorded_recordAdopted outputs entry) ⟨entry, .inr rfl⟩
  | checkCached key outputs => exact h.check key outputs
  | isCached | change => exact h.keep rfl fun k row hrow => hrow
  | invalidate => exact h.keep rfl fun k row hrow => get_of_invalidate hrow
  | removeOrphans => exact h.keep rfl fun k row hrow => get_of_removeEntries hrow

theorem Consistent.history (h : Consistent blake3 log w) {operations : List Operation}
    {earlier later : List Event} {e : Event}
    (hlog : (history blake3 operations w).1 = earlier ++ e :: later) :
    Consistent blake3 (log ++ earlier) e.before ∧
      e.answer = (CacheSoundness.execute blake3 e.before e.operation).1 := by
  induction operations generalizing log w earlier with
  | nil =>
    cases earlier with
    | nil | cons => cases hlog
  | cons operation operations ih =>
    rw [CacheSoundness.history] at hlog
    dsimp only at hlog
    cases earlier with
    | nil =>
      obtain ⟨rfl, -⟩ := cons_eq_cons.mp hlog
      rw [append_nil]
      exact ⟨h, rfl⟩
    | cons =>
      obtain ⟨rfl, hrest⟩ := cons_eq_cons.mp hlog
      have hnext := ih (h.execute operation) hrest
      rw [append_assoc] at hnext
      exact hnext

end Steps

section Hits

variable {blake3 : List Byte → Str} {validation : CacheValidation} {files : Files}
  {operations : List Operation}

/-- The log of a history from a fresh store. -/
def logOf (blake3 : List Byte → Str) (validation : CacheValidation) (files : Files)
    (operations : List Operation) : List Event :=
  (history blake3 operations ⟨Store.open validation, files⟩).1

theorem consistent_logOf {earlier later : List Event} {e : Event}
    (hlog : logOf blake3 validation files operations = earlier ++ e :: later) :
    Consistent blake3 earlier e.before ∧
      e.answer = (CacheSoundness.execute blake3 e.before e.operation).1 := by
  have hstart : Consistent blake3 [] ⟨Store.open validation, files⟩ := by
    intro key path row hrow
    cases hrow
  exact hstart.history hlog

theorem Hits.checkCached {e : Event} {key : Str} {outputs hashed : List String}
    (h : Hits e key outputs hashed)
    (hanswer : e.answer = (CacheSoundness.execute blake3 e.before e.operation).1) :
    (e.before.store.checkCached blake3 e.before.files key outputs).1 = ⟨.ok .hit, hashed⟩ := by
  rcases h with ⟨hop, hhit⟩ | ⟨hop, hhit⟩
  · rw [hhit, hop] at hanswer
    exact (Answer.status.inj hanswer).symm
  · rw [hhit, hop] at hanswer
    exact (isCached_eq_iff blake3 _ _ key outputs hashed).mp (Answer.cached.inj hanswer).symm

theorem Tracked.trusted {log : List Event} {key : Str} {path : String} {row : OutputRecord}
    {node : Node} (h : Tracked blake3 log key path row) (hmtime : node.mtime = toU64 row.mtimeSecs)
    (hsize : node.size = toU64 row.size) :
    ∃ earlier r later outputs node' bytes, log = earlier ++ r :: later ∧ Records r key outputs ∧
      path ∈ outputs ∧ Unrecorded later key ∧ Unreported later key path ∧
      r.before.files path = some node' ∧ node'.content = some bytes ∧
      node.mtime = node'.mtime ∧ node.size = node'.size := by
  obtain ⟨earlier, r, later, outputs, node', bytes, hlog, hr, hpath, hlater, hnode', hcontent, -,
    huntrusted | ⟨hmtime', hsize', hunreported⟩⟩ := h
  · rw [huntrusted] at hsize
    have hlt := node.size_lt
    have huntrusted := lt_toU64_neg_one
    omega
  · refine ⟨earlier, r, later, outputs, node', bytes, hlog, hr, hpath, hlater, hunreported, hnode',
      hcontent, ?_, ?_⟩
    · rw [hmtime, hmtime', toU64_toI64 node'.mtime_lt]
    · rw [hsize, hsize', toU64_toI64 (node'.size_lt.trans (by decide))]

theorem hitsSound_of_unchanged
    (hunchanged : Unchanged Unreported (logOf blake3 validation files operations)) :
    HitsSound blake3 (logOf blake3 validation files operations) := by
  intro earlier e later key outputs hashed hlog hhits
  obtain ⟨hconsistent, hanswer⟩ := consistent_logOf hlog
  obtain ⟨hentry, hvalidated⟩ := hit_spec (hhits.checkCached hanswer)
  refine ⟨hentry, ?_⟩
  intro path hpath
  obtain ⟨row, hrow, hvalid⟩ := hvalidated path hpath
  have htracked := hconsistent key path row hrow
  rcases hvalid with ⟨node, hnode, hmtime, hsize⟩ | ⟨-, node, bytes, hnode, hcontent, hhash⟩
  · obtain ⟨earlier', r, during, outputs', node', bytes, rfl, hr, hpath', hduring, hunreported,
      hnode', hcontent', hmtime', hsize'⟩ := htracked.trusted hmtime hsize
    have hsame : node.content = node'.content := by
      refine hunchanged earlier' r during e later key outputs' path node' node ?_ hr hpath' hduring
        hunreported hnode' hnode hmtime' hsize'
      rw [hlog, append_assoc, cons_append]
    exact ⟨node, bytes, hnode, hsame.trans hcontent', earlier', r, during, outputs', node', bytes,
      rfl, hr, hpath', hduring, hnode', hcontent', rfl⟩
  · obtain ⟨earlier', r, during, outputs', node', bytes', hsplit, hr, hpath', hduring, hnode',
      hcontent', hhash', -⟩ := htracked
    exact ⟨node, bytes, hnode, hcontent, earlier', r, during, outputs', node', bytes', hsplit, hr,
      hpath', hduring, hnode', hcontent', hhash'.trans hhash.symm⟩

theorem split_cases {α : Type} {a b c d : List α} {x y : α} (h : a ++ x :: b = c ++ y :: d) :
    y ∈ b ∨ x = y ∨ x ∈ d := by
  rcases append_eq_append_iff.mp h with ⟨t, -, ht⟩ | ⟨t, -, ht⟩
  · cases t with
    | nil => exact .inr (.inl (cons_eq_cons.mp ht).1)
    | cons =>
      obtain ⟨-, hb⟩ := cons_eq_cons.mp ht
      rw [hb]
      exact .inl (mem_append_right _ mem_cons_self)
  · cases t with
    | nil => exact .inr (.inl (cons_eq_cons.mp ht).1.symm)
    | cons =>
      obtain ⟨-, hd⟩ := cons_eq_cons.mp ht
      rw [hd]
      exact .inr (.inr (mem_append_right _ mem_cons_self))

theorem rereadAfterMissing (blake3 : List Byte → Str) (validation : CacheValidation)
    (files : Files) (operations : List Operation) :
    RereadAfterMissing (logOf blake3 validation files operations) := by
  intro earlier c during e later key outputs hashed hlog hmissing hduring hhits path hpath
  have hsplit : logOf blake3 validation files operations =
      (earlier ++ c :: during) ++ e :: later := by
    rw [hlog, append_assoc, cons_append]
  obtain ⟨hconsistent, hanswer⟩ := consistent_logOf hsplit
  obtain ⟨row, hrow, hvalid⟩ := (hit_spec (hhits.checkCached hanswer)).2 path hpath
  rcases hvalid with ⟨_, -, hmtime, hsize⟩ | ⟨hhashed, -⟩
  · obtain ⟨_, r, _, outputs', _, _, hlog', hr, -, -, hunreported, -⟩ :=
      (hconsistent key path row hrow).trusted hmtime hsize
    rcases split_cases hlog' with hmem | heq | hmem
    · exact absurd hr (hduring r hmem outputs')
    · subst heq
      exact absurd hr hmissing.not_records
    · exact absurd hmissing (hunreported c hmem)
  · exact hhashed

end Hits

/-- In every history of the store the hits are sound, provided that equal metadata means
unchanged bytes as long as no check has reported a missing output of the key; a hit after such
a report has read every listed output; and the two lookups agree in every state reached. -/
theorem hit_sound (blake3 : List Byte → Str) (validation : CacheValidation) (files : Files)
    (operations : List Operation) :
    (Unchanged Unreported (logOf blake3 validation files operations) →
      HitsSound blake3 (logOf blake3 validation files operations)) ∧
    RereadAfterMissing (logOf blake3 validation files operations) ∧
    LookupsAgree blake3 (history blake3 operations ⟨Store.open validation, files⟩).2 := by
  refine ⟨hitsSound_of_unchanged, rereadAfterMissing blake3 validation files operations, ?_⟩
  intro key outputs
  exact isCached_result_iff blake3 _ _ key outputs

/-- A hash function that tells the bytes `0` and `1` apart. -/
def firstByte (bytes : List Byte) : Str :=
  ⟨bytes.take 1, (length_take_le _ _).trans_lt (by decide)⟩

def oneByte (byte : Byte) : Node := ⟨5, 1, some [byte], by decide, one_bounded⟩

def oneFile (byte : Byte) : Files := fun path => if path = "out" then some (oneByte byte) else none

def emptyKey : Str := ⟨[], nil_bounded⟩

def recordEvent : Event :=
  ⟨.record emptyKey ["out"] ⟨0, none, emptyKey, .any, false⟩,
    ⟨Store.open .mtimeHash, oneFile 0⟩, .recorded (.ok ())⟩

def hitEvent : Event :=
  ⟨.checkCached emptyKey ["out"], (execute firstByte recordEvent.before recordEvent.operation).2,
    .status ⟨.ok .hit, []⟩⟩

/-- The hit on an output that has been recorded is sound. -/
theorem hit_sound_recorded : ∃ node bytes, oneFile 0 "out" = some node ∧
    node.content = some bytes ∧
      LastRecorded firstByte [recordEvent] emptyKey "out" (firstByte bytes) := by
  have hlog : logOf firstByte .mtimeHash (oneFile 0) [recordEvent.operation, hitEvent.operation] =
      [recordEvent, hitEvent] := rfl
  have hfiles : ∀ e ∈ [recordEvent, hitEvent], e.before.files = oneFile 0 := by
    intro e he
    rcases List.mem_pair.mp he with rfl | rfl <;> rfl
  obtain ⟨hsound, -, -⟩ := hit_sound firstByte .mtimeHash (oneFile 0)
    [recordEvent.operation, hitEvent.operation]
  rw [hlog] at hsound
  have hhits := hsound ?_ [recordEvent] hitEvent [] emptyKey ["out"] [] rfl (.inl ⟨rfl, rfl⟩)
  · exact hhits.2 "out" mem_cons_self
  · intro earlier r during e later _ _ path node node' hsplit _ _ _ _ hnode hnode' _ _
    have hr : r ∈ [recordEvent, hitEvent] := by simp [hsplit]
    have he : e ∈ [recordEvent, hitEvent] := by simp [hsplit]
    rw [hfiles r hr] at hnode
    rw [hfiles e he, hnode] at hnode'
    rw [Option.some.inj hnode']

def deleteEvent : Event :=
  ⟨.change fun _ => none, (execute firstByte recordEvent.before recordEvent.operation).2, .changed⟩

/-- The output is restored with another byte and the old metadata. -/
def restoreEvent : Event :=
  ⟨.change (oneFile 1), { deleteEvent.before with files := fun _ => none }, .changed⟩

def checkEvent : Event :=
  ⟨.checkCached emptyKey ["out"], { deleteEvent.before with files := oneFile 1 },
    .status ⟨.ok .hit, []⟩⟩

/-- An output is recorded, deleted, and restored with another byte and the old metadata before it
is checked. -/
def restored : List Operation :=
  [recordEvent.operation, deleteEvent.operation, restoreEvent.operation, checkEvent.operation]

theorem logOf_restored : logOf firstByte .mtimeHash (oneFile 0) restored =
    [recordEvent, deleteEvent, restoreEvent, checkEvent] := rfl

theorem records_restored {earlier later : List Event} {r : Event} {key : Str}
    {outputs : List String}
    (hlog : [recordEvent, deleteEvent, restoreEvent, checkEvent] = earlier ++ r :: later)
    (hr : Records r key outputs) :
    r = recordEvent ∧ later = [deleteEvent, restoreEvent, checkEvent] := by
  cases earlier with
  | nil =>
    obtain ⟨hhead, htail⟩ := cons_eq_cons.mp hlog
    exact ⟨hhead.symm, htail.symm⟩
  | cons =>
    obtain ⟨-, hrest⟩ := cons_eq_cons.mp hlog
    have hmem : r ∈ [deleteEvent, restoreEvent, checkEvent] := by
      rw [hrest]
      exact mem_append_right _ mem_cons_self
    obtain ⟨-, hanswer⟩ := hr
    simp only [mem_cons, not_mem_nil, or_false] at hmem
    rcases hmem with rfl | rfl | rfl
    · cases hanswer
    · cases hanswer
    · cases hanswer

theorem unchanged_restored :
    Unchanged StaysPresent (logOf firstByte .mtimeHash (oneFile 0) restored) := by
  intro earlier r during e later key outputs path node node' hlog hr _ _ hpresent hnode hnode' _ _
  rw [logOf_restored] at hlog
  obtain ⟨rfl, hrest⟩ := records_restored hlog hr
  cases during with
  | nil =>
    obtain ⟨rfl, -⟩ := cons_eq_cons.mp hrest
    have hsame : recordEvent.before.files path = some node' := hnode'
    rw [hnode] at hsame
    cases hsame
    rfl
  | cons a during =>
    obtain ⟨-, hrest₂⟩ := cons_eq_cons.mp hrest
    cases during with
    | nil =>
      obtain ⟨rfl, -⟩ := cons_eq_cons.mp hrest₂
      cases hnode'
    | cons =>
      obtain ⟨rfl, -⟩ := cons_eq_cons.mp hrest₂
      cases hpresent restoreEvent (.tail _ (.head _))

/-- The output did not stay present, so nothing is assumed of it, and the check is a hit. -/
theorem not_hit_sound_restored :
    ¬ ∀ (blake3 : List Byte → Str) (files : Files) (operations : List Operation),
      Unchanged StaysPresent (logOf blake3 .mtimeHash files operations) →
        HitsSound blake3 (logOf blake3 .mtimeHash files operations) := by
  intro h
  have hsound := h firstByte (oneFile 0) restored unchanged_restored
    [recordEvent, deleteEvent, restoreEvent] checkEvent [] emptyKey ["out"] [] logOf_restored
    (.inl ⟨rfl, rfl⟩)
  obtain ⟨_, _, hnode, hcontent, earlier, r, later, _, _, _, hlog, hr, -, -,
    hnode', hcontent', hhash⟩ := hsound.2 "out" mem_cons_self
  have hfull : [recordEvent, deleteEvent, restoreEvent, checkEvent] =
      earlier ++ r :: (later ++ [checkEvent]) := by
    rw [← cons_append, ← append_assoc, ← hlog]
    rfl
  obtain ⟨rfl, -⟩ := records_restored hfull hr
  cases hnode
  cases hcontent
  cases hnode'
  cases hcontent'
  exact absurd hhash (by decide)

end OxyMake.CacheSoundness
