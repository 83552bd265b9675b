import OxyMake.PhysicalGraph
import Mathlib.Logic.Function.Basic

/-!
# In-memory inputs of concurrent jobs

Before a job's process starts, every input whose bytes are in memory is written
to a file in the shared working directory, named after the input's key; after
the process the job removes these files. The name replaces separators of the
key, so different keys can share a file, and so can two jobs that read one key.
While no started job shares a name with another one or between two of its keys,
every file holds its input's bytes until the process that reads it has finished.
-/

namespace OxyMake.InMemoryInputs

open List Function
open PhysicalGraph

abbrev Byte := UInt8

/-- An input whose bytes are in memory. -/
structure MemoryInput where
  key : String
  data : List Byte
  deriving DecidableEq, Repr

def sanitize (key : String) : String :=
  .ofList (key.toList.map fun c => if c = '/' ∨ c = '.' then '_' else c)

/-- File in the working directory that stands for an input. -/
def tempPath (workDir key : String) : String :=
  workDir ++ "/.oxymake_mem_" ++ sanitize key ++ ".dat"

/-- The inputs of a job that have data in memory, in order. -/
def memoryInputs (inputs : List OutputRef) (inputData : String → Option (List Byte)) :
    List MemoryInput :=
  inputs.filterMap fun reference =>
    (inputData (outputRefKey reference)).map fun data => ⟨outputRefKey reference, data⟩

/-- The references that the process is given: a file for every in-memory input. -/
def substituted (workDir : String) (inputs : List OutputRef)
    (inputData : String → Option (List Byte)) : List OutputRef :=
  inputs.map fun reference =>
    match inputData (outputRefKey reference) with
    | some _ => .file (tempPath workDir (outputRefKey reference))
    | none => reference

/-- Where the execution of a job is. -/
inductive Stage
  | writing (written pending : List MemoryInput)
  | running (inputs : List MemoryInput)
  /-- The process has finished; these files are still to be removed. -/
  | cleaning (left : List MemoryInput)
  | ended
  deriving DecidableEq, Repr

def Stage.inUse : Stage → List MemoryInput
  | .writing written _ => written
  | .running inputs => inputs
  | .cleaning _ => []
  | .ended => []

/-- Inputs whose file the execution will still write, read or remove. -/
def Stage.claims : Stage → List MemoryInput
  | .writing written pending => written ++ pending
  | .running inputs => inputs
  | .cleaning left => left
  | .ended => []

/-- The working directory and the executions begun so far. -/
structure State where
  files : String → Option (List Byte)
  /-- The executions, in the order in which they began. -/
  jobs : List Stage

/-- One step of one execution, or of anything else that writes files. -/
inductive Action
  | start (inputs : List OutputRef) (inputData : String → Option (List Byte))
  | write (job : ℕ)
  | spawn (job : ℕ)
  /-- The process has finished, or the warm worker has answered. -/
  | finish (job : ℕ)
  | remove (job : ℕ)
  | leave (job : ℕ)
  /-- The execution returns an error before a process has run, without removing files. -/
  | abort (job : ℕ)
  | other (path : String) (content : Option (List Byte))

section

variable (workDir : String)

def MemoryInput.file (input : MemoryInput) : String := tempPath workDir input.key

/-- The state after a step, where the step is possible. -/
def step (s : State) : Action → Option State
  | .start inputs inputData =>
    some { s with jobs := s.jobs ++ [.writing [] (memoryInputs inputs inputData)] }
  | .write job =>
    match s.jobs[job]? with
    | some (.writing written (input :: pending)) =>
      some { files := Function.update s.files (input.file workDir) (some input.data)
             jobs := s.jobs.set job (.writing (written ++ [input]) pending) }
    | _ => none
  | .spawn job =>
    match s.jobs[job]? with
    | some (.writing written []) => some { s with jobs := s.jobs.set job (.running written) }
    | _ => none
  | .finish job =>
    match s.jobs[job]? with
    | some (.running inputs) => some { s with jobs := s.jobs.set job (.cleaning inputs) }
    | _ => none
  | .remove job =>
    match s.jobs[job]? with
    | some (.cleaning (input :: left)) =>
      some { files := Function.update s.files (input.file workDir) none
             jobs := s.jobs.set job (.cleaning left) }
    | _ => none
  | .leave job =>
    match s.jobs[job]? with
    | some (.cleaning []) => some { s with jobs := s.jobs.set job .ended }
    | _ => none
  | .abort job =>
    match s.jobs[job]? with
    | some (.writing _ _) => some { s with jobs := s.jobs.set job .ended }
    | _ => none
  | .other path content => some { s with files := Function.update s.files path content }

/-- What is claimed of every state: files hold their inputs' bytes, inputs with
different keys never share a file, and no clean-up has a file of another job. -/
structure Isolated (s : State) : Prop where
  /-- A written file holds its input's bytes until the process has finished. -/
  bytes : ∀ (job : ℕ) (stage : Stage), s.jobs[job]? = some stage → ∀ input ∈ stage.inUse,
    s.files (input.file workDir) = some input.data
  /-- Inputs with different keys, of one job or of two, have different files. -/
  names : ∀ (job : ℕ) (stage : Stage), s.jobs[job]? = some stage →
    ∀ (job' : ℕ) (stage' : Stage), s.jobs[job']? = some stage' → ∀ input ∈ stage.claims, ∀ input' ∈ stage'.claims, input.key ≠ input'.key →
      input.file workDir ≠ input'.file workDir
  /-- No file to be removed belongs to another job. -/
  cleanup : ∀ (job : ℕ) (left : List MemoryInput), s.jobs[job]? = some (.cleaning left) →
    ∀ (job' : ℕ) (stage' : Stage), s.jobs[job']? = some stage' → job ≠ job' → ∀ input ∈ left, ∀ input' ∈ stage'.claims,
      input.file workDir ≠ input'.file workDir

/-- A step after which files are still apart: a job begins only with names that
differ for different keys and that no job in flight has, and nothing else writes
to a file that stands for an input. -/
def Clear (s : State) : Action → Prop
  | .start inputs inputData =>
    (∀ input ∈ memoryInputs inputs inputData, ∀ input' ∈ memoryInputs inputs inputData,
      input.key ≠ input'.key → input.file workDir ≠ input'.file workDir) ∧
    ∀ stage ∈ s.jobs, ∀ input ∈ memoryInputs inputs inputData, ∀ input' ∈ stage.claims,
      input.file workDir ≠ input'.file workDir
  | .other path _ => ∀ stage ∈ s.jobs, ∀ input ∈ stage.claims, path ≠ input.file workDir
  | _ => True

/-- States of runs, begun in an empty session, whose steps are all possible and
all meet a condition. -/
inductive Reachable (Cond : State → Action → Prop) : State → Prop
  | init (files : String → Option (List Byte)) : Reachable Cond ⟨files, []⟩
  | step {s t : State} (action : Action) (h : Reachable Cond s) (hcond : Cond s action)
      (hstep : InMemoryInputs.step workDir s action = some t) : Reachable Cond t

/-- The jobs keep apart, and each holds its files. -/
structure Apart (s : State) : Prop where
  /-- Written files hold their inputs' bytes. -/
  bytes : ∀ (job : ℕ) (stage : Stage), s.jobs[job]? = some stage → ∀ input ∈ stage.inUse,
    s.files (input.file workDir) = some input.data
  /-- Inputs of one job that share a file are one input. -/
  own : ∀ (job : ℕ) (stage : Stage), s.jobs[job]? = some stage → ∀ input ∈ stage.claims, ∀ input' ∈ stage.claims,
    input.file workDir = input'.file workDir → input = input'
  disjoint : ∀ (job : ℕ) (stage : Stage) (job' : ℕ) (stage' : Stage), job ≠ job' → s.jobs[job]? = some stage →
    s.jobs[job']? = some stage' → ∀ input ∈ stage.claims, ∀ input' ∈ stage'.claims,
      input.file workDir ≠ input'.file workDir

end

variable {workDir : String}

theorem Apart.isolated {s : State} (h : Apart workDir s) : Isolated workDir s where
  bytes := h.bytes
  names job stage hjob job' stage' hjob' input hin input' hin' hne heq := by
    by_cases hsame : job = job'
    · have hstage : stage = stage' := Option.some.inj (hjob.symm.trans (hsame ▸ hjob'))
      have hinput := h.own job stage hjob input hin input' (hstage ▸ hin') heq
      exact hne (congrArg MemoryInput.key hinput)
    · exact h.disjoint job stage job' stage' hsame hjob hjob' input hin input' hin' heq
  cleanup job left hjob job' stage' hjob' hne input hin input' hin' :=
    h.disjoint job _ job' stage' hne hjob hjob' input hin input' hin'

theorem inUse_subset_claims (stage : Stage) : ∀ input ∈ stage.inUse, input ∈ stage.claims := by
  intro input hin
  cases stage with
  | writing => exact mem_append_left _ hin
  | running => exact hin
  | cleaning | ended => cases hin

theorem Apart.move {s : State} {job : ℕ} {stage next : Stage} {files : String → Option (List Byte)}
    (h : Apart workDir s) (hjob : s.jobs[job]? = some stage)
    (hclaims : ∀ input ∈ next.claims, input ∈ stage.claims)
    (hown : ∀ input ∈ next.inUse, files (input.file workDir) = some input.data)
    (hothers : ∀ x, (∀ input ∈ stage.claims, x ≠ input.file workDir) → files x = s.files x) :
    Apart workDir ⟨files, s.jobs.set job next⟩ := by
  have hlt : job < s.jobs.length := (List.getElem?_eq_some_iff.mp hjob).1
  have hcases : ∀ {k : ℕ} {x : Stage}, (s.jobs.set job next)[k]? = some x →
      (k = job ∧ x = next) ∨ (k ≠ job ∧ s.jobs[k]? = some x) := by
    intro k x hk
    by_cases hkj : k = job
    · rw [hkj, getElem?_set_self hlt] at hk
      exact .inl ⟨hkj, (Option.some.inj hk).symm⟩
    · rw [getElem?_set_ne (Ne.symm hkj)] at hk
      exact .inr ⟨hkj, hk⟩
  constructor
  · intro k x hk input hin
    cases hcases hk with
    | inl hself => exact hown input (hself.2 ▸ hin)
    | inr hother =>
      have hfree : ∀ a ∈ stage.claims, input.file workDir ≠ a.file workDir := fun a ha =>
        h.disjoint k x job stage hother.1 hother.2 hjob input (inUse_subset_claims x input hin) a ha
      exact (hothers _ hfree).trans (h.bytes k x hother.2 input hin)
  · intro k x hk input hin input' hin' heq
    cases hcases hk with
    | inl hself =>
      rw [hself.2] at hin hin'
      exact h.own job stage hjob input (hclaims input hin) input' (hclaims input' hin') heq
    | inr hother => exact h.own k x hother.2 input hin input' hin' heq
  · intro k x k' x' hne hk hk' input hin input' hin'
    cases hcases hk with
    | inl hself =>
      cases hcases hk' with
      | inl hself' => exact absurd (hself.1.trans hself'.1.symm) hne
      | inr hother' =>
        rw [hself.2] at hin
        exact h.disjoint job stage k' x' (Ne.symm hother'.1) hjob hother'.2 input
          (hclaims input hin) input' hin'
    | inr hother =>
      cases hcases hk' with
      | inl hself' =>
        rw [hself'.2] at hin'
        exact h.disjoint k x job stage hother.1 hother.2 hjob input hin input'
          (hclaims input' hin')
      | inr hother' => exact h.disjoint k x k' x' hne hother.2 hother'.2 input hin input' hin'

theorem Apart.start {s : State} (h : Apart workDir s) {inputs : List OutputRef}
    {inputData : String → Option (List Byte)}
    (hclear : Clear workDir s (.start inputs inputData)) :
    Apart workDir { s with jobs := s.jobs ++ [.writing [] (memoryInputs inputs inputData)] } := by
  have hcases : ∀ {k : ℕ} {x : Stage},
      (s.jobs ++ [.writing [] (memoryInputs inputs inputData)])[k]? = some x →
      s.jobs[k]? = some x ∨ (k = s.jobs.length ∧ x = .writing [] (memoryInputs inputs inputData)) := by
    intro k x hk
    by_cases hlt : k < s.jobs.length
    · rw [getElem?_append_left hlt] at hk
      exact .inl hk
    · rw [getElem?_append_right (Nat.not_lt.mp hlt)] at hk
      have hzero : k - s.jobs.length = 0 := by
        have hbound := (List.getElem?_eq_some_iff.mp hk).1
        rw [length_singleton] at hbound
        omega
      rw [hzero] at hk
      exact .inr ⟨by omega, (Option.some.inj hk).symm⟩
  have hdata : ∀ input ∈ memoryInputs inputs inputData, inputData input.key = some input.data := by
    intro input hin
    obtain ⟨_, _, hmap⟩ := mem_filterMap.mp hin
    obtain ⟨_, hget, heq⟩ := Option.map_eq_some_iff.mp hmap
    rw [← heq]
    exact hget
  constructor
  · intro k x hk input hin
    cases hcases hk with
    | inl hold => exact h.bytes k x hold input hin
    | inr hnew =>
      rw [hnew.2] at hin
      cases hin
  · intro k x hk input hin input' hin' heq
    cases hcases hk with
    | inl hold => exact h.own k x hold input hin input' hin' heq
    | inr hnew =>
      rw [hnew.2] at hin hin'
      by_cases hkey : input.key = input'.key
      · have hsame : some input.data = some input'.data := by
          rw [← hdata input hin, ← hdata input' hin', hkey]
        cases input
        cases input'
        rw [MemoryInput.mk.injEq]
        exact ⟨hkey, Option.some.inj hsame⟩
      · exact absurd heq (hclear.1 input hin input' hin' hkey)
  · intro k x k' x' hne hk hk' input hin input' hin'
    cases hcases hk with
    | inl hold =>
      cases hcases hk' with
      | inl hold' => exact h.disjoint k x k' x' hne hold hold' input hin input' hin'
      | inr hnew' =>
        rw [hnew'.2] at hin'
        exact (hclear.2 x (mem_of_getElem? hold) input' hin' input hin).symm
    | inr hnew =>
      cases hcases hk' with
      | inl hold' =>
        rw [hnew.2] at hin
        exact hclear.2 x' (mem_of_getElem? hold') input hin input' hin'
      | inr hnew' => exact absurd (hnew.1.trans hnew'.1.symm) hne

theorem Apart.step {s t : State} {action : Action} (h : Apart workDir s)
    (hclear : Clear workDir s action) (hstep : InMemoryInputs.step workDir s action = some t) :
    Apart workDir t := by
  cases action with
  | start =>
    rw [← Option.some.inj hstep]
    exact h.start hclear
  | write job =>
    rw [InMemoryInputs.step] at hstep
    split at hstep
    case h_2 => cases hstep
    case h_1 written input pending hjob =>
      rw [← Option.some.inj hstep]
      have hclaims : ∀ a ∈ (Stage.writing (written ++ [input]) pending).claims,
          a ∈ (Stage.writing written (input :: pending)).claims := by
        intro a ha
        simpa [Stage.claims] using ha
      apply h.move hjob hclaims
      · intro a ha
        have hmem := hclaims a (inUse_subset_claims _ a ha)
        have hself : input ∈ (Stage.writing written (input :: pending)).claims :=
          mem_append_right _ mem_cons_self
        by_cases hfile : a.file workDir = input.file workDir
        · rw [hfile, update_self, h.own job _ hjob a hmem input hself hfile]
        · rw [update_of_ne hfile]
          cases mem_append.mp ha with
          | inl ha => exact h.bytes job _ hjob a ha
          | inr ha => exact absurd (congrArg _ (mem_singleton.mp ha)) hfile
      · intro x hx
        exact update_of_ne (hx input (mem_append_right _ mem_cons_self)) _ _
  | spawn job =>
    rw [InMemoryInputs.step] at hstep
    split at hstep
    case h_2 => cases hstep
    case h_1 written hjob =>
      rw [← Option.some.inj hstep]
      have hclaims : ∀ a ∈ (Stage.running written).claims,
          a ∈ (Stage.writing written []).claims := fun a ha => mem_append_left _ ha
      exact h.move hjob hclaims (fun a ha => h.bytes job _ hjob a ha) (fun _ _ => rfl)
  | finish =>
    rw [InMemoryInputs.step] at hstep
    split at hstep
    case h_2 => cases hstep
    case h_1 inputs hjob =>
      rw [← Option.some.inj hstep]
      exact h.move hjob (fun a ha => ha) (fun a ha => absurd ha not_mem_nil) (fun _ _ => rfl)
  | remove =>
    rw [InMemoryInputs.step] at hstep
    split at hstep
    case h_2 => cases hstep
    case h_1 input left hjob =>
      rw [← Option.some.inj hstep]
      have hclaims : ∀ a ∈ (Stage.cleaning left).claims,
          a ∈ (Stage.cleaning (input :: left)).claims := fun a ha => mem_cons_of_mem input ha
      apply h.move hjob hclaims (fun a ha => absurd ha not_mem_nil)
      intro x hx
      exact update_of_ne (hx input mem_cons_self) _ _
  | leave =>
    rw [InMemoryInputs.step] at hstep
    split at hstep
    case h_2 => cases hstep
    case h_1 hjob =>
      rw [← Option.some.inj hstep]
      exact h.move hjob (fun a ha => ha) (fun a ha => absurd ha not_mem_nil) (fun _ _ => rfl)
  | abort =>
    rw [InMemoryInputs.step] at hstep
    split at hstep
    case h_2 => cases hstep
    case h_1 written pending hjob =>
      rw [← Option.some.inj hstep]
      exact h.move hjob (fun a ha => absurd ha not_mem_nil)
        (fun a ha => absurd ha not_mem_nil) (fun _ _ => rfl)
  | other =>
    rw [← Option.some.inj hstep]
    constructor
    · intro k x hk input hin
      have hfree := hclear x (mem_of_getElem? hk) input (inUse_subset_claims x input hin)
      exact (update_of_ne hfree.symm _ _).trans (h.bytes k x hk input hin)
    · exact h.own
    · exact h.disjoint

theorem apart_init (files : String → Option (List Byte)) : Apart workDir ⟨files, []⟩ where
  bytes _ _ hjob := by cases hjob
  own _ _ hjob := by cases hjob
  disjoint _ _ _ _ _ hjob := by cases hjob

/-- In every state of a run whose steps all keep the files apart, in-memory
inputs have reached their jobs. -/
theorem reachable_isolated {s : State} (h : Reachable workDir (Clear workDir) s) :
    Isolated workDir s := by
  have hapart : Apart workDir s := by
    induction h with
    | init files => exact apart_init files
    | step action h hclear hstep ih => exact ih.step hclear hstep
  exact hapart.isolated

/-- Two in-memory files, whose keys differ in one separator. -/
def memoryStore (key : String) : Option (List Byte) :=
  if key = "data/a.txt" then some [1] else if key = "data_a.txt" then some [2] else none

/-- Three in-memory files with different names. -/
def pairStore (key : String) : Option (List Byte) :=
  if key = "a.txt" then some [1] else if key = "b.txt" then some [2]
  else if key = "c.txt" then some [3] else none

/-- A job that read two files has removed one of them while another job runs on the third. -/
theorem reachable_isolated_pair : ∃ files : String → Option (List Byte),
    files (tempPath "/w" "a.txt") = none ∧ files (tempPath "/w" "b.txt") = some [2] ∧
      files (tempPath "/w" "c.txt") = some [3] ∧
      Isolated "/w" ⟨files, [.cleaning [⟨"b.txt", [2]⟩], .running [⟨"c.txt", [3]⟩]]⟩ := by
  have hfirst : Reachable "/w" (Clear "/w")
      ⟨fun _ => none, [.writing [] [⟨"a.txt", [1]⟩, ⟨"b.txt", [2]⟩]]⟩ :=
    .step (.start [.file "a.txt", .file "b.txt"] pairStore) (.init _) ⟨by decide, by decide⟩ rfl
  have hsecond := Reachable.step (.start [.file "c.txt"] pairStore) hfirst
    ⟨by decide, by decide⟩ rfl
  have hwritten := Reachable.step (.write 1) (.step (.write 0) (.step (.write 0) hsecond
    trivial rfl) trivial rfl) trivial rfl
  have hrunning := Reachable.step (.spawn 1) (.step (.spawn 0) hwritten trivial rfl) trivial rfl
  have hremoved := Reachable.step (.remove 0) (.step (.finish 0) hrunning trivial rfl) trivial rfl
  exact ⟨_, by decide, by decide, by decide, reachable_isolated hremoved⟩

theorem tempPath_clashing : tempPath "/w" "data/a.txt" = tempPath "/w" "data_a.txt" := by
  decide

/-- A job that reads both files finds the second one's byte in the first one's file. -/
theorem not_isolated_clashing :
    ¬ ∀ s, Reachable "/w" (fun _ _ => True) s → Isolated "/w" s := by
  intro h
  have hstarted : Reachable "/w" (fun _ _ => True) ⟨fun _ => none,
      [.writing [] [⟨"data/a.txt", [1]⟩, ⟨"data_a.txt", [2]⟩]]⟩ :=
    .step (.start [.file "data/a.txt", .file "data_a.txt"] memoryStore) (.init _) trivial rfl
  have hwritten : Reachable "/w" (fun _ _ => True)
      ⟨Function.update (Function.update (fun _ => none) (tempPath "/w" "data/a.txt") (some [1]))
        (tempPath "/w" "data_a.txt") (some [2]),
        [.writing [⟨"data/a.txt", [1]⟩, ⟨"data_a.txt", [2]⟩] []]⟩ :=
    .step (.write 0) (.step (.write 0) hstarted trivial rfl) trivial rfl
  have hbytes := (h _ hwritten).bytes 0 _ rfl ⟨"data/a.txt", [1]⟩ mem_cons_self
  rw [MemoryInput.file, tempPath_clashing] at hbytes
  dsimp only at hbytes
  rw [update_self] at hbytes
  exact absurd (Option.some.inj hbytes) (by decide)

end OxyMake.InMemoryInputs
