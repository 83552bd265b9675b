import OxyMake.ResourceNormalization
import OxyMake.DecimalText

/-!
# Resources as SLURM directives

The SLURM executor writes the declared resources, as they are spelled, behind
the flags of a batch script and derives a time limit from the timeout of the
job. What SLURM reads behind a flag is compared with the canonical amount that
admission and the other executors use.
-/

namespace OxyMake.SlurmDirectives

open ResourceNormalization DecimalText

/-- A directive of the batch script. -/
structure SlurmDirective where
  flag : String
  value : String
  deriving DecidableEq, Repr

/-- Why the resources have no directives. -/
inductive SlurmError
  | resourceConflict (message : String)
  deriving DecidableEq, Repr

structure Duration where
  secs : ℕ
  nanos : ℕ
  /-- The seconds are a 64-bit value. -/
  secs_lt : secs < 2 ^ 64
  /-- The nanoseconds are less than a second. -/
  nanos_lt : nanos < 10 ^ 9

def Duration.nanoseconds (d : Duration) : ℕ := d.secs * 10 ^ 9 + d.nanos

def resourceToString (value : ResourceValue) : String := value.display

def directive (key : String) (value : ResourceValue) : Option SlurmDirective :=
  match key with
  | "cpu" | "cpus" | "cpus_per_task" => some ⟨"--cpus-per-task", resourceToString value⟩
  | "mem" | "memory" => some ⟨"--mem", resourceToString value⟩
  | "mem_mb" => some ⟨"--mem", resourceToString value ++ "M"⟩
  | "mem_per_cpu" => some ⟨"--mem-per-cpu", resourceToString value⟩
  | "gpu" | "gpus" => some ⟨"--gpus", resourceToString value⟩
  | "nodes" => some ⟨"--nodes", resourceToString value⟩
  | "tasks" | "ntasks" => some ⟨"--ntasks", resourceToString value⟩
  | "ntasks_per_node" => some ⟨"--ntasks-per-node", resourceToString value⟩
  | "gres" => some ⟨"--gres", resourceToString value⟩
  | "partition" => some ⟨"--partition", resourceToString value⟩
  | "time" => some ⟨"--time", resourceToString value⟩
  | "qos" => some ⟨"--qos", resourceToString value⟩
  | _ => none

structure Mapping where
  directives : List SlurmDirective
  hasMem : Bool
  hasMemPerCpu : Bool

def Mapping.push (m : Mapping) (r : String × ResourceValue) : Mapping where
  directives := m.directives ++ (directive r.1 r.2).toList
  hasMem := m.hasMem || r.1 == "mem" || r.1 == "memory" || r.1 == "mem_mb"
  hasMemPerCpu := m.hasMemPerCpu || r.1 == "mem_per_cpu"

def buffered (secs : ℕ) : ℕ := (secs + secs / 10) % 2 ^ 64

/-- Hours, minutes and seconds with at least two digits each. -/
def clockTime (secs : ℕ) : String :=
  String.ofList (padded 2 (secs / 3600) ++ ':' :: (padded 2 (secs % 3600 / 60) ++
    ':' :: padded 2 (secs % 60)))

/-- Directives of the resources and the timeout of a job. -/
def mapResources (resources : List (String × ResourceValue)) (timeout : Option Duration) :
    Except SlurmError (List SlurmDirective) :=
  let m := resources.foldl Mapping.push ⟨[], false, false⟩
  let memCount := (m.directives.filter fun d => d.flag = "--mem").length
  if 1 < memCount then
    .error (.resourceConflict
      "multiple memory resources (mem, memory, mem_mb) are mutually exclusive")
  else if m.hasMem && m.hasMemPerCpu then
    .error (.resourceConflict "--mem and --mem-per-cpu are mutually exclusive in SLURM")
  else
    let hasTime := m.directives.any fun d => d.flag = "--time"
    match hasTime, timeout with
    | false, some t => .ok (m.directives ++ [⟨"--time", clockTime (buffered t.secs)⟩])
    | _, _ => .ok m.directives

def slurmUnit : Char → Option ℕ
  | 'K' | 'k' => some (2 ^ 10)
  | 'M' | 'm' => some (2 ^ 20)
  | 'G' | 'g' => some (2 ^ 30)
  | 'T' | 't' => some (2 ^ 40)
  | _ => none

/-- Bytes that SLURM reads from a memory text: a bare integer counts mebibytes,
a unit follows the integer directly. -/
def slurmMemory (text : String) : Option ℕ :=
  match readNumeral text.toList with
  | some n => some (n * 2 ^ 20)
  | none =>
    (text.toList.getLast?.bind slurmUnit).bind fun unit =>
      (readNumeral text.toList.dropLast).map (· * unit)

/-- Count that SLURM reads from an integer text, in ten-thousandths. -/
def slurmCount (text : String) : Option ℕ := (readNumeral text.toList).map (· * tokenScale)

/-- Seconds that a text of hours, minutes and seconds spells. -/
def slurmTime (text : String) : Option ℕ :=
  match text.toList.splitOnP (· == ':') with
  | [hours, minutes, seconds] => do
    let h ← readNumeral hours
    let m ← readNumeral minutes
    let s ← readNumeral seconds
    some (h * 3600 + m * 60 + s)
  | _ => none

/-- The directives of a flag request the amount, and nothing when there is none. -/
def Requests (directives : List SlurmDirective) (flag : String) (read : String → Option ℕ)
    (amount : Option ℕ) : Prop :=
  (∀ d ∈ directives, d.flag = flag → ∃ a, amount = some a ∧ read d.value = some a) ∧
    ∀ a, amount = some a → ∃ d ∈ directives, d.flag = flag

/-- The directives request exactly the canonical amounts, and a derived time
limit leaves the job its timeout. -/
structure Agrees (resources : List (String × ResourceValue)) (timeout : Option Duration)
    (n : NormalizedResources) (directives : List SlurmDirective) : Prop where
  memory : Requests directives "--mem" slurmMemory n.memoryBytes
  cpus : Requests directives "--cpus-per-task" slurmCount n.cpu
  gpus : Requests directives "--gpus" slurmCount n.gpu
  /-- A derived time limit is at least the timeout. -/
  time : (∀ r ∈ resources, r.1 ≠ "time") → ∀ t, timeout = some t →
    ∃ d ∈ directives, d.flag = "--time" ∧ ∃ s, slurmTime d.value = some s ∧
      t.nanoseconds ≤ s * 10 ^ 9

/-- A numeral followed by a unit of SLURM, or zero. -/
def isSlurmMemory (text : List Char) : Bool :=
  (isNumeral text.dropLast && (text.getLast?.bind slurmUnit).isSome) ||
    (isNumeral text && numeralValue text == 0)

/-- Resources that are spelled as SLURM reads them, with a timeout that the
tenth covers. -/
structure Portable (resources : List (String × ResourceValue)) (timeout : Option Duration) :
    Prop where
  /-- No memory is declared in gigabytes by its key. -/
  gigabytes : ∀ r ∈ resources, r.1 ≠ "mem_gb"
  /-- Memory in megabytes is a plain integer. -/
  megabytes : ∀ r ∈ resources, r.1 = "mem_mb" → isNumeral r.2.display.toList = true
  /-- Other memory is an integer with a unit, or zero. -/
  memory : ∀ r ∈ resources, r.1 = "mem" ∨ r.1 = "memory" → isSlurmMemory r.2.display.toList = true
  /-- CPU and GPU counts are plain integers. -/
  counts : ∀ r ∈ resources, r.1 = "cpu" ∨ r.1 = "cpus" ∨ r.1 = "gpu" ∨ r.1 = "gpus" →
    isNumeral r.2.display.toList = true
  /-- CPUs of a task are declared beside the same number of CPUs only. -/
  perTask : ∀ r ∈ resources, r.1 = "cpus_per_task" → ∃ r' ∈ resources,
    (r'.1 = "cpu" ∨ r'.1 = "cpus") ∧
      readNumeral r.2.display.toList = readNumeral r'.2.display.toList
  /-- Without a time resource, a timeout has no part of a second unless it has
  ten seconds, and a tenth more of it is a 64-bit value. -/
  time : (∀ r ∈ resources, r.1 ≠ "time") → ∀ t, timeout = some t →
    t.secs + t.secs / 10 < 2 ^ 64 ∧ (t.nanos = 0 ∨ 10 ≤ t.secs)

end OxyMake.SlurmDirectives
