import OxyMake.ConfigStages
import OxyMake.KeyedTable

/-!
# Reading the output of `sacct`

Each row is a line of fields between bars. A row whose job id has a dot belongs
to a step of an allocation and only contributes its memory; every other row is
an allocation and becomes a record. The peaks of the steps join the records
after all rows have been read.
-/

namespace OxyMake.SacctRecords

open Wildcard (Text)
open ConfigStages (readBounded splitOnce)
open ResourceNormalization (trim)
open KeyedTable

/-- Accounting record of an allocation. -/
structure SacctRecord where
  jobId : ℕ
  state : Text
  exitCode : ℤ
  peakMemoryBytes : Option ℕ
  elapsed : ℕ
  node : Text
  deriving DecidableEq

/-- Why an output is not read. -/
inductive Failure
  | parseError (message : Text)
  | overflow
  deriving DecidableEq

/-! ### Numbers -/

def parseUnsigned (bound : ℕ) : Text → Option ℕ
  | '+' :: digits => readBounded bound digits
  | digits => readBounded bound digits

def parseI32 : Text → Option ℤ
  | '-' :: digits => (readBounded (2 ^ 31 + 1) digits).map fun n => -(n : ℤ)
  | '+' :: digits => (readBounded (2 ^ 31) digits).map Int.ofNat
  | digits => (readBounded (2 ^ 31) digits).map Int.ofNat

def checkedU64 (n : ℕ) : Option ℕ := if n < 2 ^ 64 then some n else none

def stripSuffix (c : Char) (s : Text) : Option Text :=
  if s.getLast? = some c then some s.dropLast else none

/-! ### Fields -/

def parseExitCode (s : Text) : ℤ :=
  ((s.splitOn ':').head?.bind parseI32).getD (-1)

/-- The number and the unit of a MaxRSS field. -/
def rssParts (s : Text) : Text × ℕ :=
  match stripSuffix 'K' s with
  | some stripped => (stripped, 1024)
  | none =>
    match stripSuffix 'M' s with
    | some stripped => (stripped, 1024 * 1024)
    | none =>
      match stripSuffix 'G' s with
      | some stripped => (stripped, 1024 * 1024 * 1024)
      | none => (s, 1)

def parseMaxRss (s : Text) : Option ℕ :=
  if s.isEmpty then none
  else
    let (digits, suffix) := rssParts (trim s)
    ((parseUnsigned (2 ^ 64) digits).bind fun n => checkedU64 (n * suffix)).filter (0 < ·)

def timePart (s : Text) : ℕ := (parseUnsigned (2 ^ 64) s).getD 0

/-- Parse sacct Elapsed format "HH:MM:SS" or "MM:SS" to seconds. -/
def parseElapsed (s : Text) : Option ℕ :=
  match s.splitOn ':' with
  | [h, m, s] => do
    let hours ← checkedU64 (timePart h * 3600)
    let mins ← checkedU64 (timePart m * 60)
    let sum ← checkedU64 (hours + mins)
    checkedU64 (sum + timePart s)
  | [m, s] => do
    let mins ← checkedU64 (timePart m * 60)
    checkedU64 (mins + timePart s)
  | _ => some 0

/-! ### Rows -/

/-- A line without the carriage return before its line feed. -/
def stripReturn (line : Text) : Text := (stripSuffix '\r' line).getD line

def lines (text : Text) : List Text :=
  let pieces := text.splitOn '\n'
  pieces.dropLast.map stripReturn ++ (pieces.getLast?.filter fun last => !last.isEmpty).toList

/-- What has been read: the records and the peaks of the steps. -/
abbrev Reading := List SacctRecord × Table ℕ ℕ

def parseRow (reading : Reading) (line : Text) : Except Failure Reading :=
  if (trim line).isEmpty then .ok reading
  else
    match line.splitOn '|' with
    | id :: state :: exit :: rss :: elapsed :: node :: _ =>
      match splitOnce '.' id with
      | some (allocation, _) =>
        match parseUnsigned (2 ^ 32) allocation, parseMaxRss rss with
        | some jobId, some bytes =>
          .ok (reading.1, reading.2.upsert jobId bytes fun peak => max peak bytes)
        | _, _ => .ok reading
      | none =>
        match parseUnsigned (2 ^ 32) id with
        | none => .error (.parseError ("invalid job ID: ".toList ++ id))
        | some jobId =>
          match parseElapsed elapsed with
          | none => .error .overflow
          | some secs =>
            .ok (reading.1 ++ [⟨jobId, state, parseExitCode exit, parseMaxRss rss, secs, node⟩],
              reading.2)
    | _ => .ok reading

def maxPeak : Option ℕ → Option ℕ → Option ℕ
  | some a, some b => some (max a b)
  | some a, none => some a
  | none, b => b

/-- Preserve allocation state and timing and attach the largest step observation. -/
def parseSacct (stdout : Text) : Except Failure (List SacctRecord) := do
  let (records, stepPeaks) ← (lines stdout).foldlM parseRow ([], Table.empty)
  return records.map fun record =>
    { record with peakMemoryBytes := maxPeak record.peakMemoryBytes (stepPeaks.get record.jobId) }

end OxyMake.SacctRecords
