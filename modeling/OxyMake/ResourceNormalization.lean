import Mathlib.Algebra.GroupWithZero.Nat
import Mathlib.Algebra.BigOperators.Group.List.Basic
import OxyMake.SortedMap
import Mathlib.Data.Prod.Lex
import Mathlib.Data.String.Basic
import Mathlib.Data.Int.Notation

/-!
# Checked normalization of declared resources

Raw declarations map spelled keys to integers, floats or strings. A key resolves
to a canonical resource, two spellings of one resource are rejected, and every
value is converted exactly to a fixed-point count or to bytes with checked
arithmetic. The amounts are then listed under their canonical keys.

The scheduler admits a job when each amount is within the capacity left over by
the outstanding guards; acquiring adds the amounts and dropping a guard subtracts
exactly what it added.
-/

namespace OxyMake.Admission

/-- A resource after alias resolution. -/
inductive CanonicalResource
  | cpu
  | gpu
  | memory
  | custom (name : String)
  deriving DecidableEq, Repr

/-- Amount per resource, with each resource listed at most once. -/
abbrev ResourceAmounts := List (CanonicalResource × ℕ)

def amountOf (demand : ResourceAmounts) (key : CanonicalResource) : ℕ :=
  ((demand.filter fun entry => entry.1 = key).map Prod.snd).sum

structure ResourceBudget where
  capacity : ResourceAmounts
  inUse : CanonicalResource → ℕ

namespace ResourceBudget

variable (budget : ResourceBudget)

def capacityOf (key : CanonicalResource) : ℕ := (budget.capacity.lookup key).getD 0

/-- Every amount of the demand is within what is left. -/
def fitsUnits (demand : ResourceAmounts) : Bool :=
  demand.all fun entry => entry.2 ≤ budget.capacityOf entry.1 - budget.inUse entry.1

def acquireUnits (demand : ResourceAmounts) : ResourceBudget :=
  { budget with inUse := fun key => budget.inUse key + amountOf demand key }

def dropGuard (acquired : ResourceAmounts) : ResourceBudget :=
  { budget with inUse := fun key => budget.inUse key - amountOf acquired key }

def Admits (demand : ResourceAmounts) : Prop :=
  ∀ entry ∈ demand, entry.2 ≤ budget.capacityOf entry.1

instance (demand : ResourceAmounts) : Decidable (budget.Admits demand) :=
  inferInstanceAs (Decidable (∀ entry ∈ demand, entry.2 ≤ budget.capacityOf entry.1))

end ResourceBudget

variable {budget : ResourceBudget}

theorem fitsUnits_of_idle {demand : ResourceAmounts} (hidle : ∀ key, budget.inUse key = 0)
    (hadmits : budget.Admits demand) : budget.fitsUnits demand = true := by
  rw [ResourceBudget.fitsUnits, List.all_eq_true]
  intro entry hentry
  have hle := hadmits entry hentry
  simpa [hidle] using hle

end OxyMake.Admission

namespace OxyMake.ResourceNormalization

open List
open Admission

def rank : CanonicalResource → ℕ ×ₗ String
  | .cpu => toLex (0, "")
  | .gpu => toLex (1, "")
  | .memory => toLex (2, "")
  | .custom name => toLex (3, name)

theorem rank_injective : Function.Injective rank := by
  intro a b h
  cases a <;> cases b <;> simp_all [rank]

instance : LinearOrder CanonicalResource := LinearOrder.lift' rank rank_injective

/-- Fixed-point denominator of CPU, GPU and custom token demands. -/
def tokenScale : ℕ := 10000

/-- What the code reads of a floating-point value. -/
structure FloatValue where
  isFinite : Bool
  negative : Bool
  text : String
  deriving DecidableEq, Repr

inductive ResourceValue
  | int (value : ℤ)
  | float (value : FloatValue)
  | str (value : String)
  deriving DecidableEq, Repr

def ResourceValue.display : ResourceValue → String
  | .int value => toString value
  | .float value => value.text
  | .str value => value

/-- Why a value cannot be normalized. -/
inductive ResourceValueErrorKind
  | negative
  | nonFinite
  | malformed
  | tooPrecise
  | fractionalByte
  | overflow
  deriving DecidableEq, Repr

inductive ResourceError
  | emptyName
  | duplicate (resource : CanonicalResource) (firstKey secondKey : String)
  | invalidValue (key value : String) (kind : ResourceValueErrorKind)
  deriving DecidableEq, Repr

def isWhitespace (c : Char) : Bool :=
  let n := c.toNat
  (9 ≤ n && n ≤ 13) || n = 0x20 || n = 0x85 || n = 0xA0 || n = 0x1680 ||
    (0x2000 ≤ n && n ≤ 0x200A) || n = 0x2028 || n = 0x2029 || n = 0x202F || n = 0x205F ||
    n = 0x3000

def trim (s : List Char) : List Char :=
  (((s.dropWhile isWhitespace).reverse).dropWhile isWhitespace).reverse

def canonicalizeResourceKey (key : String) : Except ResourceError CanonicalResource :=
  if (trim key.toList).isEmpty then .error .emptyName
  else
    match "custom:".toList.isPrefixOf? key.toList with
    | some name =>
      if (trim name).isEmpty then .error .emptyName else .ok (.custom (String.ofList name))
    | none =>
      if key = "cpu" ∨ key = "cpus" then .ok .cpu
      else if key = "gpu" ∨ key = "gpus" then .ok .gpu
      else if key = "mem" ∨ key = "memory" ∨ key = "mem_mb" ∨ key = "mem_gb" then .ok .memory
      else .ok (.custom key)

def mulU128 (a b : ℕ) : Except ResourceValueErrorKind ℕ :=
  if a * b < 2 ^ 128 then .ok (a * b) else .error .overflow

def addU128 (a b : ℕ) : Except ResourceValueErrorKind ℕ :=
  if a + b < 2 ^ 128 then .ok (a + b) else .error .overflow

def toU64 (value : ℕ) : Except ResourceValueErrorKind ℕ :=
  if value < 2 ^ 64 then .ok value else .error .overflow

def toI32 (value : ℤ) : Except ResourceValueErrorKind ℤ :=
  if -(2 ^ 31) ≤ value ∧ value < 2 ^ 31 then .ok value else .error .overflow

/-- A decimal as an integer coefficient and a number of decimal places. -/
structure Decimal where
  coefficient : ℕ
  scale : ℤ
  deriving DecidableEq, Repr

def digitValue (c : Char) : Option ℕ :=
  if '0' ≤ c ∧ c ≤ '9' then some (c.toNat - '0'.toNat) else none

/-- Digits of a signed 32-bit integer, added with the sign from the left. -/
def parseI32Digits (sign : ℤ) : List Char → ℤ → Except ResourceValueErrorKind ℤ
  | [], value => .ok value
  | c :: rest, value =>
    match digitValue c with
    | none => .error .malformed
    | some digit => do
      let scaled ← toI32 (value * 10)
      let next ← toI32 (scaled + sign * digit)
      parseI32Digits sign rest next

/-- Parse a signed 32-bit integer: an optional sign and at least one digit. -/
def parseI32 (part : List Char) : Except ResourceValueErrorKind ℤ :=
  match part with
  | '-' :: c :: rest => parseI32Digits (-1) (c :: rest) 0
  | '+' :: c :: rest => parseI32Digits 1 (c :: rest) 0
  | [] => .error .malformed
  | c :: rest => parseI32Digits 1 (c :: rest) 0

/-- Progress through the digits of a mantissa. -/
structure Mantissa where
  coefficient : ℕ
  digits : ℕ
  fractionalDigits : ℕ
  sawDot : Bool

def readMantissa : List Char → Mantissa → Except ResourceValueErrorKind Mantissa
  | [], m => .ok m
  | c :: rest, m =>
    if c = '.' ∧ m.sawDot = false then readMantissa rest { m with sawDot := true }
    else
      match digitValue c with
      | none => .error .malformed
      | some digit => do
        let scaled ← mulU128 m.coefficient 10
        let coefficient ← addU128 scaled digit
        readMantissa rest
          { m with
            coefficient := coefficient
            digits := m.digits + 1
            fractionalDigits := if m.sawDot then m.fractionalDigits + 1 else m.fractionalDigits }

def parseDecimal (input : List Char) : Except ResourceValueErrorKind Decimal :=
  let input := trim input
  if input.isEmpty then .error .malformed
  else if input.head? = some '-' then .error .negative
  else do
    let input := if input.head? = some '+' then input.tail else input
    let parts := input.splitOnP fun c => c = 'e' ∨ c = 'E'
    let exponent ← match parts[1]? with
      | none => .ok 0
      | some part => parseI32 part
    if parts[2]?.isSome then .error .malformed
    else
      let m ← readMantissa (parts.headD []) ⟨0, 0, 0, false⟩
      if m.digits = 0 then .error .malformed
      else
        let fractionalDigits ← toI32 m.fractionalDigits
        let scale ← toI32 (fractionalDigits - exponent)
        .ok ⟨m.coefficient, scale⟩

def checkedPowerOfTen (exponent : ℕ) : Except ResourceValueErrorKind ℕ :=
  if exponent ≤ 38 then .ok (10 ^ exponent) else .error .overflow

def scaleDecimal (decimal : Decimal) (multiplier : ℕ)
    (fractionalError : ResourceValueErrorKind) : Except ResourceValueErrorKind ℕ :=
  if decimal.coefficient = 0 then .ok 0
  else do
    let value ← mulU128 decimal.coefficient multiplier
    if 0 < decimal.scale then
      let divisor ← checkedPowerOfTen decimal.scale.toNat
      if value % divisor ≠ 0 then .error fractionalError else .ok (value / divisor)
    else if decimal.scale < 0 then
      let multiplier ← checkedPowerOfTen decimal.scale.natAbs
      mulU128 value multiplier
    else .ok value

/-- Units of a memory string with their sizes, in the order they are tried. -/
def units : List (String × ℕ) :=
  [("KIB", 2 ^ 10), ("MIB", 2 ^ 20), ("GIB", 2 ^ 30), ("TIB", 2 ^ 40),
   ("KB", 2 ^ 10), ("MB", 2 ^ 20), ("GB", 2 ^ 30), ("TB", 2 ^ 40),
   ("K", 2 ^ 10), ("M", 2 ^ 20), ("G", 2 ^ 30), ("T", 2 ^ 40), ("B", 1)]

/-- Parse a memory string into a decimal and the size of its unit. -/
def parseMemoryString (value : String) : Except ResourceValueErrorKind (Decimal × ℕ) :=
  let trimmed := trim value.toList
  if trimmed.isEmpty then .error .malformed
  else
    let upper := trimmed.map Char.toUpper
    match units.find? fun unit => unit.1.toList.isSuffixOf upper with
    | some (suffix, multiplier) =>
      (parseDecimal (trimmed.take (trimmed.length - suffix.length))).map (·, multiplier)
    | none => (parseDecimal trimmed).map (·, 1)

/-- Attach the key and the rendered value to a failure. -/
def invalidValue {α : Type} (key : String) (value : ResourceValue) :
    Except ResourceValueErrorKind α → Except ResourceError α
  | .ok a => .ok a
  | .error kind => .error (.invalidValue key value.display kind)

def decimalFromValue (key : String) (value : ResourceValue) : Except ResourceError Decimal :=
  invalidValue key value
    (match value with
    | .int v => if v < 0 then .error .negative else .ok ⟨v.toNat, 0⟩
    | .float v =>
      if v.isFinite = false then .error .nonFinite
      else if v.negative then .error .negative
      else parseDecimal v.text.toList
    | .str v => parseDecimal v.toList)

def parseCount (key : String) (value : ResourceValue) : Except ResourceError ℕ := do
  let decimal ← decimalFromValue key value
  invalidValue key value ((scaleDecimal decimal tokenScale .tooPrecise).bind toU64)

/-- Decimal of a memory declaration and the size of its unit, from the key or
from the string. -/
def memoryDecimal (key : String) (value : ResourceValue) : Except ResourceError (Decimal × ℕ) :=
  if key = "mem_mb" then (decimalFromValue key value).map (·, 2 ^ 20)
  else if key = "mem_gb" then (decimalFromValue key value).map (·, 2 ^ 30)
  else
    match value with
    | .str v => invalidValue key value (parseMemoryString v)
    | _ => (decimalFromValue key value).map (·, 1)

def parseMemory (key : String) (value : ResourceValue) : Except ResourceError ℕ := do
  let decimal ← memoryDecimal key value
  invalidValue key value ((scaleDecimal decimal.1 decimal.2 .fractionalByte).bind toU64)

/-- Canonical amounts beside the raw declarations. -/
structure NormalizedResources where
  cpu : Option ℕ
  gpu : Option ℕ
  memoryBytes : Option ℕ
  custom : List (String × ℕ)

/-- Amount of a canonical resource from its raw declaration. -/
def parseAmount (canonical : CanonicalResource) (key : String) (value : ResourceValue) :
    Except ResourceError ℕ :=
  match canonical with
  | .memory => parseMemory key value
  | _ => parseCount key value

def NormalizedResources.set (n : NormalizedResources) (amount : ℕ) :
    CanonicalResource → NormalizedResources
  | .cpu => { n with cpu := some amount }
  | .gpu => { n with gpu := some amount }
  | .memory => { n with memoryBytes := some amount }
  | .custom name => { n with custom := SortedMap.insert name amount n.custom }

/-- Normalize the declarations one after another, remembering the spelling of
each canonical resource. -/
def normalizeLoop : List (String × ResourceValue) → NormalizedResources →
    List (CanonicalResource × String) → Except ResourceError NormalizedResources
  | [], n, _ => .ok n
  | (key, value) :: rest, n, seen => do
    let canonical ← canonicalizeResourceKey key
    match seen.lookup canonical with
    | some firstKey => .error (.duplicate canonical firstKey key)
    | none =>
      let amount ← parseAmount canonical key value
      normalizeLoop rest (n.set amount canonical) (SortedMap.insert canonical key seen)

def normalizeResources (resources : List (String × ResourceValue)) :
    Except ResourceError NormalizedResources :=
  normalizeLoop resources ⟨none, none, none, []⟩ []

def resourceAmounts (resources : NormalizedResources) : ResourceAmounts :=
  let amounts := []
  let amounts := resources.cpu.elim amounts fun a => SortedMap.insert .cpu a amounts
  let amounts := resources.gpu.elim amounts fun a => SortedMap.insert .gpu a amounts
  let amounts := resources.memoryBytes.elim amounts fun a => SortedMap.insert .memory a amounts
  SortedMap.extend amounts (resources.custom.map fun e => (.custom e.1, e.2))

/-- Amounts that satisfy a condition on the resource and its amount. -/
structure NormalizedResources.Forall (P : CanonicalResource → ℕ → Prop)
    (n : NormalizedResources) : Prop where
  cpu : ∀ a, n.cpu = some a → P .cpu a
  gpu : ∀ a, n.gpu = some a → P .gpu a
  memory : ∀ a, n.memoryBytes = some a → P .memory a
  custom : ∀ e ∈ n.custom, P (.custom e.1) e.2

theorem NormalizedResources.Forall.set {P : CanonicalResource → ℕ → Prop}
    {n : NormalizedResources} (h : n.Forall P) {canonical : CanonicalResource} {amount : ℕ}
    (hamount : P canonical amount) : (n.set amount canonical).Forall P := by
  cases canonical with
  | cpu =>
    refine ⟨?_, h.gpu, h.memory, h.custom⟩
    rintro a ⟨⟩
    exact hamount
  | gpu =>
    refine ⟨h.cpu, ?_, h.memory, h.custom⟩
    rintro a ⟨⟩
    exact hamount
  | memory =>
    refine ⟨h.cpu, h.gpu, ?_, h.custom⟩
    rintro a ⟨⟩
    exact hamount
  | custom =>
    refine ⟨h.cpu, h.gpu, h.memory, ?_⟩
    intro e he
    rcases SortedMap.mem_insert he with rfl | he
    · exact hamount
    · exact h.custom e he

theorem forall_elim_insert {P : CanonicalResource → ℕ → Prop} {k : CanonicalResource}
    {o : Option ℕ} {m : ResourceAmounts} (ho : ∀ a, o = some a → P k a)
    (hm : ∀ e ∈ m, P e.1 e.2) :
    ∀ e ∈ o.elim m (fun a => SortedMap.insert k a m), P e.1 e.2 := by
  intro e he
  cases o with
  | none => exact hm e he
  | some a =>
    rcases SortedMap.mem_insert he with rfl | he
    · exact ho a rfl
    · exact hm e he

theorem forall_resourceAmounts {P : CanonicalResource → ℕ → Prop} {n : NormalizedResources}
    (h : n.Forall P) : ∀ e ∈ resourceAmounts n, P e.1 e.2 := by
  intro e he
  rcases SortedMap.mem_extend he with he | he
  · obtain ⟨e', he', rfl⟩ := mem_map.mp he
    exact h.custom e' he'
  · refine forall_elim_insert h.memory ?_ e he
    refine forall_elim_insert h.gpu ?_
    refine forall_elim_insert h.cpu ?_
    intro e he
    cases he

theorem sorted_elim_insert {m : ResourceAmounts} (h : SortedMap.Sorted m)
    (k : CanonicalResource) (o : Option ℕ) :
    SortedMap.Sorted (o.elim m fun a => SortedMap.insert k a m) := by
  cases o with
  | none => exact h
  | some a => exact h.insert k a

theorem nodup_resourceAmounts (n : NormalizedResources) :
    ((resourceAmounts n).map Prod.fst).Nodup := by
  have hcpu := sorted_elim_insert (m := []) List.Pairwise.nil .cpu n.cpu
  have hgpu := sorted_elim_insert hcpu .gpu n.gpu
  have hmemory := sorted_elim_insert hgpu .memory n.memoryBytes
  exact (hmemory.extend _).nodup

theorem bind_eq_ok {ε α β : Type} {x : Except ε α} {f : α → Except ε β} {b : β}
    (h : x >>= f = .ok b) : ∃ a, x = .ok a ∧ f a = .ok b := by
  cases x with
  | error => cases h
  | ok a => exact ⟨a, rfl, h⟩

theorem invalidValue_eq_ok {α : Type} {key : String} {value : ResourceValue}
    {x : Except ResourceValueErrorKind α} {a : α} (h : invalidValue key value x = .ok a) :
    x = .ok a := by
  cases x with
  | error => cases h
  | ok =>
    cases h
    rfl

theorem lt_of_toU64_eq_ok {value a : ℕ} (h : toU64 value = .ok a) : a < 2 ^ 64 := by
  rw [toU64] at h
  split_ifs at h with hlt
  cases h
  exact hlt

theorem lt_of_parseAmount_eq_ok {canonical : CanonicalResource} {key : String}
    {value : ResourceValue} {a : ℕ} (h : parseAmount canonical key value = .ok a) :
    a < 2 ^ 64 := by
  have hbound : ∀ x : Except ResourceValueErrorKind ℕ,
      invalidValue key value (x.bind toU64) = .ok a → a < 2 ^ 64 := by
    intro x hx
    obtain ⟨v, -, hv⟩ := bind_eq_ok (invalidValue_eq_ok hx)
    exact lt_of_toU64_eq_ok hv
  have hcount : parseCount key value = .ok a → a < 2 ^ 64 := by
    intro h
    obtain ⟨decimal, -, hv⟩ := bind_eq_ok h
    exact hbound _ hv
  cases canonical with
  | memory =>
    obtain ⟨decimal, -, hv⟩ := bind_eq_ok h
    exact hbound _ hv
  | cpu | gpu | custom => exact hcount h

theorem normalizeLoop_forall {P : CanonicalResource → ℕ → Prop}
    {raw : List (String × ResourceValue)}
    (hraw : ∀ e ∈ raw, ∀ canonical a, canonicalizeResourceKey e.1 = .ok canonical →
      parseAmount canonical e.1 e.2 = .ok a → P canonical a)
    {n n' : NormalizedResources} {seen : List (CanonicalResource × String)}
    (hn : n.Forall P) (h : normalizeLoop raw n seen = .ok n') : n'.Forall P := by
  induction raw generalizing n seen with
  | nil =>
    cases h
    exact hn
  | cons e raw ih =>
    obtain ⟨_, _⟩ := e
    rw [normalizeLoop] at h
    obtain ⟨canonical, hcanonical, h⟩ := bind_eq_ok h
    cases hseen : seen.lookup canonical with
    | some =>
      rw [hseen] at h
      cases h
    | none =>
      rw [hseen] at h
      obtain ⟨amount, hamount, h⟩ := bind_eq_ok h
      have hP := hraw _ mem_cons_self canonical amount hcanonical hamount
      exact ih (fun e he => hraw e (.tail _ he)) (hn.set hP) h

theorem mem_of_normalizeResources {raw : List (String × ResourceValue)}
    {n : NormalizedResources} (h : normalizeResources raw = .ok n) :
    ∀ e ∈ resourceAmounts n,
      (∃ r ∈ raw, canonicalizeResourceKey r.1 = .ok e.1) ∧ e.2 < 2 ^ 64 := by
  apply forall_resourceAmounts (P := fun canonical a =>
    (∃ r ∈ raw, canonicalizeResourceKey r.1 = .ok canonical) ∧ a < 2 ^ 64)
  refine normalizeLoop_forall ?_ ?_ h
  · intro r hr canonical a hcanonical ha
    exact ⟨⟨r, hr, hcanonical⟩, lt_of_parseAmount_eq_ok ha⟩
  · constructor
    · rintro a ⟨⟩
    · rintro a ⟨⟩
    · rintro a ⟨⟩
    · rintro e ⟨⟩

def NormalizedResources.amount (n : NormalizedResources) : CanonicalResource → Option ℕ
  | .cpu => n.cpu
  | .gpu => n.gpu
  | .memory => n.memoryBytes
  | .custom name => n.custom.lookup name

theorem NormalizedResources.amount_set (n : NormalizedResources) (a : ℕ)
    (canonical other : CanonicalResource) :
    (n.set a canonical).amount other = if other = canonical then some a else n.amount other := by
  cases canonical <;> cases other <;>
    simp [NormalizedResources.set, NormalizedResources.amount, SortedMap.lookup_insert]

theorem amount_normalizeLoop_of_seen {canonical : CanonicalResource}
    {raw : List (String × ResourceValue)} {n n' : NormalizedResources}
    {seen : List (CanonicalResource × String)} (h : normalizeLoop raw n seen = .ok n')
    (hseen : (seen.lookup canonical).isSome) :
    n'.amount canonical = n.amount canonical ∧
      ∀ r ∈ raw, canonicalizeResourceKey r.1 ≠ .ok canonical := by
  induction raw generalizing n seen with
  | nil =>
    cases h
    exact ⟨rfl, fun r hr => absurd hr not_mem_nil⟩
  | cons e raw ih =>
    obtain ⟨key, _⟩ := e
    rw [normalizeLoop] at h
    obtain ⟨c, hc, h⟩ := bind_eq_ok h
    cases hlookup : seen.lookup c with
    | some =>
      rw [hlookup] at h
      cases h
    | none =>
      rw [hlookup] at h
      obtain ⟨a, -, h⟩ := bind_eq_ok h
      have hne : canonical ≠ c := by
        intro heq
        rw [heq, hlookup] at hseen
        cases hseen
      have hstill : ((SortedMap.insert c key seen).lookup canonical).isSome := by
        rw [SortedMap.lookup_insert, if_neg hne]
        exact hseen
      obtain ⟨hamount, hrest⟩ := ih h hstill
      constructor
      · rw [hamount, NormalizedResources.amount_set, if_neg hne]
      · intro r hr
        rcases mem_cons.mp hr with rfl | hr
        · rw [hc]
          intro heq
          exact hne (Except.ok.inj heq).symm
        · exact hrest r hr

/-- What a successful normalization has read of the declarations. -/
structure Normalizes (raw : List (String × ResourceValue)) (n : NormalizedResources) : Prop where
  /-- Every resource is declared by at most one entry. -/
  nodup : (raw.map fun r => canonicalizeResourceKey r.1).Nodup
  /-- Every declaration gives the amount of its resource. -/
  amount : ∀ r ∈ raw, ∃ canonical a, canonicalizeResourceKey r.1 = .ok canonical ∧
    parseAmount canonical r.1 r.2 = .ok a ∧ n.amount canonical = some a

theorem normalizeLoop_normalizes {raw : List (String × ResourceValue)}
    {n n' : NormalizedResources} {seen : List (CanonicalResource × String)}
    (h : normalizeLoop raw n seen = .ok n') : Normalizes raw n' := by
  induction raw generalizing n seen with
  | nil => exact ⟨nodup_nil, fun r hr => absurd hr not_mem_nil⟩
  | cons e raw ih =>
    obtain ⟨key, _⟩ := e
    rw [normalizeLoop] at h
    obtain ⟨c, hc, h⟩ := bind_eq_ok h
    cases hlookup : seen.lookup c with
    | some =>
      rw [hlookup] at h
      cases h
    | none =>
      rw [hlookup] at h
      obtain ⟨a, ha, h⟩ := bind_eq_ok h
      have hnow : ((SortedMap.insert c key seen).lookup c).isSome := by
        rw [SortedMap.lookup_insert, if_pos rfl]
        rfl
      obtain ⟨hamount, hrest⟩ := amount_normalizeLoop_of_seen h hnow
      constructor
      · rw [map_cons]
        apply nodup_cons.mpr
        constructor
        · intro hmem
          obtain ⟨r, hr, heq⟩ := mem_map.mp hmem
          exact hrest r hr (heq.trans hc)
        · exact (ih h).nodup
      · intro r hr
        rcases mem_cons.mp hr with rfl | hr
        · refine ⟨c, a, hc, ha, ?_⟩
          rw [hamount, NormalizedResources.amount_set, if_pos rfl]
        · exact (ih h).amount r hr

theorem normalizes_of_normalizeResources {raw : List (String × ResourceValue)}
    {n : NormalizedResources} (h : normalizeResources raw = .ok n) : Normalizes raw n :=
  normalizeLoop_normalizes h

theorem declared_of_normalizeResources {raw : List (String × ResourceValue)}
    {n : NormalizedResources} (h : normalizeResources raw = .ok n) :
    n.Forall fun canonical _ => ∃ r ∈ raw, canonicalizeResourceKey r.1 = .ok canonical := by
  refine normalizeLoop_forall ?_ ?_ h
  · intro r hr canonical a hcanonical ha
    exact ⟨r, hr, hcanonical⟩
  · constructor
    · rintro a ⟨⟩
    · rintro a ⟨⟩
    · rintro a ⟨⟩
    · rintro e ⟨⟩

theorem Normalizes.parsed {raw : List (String × ResourceValue)} {n : NormalizedResources}
    (h : Normalizes raw n) {r : String × ResourceValue} (hr : r ∈ raw)
    {canonical : CanonicalResource} (hkey : canonicalizeResourceKey r.1 = .ok canonical) :
    ∃ a, parseAmount canonical r.1 r.2 = .ok a ∧ n.amount canonical = some a := by
  obtain ⟨c, a, hc, ha, hamount⟩ := h.amount r hr
  have heq : c = canonical := Except.ok.inj (hc.symm.trans hkey)
  rw [heq] at ha hamount
  exact ⟨a, ha, hamount⟩

theorem Normalizes.unique {raw : List (String × ResourceValue)} {n : NormalizedResources}
    (h : Normalizes raw n) {r r' : String × ResourceValue} (hr : r ∈ raw) (hr' : r' ∈ raw)
    (heq : canonicalizeResourceKey r.1 = canonicalizeResourceKey r'.1) : r = r' :=
  inj_on_of_nodup_map h.nodup hr hr' heq

end OxyMake.ResourceNormalization
