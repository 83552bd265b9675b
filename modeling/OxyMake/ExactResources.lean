import OxyMake.MachineDecimals

/-!
# Normalized amounts are the declared ones

A declaration reads as an integer or as a spelling of a decimal, with a unit
from its key or from the end of its text. The normalized amount is exactly the
declared number of units; what is negative, not whole, too large, spelled in no
way or declared twice is rejected, and every short decimal that is none of that
is accepted.
-/

namespace OxyMake.ExactResources

open List
open Admission ResourceNormalization DecimalText DecimalNumerals DecimalParsing

/-! ### Memory strings -/

/-- Spelling of an amount of memory: a decimal with a unit behind it. -/
structure MemorySpelling where
  number : Spelling
  suffix : List Char
  unit : ℕ
  after : List Char
  blank_after : Blank after
  /-- The unit is one of the known ones, or bytes without a name. -/
  isUnit : suffix = [] ∧ unit = 1 ∨
    ∃ name, (name, unit) ∈ units ∧ suffix.map Char.toUpper = name.toList

def MemorySpelling.text (m : MemorySpelling) : List Char :=
  m.number.text ++ (m.suffix ++ m.after)

def isUnitLetter (c : Char) : Bool :=
  c = 'B' || c = 'K' || c = 'M' || c = 'G' || c = 'T' || c = 'I'

theorem find_units_none (front : List Char) {c : Char} (hc : isUnitLetter c = false) :
    (units.find? fun unit => unit.1.toList.isSuffixOf (front ++ [c])) = none := by
  simp only [isUnitLetter, Bool.or_eq_false_iff, decide_eq_false_iff_not] at hc
  obtain ⟨⟨⟨⟨⟨hB, hK⟩, hM⟩, hG⟩, hT⟩, -⟩ := hc
  simp [units, List.isSuffixOf, Ne.symm hB, Ne.symm hK, Ne.symm hM, Ne.symm hG, Ne.symm hT]

theorem find_units_name (front : List Char) {c : Char} (hc : isUnitLetter c = false)
    {name : String} {unit : ℕ} (hname : (name, unit) ∈ units) :
    (units.find? fun unit => unit.1.toList.isSuffixOf (front ++ c :: name.toList)) =
      some (name, unit) := by
  simp only [isUnitLetter, Bool.or_eq_false_iff, decide_eq_false_iff_not] at hc
  obtain ⟨⟨⟨⟨⟨-, hK⟩, hM⟩, hG⟩, hT⟩, hI⟩ := hc
  simp only [units, mem_cons, Prod.mk.injEq, not_mem_nil, or_false] at hname
  rcases hname with ⟨rfl, rfl⟩ | ⟨rfl, rfl⟩ | ⟨rfl, rfl⟩ | ⟨rfl, rfl⟩ | ⟨rfl, rfl⟩ | ⟨rfl, rfl⟩ |
    ⟨rfl, rfl⟩ | ⟨rfl, rfl⟩ | ⟨rfl, rfl⟩ | ⟨rfl, rfl⟩ | ⟨rfl, rfl⟩ | ⟨rfl, rfl⟩ | ⟨rfl, rfl⟩
  all_goals
    simp [units, List.isSuffixOf, Ne.symm hK, Ne.symm hM, Ne.symm hG, Ne.symm hT, Ne.symm hI]

theorem isUnitLetter_toUpper {c : Char}
    (hc : c.isDigit = true ∨ c = '.' ∨ isWhitespace c = true) :
    isUnitLetter c.toUpper = false := by
  have hcode : c.toNat < 65 ∨ 122 < c.toNat := by
    rcases hc with hc | rfl | hc
    · have hbounds := toNat_of_isDigit hc
      omega
    · exact Or.inl (by decide)
    · unfold isWhitespace at hc
      simp only [Bool.or_eq_true, Bool.and_eq_true, decide_eq_true_eq] at hc
      omega
  have hupper : c.toUpper = c := by
    delta Char.toUpper
    rw [dif_neg]
    rintro ⟨hlow, hhigh⟩
    have hlow' : 97 ≤ c.toNat := UInt32.le_iff_toNat_le.mp hlow
    have hhigh' : c.toNat ≤ 122 := UInt32.le_iff_toNat_le.mp hhigh
    omega
  have hne : ∀ d : Char, 65 ≤ d.toNat ∧ d.toNat ≤ 90 → c ≠ d := by
    rintro d hd rfl
    omega
  rw [hupper]
  simp only [isUnitLetter, Bool.or_eq_false_iff, decide_eq_false_iff_not]
  exact ⟨⟨⟨⟨⟨hne 'B' (by decide), hne 'K' (by decide)⟩, hne 'M' (by decide)⟩,
    hne 'G' (by decide)⟩, hne 'T' (by decide)⟩, hne 'I' (by decide)⟩

theorem exists_end (s : Spelling) :
    ∃ init c, s.core ++ s.after = init ++ [c] ∧
      (c.isDigit = true ∨ c = '.' ∨ isWhitespace c = true) := by
  by_cases hafter : s.after = []
  · obtain ⟨init, c, htext, hc⟩ := exists_last s.numeral
    refine ⟨s.sign.text ++ init, c, ?_, hc.imp_right Or.inl⟩
    rw [hafter, append_nil, Spelling.core, htext, append_assoc]
  · refine ⟨s.core ++ s.after.dropLast, s.after.getLast hafter, ?_, ?_⟩
    · rw [append_assoc, dropLast_append_getLast]
    · exact Or.inr (Or.inr (s.blank_after _ (getLast_mem hafter)))

theorem parseDecimal_congr (s s' : Spelling) (hsign : s.sign = s'.sign)
    (hnumeral : s.numeral = s'.numeral) : parseDecimal s.text = parseDecimal s'.text := by
  rw [parseDecimal_text, parseDecimal_text, hsign, hnumeral]

theorem unitLetters_of_mem {name : String} {unit : ℕ} (h : (name, unit) ∈ units) :
    name.toList ≠ [] ∧ ∀ c ∈ name.toList, isUnitLetter c = true := by
  have hall : units.all (fun u => !u.1.toList.isEmpty && u.1.toList.all isUnitLetter) = true := by
    decide
  have hunit := all_eq_true.mp hall _ h
  rw [Bool.and_eq_true, Bool.not_eq_true', isEmpty_eq_false_iff, all_eq_true] at hunit
  exact hunit

theorem exists_core_head (s : Spelling) :
    ∃ c rest, s.core = c :: rest ∧ isWhitespace c = false := by
  obtain ⟨c, rest, htext, hc⟩ := exists_head s.numeral
  rw [Spelling.core, htext]
  cases s.sign with
  | none =>
    refine ⟨c, rest, rfl, ?_⟩
    rcases hc with hc | rfl
    · exact isWhitespace_of_isDigit hc
    · rfl
  | plus => exact ⟨'+', c :: rest, rfl, rfl⟩
  | minus => exact ⟨'-', c :: rest, rfl, rfl⟩

theorem blank_nil : Blank [] := fun _ hc => absurd hc not_mem_nil

/-- A spelling with other white space behind it and none in front. -/
def followedBy (s : Spelling) (after : List Char) (hafter : Blank after) : Spelling :=
  ⟨[], s.sign, s.numeral, after, blank_nil, hafter⟩

theorem MemorySpelling.trim_plain {m : MemorySpelling} (hsuffix : m.suffix = []) :
    trim m.text = m.number.core := by
  have hafter : Blank (m.number.after ++ m.after) := by
    intro c hc
    rcases mem_append.mp hc with hc | hc
    · exact m.number.blank_after c hc
    · exact m.blank_after c hc
  have htext : m.text = Spelling.text { m.number with
      after := m.number.after ++ m.after
      blank_after := hafter } := by
    rw [MemorySpelling.text, hsuffix, Spelling.text, Spelling.text, Spelling.core, Spelling.core]
    simp only [nil_append, append_assoc]
  rw [htext, trim_text]
  rfl

theorem MemorySpelling.trim_unit {m : MemorySpelling} {name : String} {unit : ℕ}
    (hname : (name, unit) ∈ units) (hsuffix : m.suffix.map Char.toUpper = name.toList) :
    trim m.text = m.number.core ++ m.number.after ++ m.suffix := by
  obtain ⟨hne, hletters⟩ := unitLetters_of_mem hname
  have hsuffix' : m.suffix ≠ [] := by
    intro hnil
    rw [hnil] at hsuffix
    exact hne hsuffix.symm
  have hlast : isWhitespace (m.suffix.getLast hsuffix') = false := by
    apply Bool.eq_false_of_not_eq_true
    intro hblank
    have hno := isUnitLetter_toUpper (Or.inr (Or.inr hblank))
    have hmem : (m.suffix.getLast hsuffix').toUpper ∈ name.toList := by
      rw [← hsuffix]
      exact mem_map_of_mem (getLast_mem hsuffix')
    rw [hletters _ hmem] at hno
    cases hno
  have htext : m.text =
      m.number.before ++ (m.number.core ++ m.number.after ++ m.suffix ++ m.after) := by
    rw [MemorySpelling.text, Spelling.text]
    simp only [append_assoc]
  obtain ⟨c, rest, hhead, hc⟩ := exists_core_head m.number
  rw [htext]
  apply trim_pad m.number.blank_before m.blank_after
  · refine ⟨c, rest ++ m.number.after ++ m.suffix, ?_, hc⟩
    rw [hhead, cons_append, cons_append]
  · refine ⟨m.number.core ++ m.number.after ++ m.suffix.dropLast, _, ?_, hlast⟩
    rw [append_assoc _ m.suffix.dropLast, dropLast_append_getLast]

theorem parseMemoryString_text (m : MemorySpelling) {v : String} (hv : v.toList = m.text) :
    parseMemoryString v = (parseDecimal m.number.text).map (·, m.unit) := by
  obtain ⟨c, _, hhead, -⟩ := exists_core_head m.number
  rw [parseMemoryString, hv]
  dsimp only
  rcases m.isUnit with ⟨hsuffix, hunit⟩ | ⟨name, hname, hsuffix⟩
  · obtain ⟨init, d, hlast, hd⟩ := exists_end (followedBy m.number [] blank_nil)
    have hcore : m.number.core = init ++ [d] := (append_nil _).symm.trans hlast
    have hfind : (units.find? fun unit =>
        unit.1.toList.isSuffixOf (m.number.core.map Char.toUpper)) = none := by
      rw [hcore, map_append, map_singleton]
      exact find_units_none _ (isUnitLetter_toUpper hd)
    have hempty : m.number.core.isEmpty = false := by
      rw [hhead]
      rfl
    have hparse : parseDecimal m.number.core = parseDecimal m.number.text := by
      rw [parseDecimal_congr m.number (followedBy m.number [] blank_nil) rfl rfl]
      exact congrArg parseDecimal (append_nil _).symm
    rw [MemorySpelling.trim_plain hsuffix, hempty, if_neg Bool.false_ne_true, hfind, hunit, hparse]
  · obtain ⟨init, d, hlast, hd⟩ := exists_end m.number
    have hlength : m.suffix.length = name.length := by
      rw [← String.length_toList, ← hsuffix, length_map]
    have hfind : (units.find? fun unit => unit.1.toList.isSuffixOf
        ((m.number.core ++ m.number.after ++ m.suffix).map Char.toUpper)) =
          some (name, m.unit) := by
      rw [hlast, map_append, map_append, map_singleton, hsuffix,
        append_assoc, singleton_append]
      exact find_units_name _ (isUnitLetter_toUpper hd) hname
    have hempty : (m.number.core ++ m.number.after ++ m.suffix).isEmpty = false := by
      rw [hhead]
      rfl
    have hparse : parseDecimal (m.number.core ++ m.number.after) =
        parseDecimal m.number.text := by
      rw [parseDecimal_congr m.number
        (followedBy m.number m.number.after m.number.blank_after) rfl rfl]
      rfl
    rw [MemorySpelling.trim_unit hname hsuffix, hempty, if_neg Bool.false_ne_true, hfind]
    dsimp only
    rw [length_append, hlength, Nat.add_sub_cancel, take_left, hparse]

theorem exists_indented (s : Spelling) {before : List Char} (hbefore : Blank before) :
    ∃ s' : Spelling, s'.text = before ++ s.text := by
  refine ⟨⟨before ++ s.before, s.sign, s.numeral, s.after, ?_, s.blank_after⟩, ?_⟩
  · intro c hc
    rcases mem_append.mp hc with hc | hc
    · exact hbefore c hc
    · exact s.blank_before c hc
  · rw [Spelling.text, Spelling.text, Spelling.core, Spelling.core, append_assoc]

theorem exists_memorySpelling {v : String} {p : Decimal × ℕ}
    (h : parseMemoryString v = .ok p) : ∃ m : MemorySpelling, m.text = v.toList := by
  obtain ⟨_, after, hbefore, hafter, htext⟩ := exists_trim v.toList
  rw [parseMemoryString] at h
  dsimp only at h
  by_cases hempty : (trim v.toList).isEmpty = true
  · rw [if_pos hempty] at h
    cases h
  rw [if_neg hempty] at h
  cases hfind : units.find? fun unit =>
      unit.1.toList.isSuffixOf ((trim v.toList).map Char.toUpper) with
  | none =>
    rw [hfind] at h
    cases hparse : parseDecimal (trim v.toList) with
    | error =>
      rw [hparse] at h
      cases h
    | ok =>
      obtain ⟨s, hs⟩ := exists_spelling hparse
      obtain ⟨s', hs'⟩ := exists_indented s hbefore
      refine ⟨⟨s', [], 1, after, hafter, Or.inl ⟨rfl, rfl⟩⟩, ?_⟩
      rw [MemorySpelling.text, hs', hs, nil_append, append_assoc]
      exact htext.symm
  | some unit =>
    obtain ⟨name, multiplier⟩ := unit
    rw [hfind] at h
    have hmem := mem_of_find?_eq_some hfind
    have hsuffix := find?_some hfind
    obtain ⟨_, hfront⟩ := isSuffixOf_iff_suffix.mp hsuffix
    obtain ⟨number, suffix, htrim, -, hname⟩ := map_eq_append_iff.mp hfront.symm
    have hlength : suffix.length = name.length := by
      rw [← String.length_toList, ← hname, length_map]
    dsimp only at h
    rw [htrim, length_append, hlength, Nat.add_sub_cancel, take_left] at h
    cases hparse : parseDecimal number with
    | error =>
      rw [hparse] at h
      cases h
    | ok =>
      obtain ⟨s, hs⟩ := exists_spelling hparse
      obtain ⟨s', hs'⟩ := exists_indented s hbefore
      refine ⟨⟨s', suffix, multiplier, after, hafter, Or.inr ⟨name, hmem, hname⟩⟩, ?_⟩
      rw [MemorySpelling.text, hs', hs, append_assoc, ← append_assoc number, ← htrim]
      exact htext.symm

/-! ### What a declaration says -/

/-- What is declared, apart from the unit. -/
inductive Reading
  | int (v : ℤ)
  | text (s : Spelling)

def Reading.value : Reading → ℚ
  | .int v => v
  | .text s => s.value

def keyUnit (canonical : CanonicalResource) (key : String) : ℕ :=
  if canonical = .memory then
    if key = "mem_mb" then 2 ^ 20 else if key = "mem_gb" then 2 ^ 30 else 1
  else tokenScale

/-- A declaration reads as a number of units. -/
inductive Declares : CanonicalResource → String → ResourceValue → Reading → ℕ → Prop
  | int (canonical : CanonicalResource) (key : String) (v : ℤ) :
      Declares canonical key (.int v) (.int v) (keyUnit canonical key)
  /-- A string counts units of its key, for counts and where the key names a unit. -/
  | text (canonical : CanonicalResource) (key text : String) (s : Spelling)
      (hkey : canonical ≠ .memory ∨ key = "mem_mb" ∨ key = "mem_gb")
      (htext : s.text = text.toList) :
      Declares canonical key (.str text) (.text s) (keyUnit canonical key)
  | memory (key text : String) (m : MemorySpelling) (hmb : key ≠ "mem_mb")
      (hgb : key ≠ "mem_gb") (htext : m.text = text.toList) :
      Declares .memory key (.str text) (.text m.number) m.unit

def Exact : ResourceValue → Prop
  | .float _ => False
  | _ => True

def Reading.decimal : Reading → Except ResourceValueErrorKind Decimal
  | .int v => if v < 0 then .error .negative else .ok ⟨v.toNat, 0⟩
  | .text s => parseDecimal s.text

theorem value_of_decimal {r : Reading} {d : Decimal} (h : r.decimal = .ok d) :
    0 ≤ r.value ∧ Decimal.value d = r.value := by
  cases r with
  | int v =>
    rw [Reading.decimal] at h
    split_ifs at h with hneg
    have hv := not_lt.mp hneg
    cases h
    constructor
    · show (0 : ℚ) ≤ (v : ℚ)
      exact_mod_cast hv
    · have hcast : ((v.toNat : ℕ) : ℚ) = (v : ℚ) := by
        rw [← Int.cast_natCast, Int.toNat_of_nonneg hv]
      rw [Decimal.value, neg_zero, zpow_zero, mul_one, hcast]
      rfl
  | text s =>
    obtain ⟨_, hvalue⟩ := value_of_parseDecimal h
    refine ⟨?_, hvalue⟩
    rw [← show Decimal.value d = (Reading.text s).value from hvalue, Decimal.value]
    exact mul_nonneg (Nat.cast_nonneg _) (zpow_nonneg (by norm_num) _)

theorem invalidValue_iff {α : Type} {key : String} {value : ResourceValue}
    {x : Except ResourceValueErrorKind α} {a : α} :
    invalidValue key value x = .ok a ↔ x = .ok a := by
  constructor
  · exact invalidValue_eq_ok
  · intro h
    rw [h]
    rfl

theorem amount_iff {α : Type} {key : String} {value : ResourceValue}
    {x : Except ResourceValueErrorKind α} {f : α → Except ResourceValueErrorKind ℕ} {a : ℕ} :
    (invalidValue key value x >>= fun p => invalidValue key value ((f p).bind toU64)) = .ok a ↔
      ∃ p, x = .ok p ∧ f p = .ok a ∧ a < 2 ^ 64 := by
  constructor
  · intro h
    obtain ⟨p, hp, h⟩ := bind_eq_ok h
    obtain ⟨v, hv, ha⟩ := bind_eq_ok (invalidValue_iff.mp h)
    have heq := toU64_eq_ok ha
    rw [← heq] at hv
    exact ⟨p, invalidValue_iff.mp hp, hv, lt_of_toU64_eq_ok ha⟩
  · rintro ⟨p, rfl, hp, ha⟩
    show invalidValue key value ((f p).bind toU64) = .ok a
    rw [hp, invalidValue_iff]
    show toU64 a = .ok a
    rw [toU64, if_pos ha]

theorem map_invalidValue {α β : Type} {key : String} {value : ResourceValue}
    {x : Except ResourceValueErrorKind α} {f : α → β} :
    (invalidValue key value x).map f = invalidValue key value (x.map f) := by
  cases x with
  | error | ok => rfl

/-- What it takes for a decimal to give an amount. -/
def Scales (x : Except ResourceValueErrorKind Decimal) (unit : ℕ) (e : ResourceValueErrorKind)
    (a : ℕ) : Prop :=
  ∃ d, x = .ok d ∧ scaleDecimal d unit e = .ok a ∧ a < 2 ^ 64

theorem parseCount_iff {canonical : CanonicalResource} {key : String} {value : ResourceValue}
    {x : Except ResourceValueErrorKind Decimal} (hcanonical : canonical ≠ .memory)
    (hx : decimalFromValue key value = invalidValue key value x) (a : ℕ) :
    parseAmount canonical key value = .ok a ↔ Scales x (keyUnit canonical key) .tooPrecise a := by
  have hparse : parseAmount canonical key value = parseCount key value := by
    cases canonical with
    | memory => exact absurd rfl hcanonical
    | cpu | gpu | custom => rfl
  rw [hparse, parseCount, hx, keyUnit, if_neg hcanonical]
  exact amount_iff

theorem parseMemory_iff {key : String} {value : ResourceValue} {unit : ℕ}
    {x : Except ResourceValueErrorKind Decimal}
    (hx : memoryDecimal key value = invalidValue key value (x.map (·, unit))) (a : ℕ) :
    parseAmount .memory key value = .ok a ↔ Scales x unit .fractionalByte a := by
  rw [parseAmount, parseMemory, hx, amount_iff]
  constructor
  · rintro ⟨p, hp, hscale, ha⟩
    cases x with
    | error => cases hp
    | ok d =>
      cases hp
      exact ⟨d, rfl, hscale, ha⟩
  · rintro ⟨d, rfl, hscale, ha⟩
    exact ⟨(d, unit), rfl, hscale, ha⟩

theorem memoryDecimal_of_keyUnit {key : String} {value : ResourceValue}
    {x : Except ResourceValueErrorKind Decimal}
    (hvalue : (∃ v, value = .int v) ∨ key = "mem_mb" ∨ key = "mem_gb")
    (hx : decimalFromValue key value = invalidValue key value x) :
    memoryDecimal key value = invalidValue key value (x.map (·, keyUnit .memory key)) := by
  unfold memoryDecimal
  rw [keyUnit, if_pos rfl]
  by_cases hmb : key = "mem_mb"
  · rw [if_pos hmb, if_pos hmb, hx, map_invalidValue]
  · rw [if_neg hmb, if_neg hmb]
    by_cases hgb : key = "mem_gb"
    · rw [if_pos hgb, if_pos hgb, hx, map_invalidValue]
    · rw [if_neg hgb, if_neg hgb]
      rcases hvalue with ⟨v, rfl⟩ | hkey | hkey
      · show (decimalFromValue key (.int v)).map (·, 1) = _
        rw [hx, map_invalidValue]
      · exact absurd hkey hmb
      · exact absurd hkey hgb

theorem parseAmount_iff {canonical : CanonicalResource} {key : String} {value : ResourceValue}
    {r : Reading} {unit : ℕ} (h : Declares canonical key value r unit) :
    ∃ e, ∀ a, parseAmount canonical key value = .ok a ↔ Scales r.decimal unit e a := by
  cases h with
  | int canonical key v =>
    by_cases hcanonical : canonical = .memory
    · subst hcanonical
      exact ⟨_, parseMemory_iff (memoryDecimal_of_keyUnit (Or.inl ⟨v, rfl⟩) rfl)⟩
    · exact ⟨_, parseCount_iff hcanonical rfl⟩
  | text canonical key text s hkey htext =>
    have hdecimal : decimalFromValue key (.str text) =
        invalidValue key (.str text) (Reading.text s).decimal := by
      rw [Reading.decimal, htext]
      rfl
    by_cases hcanonical : canonical = .memory
    · subst hcanonical
      have hkey' := hkey.resolve_left (not_not.mpr rfl)
      exact ⟨_, parseMemory_iff (memoryDecimal_of_keyUnit (Or.inr hkey') hdecimal)⟩
    · exact ⟨_, parseCount_iff hcanonical hdecimal⟩
  | memory key text m hmb hgb htext =>
    refine ⟨_, parseMemory_iff (x := parseDecimal m.number.text) ?_⟩
    rw [memoryDecimal, if_neg hmb, if_neg hgb, parseMemoryString_text m htext.symm]

theorem exists_decimalFromValue {canonical : CanonicalResource} {key : String}
    {value : ResourceValue} {a : ℕ}
    (hkey : canonical ≠ .memory ∨ key = "mem_mb" ∨ key = "mem_gb")
    (h : parseAmount canonical key value = .ok a) :
    ∃ d, decimalFromValue key value = .ok d := by
  by_cases hcanonical : canonical = .memory
  · subst hcanonical
    obtain ⟨p, hp, -⟩ := bind_eq_ok (x := memoryDecimal key value) h
    have hmap : ∃ unit, (decimalFromValue key value).map (·, unit) = .ok p := by
      unfold memoryDecimal at hp
      by_cases hmb : key = "mem_mb"
      · rw [if_pos hmb] at hp
        exact ⟨_, hp⟩
      · have hgb := (hkey.resolve_left (not_not.mpr rfl)).resolve_left hmb
        rw [if_neg hmb, if_pos hgb] at hp
        exact ⟨_, hp⟩
    obtain ⟨unit, hmap⟩ := hmap
    cases hdecimal : decimalFromValue key value with
    | error =>
      rw [hdecimal] at hmap
      cases hmap
    | ok d => exact ⟨d, rfl⟩
  · have hcount : parseCount key value = .ok a := by
      cases canonical with
      | memory => exact absurd rfl hcanonical
      | cpu | gpu | custom => exact h
    obtain ⟨d, hd, -⟩ := bind_eq_ok hcount
    exact ⟨d, hd⟩

theorem exists_declares {canonical : CanonicalResource} {key : String} {value : ResourceValue}
    {a : ℕ} (hvalue : Exact value) (h : parseAmount canonical key value = .ok a) :
    ∃ r unit, Declares canonical key value r unit := by
  cases value with
  | int v => exact ⟨_, _, .int canonical key v⟩
  | float => exact hvalue.elim
  | str text =>
    have hspelling : ∀ {d : Decimal}, decimalFromValue key (.str text) = .ok d →
        ∃ s : Spelling, s.text = text.toList := by
      intro d hd
      exact exists_spelling (invalidValue_eq_ok hd)
    by_cases hkey : canonical ≠ .memory ∨ key = "mem_mb" ∨ key = "mem_gb"
    · obtain ⟨d, hd⟩ := exists_decimalFromValue hkey h
      obtain ⟨s, hs⟩ := hspelling hd
      exact ⟨_, _, .text canonical key text s hkey hs⟩
    · rw [not_or, not_not, not_or] at hkey
      obtain ⟨rfl, hmb, hgb⟩ := hkey
      obtain ⟨p, hp, -⟩ := bind_eq_ok (x := memoryDecimal key (.str text)) h
      rw [memoryDecimal, if_neg hmb, if_neg hgb] at hp
      obtain ⟨m, hm⟩ := exists_memorySpelling (invalidValue_eq_ok hp)
      exact ⟨_, _, .memory key text m hmb hgb hm⟩

theorem unit_bounds {canonical : CanonicalResource} {key : String} {value : ResourceValue}
    {r : Reading} {unit : ℕ} (h : Declares canonical key value r unit) :
    0 < unit ∧ unit ≤ 2 ^ 40 := by
  have hkey : 0 < keyUnit canonical key ∧ keyUnit canonical key ≤ 2 ^ 40 := by
    unfold keyUnit tokenScale
    split_ifs <;> norm_num
  cases h with
  | int | text => exact hkey
  | memory key text m =>
    have hall : ∀ u ∈ units, 0 < u.2 ∧ u.2 ≤ 2 ^ 40 := by decide
    rcases m.isUnit with ⟨-, hunit⟩ | ⟨_, hname, -⟩
    · rw [hunit]
      norm_num
    · exact hall _ hname

theorem parseAmount_exact {canonical : CanonicalResource} {key : String} {value : ResourceValue}
    {r : Reading} {unit a : ℕ} (h : Declares canonical key value r unit)
    (ha : parseAmount canonical key value = .ok a) :
    0 ≤ r.value ∧ (a : ℚ) = r.value * unit ∧ a < 2 ^ 64 := by
  obtain ⟨e, hiff⟩ := parseAmount_iff h
  obtain ⟨d, hd, hscale, hlt⟩ := (hiff a).mp ha
  obtain ⟨hnonneg, hvalue⟩ := value_of_decimal hd
  refine ⟨hnonneg, ?_, hlt⟩
  rw [scaleDecimal_exact hscale, hvalue]

/-- An integer, or an unsigned decimal of at most twenty digits with an exponent
between minus ten and ten. -/
def Reading.Short : Reading → Prop
  | .int _ => True
  | .text s => s.sign ≠ .minus ∧ s.numeral.digits.length ≤ 20 ∧
      -10 ≤ s.numeral.power ∧ s.numeral.power ≤ 10

theorem decimal_of_short {r : Reading} (hshort : r.Short) (hnonneg : 0 ≤ r.value) :
    ∃ d, r.decimal = .ok d ∧ Decimal.value d = r.value ∧ d.scale ≤ 38 ∧
      (d.scale = 0 ∨ d.coefficient < 10 ^ 20) := by
  cases r with
  | int v =>
    have hv : 0 ≤ v := by
      have hcast : (0 : ℚ) ≤ (v : ℚ) := hnonneg
      exact_mod_cast hcast
    have hdecimal : (Reading.int v).decimal = .ok ⟨v.toNat, 0⟩ := by
      rw [Reading.decimal, if_neg (not_lt.mpr hv)]
    exact ⟨_, hdecimal, (value_of_decimal hdecimal).2, by norm_num, Or.inl rfl⟩
  | text s =>
    obtain ⟨hsign, hdigits, _, _⟩ := hshort
    have hplaces : s.numeral.places ≤ 20 := le_trans s.numeral.places_le hdigits
    have hcoefficient : s.numeral.coefficient < 10 ^ 20 :=
      lt_of_lt_of_le s.numeral.coefficient_lt (Nat.pow_le_pow_right (by norm_num) hdigits)
    have hfits : checkedDecimal s.numeral =
        .ok ⟨s.numeral.coefficient, s.numeral.places - s.numeral.power⟩ := by
      apply checkedDecimal_of_fits
      · exact lt_trans hcoefficient (by norm_num)
      · omega
      · omega
      · omega
    have hdecimal : (Reading.text s).decimal =
        .ok ⟨s.numeral.coefficient, s.numeral.places - s.numeral.power⟩ := by
      rw [Reading.decimal, parseDecimal_text, if_neg hsign, hfits]
    refine ⟨_, hdecimal, (value_of_decimal hdecimal).2, ?_, Or.inr hcoefficient⟩
    dsimp only
    omega

theorem parseAmount_of_short {canonical : CanonicalResource} {key : String}
    {value : ResourceValue} {r : Reading} {unit a : ℕ} (h : Declares canonical key value r unit)
    (hshort : r.Short) (hexact : (a : ℚ) = r.value * unit) (ha : a < 2 ^ 64) :
    parseAmount canonical key value = .ok a := by
  obtain ⟨hpos, hle⟩ := unit_bounds h
  have hunit : (0 : ℚ) < unit := Nat.cast_pos.mpr hpos
  have hnonneg : 0 ≤ r.value := by
    apply nonneg_of_mul_nonneg_left _ hunit
    rw [← hexact]
    exact Nat.cast_nonneg a
  obtain ⟨d, hd, hvalue, hscale, hsmall⟩ := decimal_of_short hshort hnonneg
  rw [← hvalue] at hexact
  have hproduct : d.coefficient * unit < 2 ^ 128 := by
    rcases hsmall with hzero | hcoefficient
    · rw [Decimal.value, hzero, neg_zero, zpow_zero, mul_one] at hexact
      have hall : a = d.coefficient * unit := by exact_mod_cast hexact
      omega
    · calc d.coefficient * unit ≤ 10 ^ 20 * 2 ^ 40 := Nat.mul_le_mul hcoefficient.le hle
        _ < 2 ^ 128 := by norm_num
  obtain ⟨e, hiff⟩ := parseAmount_iff h
  exact (hiff a).mpr ⟨d, hd, scaleDecimal_of_exact hpos hproduct hscale ha hexact, ha⟩

/-! ### Maps of declarations -/

theorem of_amount {P : CanonicalResource → ℕ → Prop} {n : NormalizedResources}
    (h : n.Forall P) {canonical : CanonicalResource} {a : ℕ}
    (ha : n.amount canonical = some a) : P canonical a := by
  cases canonical with
  | cpu => exact h.cpu a ha
  | gpu => exact h.gpu a ha
  | memory => exact h.memory a ha
  | custom name =>
    obtain ⟨_, _, hsplit, -⟩ := lookup_eq_some_iff.mp ha
    apply h.custom (name, a)
    rw [hsplit]
    exact mem_append_right _ mem_cons_self

/-- The amounts are exactly the declared ones. -/
structure ExactAmounts (raw : List (String × ResourceValue)) (n : NormalizedResources) :
    Prop where
  nodup : (raw.map fun r => canonicalizeResourceKey r.1).Nodup
  /-- Every declaration reads as a number of units, and in no way as another
  number than the amount, which is not negative and fits in 64 bits. -/
  declared : ∀ r ∈ raw, ∃ canonical a, canonicalizeResourceKey r.1 = .ok canonical ∧
    n.amount canonical = some a ∧ a < 2 ^ 64 ∧
    (∃ reading unit, Declares canonical r.1 r.2 reading unit) ∧
    ∀ reading unit, Declares canonical r.1 r.2 reading unit →
      0 ≤ reading.value ∧ (a : ℚ) = reading.value * unit
  only : ∀ canonical a, n.amount canonical = some a →
    ∃ r ∈ raw, canonicalizeResourceKey r.1 = .ok canonical

/-- A declaration without an amount: it reads in no way, or as a number of units
that is negative, not whole or too large. -/
def Unfit (r : String × ResourceValue) : Prop :=
  ∀ canonical, canonicalizeResourceKey r.1 = .ok canonical →
    (¬ ∃ reading unit, Declares canonical r.1 r.2 reading unit) ∨
    ∃ reading unit, Declares canonical r.1 r.2 reading unit ∧
      (reading.value < 0 ∨ (∀ a : ℕ, reading.value * unit ≠ a) ∨
        2 ^ 64 ≤ reading.value * unit)

/-- A short declaration of a whole amount of 64 bits. -/
def Acceptable (r : String × ResourceValue) : Prop :=
  ∃ canonical reading unit, ∃ a : ℕ, canonicalizeResourceKey r.1 = .ok canonical ∧
    Declares canonical r.1 r.2 reading unit ∧ reading.Short ∧
    (a : ℚ) = reading.value * unit ∧ a < 2 ^ 64

theorem exactAmounts_of_normalizeResources {raw : List (String × ResourceValue)}
    {n : NormalizedResources} (hraw : ∀ r ∈ raw, Exact r.2)
    (h : normalizeResources raw = .ok n) : ExactAmounts raw n := by
  have hnormalizes := normalizes_of_normalizeResources h
  refine ⟨hnormalizes.nodup, ?_, ?_⟩
  · intro r hr
    obtain ⟨canonical, a, hcanonical, ha, hamount⟩ := hnormalizes.amount r hr
    obtain ⟨reading, unit, hdeclares⟩ := exists_declares (hraw r hr) ha
    refine ⟨canonical, a, hcanonical, hamount, lt_of_parseAmount_eq_ok ha,
      ⟨reading, unit, hdeclares⟩, ?_⟩
    intro reading' unit' hdeclares'
    obtain ⟨hnonneg, hexact, -⟩ := parseAmount_exact hdeclares' ha
    exact ⟨hnonneg, hexact⟩
  · intro canonical a ha
    exact of_amount (declared_of_normalizeResources h) ha

theorem ExactAmounts.not_unfit {raw : List (String × ResourceValue)} {n : NormalizedResources}
    (h : ExactAmounts raw n) {r : String × ResourceValue} (hr : r ∈ raw) : ¬ Unfit r := by
  intro hunfit
  obtain ⟨canonical, a, hcanonical, -, _, hreads, hexact⟩ := h.declared r hr
  rcases hunfit canonical hcanonical with hno | ⟨reading, unit, hdeclares, hbad⟩
  · exact hno hreads
  · obtain ⟨hnonneg, heq⟩ := hexact reading unit hdeclares
    rcases hbad with hneg | hfraction | hlarge
    · exact absurd hnonneg (not_le.mpr hneg)
    · exact hfraction a heq.symm
    · rw [← heq] at hlarge
      have hle : 2 ^ 64 ≤ a := by exact_mod_cast hlarge
      omega

theorem exists_normalizeLoop {raw : List (String × ResourceValue)}
    (hnodup : (raw.map fun r => canonicalizeResourceKey r.1).Nodup)
    (hraw : ∀ r ∈ raw, ∃ canonical a, canonicalizeResourceKey r.1 = .ok canonical ∧
      parseAmount canonical r.1 r.2 = .ok a)
    (n : NormalizedResources) (seen : List (CanonicalResource × String))
    (hseen : ∀ r ∈ raw, ∀ canonical, canonicalizeResourceKey r.1 = .ok canonical →
      seen.lookup canonical = none) :
    ∃ n', normalizeLoop raw n seen = .ok n' := by
  induction raw generalizing n seen with
  | nil => exact ⟨n, rfl⟩
  | cons r raw ih =>
    obtain ⟨key, value⟩ := r
    obtain ⟨canonical, a, hcanonical, ha⟩ := hraw _ mem_cons_self
    rw [map_cons, nodup_cons] at hnodup
    have hrest : ∀ r ∈ raw, ∀ canonical', canonicalizeResourceKey r.1 = .ok canonical' →
        (SortedMap.insert canonical key seen).lookup canonical' = none := by
      intro r hr canonical' hcanonical'
      have hne : canonical' ≠ canonical := by
        rintro rfl
        apply hnodup.1
        rw [hcanonical, ← hcanonical']
        exact mem_map_of_mem hr
      rw [SortedMap.lookup_insert, if_neg hne]
      exact hseen r (.tail _ hr) canonical' hcanonical'
    obtain ⟨n', hn'⟩ := ih hnodup.2 (fun r hr => hraw r (.tail _ hr))
      (n.set a canonical) _ hrest
    refine ⟨n', ?_⟩
    have hcanonical' : canonicalizeResourceKey key = .ok canonical := hcanonical
    have ha' : parseAmount canonical key value = .ok a := ha
    have hlookup := hseen (key, value) mem_cons_self canonical hcanonical
    rw [normalizeLoop, hcanonical']
    dsimp only [bind, Except.bind]
    rw [hlookup, ha']
    exact hn'

/-! ### Rendering of counts -/

def displayAmount (t : ℕ) : List Char :=
  let whole := t / tokenScale
  let fractional := t % tokenScale
  if fractional = 0 then Nat.toDigits 10 whole
  else Nat.toDigits 10 whole ++ '.' :: padded 4 fractional

theorem length_padded {n : ℕ} (h : n < 10 ^ 4) : (padded 4 n).length = 4 := by
  have hle := (Nat.length_toDigits_le_iff (b := 10) (by norm_num) (by norm_num)).mpr h
  rw [padded, length_append, length_replicate]
  omega

def wholeNumeral (whole : ℕ) : Numeral where
  whole := Nat.toDigits 10 whole
  fraction := none
  exponent := none
  isNumeral_digits := by
    rw [Option.getD_none, append_nil]
    exact isNumeral_toDigits whole

def placedNumeral (whole fractional : ℕ) : Numeral where
  whole := Nat.toDigits 10 whole
  fraction := some (padded 4 fractional)
  exponent := none
  isNumeral_digits := by
    apply isNumeral_of_digits
    · exact append_ne_nil_of_left_ne_nil Nat.toDigits_ne_nil _
    · intro c hc
      rcases mem_append.mp hc with hc | hc
      · exact isDigit_of_isNumeral (isNumeral_toDigits whole) c hc
      · exact isDigit_of_isNumeral (isNumeral_padded 4 fractional) c hc

theorem coefficient_wholeNumeral (whole : ℕ) : (wholeNumeral whole).coefficient = whole := by
  rw [Numeral.coefficient, Numeral.digits, wholeNumeral]
  dsimp only
  rw [Option.getD_none, append_nil]
  exact Nat.ofDigitChars_ten_toDigits

theorem coefficient_placedNumeral (whole : ℕ) {fractional : ℕ} (h : fractional < 10 ^ 4) :
    (placedNumeral whole fractional).coefficient = whole * 10 ^ 4 + fractional := by
  have hwhole : Nat.ofDigitChars 10 (Nat.toDigits 10 whole) 0 = whole :=
    Nat.ofDigitChars_ten_toDigits
  rw [Numeral.coefficient, Numeral.digits, placedNumeral]
  dsimp only
  rw [Option.getD_some, numeralValue, Nat.ofDigitChars_append, hwhole, ofDigitChars_eq,
    length_padded h, numeralValue_padded]

theorem exists_display (t : ℕ) :
    ∃ n : Numeral, n.text = displayAmount t ∧ n.power = 0 ∧ n.places ≤ 4 ∧ n.coefficient ≤ t ∧
      n.value * tokenScale = t := by
  have hsplit := Nat.div_add_mod t tokenScale
  have hmod : t % tokenScale < 10 ^ 4 := Nat.mod_lt t (by norm_num [tokenScale])
  by_cases hzero : t % tokenScale = 0
  · have hcoefficient := coefficient_wholeNumeral (t / tokenScale)
    rw [hzero, add_zero] at hsplit
    refine ⟨wholeNumeral (t / tokenScale), ?_, rfl, Nat.zero_le 4, ?_, ?_⟩
    · rw [displayAmount, if_pos hzero]
      exact (append_nil _).trans (append_nil _)
    · rw [hcoefficient]
      exact Nat.div_le_self t tokenScale
    · have hpower : (wholeNumeral (t / tokenScale)).power -
          (wholeNumeral (t / tokenScale)).places = 0 := rfl
      rw [Numeral.value, hcoefficient, hpower, zpow_zero, mul_one, ← Nat.cast_mul, Nat.mul_comm,
        hsplit]
  · have hcoefficient := coefficient_placedNumeral (t / tokenScale) hmod
    have hscale : tokenScale = 10 ^ 4 := rfl
    have hplaces : (placedNumeral (t / tokenScale) (t % tokenScale)).places = 4 :=
      length_padded hmod
    have hall : t / tokenScale * 10 ^ 4 + t % tokenScale = t := by
      rw [hscale] at hsplit ⊢
      omega
    rw [hall] at hcoefficient
    refine ⟨placedNumeral (t / tokenScale) (t % tokenScale), ?_, rfl, hplaces.le,
      hcoefficient.le, ?_⟩
    · rw [displayAmount, if_neg hzero]
      exact append_nil _
    · have hpower : (placedNumeral (t / tokenScale) (t % tokenScale)).power = 0 := rfl
      rw [Numeral.value, hcoefficient, hpower, hplaces, hscale]
      norm_num
      ring

theorem parseCount_display {t : ℕ} (ht : t < 2 ^ 64) (key : String) :
    parseCount key (.str (String.ofList (displayAmount t))) = .ok t := by
  obtain ⟨n, htext, _, _, _, hvalue⟩ := exists_display t
  have hspelling : parseDecimal (displayAmount t) = .ok ⟨n.coefficient, n.places - n.power⟩ := by
    have hparse := parseDecimal_text ⟨[], .none, n, [], blank_nil, blank_nil⟩
    have hcore : Spelling.text ⟨[], .none, n, [], blank_nil, blank_nil⟩ = displayAmount t := by
      rw [← htext]
      exact append_nil _
    have hfits : checkedDecimal n = .ok ⟨n.coefficient, n.places - n.power⟩ := by
      apply checkedDecimal_of_fits <;> omega
    rw [hcore] at hparse
    rw [hparse, ← hfits]
    rfl
  have hdecimal : decimalFromValue key (.str (String.ofList (displayAmount t))) =
      invalidValue key (.str (String.ofList (displayAmount t)))
        (.ok ⟨n.coefficient, n.places - n.power⟩) := by
    rw [decimalFromValue, String.toList_ofList, hspelling]
  have hscale : scaleDecimal ⟨n.coefficient, n.places - n.power⟩ tokenScale .tooPrecise =
      .ok t := by
    apply scaleDecimal_of_exact
    · norm_num [tokenScale]
    · dsimp only [tokenScale]
      omega
    · dsimp only
      omega
    · exact ht
    · rw [value_numeral, hvalue]
  rw [parseCount, hdecimal, amount_iff]
  exact ⟨_, rfl, hscale, ht⟩

/-! ### The whole normalization -/

/-- Normalization gives the declared amounts exactly, rejects every map with a
repeated resource or an unfit declaration, accepts the short declarations of
whole amounts, computes in machine words what it would compute without bounds
on them, and reads back the text of every count. -/
theorem normalizeResources_exact (raw : List (String × ResourceValue))
    (hraw : ∀ r ∈ raw, Exact r.2) :
    (∀ n, normalizeResources raw = .ok n → ExactAmounts raw n) ∧
    ((¬ (raw.map fun r => canonicalizeResourceKey r.1).Nodup ∨ ∃ r ∈ raw, Unfit r) →
      ∃ e, normalizeResources raw = .error e) ∧
    ((raw.map fun r => canonicalizeResourceKey r.1).Nodup → (∀ r ∈ raw, Acceptable r) →
      ∃ n, normalizeResources raw = .ok n) ∧
    ((∀ input, (MachineDecimals.parseDecimal input).map MachineDecimals.MachineDecimal.exact =
        parseDecimal input) ∧
      (∀ v : BitVec 64, (MachineDecimals.fromInt v).map MachineDecimals.MachineDecimal.exact =
        (Reading.int v.toInt).decimal) ∧
      ∀ decimal multiplier e,
        (MachineDecimals.scaleDecimal decimal multiplier e).map BitVec.toNat =
          scaleDecimal decimal.exact multiplier.toNat e) ∧
    ∀ t < 2 ^ 64, ∀ key, parseCount key (.str (String.ofList (displayAmount t))) = .ok t := by
  refine ⟨?_, ?_, ?_, ⟨MachineDecimals.map_parseDecimal, MachineDecimals.map_fromInt,
    MachineDecimals.map_scaleDecimal⟩, fun t ht key => parseCount_display ht key⟩
  · intro n h
    exact exactAmounts_of_normalizeResources hraw h
  · intro hbad
    cases h : normalizeResources raw with
    | error e => exact ⟨e, rfl⟩
    | ok =>
      have hexact := exactAmounts_of_normalizeResources hraw h
      rcases hbad with hrepeated | ⟨r, hr, hunfit⟩
      · exact absurd hexact.nodup hrepeated
      · exact absurd hunfit (hexact.not_unfit hr)
  · intro hnodup hall
    apply exists_normalizeLoop hnodup
    · intro r hr
      obtain ⟨canonical, _, _, a, hcanonical, hdeclares, hshort, hexact, ha⟩ := hall r hr
      exact ⟨canonical, a, hcanonical, parseAmount_of_short hdeclares hshort hexact ha⟩
    · intro r hr canonical hcanonical
      rfl

def smallMachine : List (String × ResourceValue) := [("cpu", .str "0.5"), ("mem", .str "16 GiB")]

/-- The declarations of a small machine are normalized, exactly. -/
theorem normalizeResources_exact_small :
    ∃ n, normalizeResources smallMachine = .ok n ∧ ExactAmounts smallMachine n := by
  have hraw : ∀ r ∈ smallMachine, Exact r.2 := by
    intro r hr
    simp only [smallMachine, mem_cons, not_mem_nil, or_false] at hr
    rcases hr with rfl | rfl <;> trivial
  refine ⟨_, rfl, (normalizeResources_exact smallMachine hraw).1 _ rfl⟩

end OxyMake.ExactResources
