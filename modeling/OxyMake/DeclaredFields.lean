import OxyMake.RuleFields
import OxyMake.DecimalParsing

/-!
# Fields that mean what they declare

A duration is a number with a unit, an error strategy a name or a table, a guard
a tree of tables, and other fields are names. What a text or a value declares is
stated apart from the decoders. Each decoder gives the declared value exactly on
the vocabulary and range that can be declared; on the rest it gives a default,
another value or a shorter list.
-/

namespace OxyMake.DeclaredFields

open List Option
open Wildcard
open RuleInstances (ExpandMode GuardExpr)
open ResourceNormalization (trim bind_eq_ok)
open DecimalText RuleFields

/-! ### Durations -/

inductive TimeUnit
  | second
  | minute
  | hour
  | day
  deriving DecidableEq, Repr

def TimeUnit.letter : TimeUnit → Char
  | .second => 's'
  | .minute => 'm'
  | .hour => 'h'
  | .day => 'd'

def TimeUnit.seconds : TimeUnit → ℕ
  | .second => 1
  | .minute => 60
  | .hour => 3600
  | .day => 86400

structure Duration where
  plus : Bool
  digits : Text
  unit : Option TimeUnit
  /-- There is a digit, and nothing but digits. -/
  isNumeral_digits : isNumeral digits = true

namespace Duration

def number (d : Duration) : ℕ := numeralValue d.digits

def numberText (d : Duration) : Text := if d.plus then '+' :: d.digits else d.digits

def text (d : Duration) : Text := d.numberText ++ (d.unit.map TimeUnit.letter).toList

def unitSeconds (d : Duration) : ℕ := d.unit.elim 1 TimeUnit.seconds

def seconds (d : Duration) : ℕ := d.number * d.unitSeconds

theorem exists_last (d : Duration) : ∃ c, d.numberText.getLast? = some c ∧ c.isDigit = true := by
  have hne := ne_nil_of_isNumeral d.isNumeral_digits
  have hlast : d.digits.getLast? = some (d.digits.getLast hne) := getLast?_eq_some_getLast hne
  refine ⟨d.digits.getLast hne, ?_, ?_⟩
  · rw [numberText]
    cases d.plus with
    | false => exact hlast
    | true =>
      rw [if_pos rfl, getLast?_cons, hlast]
      rfl
  · exact isDigit_of_isNumeral d.isNumeral_digits _ (getLast_mem hne)

theorem splitUnit_text (d : Duration) : splitUnit d.text = (d.numberText, d.unitSeconds) := by
  rw [text, unitSeconds]
  cases hunit : d.unit with
  | some unit =>
    have hlast : (d.numberText ++ [unit.letter]).getLast? = some unit.letter :=
      getLast?_concat
    have hinit : (d.numberText ++ [unit.letter]).dropLast = d.numberText := dropLast_concat
    dsimp only [map_some, toList_some, elim_some]
    rw [splitUnit, hlast, hinit]
    cases unit <;> rfl
  | none =>
    obtain ⟨c, hlast, hdigit⟩ := d.exists_last
    have hne : ∀ u : Char, u.isDigit = false → ¬ d.numberText.getLast? = some u := by
      intro u hu heq
      rw [hlast] at heq
      rw [Option.some.inj heq, hu] at hdigit
      cases hdigit
    dsimp only [map_none, toList_none, elim_none]
    rw [append_nil, splitUnit, if_neg (hne 's' rfl), if_neg (hne 'm' rfl),
      if_neg (hne 'h' rfl), if_neg (hne 'd' rfl)]

theorem digits_of_numberText (d : Duration) :
    (if d.numberText.head? = some '+' then d.numberText.tail else d.numberText) = d.digits := by
  rw [numberText]
  cases d.plus with
  | true => rfl
  | false =>
    have hhead : ¬ d.digits.head? = some '+' := by
      intro heq
      have hdigit := isDigit_of_isNumeral d.isNumeral_digits '+' (mem_of_head? heq)
      cases hdigit
    rw [if_neg Bool.false_ne_true, if_neg hhead]

theorem parseU64_numberText (d : Duration) :
    parseU64 d.numberText = if d.number < 2 ^ 64 then some d.number else none := by
  rw [parseU64, digits_of_numberText, readNumeral_of_isNumeral d.isNumeral_digits]
  by_cases h : d.number < 2 ^ 64
  · rw [if_pos h]
    exact filter_some_pos (decide_eq_true h)
  · rw [if_neg h]
    exact filter_some_neg (decide_eq_false h)

theorem seconds_unique {d e : Duration} (h : d.text = e.text) : d.seconds = e.seconds := by
  have hsplit : (d.numberText, d.unitSeconds) = (e.numberText, e.unitSeconds) := by
    rw [← d.splitUnit_text, ← e.splitUnit_text, h]
  have hdigits : d.digits = e.digits := by
    rw [← d.digits_of_numberText, ← e.digits_of_numberText, (Prod.mk.inj hsplit).1]
  rw [seconds, seconds, number, number, hdigits, (Prod.mk.inj hsplit).2]

theorem unitSeconds_pos (d : Duration) : 0 < d.unitSeconds := by
  rw [unitSeconds]
  cases d.unit with
  | none => exact Nat.one_pos
  | some unit => cases unit <;> decide

theorem number_le (d : Duration) : d.number ≤ d.seconds :=
  Nat.le_mul_of_pos_right _ d.unitSeconds_pos

theorem text_ne_nil (d : Duration) : d.text ≠ [] := by
  obtain ⟨c, hlast, -⟩ := d.exists_last
  intro hnil
  rw [(append_eq_nil_iff.mp hnil).1] at hlast
  cases hlast

end Duration

/-- The duration that a text spells between white space. -/
def Spells (t : String) (d : Duration) : Prop := trim t.toList = d.text

variable {B R E : Type}

theorem parseDuration_of_spells {t : String} {d : Duration} (checks : Bool) (h : Spells t d) :
    parseDuration (E := E) checks t.toList =
      if d.number < 2 ^ 64 then (mulU64 checks d.number d.unitSeconds).map some
      else .ok none := by
  rw [Spells] at h
  dsimp only [parseDuration]
  rw [h, if_neg d.text_ne_nil, d.splitUnit_text]
  dsimp only
  rw [d.parseU64_numberText]
  by_cases hnumber : d.number < 2 ^ 64
  · rw [if_pos hnumber, if_pos hnumber]
  · rw [if_neg hnumber, if_neg hnumber]

theorem parseDuration_of_lt {t : String} {d : Duration} (checks : Bool) (h : Spells t d)
    (hlt : d.seconds < 2 ^ 64) :
    parseDuration (E := E) checks t.toList = .ok (some d.seconds) := by
  have hmul : mulU64 (E := E) checks d.number d.unitSeconds = .ok d.seconds := if_pos hlt
  rw [parseDuration_of_spells checks h, if_pos (Nat.lt_of_le_of_lt d.number_le hlt), hmul]
  rfl

theorem lt_of_parseDuration {checks : Bool} {s : Text} {secs : ℕ}
    (h : parseDuration (E := E) checks s = .ok (some secs)) : secs < 2 ^ 64 := by
  dsimp only [parseDuration] at h
  by_cases hnil : trim s = []
  · rw [if_pos hnil] at h
    cases h
  · rw [if_neg hnil] at h
    cases hnum : parseU64 (splitUnit (trim s)).1 with
    | none =>
      rw [hnum] at h
      cases h
    | some =>
      rw [hnum] at h
      dsimp only at h
      rw [mulU64] at h
      split_ifs at h with hlt hchecks
      · cases h
        exact hlt
      · cases h
      · cases h
        exact Nat.mod_lt _ (by decide)

theorem exists_numberText {text : Text} {num : ℕ} (h : parseU64 text = some num) :
    ∃ (plus : Bool) (digits : Text), isNumeral digits = true ∧ numeralValue digits = num ∧
      num < 2 ^ 64 ∧ text = if plus then '+' :: digits else digits := by
  rw [parseU64] at h
  obtain ⟨hread, hlt⟩ := filter_eq_some_iff.mp h
  obtain ⟨hnumeral, hvalue⟩ := readNumeral_eq_some hread
  have hlt' : num < 2 ^ 64 := of_decide_eq_true hlt
  by_cases hplus : text.head? = some '+'
  · rw [if_pos hplus] at hnumeral hvalue
    refine ⟨true, text.tail, hnumeral, hvalue, hlt', ?_⟩
    rw [if_pos rfl]
    exact (cons_head?_tail hplus).symm
  · rw [if_neg hplus] at hnumeral hvalue
    exact ⟨false, text, hnumeral, hvalue, hlt', (if_neg Bool.false_ne_true).symm⟩

theorem splitUnit_cases (s : Text) :
    ∃ unit : Option TimeUnit, s = (splitUnit s).1 ++ (unit.map TimeUnit.letter).toList ∧
      (splitUnit s).2 = unit.elim 1 TimeUnit.seconds := by
  have hcut : ∀ c : Char, s.getLast? = some c → s = s.dropLast ++ [c] := by
    intro c hc
    exact (dropLast_append_getLast? c hc).symm
  rw [splitUnit]
  split_ifs with hs hm hh hd
  · exact ⟨some .second, hcut 's' hs, rfl⟩
  · exact ⟨some .minute, hcut 'm' hm, rfl⟩
  · exact ⟨some .hour, hcut 'h' hh, rfl⟩
  · exact ⟨some .day, hcut 'd' hd, rfl⟩
  · exact ⟨none, (append_nil s).symm, rfl⟩

theorem overflow_of_parseDuration {checks : Bool} {t : String} {f : Failure E}
    (h : parseDuration checks t.toList = .error f) :
    f = .panicked ∧ checks = true ∧
      ∃ d, Spells t d ∧ d.number < 2 ^ 64 ∧ 2 ^ 64 ≤ d.seconds := by
  dsimp only [parseDuration] at h
  by_cases hnil : trim t.toList = []
  · rw [if_pos hnil] at h
    cases h
  · rw [if_neg hnil] at h
    cases hnum : parseU64 (splitUnit (trim t.toList)).1 with
    | none =>
      rw [hnum] at h
      cases h
    | some =>
      obtain ⟨plus, digits, hnumeral, hvalue, hlt, htext⟩ := exists_numberText hnum
      obtain ⟨unit, hsplit, hseconds⟩ := splitUnit_cases (trim t.toList)
      rw [hnum] at h
      dsimp only at h
      rw [mulU64] at h
      split_ifs at h with hfits hchecks
      · cases h
      · cases h
        refine ⟨rfl, hchecks, ⟨plus, digits, unit, hnumeral⟩, ?_, ?_, ?_⟩
        · rw [htext] at hsplit
          exact hsplit
        · exact hvalue.trans_lt hlt
        · rw [hseconds, ← hvalue] at hfits
          exact Nat.not_lt.mp hfits
      · cases h

/-! ### Error strategies -/

/-- A table declares a number of attempts, one where it has none. -/
def DeclaresCount (tbl : Table) (count : BitVec 32) : Prop :=
  (tbl.lookup "retry" = none ∧ count = 1) ∨
    ∃ n, tbl.lookup "retry" = some (.integer n) ∧ n.toInt = count.toNat

/-- A table declares a backoff, an exponential one where it has none. -/
def DeclaresBackoff (tbl : Table) (backoff : Backoff) : Prop :=
  (tbl.lookup "backoff" = none ∧ backoff = .exponential) ∨
    tbl.lookup "backoff" = some (.string backoff.name)

/-- A value declares a strategy. -/
inductive DeclaresStrategy : Value → ErrorStrategy → Prop
  | terminate : DeclaresStrategy (.string "terminate") .terminate
  | ignore : DeclaresStrategy (.string "ignore") .ignore
  | finish : DeclaresStrategy (.string "finish") .finish
  | retry {tbl : Table} {count : BitVec 32} {backoff : Backoff} :
      DeclaresCount tbl count → DeclaresBackoff tbl backoff →
        DeclaresStrategy (.table tbl) (.retry count backoff)

/-- The number of attempts of a table is in range: no value, or an integer of 32 bits. -/
def countInRange (tbl : Table) : Bool :=
  match tbl.lookup "retry" with
  | none => true
  | some (.integer n) => 0 ≤ n.toInt && n.toInt < 2 ^ 32
  | some _ => false

/-- The backoff of a table is in the vocabulary: no value, or one of three names. -/
def backoffKnown (tbl : Table) : Bool :=
  match tbl.lookup "backoff" with
  | none => true
  | some (.string s) => ["constant", "linear", "exponential"].contains s
  | some _ => false

/-- An error strategy is in the vocabulary: one of three names, or a table with a number of
attempts in range and a known backoff. -/
def strategyDocumented : Value → Bool
  | .string s => ["terminate", "ignore", "finish"].contains s
  | .table tbl => countInRange tbl && backoffKnown tbl
  | _ => false

/-- Number of attempts that the code reads off a table. -/
def countOf (tbl : Table) : BitVec 32 :=
  (((tbl.lookup "retry").bind Value.asInteger).getD 1).setWidth 32

def backoffOf (tbl : Table) : Backoff :=
  (((tbl.lookup "backoff").bind Value.asStr).map parseBackoff).getD .exponential

theorem toInt_setWidth_iff (n : BitVec 64) :
    n.toInt = (n.setWidth 32).toNat ↔ 0 ≤ n.toInt ∧ n.toInt < 2 ^ 32 := by
  have hwidth : (n.setWidth 32).toNat = n.toNat % 2 ^ 32 := BitVec.toNat_setWidth 32 n
  have hint := BitVec.toInt_eq_toNat_cond n
  have hlt := n.isLt
  rw [hwidth]
  constructor
  · intro h
    have hmod : n.toNat % 2 ^ 32 < 2 ^ 32 := Nat.mod_lt _ (by decide)
    omega
  · rintro ⟨_, _⟩
    split_ifs at hint with hsmall
    · have hsame : n.toNat % 2 ^ 32 = n.toNat := Nat.mod_eq_of_lt (by omega)
      omega
    · omega

theorem declaresCount_iff (tbl : Table) :
    DeclaresCount tbl (countOf tbl) ↔ countInRange tbl = true := by
  rw [DeclaresCount, countOf, countInRange]
  cases hretry : tbl.lookup "retry" with
  | none => exact ⟨fun _ => rfl, fun _ => .inl ⟨rfl, rfl⟩⟩
  | some value =>
    cases value with
    | integer n =>
      have hcast := toInt_setWidth_iff n
      dsimp only [bind_some, Value.asInteger, getD_some]
      rw [Bool.and_eq_true, decide_eq_true_eq, decide_eq_true_eq, ← hcast]
      constructor
      · rintro (⟨hnone, -⟩ | ⟨m, hm, hcount⟩)
        · cases hnone
        · cases hm
          exact hcount
      · intro h
        exact .inr ⟨n, rfl, h⟩
    | string | float | boolean | datetime | array | table =>
      constructor
      · rintro (⟨hnone, -⟩ | ⟨m, hm, -⟩)
        · cases hnone
        · cases hm
      · intro h
        cases h

theorem name_parseBackoff_iff (s : String) :
    s = (parseBackoff s).name ↔ ["constant", "linear", "exponential"].contains s = true := by
  rw [contains_iff_mem]
  constructor
  · intro h
    rw [h]
    cases parseBackoff s <;> decide
  · intro h
    simp only [mem_cons, not_mem_nil, or_false] at h
    rcases h with rfl | rfl | rfl <;> rfl

theorem declaresBackoff_iff (tbl : Table) :
    DeclaresBackoff tbl (backoffOf tbl) ↔ backoffKnown tbl = true := by
  rw [DeclaresBackoff, backoffOf, backoffKnown]
  cases hbackoff : tbl.lookup "backoff" with
  | none => exact ⟨fun _ => rfl, fun _ => .inl ⟨rfl, rfl⟩⟩
  | some value =>
    cases value with
    | string =>
      dsimp only [bind_some, Value.asStr, map_some, getD_some]
      rw [← name_parseBackoff_iff]
      constructor
      · rintro (⟨hnone, -⟩ | hname)
        · cases hnone
        · exact Value.string.inj (Option.some.inj hname)
      · intro h
        exact .inr (congrArg (fun t => some (Value.string t)) h)
    | integer | float | boolean | datetime | array | table =>
      constructor
      · rintro (⟨hnone, -⟩ | hname)
        · cases hnone
        · cases hname
      · intro h
        cases h

theorem declaresStrategy_iff {v : Value} {s : ErrorStrategy}
    (h : parseErrorStrategy (E := E) (some v) = .ok s) :
    DeclaresStrategy v s ↔ strategyDocumented v = true := by
  cases v with
  | string =>
    rw [strategyDocumented, contains_iff_mem]
    constructor
    · intro hdeclares
      cases hdeclares <;> decide
    · intro hmem
      simp only [mem_cons, not_mem_nil, or_false] at hmem
      rcases hmem with rfl | rfl | rfl
      · cases h
        exact .terminate
      · cases h
        exact .ignore
      · cases h
        exact .finish
  | table =>
    rw [parseErrorStrategy] at h
    split_ifs at h
    cases h
    rw [strategyDocumented, Bool.and_eq_true, ← declaresCount_iff, ← declaresBackoff_iff]
    constructor
    · rintro ⟨⟩
      constructor <;> assumption
    · rintro ⟨hcount, hbackoff⟩
      exact .retry hcount hbackoff
  | integer | float | boolean | datetime | array =>
    constructor
    · rintro ⟨⟩
    · intro hdocumented
      cases hdocumented

/-! ### Guards -/

def Says (tbl : Table) (key text : String) : Prop := tbl.lookup key = some (.string text)

/-- A value spells a guard. The arrays of values list only items that are allowed. -/
inductive SpellsGuard (allowed : Value → Prop) : Value → GuardExpr → Prop
  | eq {tbl field value} : Says tbl "op" "eq" → Says tbl "field" field → Says tbl "value" value →
      SpellsGuard allowed (.table tbl) (.eq field.toList value.toList)
  | notEq {tbl field value} : Says tbl "op" "not_eq" → Says tbl "field" field →
      Says tbl "value" value →
      SpellsGuard allowed (.table tbl) (.notEq field.toList value.toList)
  | isIn {tbl field items} : Says tbl "op" "in" → Says tbl "field" field →
      tbl.lookup "values" = some (.array items) → (∀ item ∈ items, allowed item) →
      SpellsGuard allowed (.table tbl)
        (.isIn field.toList ((items.filterMap Value.asStr).map String.toList))
  | notIn {tbl field items} : Says tbl "op" "not_in" → Says tbl "field" field →
      tbl.lookup "values" = some (.array items) → (∀ item ∈ items, allowed item) →
      SpellsGuard allowed (.table tbl)
        (.notIn field.toList ((items.filterMap Value.asStr).map String.toList))
  | regex {tbl field pattern} : Says tbl "op" "regex" → Says tbl "field" field →
      Says tbl "pattern" pattern →
      SpellsGuard allowed (.table tbl) (.regex field.toList pattern.toList)
  | configEq {tbl key value} : Says tbl "op" "config_eq" → Says tbl "key" key →
      Says tbl "value" value →
      SpellsGuard allowed (.table tbl) (.configEq key.toList value.toList)
  | envSet {tbl var} : Says tbl "op" "env_set" → Says tbl "var" var →
      SpellsGuard allowed (.table tbl) (.envSet var.toList)
  | envEq {tbl var value} : Says tbl "op" "env_eq" → Says tbl "var" var →
      Says tbl "value" value → SpellsGuard allowed (.table tbl) (.envEq var.toList value.toList)
  | fileExists {tbl path} : Says tbl "op" "file_exists" → Says tbl "path" path →
      SpellsGuard allowed (.table tbl) (.fileExists path.toList)
  | and {tbl items conditions} : Says tbl "op" "and" →
      tbl.lookup "conditions" = some (.array items) →
      List.Forall₂ (SpellsGuard allowed) items conditions →
      SpellsGuard allowed (.table tbl) (.and conditions)
  | or {tbl items conditions} : Says tbl "op" "or" →
      tbl.lookup "conditions" = some (.array items) →
      List.Forall₂ (SpellsGuard allowed) items conditions →
      SpellsGuard allowed (.table tbl) (.or conditions)
  | not {tbl inner condition} : Says tbl "op" "not" → tbl.lookup "condition" = some inner →
      SpellsGuard allowed inner condition → SpellsGuard allowed (.table tbl) (.not condition)

def IsString (v : Value) : Prop := ∃ s, v = .string s

/-- A value declares a guard: it spells it, and every listed value is a string. -/
def DeclaresGuard (v : Value) (g : GuardExpr) : Prop := SpellsGuard IsString v g

/-- A value spells a guard, whatever is listed in it. -/
def ReadsGuard (v : Value) (g : GuardExpr) : Prop := SpellsGuard (fun _ => True) v g

theorem requireStr_eq_ok {tbl : Table} {key context s : String} :
    requireStr (E := E) tbl key context = .ok s ↔ Says tbl key s := by
  rw [requireStr, Says]
  cases tbl.lookup key with
  | none => exact ⟨nofun, nofun⟩
  | some v =>
    cases v with
    | string =>
      constructor
      · intro h
        cases h
        rfl
      · intro h
        cases h
        rfl
    | integer | float | boolean | datetime | array | table => exact ⟨nofun, nofun⟩

theorem requireStrArray_eq_ok {tbl : Table} {key context : String} {values : List String} :
    requireStrArray (E := E) tbl key context = .ok values ↔
      ∃ items, tbl.lookup key = some (.array items) ∧ items.filterMap Value.asStr = values := by
  rw [requireStrArray]
  cases tbl.lookup key with
  | none => exact ⟨nofun, nofun⟩
  | some v =>
    cases v with
    | array items =>
      constructor
      · intro h
        exact ⟨items, rfl, Except.ok.inj h⟩
      · rintro ⟨_, heq, rfl⟩
        cases heq
        rfl
    | string | integer | float | boolean | datetime | table => exact ⟨nofun, nofun⟩

theorem lookup_cons_of_ne {tbl : Table} {k key : String} (v : Value) (h : k ≠ key) :
    ((k, v) :: tbl).lookup key = tbl.lookup key := by
  rw [lookup_cons, beq_eq_false_iff_ne.mpr (Ne.symm h)]

variable {debug : String → String}

theorem requireGuardArray_eq_ok {tbl : Table} {key context : String}
    {conditions : List GuardExpr} :
    requireGuardArray (E := E) debug key context tbl = .ok conditions ↔
      ∃ items, tbl.lookup key = some (.array items) ∧
        parseGuardExprs (E := E) debug items = .ok conditions := by
  induction tbl with
  | nil => exact ⟨nofun, nofun⟩
  | cons entry rest ih =>
    obtain ⟨k, v⟩ := entry
    by_cases hk : k = key
    · subst hk
      rw [lookup_cons_self]
      unfold requireGuardArray
      rw [if_pos rfl]
      cases v with
      | array items =>
        constructor
        · intro h
          exact ⟨items, rfl, h⟩
        · rintro ⟨_, heq, h⟩
          cases heq
          exact h
      | string | integer | float | boolean | datetime | table => exact ⟨nofun, nofun⟩
    · unfold requireGuardArray
      rw [if_neg hk, lookup_cons_of_ne v hk]
      exact ih

theorem requireCondition_eq_ok {tbl : Table} {condition : GuardExpr} :
    requireCondition (E := E) debug tbl = .ok condition ↔
      ∃ inner, tbl.lookup "condition" = some inner ∧
        parseGuardExpr (E := E) debug inner = .ok condition := by
  induction tbl with
  | nil => exact ⟨nofun, nofun⟩
  | cons entry rest ih =>
    obtain ⟨k, v⟩ := entry
    rw [requireCondition]
    by_cases hk : k = "condition"
    · subst hk
      rw [if_pos rfl, lookup_cons_self]
      constructor
      · intro h
        exact ⟨v, rfl, h⟩
      · rintro ⟨inner, heq, h⟩
        cases heq
        exact h
    · rw [if_neg hk, lookup_cons_of_ne v hk]
      exact ih

theorem parseGuardExprs_eq_ok {items : List Value} {conditions : List GuardExpr} :
    parseGuardExprs (E := E) debug items = .ok conditions ↔
      List.Forall₂ (fun v g => parseGuardExpr (E := E) debug v = .ok g) items conditions := by
  induction items generalizing conditions with
  | nil =>
    rw [parseGuardExprs, forall₂_nil_left_iff]
    exact ⟨fun h => (Except.ok.inj h).symm, fun h => h ▸ rfl⟩
  | cons v rest ih =>
    rw [parseGuardExprs]
    constructor
    · intro h
      obtain ⟨_, hcondition, h⟩ := bind_eq_ok h
      obtain ⟨_, hrest, h⟩ := bind_eq_ok h
      cases h
      exact .cons hcondition (ih.mp hrest)
    · rintro (_ | ⟨hcondition, hrest⟩)
      rw [hcondition, ih.mpr hrest]
      rfl

theorem sizeOf_lookup {tbl : Table} {key : String} {v : Value} (h : tbl.lookup key = some v) :
    sizeOf v < sizeOf (Value.table tbl) := by
  have hentry : sizeOf v < sizeOf tbl := by
    induction tbl with
    | nil => cases h
    | cons entry rest ih =>
      obtain ⟨k, w⟩ := entry
      rw [List.cons.sizeOf_spec, Prod.mk.sizeOf_spec]
      by_cases hk : k = key
      · subst hk
        rw [lookup_cons_self] at h
        cases h
        omega
      · rw [lookup_cons_of_ne w hk] at h
        have hrest := ih h
        omega
  rw [Value.table.sizeOf_spec]
  omega

theorem sizeOf_item {items : List Value} {v : Value} (h : v ∈ items) :
    sizeOf v < sizeOf (Value.array items) := by
  have hitem := sizeOf_lt_of_mem h
  rw [Value.array.sizeOf_spec]
  omega

theorem says_op {tbl : Table} {op : String} :
    (tbl.lookup "op").bind Value.asStr = some op ↔ Says tbl "op" op := by
  rw [Says]
  cases tbl.lookup "op" with
  | none => exact ⟨nofun, nofun⟩
  | some v =>
    cases v with
    | string => exact ⟨fun h => by cases h; rfl, fun h => by cases h; rfl⟩
    | integer | float | boolean | datetime | array | table => exact ⟨nofun, nofun⟩

theorem all_allowed (items : List Value) : ∀ item ∈ items, (fun _ : Value => True) item :=
  fun _ _ => trivial

theorem requireTwo_eq_ok {tbl : Table} {k₁ k₂ : String} {make : String → String → GuardExpr}
    {g : GuardExpr}
    (h : (do
      let a ← requireStr tbl k₁ "when"
      let b ← requireStr tbl k₂ "when"
      return make a b : Except (Failure E) GuardExpr) = .ok g) :
    ∃ a b, Says tbl k₁ a ∧ Says tbl k₂ b ∧ make a b = g := by
  obtain ⟨a, ha, h⟩ := bind_eq_ok h
  obtain ⟨b, hb, h⟩ := bind_eq_ok h
  exact ⟨a, b, requireStr_eq_ok.mp ha, requireStr_eq_ok.mp hb, Except.ok.inj h⟩

theorem requireList_eq_ok {tbl : Table} {k₁ k₂ : String} {make : String → List String → GuardExpr}
    {g : GuardExpr}
    (h : (do
      let a ← requireStr tbl k₁ "when"
      let b ← requireStrArray tbl k₂ "when"
      return make a b : Except (Failure E) GuardExpr) = .ok g) :
    ∃ a items, Says tbl k₁ a ∧ tbl.lookup k₂ = some (.array items) ∧
      make a (items.filterMap Value.asStr) = g := by
  obtain ⟨a, ha, h⟩ := bind_eq_ok h
  obtain ⟨b, hb, h⟩ := bind_eq_ok h
  obtain ⟨items, hitems, rfl⟩ := requireStrArray_eq_ok.mp hb
  exact ⟨a, items, requireStr_eq_ok.mp ha, hitems, Except.ok.inj h⟩

theorem readsGuard_of_parse (v : Value) : ∀ {g : GuardExpr},
    parseGuardExpr (E := E) debug v = .ok g → ReadsGuard v g := by
  induction hn : sizeOf v using Nat.strong_induction_on generalizing v with
  | _ n ih =>
  subst hn
  have hitems : ∀ {tbl : Table} {key : String} {conditions : List GuardExpr}, v = .table tbl →
      requireGuardArray (E := E) debug key "when" tbl = .ok conditions →
        ∃ items, tbl.lookup key = some (.array items) ∧
          List.Forall₂ ReadsGuard items conditions := by
    intro tbl key conditions hv h
    obtain ⟨items, hlookup, hparse⟩ := requireGuardArray_eq_ok.mp h
    have hsize := sizeOf_lookup hlookup
    rw [← hv] at hsize
    refine ⟨items, hlookup, ?_⟩
    have hpairs := (forall₂_and_left items conditions).mpr
      ⟨fun item hitem => hitem, parseGuardExprs_eq_ok.mp hparse⟩
    refine hpairs.imp ?_
    rintro item g ⟨hitem, hg⟩
    exact ih _ ((sizeOf_item hitem).trans hsize) item rfl hg
  intro g h
  cases v with
  | string | integer | float | boolean | datetime | array => cases h
  | table tbl =>
    unfold parseGuardExpr at h
    cases hop : (tbl.lookup "op").bind Value.asStr with
    | none =>
      rw [hop] at h
      cases h
    | some =>
      rw [hop] at h
      have hsays := says_op.mp hop
      dsimp only at h
      split at h
      · obtain ⟨field, value, hfield, hvalue, rfl⟩ := requireTwo_eq_ok h
        exact .eq hsays hfield hvalue
      · obtain ⟨field, value, hfield, hvalue, rfl⟩ := requireTwo_eq_ok h
        exact .notEq hsays hfield hvalue
      · obtain ⟨field, items, hfield, hvalues, rfl⟩ := requireList_eq_ok h
        exact .isIn hsays hfield hvalues (all_allowed items)
      · obtain ⟨field, items, hfield, hvalues, rfl⟩ := requireList_eq_ok h
        exact .notIn hsays hfield hvalues (all_allowed items)
      · obtain ⟨field, _, hfield, hpattern, rfl⟩ := requireTwo_eq_ok h
        exact .regex hsays hfield hpattern
      · obtain ⟨key, value, hkey, hvalue, rfl⟩ := requireTwo_eq_ok h
        exact .configEq hsays hkey hvalue
      · obtain ⟨var, hvar, h⟩ := bind_eq_ok h
        cases h
        exact .envSet hsays (requireStr_eq_ok.mp hvar)
      · obtain ⟨var, value, hvar, hvalue, rfl⟩ := requireTwo_eq_ok h
        exact .envEq hsays hvar hvalue
      · obtain ⟨_, hpath, h⟩ := bind_eq_ok h
        cases h
        exact .fileExists hsays (requireStr_eq_ok.mp hpath)
      · obtain ⟨conditions, hconditions, h⟩ := bind_eq_ok h
        cases h
        obtain ⟨items, hlookup, hall⟩ := hitems rfl hconditions
        exact .and hsays hlookup hall
      · obtain ⟨conditions, hconditions, h⟩ := bind_eq_ok h
        cases h
        obtain ⟨items, hlookup, hall⟩ := hitems rfl hconditions
        exact .or hsays hlookup hall
      · obtain ⟨_, hcondition, h⟩ := bind_eq_ok h
        cases h
        obtain ⟨inner, hlookup, hinner⟩ := requireCondition_eq_ok.mp hcondition
        exact .not hsays hlookup (ih _ (sizeOf_lookup hlookup) inner rfl hinner)
      · cases h

theorem parse_of_spellsGuard {allowed : Value → Prop} (v : Value) : ∀ {g : GuardExpr},
    SpellsGuard allowed v g → parseGuardExpr (E := E) debug v = .ok g := by
  induction hn : sizeOf v using Nat.strong_induction_on generalizing v with
  | _ n ih =>
  subst hn
  have hitems : ∀ {tbl : Table} {items : List Value} {conditions : List GuardExpr},
      v = .table tbl → tbl.lookup "conditions" = some (.array items) →
        List.Forall₂ (SpellsGuard allowed) items conditions →
        requireGuardArray (E := E) debug "conditions" "when" tbl = .ok conditions := by
    intro tbl items conditions hv hlookup hall
    have hsize := sizeOf_lookup hlookup
    rw [← hv] at hsize
    refine requireGuardArray_eq_ok.mpr ⟨items, hlookup, parseGuardExprs_eq_ok.mpr ?_⟩
    have hpairs := (forall₂_and_left items conditions).mpr ⟨fun item hitem => hitem, hall⟩
    refine hpairs.imp ?_
    rintro item g ⟨hitem, hg⟩
    exact ih _ ((sizeOf_item hitem).trans hsize) item rfl hg
  intro g h
  cases h with
  | eq hop hfield hvalue =>
    unfold parseGuardExpr
    rw [says_op.mpr hop]
    dsimp only
    rw [requireStr_eq_ok.mpr hfield, requireStr_eq_ok.mpr hvalue]
    rfl
  | notEq hop hfield hvalue =>
    unfold parseGuardExpr
    rw [says_op.mpr hop]
    dsimp only
    rw [requireStr_eq_ok.mpr hfield, requireStr_eq_ok.mpr hvalue]
    rfl
  | isIn hop hfield hvalues _ =>
    unfold parseGuardExpr
    rw [says_op.mpr hop]
    dsimp only
    rw [requireStr_eq_ok.mpr hfield, requireStrArray_eq_ok.mpr ⟨_, hvalues, rfl⟩]
    rfl
  | notIn hop hfield hvalues _ =>
    unfold parseGuardExpr
    rw [says_op.mpr hop]
    dsimp only
    rw [requireStr_eq_ok.mpr hfield, requireStrArray_eq_ok.mpr ⟨_, hvalues, rfl⟩]
    rfl
  | regex hop hfield hpattern =>
    unfold parseGuardExpr
    rw [says_op.mpr hop]
    dsimp only
    rw [requireStr_eq_ok.mpr hfield, requireStr_eq_ok.mpr hpattern]
    rfl
  | configEq hop hkey hvalue =>
    unfold parseGuardExpr
    rw [says_op.mpr hop]
    dsimp only
    rw [requireStr_eq_ok.mpr hkey, requireStr_eq_ok.mpr hvalue]
    rfl
  | envSet hop hvar =>
    unfold parseGuardExpr
    rw [says_op.mpr hop]
    dsimp only
    rw [requireStr_eq_ok.mpr hvar]
    rfl
  | envEq hop hvar hvalue =>
    unfold parseGuardExpr
    rw [says_op.mpr hop]
    dsimp only
    rw [requireStr_eq_ok.mpr hvar, requireStr_eq_ok.mpr hvalue]
    rfl
  | fileExists hop hpath =>
    unfold parseGuardExpr
    rw [says_op.mpr hop]
    dsimp only
    rw [requireStr_eq_ok.mpr hpath]
    rfl
  | and hop hlookup hall =>
    unfold parseGuardExpr
    rw [says_op.mpr hop]
    dsimp only
    rw [hitems rfl hlookup hall]
    rfl
  | or hop hlookup hall =>
    unfold parseGuardExpr
    rw [says_op.mpr hop]
    dsimp only
    rw [hitems rfl hlookup hall]
    rfl
  | not hop hlookup hinner =>
    unfold parseGuardExpr
    rw [says_op.mpr hop]
    dsimp only
    rw [requireCondition_eq_ok.mpr ⟨_, hlookup, ih _ (sizeOf_lookup hlookup) _ rfl hinner⟩]
    rfl

theorem parseGuardExpr_eq_ok_iff {v : Value} {g : GuardExpr} :
    parseGuardExpr (E := E) debug v = .ok g ↔ ReadsGuard v g :=
  ⟨readsGuard_of_parse v, parse_of_spellsGuard v⟩

theorem declaresGuard_iff {v : Value} {g : GuardExpr}
    (h : parseGuardExpr (E := E) debug v = .ok g) :
    DeclaresGuard v g ↔ ∃ g', DeclaresGuard v g' := by
  constructor
  · intro hdeclares
    exact ⟨g, hdeclares⟩
  · rintro ⟨g', hdeclares⟩
    have hparse : parseGuardExpr (E := E) debug v = .ok g' := parse_of_spellsGuard v hdeclares
    rw [h] at hparse
    cases hparse
    exact hdeclares

/-! ### Small vocabularies -/

theorem name_parseExpandMode_iff (s : String) :
    s = modeName (parseExpandMode (some s)) ↔ ["product", "zip"].contains s = true := by
  rw [contains_iff_mem]
  constructor
  · intro h
    rw [h]
    cases parseExpandMode (some s) <;> decide
  · intro h
    simp only [mem_cons, not_mem_nil, or_false] at h
    rcases h with rfl | rfl <;> rfl

def classNames : List String :=
  ["deterministic", "seed_deterministic", "approximate", "non_reproducible"]

theorem name_parseReproducibility_iff (s : String) :
    s = (parseReproducibility (some s)).name ↔ classNames.contains s = true := by
  rw [contains_iff_mem]
  constructor
  · intro h
    rw [h]
    cases parseReproducibility (some s) <;> decide
  · intro h
    simp only [classNames, mem_cons, not_mem_nil, or_false] at h
    rcases h with rfl | rfl | rfl | rfl <;> rfl

/-! ### Outcomes without a panic -/

def Orderly {α : Type} (x : Except (Failure E) α) : Prop := x ≠ .error .panicked

theorem orderly_ok {α : Type} (a : α) : Orderly (.ok a : Except (Failure E) α) := nofun

theorem orderly_invalidField {α : Type} (field reason : String) :
    Orderly (.error (.invalidField field reason) : Except (Failure E) α) := nofun

theorem orderly_bind {α β : Type} {x : Except (Failure E) α} {f : α → Except (Failure E) β}
    (hx : Orderly x) (hf : ∀ a, x = .ok a → Orderly (f a)) : Orderly (x >>= f) := by
  cases x with
  | error =>
    intro h
    apply hx
    cases h
    rfl
  | ok a => exact hf a rfl

theorem orderly_requireStr (tbl : Table) (key context : String) :
    Orderly (requireStr (E := E) tbl key context) := by
  rw [requireStr]
  cases (tbl.lookup key).bind Value.asStr with
  | none => exact orderly_invalidField _ _
  | some text => exact orderly_ok text

theorem orderly_requireStrArray (tbl : Table) (key context : String) :
    Orderly (requireStrArray (E := E) tbl key context) := by
  rw [requireStrArray]
  cases (tbl.lookup key).bind Value.asArray with
  | none => exact orderly_invalidField _ _
  | some => exact orderly_ok _

theorem orderly_requireTwo (tbl : Table) (k₁ k₂ : String) (make : String → String → GuardExpr) :
    Orderly (do
      let a ← requireStr tbl k₁ "when"
      let b ← requireStr tbl k₂ "when"
      return make a b : Except (Failure E) GuardExpr) :=
  orderly_bind (orderly_requireStr tbl k₁ "when") fun _ _ =>
    orderly_bind (orderly_requireStr tbl k₂ "when") fun _ _ => orderly_ok _

mutual

theorem orderly_parseGuardExpr (debug : String → String) :
    ∀ v : Value, Orderly (parseGuardExpr (E := E) debug v)
  | .table tbl => by
    unfold parseGuardExpr
    cases (tbl.lookup "op").bind Value.asStr with
    | none => exact orderly_invalidField _ _
    | some =>
      dsimp only
      split
      · exact orderly_requireTwo tbl "field" "value" fun a b => .eq a.toList b.toList
      · exact orderly_requireTwo tbl "field" "value" fun a b => .notEq a.toList b.toList
      · exact orderly_bind (orderly_requireStr tbl _ _) fun _ _ =>
          orderly_bind (orderly_requireStrArray tbl _ _) fun _ _ => orderly_ok _
      · exact orderly_bind (orderly_requireStr tbl _ _) fun _ _ =>
          orderly_bind (orderly_requireStrArray tbl _ _) fun _ _ => orderly_ok _
      · exact orderly_requireTwo tbl "field" "pattern" fun a b => .regex a.toList b.toList
      · exact orderly_requireTwo tbl "key" "value" fun a b => .configEq a.toList b.toList
      · exact orderly_bind (orderly_requireStr tbl _ _) fun _ _ => orderly_ok _
      · exact orderly_requireTwo tbl "var" "value" fun a b => .envEq a.toList b.toList
      · exact orderly_bind (orderly_requireStr tbl _ _) fun _ _ => orderly_ok _
      · exact orderly_bind (orderly_requireGuardArray debug "conditions" "when" tbl) fun _ _ =>
          orderly_ok _
      · exact orderly_bind (orderly_requireGuardArray debug "conditions" "when" tbl) fun _ _ =>
          orderly_ok _
      · exact orderly_bind (orderly_requireCondition debug tbl) fun _ _ => orderly_ok _
      · exact orderly_invalidField _ _
  | .string _ => orderly_invalidField _ _
  | .integer _ => orderly_invalidField _ _
  | .float => orderly_invalidField _ _
  | .boolean => orderly_invalidField _ _
  | .datetime => orderly_invalidField _ _
  | .array _ => orderly_invalidField _ _

theorem orderly_requireGuardArray (debug : String → String) (key context : String) :
    ∀ tbl : Table, Orderly (requireGuardArray (E := E) debug key context tbl)
  | [] => orderly_invalidField _ _
  | (k, v) :: rest => by
    unfold requireGuardArray
    by_cases hk : k = key
    · rw [if_pos hk]
      match v with
      | .array items => exact orderly_parseGuardExprs debug items
      | .string _ | .integer _ | .float | .boolean | .datetime | .table _ =>
        exact orderly_invalidField _ _
    · rw [if_neg hk]
      exact orderly_requireGuardArray debug key context rest

theorem orderly_parseGuardExprs (debug : String → String) :
    ∀ items : List Value, Orderly (parseGuardExprs (E := E) debug items)
  | [] => orderly_ok _
  | v :: rest => by
    rw [parseGuardExprs]
    exact orderly_bind (orderly_parseGuardExpr debug v) fun _ _ =>
      orderly_bind (orderly_parseGuardExprs debug rest) fun _ _ => orderly_ok _

theorem orderly_requireCondition (debug : String → String) :
    ∀ tbl : Table, Orderly (requireCondition (E := E) debug tbl)
  | [] => orderly_invalidField _ _
  | (k, v) :: rest => by
    unfold requireCondition
    by_cases hk : k = "condition"
    · rw [if_pos hk]
      exact orderly_parseGuardExpr debug v
    · rw [if_neg hk]
      exact orderly_requireCondition debug rest

end

end OxyMake.DeclaredFields
