import Mathlib.Data.List.MinMax
import Mathlib.Order.Nat
import OxyMake.SacctRecords
import OxyMake.DecimalParsing

/-!
# What `sacct` says and what is read of it

An output of `sacct` is given by its rows: numerals, units and texts without
bars or line breaks. This module says what the rows mean and when the records
that are read of their rendering say the same.
-/

namespace OxyMake.SacctDecoding

open List Option
open Wildcard (Text)
open DecimalText
open ConfigStages (readBounded splitOnce)
open ResourceNormalization (trim isWhitespace)
open DecimalParsing (ne_of_isDigit isWhitespace_of_isDigit trim_eq_self)
open KeyedTable SacctRecords

/-! ### Rows and their meaning -/

/-- A decimal number as it is written. -/
structure Numeral where
  text : Text
  /-- There is a digit and nothing else. -/
  digits : isNumeral text = true

def Numeral.value (n : Numeral) : ℕ := numeralValue n.text

def Plain (text : Text) : Prop := '|' ∉ text ∧ '\n' ∉ text ∧ '\r' ∉ text

instance : DecidablePred Plain := fun text =>
  inferInstanceAs (Decidable ('|' ∉ text ∧ '\n' ∉ text ∧ '\r' ∉ text))

/-- A text that may stand between two bars. -/
structure Field where
  text : Text
  plain : Plain text

/-- The unit of a memory observation. -/
inductive RssUnit
  | byte | kilo | mega | giga | tera
  deriving DecidableEq

def RssUnit.text : RssUnit → Text
  | .byte => []
  | .kilo => ['K']
  | .mega => ['M']
  | .giga => ['G']
  | .tera => ['T']

def RssUnit.factor : RssUnit → ℕ
  | .byte => 1
  | .kilo => 1024
  | .mega => 1024 * 1024
  | .giga => 1024 * 1024 * 1024
  | .tera => 1024 * 1024 * 1024 * 1024

structure MaxRss where
  number : Numeral
  unit : RssUnit

def MaxRss.text (m : MaxRss) : Text := m.number.text ++ m.unit.text

def MaxRss.bytes (m : MaxRss) : ℕ := m.number.value * m.unit.factor

/-- An elapsed time in days, hours, minutes and seconds. -/
structure Elapsed where
  days : Option Numeral
  hours : Numeral
  minutes : Numeral
  seconds : Numeral
  hours_width : hours.text.length = 2
  minutes_width : minutes.text.length = 2
  seconds_width : seconds.text.length = 2

def daysText : Option Numeral → Text
  | some days => days.text ++ ['-']
  | none => []

def Elapsed.text (e : Elapsed) : Text :=
  [':'].intercalate [daysText e.days ++ e.hours.text, e.minutes.text, e.seconds.text]

def Elapsed.dayCount (e : Elapsed) : ℕ := e.days.elim 0 Numeral.value

def Elapsed.total (e : Elapsed) : ℕ :=
  e.dayCount * 86400 + e.hours.value * 3600 + e.minutes.value * 60 + e.seconds.value

/-- A row of the output. -/
structure Row where
  id : Numeral
  /-- The name of the step, unless the row is the allocation. -/
  step : Option Field
  state : Field
  exit : Numeral
  signal : Field
  rss : Option MaxRss
  elapsed : Elapsed
  node : Field

/-- How the job id of a row is written. -/
def Row.idText (r : Row) : Text := r.id.text ++ r.step.elim [] fun name => '.' :: name.text

def Row.fields (r : Row) : List Text :=
  [r.idText, r.state.text, r.exit.text ++ ':' :: r.signal.text, r.rss.elim [] MaxRss.text,
    r.elapsed.text, r.node.text]

def Row.line (r : Row) : Text := ['|'].intercalate r.fields

def render (rows : List Row) : Text := rows.flatMap fun r => r.line ++ ['\n']

/-- The text is the rendering of the rows, with or without the last line feed. -/
def Written (rows : List Row) (text : Text) : Prop :=
  text = render rows ∨ text ++ ['\n'] = render rows

def Row.isAllocation (r : Row) : Bool := r.step.isNone

/-- The observations of an allocation and of its steps. -/
def observations (rows : List Row) (r : Row) : List MaxRss :=
  r.rss.toList ++ (rows.filter fun s => !s.isAllocation && s.id.value = r.id.value).filterMap (·.rss)

def largest (values : List ℕ) : ℕ := values.foldr max 0

/-- A number of bytes, absent when it is zero. -/
def present (bytes : ℕ) : Option ℕ := if bytes = 0 then none else some bytes

/-- What an allocation row says together with its steps. -/
def meaning (rows : List Row) (r : Row) : SacctRecord where
  jobId := r.id.value
  state := r.state.text
  exitCode := r.exit.value
  peakMemoryBytes := present (largest ((observations rows r).map MaxRss.bytes))
  elapsed := r.elapsed.total
  node := r.node.text

/-! ### Numerals -/

theorem Numeral.exists_cons (n : Numeral) : ∃ c rest, n.text = c :: rest ∧ c.isDigit = true := by
  obtain ⟨c, rest, heq⟩ := exists_cons_of_ne_nil (ne_nil_of_isNumeral n.digits)
  refine ⟨c, rest, heq, isDigit_of_isNumeral n.digits c ?_⟩
  rw [heq]
  exact mem_cons_self

theorem Numeral.not_mem (n : Numeral) {c : Char} (hc : c.isDigit = false) : c ∉ n.text :=
  fun hmem => ne_of_isDigit (isDigit_of_isNumeral n.digits c hmem) hc rfl

theorem Numeral.plain (n : Numeral) : Plain n.text :=
  ⟨n.not_mem rfl, n.not_mem rfl, n.not_mem rfl⟩

theorem parseUnsigned_of_head {bound : ℕ} {text : Text} (h : text.head? ≠ some '+') :
    parseUnsigned bound text = readBounded bound text := by
  cases text with
  | nil => rfl
  | cons c rest =>
    have hc : c ≠ '+' := by
      intro heq
      rw [heq] at h
      exact h rfl
    unfold parseUnsigned
    split
    · rename_i heq
      exact absurd (List.cons.inj heq).1 hc
    · rfl

theorem Numeral.parse_append (n : Numeral) (bound : ℕ) (rest : Text) :
    parseUnsigned bound (n.text ++ rest) = readBounded bound (n.text ++ rest) := by
  obtain ⟨c, _, heq, hc⟩ := n.exists_cons
  apply parseUnsigned_of_head
  rw [heq, cons_append, head?_cons]
  intro hplus
  cases hplus
  exact absurd hc (by decide)

theorem Numeral.parse (n : Numeral) (bound : ℕ) :
    parseUnsigned bound n.text = if n.value < bound then some n.value else none := by
  have happend := n.parse_append bound []
  rw [append_nil] at happend
  rw [happend, readBounded, readNumeral_of_isNumeral n.digits]
  unfold Numeral.value
  by_cases hlt : numeralValue n.text < bound
  · simp only [filter_some, hlt, decide_true, if_true]
  · simp only [filter_some, hlt, decide_false, Bool.false_eq_true, if_false]

theorem Numeral.not_parse (n : Numeral) (bound : ℕ) {rest : Text} {c : Char} (hmem : c ∈ rest)
    (hc : c.isDigit = false) : parseUnsigned bound (n.text ++ rest) = none := by
  have hnot : isNumeral (n.text ++ rest) = false := by
    cases h : isNumeral (n.text ++ rest) with
    | false => rfl
    | true =>
      have hdigit := isDigit_of_isNumeral h c (mem_append_right _ hmem)
      exact absurd rfl (ne_of_isDigit hdigit hc)
  rw [n.parse_append, readBounded, readNumeral, hnot]
  rfl

theorem Numeral.parseI32 (n : Numeral) :
    SacctRecords.parseI32 n.text = if n.value < 2 ^ 31 then some (n.value : ℤ) else none := by
  obtain ⟨c, _, heq, hc⟩ := n.exists_cons
  have hminus : c ≠ '-' := ne_of_isDigit hc rfl
  have hplus : c ≠ '+' := ne_of_isDigit hc rfl
  have hread : SacctRecords.parseI32 n.text =
      (readBounded (2 ^ 31) n.text).map Int.ofNat := by
    rw [heq]
    unfold SacctRecords.parseI32
    split
    · rename_i h
      exact absurd (List.cons.inj h).1 hminus
    · rename_i h
      exact absurd (List.cons.inj h).1 hplus
    · rfl
  have hparse := n.parse (2 ^ 31)
  have happend := n.parse_append (2 ^ 31) []
  rw [append_nil] at happend
  rw [hread, ← happend, hparse]
  split_ifs
  · rfl
  · rfl

/-! ### Fields -/

theorem parseExitCode_eq (n : Numeral) (signal : Text) :
    parseExitCode (n.text ++ ':' :: signal) =
      if n.value < 2 ^ 31 then (n.value : ℤ) else -1 := by
  unfold parseExitCode
  rw [splitOn_append_cons_self_of_not_mem (n.not_mem rfl), head?_cons, bind_some,
    n.parseI32]
  split_ifs
  · rfl
  · rfl

/-- The observation is one that the parser can represent. -/
def MaxRss.readable (m : MaxRss) : Bool := m.unit ≠ .tera && m.bytes < 2 ^ 64

def MaxRss.read (m : MaxRss) : ℕ := if m.readable then m.bytes else 0

theorem filter_checkedU64 (n : ℕ) :
    (checkedU64 n).filter (0 < ·) = present (if n < 2 ^ 64 then n else 0) := by
  unfold checkedU64 present
  by_cases hlt : n < 2 ^ 64
  · rw [if_pos hlt, if_pos hlt]
    by_cases hzero : n = 0
    · rw [if_pos hzero, hzero]
      rfl
    · have hpos : 0 < n := Nat.pos_of_ne_zero hzero
      simp only [filter_some, hpos, decide_true, if_true, if_neg hzero]
  · rw [if_neg hlt, if_neg hlt]
    rfl

theorem RssUnit.letters (u : RssUnit) :
    ∀ c ∈ u.text, c.isDigit = false ∧ isWhitespace c = false := by
  cases u with
  | byte => exact fun c hc => nomatch hc
  | _ =>
    intro c hc
    rw [mem_singleton.mp hc]
    decide

theorem stripSuffix_append (text : Text) (c d : Char) :
    stripSuffix c (text ++ [d]) = if d = c then some text else none := by
  unfold stripSuffix
  rw [getLast?_concat, dropLast_concat]
  simp only [Option.some.injEq]

theorem Numeral.stripSuffix (n : Numeral) {c : Char} (hc : c.isDigit = false) :
    SacctRecords.stripSuffix c n.text = none := by
  unfold SacctRecords.stripSuffix
  rw [if_neg]
  intro hlast
  exact n.not_mem hc (mem_of_getLast? hlast)

theorem rssParts_eq (m : MaxRss) : rssParts m.text =
    if m.unit = .tera then (m.text, 1) else (m.number.text, m.unit.factor) := by
  obtain ⟨n, unit⟩ := m
  unfold rssParts MaxRss.text
  cases unit with
  | byte =>
    dsimp only [RssUnit.text]
    rw [append_nil, n.stripSuffix rfl, n.stripSuffix rfl, n.stripSuffix rfl]
    rfl
  | _ =>
    dsimp only [RssUnit.text]
    simp only [stripSuffix_append, Char.reduceEq, if_true, if_false, reduceCtorEq,
      RssUnit.factor]

theorem parseMaxRss_eq (rss : Option MaxRss) :
    parseMaxRss (rss.elim [] MaxRss.text) = present (rss.elim 0 MaxRss.read) := by
  cases rss with
  | none => rfl
  | some m =>
    have htrim : trim m.text = m.text := by
      apply trim_eq_self
      intro c hc
      rcases mem_append.mp hc with hc | hc
      · exact isWhitespace_of_isDigit (isDigit_of_isNumeral m.number.digits c hc)
      · exact (m.unit.letters c hc).2
    have hne : m.text.isEmpty = false := by
      obtain ⟨c, _, heq, -⟩ := m.number.exists_cons
      unfold MaxRss.text
      rw [heq]
      rfl
    dsimp only [elim_some]
    unfold parseMaxRss MaxRss.read MaxRss.readable
    rw [hne, htrim, rssParts_eq]
    by_cases htera : m.unit = .tera
    · have hnone : parseUnsigned (2 ^ 64) m.text = none := by
        refine m.number.not_parse _ (c := 'T') ?_ rfl
        rw [htera]
        exact mem_singleton_self _
      simp only [htera, if_true, hnone, ne_eq, not_true_eq_false, decide_false, Bool.false_and,
        Bool.false_eq_true, if_false, bind_none, filter_none]
      rfl
    · simp only [htera, if_false, ne_eq, not_false_eq_true, decide_true, Bool.true_and,
        Bool.false_eq_true, m.number.parse, decide_eq_true_eq]
      by_cases hfits : m.number.value < 2 ^ 64
      · rw [if_pos hfits, bind_some, filter_checkedU64]
        rfl
      · have hlarge : ¬ m.bytes < 2 ^ 64 := by
          unfold MaxRss.bytes
          have hfactor : 1 ≤ m.unit.factor := by cases m.unit <;> decide
          have hle := Nat.mul_le_mul_left m.number.value hfactor
          omega
        rw [if_neg hfits, if_neg hlarge]
        rfl

theorem Numeral.value_lt_hundred {n : Numeral} (h : n.text.length = 2) : n.value < 100 := by
  have hlt := numeralValue_lt (isDigit_of_isNumeral n.digits)
  rw [h] at hlt
  exact hlt

def Elapsed.read (e : Elapsed) : ℕ :=
  e.days.elim (e.hours.value * 3600) (fun _ => 0) + e.minutes.value * 60 + e.seconds.value

theorem timePart_eq {n : Numeral} (h : n.text.length = 2) : timePart n.text = n.value := by
  have hlt := n.value_lt_hundred h
  unfold timePart
  rw [n.parse, if_pos (by omega)]
  rfl

theorem timePart_hours (e : Elapsed) : timePart (daysText e.days ++ e.hours.text) =
    e.days.elim e.hours.value fun _ => 0 := by
  cases hdays : e.days with
  | none => exact timePart_eq e.hours_width
  | some days =>
    unfold timePart daysText
    rw [append_assoc, days.not_parse _ (c := '-') (mem_append_left _
      (mem_singleton_self _)) rfl]
    rfl

theorem parseElapsed_eq (e : Elapsed) : parseElapsed e.text = some e.read := by
  have hparts : e.text.splitOn ':' =
      [daysText e.days ++ e.hours.text, e.minutes.text, e.seconds.text] := by
    refine splitOn_intercalate ':' ?_ (cons_ne_nil _ _)
    intro part hpart
    simp only [mem_cons, not_mem_nil, or_false] at hpart
    rcases hpart with rfl | rfl | rfl
    · intro hmem
      rcases mem_append.mp hmem with hmem | hmem
      · cases hdays : e.days with
        | none =>
          rw [hdays] at hmem
          cases hmem
        | some days =>
          rw [hdays] at hmem
          rcases mem_append.mp hmem with hmem | hmem
          · exact days.not_mem rfl hmem
          · exact absurd (mem_singleton.mp hmem) (by decide)
      · exact e.hours.not_mem rfl hmem
    · exact e.minutes.not_mem rfl
    · exact e.seconds.not_mem rfl
  have hhours : timePart (daysText e.days ++ e.hours.text) < 100 := by
    rw [timePart_hours]
    cases e.days with
    | none => exact e.hours.value_lt_hundred e.hours_width
    | some => exact Nat.zero_lt_succ 99
  have hminutes := e.minutes.value_lt_hundred e.minutes_width
  have hseconds := e.seconds.value_lt_hundred e.seconds_width
  have hread : e.read = timePart (daysText e.days ++ e.hours.text) * 3600 +
      e.minutes.value * 60 + e.seconds.value := by
    unfold Elapsed.read
    rw [timePart_hours]
    cases e.days with
    | none => rfl
    | some => simp only [elim_some, Nat.zero_mul]
  have hchecked : ∀ n, n < 2 ^ 64 → checkedU64 n = some n := fun n hn => if_pos hn
  unfold parseElapsed
  rw [hparts]
  dsimp only
  rw [timePart_eq e.minutes_width, timePart_eq e.seconds_width, hchecked _ (by omega),
    hchecked _ (by omega), hread]
  dsimp only [bind_eq_bind, bind_some]
  rw [hchecked _ (by omega), bind_some, hchecked _ (by omega)]

theorem Elapsed.read_eq_total_iff (e : Elapsed) :
    e.read = e.total ↔ ∀ days, e.days = some days → days.value = 0 ∧ e.hours.value = 0 := by
  unfold Elapsed.read Elapsed.total Elapsed.dayCount
  cases e.days with
  | none =>
    simp only [elim_none, reduceCtorEq, false_implies, implies_true, iff_true]
    omega
  | some =>
    simp only [elim_some, Option.some.injEq, forall_eq']
    omega

/-! ### Rows -/

theorem Plain.append {a b : Text} (ha : Plain a) (hb : Plain b) : Plain (a ++ b) := by
  have hnot : ∀ c : Char, c ∉ a → c ∉ b → c ∉ a ++ b := by
    intro c hca hcb hmem
    rcases mem_append.mp hmem with hmem | hmem
    · exact hca hmem
    · exact hcb hmem
  exact ⟨hnot _ ha.1 hb.1, hnot _ ha.2.1 hb.2.1, hnot _ ha.2.2 hb.2.2⟩

theorem Plain.cons {c : Char} {a : Text} (hc : Plain [c]) (ha : Plain a) : Plain (c :: a) :=
  hc.append ha

theorem Row.plain_fields (r : Row) : ∀ f ∈ r.fields, Plain f := by
  have hid : Plain r.idText := by
    refine r.id.plain.append ?_
    cases r.step with
    | none => decide
    | some name => exact Plain.cons (by decide) name.plain
  have hexit : Plain (r.exit.text ++ ':' :: r.signal.text) :=
    r.exit.plain.append (Plain.cons (by decide) r.signal.plain)
  have hrss : Plain (r.rss.elim [] MaxRss.text) := by
    cases r.rss with
    | none => decide
    | some m =>
      refine m.number.plain.append ?_
      cases m.unit <;> decide
  have helapsed : Plain r.elapsed.text := by
    have htext : r.elapsed.text = daysText r.elapsed.days ++ (r.elapsed.hours.text ++
        ':' :: (r.elapsed.minutes.text ++ ':' :: r.elapsed.seconds.text)) := by
      unfold Elapsed.text
      simp only [intercalate_cons_cons, intercalate_singleton, append_assoc,
        cons_append, nil_append]
    have hdays : Plain (daysText r.elapsed.days) := by
      cases r.elapsed.days with
      | none => decide
      | some days => exact days.plain.append (by decide)
    rw [htext]
    exact hdays.append (r.elapsed.hours.plain.append (Plain.cons (by decide)
      (r.elapsed.minutes.plain.append (Plain.cons (by decide) r.elapsed.seconds.plain))))
  intro f hf
  simp only [Row.fields, mem_cons, not_mem_nil, or_false] at hf
  rcases hf with rfl | rfl | rfl | rfl | rfl | rfl
  · exact hid
  · exact r.state.plain
  · exact hexit
  · exact hrss
  · exact helapsed
  · exact r.node.plain

theorem not_mem_intercalate {c separator : Char} (hne : c ≠ separator) (texts : List Text)
    (h : ∀ text ∈ texts, c ∉ text) : c ∉ [separator].intercalate texts := by
  induction texts with
  | nil => exact not_mem_nil
  | cons text texts ih =>
    have hfirst := h text mem_cons_self
    have hrest := ih fun t ht => h t (.tail _ ht)
    cases texts with
    | nil =>
      rw [intercalate_singleton]
      exact hfirst
    | cons =>
      rw [intercalate_cons_cons]
      intro hmem
      rcases mem_append.mp hmem with hmem | hmem
      · rcases mem_append.mp hmem with hmem | hmem
        · exact hfirst hmem
        · exact hne (mem_singleton.mp hmem)
      · exact hrest hmem

theorem Row.single_line (r : Row) : '\n' ∉ r.line ∧ '\r' ∉ r.line :=
  ⟨not_mem_intercalate (by decide) _ fun f hf => (r.plain_fields f hf).2.1,
    not_mem_intercalate (by decide) _ fun f hf => (r.plain_fields f hf).2.2⟩

theorem Row.splitOn_line (r : Row) : r.line.splitOn '|' = r.fields :=
  splitOn_intercalate '|' (fun f hf => (r.plain_fields f hf).1) (cons_ne_nil _ _)

theorem Row.exists_cons (r : Row) : ∃ c rest, r.line = c :: rest ∧ c.isDigit = true := by
  obtain ⟨c, rest, heq, hc⟩ := r.id.exists_cons
  unfold Row.line Row.fields Row.idText
  rw [heq, intercalate_cons_cons]
  exact ⟨c, _, rfl, hc⟩

theorem trim_ne_nil {text rest : Text} {c : Char} (heq : text = c :: rest)
    (hc : c.isDigit = true) : (trim text).isEmpty = false := by
  have hspace : isWhitespace c = false := isWhitespace_of_isDigit hc
  subst heq
  unfold trim
  rw [dropWhile_cons_of_neg (by rw [hspace]; exact Bool.false_ne_true),
    isEmpty_eq_false_iff]
  intro hnil
  have hall := dropWhile_eq_nil_iff.mp (reverse_eq_nil_iff.mp hnil) c
    (mem_reverse.mpr mem_cons_self)
  rw [hspace] at hall
  cases hall

theorem splitOnce_allocation {r : Row} (h : r.step = none) :
    splitOnce '.' r.idText = none ∧ r.idText = r.id.text := by
  have htext : r.idText = r.id.text := by
    unfold Row.idText
    rw [h]
    exact append_nil _
  have hdrop : r.id.text.dropWhile (· ≠ '.') = [] := by
    apply dropWhile_eq_nil_iff.mpr
    intro c hc
    exact decide_eq_true (ne_of_isDigit (isDigit_of_isNumeral r.id.digits c hc) rfl)
  refine ⟨?_, htext⟩
  unfold splitOnce
  rw [htext, hdrop]

theorem splitOnce_step {r : Row} {name : Field} (h : r.step = some name) :
    splitOnce '.' r.idText = some (r.id.text, name.text) := by
  have htext : r.idText = r.id.text ++ '.' :: name.text := by
    unfold Row.idText
    rw [h]
    rfl
  have hdigits : ∀ c ∈ r.id.text, decide (c ≠ '.') = true := fun c hc =>
    decide_eq_true (ne_of_isDigit (isDigit_of_isNumeral r.id.digits c hc) rfl)
  unfold splitOnce
  rw [htext, dropWhile_append_of_pos hdigits, takeWhile_append_of_pos hdigits,
    dropWhile_cons_of_neg (by decide), takeWhile_cons_of_neg (by decide),
    append_nil]

def Row.record (r : Row) : SacctRecord where
  jobId := r.id.value
  state := r.state.text
  exitCode := if r.exit.value < 2 ^ 31 then (r.exit.value : ℤ) else -1
  peakMemoryBytes := present (r.rss.elim 0 MaxRss.read)
  elapsed := r.elapsed.read
  node := r.node.text

def Row.notePeak (peaks : Table ℕ ℕ) (r : Row) : Table ℕ ℕ :=
  if r.id.value < 2 ^ 32 then
    match present (r.rss.elim 0 MaxRss.read) with
    | some bytes => peaks.upsert r.id.value bytes fun peak => max peak bytes
    | none => peaks
  else peaks

theorem parseRow_allocation {r : Row} (h : r.step = none) (reading : Reading) :
    parseRow reading r.line =
      if r.id.value < 2 ^ 32 then .ok (reading.1 ++ [r.record], reading.2)
      else .error (.parseError ("invalid job ID: ".toList ++ r.id.text)) := by
  obtain ⟨c, _, hline, hc⟩ := r.exists_cons
  obtain ⟨hsplit, htext⟩ := splitOnce_allocation h
  rw [htext] at hsplit
  unfold parseRow
  rw [trim_ne_nil hline hc, r.splitOn_line]
  unfold Row.fields
  simp only [Bool.false_eq_true, if_false, htext, hsplit, r.id.parse, parseElapsed_eq,
    parseExitCode_eq, parseMaxRss_eq]
  by_cases hid : r.id.value < 2 ^ 32
  · rw [if_pos hid, if_pos hid]
    rfl
  · rw [if_neg hid, if_neg hid]

theorem parseRow_step {r : Row} {name : Field} (h : r.step = some name) (reading : Reading) :
    parseRow reading r.line = .ok (reading.1, r.notePeak reading.2) := by
  obtain ⟨c, _, hline, hc⟩ := r.exists_cons
  unfold parseRow Row.notePeak
  rw [trim_ne_nil hline hc, r.splitOn_line]
  unfold Row.fields
  simp only [Bool.false_eq_true, if_false, splitOnce_step h, r.id.parse, parseMaxRss_eq]
  split_ifs
  · cases present (r.rss.elim 0 MaxRss.read) with
    | none | some => rfl
  · rfl

/-! ### The largest observation -/

@[simp]
theorem largest_nil : largest [] = 0 := rfl

@[simp]
theorem largest_cons (n : ℕ) (values : List ℕ) : largest (n :: values) = max n (largest values) :=
  rfl

theorem largest_append (a b : List ℕ) : largest (a ++ b) = max (largest a) (largest b) := by
  induction a with
  | nil => exact (Nat.zero_max _).symm
  | cons n a ih => rw [cons_append, largest_cons, largest_cons, ih, Nat.max_assoc]

theorem le_largest {values : List ℕ} {n : ℕ} (h : n ∈ values) : n ≤ largest values :=
  le_max_of_le h (Nat.le_refl n)

theorem largest_le {values : List ℕ} {bound : ℕ} (h : ∀ n ∈ values, n ≤ bound) :
    largest values ≤ bound :=
  max_le_of_forall_le values bound h

theorem largest_mem {values : List ℕ} (h : largest values ≠ 0) : largest values ∈ values := by
  induction values with
  | nil => exact absurd rfl h
  | cons n values ih =>
    rw [largest_cons] at h ⊢
    rcases Nat.le_total n (largest values) with hle | hle
    · rw [Nat.max_eq_right hle] at h ⊢
      exact mem_cons_of_mem _ (ih h)
    · rw [Nat.max_eq_left hle]
      exact mem_cons_self

theorem largest_congr {a b : List ℕ} (h : ∀ n, n ∈ a ↔ n ∈ b) : largest a = largest b :=
  Nat.le_antisymm (largest_le fun n hn => le_largest ((h n).mp hn))
    (largest_le fun n hn => le_largest ((h n).mpr hn))

theorem largest_filterMap {α β : Type} (f : α → Option β) (g : β → ℕ) (l : List α) :
    largest ((l.filterMap f).map g) = largest (l.map fun a => (f a).elim 0 g) := by
  induction l with
  | nil => rfl
  | cons a l ih =>
    cases h : f a with
    | none =>
      rw [filterMap_cons_none h, map_cons, largest_cons, h, elim_none,
        Nat.zero_max, ih]
    | some =>
      rw [filterMap_cons_some h, map_cons, largest_cons, map_cons, largest_cons, h,
        elim_some, ih]

theorem maxPeak_present (a b : ℕ) : maxPeak (present a) (present b) = present (max a b) := by
  unfold present
  by_cases ha : a = 0
  · subst ha
    rw [Nat.zero_max]
    rfl
  · rw [if_neg ha]
    by_cases hb : b = 0
    · rw [if_pos hb, hb, Nat.max_zero, if_neg ha]
      rfl
    · have hmax : max a b ≠ 0 := by omega
      rw [if_neg hb, if_neg hmax]
      rfl

theorem present_inj {a b : ℕ} : present a = present b ↔ a = b := by
  refine ⟨fun h => ?_, fun h => congrArg present h⟩
  unfold present at h
  split_ifs at h with ha hb hb
  · rw [ha, hb]
  · exact Option.some.inj h

/-! ### All rows -/

/-- What is read of the steps of an allocation. -/
def stepReads (rows : List Row) (id : ℕ) : List ℕ :=
  (rows.filter fun s => !s.isAllocation && s.id.value = id).map fun s => s.rss.elim 0 MaxRss.read

theorem get_notePeak {peaks : Table ℕ ℕ} {r : Row} {id n : ℕ} (hid : id < 2 ^ 32)
    (hpeak : peaks.get id = present n) : (r.notePeak peaks).get id =
      present (if r.id.value = id then max n (r.rss.elim 0 MaxRss.read) else n) := by
  unfold Row.notePeak
  by_cases hsame : r.id.value = id
  · subst hsame
    rw [if_pos hid, if_pos rfl, ← maxPeak_present]
    cases hbytes : present (r.rss.elim 0 MaxRss.read) with
    | none =>
      dsimp only
      rw [hpeak]
      cases present n with
      | none | some => rfl
    | some =>
      dsimp only
      rw [Table.get_upsert, if_pos rfl, hpeak]
      cases present n with
      | none | some => rfl
  · rw [if_neg hsame]
    split_ifs
    · cases present (r.rss.elim 0 MaxRss.read) with
      | none => exact hpeak
      | some =>
        dsimp only
        rw [Table.get_upsert, if_neg (Ne.symm hsame)]
        exact hpeak
    · exact hpeak

theorem foldlM_parseRow (rows : List Row)
    (hids : ∀ r ∈ rows, r.isAllocation = true → r.id.value < 2 ^ 32) (reading : Reading) :
    ∃ peaks, (rows.map Row.line).foldlM parseRow reading =
        .ok (reading.1 ++ (rows.filter Row.isAllocation).map Row.record, peaks) ∧
      ∀ id < 2 ^ 32, ∀ n, reading.2.get id = present n →
        peaks.get id = present (max n (largest (stepReads rows id))) := by
  induction rows generalizing reading with
  | nil =>
    refine ⟨reading.2, ?_, ?_⟩
    · rw [filter_nil, map_nil, map_nil, append_nil]
      rfl
    · intro id _ n hn
      have hnone : stepReads [] id = [] := rfl
      rw [hnone, largest_nil, Nat.max_zero]
      exact hn
  | cons r rows ih =>
    have hrest := fun s hs => hids s (.tail _ hs)
    cases hstep : r.step with
    | none =>
      have hallocation : r.isAllocation = true := by
        unfold Row.isAllocation
        rw [hstep]
        rfl
      obtain ⟨peaks, hfold, hpeaks⟩ := ih hrest (reading.1 ++ [r.record], reading.2)
      refine ⟨peaks, ?_, ?_⟩
      · rw [map_cons, foldlM_cons, parseRow_allocation hstep,
          if_pos (hids r mem_cons_self hallocation), filter_cons_of_pos hallocation,
          map_cons]
        refine hfold.trans ?_
        rw [append_assoc, singleton_append]
      · intro id hid n hn
        rw [hpeaks id hid n hn]
        unfold stepReads
        rw [filter_cons_of_neg (by rw [hallocation]; exact Bool.false_ne_true)]
    | some =>
      have hallocation : r.isAllocation = false := by
        unfold Row.isAllocation
        rw [hstep]
        rfl
      obtain ⟨peaks, hfold, hpeaks⟩ := ih hrest (reading.1, r.notePeak reading.2)
      refine ⟨peaks, ?_, ?_⟩
      · rw [map_cons, foldlM_cons, parseRow_step hstep,
          filter_cons_of_neg (by rw [hallocation]; exact Bool.false_ne_true)]
        exact hfold
      · intro id hid n hn
        rw [hpeaks id hid _ (get_notePeak hid hn)]
        unfold stepReads
        by_cases hsame : r.id.value = id
        · rw [if_pos hsame, filter_cons_of_pos (by rw [hallocation, decide_eq_true hsame]; rfl),
            map_cons, largest_cons, Nat.max_assoc]
        · rw [if_neg hsame, filter_cons_of_neg
            (by rw [decide_eq_false hsame, Bool.and_false]; exact Bool.false_ne_true)]

/-- The number of an allocation row does not fit. -/
def Row.tooLarge (r : Row) : Bool := !(r.id.value < 2 ^ 32)

def Row.refusal (r : Row) : Failure := .parseError ("invalid job ID: ".toList ++ r.id.text)

theorem foldlM_parseRow_error (rows : List Row) {r : Row}
    (h : (rows.filter Row.isAllocation).find? Row.tooLarge = some r) (reading : Reading) :
    (rows.map Row.line).foldlM parseRow reading = .error r.refusal := by
  induction rows generalizing reading with
  | nil => cases h
  | cons s rows ih =>
    rw [map_cons, foldlM_cons]
    cases hstep : s.step with
    | none =>
      have hallocation : s.isAllocation = true := by
        unfold Row.isAllocation
        rw [hstep]
        rfl
      rw [filter_cons_of_pos hallocation] at h
      rw [parseRow_allocation hstep]
      by_cases hid : s.id.value < 2 ^ 32
      · have hfits : ¬ s.tooLarge = true := by
          unfold Row.tooLarge
          rw [decide_eq_true hid]
          exact Bool.false_ne_true
        rw [find?_cons_of_neg hfits] at h
        rw [if_pos hid]
        exact ih h _
      · have hlarge : s.tooLarge = true := by
          unfold Row.tooLarge
          rw [decide_eq_false hid]
          rfl
        rw [find?_cons_of_pos hlarge] at h
        rw [if_neg hid, ← Option.some.inj h]
        rfl
    | some =>
      have hallocation : ¬ s.isAllocation = true := by
        unfold Row.isAllocation
        rw [hstep]
        exact Bool.false_ne_true
      rw [filter_cons_of_neg hallocation] at h
      rw [parseRow_step hstep]
      exact ih h _

/-! ### Lines -/

theorem stripReturn_eq_self {line : Text} (h : '\r' ∉ line) : stripReturn line = line := by
  unfold stripReturn stripSuffix
  rw [if_neg fun hlast => h (mem_of_getLast? hlast)]
  rfl

theorem splitOn_render (rows : List Row) (last : Text) (hlast : '\n' ∉ last) :
    (render rows ++ last).splitOn '\n' = rows.map Row.line ++ [last] := by
  induction rows with
  | nil => exact splitOn_eq_singleton hlast
  | cons r rows ih =>
    have hline : '\n' ∉ r.line := r.single_line.1
    have htext : render (r :: rows) ++ last = r.line ++ '\n' :: (render rows ++ last) := by
      unfold render
      rw [flatMap_cons, append_assoc, append_assoc, singleton_append]
    rw [htext, splitOn_append_cons_self_of_not_mem hline, ih]
    rfl

theorem lines_render (rows : List Row) (last : Text) (hlast : '\n' ∉ last) :
    lines (render rows ++ last) =
      rows.map Row.line ++ ((some last).filter fun last => !last.isEmpty).toList := by
  have hkeep : (rows.map Row.line).map stripReturn = rows.map Row.line := by
    rw [List.map_map]
    exact map_congr_left fun r _ => stripReturn_eq_self r.single_line.2
  unfold lines
  rw [splitOn_render rows last hlast]
  dsimp only
  rw [dropLast_concat, getLast?_concat, hkeep]

theorem lines_of_written {rows : List Row} {text : Text} (h : Written rows text) :
    lines text = rows.map Row.line := by
  rcases h with rfl | h
  · have hlines := lines_render rows [] not_mem_nil
    rw [append_nil] at hlines
    rw [hlines]
    exact append_nil _
  · cases rows using List.reverseRecOn with
    | nil => exact absurd (congrArg List.length h) (by
        rw [length_append, length_singleton]
        exact Nat.succ_ne_zero _)
    | append_singleton rows r =>
      have hrender : render (rows ++ [r]) = render rows ++ r.line ++ ['\n'] := by
        unfold render
        rw [flatMap_append, flatMap_singleton, append_assoc]
      rw [hrender] at h
      obtain ⟨c, _, hline, -⟩ := r.exists_cons
      rw [append_cancel_right h, lines_render rows r.line r.single_line.1, map_append,
        hline]
      rw [map_singleton, hline]
      rfl

/-! ### The records -/

/-- The record that is read of an allocation row and its steps. -/
def decoded (rows : List Row) (r : Row) : SacctRecord :=
  { r.record with
    peakMemoryBytes := present (largest ((observations rows r).map MaxRss.read)) }

theorem largest_observations (rows : List Row) (r : Row) (f : MaxRss → ℕ) :
    largest ((observations rows r).map f) = max (r.rss.elim 0 f)
      (largest ((rows.filter fun s => !s.isAllocation && s.id.value = r.id.value).map
        fun s => s.rss.elim 0 f)) := by
  have hown : largest (r.rss.toList.map f) = r.rss.elim 0 f := by
    cases r.rss with
    | none => rfl
    | some => exact Nat.max_zero _
  unfold observations
  rw [map_append, largest_append, hown, largest_filterMap]

theorem parseSacct_eq {rows : List Row} {text : Text} (h : Written rows text)
    (hids : ∀ r ∈ rows, r.isAllocation = true → r.id.value < 2 ^ 32) :
    parseSacct text = .ok ((rows.filter Row.isAllocation).map (decoded rows)) := by
  obtain ⟨peaks, hfold, hpeaks⟩ := foldlM_parseRow rows hids ([], Table.empty)
  have hrows : (rows.map Row.line).foldlM parseRow ([], Table.empty) =
      .ok ((rows.filter Row.isAllocation).map Row.record, peaks) := hfold
  unfold parseSacct
  rw [lines_of_written h, hrows]
  have hmap : ((rows.filter Row.isAllocation).map Row.record).map (fun record =>
      { record with
        peakMemoryBytes := maxPeak record.peakMemoryBytes (peaks.get record.jobId) }) =
      (rows.filter Row.isAllocation).map (decoded rows) := by
    rw [List.map_map]
    refine map_congr_left fun r hr => ?_
    obtain ⟨hmem, hallocation⟩ := mem_filter.mp hr
    have hpeak := hpeaks r.id.value (hids r hmem hallocation) 0 rfl
    have hsteps : maxPeak (present (r.rss.elim 0 MaxRss.read)) (peaks.get r.id.value) =
        present (largest ((observations rows r).map MaxRss.read)) := by
      rw [hpeak, Nat.zero_max, maxPeak_present, largest_observations]
      rfl
    unfold decoded Function.comp Row.record
    dsimp only
    rw [hsteps]
  exact congrArg Except.ok hmap

theorem parseSacct_error {rows : List Row} {text : Text} (h : Written rows text) {r : Row}
    (hr : (rows.filter Row.isAllocation).find? Row.tooLarge = some r) :
    parseSacct text = .error r.refusal := by
  unfold parseSacct
  rw [lines_of_written h, foldlM_parseRow_error rows hr]
  rfl

theorem fits_of_find {rows : List Row}
    (h : (rows.filter Row.isAllocation).find? Row.tooLarge = none) :
    ∀ r ∈ rows, r.isAllocation = true → r.id.value < 2 ^ 32 := by
  intro r hr hallocation
  have hnot := find?_eq_none.mp h r (mem_filter.mpr ⟨hr, hallocation⟩)
  unfold Row.tooLarge at hnot
  by_contra hlarge
  rw [decide_eq_false hlarge] at hnot
  exact hnot rfl

/-- The same allocations in the same order, and the same steps in any order among them. -/
def SameRows (rows rows' : List Row) : Prop :=
  rows'.filter Row.isAllocation = rows.filter Row.isAllocation ∧
    (rows'.filter fun s => !s.isAllocation).Perm (rows.filter fun s => !s.isAllocation)

theorem decoded_congr {rows rows' : List Row} (h : SameRows rows rows') (r : Row) :
    decoded rows' r = decoded rows r := by
  have hsteps : ∀ rows : List Row,
      (rows.filter fun s => !s.isAllocation && s.id.value = r.id.value) =
        (rows.filter fun s => !s.isAllocation).filter fun s => s.id.value = r.id.value := by
    intro rows
    rw [List.filter_filter]
    exact filter_congr fun s _ => Bool.and_comm _ _
  have hpeak : largest ((observations rows' r).map MaxRss.read) =
      largest ((observations rows r).map MaxRss.read) := by
    rw [largest_observations, largest_observations, hsteps, hsteps]
    congr 1
    refine largest_congr fun n => ?_
    exact ((h.2.filter fun s => s.id.value = r.id.value).map fun s =>
      s.rss.elim 0 MaxRss.read).mem_iff
  unfold decoded
  rw [hpeak]

theorem parseSacct_congr {rows rows' : List Row} {text text' : Text} (h : SameRows rows rows')
    (htext : Written rows text) (htext' : Written rows' text') :
    parseSacct text' = parseSacct text := by
  cases hfind : (rows.filter Row.isAllocation).find? Row.tooLarge with
  | some =>
    have hfind' := hfind
    rw [← h.1] at hfind'
    rw [parseSacct_error htext hfind, parseSacct_error htext' hfind']
  | none =>
    have hfind' := hfind
    rw [← h.1] at hfind'
    rw [parseSacct_eq htext (fits_of_find hfind), parseSacct_eq htext' (fits_of_find hfind'), h.1]
    exact congrArg Except.ok (map_congr_left fun r _ => decoded_congr h r)

/-! ### When the records say what the rows say -/

/-- The parser returns what the rows say, in whichever order the steps are listed. -/
structure Faithful (rows : List Row) (text : Text) : Prop where
  /-- One record for each allocation row, in order. -/
  records : parseSacct text = .ok ((rows.filter Row.isAllocation).map (meaning rows))
  /-- The steps can be listed in any order. -/
  order : ∀ rows' text', SameRows rows rows' → Written rows' text' →
    parseSacct text' = parseSacct text

/-- Numbers fit, nothing but zeroes is written before the minutes of a time with days, and
no observation that cannot be read is larger than all those of its allocation that can. -/
structure Decodable (rows : List Row) (r : Row) : Prop where
  /-- The job id has 32 bits. -/
  id : r.id.value < 2 ^ 32
  /-- The exit code has 31 bits. -/
  exit : r.exit.value < 2 ^ 31
  /-- Days and the hours behind them are zero. -/
  days : ∀ days, r.elapsed.days = some days → days.value = 0 ∧ r.elapsed.hours.value = 0
  /-- Observations in terabytes or of too many bytes do not count. -/
  rss : ∀ m ∈ observations rows r, m.readable = false → m.bytes = 0 ∨
    ∃ m' ∈ observations rows r, m'.readable = true ∧ m.bytes ≤ m'.bytes

theorem largest_read_eq_iff (ms : List MaxRss) :
    largest (ms.map MaxRss.read) = largest (ms.map MaxRss.bytes) ↔
      ∀ m ∈ ms, m.readable = false → m.bytes = 0 ∨
        ∃ m' ∈ ms, m'.readable = true ∧ m.bytes ≤ m'.bytes := by
  have hread : ∀ m : MaxRss, m.read ≤ m.bytes := by
    intro m
    unfold MaxRss.read
    split_ifs
    · exact Nat.le_refl _
    · exact Nat.zero_le _
  constructor
  · intro h m hm _
    by_cases hzero : m.bytes = 0
    · exact Or.inl hzero
    have hle : m.bytes ≤ largest (ms.map MaxRss.bytes) := le_largest (List.mem_map_of_mem hm)
    rw [← h] at hle
    have hne : largest (ms.map MaxRss.read) ≠ 0 := by omega
    obtain ⟨m', hm', hmax⟩ := List.mem_map.mp (largest_mem hne)
    have hreadable : m'.readable = true := by
      by_contra hno
      unfold MaxRss.read at hmax
      rw [if_neg hno] at hmax
      exact hne hmax.symm
    refine Or.inr ⟨m', hm', hreadable, ?_⟩
    have hbytes := hread m'
    omega
  · intro h
    refine Nat.le_antisymm ?_ ?_
    · refine largest_le fun n hn => ?_
      obtain ⟨m, hm, rfl⟩ := List.mem_map.mp hn
      exact (hread m).trans (le_largest (List.mem_map_of_mem hm))
    · refine largest_le fun n hn => ?_
      obtain ⟨m, hm, rfl⟩ := List.mem_map.mp hn
      have hown : ∀ m ∈ ms, m.readable = true → m.bytes ≤ largest (ms.map MaxRss.read) := by
        intro m hm hreadable
        have heq : m.read = m.bytes := if_pos hreadable
        rw [← heq]
        exact le_largest (List.mem_map_of_mem hm)
      cases hreadable : m.readable with
      | true => exact hown m hm hreadable
      | false =>
        rcases h m hm hreadable with hzero | ⟨m', hm', hreadable', hle⟩
        · rw [hzero]
          exact Nat.zero_le _
        · exact hle.trans (hown m' hm' hreadable')

theorem decoded_eq_meaning_iff {rows : List Row} {r : Row} (hid : r.id.value < 2 ^ 32) :
    decoded rows r = meaning rows r ↔ Decodable rows r := by
  have hexit : (if r.exit.value < 2 ^ 31 then (r.exit.value : ℤ) else -1) = r.exit.value ↔
      r.exit.value < 2 ^ 31 := by
    by_cases h : r.exit.value < 2 ^ 31
    · rw [if_pos h]
      exact iff_of_true rfl h
    · rw [if_neg h]
      refine iff_of_false ?_ h
      omega
  have hfields : decoded rows r = meaning rows r ↔
      (if r.exit.value < 2 ^ 31 then (r.exit.value : ℤ) else -1) = r.exit.value ∧
      present (largest ((observations rows r).map MaxRss.read)) =
        present (largest ((observations rows r).map MaxRss.bytes)) ∧
      r.elapsed.read = r.elapsed.total := by
    unfold decoded meaning Row.record
    simp only [SacctRecord.mk.injEq, true_and, and_true]
  rw [hfields, hexit, present_inj, largest_read_eq_iff, Elapsed.read_eq_total_iff]
  constructor
  · rintro ⟨hexit, hrss, hdays⟩
    exact ⟨hid, hexit, hdays, hrss⟩
  · intro h
    exact ⟨h.exit, h.rss, h.days⟩

/-- The records that are read of an output say what its rows say if and only if every
allocation row can be decoded. -/
theorem sacct_faithful_iff (rows : List Row) (text : Text) (h : Written rows text) :
    Faithful rows text ↔ ∀ r ∈ rows, r.isAllocation = true → Decodable rows r := by
  constructor
  · intro hfaithful r hr hallocation
    cases hfind : (rows.filter Row.isAllocation).find? Row.tooLarge with
    | some =>
      have hrecords := hfaithful.records
      rw [parseSacct_error h hfind] at hrecords
      cases hrecords
    | none =>
      have hids := fits_of_find hfind
      have hrecords := hfaithful.records
      rw [parseSacct_eq h hids, Except.ok.injEq] at hrecords
      have heq := map_inj_left.mp hrecords r (mem_filter.mpr ⟨hr, hallocation⟩)
      exact (decoded_eq_meaning_iff (hids r hr hallocation)).mp heq
  · intro hall
    constructor
    · rw [parseSacct_eq h fun r hr hallocation => (hall r hr hallocation).id]
      refine congrArg Except.ok (map_congr_left fun r hr => ?_)
      obtain ⟨hmem, hallocation⟩ := mem_filter.mp hr
      have hdecodable := hall r hmem hallocation
      exact (decoded_eq_meaning_iff hdecodable.id).mpr hdecodable
    · exact fun rows' text' hsame htext' => parseSacct_congr hsame h htext'

/-- An allocation that completed after a minute and a half. -/
def shortAllocation : Row where
  id := ⟨['4', '2'], rfl⟩
  step := none
  state := ⟨"COMPLETED".toList, by decide⟩
  exit := ⟨['0'], rfl⟩
  signal := ⟨['0'], by decide⟩
  rss := none
  elapsed := ⟨none, ⟨['0', '0'], rfl⟩, ⟨['0', '1'], rfl⟩, ⟨['3', '0'], rfl⟩, rfl, rfl, rfl⟩
  node := ⟨['c', '1'], by decide⟩

def batchStep : Row :=
  { shortAllocation with
    step := some ⟨"batch".toList, by decide⟩
    rss := some ⟨⟨['5', '1', '2'], rfl⟩, .mega⟩ }

/-- An allocation that ran for more than a day. -/
def longAllocation : Row :=
  { shortAllocation with
    elapsed := ⟨some ⟨['1'], rfl⟩, ⟨['0', '2'], rfl⟩, ⟨['0', '0'], rfl⟩, ⟨['0', '4'], rfl⟩,
      rfl, rfl, rfl⟩ }

/-- The record of the short allocation says what its rows say. -/
theorem sacct_faithful_short :
    Faithful [batchStep, shortAllocation] (render [batchStep, shortAllocation]) := by
  refine (sacct_faithful_iff _ _ (Or.inl rfl)).mpr ?_
  intro r hr hallocation
  rcases mem_cons.mp hr with rfl | hr
  · cases hallocation
  · rw [mem_singleton.mp hr]
    refine ⟨by decide, by decide, nofun, ?_⟩
    intro m hm hreadable
    have hsole : m = ⟨⟨['5', '1', '2'], rfl⟩, .mega⟩ := mem_singleton.mp hm
    rw [hsole] at hreadable
    exact absurd hreadable (by decide)

/-- The record of the long allocation has four seconds. -/
theorem not_sacct_faithful :
    ¬ ∀ (rows : List Row) (text : Text), Written rows text → Faithful rows text := by
  intro h
  have hids : ∀ r ∈ [longAllocation], r.isAllocation = true → r.id.value < 2 ^ 32 := by
    intro r hr _
    rw [mem_singleton.mp hr]
    decide
  have hwritten : Written [longAllocation] (render [longAllocation]) := Or.inl rfl
  have hrecords := (h _ _ hwritten).records
  rw [parseSacct_eq hwritten hids, Except.ok.injEq] at hrecords
  have heq : decoded [longAllocation] longAllocation = meaning [longAllocation] longAllocation :=
    map_inj_left.mp hrecords _ mem_cons_self
  have helapsed : longAllocation.elapsed.read = longAllocation.elapsed.total :=
    congrArg SacctRecord.elapsed heq
  exact absurd helapsed (by decide)

end OxyMake.SacctDecoding
