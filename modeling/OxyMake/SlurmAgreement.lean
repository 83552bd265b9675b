import OxyMake.DecimalParsing
import OxyMake.SlurmDirectives

/-!
# When SLURM reads the canonical amounts

A numeral is normalized to the number it spells, so a count is requested
exactly when it is a plain integer. Memory is requested exactly when it is a
plain number of megabytes, an integer with a unit that SLURM knows, or zero: a
bare integer means bytes to the normalization and mebibytes to SLURM, and
memory declared in gigabytes by its key has no directive.
-/

namespace OxyMake.SlurmAgreement

open List Option
open Admission ResourceNormalization DecimalText DecimalParsing SlurmDirectives

theorem readMantissa_digits {text : List Char} {m m' : Mantissa}
    (hdigits : ∀ c ∈ text, c.isDigit = true) (hdot : m.sawDot = false)
    (h : readMantissa text m = .ok m') :
    m'.coefficient = Nat.ofDigitChars 10 text m.coefficient ∧
      m'.fractionalDigits = m.fractionalDigits := by
  induction text generalizing m with
  | nil =>
    cases h
    exact ⟨rfl, rfl⟩
  | cons c rest ih =>
    have hc := hdigits c mem_cons_self
    have hpoint : c ≠ '.' := ne_of_isDigit hc rfl
    rw [readMantissa, if_neg (fun hand => hpoint hand.1), digitValue_of_isDigit hc] at h
    obtain ⟨_, hscaled, h⟩ := bind_eq_ok h
    obtain ⟨_, hcoefficient, h⟩ := bind_eq_ok h
    rw [mulU128_eq_ok hscaled] at hcoefficient
    rw [addU128_eq_ok hcoefficient] at h
    have hrest := ih (fun d hd => hdigits d (.tail c hd)) (by exact hdot) h
    constructor
    · rw [hrest.1, Nat.ofDigitChars_cons, Nat.mul_comm 10]
    · rw [hrest.2]
      dsimp only
      rw [hdot]
      rfl

theorem not_readMantissa {text : List Char} {m m' : Mantissa} {c : Char} (hmem : c ∈ text)
    (hdigit : digitValue c = none) (hpoint : c ≠ '.') : readMantissa text m ≠ .ok m' := by
  intro h
  induction text generalizing m with
  | nil => exact not_mem_nil hmem
  | cons d rest ih =>
    rw [readMantissa] at h
    by_cases hdot : d = '.' ∧ m.sawDot = false
    · rw [if_pos hdot] at h
      rcases mem_cons.mp hmem with rfl | hmem
      · exact hpoint hdot.1
      · exact ih hmem h
    · rw [if_neg hdot] at h
      rcases mem_cons.mp hmem with rfl | hmem
      · rw [hdigit] at h
        cases h
      · cases hd : digitValue d with
        | none =>
          rw [hd] at h
          cases h
        | some =>
          rw [hd] at h
          obtain ⟨_, -, h⟩ := bind_eq_ok h
          obtain ⟨_, -, h⟩ := bind_eq_ok h
          exact ih hmem h

/-- Text that is a numeral up to other characters. -/
structure Plain (text : List Char) : Prop where
  head : ∃ c rest, text = c :: rest ∧ c.isDigit = true
  noSpace : ∀ c ∈ text, isWhitespace c = false
  noExponent : ∀ c ∈ text, c ≠ 'e' ∧ c ≠ 'E'

theorem plain_of_isNumeral {text : List Char} (h : isNumeral text = true) : Plain text := by
  have hdigits := isDigit_of_isNumeral h
  constructor
  · cases text with
    | nil => exact absurd rfl (ne_nil_of_isNumeral h)
    | cons c rest => exact ⟨c, rest, rfl, hdigits c mem_cons_self⟩
  · intro c hc
    exact isWhitespace_of_isDigit (hdigits c hc)
  · intro c hc
    exact ⟨ne_of_isDigit (hdigits c hc) rfl, ne_of_isDigit (hdigits c hc) rfl⟩

theorem parseDecimal_plain {text : List Char} {d : Decimal} (hplain : Plain text)
    (h : parseDecimal text = .ok d) :
    ∃ m, readMantissa text ⟨0, 0, 0, false⟩ = .ok m ∧ d = ⟨m.coefficient, m.fractionalDigits⟩ := by
  obtain ⟨c, _, htext, hc⟩ := hplain.head
  have hsplit : text.splitOnP (fun c => decide (c = 'e' ∨ c = 'E')) = [text] := by
    apply splitOnP_eq_singleton
    intro c hc
    have hne := hplain.noExponent c hc
    rw [decide_eq_false_iff_not]
    rintro (heq | heq)
    · exact hne.1 heq
    · exact hne.2 heq
  have hminus : text.head? ≠ some '-' := by
    rw [htext, head?_cons]
    intro heq
    exact ne_of_isDigit hc rfl (Option.some.inj heq)
  have hplus : text.head? ≠ some '+' := by
    rw [htext, head?_cons]
    intro heq
    exact ne_of_isDigit hc rfl (Option.some.inj heq)
  have hempty : text.isEmpty = false := by
    rw [htext]
    rfl
  rw [parseDecimal] at h
  dsimp only at h
  rw [trim_eq_self hplain.noSpace, hempty, if_neg Bool.false_ne_true, if_neg hminus,
    if_neg hplus, hsplit] at h
  obtain ⟨_, hexponent, h⟩ := bind_eq_ok h
  cases hexponent
  rw [if_neg (by exact Bool.false_ne_true)] at h
  obtain ⟨m, hm, h⟩ := bind_eq_ok h
  refine ⟨m, hm, ?_⟩
  split_ifs at h with hzero
  obtain ⟨_, hfractional, h⟩ := bind_eq_ok h
  obtain ⟨_, hscale, h⟩ := bind_eq_ok h
  have hnarrow : ∀ {a b : ℤ}, toI32 a = .ok b → b = a := by
    intro a b hab
    rw [toI32] at hab
    split_ifs at hab
    exact (Except.ok.inj hab).symm
  have hvalue := hnarrow hscale
  rw [hnarrow hfractional, sub_zero] at hvalue
  rw [← Except.ok.inj h, hvalue]

theorem parseDecimal_numeral {text : List Char} {d : Decimal} (hnumeral : isNumeral text = true)
    (h : parseDecimal text = .ok d) : d = ⟨numeralValue text, 0⟩ := by
  obtain ⟨m, hm, hd⟩ := parseDecimal_plain (plain_of_isNumeral hnumeral) h
  obtain ⟨hcoefficient, hfractional⟩ :=
    readMantissa_digits (isDigit_of_isNumeral hnumeral) rfl hm
  rw [hd, hcoefficient, hfractional]
  rfl

theorem numeral_display_int {v : ℤ} (h : 0 ≤ v) :
    isNumeral (ResourceValue.int v).display.toList = true ∧
      numeralValue (ResourceValue.int v).display.toList = v.toNat := by
  obtain ⟨n, rfl⟩ := Int.eq_ofNat_of_zero_le h
  have htext : (ResourceValue.int (n : ℤ)).display.toList = Nat.toDigits 10 n := by
    show (toString (n : ℤ)).toList = _
    rw [← Nat.toList_repr]
    rfl
  rw [htext]
  exact ⟨isNumeral_toDigits n, Nat.ofDigitChars_ten_toDigits⟩

theorem decimalFromValue_numeral {key : String} {value : ResourceValue} {d : Decimal}
    (hnumeral : isNumeral value.display.toList = true)
    (h : decimalFromValue key value = .ok d) : d = ⟨numeralValue value.display.toList, 0⟩ := by
  have h := invalidValue_eq_ok h
  cases value with
  | int =>
    dsimp only at h
    split_ifs at h with hnegative
    rw [(numeral_display_int (Int.not_lt.mp hnegative)).2]
    exact (Except.ok.inj h).symm
  | float =>
    dsimp only at h
    split_ifs at h with hfinite hnegative
    exact parseDecimal_numeral hnumeral h
  | str => exact parseDecimal_numeral hnumeral h

theorem scaleDecimal_whole {coefficient multiplier v : ℕ} {e : ResourceValueErrorKind}
    (h : scaleDecimal ⟨coefficient, 0⟩ multiplier e = .ok v) : v = coefficient * multiplier := by
  rw [scaleDecimal] at h
  dsimp only at h
  by_cases hzero : coefficient = 0
  · rw [if_pos hzero] at h
    rw [hzero, Nat.zero_mul]
    exact (Except.ok.inj h).symm
  · rw [if_neg hzero] at h
    obtain ⟨_, hvalue, h⟩ := bind_eq_ok h
    rw [if_neg (lt_irrefl 0), if_neg (lt_irrefl 0)] at h
    rw [← Except.ok.inj h, mulU128_eq_ok hvalue]

theorem amount_whole {key : String} {value : ResourceValue} {coefficient multiplier a : ℕ}
    {e : ResourceValueErrorKind}
    (h : invalidValue key value
      ((scaleDecimal ⟨coefficient, 0⟩ multiplier e).bind toU64) = .ok a) :
    a = coefficient * multiplier := by
  obtain ⟨v, hv, ha⟩ := bind_eq_ok (invalidValue_eq_ok h)
  rw [toU64_eq_ok ha, scaleDecimal_whole hv]

theorem parseCount_numeral {key : String} {value : ResourceValue} {a : ℕ}
    (hnumeral : isNumeral value.display.toList = true) (h : parseCount key value = .ok a) :
    a = numeralValue value.display.toList * tokenScale := by
  obtain ⟨d, hd, h⟩ := bind_eq_ok h
  rw [decimalFromValue_numeral hnumeral hd] at h
  exact amount_whole h

theorem map_decimal_eq_ok {ε : Type} {x : Except ε Decimal} {unit : ℕ} {p : Decimal × ℕ}
    (h : x.map (·, unit) = .ok p) : ∃ d, x = .ok d ∧ p = (d, unit) := by
  cases x with
  | error => cases h
  | ok d => exact ⟨d, rfl, (Except.ok.inj h).symm⟩

theorem parseMemory_megabytes {value : ResourceValue} {a : ℕ}
    (hnumeral : isNumeral value.display.toList = true) (h : parseMemory "mem_mb" value = .ok a) :
    a = numeralValue value.display.toList * 2 ^ 20 := by
  obtain ⟨p, hp, h⟩ := bind_eq_ok h
  unfold memoryDecimal at hp
  rw [if_pos rfl] at hp
  obtain ⟨d, hd, rfl⟩ := map_decimal_eq_ok hp
  rw [decimalFromValue_numeral hnumeral hd] at h
  exact amount_whole h

theorem toUpper_of_isDigit {c : Char} (h : c.isDigit = true) : c.toUpper = c := by
  have hbounds := toNat_of_isDigit h
  unfold Char.toUpper
  rw [dif_neg]
  intro hlower
  have hle : 97 ≤ c.toNat := UInt32.le_iff_toNat_le.mp hlower.1
  omega

theorem map_toUpper_digits {text : List Char} (h : ∀ c ∈ text, c.isDigit = true) :
    text.map Char.toUpper = text := by
  have hid : text.map Char.toUpper = text.map id := by
    apply map_congr_left
    intro c hc
    exact toUpper_of_isDigit (h c hc)
  rw [hid, List.map_id]

theorem find_units_digit (text : List Char) {c : Char} (hc : c.isDigit = true) :
    (units.find? fun unit => unit.1.toList.isSuffixOf (text ++ [c])) = none := by
  have hB : 'B' ≠ c := (ne_of_isDigit hc rfl).symm
  have hK : 'K' ≠ c := (ne_of_isDigit hc rfl).symm
  have hM : 'M' ≠ c := (ne_of_isDigit hc rfl).symm
  have hG : 'G' ≠ c := (ne_of_isDigit hc rfl).symm
  have hT : 'T' ≠ c := (ne_of_isDigit hc rfl).symm
  simp [units, List.isSuffixOf, hB, hK, hM, hG, hT]

theorem find_units_letter (text : List Char) {c : Char} {u : ℕ} (hu : slurmUnit c = some u) :
    ∃ name : String, name.length = 1 ∧
      (units.find? fun unit => unit.1.toList.isSuffixOf (text ++ [c.toUpper])) =
        some (name, u) := by
  unfold slurmUnit at hu
  split at hu
  · cases hu
    exact ⟨"K", rfl, by simp [units, List.isSuffixOf]⟩
  · cases hu
    exact ⟨"K", rfl, by simp [units, List.isSuffixOf]⟩
  · cases hu
    exact ⟨"M", rfl, by simp [units, List.isSuffixOf]⟩
  · cases hu
    exact ⟨"M", rfl, by simp [units, List.isSuffixOf]⟩
  · cases hu
    exact ⟨"G", rfl, by simp [units, List.isSuffixOf]⟩
  · cases hu
    exact ⟨"G", rfl, by simp [units, List.isSuffixOf]⟩
  · cases hu
    exact ⟨"T", rfl, by simp [units, List.isSuffixOf]⟩
  · cases hu
    exact ⟨"T", rfl, by simp [units, List.isSuffixOf]⟩
  · cases hu

theorem letter_of_slurmUnit {c : Char} {u : ℕ} (hu : slurmUnit c = some u) :
    c.isDigit = false ∧ isWhitespace c = false ∧ c ≠ '.' ∧ (c ≠ 'e' ∧ c ≠ 'E') ∧
      digitValue c = none := by
  unfold slurmUnit at hu
  split at hu
  any_goals exact ⟨rfl, rfl, by decide, by decide, rfl⟩
  cases hu

theorem parseMemoryString_numeral {text : String} {p : Decimal × ℕ}
    (hnumeral : isNumeral text.toList = true) (h : parseMemoryString text = .ok p) :
    p = (⟨numeralValue text.toList, 0⟩, 1) := by
  have hdigits := isDigit_of_isNumeral hnumeral
  have hne := ne_nil_of_isNumeral hnumeral
  have hfind : (units.find? fun unit => unit.1.toList.isSuffixOf text.toList) = none := by
    have hlast := find_units_digit text.toList.dropLast
      (hdigits _ (getLast_mem hne))
    rwa [dropLast_append_getLast] at hlast
  rw [parseMemoryString] at h
  dsimp only at h
  rw [trim_eq_self (plain_of_isNumeral hnumeral).noSpace, map_toUpper_digits hdigits, hfind,
    isEmpty_eq_false_iff.mpr hne, if_neg Bool.false_ne_true] at h
  obtain ⟨d, hd, hp⟩ := map_decimal_eq_ok h
  rw [hp, parseDecimal_numeral hnumeral hd]

theorem parseMemoryString_unit {text : String} {number : List Char} {c : Char} {u : ℕ}
    {p : Decimal × ℕ} (htext : text.toList = number ++ [c]) (hnumeral : isNumeral number = true)
    (hu : slurmUnit c = some u) (h : parseMemoryString text = .ok p) :
    p = (⟨numeralValue number, 0⟩, u) := by
  have hdigits := isDigit_of_isNumeral hnumeral
  obtain ⟨-, hspace, -⟩ := letter_of_slurmUnit hu
  obtain ⟨_, hname, hfind⟩ := find_units_letter number hu
  have hclean : ∀ d ∈ number ++ [c], isWhitespace d = false := by
    intro d hd
    rcases mem_append.mp hd with hd | hd
    · exact isWhitespace_of_isDigit (hdigits d hd)
    · rw [mem_singleton.mp hd]
      exact hspace
  have hne : (number ++ [c]).isEmpty = false :=
    isEmpty_eq_false_iff.mpr (append_ne_nil_of_right_ne_nil _ (cons_ne_nil c []))
  rw [parseMemoryString] at h
  dsimp only at h
  rw [htext, trim_eq_self hclean, map_append, map_toUpper_digits hdigits, map_singleton,
    hfind, hne, if_neg Bool.false_ne_true] at h
  dsimp only at h
  rw [hname, length_append, length_singleton, Nat.add_sub_cancel,
    take_left] at h
  obtain ⟨d, hd, hp⟩ := map_decimal_eq_ok h
  rw [hp, parseDecimal_numeral hnumeral hd]

theorem not_decimalFromValue_unit {key : String} {value : ResourceValue} {d : Decimal}
    {number : List Char} {c : Char} {u : ℕ} (htext : value.display.toList = number ++ [c])
    (hnumeral : isNumeral number = true) (hu : slurmUnit c = some u) :
    decimalFromValue key value ≠ .ok d := by
  obtain ⟨hdigit, hspace, hpoint, hexponent, hvalue⟩ := letter_of_slurmUnit hu
  have hplain := plain_of_isNumeral hnumeral
  have hmem : c ∈ number ++ [c] := mem_append_right _ (mem_singleton.mpr rfl)
  have hunit : Plain (number ++ [c]) := by
    constructor
    · obtain ⟨e, rest, hnumber, he⟩ := hplain.head
      exact ⟨e, rest ++ [c], by rw [hnumber, cons_append], he⟩
    · intro e he
      rcases mem_append.mp he with he | he
      · exact hplain.noSpace e he
      · rw [mem_singleton.mp he]
        exact hspace
    · intro e he
      rcases mem_append.mp he with he | he
      · exact hplain.noExponent e he
      · rw [mem_singleton.mp he]
        exact hexponent
  have hparse : parseDecimal (number ++ [c]) ≠ .ok d := by
    intro h
    obtain ⟨m, hm, -⟩ := parseDecimal_plain hunit h
    exact not_readMantissa hmem hvalue hpoint hm
  intro h
  have h := invalidValue_eq_ok h
  cases value with
  | int =>
    dsimp only at h
    split_ifs at h with hnegative
    have hall := isDigit_of_isNumeral (numeral_display_int (Int.not_lt.mp hnegative)).1
    rw [htext] at hall
    rw [hall c hmem] at hdigit
    cases hdigit
  | float v =>
    dsimp only at h
    split_ifs at h with hfinite hnegative
    rw [show v.text.toList = number ++ [c] from htext] at h
    exact hparse h
  | str v =>
    dsimp only at h
    rw [show v.toList = number ++ [c] from htext] at h
    exact hparse h

theorem memoryDecimal_of_key {key : String} (hkey : key = "mem" ∨ key = "memory")
    (value : ResourceValue) :
    memoryDecimal key value = match value with
      | .str v => invalidValue key value (parseMemoryString v)
      | _ => (decimalFromValue key value).map (·, 1) := by
  rcases hkey with rfl | rfl <;> rfl

theorem parseMemory_numeral {key : String} {value : ResourceValue} {a : ℕ}
    (hkey : key = "mem" ∨ key = "memory") (hnumeral : isNumeral value.display.toList = true)
    (h : parseMemory key value = .ok a) : a = numeralValue value.display.toList := by
  obtain ⟨p, hp, h⟩ := bind_eq_ok h
  rw [memoryDecimal_of_key hkey] at hp
  have hdecimal : p = (⟨numeralValue value.display.toList, 0⟩, 1) := by
    cases value with
    | str => exact parseMemoryString_numeral hnumeral (invalidValue_eq_ok hp)
    | int | float =>
      obtain ⟨d, hd, rfl⟩ := map_decimal_eq_ok hp
      rw [decimalFromValue_numeral hnumeral hd]
  rw [hdecimal] at h
  rw [amount_whole h, Nat.mul_one]

theorem parseMemory_unit {key : String} {value : ResourceValue} {a : ℕ} {number : List Char}
    {c : Char} {u : ℕ} (hkey : key = "mem" ∨ key = "memory")
    (htext : value.display.toList = number ++ [c]) (hnumeral : isNumeral number = true)
    (hu : slurmUnit c = some u) (h : parseMemory key value = .ok a) :
    a = numeralValue number * u := by
  obtain ⟨p, hp, h⟩ := bind_eq_ok h
  rw [memoryDecimal_of_key hkey] at hp
  have hdecimal : p = (⟨numeralValue number, 0⟩, u) := by
    cases value with
    | str => exact parseMemoryString_unit htext hnumeral hu (invalidValue_eq_ok hp)
    | int | float =>
      obtain ⟨d, hd, -⟩ := map_decimal_eq_ok hp
      exact absurd hd (not_decimalFromValue_unit htext hnumeral hu)
  rw [hdecimal] at h
  exact amount_whole h

theorem directive_mem {key : String} {value : ResourceValue} {d : SlurmDirective}
    (h : directive key value = some d) (hflag : d.flag = "--mem") :
    ((key = "mem" ∨ key = "memory") ∧ d.value = value.display) ∨
      (key = "mem_mb" ∧ d.value = value.display ++ "M") := by
  unfold directive at h
  split at h
  any_goals cases h
  all_goals simp at hflag
  · exact .inl ⟨.inl rfl, rfl⟩
  · exact .inl ⟨.inr rfl, rfl⟩
  · exact .inr ⟨rfl, rfl⟩

theorem directive_cpus {key : String} {value : ResourceValue} {d : SlurmDirective}
    (h : directive key value = some d) (hflag : d.flag = "--cpus-per-task") :
    (key = "cpu" ∨ key = "cpus" ∨ key = "cpus_per_task") ∧ d.value = value.display := by
  unfold directive at h
  split at h
  any_goals cases h
  all_goals simp at hflag
  · exact ⟨.inl rfl, rfl⟩
  · exact ⟨.inr (.inl rfl), rfl⟩
  · exact ⟨.inr (.inr rfl), rfl⟩

theorem directive_gpus {key : String} {value : ResourceValue} {d : SlurmDirective}
    (h : directive key value = some d) (hflag : d.flag = "--gpus") :
    (key = "gpu" ∨ key = "gpus") ∧ d.value = value.display := by
  unfold directive at h
  split at h
  any_goals cases h
  all_goals simp at hflag
  · exact ⟨.inl rfl, rfl⟩
  · exact ⟨.inr rfl, rfl⟩

theorem directive_time {key : String} {value : ResourceValue} {d : SlurmDirective}
    (h : directive key value = some d) (hflag : d.flag = "--time") : key = "time" := by
  unfold directive at h
  split at h
  any_goals cases h
  all_goals simp at hflag
  rfl

theorem directives_foldl (resources : List (String × ResourceValue)) (m : Mapping) :
    (resources.foldl Mapping.push m).directives =
      m.directives ++ resources.filterMap fun r => directive r.1 r.2 := by
  induction resources generalizing m with
  | nil => rw [foldl_nil, filterMap_nil, append_nil]
  | cons r resources ih =>
    rw [foldl_cons, ih, Mapping.push, append_assoc]
    congr 1
    rw [filterMap_cons]
    cases directive r.1 r.2 with
    | none => rw [toList_none, nil_append]
    | some => rw [toList_some, singleton_append]

theorem any_time_eq_false {resources : List (String × ResourceValue)} :
    ((resources.filterMap fun r => directive r.1 r.2).any fun d => d.flag = "--time") = false ↔
      ∀ r ∈ resources, r.1 ≠ "time" := by
  rw [List.any_eq_false]
  constructor
  · intro h r hr hkey
    obtain ⟨key, _⟩ := r
    obtain rfl : key = "time" := hkey
    exact h _ (mem_filterMap.mpr ⟨_, hr, rfl⟩) (decide_eq_true rfl)
  · intro h d hd hflag
    obtain ⟨r, hr, hdirective⟩ := mem_filterMap.mp hd
    exact h r hr (directive_time hdirective (of_decide_eq_true hflag))

theorem mem_mapResources {resources : List (String × ResourceValue)} {timeout : Option Duration}
    {directives : List SlurmDirective} (h : mapResources resources timeout = .ok directives)
    (d : SlurmDirective) :
    d ∈ directives ↔ (∃ r ∈ resources, directive r.1 r.2 = some d) ∨
      ((∀ r ∈ resources, r.1 ≠ "time") ∧
        ∃ t, timeout = some t ∧ d = ⟨"--time", clockTime (buffered t.secs)⟩) := by
  rw [mapResources] at h
  dsimp only at h
  rw [directives_foldl, nil_append] at h
  rw [← any_time_eq_false, ← mem_filterMap]
  generalize hmapped : (resources.filterMap fun r => directive r.1 r.2) = mapped at h ⊢
  split_ifs at h with hmem hconflict
  cases htime : mapped.any fun d => decide (d.flag = "--time") with
  | true =>
    rw [htime] at h
    cases h
    constructor
    · exact .inl
    · rintro (hd | ⟨hfalse, -⟩)
      · exact hd
      · cases hfalse
  | false =>
    rw [htime] at h
    cases timeout with
    | none =>
      cases h
      constructor
      · exact .inl
      · rintro (hd | ⟨-, t, hnone, -⟩)
        · exact hd
        · cases hnone
    | some t =>
      cases h
      rw [mem_append, mem_singleton]
      constructor
      · rintro (hd | hd)
        · exact .inl hd
        · exact .inr ⟨rfl, t, rfl, hd⟩
      · rintro (hd | ⟨-, _, ht, hd⟩)
        · exact .inl hd
        · cases ht
          exact .inr hd

def Spells : CanonicalResource → String → Prop
  | .cpu, key => key = "cpu" ∨ key = "cpus"
  | .gpu, key => key = "gpu" ∨ key = "gpus"
  | .memory, key => key = "mem" ∨ key = "memory" ∨ key = "mem_mb" ∨ key = "mem_gb"
  | .custom _, _ => True

theorem spells_of_canonicalize {key : String} {canonical : CanonicalResource}
    (h : canonicalizeResourceKey key = .ok canonical) : Spells canonical key := by
  rw [canonicalizeResourceKey] at h
  by_cases hempty : (trim key.toList).isEmpty = true
  · rw [if_pos hempty] at h
    cases h
  rw [if_neg hempty] at h
  cases hcustom : "custom:".toList.isPrefixOf? key.toList with
  | some =>
    rw [hcustom] at h
    dsimp only at h
    split_ifs at h with hname
    cases h
    trivial
  | none =>
    rw [hcustom] at h
    dsimp only at h
    split_ifs at h with hcpu hgpu hmemory
    · cases h
      exact hcpu
    · cases h
      exact hgpu
    · cases h
      exact hmemory
    · cases h
      trivial

theorem canonicalize_of_spells {key : String} (canonical : CanonicalResource)
    (hcustom : ∀ name, canonical ≠ .custom name) (h : Spells canonical key) :
    canonicalizeResourceKey key = .ok canonical := by
  cases canonical with
  | cpu | gpu => rcases h with rfl | rfl <;> rfl
  | memory => rcases h with rfl | rfl | rfl | rfl <;> rfl
  | custom name => exact absurd rfl (hcustom name)

theorem spells_of_directive_mem {key : String} {value : ResourceValue} {d : SlurmDirective}
    (h : directive key value = some d) (hflag : d.flag = "--mem") :
    Spells .memory key ∧ key ≠ "mem_gb" := by
  have hcases := directive_mem h hflag
  have hkey : key = "mem" ∨ key = "memory" ∨ key = "mem_mb" := by
    rcases hcases with ⟨hkey | hkey, -⟩ | ⟨hkey, -⟩
    · exact .inl hkey
    · exact .inr (.inl hkey)
    · exact .inr (.inr hkey)
  constructor
  · rcases hkey with hkey | hkey | hkey
    · exact .inl hkey
    · exact .inr (.inl hkey)
    · exact .inr (.inr (.inl hkey))
  · intro hgiga
    rw [hgiga] at hkey
    revert hkey
    decide

theorem slurmCount_of_numeral {key : String} {value : ResourceValue} {a : ℕ}
    (hnumeral : isNumeral value.display.toList = true) (h : parseCount key value = .ok a) :
    slurmCount value.display = some a := by
  rw [slurmCount, readNumeral_of_isNumeral hnumeral, parseCount_numeral hnumeral h]
  rfl

theorem isNumeral_of_slurmCount {text : String} {a : ℕ} (h : slurmCount text = some a) :
    isNumeral text.toList = true := by
  obtain ⟨n, hn, -⟩ := map_eq_some_iff.mp h
  exact (readNumeral_eq_some hn).1

theorem readNumeral_of_slurmCount {text text' : String} {a : ℕ} (h : slurmCount text = some a)
    (h' : slurmCount text' = some a) : readNumeral text.toList = readNumeral text'.toList := by
  obtain ⟨n, hn, ha⟩ := map_eq_some_iff.mp h
  obtain ⟨n', hn', ha'⟩ := map_eq_some_iff.mp h'
  have heq : n * tokenScale = n' * tokenScale := ha.trans ha'.symm
  rw [hn, hn', Nat.eq_of_mul_eq_mul_right (by decide) heq]

theorem slurmMemory_append_unit {text : String} {number : List Char} {c : Char} {u : ℕ}
    (htext : text.toList = number ++ [c]) (hu : slurmUnit c = some u) :
    slurmMemory text = (readNumeral number).map (· * u) := by
  have hdigit := (letter_of_slurmUnit hu).1
  have hnone : readNumeral (number ++ [c]) = none := by
    rw [readNumeral, if_neg]
    intro hnumeral
    have hall := isDigit_of_isNumeral hnumeral c
      (mem_append_right _ (mem_singleton.mpr rfl))
    rw [hall] at hdigit
    cases hdigit
  rw [slurmMemory, htext, hnone, getLast?_concat, dropLast_concat]
  dsimp only
  rw [bind_some, hu, bind_some]

theorem slurmMemory_numeral {text : String} (hnumeral : isNumeral text.toList = true) :
    slurmMemory text = some (numeralValue text.toList * 2 ^ 20) := by
  rw [slurmMemory, readNumeral_of_isNumeral hnumeral]

theorem slurmMemory_eq_some {text : String} {a : ℕ} (h : slurmMemory text = some a) :
    isNumeral text.toList = true ∨ ∃ number c u, text.toList = number ++ [c] ∧
      isNumeral number = true ∧ slurmUnit c = some u := by
  rw [slurmMemory] at h
  cases hread : readNumeral text.toList with
  | some => exact .inl (readNumeral_eq_some hread).1
  | none =>
    rw [hread] at h
    dsimp only at h
    obtain ⟨u, hu, h⟩ := bind_eq_some_iff.mp h
    obtain ⟨c, hc, hu⟩ := bind_eq_some_iff.mp hu
    obtain ⟨n, hn, -⟩ := map_eq_some_iff.mp h
    exact .inr ⟨_, c, u, (dropLast_append_getLast? c hc).symm,
      (readNumeral_eq_some hn).1, hu⟩

theorem isSlurmMemory_iff {text : List Char} :
    isSlurmMemory text = true ↔
      (∃ number c u, text = number ++ [c] ∧ isNumeral number = true ∧ slurmUnit c = some u) ∨
        isNumeral text = true ∧ numeralValue text = 0 := by
  rw [isSlurmMemory, Bool.or_eq_true, Bool.and_eq_true, Bool.and_eq_true, beq_iff_eq]
  constructor
  · rintro (⟨hnumeral, hunit⟩ | hzero)
    · obtain ⟨u, hu⟩ := isSome_iff_exists.mp hunit
      obtain ⟨c, hc, hu⟩ := bind_eq_some_iff.mp hu
      exact .inl ⟨_, c, u, (dropLast_append_getLast? c hc).symm, hnumeral, hu⟩
    · exact .inr hzero
  · rintro (⟨number, c, u, rfl, hnumeral, hu⟩ | hzero)
    · rw [dropLast_concat, getLast?_concat, bind_some, hu]
      exact .inl ⟨hnumeral, rfl⟩
    · exact .inr hzero

theorem slurmMemory_iff {key : String} {value : ResourceValue} {a : ℕ}
    (hkey : key = "mem" ∨ key = "memory") (h : parseMemory key value = .ok a) :
    slurmMemory value.display = some a ↔ isSlurmMemory value.display.toList = true := by
  rw [isSlurmMemory_iff]
  constructor
  · intro hread
    rcases slurmMemory_eq_some hread with hnumeral | hunit
    · rw [slurmMemory_numeral hnumeral] at hread
      have hbytes := parseMemory_numeral hkey hnumeral h
      have hmebi := Option.some.inj hread
      exact .inr ⟨hnumeral, by omega⟩
    · exact .inl hunit
  · rintro (⟨_, c, u, htext, hnumeral, hu⟩ | ⟨hnumeral, hzero⟩)
    · rw [slurmMemory_append_unit htext hu, readNumeral_of_isNumeral hnumeral,
        parseMemory_unit hkey htext hnumeral hu h]
      rfl
    · rw [slurmMemory_numeral hnumeral, parseMemory_numeral hkey hnumeral h, hzero, Nat.zero_mul]

theorem slurmMemory_megabytes_iff {value : ResourceValue} {a : ℕ}
    (h : parseMemory "mem_mb" value = .ok a) :
    slurmMemory (value.display ++ "M") = some a ↔ isNumeral value.display.toList = true := by
  have htext : (value.display ++ "M").toList = value.display.toList ++ ['M'] :=
    String.toList_append
  rw [slurmMemory_append_unit htext rfl]
  constructor
  · intro hread
    obtain ⟨n, hn, -⟩ := map_eq_some_iff.mp hread
    exact (readNumeral_eq_some hn).1
  · intro hnumeral
    rw [readNumeral_of_isNumeral hnumeral, parseMemory_megabytes hnumeral h]
    rfl

section Mapped

variable {resources : List (String × ResourceValue)} {timeout : Option Duration}
  {n : NormalizedResources} {directives : List SlurmDirective}
  (hnormalized : normalizeResources resources = .ok n)
  (hmapped : mapResources resources timeout = .ok directives)

include hmapped in
theorem resource_of_directive {d : SlurmDirective} (hd : d ∈ directives)
    (hflag : d.flag ≠ "--time") : ∃ r ∈ resources, directive r.1 r.2 = some d := by
  rcases (mem_mapResources hmapped d).mp hd with hr | ⟨-, t, -, rfl⟩
  · exact hr
  · exact absurd rfl hflag

include hmapped in
theorem directive_mem_directives {r : String × ResourceValue} (hr : r ∈ resources)
    {d : SlurmDirective} (hd : directive r.1 r.2 = some d) : d ∈ directives :=
  (mem_mapResources hmapped d).mpr (.inl ⟨r, hr, hd⟩)

include hnormalized hmapped in
theorem requests_gpus_iff : Requests directives "--gpus" slurmCount n.gpu ↔
    ∀ r ∈ resources, r.1 = "gpu" ∨ r.1 = "gpus" → isNumeral r.2.display.toList = true := by
  have hspec := normalizes_of_normalizeResources hnormalized
  have hdirective : ∀ r : String × ResourceValue, r.1 = "gpu" ∨ r.1 = "gpus" →
      directive r.1 r.2 = some ⟨"--gpus", r.2.display⟩ := by
    rintro ⟨_, _⟩ (rfl | rfl) <;> rfl
  have hkeys : ∀ r ∈ resources, r.1 = "gpu" ∨ r.1 = "gpus" →
      ∃ a, parseCount r.1 r.2 = .ok a ∧ n.gpu = some a := by
    intro r hr hkey
    exact hspec.parsed hr (canonicalize_of_spells .gpu (fun _ => nofun) hkey)
  constructor
  · intro hrequests r hr hkey
    have hd := directive_mem_directives hmapped hr (hdirective r hkey)
    obtain ⟨a, -, hread⟩ := hrequests.1 ⟨"--gpus", r.2.display⟩ hd rfl
    exact isNumeral_of_slurmCount hread
  · intro hcounts
    constructor
    · intro d hd hflag
      obtain ⟨r, hr, hrd⟩ := resource_of_directive hmapped hd (by rw [hflag]; decide)
      obtain ⟨hkey, hvalue⟩ := directive_gpus hrd hflag
      obtain ⟨a, ha, hamount⟩ := hkeys r hr hkey
      refine ⟨a, hamount, ?_⟩
      rw [hvalue]
      exact slurmCount_of_numeral (hcounts r hr hkey) ha
    · intro a ha
      obtain ⟨r, hr, hkey⟩ := (declared_of_normalizeResources hnormalized).gpu a ha
      have hd := directive_mem_directives hmapped hr (hdirective r (spells_of_canonicalize hkey))
      exact ⟨_, hd, rfl⟩

include hnormalized hmapped in
theorem requests_cpus_iff : Requests directives "--cpus-per-task" slurmCount n.cpu ↔
    (∀ r ∈ resources, r.1 = "cpu" ∨ r.1 = "cpus" → isNumeral r.2.display.toList = true) ∧
      ∀ r ∈ resources, r.1 = "cpus_per_task" → ∃ r' ∈ resources, (r'.1 = "cpu" ∨ r'.1 = "cpus") ∧
        readNumeral r.2.display.toList = readNumeral r'.2.display.toList := by
  have hspec := normalizes_of_normalizeResources hnormalized
  have hdirective : ∀ r : String × ResourceValue,
      r.1 = "cpu" ∨ r.1 = "cpus" ∨ r.1 = "cpus_per_task" →
        directive r.1 r.2 = some ⟨"--cpus-per-task", r.2.display⟩ := by
    rintro ⟨key, _⟩ (rfl | rfl | rfl) <;> rfl
  have hkeys : ∀ r ∈ resources, r.1 = "cpu" ∨ r.1 = "cpus" →
      ∃ a, parseCount r.1 r.2 = .ok a ∧ n.cpu = some a := by
    intro r hr hkey
    exact hspec.parsed hr (canonicalize_of_spells .cpu (fun _ => nofun) hkey)
  have hdeclared : ∀ a, n.cpu = some a → ∃ r ∈ resources, r.1 = "cpu" ∨ r.1 = "cpus" := by
    intro a ha
    obtain ⟨r, hr, hkey⟩ := (declared_of_normalizeResources hnormalized).cpu a ha
    exact ⟨r, hr, spells_of_canonicalize hkey⟩
  have hbare : ∀ {key : String}, key = "cpu" ∨ key = "cpus" →
      key = "cpu" ∨ key = "cpus" ∨ key = "cpus_per_task" := by
    rintro key (hkey | hkey)
    · exact .inl hkey
    · exact .inr (.inl hkey)
  constructor
  · intro hrequests
    have hread : ∀ r ∈ resources, r.1 = "cpu" ∨ r.1 = "cpus" ∨ r.1 = "cpus_per_task" →
        ∃ a, n.cpu = some a ∧ slurmCount r.2.display = some a := by
      intro r hr hkey
      have hd := directive_mem_directives hmapped hr (hdirective r hkey)
      exact hrequests.1 ⟨"--cpus-per-task", r.2.display⟩ hd rfl
    constructor
    · intro r hr hkey
      obtain ⟨a, -, hcount⟩ := hread r hr (hbare hkey)
      exact isNumeral_of_slurmCount hcount
    · intro r hr hkey
      obtain ⟨a, ha, hcount⟩ := hread r hr (.inr (.inr hkey))
      obtain ⟨r', hr', hkey'⟩ := hdeclared a ha
      obtain ⟨a', ha', hcount'⟩ := hread r' hr' (hbare hkey')
      have heq : a' = a := Option.some.inj (ha'.symm.trans ha)
      rw [heq] at hcount'
      exact ⟨r', hr', hkey', readNumeral_of_slurmCount hcount hcount'⟩
  · rintro ⟨hcounts, htask⟩
    have hread : ∀ r ∈ resources, r.1 = "cpu" ∨ r.1 = "cpus" →
        ∃ a, n.cpu = some a ∧ slurmCount r.2.display = some a := by
      intro r hr hkey
      obtain ⟨a, ha, hamount⟩ := hkeys r hr hkey
      exact ⟨a, hamount, slurmCount_of_numeral (hcounts r hr hkey) ha⟩
    constructor
    · intro d hd hflag
      obtain ⟨r, hr, hrd⟩ := resource_of_directive hmapped hd (by rw [hflag]; decide)
      obtain ⟨hkey, hvalue⟩ := directive_cpus hrd hflag
      rw [hvalue]
      rcases hkey with hkey | hkey | hkey
      · exact hread r hr (.inl hkey)
      · exact hread r hr (.inr hkey)
      · obtain ⟨r', hr', hkey', hsame⟩ := htask r hr hkey
        obtain ⟨a, ha, hcount⟩ := hread r' hr' hkey'
        refine ⟨a, ha, ?_⟩
        rw [slurmCount, hsame]
        exact hcount
    · intro a ha
      obtain ⟨r, hr, hkey⟩ := hdeclared a ha
      exact ⟨_, directive_mem_directives hmapped hr (hdirective r (hbare hkey)), rfl⟩

include hnormalized hmapped in
theorem requests_memory_iff : Requests directives "--mem" slurmMemory n.memoryBytes ↔
    (∀ r ∈ resources, r.1 ≠ "mem_gb") ∧
      (∀ r ∈ resources, r.1 = "mem_mb" → isNumeral r.2.display.toList = true) ∧
        ∀ r ∈ resources, r.1 = "mem" ∨ r.1 = "memory" →
          isSlurmMemory r.2.display.toList = true := by
  have hspec := normalizes_of_normalizeResources hnormalized
  have hcanonical : ∀ {r : String × ResourceValue}, Spells .memory r.1 →
      canonicalizeResourceKey r.1 = .ok .memory :=
    fun h => canonicalize_of_spells .memory (fun _ => nofun) h
  have hkeys : ∀ r ∈ resources, Spells .memory r.1 →
      ∃ a, parseMemory r.1 r.2 = .ok a ∧ n.memoryBytes = some a :=
    fun r hr hkey => hspec.parsed hr (hcanonical hkey)
  have hplain : ∀ r : String × ResourceValue, r.1 = "mem" ∨ r.1 = "memory" →
      directive r.1 r.2 = some ⟨"--mem", r.2.display⟩ := by
    rintro ⟨key, value⟩ (rfl | rfl) <;> rfl
  have hmega : ∀ r : String × ResourceValue, r.1 = "mem_mb" →
      directive r.1 r.2 = some ⟨"--mem", r.2.display ++ "M"⟩ := by
    rintro ⟨key, value⟩ rfl
    rfl
  have hspells : ∀ {key : String}, key = "mem" ∨ key = "memory" → Spells .memory key := by
    rintro key (hkey | hkey)
    · exact .inl hkey
    · exact .inr (.inl hkey)
  constructor
  · intro hrequests
    have hread : ∀ r ∈ resources, Spells .memory r.1 → ∀ text,
        directive r.1 r.2 = some ⟨"--mem", text⟩ →
          ∃ a, parseMemory r.1 r.2 = .ok a ∧ slurmMemory text = some a := by
      intro r hr hkey text htext
      obtain ⟨a, ha, hamount⟩ := hkeys r hr hkey
      have hd := directive_mem_directives hmapped hr htext
      obtain ⟨_, ha', hread⟩ := hrequests.1 ⟨"--mem", text⟩ hd rfl
      rw [Option.some.inj (ha'.symm.trans hamount)] at hread
      exact ⟨a, ha, hread⟩
    refine ⟨?_, ?_, ?_⟩
    · intro r hr hkey
      have hgiga : Spells .memory r.1 := .inr (.inr (.inr hkey))
      obtain ⟨a, -, hamount⟩ := hkeys r hr hgiga
      obtain ⟨d, hd, hflag⟩ := hrequests.2 a hamount
      obtain ⟨_, hr', hrd⟩ := resource_of_directive hmapped hd (by rw [hflag]; decide)
      obtain ⟨hkey', hne⟩ := spells_of_directive_mem hrd hflag
      have hsame := hspec.unique hr hr' ((hcanonical hgiga).trans (hcanonical hkey').symm)
      rw [← hsame] at hne
      exact hne hkey
    · intro r hr hkey
      obtain ⟨a, ha, htext⟩ := hread r hr (.inr (.inr (.inl hkey))) _ (hmega r hkey)
      rw [hkey] at ha
      exact (slurmMemory_megabytes_iff ha).mp htext
    · intro r hr hkey
      obtain ⟨a, ha, htext⟩ := hread r hr (hspells hkey) _ (hplain r hkey)
      exact (slurmMemory_iff hkey ha).mp htext
  · rintro ⟨hgiga, hnumeral, hunit⟩
    constructor
    · intro d hd hflag
      obtain ⟨r, hr, hrd⟩ := resource_of_directive hmapped hd (by rw [hflag]; decide)
      rcases directive_mem hrd hflag with ⟨hkey, hvalue⟩ | ⟨hkey, hvalue⟩
      · obtain ⟨a, ha, hamount⟩ := hkeys r hr (hspells hkey)
        refine ⟨a, hamount, ?_⟩
        rw [hvalue]
        exact (slurmMemory_iff hkey ha).mpr (hunit r hr hkey)
      · obtain ⟨a, ha, hamount⟩ := hkeys r hr (.inr (.inr (.inl hkey)))
        refine ⟨a, hamount, ?_⟩
        rw [hkey] at ha
        rw [hvalue]
        exact (slurmMemory_megabytes_iff ha).mpr (hnumeral r hr hkey)
    · intro a ha
      obtain ⟨r, hr, hkey⟩ := (declared_of_normalizeResources hnormalized).memory a ha
      rcases spells_of_canonicalize hkey with hkey | hkey | hkey | hkey
      · exact ⟨_, directive_mem_directives hmapped hr (hplain r (.inl hkey)), rfl⟩
      · exact ⟨_, directive_mem_directives hmapped hr (hplain r (.inr hkey)), rfl⟩
      · exact ⟨_, directive_mem_directives hmapped hr (hmega r hkey), rfl⟩
      · exact absurd hkey (hgiga r hr)

theorem slurmTime_clockTime (secs : ℕ) : slurmTime (clockTime secs) = some secs := by
  have hcolon : ∀ n, ∀ c ∈ padded 2 n, (c == ':') = false := by
    intro n c hc
    exact beq_false_of_ne (ne_of_isDigit (isDigit_of_isNumeral (isNumeral_padded 2 n) c hc) rfl)
  have hsplit : (clockTime secs).toList.splitOnP (· == ':') =
      [padded 2 (secs / 3600), padded 2 (secs % 3600 / 60), padded 2 (secs % 60)] := by
    rw [clockTime, String.toList_ofList, splitOnP_append_cons_of_forall_mem (hcolon _) ':' rfl,
      splitOnP_append_cons_of_forall_mem (hcolon _) ':' rfl, splitOnP_eq_singleton (hcolon _)]
  have htotal : secs / 3600 * 3600 + secs % 3600 / 60 * 60 + secs % 60 = secs := by omega
  rw [slurmTime, hsplit]
  dsimp only
  rw [readNumeral_padded, readNumeral_padded, readNumeral_padded]
  exact congrArg some htotal

include hmapped in
theorem derived_time_iff : ((∀ r ∈ resources, r.1 ≠ "time") → ∀ t, timeout = some t →
    ∃ d ∈ directives, d.flag = "--time" ∧ ∃ s, slurmTime d.value = some s ∧
      t.nanoseconds ≤ s * 10 ^ 9) ↔
    ((∀ r ∈ resources, r.1 ≠ "time") → ∀ t, timeout = some t →
      t.secs + t.secs / 10 < 2 ^ 64 ∧ (t.nanos = 0 ∨ 10 ≤ t.secs)) := by
  constructor
  · intro h hnone t ht
    obtain ⟨d, hd, hflag, s, hs, hle⟩ := h hnone t ht
    have hsecs : s = buffered t.secs := by
      rcases (mem_mapResources hmapped d).mp hd with ⟨r, hr, hrd⟩ | ⟨-, _, ht', rfl⟩
      · exact absurd (directive_time hrd hflag) (hnone r hr)
      · rw [slurmTime_clockTime] at hs
        rw [Option.some.inj (ht.symm.trans ht')]
        exact (Option.some.inj hs).symm
    rw [hsecs, buffered, Duration.nanoseconds] at hle
    have hlt := t.secs_lt
    omega
  · intro h hnone t ht
    obtain ⟨hfits, _⟩ := h hnone t ht
    refine ⟨⟨"--time", clockTime (buffered t.secs)⟩,
      (mem_mapResources hmapped _).mpr (.inr ⟨hnone, t, ht, rfl⟩), rfl, buffered t.secs,
      slurmTime_clockTime _, ?_⟩
    have hlt := t.nanos_lt
    rw [buffered, Nat.mod_eq_of_lt hfits, Duration.nanoseconds]
    omega

end Mapped

/-- For resources that both accept, the directives request exactly the canonical
amounts and a sufficient time limit if and only if the resources are spelled as
SLURM reads them and the tenth covers the timeout. -/
theorem agrees_iff_portable {resources : List (String × ResourceValue)}
    {timeout : Option Duration} {n : NormalizedResources} {directives : List SlurmDirective}
    (hnormalized : normalizeResources resources = .ok n)
    (hmapped : mapResources resources timeout = .ok directives) :
    Agrees resources timeout n directives ↔ Portable resources timeout := by
  have hmemory := requests_memory_iff hnormalized hmapped
  have hcpus := requests_cpus_iff hnormalized hmapped
  have hgpus := requests_gpus_iff hnormalized hmapped
  have htime := derived_time_iff hmapped
  constructor
  · intro h
    obtain ⟨hgiga, hmega, hunit⟩ := hmemory.mp h.memory
    obtain ⟨hcounts, htask⟩ := hcpus.mp h.cpus
    refine ⟨hgiga, hmega, hunit, ?_, htask, htime.mp h.time⟩
    rintro r hr (hkey | hkey | hkey)
    · exact hcounts r hr (.inl hkey)
    · exact hcounts r hr (.inr hkey)
    · exact hgpus.mp h.gpus r hr hkey
  · intro h
    have hcounts : ∀ r ∈ resources, r.1 = "cpu" ∨ r.1 = "cpus" →
        isNumeral r.2.display.toList = true := by
      rintro r hr (hkey | hkey)
      · exact h.counts r hr (.inl hkey)
      · exact h.counts r hr (.inr (.inl hkey))
    constructor
    · exact hmemory.mpr ⟨h.gigabytes, h.megabytes, h.memory⟩
    · exact hcpus.mpr ⟨hcounts, h.perTask⟩
    · exact hgpus.mpr fun r hr hkey => h.counts r hr (.inr (.inr hkey))
    · exact htime.mpr h.time

/-- A job with four CPUs, eight gigabytes and an hour is requested as normalized. -/
theorem agrees_iff_portable_hour :
    ∃ n directives,
      normalizeResources [("cpu", .int 4), ("mem", .str "8G")] = .ok n ∧
      mapResources [("cpu", .int 4), ("mem", .str "8G")]
        (some ⟨3600, 0, by decide, by decide⟩) = .ok directives ∧
      directives = [⟨"--cpus-per-task", "4"⟩, ⟨"--mem", "8G"⟩, ⟨"--time", "01:06:00"⟩] ∧
      Agrees [("cpu", .int 4), ("mem", .str "8G")]
        (some ⟨3600, 0, by decide, by decide⟩) n directives := by
  refine ⟨⟨some 40000, none, some 8589934592, []⟩, _, rfl, rfl, by decide, ?_⟩
  apply (agrees_iff_portable rfl rfl).mpr
  constructor
  · decide
  · decide
  · decide
  · decide
  · decide
  · intro _ t ht
    cases ht
    decide

/-- Eight gigabytes declared by the key are normalized to their bytes, and no
directive requests them. -/
theorem not_agrees_gigabytes :
    normalizeResources [("mem_gb", .int 8)] = .ok ⟨none, none, some 8589934592, []⟩ ∧
      mapResources [("mem_gb", .int 8)] none = .ok [] ∧
      ¬ Agrees [("mem_gb", .int 8)] none ⟨none, none, some 8589934592, []⟩ [] := by
  refine ⟨rfl, rfl, ?_⟩
  intro h
  obtain ⟨d, hd, -⟩ := h.memory.2 8589934592 rfl
  exact not_mem_nil hd

end OxyMake.SlurmAgreement
