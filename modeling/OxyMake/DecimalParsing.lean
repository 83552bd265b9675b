import OxyMake.ResourceNormalization
import OxyMake.DecimalNumerals
import Mathlib.Data.Nat.Cast.Field
import Mathlib.Tactic.FieldSimp
import Mathlib.Tactic.NormNum
import Mathlib.Tactic.Positivity

/-!
# What the checked parser makes of a decimal

The parser strips white space and a sign, cuts the text at the exponent and
reads digits with checked arithmetic. A text is accepted only when it spells a
decimal that is not negative, and then as the coefficient and the places of that
spelling; of the spellings it rejects those whose parts overflow.
-/

namespace OxyMake.DecimalParsing

open List
open ResourceNormalization DecimalText DecimalNumerals

theorem digitValue_of_isDigit {c : Char} (h : c.isDigit = true) :
    digitValue c = some (c.toNat - '0'.toNat) := by
  rw [Char.isDigit, Bool.and_eq_true, decide_eq_true_eq, decide_eq_true_eq] at h
  rw [digitValue, if_pos]
  exact h

theorem digitValue_of_not_isDigit {c : Char} (h : c.isDigit = false) : digitValue c = none := by
  rw [digitValue, if_neg]
  intro hand
  have hdigit : c.isDigit = true := by
    rw [Char.isDigit, Bool.and_eq_true, decide_eq_true_eq, decide_eq_true_eq]
    exact hand
  rw [hdigit] at h
  cases h

theorem toNat_of_isDigit {c : Char} (h : c.isDigit = true) : 48 ≤ c.toNat ∧ c.toNat ≤ 57 := by
  rw [Char.isDigit, Bool.and_eq_true, decide_eq_true_eq, decide_eq_true_eq] at h
  exact ⟨UInt32.le_iff_toNat_le.mp h.1, UInt32.le_iff_toNat_le.mp h.2⟩

theorem isWhitespace_of_isDigit {c : Char} (h : c.isDigit = true) : isWhitespace c = false := by
  have hbounds := toNat_of_isDigit h
  unfold isWhitespace
  simp only [Bool.or_eq_false_iff, Bool.and_eq_false_iff, decide_eq_false_iff_not]
  omega

theorem ne_of_isDigit {c d : Char} (hc : c.isDigit = true) (hd : d.isDigit = false) : c ≠ d := by
  intro heq
  rw [heq, hd] at hc
  cases hc

theorem mulU128_eq_ok {a b c : ℕ} (h : mulU128 a b = .ok c) : c = a * b := by
  rw [mulU128] at h
  split_ifs at h with hlt
  exact (Except.ok.inj h).symm

theorem addU128_eq_ok {a b c : ℕ} (h : addU128 a b = .ok c) : c = a + b := by
  rw [addU128] at h
  split_ifs at h with hlt
  exact (Except.ok.inj h).symm

theorem toU64_eq_ok {a b : ℕ} (h : toU64 a = .ok b) : b = a := by
  rw [toU64] at h
  split_ifs at h with hlt
  exact (Except.ok.inj h).symm

theorem trim_eq_self {text : List Char} (h : ∀ c ∈ text, isWhitespace c = false) :
    trim text = text := by
  have hdrop : ∀ l : List Char, (∀ c ∈ l, isWhitespace c = false) →
      l.dropWhile isWhitespace = l := by
    intro l hl
    cases l with
    | nil => rfl
    | cons c =>
      rw [dropWhile_cons_of_neg]
      rw [hl c mem_cons_self]
      exact Bool.false_ne_true
  rw [trim, hdrop text h, hdrop, reverse_reverse]
  intro c hc
  exact h c (mem_reverse.mp hc)

theorem ok_bind {α β : Type} (a : α) (f : α → Except ResourceValueErrorKind β) :
    (Except.ok a >>= f) = f a := rfl

/-! ### Mantissas -/

theorem readMantissa_append (a b : List Char) (m : Mantissa) :
    readMantissa (a ++ b) m = readMantissa a m >>= readMantissa b := by
  induction a generalizing m with
  | nil => rfl
  | cons c rest ih =>
    rw [cons_append, readMantissa, readMantissa]
    by_cases hdot : c = '.' ∧ m.sawDot = false
    · rw [if_pos hdot, if_pos hdot]
      exact ih _
    · rw [if_neg hdot, if_neg hdot]
      cases digitValue c with
      | none => rfl
      | some =>
        dsimp only
        rw [bind_assoc]
        congr 1
        funext scaled
        rw [bind_assoc]
        congr 1
        funext coefficient
        exact ih _

def Mantissa.read (m : Mantissa) (text : List Char) : Mantissa :=
  { m with
    coefficient := Nat.ofDigitChars 10 text m.coefficient
    digits := m.digits + text.length
    fractionalDigits := m.fractionalDigits + if m.sawDot then text.length else 0 }

theorem readMantissa_digits {text : List Char} (hdigits : ∀ c ∈ text, c.isDigit = true)
    (m : Mantissa) (hm : m.coefficient < 2 ^ 128) :
    readMantissa text m =
      if Nat.ofDigitChars 10 text m.coefficient < 2 ^ 128 then .ok (Mantissa.read m text)
      else .error .overflow := by
  induction text generalizing m with
  | nil =>
    rw [Nat.ofDigitChars_nil, if_pos hm, Mantissa.read, length_nil, ite_self]
    rfl
  | cons c rest ih =>
    have hc := hdigits c mem_cons_self
    have hpoint : c ≠ '.' := ne_of_isDigit hc rfl
    have hrest := fun d hd => hdigits d (.tail c hd)
    have hmono := le_ofDigitChars rest (m.coefficient * 10 + (c.toNat - '0'.toNat))
    have hover : ¬ m.coefficient * 10 + (c.toNat - '0'.toNat) < 2 ^ 128 →
        ¬ Nat.ofDigitChars 10 rest (m.coefficient * 10 + (c.toNat - '0'.toNat)) < 2 ^ 128 := by
      intro hadd hlt
      exact hadd (lt_of_le_of_lt hmono hlt)
    have hread : Mantissa.read m (c :: rest) = Mantissa.read
        { m with
          coefficient := m.coefficient * 10 + (c.toNat - '0'.toNat)
          digits := m.digits + 1
          fractionalDigits :=
            if m.sawDot then m.fractionalDigits + 1 else m.fractionalDigits } rest := by
      rw [Mantissa.read, Mantissa.read, Nat.ofDigitChars_cons, length_cons,
        Nat.mul_comm 10 m.coefficient]
      congr 1
      · dsimp only
        omega
      · dsimp only
        cases m.sawDot with
        | false => rfl
        | true =>
          rw [if_pos rfl, if_pos rfl, if_pos rfl]
          omega
    rw [readMantissa, if_neg (fun hand => hpoint hand.1), digitValue_of_isDigit hc,
      Nat.ofDigitChars_cons, Nat.mul_comm 10 m.coefficient, hread]
    dsimp only
    rw [mulU128]
    by_cases hmul : m.coefficient * 10 < 2 ^ 128
    · rw [if_pos hmul]
      dsimp only [bind, Except.bind]
      rw [addU128]
      by_cases hadd : m.coefficient * 10 + (c.toNat - '0'.toNat) < 2 ^ 128
      · rw [if_pos hadd]
        exact ih hrest _ hadd
      · rw [if_neg hadd, if_neg (hover hadd)]
    · rw [if_neg hmul, if_neg (hover (by omega))]
      rfl

theorem readMantissa_mantissa (n : Numeral) :
    readMantissa n.mantissa ⟨0, 0, 0, false⟩ =
      if n.coefficient < 2 ^ 128 then
        .ok ⟨n.coefficient, n.digits.length, n.places, n.fraction.isSome⟩
      else .error .overflow := by
  have hwhole := readMantissa_digits n.isDigit_whole ⟨0, 0, 0, false⟩ (by norm_num)
  rw [Numeral.mantissa, Numeral.coefficient, Numeral.digits, Numeral.places, numeralValue]
  cases hfraction : n.fraction with
  | none =>
    rw [Option.elim_none, Option.getD_none, append_nil, hwhole]
    dsimp only [Mantissa.read]
    rw [Nat.zero_add]
    rfl
  | some f =>
    rw [Option.elim_some, Option.getD_some, readMantissa_append, hwhole,
      Nat.ofDigitChars_append, length_append]
    dsimp only
    by_cases hfits : Nat.ofDigitChars 10 n.whole 0 < 2 ^ 128
    · rw [if_pos hfits]
      dsimp only [bind, Except.bind]
      rw [readMantissa, if_pos ⟨rfl, rfl⟩,
        readMantissa_digits (n.isDigit_fraction hfraction) _ (by exact hfits)]
      dsimp only [Mantissa.read]
      rw [Nat.zero_add, Nat.zero_add, if_neg Bool.false_ne_true, if_pos rfl, Nat.zero_add]
      rfl
    · have hmono := le_ofDigitChars f (Nat.ofDigitChars 10 n.whole 0)
      rw [if_neg hfits, if_neg (by omega)]
      rfl

theorem digits_of_readMantissa {text : List Char} {m m' : Mantissa}
    (h : readMantissa text m = .ok m') :
    (∀ c ∈ text, c.isDigit = true) ∨
      ∃ whole fraction, m.sawDot = false ∧ text = whole ++ '.' :: fraction ∧
        (∀ c ∈ whole, c.isDigit = true) ∧ ∀ c ∈ fraction, c.isDigit = true := by
  induction text generalizing m with
  | nil => exact Or.inl fun c hc => absurd hc not_mem_nil
  | cons c rest ih =>
    rw [readMantissa] at h
    by_cases hdot : c = '.' ∧ m.sawDot = false
    · rw [if_pos hdot] at h
      rcases ih h with hdigits | ⟨whole, fraction, hsaw, -⟩
      · refine Or.inr ⟨[], rest, hdot.2, ?_, ?_, hdigits⟩
        · rw [hdot.1, nil_append]
        · intro d hd
          exact absurd hd not_mem_nil
      · cases hsaw
    · rw [if_neg hdot] at h
      have hc : c.isDigit = true := by
        by_contra hno
        rw [digitValue_of_not_isDigit (Bool.eq_false_of_not_eq_true hno)] at h
        cases h
      rw [digitValue_of_isDigit hc] at h
      obtain ⟨_, -, h⟩ := bind_eq_ok h
      obtain ⟨_, -, h⟩ := bind_eq_ok h
      rcases ih h with hdigits | ⟨whole, fraction, hsaw, htext, hwhole, hfraction⟩
      · left
        intro d hd
        rcases mem_cons.mp hd with rfl | hd
        · exact hc
        · exact hdigits d hd
      · refine Or.inr ⟨c :: whole, fraction, hsaw, ?_, ?_, hfraction⟩
        · rw [htext, cons_append]
        · intro d hd
          rcases mem_cons.mp hd with rfl | hd
          · exact hc
          · exact hwhole d hd

/-! ### Exponents -/

theorem toI32_eq_ok {a b : ℤ} (h : toI32 a = .ok b) : b = a := by
  rw [toI32] at h
  split_ifs at h
  exact (Except.ok.inj h).symm

theorem exists_bound (sign : Sign) :
    ∃ bound : ℕ, ∀ x : ℕ, toI32 (sign.factor * x) =
      if x ≤ bound then .ok (sign.factor * x) else .error .overflow := by
  have hplus : ∀ x : ℕ, toI32 (1 * (x : ℤ)) =
      if x ≤ 2 ^ 31 - 1 then .ok (1 * (x : ℤ)) else .error .overflow := by
    intro x
    have hiff : (-(2 ^ 31) ≤ 1 * (x : ℤ) ∧ 1 * (x : ℤ) < 2 ^ 31) ↔ x ≤ 2 ^ 31 - 1 := by omega
    rw [toI32]
    exact if_congr hiff rfl rfl
  cases sign with
  | none | plus => exact ⟨2 ^ 31 - 1, hplus⟩
  | minus =>
    refine ⟨2 ^ 31, ?_⟩
    intro x
    have hiff : (-(2 ^ 31) ≤ -1 * (x : ℤ) ∧ -1 * (x : ℤ) < 2 ^ 31) ↔ x ≤ 2 ^ 31 := by omega
    rw [toI32]
    exact if_congr hiff rfl rfl

theorem parseI32Digits_digits {factor : ℤ} {bound : ℕ}
    (hbound : ∀ x : ℕ, toI32 (factor * x) =
      if x ≤ bound then .ok (factor * x) else .error .overflow)
    {text : List Char} (hdigits : ∀ c ∈ text, c.isDigit = true) {k : ℕ} (hk : k ≤ bound) :
    parseI32Digits factor text (factor * k) = toI32 (factor * Nat.ofDigitChars 10 text k) := by
  induction text generalizing k with
  | nil =>
    rw [Nat.ofDigitChars_nil, hbound, if_pos hk]
    rfl
  | cons c rest ih =>
    have hc := hdigits c mem_cons_self
    have hrest := fun d hd => hdigits d (.tail c hd)
    have hscaled : factor * k * 10 = factor * ((10 * k : ℕ) : ℤ) := by
      push_cast
      ring
    have hnext : factor * ((10 * k : ℕ) : ℤ) + factor * ((c.toNat - '0'.toNat : ℕ) : ℤ) =
        factor * ((10 * k + (c.toNat - '0'.toNat) : ℕ) : ℤ) := by
      rw [Nat.cast_add]
      ring
    have hmono := le_ofDigitChars rest (10 * k + (c.toNat - '0'.toNat))
    rw [parseI32Digits, digitValue_of_isDigit hc, Nat.ofDigitChars_cons, hbound]
    dsimp only
    rw [hscaled, hbound]
    by_cases hmul : 10 * k ≤ bound
    · rw [if_pos hmul]
      dsimp only [bind, Except.bind]
      rw [hnext, hbound]
      by_cases hadd : 10 * k + (c.toNat - '0'.toNat) ≤ bound
      · rw [if_pos hadd, ← hbound]
        exact ih hrest hadd
      · rw [if_neg hadd, if_neg (fun hle => hadd (le_trans hmono hle))]
    · rw [if_neg hmul, if_neg]
      · rfl
      · omega

theorem digits_of_parseI32Digits {factor : ℤ} {text : List Char} {k v : ℤ}
    (h : parseI32Digits factor text k = .ok v) : ∀ c ∈ text, c.isDigit = true := by
  induction text generalizing k with
  | nil =>
    intro c hc
    exact absurd hc not_mem_nil
  | cons c rest ih =>
    rw [parseI32Digits] at h
    have hc : c.isDigit = true := by
      by_contra hno
      rw [digitValue_of_not_isDigit (Bool.eq_false_of_not_eq_true hno)] at h
      cases h
    rw [digitValue_of_isDigit hc] at h
    obtain ⟨_, -, h⟩ := bind_eq_ok h
    obtain ⟨_, -, h⟩ := bind_eq_ok h
    intro d hd
    rcases mem_cons.mp hd with rfl | hd
    · exact hc
    · exact ih h d hd

theorem parseI32_part (e : Exponent) : parseI32 e.part = toI32 e.power := by
  obtain ⟨bound, hbound⟩ := exists_bound e.sign
  have hdigits := isDigit_of_isNumeral e.isNumeral_digits
  obtain ⟨c, _, htext⟩ := exists_cons_of_ne_nil (ne_nil_of_isNumeral e.isNumeral_digits)
  have hparse := parseI32Digits_digits hbound hdigits (Nat.zero_le bound)
  rw [Nat.cast_zero, mul_zero] at hparse
  rw [Exponent.power, numeralValue, ← hparse, Exponent.part, htext]
  have hc := hdigits c (by rw [htext]; exact mem_cons_self)
  cases e.sign with
  | none =>
    have hminus : c ≠ '-' := ne_of_isDigit hc rfl
    have hplus : c ≠ '+' := ne_of_isDigit hc rfl
    unfold parseI32
    split
    · rename_i heq
      exact absurd (List.cons.inj heq).1 hminus
    · rename_i heq
      exact absurd (List.cons.inj heq).1 hplus
    · rename_i heq
      cases heq
    · rename_i heq
      cases heq
      rfl
  | plus | minus => rfl

theorem exists_exponent {part : List Char} {v : ℤ} (h : parseI32 part = .ok v) {mark : Char}
    (hmark : mark = 'e' ∨ mark = 'E') : ∃ e : Exponent, e.mark = mark ∧ e.part = part := by
  unfold parseI32 at h
  split at h
  · exact ⟨⟨mark, .minus, _, hmark,
      isNumeral_of_digits (cons_ne_nil _ _) (digits_of_parseI32Digits h)⟩, rfl, rfl⟩
  · exact ⟨⟨mark, .plus, _, hmark,
      isNumeral_of_digits (cons_ne_nil _ _) (digits_of_parseI32Digits h)⟩, rfl, rfl⟩
  · cases h
  · exact ⟨⟨mark, .none, _, hmark,
      isNumeral_of_digits (cons_ne_nil _ _) (digits_of_parseI32Digits h)⟩, rfl, rfl⟩

/-! ### Spellings -/

def Blank (text : List Char) : Prop := ∀ c ∈ text, isWhitespace c = true

/-- Spelling of a decimal: a numeral with a sign between white space. -/
structure Spelling where
  before : List Char
  sign : Sign
  numeral : Numeral
  after : List Char
  blank_before : Blank before
  blank_after : Blank after

def Spelling.core (s : Spelling) : List Char := s.sign.text ++ s.numeral.text

def Spelling.text (s : Spelling) : List Char := s.before ++ (s.core ++ s.after)

def Spelling.value (s : Spelling) : ℚ := s.sign.factor * s.numeral.value

theorem dropWhile_append_cons {p : Char → Bool} {before : List Char} {c : Char}
    {rest : List Char} (hbefore : ∀ d ∈ before, p d = true) (hc : p c = false) :
    (before ++ c :: rest).dropWhile p = c :: rest := by
  induction before with
  | nil =>
    rw [nil_append, dropWhile_cons_of_neg]
    rw [hc]
    exact Bool.false_ne_true
  | cons d before ih =>
    rw [cons_append, dropWhile_cons_of_pos (hbefore d mem_cons_self)]
    exact ih fun e he => hbefore e (.tail d he)

theorem trim_pad {before core after : List Char} (hbefore : Blank before) (hafter : Blank after)
    (hhead : ∃ c rest, core = c :: rest ∧ isWhitespace c = false)
    (hlast : ∃ init c, core = init ++ [c] ∧ isWhitespace c = false) :
    trim (before ++ (core ++ after)) = core := by
  obtain ⟨c, rest, hcore, hc⟩ := hhead
  obtain ⟨init, d, hcore', hd⟩ := hlast
  have hfront : (before ++ (core ++ after)).dropWhile isWhitespace = core ++ after := by
    rw [hcore, cons_append]
    exact dropWhile_append_cons hbefore hc
  have hback : (core ++ after).reverse.dropWhile isWhitespace = core.reverse := by
    rw [hcore', reverse_append, reverse_append, reverse_singleton]
    apply dropWhile_append_cons _ hd
    intro e he
    exact hafter e (mem_reverse.mp he)
  rw [trim, hfront, hback, reverse_reverse]

theorem exists_trim (text : List Char) :
    ∃ before after, Blank before ∧ Blank after ∧ text = before ++ (trim text ++ after) := by
  have hsplit : ∀ l : List Char, ∃ before, Blank before ∧
      l = before ++ l.dropWhile isWhitespace := by
    intro l
    refine ⟨l.takeWhile isWhitespace, ?_, takeWhile_append_dropWhile.symm⟩
    intro c hc
    exact all_eq_true.mp all_takeWhile c hc
  obtain ⟨before, hbefore, htext⟩ := hsplit text
  obtain ⟨after, hafter, hrest⟩ := hsplit (text.dropWhile isWhitespace).reverse
  refine ⟨before, after.reverse, hbefore, ?_, ?_⟩
  · intro c hc
    exact hafter c (mem_reverse.mp hc)
  · have hrest' := congrArg List.reverse hrest
    rw [reverse_reverse, reverse_append] at hrest'
    rw [trim, ← hrest']
    exact htext

theorem mem_mantissa (n : Numeral) {c : Char} (hc : c ∈ n.mantissa) :
    c.isDigit = true ∨ c = '.' := by
  rw [Numeral.mantissa] at hc
  rcases mem_append.mp hc with hc | hc
  · exact Or.inl (n.isDigit_whole c hc)
  · cases hfraction : n.fraction with
    | none =>
      rw [hfraction] at hc
      cases hc
    | some =>
      rw [hfraction] at hc
      rcases mem_cons.mp hc with rfl | hc
      · exact Or.inr rfl
      · exact Or.inl (n.isDigit_fraction hfraction c hc)

theorem mem_part (e : Exponent) {c : Char} (hc : c ∈ e.part) :
    c.isDigit = true ∨ c = '+' ∨ c = '-' := by
  rcases mem_append.mp hc with hc | hc
  · right
    cases hsign : e.sign with
    | none =>
      rw [hsign] at hc
      cases hc
    | plus =>
      rw [hsign] at hc
      exact Or.inl (mem_singleton.mp hc)
    | minus =>
      rw [hsign] at hc
      exact Or.inr (mem_singleton.mp hc)
  · exact Or.inl (isDigit_of_isNumeral e.isNumeral_digits c hc)

theorem exists_head (n : Numeral) :
    ∃ c rest, n.text = c :: rest ∧ (c.isDigit = true ∨ c = '.') := by
  have hne : n.mantissa ≠ [] := by
    intro hnil
    apply ne_nil_of_isNumeral n.isNumeral_digits
    obtain ⟨hwhole, hfraction⟩ := append_eq_nil_iff.mp hnil
    rw [hwhole]
    cases hf : n.fraction with
    | none => rfl
    | some =>
      rw [hf] at hfraction
      cases hfraction
  obtain ⟨c, rest, hmantissa⟩ := exists_cons_of_ne_nil hne
  refine ⟨c, rest ++ n.exponent.elim [] fun e => e.mark :: e.part, ?_, ?_⟩
  · rw [Numeral.text, hmantissa, cons_append]
  · apply mem_mantissa n
    rw [hmantissa]
    exact mem_cons_self

theorem exists_last (n : Numeral) :
    ∃ init c, n.text = init ++ [c] ∧ (c.isDigit = true ∨ c = '.') := by
  cases hexponent : n.exponent with
  | none =>
    obtain ⟨c, rest, htext, -⟩ := exists_head n
    have hne : n.text ≠ [] := by
      rw [htext]
      exact cons_ne_nil c rest
    have hmantissa : n.text = n.mantissa := by
      rw [Numeral.text, hexponent]
      exact append_nil _
    refine ⟨n.text.dropLast, n.text.getLast hne, (dropLast_append_getLast hne).symm, ?_⟩
    apply mem_mantissa n
    rw [← hmantissa]
    exact getLast_mem hne
  | some e =>
    have hne := ne_nil_of_isNumeral e.isNumeral_digits
    refine ⟨n.mantissa ++ e.mark :: (e.sign.text ++ e.digits.dropLast), e.digits.getLast hne,
      ?_, ?_⟩
    · rw [Numeral.text, hexponent, Option.elim_some, Exponent.part, append_assoc,
        cons_append, append_assoc, dropLast_append_getLast]
    · exact Or.inl (isDigit_of_isNumeral e.isNumeral_digits _ (getLast_mem hne))

def isMark (c : Char) : Bool := c = 'e' ∨ c = 'E'

theorem splitOnP_text (n : Numeral) :
    n.text.splitOnP isMark = n.mantissa :: n.exponent.toList.map Exponent.part := by
  have hplain : ∀ {c : Char}, (c.isDigit = true ∨ c = '.' ∨ c = '+' ∨ c = '-') →
      isMark c = false := by
    rintro c (hc | rfl | rfl | rfl)
    · rw [isMark, decide_eq_false_iff_not]
      rintro (rfl | rfl)
      · cases hc
      · cases hc
    all_goals rfl
  have hmantissa : ∀ c ∈ n.mantissa, isMark c = false := by
    intro c hc
    rcases mem_mantissa n hc with hc | hc
    · exact hplain (Or.inl hc)
    · exact hplain (Or.inr (Or.inl hc))
  rw [Numeral.text]
  cases n.exponent with
  | none =>
    rw [Option.elim_none, append_nil]
    exact splitOnP_eq_singleton hmantissa
  | some e =>
    have hmark : isMark e.mark = true := by
      rw [isMark, decide_eq_true_eq]
      exact e.mark_eq
    rw [Option.elim_some, splitOnP_append_cons_of_forall_mem hmantissa _ hmark,
      splitOnP_eq_singleton]
    · rfl
    · intro c hc
      rcases mem_part e hc with hc | hc
      · exact hplain (Or.inl hc)
      · exact hplain (Or.inr (Or.inr hc))

/-- What the parts of a numeral give under checked arithmetic. -/
def checkedDecimal (n : Numeral) : Except ResourceValueErrorKind Decimal := do
  let exponent ← toI32 n.power
  if n.coefficient < 2 ^ 128 then
    let places ← toI32 n.places
    let scale ← toI32 (places - exponent)
    .ok ⟨n.coefficient, scale⟩
  else .error .overflow

theorem parseDecimal_of_trim {text : List Char} (n : Numeral)
    (hempty : (trim text).isEmpty = false) (hminus : (trim text).head? ≠ some '-')
    (hcore : (if (trim text).head? = some '+' then (trim text).tail else trim text) = n.text) :
    parseDecimal text = checkedDecimal n := by
  have hsplit := splitOnP_text n
  have hread := readMantissa_mantissa n
  have hdigits : n.digits.length ≠ 0 := by
    intro hlength
    exact ne_nil_of_isNumeral n.isNumeral_digits (length_eq_zero_iff.mp hlength)
  have hrest : ∀ exponent : ℤ, (do
      let m ← readMantissa n.mantissa ⟨0, 0, 0, false⟩
      if m.digits = 0 then .error .malformed
      else
        let fractionalDigits ← toI32 m.fractionalDigits
        let scale ← toI32 (fractionalDigits - exponent)
        .ok (⟨m.coefficient, scale⟩ : Decimal)) =
      if n.coefficient < 2 ^ 128 then do
        let places ← toI32 n.places
        let scale ← toI32 (places - exponent)
        .ok ⟨n.coefficient, scale⟩
      else .error .overflow := by
    intro exponent
    rw [hread]
    by_cases hfits : n.coefficient < 2 ^ 128
    · rw [if_pos hfits, if_pos hfits, ok_bind, if_neg (by exact hdigits)]
    · rw [if_neg hfits, if_neg hfits]
      rfl
  have hmark : (fun c => decide (c = 'e' ∨ c = 'E')) = isMark := rfl
  rw [parseDecimal]
  dsimp only
  rw [hempty, if_neg Bool.false_ne_true, if_neg hminus, hcore, hmark, hsplit, checkedDecimal,
    Numeral.power]
  cases n.exponent with
  | none =>
    have hzero : toI32 0 = .ok 0 := by
      rw [toI32, if_pos (by norm_num)]
    have hsecond : (n.mantissa :: none.toList.map Exponent.part)[1]? = none := rfl
    have hthird : (n.mantissa :: none.toList.map Exponent.part)[2]? = none := rfl
    rw [Option.elim_none, hzero, hsecond, hthird, headD_cons]
    dsimp only [Option.isSome_none]
    congr 1
    funext exponent
    rw [if_neg Bool.false_ne_true, hrest]
  | some e =>
    have hsecond : (n.mantissa :: (some e).toList.map Exponent.part)[1]? = some e.part := rfl
    have hthird : (n.mantissa :: (some e).toList.map Exponent.part)[2]? = none := rfl
    rw [Option.elim_some, ← parseI32_part, hsecond, hthird, headD_cons]
    dsimp only [Option.isSome_none]
    congr 1
    funext exponent
    rw [if_neg Bool.false_ne_true, hrest]

theorem trim_text (s : Spelling) : trim s.text = s.core := by
  have hchar : ∀ {c : Char}, (c.isDigit = true ∨ c = '.') → isWhitespace c = false := by
    rintro c (hc | rfl)
    · exact isWhitespace_of_isDigit hc
    · rfl
  obtain ⟨c, rest, htext, hc⟩ := exists_head s.numeral
  obtain ⟨init, d, htext', hd⟩ := exists_last s.numeral
  apply trim_pad s.blank_before s.blank_after
  · rw [Spelling.core, htext]
    cases s.sign with
    | none => exact ⟨c, rest, rfl, hchar hc⟩
    | plus => exact ⟨'+', c :: rest, rfl, rfl⟩
    | minus => exact ⟨'-', c :: rest, rfl, rfl⟩
  · refine ⟨s.sign.text ++ init, d, ?_, hchar hd⟩
    rw [Spelling.core, htext', append_assoc]

theorem parseDecimal_text (s : Spelling) :
    parseDecimal s.text =
      if s.sign = .minus then .error .negative else checkedDecimal s.numeral := by
  obtain ⟨c, _, htext, hc⟩ := exists_head s.numeral
  have hne : ∀ d : Char, d.isDigit = false → d ≠ '.' → (s.numeral.text).head? ≠ some d := by
    intro d hdigit hpoint heq
    rw [htext, List.head?_cons] at heq
    cases heq
    rcases hc with hc | hc
    · rw [hc] at hdigit
      cases hdigit
    · exact hpoint hc
  have htrim := trim_text s
  rw [Spelling.core] at htrim
  cases hsign : s.sign with
  | none =>
    rw [hsign, Sign.text, nil_append] at htrim
    rw [if_neg (by decide)]
    apply parseDecimal_of_trim
    · rw [htrim, htext]
      rfl
    · rw [htrim]
      exact hne '-' rfl (by decide)
    · rw [htrim, if_neg (hne '+' rfl (by decide))]
  | plus =>
    rw [hsign] at htrim
    rw [if_neg (by decide)]
    apply parseDecimal_of_trim
    · rw [htrim]
      rfl
    · rw [htrim]
      intro heq
      exact absurd (Option.some.inj heq) (by decide)
    · rw [htrim]
      rfl
  | minus =>
    rw [hsign] at htrim
    rw [if_pos rfl, parseDecimal, htrim]
    rfl

theorem exists_mark (text : List Char) :
    (∀ c ∈ text, isMark c = false) ∨ ∃ front mark back, text = front ++ mark :: back ∧
      isMark mark = true ∧ ∀ c ∈ front, isMark c = false := by
  induction text with
  | nil => exact Or.inl fun c hc => absurd hc not_mem_nil
  | cons c rest ih =>
    cases hc : isMark c with
    | true =>
      refine Or.inr ⟨[], c, rest, rfl, hc, ?_⟩
      intro d hd
      exact absurd hd not_mem_nil
    | false =>
      rcases ih with hplain | ⟨front, mark, back, htext, hmark, hfront⟩
      · left
        intro d hd
        rcases mem_cons.mp hd with rfl | hd
        · exact hc
        · exact hplain d hd
      · refine Or.inr ⟨c :: front, mark, back, by rw [htext, cons_append], hmark, ?_⟩
        intro d hd
        rcases mem_cons.mp hd with rfl | hd
        · exact hc
        · exact hfront d hd

theorem exists_mantissa {text : List Char} {m : Mantissa}
    (h : readMantissa text ⟨0, 0, 0, false⟩ = .ok m) (hdigits : m.digits ≠ 0)
    (exponent : Option Exponent) :
    ∃ n : Numeral, n.mantissa = text ∧ n.exponent = exponent := by
  rcases digits_of_readMantissa h with hall | ⟨whole, fraction, -, htext, hwhole, hfraction⟩
  · have hne : text ≠ [] := by
      rintro rfl
      cases h
      exact hdigits rfl
    refine ⟨⟨text, none, exponent, ?_⟩, ?_, rfl⟩
    · rw [Option.getD_none, append_nil]
      exact isNumeral_of_digits hne hall
    · exact append_nil text
  · have hne : whole ++ fraction ≠ [] := by
      intro hnil
      obtain ⟨rfl, rfl⟩ := append_eq_nil_iff.mp hnil
      subst htext
      cases h
      exact hdigits rfl
    refine ⟨⟨whole, some fraction, exponent, ?_⟩, htext.symm, rfl⟩
    apply isNumeral_of_digits hne
    intro c hc
    rcases mem_append.mp hc with hc | hc
    · exact hwhole c hc
    · exact hfraction c hc

theorem read_of_parts {parts : List (List Char)} {exponent : ℤ} {d : Decimal}
    (h : (if parts[2]?.isSome then .error .malformed
      else do
        let m ← readMantissa (parts.headD []) ⟨0, 0, 0, false⟩
        if m.digits = 0 then .error .malformed
        else
          let fractionalDigits ← toI32 m.fractionalDigits
          let scale ← toI32 (fractionalDigits - exponent)
          .ok (⟨m.coefficient, scale⟩ : Decimal)) = .ok d) :
    parts[2]? = none ∧ ∃ m, readMantissa (parts.headD []) ⟨0, 0, 0, false⟩ = .ok m ∧
      m.digits ≠ 0 := by
  by_cases hthird : parts[2]?.isSome = true
  · rw [if_pos hthird] at h
    cases h
  · rw [if_neg hthird] at h
    obtain ⟨m, hm, h⟩ := bind_eq_ok h
    refine ⟨Option.not_isSome_iff_eq_none.mp hthird, m, hm, ?_⟩
    intro hzero
    rw [if_pos hzero] at h
    cases h

theorem exists_spelling {text : List Char} {d : Decimal} (h : parseDecimal text = .ok d) :
    ∃ s : Spelling, s.text = text := by
  obtain ⟨before, after, hbefore, hafter, htext⟩ := exists_trim text
  have hmarkfun : (fun c => decide (c = 'e' ∨ c = 'E')) = isMark := rfl
  rw [parseDecimal] at h
  dsimp only at h
  rw [hmarkfun] at h
  by_cases hempty : (trim text).isEmpty = true
  · rw [if_pos hempty] at h
    cases h
  by_cases hminus : (trim text).head? = some '-'
  · rw [if_neg hempty, if_pos hminus] at h
    cases h
  rw [if_neg hempty, if_neg hminus] at h
  have hbody : ∃ (sign : Sign) (body : List Char), trim text = sign.text ++ body ∧
      (if (trim text).head? = some '+' then (trim text).tail else trim text) = body := by
    by_cases hplus : (trim text).head? = some '+'
    · obtain ⟨rest, hrest⟩ := List.head?_eq_some_iff.mp hplus
      refine ⟨.plus, rest, hrest, ?_⟩
      rw [if_pos hplus, hrest]
      rfl
    · exact ⟨.none, trim text, rfl, if_neg hplus⟩
  obtain ⟨sign, body, htrim, heq⟩ := hbody
  rw [heq] at h
  have hnumeral : ∃ n : Numeral, n.text = body := by
    rcases exists_mark body with hplain | ⟨front, mark, back, hfront, hmark, hplain⟩
    · rw [splitOnP_eq_singleton hplain] at h
      obtain ⟨exponent, -, h⟩ := bind_eq_ok (x := .ok (0 : ℤ)) h
      obtain ⟨-, m, hm, hdigits⟩ := read_of_parts h
      obtain ⟨n, hn, hexponent⟩ := exists_mantissa hm hdigits none
      refine ⟨n, ?_⟩
      rw [Numeral.text, hn, hexponent]
      exact append_nil body
    · rw [hfront, splitOnP_append_cons_of_forall_mem hplain _ hmark] at h
      rcases exists_mark back with hlast | ⟨middle, mark', rest, hback, hmark', hmiddle⟩
      · rw [splitOnP_eq_singleton hlast] at h
        obtain ⟨exponent, hexponent, h⟩ := bind_eq_ok (x := parseI32 back) h
        obtain ⟨-, m, hm, hdigits⟩ := read_of_parts h
        obtain ⟨e, hmarkeq, hpart⟩ := exists_exponent hexponent (of_decide_eq_true hmark)
        obtain ⟨n, hn, hsome⟩ := exists_mantissa hm hdigits (some e)
        refine ⟨n, ?_⟩
        rw [Numeral.text, hn, hsome, Option.elim_some, hmarkeq, hpart, hfront]
        rfl
      · rw [hback, splitOnP_append_cons_of_forall_mem hmiddle _ hmark'] at h
        obtain ⟨_, _, hthird⟩ := exists_cons_of_ne_nil
          (splitOnP_ne_nil isMark rest)
        rw [hthird] at h
        obtain ⟨exponent, -, h⟩ := bind_eq_ok (x := parseI32 middle) h
        obtain ⟨hnone, -⟩ := read_of_parts h
        cases hnone
  obtain ⟨n, hn⟩ := hnumeral
  refine ⟨⟨before, sign, n, after, hbefore, hafter⟩, ?_⟩
  rw [Spelling.text, Spelling.core]
  dsimp only
  rw [hn, ← htrim]
  exact htext.symm

theorem checkedDecimal_of_fits {n : Numeral} (hcoefficient : n.coefficient < 2 ^ 128)
    (hpower : -(2 ^ 31) ≤ n.power ∧ n.power < 2 ^ 31) (hplaces : n.places < 2 ^ 31)
    (hscale : -(2 ^ 31) ≤ n.places - n.power ∧ n.places - n.power < 2 ^ 31) :
    checkedDecimal n = .ok ⟨n.coefficient, n.places - n.power⟩ := by
  have hplaces' : -(2 ^ 31) ≤ (n.places : ℤ) ∧ (n.places : ℤ) < 2 ^ 31 := by omega
  have hnarrow : ∀ {v : ℤ}, -(2 ^ 31) ≤ v ∧ v < 2 ^ 31 → toI32 v = .ok v := by
    intro v hv
    rw [toI32, if_pos hv]
  rw [checkedDecimal, hnarrow hpower, ok_bind, if_pos hcoefficient, hnarrow hplaces', ok_bind,
    hnarrow hscale, ok_bind]

theorem checkedDecimal_eq_ok {n : Numeral} {d : Decimal} (h : checkedDecimal n = .ok d) :
    d = ⟨n.coefficient, n.places - n.power⟩ := by
  rw [checkedDecimal] at h
  obtain ⟨_, hexponent, h⟩ := bind_eq_ok h
  by_cases hfits : n.coefficient < 2 ^ 128
  · rw [if_pos hfits] at h
    obtain ⟨_, hplaces, h⟩ := bind_eq_ok h
    obtain ⟨_, hscale, h⟩ := bind_eq_ok h
    rw [← Except.ok.inj h, toI32_eq_ok hscale, toI32_eq_ok hplaces, toI32_eq_ok hexponent]
  · rw [if_neg hfits] at h
    cases h

/-! ### Scaling -/

def Decimal.value (d : Decimal) : ℚ := d.coefficient * 10 ^ (-d.scale)

theorem value_numeral (n : Numeral) :
    Decimal.value ⟨n.coefficient, n.places - n.power⟩ = n.value := by
  rw [Decimal.value, Numeral.value, neg_sub]

theorem value_of_parseDecimal {s : Spelling} {d : Decimal} (h : parseDecimal s.text = .ok d) :
    s.sign ≠ .minus ∧ Decimal.value d = s.value := by
  rw [parseDecimal_text] at h
  by_cases hsign : s.sign = .minus
  · rw [if_pos hsign] at h
    cases h
  · rw [if_neg hsign] at h
    refine ⟨hsign, ?_⟩
    have hfactor : s.sign.factor = 1 := by
      cases hs : s.sign with
      | none | plus => rfl
      | minus => exact absurd hs hsign
    rw [checkedDecimal_eq_ok h, value_numeral, Spelling.value, hfactor, Int.cast_one, one_mul]

theorem scaleDecimal_exact {d : Decimal} {multiplier v : ℕ} {e : ResourceValueErrorKind}
    (h : scaleDecimal d multiplier e = .ok v) : (v : ℚ) = Decimal.value d * multiplier := by
  rw [scaleDecimal] at h
  by_cases hzero : d.coefficient = 0
  · rw [if_pos hzero] at h
    rw [← Except.ok.inj h, Decimal.value, hzero]
    simp
  · rw [if_neg hzero] at h
    obtain ⟨value, hvalue, h⟩ := bind_eq_ok h
    have hproduct := mulU128_eq_ok hvalue
    by_cases hpos : 0 < d.scale
    · obtain ⟨k, hk⟩ := Int.eq_ofNat_of_zero_le hpos.le
      rw [if_pos hpos] at h
      obtain ⟨divisor, hdivisor, h⟩ := bind_eq_ok h
      rw [checkedPowerOfTen] at hdivisor
      split_ifs at hdivisor with hsmall
      split_ifs at h with hrest
      have hten := Except.ok.inj hdivisor
      rw [hk, Int.toNat_natCast] at hten
      have hdvd : divisor ∣ value := Nat.dvd_of_mod_eq_zero (not_not.mp hrest)
      have hne : (divisor : ℚ) ≠ 0 := by
        rw [← hten]
        positivity
      rw [← Except.ok.inj h, Nat.cast_div hdvd hne, hproduct, ← hten, Decimal.value, hk, zpow_neg,
        zpow_natCast]
      push_cast
      ring
    · rw [if_neg hpos] at h
      by_cases hneg : d.scale < 0
      · obtain ⟨k, hk⟩ := Int.eq_ofNat_of_zero_le (neg_nonneg.mpr hneg.le)
        rw [if_pos hneg] at h
        obtain ⟨_, hfactor, h⟩ := bind_eq_ok h
        rw [checkedPowerOfTen] at hfactor
        split_ifs at hfactor with hsmall
        have hten := Except.ok.inj hfactor
        have habs : d.scale.natAbs = k := by omega
        rw [habs] at hten
        rw [mulU128_eq_ok h, hproduct, ← hten, Decimal.value, hk, zpow_natCast]
        push_cast
        ring
      · have hscale : d.scale = 0 := by omega
        rw [if_neg hneg] at h
        rw [← Except.ok.inj h, hproduct, Decimal.value, hscale, neg_zero, zpow_zero, mul_one,
          Nat.cast_mul]

theorem scaleDecimal_of_exact {d : Decimal} {multiplier v : ℕ} {e : ResourceValueErrorKind}
    (hmultiplier : 0 < multiplier) (hcoefficient : d.coefficient * multiplier < 2 ^ 128)
    (hscale : d.scale ≤ 38) (hv : v < 2 ^ 64) (hexact : (v : ℚ) = Decimal.value d * multiplier) :
    scaleDecimal d multiplier e = .ok v := by
  rw [scaleDecimal]
  by_cases hzero : d.coefficient = 0
  · rw [Decimal.value, hzero, Nat.cast_zero, zero_mul, zero_mul] at hexact
    rw [if_pos hzero, Nat.cast_eq_zero.mp hexact]
  · have hproduct : 0 < d.coefficient * multiplier :=
      Nat.mul_pos (Nat.pos_of_ne_zero hzero) hmultiplier
    rw [if_neg hzero, mulU128, if_pos hcoefficient, ok_bind]
    by_cases hpos : 0 < d.scale
    · obtain ⟨k, hk⟩ := Int.eq_ofNat_of_zero_le hpos.le
      have hten : (10 : ℚ) ^ k ≠ 0 := by positivity
      have hall : d.coefficient * multiplier = v * 10 ^ k := by
        rw [Decimal.value, hk, zpow_neg, zpow_natCast] at hexact
        have hcast : ((d.coefficient * multiplier : ℕ) : ℚ) = ((v * 10 ^ k : ℕ) : ℚ) := by
          push_cast
          rw [hexact]
          field_simp
        exact Nat.cast_injective hcast
      rw [if_pos hpos, checkedPowerOfTen, hk, Int.toNat_natCast, if_pos (by omega), ok_bind, hall,
        Nat.mul_mod_left, if_neg (not_not.mpr rfl), Nat.mul_div_cancel v (by positivity)]
    · rw [if_neg hpos]
      by_cases hneg : d.scale < 0
      · obtain ⟨k, hk⟩ := Int.eq_ofNat_of_zero_le (neg_nonneg.mpr hneg.le)
        have habs : d.scale.natAbs = k := by omega
        have hall : d.coefficient * multiplier * 10 ^ k = v := by
          rw [Decimal.value, hk, zpow_natCast] at hexact
          have hcast : ((d.coefficient * multiplier * 10 ^ k : ℕ) : ℚ) = (v : ℚ) := by
            push_cast
            rw [hexact]
            ring
          exact Nat.cast_injective hcast
        have hle : 10 ^ k ≤ v := by
          rw [← hall]
          exact Nat.le_mul_of_pos_left _ hproduct
        have hk' : k < 20 := by
          have hlt : 10 ^ k < 10 ^ 20 := lt_of_le_of_lt hle (lt_trans hv (by norm_num))
          exact (Nat.pow_lt_pow_iff_right (by norm_num)).mp hlt
        rw [if_pos hneg, checkedPowerOfTen, habs, if_pos (by omega), ok_bind, mulU128, hall,
          if_pos (lt_trans hv (by norm_num))]
      · have hscale' : d.scale = 0 := by omega
        rw [Decimal.value, hscale', neg_zero, zpow_zero, mul_one] at hexact
        have hall : v = d.coefficient * multiplier := by
          exact_mod_cast hexact
        rw [if_neg hneg, hall]

end OxyMake.DecimalParsing
