import OxyMake.DecimalText
import Mathlib.Algebra.Order.Field.Rat
import Mathlib.Algebra.Order.Field.Power
import Mathlib.Tactic.Ring

/-!
# Spellings of decimals

A numeral has digits in front of the point, perhaps a point with digits behind
it, and perhaps an exponent with a sign of its own. Its value is the number its
digits spell, shifted by the exponent and back by the digits behind the point.
Many numerals have one value.
-/

namespace OxyMake.DecimalNumerals

open DecimalText

/-- A sign in front of digits. -/
inductive Sign
  | none
  | plus
  | minus
  deriving DecidableEq, Repr

def Sign.text : Sign → List Char
  | .none => []
  | .plus => ['+']
  | .minus => ['-']

def Sign.factor : Sign → ℤ
  | .none => 1
  | .plus => 1
  | .minus => -1

structure Exponent where
  mark : Char
  sign : Sign
  digits : List Char
  /-- The letter is an e in either case. -/
  mark_eq : mark = 'e' ∨ mark = 'E'
  /-- There is a digit, and nothing but digits. -/
  isNumeral_digits : isNumeral digits = true

def Exponent.part (e : Exponent) : List Char := e.sign.text ++ e.digits

def Exponent.power (e : Exponent) : ℤ := e.sign.factor * numeralValue e.digits

/-- Spelling of an unsigned decimal. -/
structure Numeral where
  whole : List Char
  /-- Digits behind the point, where there is a point. -/
  fraction : Option (List Char)
  exponent : Option Exponent
  /-- There is a digit, and nothing but digits. -/
  isNumeral_digits : isNumeral (whole ++ fraction.getD []) = true

namespace Numeral

def digits (n : Numeral) : List Char := n.whole ++ n.fraction.getD []

def mantissa (n : Numeral) : List Char := n.whole ++ n.fraction.elim [] ('.' :: ·)

def text (n : Numeral) : List Char :=
  n.mantissa ++ n.exponent.elim [] fun e => e.mark :: e.part

/-- The number that the digits spell without the point. -/
def coefficient (n : Numeral) : ℕ := numeralValue n.digits

def places (n : Numeral) : ℕ := (n.fraction.getD []).length

def power (n : Numeral) : ℤ := n.exponent.elim 0 Exponent.power

def value (n : Numeral) : ℚ := n.coefficient * 10 ^ (n.power - n.places)

theorem isDigit_whole (n : Numeral) : ∀ c ∈ n.whole, c.isDigit = true := by
  intro c hc
  exact isDigit_of_isNumeral n.isNumeral_digits c (List.mem_append_left _ hc)

theorem isDigit_fraction (n : Numeral) {f : List Char} (hf : n.fraction = some f) :
    ∀ c ∈ f, c.isDigit = true := by
  intro c hc
  apply isDigit_of_isNumeral n.isNumeral_digits c
  rw [hf]
  exact List.mem_append_right _ hc

theorem coefficient_lt (n : Numeral) : n.coefficient < 10 ^ n.digits.length :=
  numeralValue_lt (isDigit_of_isNumeral n.isNumeral_digits)

theorem places_le (n : Numeral) : n.places ≤ n.digits.length := by
  rw [places, digits, List.length_append]
  exact Nat.le_add_left _ _

end Numeral

theorem ofDigitChars_eq (text : List Char) (acc : ℕ) :
    Nat.ofDigitChars 10 text acc = acc * 10 ^ text.length + numeralValue text := by
  rw [numeralValue]
  induction text generalizing acc with
  | nil => rw [Nat.ofDigitChars_nil, Nat.ofDigitChars_nil, List.length_nil, pow_zero, mul_one,
      add_zero]
  | cons c rest ih =>
    rw [Nat.ofDigitChars_cons, Nat.ofDigitChars_cons, ih, ih (10 * 0 + (c.toNat - '0'.toNat)),
      List.length_cons, pow_succ]
    ring

theorem le_ofDigitChars (text : List Char) (acc : ℕ) : acc ≤ Nat.ofDigitChars 10 text acc := by
  rw [ofDigitChars_eq]
  have hpos : 0 < 10 ^ text.length := pow_pos (by norm_num) _
  have hle : acc ≤ acc * 10 ^ text.length := Nat.le_mul_of_pos_right acc hpos
  omega

end OxyMake.DecimalNumerals
