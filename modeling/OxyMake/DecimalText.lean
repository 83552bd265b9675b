import Mathlib.Algebra.Group.Nat.Defs
import Mathlib.Data.List.Induction

/-!
# Decimal numerals

A numeral is a nonempty list of ASCII digits. Writing a number and reading the
numeral back gives the number, also when zeroes are written in front of it.
-/

namespace OxyMake.DecimalText

def isNumeral (text : List Char) : Bool := !text.isEmpty && text.all Char.isDigit

def numeralValue (text : List Char) : ℕ := Nat.ofDigitChars 10 text 0

def readNumeral (text : List Char) : Option ℕ :=
  if isNumeral text then some (numeralValue text) else none

/-- Digits of a number, filled up with zeroes to a width. -/
def padded (width n : ℕ) : List Char :=
  List.replicate (width - (Nat.toDigits 10 n).length) '0' ++ Nat.toDigits 10 n

/-- The characters of a numeral are digits. -/
theorem isDigit_of_isNumeral {text : List Char} (h : isNumeral text = true) :
    ∀ c ∈ text, c.isDigit = true := by
  rw [isNumeral, Bool.and_eq_true] at h
  exact List.all_eq_true.mp h.2

/-- A numeral has a digit. -/
theorem ne_nil_of_isNumeral {text : List Char} (h : isNumeral text = true) : text ≠ [] := by
  intro hnil
  rw [hnil] at h
  cases h

/-- A nonempty list of digits is a numeral. -/
theorem isNumeral_of_digits {text : List Char} (hne : text ≠ [])
    (hdigits : ∀ c ∈ text, c.isDigit = true) : isNumeral text = true := by
  rw [isNumeral, List.all_eq_true.mpr hdigits, List.isEmpty_eq_false_iff.mpr hne]
  rfl

/-- A numeral is read as its value. -/
theorem readNumeral_of_isNumeral {text : List Char} (h : isNumeral text = true) :
    readNumeral text = some (numeralValue text) := by
  rw [readNumeral, if_pos h]

/-- Only a numeral is read, as its value. -/
theorem readNumeral_eq_some {text : List Char} {n : ℕ} (h : readNumeral text = some n) :
    isNumeral text = true ∧ numeralValue text = n := by
  rw [readNumeral] at h
  split_ifs at h with hnumeral
  exact ⟨hnumeral, Option.some.inj h⟩

/-- A numeral is smaller than the power of ten with its number of digits. -/
theorem numeralValue_lt {text : List Char} (h : ∀ c ∈ text, c.isDigit = true) :
    numeralValue text < 10 ^ text.length := by
  induction text using List.reverseRecOn with
  | nil => exact Nat.one_pos
  | append_singleton text c ih =>
    have hinit := ih fun d hd => h d (List.mem_append_left _ hd)
    have hdigit : c.toNat ≤ 57 := by
      have hc := h c List.mem_concat_self
      rw [Char.isDigit, Bool.and_eq_true, decide_eq_true_eq, decide_eq_true_eq] at hc
      exact UInt32.le_iff_toNat_le.mp hc.2
    have hlast : numeralValue (text ++ [c]) = 10 * numeralValue text + (c.toNat - 48) := by
      rw [numeralValue, Nat.ofDigitChars_append, Nat.ofDigitChars_cons, Nat.ofDigitChars_nil]
      rfl
    rw [hlast, List.length_append, List.length_singleton, Nat.pow_succ]
    omega

/-- The digits of a number are a numeral. -/
theorem isNumeral_toDigits (n : ℕ) : isNumeral (Nat.toDigits 10 n) = true := by
  apply isNumeral_of_digits Nat.toDigits_ne_nil
  intro c hc
  exact Nat.isDigit_of_mem_toDigits (by decide) (by decide) hc

/-- A padded number is a numeral. -/
theorem isNumeral_padded (width n : ℕ) : isNumeral (padded width n) = true := by
  have hdigits := isNumeral_toDigits n
  apply isNumeral_of_digits
  · exact List.append_ne_nil_of_right_ne_nil _ (ne_nil_of_isNumeral hdigits)
  · intro c hc
    rcases List.mem_append.mp hc with hc | hc
    · rw [List.eq_of_mem_replicate hc]
      rfl
    · exact isDigit_of_isNumeral hdigits c hc

theorem numeralValue_padded (width n : ℕ) : numeralValue (padded width n) = n := by
  rw [numeralValue, padded, Nat.ofDigitChars_append, Nat.ofDigitChars_replicate_zero, Nat.mul_zero]
  exact Nat.ofDigitChars_ten_toDigits

theorem readNumeral_padded (width n : ℕ) : readNumeral (padded width n) = some n := by
  rw [readNumeral_of_isNumeral (isNumeral_padded width n), numeralValue_padded]

end OxyMake.DecimalText
