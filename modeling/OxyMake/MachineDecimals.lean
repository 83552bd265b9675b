import OxyMake.DecimalParsing

/-!
# Decimals in machine arithmetic

The parser and the scaling again, over 128-bit and signed 32-bit words whose
operations wrap. A checked operation looks at the overflow flag; the casts and
the remainder are not checked. Read as numbers, the results are those of the
exact arithmetic, so no step loses a bit.
-/

namespace OxyMake.MachineDecimals

open ResourceNormalization DecimalParsing

/-! ### Checked operations -/

def mulU128 (a b : BitVec 128) : Except ResourceValueErrorKind (BitVec 128) :=
  if a.umulOverflow b then .error .overflow else .ok (a * b)

def addU128 (a b : BitVec 128) : Except ResourceValueErrorKind (BitVec 128) :=
  if a.uaddOverflow b then .error .overflow else .ok (a + b)

def mulI32 (a b : BitVec 32) : Except ResourceValueErrorKind (BitVec 32) :=
  if a.smulOverflow b then .error .overflow else .ok (a * b)

def addI32 (a b : BitVec 32) : Except ResourceValueErrorKind (BitVec 32) :=
  if a.saddOverflow b then .error .overflow else .ok (a + b)

def subI32 (a b : BitVec 32) : Except ResourceValueErrorKind (BitVec 32) :=
  if a.ssubOverflow b then .error .overflow else .ok (a - b)

def countToI32 (n : ℕ) : Except ResourceValueErrorKind (BitVec 32) :=
  if n < 2 ^ 31 then .ok (BitVec.ofNat 32 n) else .error .overflow

def checkedPowerOfTen (exponent : BitVec 32) : Except ResourceValueErrorKind (BitVec 128) :=
  if exponent.toNat ≤ 38 then .ok (BitVec.ofNat 128 (10 ^ exponent.toNat)) else .error .overflow

/-! ### Parsing and scaling -/

/-- A decimal in machine words. -/
structure MachineDecimal where
  coefficient : BitVec 128
  scale : BitVec 32

def MachineDecimal.exact (d : MachineDecimal) : Decimal := ⟨d.coefficient.toNat, d.scale.toInt⟩

/-- Add a digit to an `i32`, or subtract it. -/
def addDigit (negative : Bool) (value : BitVec 32) (digit : ℕ) :
    Except ResourceValueErrorKind (BitVec 32) :=
  if negative then subI32 value (BitVec.ofNat 32 digit) else addI32 value (BitVec.ofNat 32 digit)

/-- Digits of an `i32`, added or subtracted from the left. -/
def parseI32Digits (negative : Bool) :
    List Char → BitVec 32 → Except ResourceValueErrorKind (BitVec 32)
  | [], value => .ok value
  | c :: rest, value =>
    match digitValue c with
    | none => .error .malformed
    | some digit => do
      let scaled ← mulI32 value 10
      let next ← addDigit negative scaled digit
      parseI32Digits negative rest next

/-- Parse an `i32`: an optional sign and at least one digit. -/
def parseI32 (part : List Char) : Except ResourceValueErrorKind (BitVec 32) :=
  match part with
  | '-' :: c :: rest => parseI32Digits true (c :: rest) 0
  | '+' :: c :: rest => parseI32Digits false (c :: rest) 0
  | [] => .error .malformed
  | c :: rest => parseI32Digits false (c :: rest) 0

/-- Progress through the digits of a mantissa. -/
structure MachineMantissa where
  coefficient : BitVec 128
  digits : ℕ
  fractionalDigits : ℕ
  sawDot : Bool

def MachineMantissa.exact (m : MachineMantissa) : Mantissa :=
  ⟨m.coefficient.toNat, m.digits, m.fractionalDigits, m.sawDot⟩

def readMantissa : List Char → MachineMantissa → Except ResourceValueErrorKind MachineMantissa
  | [], m => .ok m
  | c :: rest, m =>
    if c = '.' ∧ m.sawDot = false then readMantissa rest { m with sawDot := true }
    else
      match digitValue c with
      | none => .error .malformed
      | some digit => do
        let scaled ← mulU128 m.coefficient 10
        let coefficient ← addU128 scaled (BitVec.ofNat 128 digit)
        readMantissa rest
          { m with
            coefficient := coefficient
            digits := m.digits + 1
            fractionalDigits := if m.sawDot then m.fractionalDigits + 1 else m.fractionalDigits }

def parseDecimal (input : List Char) : Except ResourceValueErrorKind MachineDecimal :=
  let input := trim input
  if input.isEmpty then .error .malformed
  else if input.head? = some '-' then .error .negative
  else do
    let input := if input.head? = some '+' then input.tail else input
    let parts := input.splitOnP fun c => c = 'e' ∨ c = 'E'
    let exponent ← match parts[1]? with
      | none => .ok 0
      | some part => parseI32 part
    if parts[2]?.isSome then .error .malformed
    else
      let m ← readMantissa (parts.headD []) ⟨0, 0, 0, false⟩
      if m.digits = 0 then .error .malformed
      else
        let fractionalDigits ← countToI32 m.fractionalDigits
        let scale ← subI32 fractionalDigits exponent
        .ok ⟨m.coefficient, scale⟩

def fromInt (value : BitVec 64) : Except ResourceValueErrorKind MachineDecimal :=
  if value.slt 0 then .error .negative else .ok ⟨value.signExtend 128, 0⟩

def scaleDecimal (decimal : MachineDecimal) (multiplier : BitVec 128)
    (fractionalError : ResourceValueErrorKind) :
    Except ResourceValueErrorKind (BitVec 128) :=
  if decimal.coefficient = 0 then .ok 0
  else do
    let value ← mulU128 decimal.coefficient multiplier
    if (0 : BitVec 32).slt decimal.scale then
      let divisor ← checkedPowerOfTen decimal.scale
      if value % divisor ≠ 0 then .error fractionalError else .ok (value / divisor)
    else if decimal.scale.slt 0 then
      let multiplier ← checkedPowerOfTen decimal.scale.abs
      mulU128 value multiplier
    else .ok value

/-! ### Agreement with the exact arithmetic -/

theorem map_bind {α β α' β' : Type} {x : Except ResourceValueErrorKind α}
    {f : α → Except ResourceValueErrorKind β} {x' : Except ResourceValueErrorKind α'}
    {f' : α' → Except ResourceValueErrorKind β'} {g : α → α'} {k : β → β'}
    (hx : x.map g = x') (hf : ∀ a, (f a).map k = f' (g a)) :
    (x >>= f).map k = x' >>= f' := by
  rw [← hx]
  cases x with
  | error => rfl
  | ok a => exact hf a

theorem map_unsigned {flag : Bool} {word : BitVec 128} {v : ℕ}
    (hflag : flag = decide (v ≥ 2 ^ 128)) (hword : ¬ flag = true → word.toNat = v) :
    (if flag then Except.error .overflow else .ok word).map BitVec.toNat =
      if v < 2 ^ 128 then .ok v else .error ResourceValueErrorKind.overflow := by
  by_cases hover : flag = true
  · have hle := of_decide_eq_true (hflag.symm.trans hover)
    rw [if_pos hover, if_neg (not_lt.mpr hle)]
    rfl
  · have hlt : v < 2 ^ 128 := by
      rw [hflag, decide_eq_true_eq] at hover
      exact not_le.mp hover
    rw [if_neg hover, if_pos hlt]
    exact congrArg Except.ok (hword hover)

theorem map_mulU128 (a b : BitVec 128) :
    (mulU128 a b).map BitVec.toNat = ResourceNormalization.mulU128 a.toNat b.toNat :=
  map_unsigned rfl BitVec.toNat_mul_of_not_umulOverflow

theorem map_addU128 (a b : BitVec 128) :
    (addU128 a b).map BitVec.toNat = ResourceNormalization.addU128 a.toNat b.toNat :=
  map_unsigned rfl BitVec.toNat_add_of_not_uaddOverflow

theorem map_signed {flag : Bool} {word : BitVec 32} {v : ℤ}
    (hflag : flag = (decide (v ≥ 2 ^ (32 - 1)) || decide (v < -2 ^ (32 - 1))))
    (hword : ¬ flag = true → word.toInt = v) :
    (if flag then Except.error .overflow else .ok word).map BitVec.toInt = toI32 v := by
  rw [toI32]
  by_cases hover : flag = true
  · have hout := hflag.symm.trans hover
    rw [Bool.or_eq_true, decide_eq_true_eq, decide_eq_true_eq] at hout
    rw [if_pos hover, if_neg (by omega)]
    rfl
  · have hin := hover
    rw [hflag, Bool.or_eq_true, decide_eq_true_eq, decide_eq_true_eq] at hin
    rw [if_neg hover, if_pos (by omega)]
    exact congrArg Except.ok (hword hover)

theorem map_mulI32 (a b : BitVec 32) :
    (mulI32 a b).map BitVec.toInt = toI32 (a.toInt * b.toInt) :=
  map_signed rfl BitVec.toInt_mul_of_not_smulOverflow

theorem map_addI32 (a b : BitVec 32) :
    (addI32 a b).map BitVec.toInt = toI32 (a.toInt + b.toInt) :=
  map_signed rfl BitVec.toInt_add_of_not_saddOverflow

theorem map_subI32 (a b : BitVec 32) :
    (subI32 a b).map BitVec.toInt = toI32 (a.toInt - b.toInt) :=
  map_signed rfl BitVec.toInt_sub_of_not_ssubOverflow

theorem lt_of_digitValue {c : Char} {digit : ℕ} (h : digitValue c = some digit) : digit < 10 := by
  cases hc : c.isDigit with
  | true =>
    rw [digitValue_of_isDigit hc] at h
    obtain ⟨_, _⟩ := toNat_of_isDigit hc
    have hdigit := Option.some.inj h
    have hzero : '0'.toNat = 48 := rfl
    omega
  | false =>
    rw [digitValue_of_not_isDigit hc] at h
    cases h

theorem toInt_ofNat_small {n : ℕ} (h : n < 2 ^ 31) : (BitVec.ofNat 32 n).toInt = n := by
  have hn : (BitVec.ofNat 32 n).toNat = n := by
    rw [BitVec.toNat_ofNat, Nat.mod_eq_of_lt (by omega)]
  rw [BitVec.toInt_eq_toNat_of_lt, hn]
  omega

theorem map_countToI32 (n : ℕ) : (countToI32 n).map BitVec.toInt = toI32 n := by
  rw [countToI32, toI32]
  by_cases hn : n < 2 ^ 31
  · rw [if_pos hn, if_pos (by omega)]
    exact congrArg Except.ok (toInt_ofNat_small hn)
  · rw [if_neg hn, if_neg (by omega)]
    rfl

theorem map_checkedPowerOfTen (exponent : BitVec 32) :
    (checkedPowerOfTen exponent).map BitVec.toNat =
      ResourceNormalization.checkedPowerOfTen exponent.toNat := by
  rw [checkedPowerOfTen, ResourceNormalization.checkedPowerOfTen]
  by_cases hsmall : exponent.toNat ≤ 38
  · have hlt : 10 ^ exponent.toNat < 2 ^ 128 :=
      lt_of_le_of_lt (Nat.pow_le_pow_right (by norm_num) hsmall) (by norm_num)
    rw [if_pos hsmall, if_pos hsmall]
    exact congrArg Except.ok (by rw [BitVec.toNat_ofNat, Nat.mod_eq_of_lt hlt])
  · rw [if_neg hsmall, if_neg hsmall]
    rfl

theorem map_parseI32Digits (negative : Bool) (text : List Char) (value : BitVec 32) :
    (parseI32Digits negative text value).map BitVec.toInt =
      ResourceNormalization.parseI32Digits (if negative then -1 else 1) text value.toInt := by
  induction text generalizing value with
  | nil => rfl
  | cons c rest ih =>
    rw [parseI32Digits, ResourceNormalization.parseI32Digits]
    cases hdigit : digitValue c with
    | none => rfl
    | some =>
      have hword := toInt_ofNat_small (lt_trans (lt_of_digitValue hdigit) (by norm_num))
      apply map_bind (map_mulI32 value 10)
      intro scaled
      refine map_bind (g := BitVec.toInt) ?_ ih
      rw [addDigit]
      cases negative with
      | false =>
        rw [if_neg Bool.false_ne_true, if_neg Bool.false_ne_true, map_addI32, hword, one_mul]
      | true =>
        rw [if_pos rfl, if_pos rfl, map_subI32, hword, neg_one_mul, sub_eq_add_neg]

theorem map_parseI32 (part : List Char) :
    (parseI32 part).map BitVec.toInt = ResourceNormalization.parseI32 part := by
  unfold parseI32
  split
  · exact map_parseI32Digits true _ 0
  · exact map_parseI32Digits false _ 0
  · rfl
  · rename_i c rest hminus hplus
    have hplain : ResourceNormalization.parseI32 (c :: rest) =
        ResourceNormalization.parseI32Digits 1 (c :: rest) 0 := by
      unfold ResourceNormalization.parseI32
      split
      · rename_i heq
        obtain ⟨hc, hrest⟩ := List.cons.inj heq
        exact (hminus _ _ hc hrest).elim
      · rename_i heq
        obtain ⟨hc, hrest⟩ := List.cons.inj heq
        exact (hplus _ _ hc hrest).elim
      · rename_i heq
        cases heq
      · rename_i heq
        cases heq
        rfl
    rw [hplain]
    exact map_parseI32Digits false _ 0

theorem map_readMantissa (text : List Char) (m : MachineMantissa) :
    (readMantissa text m).map MachineMantissa.exact =
      ResourceNormalization.readMantissa text m.exact := by
  induction text generalizing m with
  | nil => rfl
  | cons c rest ih =>
    rw [readMantissa, ResourceNormalization.readMantissa]
    have hsame : m.exact.sawDot = m.sawDot := rfl
    rw [hsame]
    by_cases hdot : c = '.' ∧ m.sawDot = false
    · rw [if_pos hdot, if_pos hdot]
      exact ih _
    · rw [if_neg hdot, if_neg hdot]
      cases hdigit : digitValue c with
      | none => rfl
      | some digit =>
        have hword : (BitVec.ofNat 128 digit).toNat = digit := by
          have hlt := lt_of_digitValue hdigit
          rw [BitVec.toNat_ofNat, Nat.mod_eq_of_lt (by omega)]
        apply map_bind (map_mulU128 m.coefficient 10)
        intro scaled
        refine map_bind (g := BitVec.toNat) ?_ fun coefficient => ih _
        rw [map_addU128, hword]

theorem map_parseDecimal (input : List Char) :
    (parseDecimal input).map MachineDecimal.exact = ResourceNormalization.parseDecimal input := by
  rw [parseDecimal, ResourceNormalization.parseDecimal]
  dsimp only
  by_cases hempty : (trim input).isEmpty = true
  · rw [if_pos hempty, if_pos hempty]
    rfl
  by_cases hminus : (trim input).head? = some '-'
  · rw [if_neg hempty, if_neg hempty, if_pos hminus, if_pos hminus]
    rfl
  rw [if_neg hempty, if_neg hempty, if_neg hminus, if_neg hminus]
  generalize (if (trim input).head? = some '+' then (trim input).tail
    else trim input).splitOnP (fun c => decide (c = 'e' ∨ c = 'E')) = parts
  have hrest : ∀ exponent : BitVec 32,
      (if parts[2]?.isSome then Except.error .malformed
        else do
          let m ← readMantissa (parts.headD []) ⟨0, 0, 0, false⟩
          if m.digits = 0 then .error .malformed
          else
            let fractionalDigits ← countToI32 m.fractionalDigits
            let scale ← subI32 fractionalDigits exponent
            .ok (⟨m.coefficient, scale⟩ : MachineDecimal)).map MachineDecimal.exact =
      (if parts[2]?.isSome then .error .malformed
      else do
        let m ← ResourceNormalization.readMantissa (parts.headD []) ⟨0, 0, 0, false⟩
        if m.digits = 0 then .error .malformed
        else
          let fractionalDigits ← toI32 m.fractionalDigits
          let scale ← toI32 (fractionalDigits - exponent.toInt)
          .ok ⟨m.coefficient, scale⟩) := by
    intro exponent
    by_cases hthird : parts[2]?.isSome = true
    · rw [if_pos hthird, if_pos hthird]
      rfl
    · rw [if_neg hthird, if_neg hthird]
      apply map_bind (map_readMantissa _ ⟨0, 0, 0, false⟩)
      intro m
      have hdigits : m.exact.digits = m.digits := rfl
      rw [hdigits]
      by_cases hzero : m.digits = 0
      · rw [if_pos hzero, if_pos hzero]
        rfl
      · rw [if_neg hzero, if_neg hzero]
        apply map_bind (map_countToI32 m.fractionalDigits)
        intro fractionalDigits
        apply map_bind (map_subI32 fractionalDigits exponent)
        intro scale
        rfl
  cases parts[1]? with
  | none => exact map_bind (x := .ok 0) (g := BitVec.toInt) rfl hrest
  | some part => exact map_bind (map_parseI32 part) hrest

theorem map_fromInt (value : BitVec 64) :
    (fromInt value).map MachineDecimal.exact =
      if value.toInt < 0 then .error .negative else .ok ⟨value.toInt.toNat, 0⟩ := by
  rw [fromInt]
  have hslt : value.slt 0 = decide (value.toInt < 0) := rfl
  rw [hslt]
  by_cases hnegative : value.toInt < 0
  · rw [if_pos hnegative, if_pos (decide_eq_true hnegative)]
    rfl
  · rw [if_neg hnegative, if_neg (by rw [decide_eq_true_eq]; exact hnegative)]
    have hextend : (value.signExtend 128).toInt = value.toInt :=
      BitVec.toInt_signExtend_of_le (by norm_num)
    have hmsb : (value.signExtend 128).toNat = value.toInt.toNat := by
      have hcases := BitVec.toInt_eq_toNat_cond (value.signExtend 128)
      have hlt := (value.signExtend 128).isLt
      rw [hextend] at hcases
      split_ifs at hcases <;> omega
    exact congrArg Except.ok (congrArg₂ Decimal.mk hmsb rfl)

theorem map_scaleDecimal (d : MachineDecimal) (multiplier : BitVec 128)
    (e : ResourceValueErrorKind) :
    (scaleDecimal d multiplier e).map BitVec.toNat =
      ResourceNormalization.scaleDecimal d.exact multiplier.toNat e := by
  have hzero : d.coefficient = 0 ↔ d.exact.coefficient = 0 := by
    constructor
    · intro h
      rw [MachineDecimal.exact, h]
      rfl
    · intro h
      exact BitVec.eq_of_toNat_eq h
  rw [scaleDecimal, ResourceNormalization.scaleDecimal]
  by_cases hc : d.coefficient = 0
  · rw [if_pos hc, if_pos (hzero.mp hc)]
    rfl
  rw [if_neg hc, if_neg (fun h => hc (hzero.mpr h))]
  apply map_bind (map_mulU128 d.coefficient multiplier)
  intro value
  have hslt : (0 : BitVec 32).slt d.scale = decide (0 < d.exact.scale) := rfl
  have hslt' : d.scale.slt 0 = decide (d.exact.scale < 0) := rfl
  have hlt := d.scale.isLt
  have hcases := BitVec.toInt_eq_toNat_cond d.scale
  have hscale : d.exact.scale = d.scale.toInt := rfl
  rw [hslt, hslt']
  by_cases hpos : 0 < d.exact.scale
  · have hcast : d.scale.toNat = d.exact.scale.toNat := by
      split_ifs at hcases <;> omega
    rw [if_pos (decide_eq_true hpos), if_pos hpos, ← hcast]
    apply map_bind (map_checkedPowerOfTen d.scale)
    intro divisor
    have hmod : value % divisor = 0 ↔ value.toNat % divisor.toNat = 0 := by
      rw [← BitVec.toNat_umod]
      constructor
      · intro h
        rw [h]
        rfl
      · intro h
        exact BitVec.eq_of_toNat_eq h
    by_cases hrest : value % divisor = 0
    · rw [if_neg (not_not.mpr hrest), if_neg (not_not.mpr (hmod.mp hrest))]
      exact congrArg Except.ok BitVec.toNat_udiv
    · rw [if_pos hrest, if_pos (fun h => hrest (hmod.mpr h))]
      rfl
  · have hpos' : ¬ decide (0 < d.exact.scale) = true := by
      rw [decide_eq_true_eq]
      exact hpos
    rw [if_neg hpos', if_neg hpos]
    by_cases hneg : d.exact.scale < 0
    · have hcast : d.scale.abs.toNat = d.exact.scale.natAbs := by
        have hmsb : d.scale.msb = true := by
          rw [BitVec.msb_eq_decide, decide_eq_true_eq]
          split_ifs at hcases <;> omega
        rw [BitVec.toNat_abs, hmsb, if_pos rfl]
        split_ifs at hcases <;> omega
      rw [if_pos (decide_eq_true hneg), if_pos hneg, ← hcast]
      apply map_bind (map_checkedPowerOfTen d.scale.abs)
      intro factor
      exact map_mulU128 value factor
    · have hneg' : ¬ decide (d.exact.scale < 0) = true := by
        rw [decide_eq_true_eq]
        exact hneg
      rw [if_neg hneg', if_neg hneg]
      rfl

end OxyMake.MachineDecimals
