import CodeShape.Number.Shortest
import Mathlib.Algebra.Order.Archimedean.Basic
import Mathlib.Algebra.Order.Field.Power
import Mathlib.Data.Nat.Bitwise
import Mathlib.Data.Rat.Cast.Order
import Mathlib.Tactic.FieldSimp
import Mathlib.Tactic.Linarith
import Mathlib.Tactic.NormNum
import Mathlib.Tactic.Positivity

/-!
Rounding to the nearest number. What a quotient is rounded to depends on its value alone, not on the
two integers that it is given by; a number is nearest to its own value; and the short cuts for very
large and very small decimals give what rounding gives.
-/
namespace CodeShape.Number

/-! Signs and magnitudes. -/

theorem toNat_signBit : signBit.toNat = 2 ^ 63 := by decide

/-- The magnitude is the same under the other sign. -/
theorem magnitude_neg (x : Number) : x.neg.magnitude = x.magnitude :=
  magnitudeOf_xor_signBit x.bits

protected theorem neg_neg (x : Number) : x.neg.neg = x := by
  simp only [neg, UInt64.xor_assoc, UInt64.xor_self, UInt64.xor_zero]

/-- The sign is the highest bit. -/
theorem isNegative_eq_testBit (x : Number) : x.isNegative = x.bits.toNat.testBit 63 := by
  have hBit : (x.bits &&& signBit).toNat = (x.bits.toNat.testBit 63).toNat * 2 ^ 63 := by
    rw [UInt64.toNat_and, toNat_signBit, Nat.and_two_pow]
  rw [isNegative, Bool.eq_iff_iff, bne_iff_ne, ne_eq, ← UInt64.toNat_inj, hBit]
  cases x.bits.toNat.testBit 63 <;> decide

/-- To negate a number is to turn its sign round. -/
theorem isNegative_neg (x : Number) : x.neg.isNegative = !x.isNegative := by
  rw [isNegative_eq_testBit, isNegative_eq_testBit, neg, UInt64.toNat_xor, toNat_signBit,
    Nat.testBit_xor, Nat.testBit_two_pow_self, Bool.xor_true]

/-- A number without a sign is its magnitude. -/
theorem magnitude_ofMagnitude_false {magnitude : Nat} (h : magnitude ≤ infinityBits) :
    (ofMagnitude false magnitude h).magnitude = magnitude := by
  have hSmall : magnitude < 2 ^ 63 := Nat.lt_of_le_of_lt h (by decide)
  have hBits : magnitude.toUInt64.toNat = magnitude :=
    Nat.mod_eq_of_lt (Nat.lt_trans hSmall (by decide))
  simp only [Number.magnitude, ofMagnitude, Bool.false_eq_true, if_false, UInt64.or_zero]
  rw [magnitudeOf_eq_mod, toNat_signBit, hBits, Nat.mod_eq_of_lt hSmall]

/-- A number that is not negative is told by its magnitude. -/
theorem eq_ofMagnitude {x : Number} (h : x.isNegative = false) :
    x = ofMagnitude false x.magnitude x.defined := by
  have hSmall : x.bits.toNat < 2 ^ 63 := by
    by_contra hLarge
    rw [isNegative_eq_testBit, Nat.testBit_eq_decide_div_mod_eq] at h
    have hBound := x.bits.toNat_lt
    simp only [decide_eq_false_iff_not] at h
    omega
  have hMagnitude : x.magnitude = x.bits.toNat := by
    rw [magnitude, magnitudeOf_eq_mod, toNat_signBit, Nat.mod_eq_of_lt hSmall]
  cases x with
  | mk bits defined =>
      simp only [ofMagnitude, hMagnitude]
      simp

/-! Quotients. -/

/-- A power with a sign in the exponent, as a quotient of powers without. -/
theorem zpow_eq_div (base : ℚ) (e : Int) : base ^ e = base ^ e.toNat / base ^ (-e).toNat := by
  obtain ⟨n, rfl | rfl⟩ := e.eq_nat_or_neg <;> simp

variable {num den : Nat}

/-- Scaling divides the quotient by the power of two. -/
theorem scaled_div (num den : Nat) (e : Int) :
    ((scaled num den e).1 : ℚ) / (scaled num den e).2 = num / den / 2 ^ e := by
  simp only [scaled, Nat.pow_eq, Nat.cast_mul, Nat.cast_pow, Nat.cast_ofNat, zpow_eq_div]
  field_simp

/-- The scaled denominator is positive. -/
theorem scaled_pos (hDen : 0 < den) (e : Int) : 0 < (scaled num den e).2 := by
  simp [scaled, hDen]

/-- A quotient fits at an exponent if it is below the power of two that many places up. -/
theorem fits_iff (hDen : 0 < den) (e : Int) :
    (scaled num den e).1 < (scaled num den e).2 * 2 ^ 53 ↔ (num / den : ℚ) < 2 ^ (e + 53) := by
  have hPos : (0 : ℚ) < (scaled num den e).2 := by exact_mod_cast scaled_pos hDen e
  have hTwo : (0 : ℚ) < 2 ^ e := by positivity
  rw [zpow_add₀ (by norm_num), ← div_lt_iff₀' hTwo, ← scaled_div, div_lt_iff₀' hPos]
  norm_cast

/-- The exponent belongs to the value: it leaves no more than 53 binary digits before the point, and
no fewer unless it is the least one. -/
structure IsExponentOf (value : ℚ) (e : Int) : Prop where
  least_le : -1074 ≤ e
  lt : value < 2 ^ (e + 53)
  le : e = -1074 ∨ 2 ^ (e + 52) ≤ value

namespace IsExponentOf

variable {value : ℚ} {e e' : Int}

/-- The exponent of a value is the least at which it fits. -/
theorem le_of_lt (h : IsExponentOf value e) (hLeast : -1074 ≤ e') (hLt : value < 2 ^ (e' + 53)) :
    e ≤ e' := by
  rcases h.le with rfl | hLe
  · exact hLeast
  · have hPow : (2 : ℚ) ^ (e + 52) < 2 ^ (e' + 53) := hLe.trans_lt hLt
    rw [zpow_lt_zpow_iff_right₀ (by norm_num)] at hPow
    omega

/-- A value has one exponent. -/
protected theorem unique (h : IsExponentOf value e) (h' : IsExponentOf value e') : e = e' :=
  le_antisymm (h.le_of_lt h'.least_le h'.lt) (h'.le_of_lt h.least_le h.lt)

end IsExponentOf

/-- The lengths of two integers give their quotient up to a factor of two on either side. -/
theorem lt_quotient (hNum : 0 < num) (hDen : 0 < den) :
    (2 : ℚ) ^ ((num.log2 : Int) - den.log2 - 1) < num / den := by
  have hNum' : (0 : ℚ) < num := by exact_mod_cast hNum
  have hDen' : (0 : ℚ) < den := by exact_mod_cast hDen
  have hLow : (2 : ℚ) ^ num.log2 ≤ num := by exact_mod_cast Nat.log2_self_le hNum.ne'
  have hHigh : (den : ℚ) < 2 ^ (den.log2 + 1) := by exact_mod_cast Nat.lt_log2_self
  calc (2 : ℚ) ^ ((num.log2 : Int) - den.log2 - 1)
      = 2 ^ num.log2 / 2 ^ (den.log2 + 1) := by
        rw [sub_sub, zpow_sub₀ (by norm_num)]
        norm_cast
    _ ≤ num / 2 ^ (den.log2 + 1) := by gcongr
    _ < num / den := by gcongr

/-- A quotient is bounded by the lengths of its two numbers. -/
theorem quotient_lt (num : Nat) (hDen : 0 < den) :
    (num / den : ℚ) < 2 ^ ((num.log2 : Int) - den.log2 + 1) := by
  have hLow : (2 : ℚ) ^ den.log2 ≤ den := by exact_mod_cast Nat.log2_self_le hDen.ne'
  have hHigh : (num : ℚ) < 2 ^ (num.log2 + 1) := by exact_mod_cast Nat.lt_log2_self
  calc (num / den : ℚ) ≤ num / 2 ^ den.log2 := by gcongr
    _ < 2 ^ (num.log2 + 1) / 2 ^ den.log2 := by gcongr
    _ = 2 ^ ((num.log2 : Int) - den.log2 + 1) := by
        rw [sub_add_eq_add_sub, zpow_sub₀ (by norm_num)]
        norm_cast

/-- The exponent that is estimated and corrected is the one that belongs to the quotient. -/
theorem isExponentOf_fittingExponent (hNum : 0 < num) (hDen : 0 < den) :
    IsExponentOf (num / den) (fittingExponent num den) := by
  -- before it is kept from falling below the least exponent
  have hBest : ∃ e : Int, fittingExponent num den = max e (-1074) ∧
      (num / den : ℚ) < 2 ^ (e + 53) ∧ (2 : ℚ) ^ (e + 52) ≤ num / den := by
    have hLow := lt_quotient hNum hDen
    have hHigh := quotient_lt num hDen
    refine ⟨_, rfl, ?_⟩
    simp only [decide_eq_true_eq, Nat.pow_eq, fits_iff hDen]
    generalize (num.log2 : Int) - den.log2 = length at hLow hHigh ⊢
    split
    · next hFits =>
      refine ⟨hFits, ?_⟩
      rw [show length - 53 + 52 = length - 1 by ring]
      exact hLow.le
    · next hNot =>
      have hNext : (num / den : ℚ) < 2 ^ (length - 53 + 1 + 53) := by
        rwa [show length - 53 + 1 + 53 = length + 1 by ring]
      rw [if_pos hNext]
      refine ⟨hNext, ?_⟩
      rw [show length - 53 + 1 + 52 = length - 53 + 53 by ring]
      exact not_lt.1 hNot
  obtain ⟨e, hMax, hLt, hLe⟩ := hBest
  rw [hMax]
  by_cases hLeast : -1074 ≤ e
  · rw [max_eq_left hLeast]
    exact ⟨hLeast, hLt, .inr hLe⟩
  · rw [max_eq_right (by omega)]
    refine ⟨le_rfl, hLt.trans ?_, .inl rfl⟩
    rw [zpow_lt_zpow_iff_right₀ (by norm_num)]
    omega

/-- The exponent that is computed is the exponent of the quotient. -/
theorem fittingExponent_eq {e : Int} (hNum : 0 < num) (hDen : 0 < den)
    (h : IsExponentOf (num / den) e) : fittingExponent num den = e :=
  (isExponentOf_fittingExponent hNum hDen).unique h

/-! Rounding to an integer. -/

/-- Rounding depends on the quotient only. -/
theorem divideToEven_mul {c : Nat} (hc : 0 < c) (num den : Nat) :
    divideToEven (num * c) (den * c) = divideToEven num den := by
  have hAbove : den * c < 2 * (num % den * c) ↔ den < 2 * (num % den) := by
    rw [← mul_assoc, Nat.mul_lt_mul_right hc]
  have hHalf : 2 * (num % den * c) = den * c ↔ 2 * (num % den) = den := by
    rw [← mul_assoc, Nat.mul_left_inj hc.ne']
  simp only [divideToEven, Nat.mul_div_mul_right _ _ hc, Nat.mul_mod_mul_right, Bool.or_eq_true,
    decide_eq_true_eq, Bool.and_eq_true, beq_iff_eq, hAbove, hHalf]

/-- Less than a half is rounded to nothing. -/
theorem divideToEven_of_lt (h : 2 * num < den) : divideToEven num den = 0 := by
  rw [divideToEven, Nat.div_eq_of_lt (by omega), Nat.mod_eq_of_lt (by omega)]
  simp
  omega

/-- Rounding goes down at most to the whole part. -/
theorem div_le_divideToEven (num den : Nat) : num / den ≤ divideToEven num den := by
  unfold divideToEven
  dsimp only
  split <;> omega

/-- A whole quotient is not rounded. -/
theorem divideToEven_mul_self (hDen : 0 < den) (n : Nat) : divideToEven (n * den) den = n := by
  simp [divideToEven, Nat.mul_div_cancel _ hDen]
  omega

/-! The nearest magnitude. -/

/-- The magnitude of a positive quotient: its exponent and its rounded significand, and infinity at
most. -/
theorem nearestMagnitude_of_pos (hNum : 0 < num) : nearestMagnitude num den =
    min ((fittingExponent num den + 1074).toNat * 2 ^ 52 +
      divideToEven (scaled num den (fittingExponent num den)).1
        (scaled num den (fittingExponent num den)).2) infinityBits := by
  rw [nearestMagnitude, if_neg hNum.ne']
  rfl

/-- A quotient that is written with larger integers is rounded alike. -/
theorem nearestMagnitude_mul {c : Nat} (hc : 0 < c) (hDen : 0 < den) :
    nearestMagnitude (num * c) (den * c) = nearestMagnitude num den := by
  rcases Nat.eq_zero_or_pos num with rfl | hNum
  · simp [nearestMagnitude]
  · have hQuotient : ((num * c : Nat) / (den * c : Nat) : ℚ) = num / den := by
      push_cast
      rw [mul_div_mul_right _ _ (by exact_mod_cast hc.ne')]
    have hExponent : fittingExponent (num * c) (den * c) = fittingExponent num den := by
      refine fittingExponent_eq (Nat.mul_pos hNum hc) (Nat.mul_pos hDen hc) ?_
      rw [hQuotient]
      exact isExponentOf_fittingExponent hNum hDen
    rw [nearestMagnitude_of_pos (Nat.mul_pos hNum hc), nearestMagnitude_of_pos hNum, hExponent]
    simp only [scaled, Nat.pow_eq]
    rw [mul_right_comm num, mul_right_comm den, divideToEven_mul hc]

/-- Equal quotients are rounded alike. -/
theorem nearestMagnitude_congr {num' den' : Nat} (hDen : 0 < den) (hDen' : 0 < den')
    (h : num * den' = num' * den) : nearestMagnitude num den = nearestMagnitude num' den' := by
  rw [← nearestMagnitude_mul hDen' hDen, h, mul_comm den, nearestMagnitude_mul hDen hDen']

/-- What is beyond all numbers is rounded to infinity. -/
theorem nearestMagnitude_of_large (hDen : 0 < den) (h : (2 : ℚ) ^ (1024 : Int) ≤ num / den) :
    nearestMagnitude num den = infinityBits := by
  have hNum : 0 < num := by
    rcases Nat.eq_zero_or_pos num with rfl | hNum
    · have hPos : (0 : ℚ) < 2 ^ (1024 : Int) := by positivity
      rw [Nat.cast_zero, zero_div] at h
      exact absurd h hPos.not_ge
    · exact hNum
  have hExponent := isExponentOf_fittingExponent hNum hDen
  rw [nearestMagnitude_of_pos hNum]
  generalize fittingExponent num den = e at hExponent ⊢
  have he : 972 ≤ e := by
    have hPow := h.trans_lt hExponent.lt
    rw [zpow_lt_zpow_iff_right₀ (by norm_num)] at hPow
    omega
  have hFull : 2 ^ 52 ≤ (scaled num den e).1 / (scaled num den e).2 := by
    have hPos : (0 : ℚ) < (scaled num den e).2 := by exact_mod_cast scaled_pos hDen e
    have hLe : (2 : ℚ) ^ (e + 52) ≤ num / den := hExponent.le.resolve_left (by omega)
    rw [zpow_add₀ (by norm_num), ← le_div_iff₀' (by positivity), ← scaled_div,
      le_div_iff₀ hPos] at hLe
    rw [Nat.le_div_iff_mul_le (scaled_pos hDen e)]
    exact_mod_cast hLe
  have hRounded := div_le_divideToEven (scaled num den e).1 (scaled num den e).2
  refine Nat.min_eq_right ?_
  have hInfinity : infinityBits = 2046 * 2 ^ 52 + 2 ^ 52 := by decide
  have hSteps : 2046 * 2 ^ 52 ≤ (e + 1074).toNat * 2 ^ 52 := Nat.mul_le_mul_right _ (by omega)
  omega

/-- What is below half of the least number is rounded to zero. -/
theorem nearestMagnitude_of_small (hDen : 0 < den) (h : (num / den : ℚ) < 2 ^ (-1075 : Int)) :
    nearestMagnitude num den = 0 := by
  rcases Nat.eq_zero_or_pos num with rfl | hNum
  · rfl
  · have hExponent : fittingExponent num den = -1074 := by
      refine fittingExponent_eq hNum hDen ⟨le_rfl, h.trans ?_, .inl rfl⟩
      rw [zpow_lt_zpow_iff_right₀ (by norm_num)]
      norm_num
    have hBelow : 2 * (scaled num den (-1074)).1 < (scaled num den (-1074)).2 := by
      have hPos : (0 : ℚ) < (scaled num den (-1074)).2 := by
        exact_mod_cast scaled_pos hDen (-1074)
      have hHalf : ((scaled num den (-1074)).1 : ℚ) / (scaled num den (-1074)).2 < 1 / 2 := by
        rw [scaled_div, div_lt_iff₀ (by positivity)]
        calc (num / den : ℚ) < 2 ^ (-1075 : Int) := h
          _ = 2 ^ ((-1 : Int) + -1074) := by norm_num
          _ = 1 / 2 * 2 ^ (-1074 : Int) := by
            rw [zpow_add₀ (by norm_num)]
            norm_num
      rw [div_lt_div_iff₀ hPos (by norm_num)] at hHalf
      have hCast : (((scaled num den (-1074)).1 * 2 : Nat) : ℚ) <
          (1 * (scaled num den (-1074)).2 : Nat) := by
        push_cast
        exact hHalf
      rw [Nat.cast_lt] at hCast
      omega
    rw [nearestMagnitude_of_pos hNum, hExponent, divideToEven_of_lt hBelow]
    rfl

/-! The value of a number. -/

/-- The parts of a finite number: the exponent belongs to the value, and the two give the magnitude
back. -/
theorem significand_spec {x : Number} (h : x.isFinite = true) :
    x.significand.1 < 2 ^ 53 ∧ -1074 ≤ x.significand.2 ∧
      (x.significand.2 = -1074 ∨ 2 ^ 52 ≤ x.significand.1) ∧
      (x.significand.2 + 1074).toNat * 2 ^ 52 + x.significand.1 = x.magnitude := by
  have hFinite : x.magnitude < 2047 * 2 ^ 52 := of_decide_eq_true h
  simp only [significand, Nat.pow_eq]
  split
  · next hField =>
    refine ⟨by omega, le_rfl, .inl rfl, ?_⟩
    simp
    omega
  · next hField =>
    refine ⟨by omega, by omega, .inr (by omega), ?_⟩
    omega

/-- A number is nearest to its own value. -/
theorem nearestMagnitude_ratio {x : Number} (h : x.isFinite = true) :
    nearestMagnitude x.ratio.1 x.ratio.2 = x.magnitude := by
  obtain ⟨hShort, hLeast, hFull, hMagnitude⟩ := significand_spec h
  have hBound : x.magnitude ≤ infinityBits := x.defined
  generalize hm : x.significand.1 = m at *
  generalize hq : x.significand.2 = q at *
  have hRatio : x.ratio = (m * 2 ^ q.toNat, 2 ^ (-q).toNat) := by
    simp only [ratio, hm, hq, Nat.pow_eq]
  rw [hRatio]
  rcases Nat.eq_zero_or_pos m with rfl | hPos
  · -- only zero has a zero significand
    have hLeastExponent : q = -1074 := hFull.resolve_right (by norm_num)
    rw [← hMagnitude, hLeastExponent, Nat.zero_mul]
    rfl
  · have hDen : 0 < 2 ^ (-q).toNat := by positivity
    have hNum : 0 < m * 2 ^ q.toNat := by positivity
    have hValue : ((m * 2 ^ q.toNat : Nat) / (2 ^ (-q).toNat : Nat) : ℚ) = m * 2 ^ q := by
      push_cast
      rw [zpow_eq_div, mul_div_assoc]
    have hExponent : fittingExponent (m * 2 ^ q.toNat) (2 ^ (-q).toNat) = q := by
      refine fittingExponent_eq hNum hDen ⟨hLeast, ?_, hFull.imp_right fun hFull => ?_⟩
      · rw [hValue, add_comm, zpow_add₀ (by norm_num)]
        gcongr
        exact_mod_cast hShort
      · rw [hValue, add_comm, zpow_add₀ (by norm_num)]
        gcongr
        exact_mod_cast hFull
    rw [nearestMagnitude_of_pos hNum, hExponent]
    simp only [scaled, Nat.pow_eq]
    rw [mul_assoc, mul_comm (2 ^ (-q).toNat), divideToEven_mul_self (by positivity), hMagnitude]
    exact Nat.min_eq_left hBound

/-! Decimals. -/

/-- The nearest number depends on the nearest magnitude and the sign. -/
theorem nearest_congr (negative : Bool) {num' den' : Nat}
    (h : nearestMagnitude num den = nearestMagnitude num' den') :
    nearest negative num den = nearest negative num' den' := by
  simp only [nearest, h]

/-- A decimal is a quotient of two natural numbers. -/
theorem decimal_div (digits : Nat) (exponent : Int) :
    ((digits * 10 ^ exponent.toNat : Nat) / (10 ^ (-exponent).toNat : Nat) : ℚ) =
      digits * 10 ^ exponent := by
  push_cast
  rw [zpow_eq_div, mul_div_assoc]

/-- Decimals with a large exponent are beyond every finite number. -/
theorem large_decimal {digits : Nat} {exponent : Int} (hDigits : 0 < digits)
    (h : 400 < exponent) : (2 : ℚ) ^ (1024 : Int) ≤ digits * 10 ^ exponent := by
  have hOne : (1 : ℚ) ≤ digits := by exact_mod_cast hDigits
  calc (2 : ℚ) ^ (1024 : Int) ≤ 2 ^ (3 * exponent) :=
        zpow_le_zpow_right₀ (by norm_num) (by omega)
    _ = 8 ^ exponent := by
        rw [zpow_mul]
        norm_num
    _ ≤ 10 ^ exponent := zpow_le_zpow_left₀ (by omega) (by norm_num) (by norm_num)
    _ ≤ digits * 10 ^ exponent := le_mul_of_one_le_left (by positivity) hOne

/-- Decimals with a small exponent are below half of the least number. -/
theorem small_decimal {digits : Nat} {exponent : Int}
    (h : exponent < -(digits.log2 : Int) - 400) :
    (digits * 10 ^ exponent : ℚ) < 2 ^ (-1075 : Int) := by
  have hDigits : (digits : ℚ) < 2 ^ (digits.log2 + 1) := by exact_mod_cast Nat.lt_log2_self
  obtain ⟨n, rfl⟩ : ∃ n : Nat, exponent = -n := ⟨exponent.natAbs, by omega⟩
  have hTen : (10 : ℚ) ^ (-n : Int) ≤ 8 ^ (-n : Int) := by
    rw [zpow_neg, zpow_neg, zpow_natCast, zpow_natCast]
    gcongr
    norm_num
  calc (digits * 10 ^ (-n : Int) : ℚ) < 2 ^ (digits.log2 + 1) * 10 ^ (-n : Int) := by gcongr
    _ ≤ 2 ^ (digits.log2 + 1) * 8 ^ (-n : Int) := by gcongr
    _ = 2 ^ ((digits.log2 + 1 : Int) + 3 * -n) := by
        rw [zpow_add₀ (by norm_num), zpow_mul]
        norm_cast
    _ ≤ 2 ^ (-1075 : Int) := zpow_le_zpow_right₀ (by norm_num) (by omega)

/-- The number nearest to a decimal is found by rounding, whatever the exponent is. -/
theorem ofDecimal_eq_nearest (negative : Bool) (digits : Nat) (exponent : Int) :
    ofDecimal negative digits exponent =
      nearest negative (digits * 10 ^ exponent.toNat) (10 ^ (-exponent).toNat) := by
  have hDen : 0 < 10 ^ (-exponent).toNat := by positivity
  unfold ofDecimal
  split
  · next hZero =>
    have hMagnitude : nearestMagnitude (digits * 10 ^ exponent.toNat) (10 ^ (-exponent).toNat) =
        0 := by
      rw [hZero, zero_mul]
      rfl
    simp only [nearest, hMagnitude, zero]
  · next hNonzero =>
    split
    · next hLarge =>
      have hMagnitude : nearestMagnitude (digits * 10 ^ exponent.toNat)
          (10 ^ (-exponent).toNat) = infinityBits :=
        nearestMagnitude_of_large hDen (decimal_div .. ▸ large_decimal (by omega) hLarge)
      simp only [nearest, hMagnitude, infinity]
    · split
      · next hSmall =>
        have hMagnitude : nearestMagnitude (digits * 10 ^ exponent.toNat)
            (10 ^ (-exponent).toNat) = 0 :=
          nearestMagnitude_of_small hDen (decimal_div .. ▸ small_decimal hSmall)
        simp only [nearest, hMagnitude, zero]
      · rfl

/-- Decimals of equal value are nearest to the same number. -/
theorem ofDecimal_congr (negative : Bool) {digits digits' : Nat} {exponent exponent' : Int}
    (h : (digits : ℚ) * 10 ^ exponent = digits' * 10 ^ exponent') :
    ofDecimal negative digits exponent = ofDecimal negative digits' exponent' := by
  rw [ofDecimal_eq_nearest, ofDecimal_eq_nearest]
  refine nearest_congr _ (nearestMagnitude_congr (by positivity) (by positivity) ?_)
  rw [← decimal_div, ← decimal_div, div_eq_div_iff (by positivity) (by positivity)] at h
  exact_mod_cast h

/-- A number is nearest to the decimal of its exact value. -/
theorem magnitude_ofDecimal_exactDecimal {x : Number} (h : x.isFinite = true) :
    (ofDecimal false x.exactDecimal.digits x.exactDecimal.exponent).magnitude = x.magnitude := by
  rw [ofDecimal_eq_nearest, nearest, magnitude_ofMagnitude_false, ← nearestMagnitude_ratio h]
  obtain ⟨⟨m, q⟩, hSignificand⟩ : ∃ parts, x.significand = parts := ⟨_, rfl⟩
  simp only [exactDecimal, ratio, hSignificand, Nat.pow_eq]
  refine nearestMagnitude_congr (by positivity) (by positivity) ?_
  split
  · next hq =>
    have hNone : (-q).toNat = 0 := by omega
    simp [hNone]
  · next hq =>
    have hNone : q.toNat = 0 := by omega
    rw [hNone, pow_zero, pow_zero, mul_one, mul_one, mul_assoc, ← mul_pow]
    norm_num

/-- The text of a number is that of a decimal nearest to it. -/
theorem magnitude_ofDecimal_shortestDecimal {x : Number} (h : x.isFinite = true) :
    (ofDecimal false x.shortestDecimal.digits x.shortestDecimal.exponent).magnitude =
      x.magnitude := by
  have hNeighbour : ∀ {exponent : Int} {d : Decimal}, x.neighbour? exponent = some d →
      (ofDecimal false d.digits d.exponent).magnitude = x.magnitude := by
    intro exponent d hd
    unfold neighbour? at hd
    simp only at hd
    split at hd <;> cases hd
    · next hLower hUpper =>
      split
      · exact beq_iff_eq.1 hLower
      · exact beq_iff_eq.1 hUpper
    · next hLower _ => exact beq_iff_eq.1 hLower
    · next _ hUpper => exact beq_iff_eq.1 hUpper
  unfold shortestDecimal
  simp only
  cases hFound : (List.range 17).findSome? fun i =>
      x.neighbour? (leadingPlace x.ratio.1 x.ratio.2 - (i + 1 : Nat)) with
  | none => exact magnitude_ofDecimal_exactDecimal h
  | some d =>
      obtain ⟨i, -, hd⟩ := List.exists_of_findSome?_eq_some hFound
      exact hNeighbour hd

end CodeShape.Number
