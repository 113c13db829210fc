import Mathlib.Algebra.Order.Field.Rat
import Mathlib.Algebra.Order.Field.Power
import Mathlib.Data.Nat.Cast.Order.Field
import Mathlib.Tactic.Linarith
import Mathlib.Tactic.Positivity
import Dealias.Number.Rounding

/-!
# What rounding changes

A quotient is rounded by one half at most (`abs_roundQuotient_sub_le`), and the roundings of
numbers come down to that.

* `abs_roundToDouble_sub_le`: a number that is not negative is rounded to 53 significant bits by at
  most its `2 ^ 53`-th part.
* `abs_fixedUnits_sub_le`: with a fixed count of decimal places it is rounded by at most one half of
  the last place.

## Strategy

The exponent by which a number is scaled comes from the binary lengths of numerator and denominator,
which fix their quotient up to a factor of two (`two_zpow_lt_div`).  The comparison with `2 ^ 52`
settles that factor, so the scaled number is at least `2 ^ 52` (`two_pow_le_scaled`) and one half is
at most its `2 ^ 53`-th part.
-/

namespace Dealias

variable {numerator denominator : Nat} {value : ℚ}

/-! ## Quotients -/

theorem abs_roundQuotient_sub_le (numerator : Nat) (hdenominator : 0 < denominator) :
    |(roundQuotient numerator denominator : ℚ) - numerator / denominator| ≤ 1 / 2 := by
  have hparts := Nat.div_add_mod numerator denominator
  have hrest := Nat.mod_lt numerator hdenominator
  have hbounds : 2 * numerator ≤ denominator * roundQuotient numerator denominator * 2 + denominator
      ∧ denominator * roundQuotient numerator denominator * 2 ≤ 2 * numerator + denominator := by
    unfold roundQuotient
    dsimp only
    split
    · omega
    · split
      · rw [Nat.mul_add]
        omega
      · rcases Nat.mod_two_eq_zero_or_one (numerator / denominator) with heven | hodd
        · rw [heven, Nat.add_zero]
          omega
        · rw [hodd, Nat.mul_add]
          omega
  obtain ⟨hlower, hupper⟩ := hbounds
  have hpositive : (0 : ℚ) < denominator := by exact_mod_cast hdenominator
  have hlower : (2 : ℚ) * numerator ≤
      denominator * roundQuotient numerator denominator * 2 + denominator := by
    exact_mod_cast hlower
  have hupper : (denominator : ℚ) * roundQuotient numerator denominator * 2 ≤
      2 * numerator + denominator := by
    exact_mod_cast hupper
  rw [abs_le, neg_le_sub_iff_le_add, sub_le_iff_le_add, div_le_iff₀ hpositive, ← sub_le_iff_le_add',
    le_div_iff₀ hpositive]
  constructor <;> linarith

/-! ## Scaling -/

/-- The binary lengths of two numbers bound their quotient from below. -/
theorem two_zpow_lt_div (hnumerator : 0 < numerator) (hdenominator : 0 < denominator) :
    (2 : ℚ) ^ ((numerator.log2 : Int) - denominator.log2 - 1) < numerator / denominator := by
  have hlow : (2 : ℚ) ^ numerator.log2 ≤ numerator := by
    exact_mod_cast Nat.log2_self_le hnumerator.ne'
  have hhigh : (denominator : ℚ) < 2 ^ (denominator.log2 + 1) := by
    exact_mod_cast Nat.lt_log2_self
  have hpositive : (0 : ℚ) < denominator := by exact_mod_cast hdenominator
  have hexponent : (numerator.log2 : Int) - denominator.log2 - 1 =
      (numerator.log2 : Int) - ((denominator.log2 + 1 : Nat) : Int) := by
    omega
  rw [hexponent, zpow_sub₀ (by norm_num), zpow_natCast, zpow_natCast,
    div_lt_div_iff₀ (by positivity) hpositive]
  calc (2 : ℚ) ^ numerator.log2 * denominator
      ≤ numerator * denominator := by gcongr
    _ < numerator * 2 ^ (denominator.log2 + 1) := by gcongr

/-- A number with the power of two that is put into its numerator or denominator. -/
theorem scaled_eq (numerator denominator : Nat) (exponent : Int) :
    (numerator : ℚ) / denominator * 2 ^ exponent =
      if 0 ≤ exponent then ((numerator * Nat.pow 2 exponent.toNat : Nat) : ℚ) / denominator
      else (numerator : ℚ) / ((denominator * Nat.pow 2 (-exponent).toNat : Nat) : ℚ) := by
  split
  · rename_i hexponent
    obtain ⟨shift, rfl⟩ := Int.eq_ofNat_of_zero_le hexponent
    simp [div_mul_eq_mul_div]
  · rename_i hexponent
    obtain ⟨shift, hshift⟩ := Int.eq_ofNat_of_zero_le (a := -exponent) (by omega)
    obtain rfl : exponent = -shift := by omega
    simp [div_eq_mul_inv, mul_assoc, mul_comm]

/-- The whole part of a scaled number. -/
theorem wholePart_le_scaled (numerator denominator : Nat) (exponent : Int) :
    ((if 0 ≤ exponent then numerator * Nat.pow 2 exponent.toNat / denominator
      else numerator / (denominator * Nat.pow 2 (-exponent).toNat) : Nat) : ℚ) ≤
        numerator / denominator * 2 ^ exponent := by
  rw [scaled_eq]
  split <;> exact Nat.cast_div_le

/-- The scaled number has 53 bits before the point. -/
theorem two_pow_le_scaled (hnumerator : 0 < numerator) (hdenominator : 0 < denominator) :
    (2 : ℚ) ^ 52 ≤ numerator / denominator * 2 ^ scaleExponent numerator denominator := by
  have hwhole := wholePart_le_scaled numerator denominator
    (52 - ((numerator.log2 : Int) - denominator.log2))
  unfold scaleExponent
  dsimp only at hwhole ⊢
  generalize hguess : 52 - ((numerator.log2 : Int) - denominator.log2) = guess at hwhole ⊢
  generalize (if 0 ≤ guess then numerator * Nat.pow 2 guess.toNat / denominator
    else numerator / (denominator * Nat.pow 2 (-guess).toNat)) = whole at hwhole ⊢
  split
  · -- one more binary place makes up for the factor of two that the lengths leave open
    have hsum : (52 : Int) = ((numerator.log2 : Int) - denominator.log2 - 1) + (guess + 1) := by
      omega
    calc (2 : ℚ) ^ 52
        = 2 ^ ((numerator.log2 : Int) - denominator.log2 - 1) * 2 ^ (guess + 1) := by
          rw [← zpow_add₀ (by norm_num), ← hsum]
          norm_num
      _ ≤ numerator / denominator * 2 ^ (guess + 1) := by
          have hquotient := two_zpow_lt_div hnumerator hdenominator
          gcongr
  · rename_i hlarge
    refine le_trans ?_ hwhole
    exact_mod_cast Nat.le_of_not_lt hlarge

/-! ## Binary rounding -/

theorem num_toNat_div_den (hvalue : 0 ≤ value) : (value.num.toNat : ℚ) / value.den = value := by
  have hnum : ((value.num.toNat : Int) : ℚ) = value.num := by
    rw [Int.toNat_of_nonneg (Rat.num_nonneg.mpr hvalue)]
  rw [← Int.cast_natCast, hnum, Rat.num_div_den]

/-- A positive number is rounded to a whole number of units, the nearest one. -/
theorem roundToDouble_spec (hvalue : 0 < value) : ∃ whole : Nat,
    roundToDouble value = whole / 2 ^ scaleExponent value.num.toNat value.den ∧
      |(whole : ℚ) - value * 2 ^ scaleExponent value.num.toNat value.den| ≤ 1 / 2 := by
  have hscaled := scaled_eq value.num.toNat value.den (scaleExponent value.num.toNat value.den)
  rw [num_toNat_div_den hvalue.le] at hscaled
  unfold roundToDouble
  rw [if_neg hvalue.ne']
  dsimp only
  generalize scaleExponent value.num.toNat value.den = exponent at hscaled ⊢
  rw [hscaled]
  split
  · rename_i hexponent
    refine ⟨_, ?_, abs_roundQuotient_sub_le _ value.den_pos⟩
    obtain ⟨shift, rfl⟩ := Int.eq_ofNat_of_zero_le hexponent
    simp [Rat.mkRat_eq_div]
  · rename_i hexponent
    obtain ⟨shift, hshift⟩ := Int.eq_ofNat_of_zero_le (a := -exponent) (by omega)
    obtain rfl : exponent = -shift := by omega
    have hunit : 0 < value.den * Nat.pow 2 (-(-shift : Int)).toNat :=
      Nat.mul_pos value.den_pos (Nat.pow_pos (by decide))
    refine ⟨_, ?_, abs_roundQuotient_sub_le _ hunit⟩
    simp [Rat.mkRat_eq_div]

/-- Rounding to 53 significant bits changes a number by its `2 ^ 53`-th part at most. -/
theorem abs_roundToDouble_sub_le (hvalue : 0 ≤ value) :
    |roundToDouble value - value| ≤ value / 2 ^ 53 := by
  rcases hvalue.eq_or_lt with rfl | hpositive
  · simp [roundToDouble]
  obtain ⟨whole, hwhole, hnear⟩ := roundToDouble_spec hpositive
  have hnum : 0 < value.num.toNat := by
    have hsign := Rat.num_pos.mpr hpositive
    omega
  have hscaled := two_pow_le_scaled hnum value.den_pos
  rw [num_toNat_div_den hvalue] at hscaled
  generalize scaleExponent value.num.toNat value.den = exponent at hwhole hnear hscaled
  have hunit : (0 : ℚ) < 2 ^ exponent := by positivity
  have hdistance : |roundToDouble value - value| * 2 ^ exponent =
      |(whole : ℚ) - value * 2 ^ exponent| := by
    rw [← abs_of_pos hunit, ← abs_mul, abs_of_pos hunit, sub_mul, hwhole,
      div_mul_cancel₀ _ hunit.ne']
  -- one half is at most the part of a scaled number that is at least `2 ^ 52`
  refine le_of_mul_le_mul_right ?_ hunit
  calc |roundToDouble value - value| * 2 ^ exponent
      ≤ 1 / 2 := hdistance.trans_le hnear
    _ = 2 ^ 52 / 2 ^ 53 := by norm_num
    _ ≤ value * 2 ^ exponent / 2 ^ 53 := by gcongr
    _ = value / 2 ^ 53 * 2 ^ exponent := by rw [div_mul_eq_mul_div]

theorem roundToDouble_nonneg (hvalue : 0 ≤ value) : 0 ≤ roundToDouble value := by
  have hlower := (abs_le.mp (abs_roundToDouble_sub_le hvalue)).1
  have hpart : value / 2 ^ 53 ≤ value := div_le_self hvalue (by norm_num)
  linarith

/-! ## Decimal rounding -/

/-- The units of the last place that a number is rounded to with a fixed count of places. -/
def fixedUnits (places : Nat) (value : ℚ) : Nat :=
  roundQuotient (value.num.toNat * Nat.pow 10 places) value.den

theorem abs_fixedUnits_sub_le (places : Nat) (hvalue : 0 ≤ value) :
    |(fixedUnits places value : ℚ) - value * 10 ^ places| ≤ 1 / 2 := by
  have hnear := abs_roundQuotient_sub_le (value.num.toNat * Nat.pow 10 places) value.den_pos
  have hscaled : ((value.num.toNat * Nat.pow 10 places : Nat) : ℚ) / value.den =
      value * 10 ^ places := by
    rw [Nat.cast_mul, mul_div_right_comm, num_toNat_div_den hvalue, Nat.pow_eq, Nat.cast_pow]
    rfl
  rwa [hscaled] at hnear

/-- The text of a number with decimal places. -/
theorem toFixed_succ (places : Nat) (value : ℚ) :
    toFixed (places + 1) value =
      toString (fixedUnits (places + 1) value / 10 ^ (places + 1)) ++ "." ++
        paddedDigits (places + 1) (fixedUnits (places + 1) value % 10 ^ (places + 1)) := by
  unfold toFixed
  dsimp only
  rw [if_neg (Nat.succ_ne_zero places)]
  rfl

end Dealias
