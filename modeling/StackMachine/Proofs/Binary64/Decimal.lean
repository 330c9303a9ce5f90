import Mathlib.Tactic.GCongr
import Mathlib.Tactic.Positivity
import StackMachine.Binary64.Decimal
import StackMachine.Proofs.Binary64.Rounding

/-!
# The nearest number to a decimal

The two shortcuts taken before any power of ten is computed agree with rounding the exact ratio, so
the nearest number depends on the value of a decimal alone.  A decimal that is nearest to a finite
number other than zero has its leading digit within four hundred places of the point.
-/

namespace StackMachine

namespace Decimal

theorem tenTo_eq (exponent : Nat) : tenTo exponent = 10 ^ exponent :=
  rfl

/-- The numerator of the value of a decimal. -/
def numerator (decimal : Decimal) : Nat :=
  decimal.significand * 10 ^ decimal.exponent.toNat

/-- The denominator of the value of a decimal. -/
def denominator (decimal : Decimal) : Nat :=
  10 ^ (-decimal.exponent).toNat

theorem denominator_pos (decimal : Decimal) : 0 < decimal.denominator :=
  Nat.pow_pos (by omega)

end Decimal

namespace Binary64

open Decimal

theorem two_pow_le_ten_pow (exponent : Nat) : 2 ^ (3 * exponent) ≤ 10 ^ exponent := by
  rw [pow_mul]
  exact Nat.pow_le_pow_left (by omega) exponent

theorem roundCode_large {whole denominator places : Nat} (positive : 0 < denominator)
    (wide : overflowExponent ≤ 3 * places) (large : 10 ^ places * denominator ≤ whole) :
    roundCode (whole * unitsInOne) denominator = infinityCode := by
  have power : 2 ^ overflowExponent ≤ 10 ^ places :=
    Nat.le_trans (Nat.pow_le_pow_right Nat.two_pos wide) (two_pow_le_ten_pow places)
  apply roundCode_eq_infinityCode
  rw [Nat.le_div_iff_mul_le positive, unitsInOne_eq, pow_add, Nat.mul_right_comm]
  exact Nat.mul_le_mul_right _ (Nat.le_trans (Nat.mul_le_mul_right denominator power) large)

theorem roundCode_small {whole denominator places : Nat} (wide : unitExponent + 1 ≤ 3 * places)
    (small : whole * 10 ^ places < denominator) :
    roundCode (whole * unitsInOne) denominator = 0 := by
  have power : 2 ^ (unitExponent + 1) ≤ 10 ^ places :=
    Nat.le_trans (Nat.pow_le_pow_right Nat.two_pos wide) (two_pow_le_ten_pow places)
  apply roundCode_eq_zero
  rw [unitsInOne_eq]
  calc
    2 * (whole * 2 ^ unitExponent) = whole * 2 ^ (unitExponent + 1) := by rw [pow_succ]; ring
    _ ≤ whole * 10 ^ places := Nat.mul_le_mul_left whole power
    _ < denominator := small

theorem roundCode_of_log2_lt {significand places : Nat}
    (small : significand.log2 + 1080 < 3 * places) :
    roundCode (significand * unitsInOne) (10 ^ places) = 0 := by
  apply roundCode_eq_zero
  rw [unitsInOne_eq]
  have units : unitExponent = 1074 := rfl
  calc
    2 * (significand * 2 ^ unitExponent) < 2 * (2 ^ (significand.log2 + 1) * 2 ^ unitExponent) := by
      gcongr
      exact Nat.lt_log2_self
    _ = 2 ^ (significand.log2 + 2 + unitExponent) := by rw [pow_add, pow_add, pow_add]; ring
    _ ≤ 2 ^ (3 * places) := Nat.pow_le_pow_right (by omega) (by omega)
    _ ≤ 10 ^ places := two_pow_le_ten_pow places

/-- The nearest number is the exact ratio, rounded once. -/
theorem codeOfDecimal_eq (decimal : Decimal) :
    codeOfDecimal decimal = roundCode (decimal.numerator * unitsInOne) decimal.denominator := by
  obtain ⟨significand, exponent⟩ := decimal
  simp only [codeOfDecimal, numerator, denominator, tenTo_eq]
  split
  · rename_i zero
    rw [zero, Nat.zero_mul, Nat.zero_mul]
    exact (roundCode_eq_zero (Nat.pow_pos (by omega))).symm
  · rename_i nonzero
    split
    · rename_i huge
      have places : (-exponent).toNat = 0 := by omega
      rw [places, pow_zero]
      have wide : overflowExponent ≤ 3 * exponent.toNat := by
        have overflow : overflowExponent = 1024 := rfl
        omega
      have large : 10 ^ exponent.toNat * 1 ≤ significand * 10 ^ exponent.toNat := by
        rw [Nat.mul_one]
        exact Nat.le_mul_of_pos_left _ (by omega)
      exact (roundCode_large Nat.one_pos wide large).symm
    · split
      · rename_i nonnegative
        have places : (-exponent).toNat = 0 := by omega
        rw [places, pow_zero]
      · rename_i negative
        have power : exponent.toNat = 0 := by omega
        rw [power, pow_zero, Nat.mul_one]
        split
        · rename_i tiny
          exact (roundCode_of_log2_lt tiny).symm
        · rfl

/-- Zeros moved between the digits and the exponent do not change the nearest number. -/
theorem codeOfDecimal_mul_pow (significand zeros : Nat) (exponent : Int) :
    codeOfDecimal ⟨significand * 10 ^ zeros, exponent⟩ =
      codeOfDecimal ⟨significand, exponent + zeros⟩ := by
  simp only [codeOfDecimal_eq]
  apply roundCode_congr (denominator_pos _) (denominator_pos _)
  simp only [numerator, denominator]
  have powers : zeros + exponent.toNat + (-(exponent + zeros)).toNat =
      (exponent + zeros).toNat + (-exponent).toNat := by omega
  calc
    significand * 10 ^ zeros * 10 ^ exponent.toNat * unitsInOne * 10 ^ (-(exponent + zeros)).toNat =
        significand * unitsInOne *
          10 ^ (zeros + exponent.toNat + (-(exponent + zeros)).toNat) := by
      rw [pow_add, pow_add]
      ring
    _ = significand * 10 ^ (exponent + zeros).toNat * unitsInOne * 10 ^ (-exponent).toNat := by
      rw [powers, pow_add]
      ring

/-- The place of the leading digit of a decimal with a given number of digits is bounded once its
nearest number is finite and not zero. -/
theorem place_bounds {significand length : Nat} {exponent : Int}
    (nonzero : codeOfDecimal ⟨significand, exponent⟩ ≠ 0)
    (finite : codeOfDecimal ⟨significand, exponent⟩ ≠ infinityCode)
    (lower : 10 ^ length ≤ significand * 10) (upper : significand < 10 ^ length) :
    -400 < length + exponent ∧ length + exponent < 402 := by
  have units : unitExponent = 1074 := rfl
  have overflow : overflowExponent = 1024 := rfl
  obtain ⟨bound, bound_eq⟩ : ∃ bound : Nat, bound = 400 := ⟨400, rfl⟩
  rw [codeOfDecimal_eq] at nonzero finite
  simp only [numerator, denominator] at nonzero finite
  constructor
  · by_contra low
    have tiny : significand * 10 ^ exponent.toNat * 10 ^ bound < 10 ^ (-exponent).toNat :=
      calc
        significand * 10 ^ exponent.toNat * 10 ^ bound <
            10 ^ length * 10 ^ exponent.toNat * 10 ^ bound := by gcongr
        _ = 10 ^ (length + exponent.toNat + bound) := by rw [pow_add, pow_add]
        _ ≤ 10 ^ (-exponent).toNat := Nat.pow_le_pow_right (by omega) (by omega)
    exact nonzero (roundCode_small (by omega) tiny)
  · by_contra high
    have huge : 10 ^ bound * 10 ^ (-exponent).toNat ≤ significand * 10 ^ exponent.toNat := by
      apply Nat.le_of_mul_le_mul_right _ (show 0 < 10 by omega)
      calc
        10 ^ bound * 10 ^ (-exponent).toNat * 10 = 10 ^ (bound + (-exponent).toNat + 1) := by
          rw [pow_succ, pow_add]
        _ ≤ 10 ^ (length + exponent.toNat) := Nat.pow_le_pow_right (by omega) (by omega)
        _ = 10 ^ length * 10 ^ exponent.toNat := pow_add _ _ _
        _ ≤ significand * 10 * 10 ^ exponent.toNat := by gcongr
        _ = significand * 10 ^ exponent.toNat * 10 := by ring
    exact finite (roundCode_large (Nat.pow_pos (by omega)) (by omega) huge)

end Binary64

end StackMachine
