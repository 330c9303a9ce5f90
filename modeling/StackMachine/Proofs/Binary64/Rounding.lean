import Mathlib.Algebra.Order.Ring.Nat
import Mathlib.Tactic.Ring
import StackMachine.Binary64.Basic

/-!
# Rounding to binary64

Rounding depends on the value of a ratio alone, keeps every magnitude that has a code, and gives
zero below half a unit and infinity from `2^1024` on.
-/

namespace StackMachine

namespace Binary64

theorem exponentWeight_eq : exponentWeight = 2 ^ 52 := by
  decide

/-- One is two to this power, counted in units. -/
def unitExponent : Nat := 1074

/-- From two to this power on, magnitudes are infinite. -/
def overflowExponent : Nat := 1024

theorem unitsInOne_eq : unitsInOne = 2 ^ unitExponent :=
  Nat.one_shiftLeft unitExponent

theorem unitsInOne_pos : 0 < unitsInOne := by
  rw [unitsInOne_eq]
  exact Nat.two_pow_pos unitExponent

/-! ## Bits -/

theorem bits_lt (x : Binary64) : x.bits.toNat < 2 * signWeight :=
  x.bits.toNat_lt

/-- A number is its sign and its code. -/
@[simp]
theorem ofCode_code (x : Binary64) : ofCode x.negative x.code = x := by
  have bound := x.bits_lt
  obtain ⟨bits⟩ := x
  simp only [ofCode, negative, code, mk.injEq] at bound ⊢
  apply UInt64.toNat_inj.mp
  rw [UInt64.toNat_ofNat']
  by_cases large : signWeight ≤ bits.toNat
  · simp only [large, decide_true, if_true]
    simp only [signWeight] at large bound ⊢
    omega
  · simp only [large, decide_false, Bool.false_eq_true, if_false]
    simp only [signWeight] at large bound ⊢
    omega

/-! ## Nearest integers -/

theorem nearestEven_mul (numerator denominator : Nat) {scale : Nat} (positive : 0 < scale) :
    nearestEven (numerator * scale) (denominator * scale) = nearestEven numerator denominator := by
  have quotient : numerator * scale / (denominator * scale) = numerator / denominator :=
    Nat.mul_div_mul_right numerator denominator positive
  have remainder :
      numerator * scale % (denominator * scale) = numerator % denominator * scale :=
    Nat.mul_mod_mul_right scale numerator denominator
  have double : 2 * (numerator % denominator * scale) = 2 * (numerator % denominator) * scale := by
    ring
  simp only [nearestEven, quotient, remainder, double, Nat.mul_lt_mul_right positive]

theorem nearestEven_mul_self (value : Nat) {denominator : Nat} (positive : 0 < denominator) :
    nearestEven (value * denominator) denominator = value := by
  simp [nearestEven, Nat.mul_div_cancel value positive, positive]

theorem div_le_nearestEven (numerator denominator : Nat) :
    numerator / denominator ≤ nearestEven numerator denominator := by
  simp only [nearestEven]
  split
  · exact Nat.le_refl _
  · split
    · exact Nat.le_succ _
    · split
      · exact Nat.le_refl _
      · exact Nat.le_succ _

/-! ## Codes -/

theorem roundCode_mul (numerator denominator : Nat) {scale : Nat} (positive : 0 < scale) :
    roundCode (numerator * scale) (denominator * scale) = roundCode numerator denominator := by
  have quotient : numerator * scale / (denominator * scale) = numerator / denominator :=
    Nat.mul_div_mul_right numerator denominator positive
  have shifted (shift : Nat) : (denominator * scale) <<< shift = denominator <<< shift * scale := by
    simp only [Nat.shiftLeft_eq]
    ring
  simp only [roundCode, quotient, shifted, nearestEven_mul _ _ positive]

/-- Equal ratios are rounded alike. -/
theorem roundCode_congr {numerator denominator numerator' denominator' : Nat}
    (positive : 0 < denominator) (positive' : 0 < denominator')
    (ratio : numerator * denominator' = numerator' * denominator) :
    roundCode numerator denominator = roundCode numerator' denominator' := by
  rw [← roundCode_mul numerator denominator positive', ratio, Nat.mul_comm denominator,
    roundCode_mul numerator' denominator' positive]

theorem roundCode_eq_zero {numerator denominator : Nat} (small : 2 * numerator < denominator) :
    roundCode numerator denominator = 0 := by
  have quotient : numerator / denominator = 0 := Nat.div_eq_of_lt (by omega)
  have remainder : numerator % denominator = numerator := Nat.mod_eq_of_lt (by omega)
  simp [roundCode, nearestEven, quotient, remainder, small]

theorem roundCode_eq_infinityCode {numerator denominator : Nat}
    (large : 2 ^ (overflowExponent + unitExponent) ≤ numerator / denominator) :
    roundCode numerator denominator = infinityCode := by
  have nonzero : numerator / denominator ≠ 0 :=
    Nat.ne_of_gt (Nat.lt_of_lt_of_le (Nat.two_pow_pos _) large)
  have high : overflowExponent + unitExponent ≤ (numerator / denominator).log2 :=
    (Nat.le_log2 nonzero).mpr large
  have overflow_eq : overflowExponent = 1024 := rfl
  have unit_eq : unitExponent = 1074 := rfl
  obtain ⟨shift, shift_eq⟩ : ∃ shift, (numerator / denominator).log2 = shift + 52 :=
    ⟨_, (Nat.sub_add_cancel (by omega)).symm⟩
  -- The significand keeps its fifty-three bits, so the exponent alone reaches the bound.
  have significand : exponentWeight ≤ nearestEven numerator (denominator <<< shift) := by
    refine Nat.le_trans ?_ (div_le_nearestEven _ _)
    rw [Nat.shiftLeft_eq, ← Nat.div_div_eq_div_mul, exponentWeight_eq,
      Nat.le_div_iff_mul_le (Nat.two_pow_pos shift), ← Nat.pow_add, Nat.add_comm 52, ← shift_eq]
    exact Nat.log2_self_le nonzero
  have exponent : 2046 * exponentWeight ≤ shift * exponentWeight :=
    Nat.mul_le_mul_right _ (by omega)
  simp only [roundCode, shift_eq, Nat.add_sub_cancel]
  apply Nat.min_eq_right
  simp only [infinityCode]
  omega

theorem log2_mul_two_pow {significand exponent : Nat} (lower : exponentWeight ≤ significand)
    (upper : significand < 2 * exponentWeight) :
    (significand * 2 ^ exponent).log2 = 52 + exponent := by
  rw [exponentWeight_eq] at lower upper
  have positive : 0 < significand * 2 ^ exponent :=
    Nat.mul_pos (by omega) (Nat.two_pow_pos exponent)
  apply (Nat.log2_eq_iff (Nat.ne_of_gt positive)).mpr
  constructor
  · rw [pow_add]
    exact Nat.mul_le_mul_right _ lower
  · rw [show 52 + exponent + 1 = 53 + exponent by omega, pow_add]
    exact Nat.mul_lt_mul_of_pos_right (by omega) (Nat.two_pow_pos exponent)

/-- Every finite magnitude is rounded to its own code. -/
theorem roundCode_magnitudeOfCode {code : Nat} (finite : code < infinityCode) :
    roundCode (magnitudeOfCode code) 1 = code := by
  have split := Nat.div_add_mod code exponentWeight
  have fraction_lt : code % exponentWeight < exponentWeight := Nat.mod_lt _ (by decide)
  simp only [magnitudeOfCode]
  by_cases subnormal : code / exponentWeight = 0
  · have below : code < exponentWeight := by
      rw [subnormal] at split
      omega
    have shift : code.log2 - 52 = 0 := by
      by_cases zero : code = 0
      · rw [zero]
        rfl
      · have := (Nat.log2_lt zero).mpr (exponentWeight_eq ▸ below)
        omega
    have exact := nearestEven_mul_self code Nat.one_pos
    rw [Nat.mul_one] at exact
    rw [if_pos subnormal, Nat.mod_eq_of_lt below]
    simp only [roundCode, Nat.div_one, shift, Nat.shiftLeft_zero, exact, Nat.zero_mul,
      Nat.zero_add]
    exact Nat.min_eq_left (by omega)
  · obtain ⟨exponent, exponent_eq⟩ := Nat.exists_eq_succ_of_ne_zero subnormal
    rw [if_neg subnormal, exponent_eq, Nat.succ_sub_one, Nat.shiftLeft_eq]
    rw [exponent_eq] at split
    have total : exponent * exponentWeight + (exponentWeight + code % exponentWeight) = code :=
      calc
        exponent * exponentWeight + (exponentWeight + code % exponentWeight) =
            exponentWeight * (exponent + 1) + code % exponentWeight := by ring
        _ = code := split
    have high : ((exponentWeight + code % exponentWeight) * 2 ^ exponent).log2 = 52 + exponent :=
      log2_mul_two_pow (by omega) (by omega)
    have exact := nearestEven_mul_self (exponentWeight + code % exponentWeight)
      (Nat.two_pow_pos exponent)
    simp only [roundCode, Nat.div_one, high, Nat.add_sub_cancel_left, Nat.one_shiftLeft, exact,
      total]
    exact Nat.min_eq_left (Nat.le_of_lt finite)

end Binary64

end StackMachine
