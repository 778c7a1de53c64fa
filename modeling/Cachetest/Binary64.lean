import Mathlib.Data.Int.Log
import Mathlib.Data.Rat.Floor
import Mathlib.Tactic.Linarith
import Mathlib.Tactic.NormNum

/-!
# Quotients of binary64 numbers

A `double` in the normal range, as the rational it stands for: a quotient is rounded to the nearest
multiple of the unit in its last place, and to the even one of two.
-/

namespace Binary64

/-- The nearest integer, the even one of two. -/
def roundEven (q : ℚ) : Int :=
  if q - ⌊q⌋ < 1 / 2 then ⌊q⌋
  else if 1 / 2 < q - ⌊q⌋ then ⌊q⌋ + 1
  else if ⌊q⌋ % 2 = 0 then ⌊q⌋ else ⌊q⌋ + 1

/-- The unit in the last place of a number with 53 significant bits. -/
def ulp (q : ℚ) : ℚ := 2 ^ (Int.log 2 q - 52)

/-- The `double` for a positive number of the normal range. -/
def round (q : ℚ) : ℚ := roundEven (q / ulp q) * ulp q

/-- The same for a number of either sign. -/
def nearest (q : ℚ) : ℚ := if q < 0 then -round (-q) else round q

/-- `(double) a / b`. -/
def div (a b : Int) : ℚ := round (a / b)

theorem roundEven_error (q : ℚ) : |(roundEven q : ℚ) - q| ≤ 1 / 2 := by
  have hfloor := Int.floor_le q
  have hceil := Int.lt_floor_add_one q
  unfold roundEven
  split_ifs with hlow hhigh heven <;> rw [abs_le] <;> push_cast <;> constructor <;> linarith

@[simp] theorem roundEven_intCast (z : Int) : roundEven z = z := by
  simp [roundEven]

theorem ulp_pos (q : ℚ) : 0 < ulp q := zpow_pos two_pos _

theorem ulp_le {q : ℚ} (hq : 0 < q) : ulp q ≤ q / 2 ^ 52 := by
  have hlog : (2 : ℚ) ^ Int.log 2 q ≤ q := by exact_mod_cast Int.zpow_log_le_self Nat.one_lt_two hq
  rw [ulp, zpow_sub₀ two_ne_zero]
  exact div_le_div_of_nonneg_right hlog (by norm_num)

/-- Rounding moves a number by half a unit at most. -/
theorem round_error (q : ℚ) : |round q - q| ≤ ulp q / 2 := by
  have hpos := ulp_pos q
  have herror := mul_le_mul_of_nonneg_right (roundEven_error (q / ulp q)) hpos.le
  calc |round q - q| = |(roundEven (q / ulp q) : ℚ) - q / ulp q| * ulp q := by
        rw [← abs_of_pos hpos, ← abs_mul, abs_of_pos hpos, sub_mul, div_mul_cancel₀ _ hpos.ne',
          round]
    _ ≤ ulp q / 2 := by linarith

theorem round_bounds {q : ℚ} (hq : 0 < q) :
    q - q / 2 ^ 53 ≤ round q ∧ round q ≤ q + q / 2 ^ 53 := by
  have hulp := ulp_le hq
  have herror := abs_le.mp (round_error q)
  constructor <;> linarith

@[simp] theorem round_one : round 1 = 1 := by
  have hulp : ulp 1 = 1 / 2 ^ 52 := by norm_num [ulp]
  have hint : (1 : ℚ) / ulp 1 = ((2 ^ 52 : Int) : ℚ) := by rw [hulp]; norm_num
  rw [round, hint, roundEven_intCast, hulp]
  norm_num

/-- A quotient whose denominator needs at most 32 bits is not rounded up to 1. -/
theorem div_bounds {a b : Int} (ha : 0 < a) (hab : a < b) (hb : b < 2 ^ 32) :
    0 < div a b ∧ div a b < 1 := by
  have hapos : (0 : ℚ) < a := Int.cast_pos.mpr ha
  have hbpos : (0 : ℚ) < b := Int.cast_pos.mpr (ha.trans hab)
  have hq : (0 : ℚ) < a / b := div_pos hapos hbpos
  have hlt : (a : ℚ) / b ≤ 1 - 1 / 2 ^ 32 := by
    have hle : (a : ℚ) ≤ b - 1 := by exact_mod_cast Int.le_sub_one_of_lt hab
    have hb' : (b : ℚ) ≤ 2 ^ 32 := by exact_mod_cast hb.le
    rw [div_le_iff₀ hbpos]
    linarith
  obtain ⟨hlow, hhigh⟩ := round_bounds hq
  constructor <;> rw [div] <;> linarith

theorem div_self {a : Int} (ha : a ≠ 0) : div a a = 1 := by
  rw [div, div_eq_mul_inv, mul_inv_cancel₀ (Int.cast_ne_zero.mpr ha), round_one]

end Binary64
