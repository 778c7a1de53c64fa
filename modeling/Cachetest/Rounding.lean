import Mathlib.Algebra.Order.Ring.Pow
import Cachetest.Binary64

/-!
# Errors that add up

Rounding is monotone and leaves a rounded number alone, so a sum of positive terms never shrinks
when it is taken term by term. `Near ρ n a b` bounds a quotient by `ρ` to the power `n` from both
sides: every operation on numbers known that well gives a number known that well, and a rounding
costs one factor more.
-/

namespace Binary64

/-! ## Monotone rounding -/

theorem le_roundEven {z : Int} {q : ℚ} (h : (z : ℚ) ≤ q) : z ≤ roundEven q := by
  have hfloor : z ≤ ⌊q⌋ := Int.le_floor.mpr h
  unfold roundEven
  split_ifs <;> omega

theorem roundEven_le {z : Int} {q : ℚ} (h : q ≤ z) : roundEven q ≤ z := by
  rcases h.lt_or_eq with hlt | rfl
  · have hfloor : ⌊q⌋ < z := Int.floor_lt.mpr hlt
    unfold roundEven
    split_ifs <;> omega
  · exact (roundEven_intCast z).le

theorem roundEven_mono {p q : ℚ} (h : p ≤ q) : roundEven p ≤ roundEven q := by
  rcases (Int.floor_le_floor h).lt_or_eq with hlt | heq
  · -- an integer lies between the two
    have hp : roundEven p ≤ ⌊p⌋ + 1 := roundEven_le (by exact_mod_cast (Int.lt_floor_add_one p).le)
    exact hp.trans (le_roundEven (Int.le_floor.mp hlt))
  · unfold roundEven
    rw [← heq]
    split_ifs <;> first | omega | linarith

theorem zpow_log_eq (q : ℚ) : (2 : ℚ) ^ Int.log 2 q = ((2 ^ 52 : Int) : ℚ) * ulp q := by
  rw [ulp, zpow_sub₀ two_ne_zero]
  norm_num
  ring

theorem zpow_log_add_one_eq (q : ℚ) :
    (2 : ℚ) ^ (Int.log 2 q + 1) = ((2 ^ 53 : Int) : ℚ) * ulp q := by
  rw [zpow_add_one₀ two_ne_zero, zpow_log_eq]
  norm_num
  ring

/-- The powers of two around a number are around the rounded number too. -/
theorem round_range {q : ℚ} (hq : 0 < q) :
    (2 : ℚ) ^ Int.log 2 q ≤ round q ∧ round q ≤ (2 : ℚ) ^ (Int.log 2 q + 1) := by
  have hpos := ulp_pos q
  have hlow : (2 : ℚ) ^ Int.log 2 q ≤ q := by exact_mod_cast Int.zpow_log_le_self Nat.one_lt_two hq
  have hhigh : q < (2 : ℚ) ^ (Int.log 2 q + 1) := by
    exact_mod_cast Int.lt_zpow_succ_log_self Nat.one_lt_two q
  rw [zpow_log_eq] at hlow ⊢
  rw [zpow_log_add_one_eq] at hhigh ⊢
  constructor
  · refine mul_le_mul_of_nonneg_right (Int.cast_le.mpr (le_roundEven ?_)) hpos.le
    rwa [le_div_iff₀ hpos]
  · refine mul_le_mul_of_nonneg_right (Int.cast_le.mpr (roundEven_le ?_)) hpos.le
    rw [div_le_iff₀ hpos]
    exact hhigh.le

theorem round_pos {q : ℚ} (hq : 0 < q) : 0 < round q :=
  (zpow_pos two_pos _).trans_le (round_range hq).1

theorem round_mono {p q : ℚ} (hp : 0 < p) (h : p ≤ q) : round p ≤ round q := by
  rcases (Int.log_mono_right hp h : Int.log 2 p ≤ Int.log 2 q).lt_or_eq with hlt | heq
  · calc round p ≤ (2 : ℚ) ^ (Int.log 2 p + 1) := (round_range hp).2
      _ ≤ (2 : ℚ) ^ Int.log 2 q := zpow_le_zpow_right₀ one_le_two hlt
      _ ≤ round q := (round_range (hp.trans_le h)).1
  · have hulp : ulp p = ulp q := by rw [ulp, ulp, heq]
    rw [round, round, hulp]
    exact mul_le_mul_of_nonneg_right
      (Int.cast_le.mpr (roundEven_mono (div_le_div_of_nonneg_right h (ulp_pos q).le)))
      (ulp_pos q).le

theorem round_of_eq_mul {q : ℚ} {z : Int} (h : q = z * ulp q) : round q = q := by
  have hint : q / ulp q = z := by rw [div_eq_iff (ulp_pos q).ne', ← h]
  rw [round, hint, roundEven_intCast, ← h]

@[simp] theorem round_zpow (e : Int) : round (2 ^ e) = 2 ^ e := by
  have hlog : Int.log 2 ((2 : ℚ) ^ e) = e := Int.log_zpow Nat.one_lt_two e
  refine round_of_eq_mul (z := 2 ^ 52) ?_
  rw [← zpow_log_eq, hlog]

theorem round_round {q : ℚ} (hq : 0 < q) : round (round q) = round q := by
  obtain ⟨hlow, hhigh⟩ := round_range hq
  rcases hhigh.lt_or_eq with hlt | heq
  · -- rounding has not changed the unit
    have hpos := round_pos hq
    have hlog : Int.log 2 (round q) = Int.log 2 q := by
      refine le_antisymm (Int.lt_add_one_iff.mp ?_) ?_
      · exact (Int.lt_zpow_iff_log_lt Nat.one_lt_two hpos).mp (by exact_mod_cast hlt)
      · exact (Int.zpow_le_iff_le_log Nat.one_lt_two hpos).mp (by exact_mod_cast hlow)
    refine round_of_eq_mul (z := roundEven (q / ulp q)) ?_
    have hulp : ulp (round q) = ulp q := by rw [ulp, ulp, hlog]
    rw [hulp, ← round]
  · rw [heq, round_zpow]

/-! ## Relative errors -/

/-- `b` is `a` up to `n` factors between `ρ` and its inverse. -/
structure Near (ρ : ℚ) (n : Nat) (a b : ℚ) : Prop where
  low : a * ρ ^ n ≤ b
  high : b * ρ ^ n ≤ a

section Near

variable {ρ a b c a' b' : ℚ} {n k : Nat}

theorem Near.refl (a : ℚ) : Near ρ 0 a a := ⟨by simp, by simp⟩

theorem Near.symm (h : Near ρ n a b) : Near ρ n b a := ⟨h.high, h.low⟩

theorem Near.trans (hρ : 0 ≤ ρ) (h : Near ρ n a b) (h' : Near ρ k b c) : Near ρ (n + k) a c where
  low := by
    calc a * ρ ^ (n + k) = a * ρ ^ n * ρ ^ k := by rw [pow_add, mul_assoc]
      _ ≤ b * ρ ^ k := mul_le_mul_of_nonneg_right h.low (pow_nonneg hρ k)
      _ ≤ c := h'.low
  high := by
    calc c * ρ ^ (n + k) = c * ρ ^ k * ρ ^ n := by rw [pow_add, mul_comm (ρ ^ n), mul_assoc]
      _ ≤ b * ρ ^ n := mul_le_mul_of_nonneg_right h'.high (pow_nonneg hρ n)
      _ ≤ a := h.high

theorem Near.mono (hρ : 0 ≤ ρ) (hρ' : ρ ≤ 1) (ha : 0 ≤ a) (hb : 0 ≤ b) (h : Near ρ n a b)
    (hk : n ≤ k) : Near ρ k a b where
  low := (mul_le_mul_of_nonneg_left (pow_le_pow_of_le_one hρ hρ' hk) ha).trans h.low
  high := (mul_le_mul_of_nonneg_left (pow_le_pow_of_le_one hρ hρ' hk) hb).trans h.high

theorem Near.add (h : Near ρ n a b) (h' : Near ρ n a' b') : Near ρ n (a + a') (b + b') where
  low := by
    rw [add_mul]
    exact add_le_add h.low h'.low
  high := by
    rw [add_mul]
    exact add_le_add h.high h'.high

theorem Near.mul_right (h : Near ρ n a b) (hc : 0 ≤ c) : Near ρ n (a * c) (b * c) where
  low := by
    rw [mul_right_comm]
    exact mul_le_mul_of_nonneg_right h.low hc
  high := by
    rw [mul_right_comm]
    exact mul_le_mul_of_nonneg_right h.high hc

theorem Near.inv (ha : 0 < a) (hb : 0 < b) (h : Near ρ n a b) : Near ρ n a⁻¹ b⁻¹ where
  low := by
    rw [inv_mul_le_iff₀ ha, ← div_eq_mul_inv, le_div_iff₀ hb, mul_comm]
    exact h.high
  high := by
    rw [inv_mul_le_iff₀ hb, ← div_eq_mul_inv, le_div_iff₀ ha, mul_comm]
    exact h.low

end Near

/-- One part in `2 ^ 53` less than 1. -/
def unitLoss : ℚ := 1 - 1 / 2 ^ 53

theorem unitLoss_pos : 0 < unitLoss := by norm_num [unitLoss]

theorem unitLoss_le_one : unitLoss ≤ 1 := by norm_num [unitLoss]

/-- A rounding is a factor. -/
theorem near_round {q : ℚ} (hq : 0 < q) : Near unitLoss 1 q (round q) := by
  obtain ⟨hlow, hhigh⟩ := round_bounds hq
  constructor
  · rw [pow_one, unitLoss]
    linarith
  · rw [pow_one]
    calc round q * unitLoss ≤ (q + q / 2 ^ 53) * unitLoss :=
          mul_le_mul_of_nonneg_right hhigh unitLoss_pos.le
      _ = q * (1 - 1 / 2 ^ 106) := by
          rw [unitLoss]
          ring
      _ ≤ q := mul_le_of_le_one_right hq.le (by norm_num)

theorem one_sub_le_unitLoss_pow (n : Nat) : 1 - n / 2 ^ 53 ≤ unitLoss ^ n := by
  have h := one_add_mul_le_pow (a := -(1 / 2 ^ 53 : ℚ)) (by norm_num) n
  have hloss : unitLoss = 1 + -(1 / 2 ^ 53) := by rw [unitLoss, sub_eq_add_neg]
  rw [hloss]
  linarith

end Binary64
