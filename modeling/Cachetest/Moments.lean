import Mathlib.Algebra.BigOperators.Group.List.Basic
import Mathlib.Algebra.BigOperators.Ring.List
import Mathlib.Algebra.Order.BigOperators.Group.List
import Mathlib.Algebra.Order.Field.Basic
import Mathlib.Tactic.FieldSimp
import Mathlib.Tactic.Ring

/-!
# Mean and variance

The mean and the population variance of a list of numbers, over any ordered field. `variance_eq` is
the form in which a program that reads its data once computes the variance: from the sum and the
sum of the squares.
-/

namespace Moments

variable {K : Type*} [Field K]

/-- The mean. -/
def mean (xs : List K) : K := xs.sum / xs.length

/-- The population variance: the mean of the squared deviations from the mean. -/
def variance (xs : List K) : K := mean (xs.map fun x => (x - mean xs) ^ 2)

theorem sum_sq_sub (xs : List K) (m : K) :
    (xs.map fun x => (x - m) ^ 2).sum =
      (xs.map fun x => x * x).sum - 2 * m * xs.sum + xs.length * m ^ 2 := by
  induction xs with
  | nil => simp
  | cons x xs ih =>
    simp only [List.map_cons, List.sum_cons, ih, List.length_cons, Nat.cast_succ]
    ring

/-- **The variance from two sums.** It is the mean of the squares less the square of the mean. -/
theorem variance_eq [CharZero K] (xs : List K) :
    variance xs = mean (xs.map fun x => x * x) - mean xs ^ 2 := by
  rcases eq_or_ne xs [] with rfl | hne
  · simp [variance, mean]
  have hlen : (xs.length : K) ≠ 0 := Nat.cast_ne_zero.mpr (List.length_pos_iff.mpr hne).ne'
  rw [variance, mean, sum_sq_sub, mean, mean, List.length_map, List.length_map]
  field_simp
  ring

variable [LinearOrder K] [IsStrictOrderedRing K]

theorem variance_nonneg (xs : List K) : 0 ≤ variance xs := by
  refine div_nonneg (List.sum_nonneg fun d hd => ?_) (Nat.cast_nonneg _)
  obtain ⟨x, -, rfl⟩ := List.mem_map.mp hd
  exact sq_nonneg _

end Moments
