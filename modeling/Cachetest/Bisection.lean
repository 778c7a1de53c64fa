import Mathlib.Order.Basic
import Mathlib.Tactic.Ring

/-!
# The last midpoint of a bisection

A bisection for the least index that passes a monotone test narrows `[min, max)` until it is empty,
and then both bounds are that index. This file is about the midpoint that was tested last. It is the
least passing index itself if the search has come down to a window of that index alone, and the
index before it otherwise. Which windows occur depends on the length only: the midpoints form the
tree of `IsLeaf`.
-/

namespace Bisection

/-- The midpoint tested last by the bisection of `[min, max)`; `mid` when nothing is tested. -/
def lastMid (test : Nat → Bool) (min max mid : Nat) : Nat :=
  if min < max then
    if test ((max + min) / 2) then lastMid test min ((max + min) / 2) ((max + min) / 2)
    else lastMid test ((max + min) / 2 + 1) max ((max + min) / 2)
  else mid
termination_by max - min

/-- Index `i` is the only one of some window that a bisection of `n` indices narrows down to. -/
def IsLeaf (n i : Nat) : Bool :=
  if n ≤ 1 then n == 1 && i == 0
  else if i < n / 2 then IsLeaf (n / 2) i
  else if i = n / 2 then false
  else IsLeaf (n - n / 2 - 1) (i - n / 2 - 1)
termination_by n

/-! ## Leaves -/

theorem isLeaf_one : IsLeaf 1 0 = true := by
  rw [IsLeaf]
  rfl

theorem not_isLeaf_of_le {n i : Nat} (h : n ≤ i) : IsLeaf n i = false := by
  fun_induction IsLeaf n i with
  | case1 n i hn =>
    simp only [Bool.and_eq_false_iff, beq_eq_false_iff_ne]
    omega
  | case2 n i hn hlt ih => omega
  | case3 n hn => rfl
  | case4 n i hn hge hne ih => exact ih (by omega)

theorem not_isLeaf_half {n : Nat} (h : 2 ≤ n) : IsLeaf n (n / 2) = false := by
  rw [IsLeaf, if_neg (by omega), if_neg (Nat.lt_irrefl _), if_pos rfl]

theorem isLeaf_left {n i : Nat} (h : 2 ≤ n) (hi : i < n / 2) : IsLeaf n i = IsLeaf (n / 2) i := by
  rw [IsLeaf, if_neg (by omega), if_pos hi]

theorem isLeaf_right {n i : Nat} (h : 2 ≤ n) :
    IsLeaf n (n / 2 + 1 + i) = IsLeaf (n - n / 2 - 1) i := by
  rw [IsLeaf, if_neg (by omega), if_neg (by omega), if_neg (by omega)]
  congr 1
  omega

/-! ## The search -/

/-- With `a` the least index that passes, the bisection ends at `a` or right before it. -/
theorem lastMid_eq (test : Nat → Bool) {min max a : Nat} (mid : Nat) (hlt : min < max)
    (hmin : min ≤ a) (hmax : a ≤ max) (hbelow : ∀ i, min ≤ i → i < a → test i = false)
    (habove : ∀ i, a ≤ i → i < max → test i = true) :
    lastMid test min max mid = if IsLeaf (max - min) (a - min) then a else a - 1 := by
  have hwindow : ∀ {min max : Nat}, min < max → (max + min) / 2 - min = (max - min) / 2 := by omega
  fun_induction lastMid test min max mid with
  | case1 min max mid _ htest ih =>
    have hle : a ≤ (max + min) / 2 := by
      by_contra hgt
      rw [hbelow _ (by omega) (Nat.lt_of_not_le hgt)] at htest
      exact Bool.false_ne_true htest
    by_cases hleft : min < (max + min) / 2
    · rw [ih hleft hmin hle hbelow (fun i hi hi' => habove i hi (by omega)), hwindow hlt]
      rcases Nat.lt_or_eq_of_le hle with hlt' | heq
      · rw [isLeaf_left (n := max - min) (by omega) (by omega)]
      · -- The first midpoint is the least index itself.
        rw [heq, hwindow hlt, not_isLeaf_half (by omega), not_isLeaf_of_le le_rfl]
    · obtain rfl : a = min := by omega
      rw [lastMid, if_neg hleft, show max - a = 1 by omega, Nat.sub_self, isLeaf_one, if_pos rfl]
      omega
  | case2 min max mid _ htest ih =>
    have hgt : (max + min) / 2 < a := by
      by_contra hle
      exact htest (habove _ (Nat.le_of_not_lt hle) (by omega))
    by_cases hright : (max + min) / 2 + 1 < max
    · rw [ih hright hgt hmax (fun i hi hi' => hbelow i (by omega) hi') habove]
      have hindex : a - min = (max - min) / 2 + 1 + (a - ((max + min) / 2 + 1)) := by omega
      have hrest : max - min - (max - min) / 2 - 1 = max - ((max + min) / 2 + 1) := by omega
      rw [hindex, isLeaf_right (by omega), hrest]
    · rw [lastMid, if_neg hright, not_isLeaf_of_le (by omega)]
      simp only [Bool.false_eq_true, if_false]
      omega
  | case3 min max mid h => exact absurd hlt h

end Bisection
