import Mathlib.Tactic.Linarith
import Mathlib.Tactic.Ring
import Mathlib.RingTheory.Coprime.Lemmas

/-!
# Multiplicative generators

A generator `x ↦ a * x mod m`, computed without a product of the size of `m * a`: with
`m = a * q + r`, the number `a * (x mod q) - r * (x / q)` is congruent to `a * x`, and is between
`-m` and `m` as long as `r < q`.
-/

namespace Lehmer

/-- The modulus divided by the multiplier. -/
structure Decomposed (a m q r : Int) : Prop where
  modulus : m = a * q + r
  multiplier_pos : 0 < a
  rest_nonneg : 0 ≤ r
  rest_lt : r < q
  coprime : IsCoprime a m

/-- The difference that stands for the product. -/
def difference (a q r x : Int) : Int := a * (x % q) - r * (x / q)

/-- One step of the generator. -/
def next (a m q r x : Int) : Int :=
  if difference a q r x > 0 then difference a q r x else difference a q r x + m

variable {a m q r x : Int}

theorem Decomposed.difference_eq (h : Decomposed a m q r) (x : Int) :
    difference a q r x = a * x - m * (x / q) := by
  have hdiv := Int.mul_ediv_add_emod x q
  calc difference a q r x = a * (q * (x / q) + x % q) - (a * q + r) * (x / q) := by
        rw [difference]
        ring
    _ = a * x - m * (x / q) := by rw [hdiv, ← h.modulus]

theorem Decomposed.difference_lt (h : Decomposed a m q r) (hx : 0 < x) :
    difference a q r x < m := by
  have hq : 0 < q := h.rest_nonneg.trans_lt h.rest_lt
  have hmod : x % q + 1 ≤ q := Int.emod_lt_of_pos x hq
  have hdiv : 0 ≤ x / q := Int.ediv_nonneg hx.le hq.le
  have hprod : a * (x % q + 1) ≤ a * q := mul_le_mul_of_nonneg_left hmod h.multiplier_pos.le
  have hrest : 0 ≤ r * (x / q) := mul_nonneg h.rest_nonneg hdiv
  have hm := h.modulus
  have ha := h.multiplier_pos
  have hr := h.rest_nonneg
  rw [difference]
  linarith

theorem Decomposed.neg_lt_difference (h : Decomposed a m q r) (hx : 0 < x) (hxm : x < m) :
    -m < difference a q r x := by
  have hq : 0 < q := h.rest_nonneg.trans_lt h.rest_lt
  have hmod : 0 ≤ a * (x % q) := mul_nonneg h.multiplier_pos.le (Int.emod_nonneg x hq.ne')
  have hdiv : 0 ≤ x / q := Int.ediv_nonneg hx.le hq.le
  have hle : r * (x / q) ≤ q * (x / q) := mul_le_mul_of_nonneg_right h.rest_lt.le hdiv
  have hfloor : q * (x / q) ≤ x := Int.mul_ediv_self_le hq.ne'
  rw [difference]
  linarith

theorem Decomposed.emod_pos (h : Decomposed a m q r) (hx : 0 < x) (hxm : x < m) :
    0 < a * x % m := by
  refine lt_of_le_of_ne (Int.emod_nonneg _ (hx.trans hxm).ne') fun hzero => ?_
  have hdvd : m ∣ x := h.coprime.symm.dvd_of_dvd_mul_left (Int.dvd_of_emod_eq_zero hzero.symm)
  exact absurd (Int.le_of_dvd hx hdvd) (not_le.mpr hxm)

theorem Decomposed.next_eq (h : Decomposed a m q r) (hx : 0 < x) (hxm : x < m) :
    next a m q r x = a * x % m := by
  have hpos := h.emod_pos hx hxm
  have hlt := h.difference_lt hx
  have hgt := h.neg_lt_difference hx hxm
  have hmod : a * x % m = difference a q r x % m := by
    rw [h.difference_eq, Int.sub_mul_emod_self_left]
  rw [hmod] at hpos ⊢
  unfold next
  split_ifs with hsign
  · exact (Int.emod_eq_of_lt hsign.le hlt).symm
  · have hne : difference a q r x ≠ 0 := fun hzero => by simp [hzero] at hpos
    rw [← Int.add_emod_right, Int.emod_eq_of_lt (by omega) (by omega)]

theorem Decomposed.next_range (h : Decomposed a m q r) (hx : 0 < x) (hxm : x < m) :
    0 < next a m q r x ∧ next a m q r x < m := by
  rw [h.next_eq hx hxm]
  exact ⟨h.emod_pos hx hxm, Int.emod_lt_of_pos _ (hx.trans hxm)⟩

/-- The modulus itself is a state that is never left. -/
theorem Decomposed.next_modulus (h : Decomposed a m q r) : next a m q r m = m := by
  have hq : 0 < q := h.rest_nonneg.trans_lt h.rest_lt
  have hdiv : m / q = a := by
    rw [h.modulus, Int.mul_comm, Int.add_comm, Int.add_mul_ediv_left _ _ hq.ne',
      Int.ediv_eq_zero_of_lt h.rest_nonneg h.rest_lt, Int.zero_add]
  have hzero : difference a q r m = 0 := by
    rw [h.difference_eq, hdiv]
    ring
  simp [next, hzero]

end Lehmer
