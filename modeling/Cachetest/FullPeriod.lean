import Mathlib.GroupTheory.OrderOfElement
import Mathlib.Data.ZMod.Basic
import Mathlib.Algebra.Field.ZMod
import Mathlib.Data.Int.Interval
import Mathlib.Data.Int.ConditionallyCompleteOrder
import Cachetest.Lehmer

/-!
# Generators with the full period

When the multiplier has the largest possible order modulo a prime, the generator runs through all
residues but 0: in as many steps as there are, every state comes up once. So what holds of a number
of residues holds of as many of the states in a period (`card_iterate`).
-/

namespace Lehmer

/-- The multiplier generates all residues modulo the prime `m` but 0. -/
structure FullPeriod (a : Int) (m : Nat) : Prop where
  prime : m.Prime
  order : orderOf (a : ZMod m) = m - 1

/-- Lucas's criterion for the order. -/
theorem FullPeriod.of_pow {a : Int} {m : Nat} (hm : m.Prime) (hone : (a : ZMod m) ^ (m - 1) = 1)
    (hne : ∀ q : Nat, q.Prime → q ∣ m - 1 → (a : ZMod m) ^ ((m - 1) / q) ≠ 1) : FullPeriod a m where
  prime := hm
  order := orderOf_eq_of_pow_and_pow_div_prime (Nat.sub_pos_of_lt hm.one_lt) hone hne

variable {a : Int} {m : Nat} {next : Int → Int}

/-- A generator modulo `m` with multiplier `a`. -/
def Generates (next : Int → Int) (a : Int) (m : Nat) : Prop :=
  ∀ x : Int, 0 < x → x < m → (0 < next x ∧ next x < m) ∧ next x = a * x % m

theorem Decomposed.generates {m : Nat} {q r : Int} (h : Decomposed a m q r) :
    Generates (Lehmer.next a m q r) a m :=
  fun _ hx hxm => ⟨h.next_range hx hxm, h.next_eq hx hxm⟩

theorem Generates.iterate_range (h : Generates next a m) {x : Int} (hx : 0 < x) (hxm : x < m)
    (n : Nat) : 0 < next^[n] x ∧ next^[n] x < m := by
  induction n with
  | zero => exact ⟨hx, hxm⟩
  | succ n ih =>
    rw [Function.iterate_succ_apply']
    exact (h _ ih.1 ih.2).1

theorem Generates.cast_iterate (h : Generates next a m) {x : Int} (hx : 0 < x) (hxm : x < m)
    (n : Nat) : ((next^[n] x : Int) : ZMod m) = (a : ZMod m) ^ n * x := by
  induction n with
  | zero => simp
  | succ n ih =>
    obtain ⟨hpos, hlt⟩ := h.iterate_range hx hxm n
    rw [Function.iterate_succ_apply', (h _ hpos hlt).2, ZMod.intCast_mod, Int.cast_mul, ih,
      pow_succ']
    ring

/-- No state comes up twice in a period. -/
theorem Generates.iterate_injOn (h : Generates next a m) (hfull : FullPeriod a m) {x : Int}
    (hx : 0 < x) (hxm : x < m) :
    Set.InjOn (fun n => next^[n] x) (Finset.range (m - 1) : Set Nat) := by
  have : Fact m.Prime := ⟨hfull.prime⟩
  have hne : ((x : Int) : ZMod m) ≠ 0 := by
    rw [Ne, ZMod.intCast_zmod_eq_zero_iff_dvd]
    exact fun hdvd => absurd (Int.le_of_dvd hx hdvd) (not_le.mpr hxm)
  intro i hi j hj hij
  have hcast : (a : ZMod m) ^ i * x = (a : ZMod m) ^ j * x := by
    rw [← h.cast_iterate hx hxm, ← h.cast_iterate hx hxm]
    exact congrArg (fun y : Int => (y : ZMod m)) hij
  refine pow_injOn_Iio_orderOf ?_ ?_ (mul_right_cancel₀ hne hcast)
  · rw [hfull.order]
    simpa using hi
  · rw [hfull.order]
    simpa using hj

/-- In a period every state comes up once. -/
theorem Generates.image_iterate (h : Generates next a m) (hfull : FullPeriod a m) {x : Int}
    (hx : 0 < x) (hxm : x < m) :
    (Finset.range (m - 1)).image (fun n => next^[n] x) = Finset.Ioo 0 (m : Int) := by
  refine Finset.eq_of_subset_of_card_le (fun y hy => ?_) ?_
  · obtain ⟨n, -, rfl⟩ := Finset.mem_image.mp hy
    exact Finset.mem_Ioo.mpr (h.iterate_range hx hxm n)
  · rw [Finset.card_image_of_injOn (h.iterate_injOn hfull hx hxm), Finset.card_range, Int.card_Ioo]
    omega

/-- In a period as many states have a property as there are residues that have it. -/
theorem Generates.card_iterate (h : Generates next a m) (hfull : FullPeriod a m) {x : Int}
    (hx : 0 < x) (hxm : x < m) (P : Int → Prop) [DecidablePred P] :
    ((Finset.range (m - 1)).filter fun n => P (next^[n] x)).card =
      ((Finset.Ioo 0 (m : Int)).filter P).card := by
  rw [← h.image_iterate hfull hx hxm, Finset.filter_image,
    Finset.card_image_of_injOn ((h.iterate_injOn hfull hx hxm).mono ?_)]
  exact Finset.coe_subset.mpr (Finset.filter_subset _ _)

end Lehmer
