import Mathlib.Logic.Function.Basic
import Mathlib.Data.Nat.Init

/-!
# Words mixed with their own shifts

Mixing a word with a shift of itself loses nothing: the bits at the end it is shifted away from are
left as they are, and give the others one after the other.
-/

namespace XorShift

variable {w k : Nat}

/-- The highest bits first. -/
theorem xor_ushiftRight_injective (hk : 0 < k) :
    Function.Injective fun x : BitVec w => x ^^^ x >>> k := by
  intro x y hxy
  have hbits : ∀ n i, w ≤ i + n → x.getLsbD i = y.getLsbD i := by
    intro n
    induction n with
    | zero => exact fun i hi => by rw [BitVec.getLsbD_of_ge x i hi, BitVec.getLsbD_of_ge y i hi]
    | succ n ih =>
      intro i hi
      have hbit : (x ^^^ x >>> k).getLsbD i = (y ^^^ y >>> k).getLsbD i :=
        congrArg (fun z => BitVec.getLsbD z i) hxy
      rw [BitVec.getLsbD_xor, BitVec.getLsbD_xor, BitVec.getLsbD_ushiftRight,
        BitVec.getLsbD_ushiftRight, ih (k + i) (by omega)] at hbit
      exact Bool.xor_left_inj.mp hbit
  exact BitVec.eq_of_getLsbD_eq fun i _ => hbits w i (Nat.le_add_left w i)

/-- The lowest bits first; a mask may hide bits of the shift. -/
theorem xor_shiftLeft_and_injective (hk : 0 < k) (mask : BitVec w) :
    Function.Injective fun x : BitVec w => x ^^^ (x <<< k &&& mask) := by
  intro x y hxy
  refine BitVec.eq_of_getLsbD_eq fun i hi => ?_
  induction i using Nat.strong_induction_on with
  | h i ih =>
    have hbit : (x ^^^ (x <<< k &&& mask)).getLsbD i = (y ^^^ (y <<< k &&& mask)).getLsbD i :=
      congrArg (fun z => BitVec.getLsbD z i) hxy
    simp only [BitVec.getLsbD_xor, BitVec.getLsbD_and, BitVec.getLsbD_shiftLeft] at hbit
    by_cases hlow : i < k
    · simpa [hlow] using hbit
    · rw [ih (i - k) (by omega) (by omega)] at hbit
      exact Bool.xor_left_inj.mp hbit

/-! ## Wider words -/

theorem and_setWidth {v : Nat} (x : BitVec w) (mask : BitVec v) :
    x &&& mask.setWidth w = (x.setWidth v &&& mask).setWidth w := by
  refine BitVec.eq_of_getLsbD_eq fun i hi => ?_
  simp only [BitVec.getLsbD_and, BitVec.getLsbD_setWidth]
  by_cases hv : i < v
  · simp [hi, hv]
  · simp [BitVec.getLsbD_of_ge mask i (Nat.le_of_not_lt hv)]

theorem setWidth_injective {v : Nat} (hvw : v ≤ w) :
    Function.Injective (BitVec.setWidth w : BitVec v → BitVec w) := by
  intro x y hxy
  have hback := congrArg (BitVec.setWidth v) hxy
  rwa [BitVec.setWidth_setWidth_of_le x hvw, BitVec.setWidth_setWidth_of_le y hvw,
    BitVec.setWidth_eq, BitVec.setWidth_eq] at hback

end XorShift
