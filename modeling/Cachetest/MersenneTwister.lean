import Mathlib.Order.Basic
import Mathlib.Logic.Basic

/-!
# Numbers up to a bound

`MTRand::randInt` with a bound, over any sequence of 32-bit numbers: it takes the bits that occur in
the bound and draws until the number is not above it. `uint32` is `unsigned long`, which has 64 bits
here, so the bound can be larger than all numbers.
-/

namespace Cachetest

namespace MTRand

/-- The bits from the highest one of `n` down, for `n` below `2 ^ 32`. -/
def usedBits (n : BitVec 64) : BitVec 64 :=
  let used := n
  let used := used ||| used >>> 1
  let used := used ||| used >>> 2
  let used := used ||| used >>> 4
  let used := used ||| used >>> 8
  used ||| used >>> 16

/-- `randInt(n)` within `fuel` draws: the result, and the index of the next number. -/
def randInt (numbers : Nat → BitVec 32) (n : BitVec 64) : Nat → Nat → Option (BitVec 64 × Nat)
  | 0, _ => none
  | fuel + 1, next =>
    let i := (numbers next).setWidth 64 &&& usedBits n
    if n < i then randInt numbers n fuel (next + 1) else some (i, next + 1)

variable {numbers : Nat → BitVec 32} {n i : BitVec 64} {fuel next next' : Nat}

theorem randInt_le (h : randInt numbers n fuel next = some (i, next')) : i ≤ n := by
  induction fuel generalizing next with
  | zero => cases h
  | succ fuel ih =>
    rw [randInt] at h
    split at h
    case isTrue => exact ih h
    case isFalse hle =>
      obtain ⟨rfl, -⟩ := Prod.mk.inj (Option.some.inj h)
      exact BitVec.not_lt.mp hle

/-- The bound `-1` keeps every number as it is. -/
theorem randInt_neg_one (numbers : Nat → BitVec 32) (fuel next : Nat) :
    randInt numbers (-1) (fuel + 1) next = some ((numbers next).setWidth 64, next + 1) := by
  have hused : usedBits (-1) = BitVec.allOnes 64 := by decide
  have hle : ¬(-1 : BitVec 64) < (numbers next).setWidth 64 := by
    rw [BitVec.not_lt, BitVec.le_def]
    have hlt := ((numbers next).setWidth 64).isLt
    exact Nat.le_of_lt_succ hlt
  rw [randInt, hused, BitVec.and_allOnes, if_neg hle]

end MTRand

end Cachetest
