import Mathlib.Tactic.IntervalCases
import Cachetest.Machine
import Cachetest.MTRandSeeds

/-!
# Numbers up to a bound from the Mersenne twister

`MTRandURBG`, which `SubpathDistribution` hands to `std::shuffle` and asks for the seeds of `zipf`.
Both go through `randInt(n)`, which draws until a number is not above the bound, and nothing in its
loop bounds the draws. For the bound of the generator itself no number is above it. For the seeds
one number in `2 ^ 31` is, and the recurrence does not give 625 of those in a row.
-/

namespace Cachetest

namespace MTRand

/-! ## The code -/

/-- `randInt(n)` within `fuel` draws: the number and the generator after it. -/
def randIntUpTo (n : BitVec 64) : Nat → MTRand 64 → Option (BitVec 64 × MTRand 64)
  | 0, _ => none
  | fuel + 1, g =>
    let (number, g) := randInt32 g
    let i := number &&& usedBits n
    if n < i then randIntUpTo n fuel g else some (i, g)

/-- `MTRandURBG::max`, which is `(uint32_t)-1`. -/
def urbgMax : BitVec 64 := 0xffffffff

/-- `MTRandURBG::operator()`. -/
def urbg (fuel : Nat) (g : MTRand 64) : Option (BitVec 64 × MTRand 64) := randIntUpTo urbgMax fuel g

/-- The seed that `zipfSubpath` asks for, before 1 is added. -/
def zipfSeed (fuel : Nat) (g : MTRand 64) : Option (BitVec 64 × MTRand 64) :=
  randIntUpTo (BitVec.ofNat 64 (intMax - 1)) fuel g

/-! ## Draws from a state -/

section Draws

variable {n : BitVec 64} {fuel next : Nat}

/-- The generator after `k` numbers. -/
def after {w : Nat} (g : MTRand w) (k : Nat) : MTRand w := (fun g => (randInt32 g).2)^[k] g

theorem after_succ {w : Nat} (g : MTRand w) (k : Nat) :
    g.after (k + 1) = (randInt32 (g.after k)).2 :=
  Function.iterate_succ_apply' _ _ _

theorem after_widen {w : Nat} (hw : 32 ≤ w) (h : MTRand 32) (k : Nat) :
    (widenRand w h).after k = widenRand w (h.after k) := by
  have hcalls : Function.Semiconj (widenRand w) (fun g => (randInt32 g).2)
      (fun g => (randInt32 g).2) := fun g => (congrArg Prod.snd (randInt32_widen hw g)).symm
  exact ((hcalls.iterate_right k).eq h).symm

/-- The loop over the generator is the loop over its numbers. -/
theorem randIntUpTo_eq (h : MTRand 32) : randIntUpTo n fuel (widenRand 64 (h.after next)) =
    (randInt (draw h) n fuel next).map fun r => (r.1, widenRand 64 (h.after r.2)) := by
  induction fuel generalizing next with
  | zero => rfl
  | succ fuel ih =>
    have hnumber : (randInt32 (h.after next)).1 = draw h next := rfl
    rw [randIntUpTo, randInt, randInt32_widen (by decide), hnumber, ← after_succ]
    dsimp only
    split_ifs
    · exact ih
    · rfl

theorem randInt_eq_none {numbers : Nat → BitVec 32} (h : randInt numbers n fuel next = none)
    {k : Nat} (hk : k < fuel) : n < (numbers (next + k)).setWidth 64 &&& usedBits n := by
  induction fuel generalizing next k with
  | zero => exact absurd hk (Nat.not_lt_zero k)
  | succ fuel ih =>
    rw [randInt] at h
    split at h
    case isTrue habove =>
      cases k with
      | zero => exact habove
      | succ k =>
        rw [Nat.add_comm k 1, ← Nat.add_assoc]
        exact ih h (by omega)
    case isFalse => cases h

theorem randInt_next {numbers : Nat → BitVec 32} {i : BitVec 64} {next' : Nat}
    (h : randInt numbers n fuel next = some (i, next')) : next < next' ∧ next' ≤ next + fuel := by
  induction fuel generalizing next with
  | zero => cases h
  | succ fuel ih =>
    rw [randInt] at h
    split at h
    case isTrue =>
      have hrest := ih h
      omega
    case isFalse =>
      obtain ⟨-, rfl⟩ := Prod.mk.inj (Option.some.inj h)
      omega

end Draws

/-! ## The bounds -/

theorem eq_of_above {u : BitVec 32}
    (h : BitVec.ofNat 64 (intMax - 1) < u.setWidth 64 &&& usedBits (BitVec.ofNat 64 (intMax - 1))) :
    u = 0x7fffffff ∨ u = 0xffffffff := by
  have hused : usedBits (BitVec.ofNat 64 (intMax - 1)) = BitVec.ofNat 64 (2 ^ 31 - 1) := by decide
  have hbits : (u.setWidth 64 &&& BitVec.ofNat 64 (2 ^ 31 - 1)).toNat = u.toNat % 2 ^ 31 := by
    rw [BitVec.toNat_and, BitVec.toNat_setWidth, BitVec.toNat_ofNat,
      Nat.mod_eq_of_lt (by omega : u.toNat < 2 ^ 64), Nat.mod_eq_of_lt (by decide),
      Nat.and_two_pow_sub_one_eq_mod]
  rw [hused, BitVec.lt_def, hbits] at h
  have hbound : (BitVec.ofNat 64 (intMax - 1)).toNat = 2 ^ 31 - 2 := by decide
  rw [hbound] at h
  have hu := u.isLt
  rcases Nat.lt_or_ge u.toNat (2 ^ 31) with hlow | hhigh
  · exact .inl (BitVec.eq_of_toNat_eq (by simp; omega))
  · exact .inr (BitVec.eq_of_toNat_eq (by simp; omega))

/-- The two words that are tempered to these. -/
def AboveSeeds (u : BitVec 32) : Prop := u = 2462955959 ∨ u = 316513203

instance (u : BitVec 32) : Decidable (AboveSeeds u) := inferInstanceAs (Decidable (_ ∨ _))

theorem aboveSeeds_of_temper {u : BitVec 32} (h : temper u = 0x7fffffff ∨ temper u = 0xffffffff) :
    AboveSeeds u := by
  have hlow : temper 2462955959#32 = 0x7fffffff := by decide
  have hhigh : temper 316513203#32 = 0xffffffff := by decide
  exact h.imp (fun h => temper_injective (h.trans hlow.symm))
    (fun h => temper_injective (h.trans hhigh.symm))

/-- The recurrence leads out of them. -/
theorem not_aboveSeeds_twist {m s0 s1 : BitVec 32} (hm : AboveSeeds m) (h0 : AboveSeeds s0)
    (h1 : AboveSeeds s1) : ¬AboveSeeds (twist m s0 s1) := by
  rcases hm with rfl | rfl <;> rcases h0 with rfl | rfl <;> rcases h1 with rfl | rfl <;> decide

/-- Of 625 numbers in a row one is a seed. -/
theorem exists_zipfSeed (h : MTRand 32) (next : Nat) :
    ∃ r, randInt (draw h) (BitVec.ofNat 64 (intMax - 1)) 625 next = some r := by
  refine Option.ne_none_iff_exists'.mp fun hnone => ?_
  have hwords : ∀ k < 625, AboveSeeds (sequence h.state (h.pNext + next + k)) := fun k hk => by
    have habove := eq_of_above (randInt_eq_none hnone hk)
    rw [draw_eq, ← Nat.add_assoc] at habove
    exact aboveSeeds_of_temper habove
  have hstep := recurs_sequence h.state (h.pNext + next)
  refine not_aboveSeeds_twist (hwords 397 (by decide)) (hwords 0 (by decide))
    (hwords 1 (by decide)) ?_
  have hnew := hwords 624 (by decide)
  rw [hstep] at hnew
  exact hnew

/-- The bound of the generator itself rejects nothing. -/
theorem urbg_eq (fuel : Nat) (h : MTRand 32) :
    urbg (fuel + 1) (widenRand 64 h) = some (randInt32 (widenRand 64 h)) := by
  have hused : usedBits urbgMax = BitVec.ofNat 64 0xffffffff := by decide
  have hmask : (randInt32 h).1.setWidth 64 &&& BitVec.ofNat 64 0xffffffff =
      (randInt32 h).1.setWidth 64 := by
    rw [and_mask (by decide)]
    exact congrArg _ (low_widen (by decide) _)
  have hle : ¬urbgMax < (randInt32 h).1.setWidth 64 := by
    rw [BitVec.lt_def, BitVec.toNat_setWidth]
    have hlt := (randInt32 h).1.isLt
    have hmax : urbgMax.toNat = 2 ^ 32 - 1 := by decide
    omega
  rw [urbg, randIntUpTo, randInt32_widen (by decide)]
  dsimp only
  rw [hused, hmask, if_neg hle]

/-- **The generator of `SubpathDistribution` always answers.** After seeding with any number and any
numbers drawn since: `MTRandURBG` returns the next number, which is not above its `max`, and the
seed for `zipf` is found within 625 numbers, is a number from 1 to `INT_MAX` when 1 is added, and
leaves the generator further on in its numbers. -/
theorem urbg_serves (g : MTRand 64) (oneSeed : BitVec 64) (k fuel : Nat) :
    urbg (fuel + 1) ((g.seed oneSeed).after k) = some (randInt32 ((g.seed oneSeed).after k)) ∧
    draw (g.seed oneSeed) k ≤ urbgMax ∧
    ∃ i j, k < j ∧ j ≤ k + 625 ∧
      zipfSeed 625 ((g.seed oneSeed).after k) = some (i, (g.seed oneSeed).after j) ∧
      1 ≤ i.toNat + 1 ∧ i.toNat + 1 ≤ intMax := by
  let g' : MTRand 32 := ⟨Vector.replicate 624 0, 624, 0, rfl⟩
  have hw : 32 ≤ 64 := by decide
  rw [seed_eq hw g g']
  generalize g'.seed (low oneSeed) = h
  simp only [after_widen hw, draw_widen hw]
  refine ⟨urbg_eq fuel _, ?_, ?_⟩
  · have hlt := (draw h k).isLt
    have hmax : urbgMax.toNat = 2 ^ 32 - 1 := by decide
    rw [BitVec.le_def, BitVec.toNat_setWidth]
    omega
  · obtain ⟨⟨i, j⟩, hfound⟩ := exists_zipfSeed h k
    obtain ⟨hlt, hle⟩ := randInt_next hfound
    have hbound := randInt_le hfound
    have hmax : (BitVec.ofNat 64 (intMax - 1)).toNat = intMax - 1 := by decide
    rw [BitVec.le_def, hmax] at hbound
    refine ⟨i, j, hlt, hle, ?_, by omega, by unfold intMax at hbound ⊢; omega⟩
    rw [zipfSeed, randIntUpTo_eq, hfound]
    rfl

end MTRand

end Cachetest
