import Mathlib.Logic.Function.Iterate
import Cachetest.Binary64
import Cachetest.Distribution
import Cachetest.Lehmer

/-!
# The random numbers behind the Zipf draws

`rand_val` and `init_zipf` of `genzipf.cc`, and the loop in which `zipf` draws. The seeds
`zipfSubpath` hands over reach from 1 to `INT_MAX`, and `INT_MAX` is the modulus of the generator: a
state that is never left, and from which every draw is 1 and is rejected.
-/

namespace Cachetest

namespace Genzipf

/-! ## The code -/

/-- The constants of `rand_val`. -/
def a : Int := 16807

def m : Int := 2147483647

def q : Int := 127773

def r : Int := 2836

/-- `rand_val`: the value it returns and the new state of its static variable. All numbers are of
type `long`, and far from its bounds. -/
def randVal (seed x : Int) : ℚ × Int :=
  if seed > 0 then (0, seed)
  else
    let xDivQ := x.tdiv q
    let xModQ := x.tmod q
    let xNew := a * xModQ - r * xDivQ
    let x := if xNew > 0 then xNew else xNew + m
    (Binary64.div x m, x)

/-- `init_zipf`. -/
def initZipf (seed x : Int) : ℚ × Int := if seed ≤ 0 then (-1, x) else randVal seed x

/-- The `do` loop of `zipf` within `fuel` rounds, from state `x`: the draw and the new state. -/
def draw : Nat → Int → Option (ℚ × Int)
  | 0, _ => none
  | fuel + 1, x =>
    let (z, x) := randVal 0 x
    if z = 0 ∨ z = 1 then draw fuel x else some (z, x)

theorem initZipf_fst (seed x : Int) : (initZipf seed x).1 = SubpathDistribution.initZipf seed := by
  unfold initZipf SubpathDistribution.initZipf randVal
  split_ifs with h h'
  · rfl
  · rfl
  · exact absurd (not_le.mp h) h'

/-- The state after `init_zipf(seed)` and `n` later calls of `rand_val(0)`. -/
def state (seed x : Int) (n : Nat) : Int := (fun x => (randVal 0 x).2)^[n] (initZipf seed x).2

/-! ## The generator -/

theorem decomposed : Lehmer.Decomposed a m q r where
  modulus := by decide
  multiplier_pos := by decide
  rest_nonneg := by decide
  rest_lt := by decide
  coprime := Int.isCoprime_iff_gcd_eq_one.mpr (by decide)

/-- For a state that is not negative, a call is a step of the generator. -/
theorem randVal_zero {x : Int} (hx : 0 ≤ x) :
    randVal 0 x = (Binary64.div (Lehmer.next a m q r x) m, Lehmer.next a m q r x) := by
  unfold randVal Lehmer.next Lehmer.difference
  rw [if_neg (lt_irrefl 0), Int.tdiv_eq_ediv_of_nonneg hx, Int.tmod_eq_emod_of_nonneg hx]

/-- What the state and the next draw should be. -/
structure Sound (x : Int) : Prop where
  low : 1 ≤ x
  high : x ≤ 2 ^ 31 - 2
  next : (randVal 0 x).2 = 16807 * x % (2 ^ 31 - 1)
  positive : 0 < (randVal 0 x).1
  below_one : (randVal 0 x).1 < 1
  terminates : ∃ fuel z x', draw fuel x = some (z, x')

theorem sound_of_lt {x : Int} (hx : 0 < x) (hxm : x < m) : Sound x := by
  obtain ⟨hpos, hlt⟩ := decomposed.next_range hx hxm
  obtain ⟨hzpos, hzlt⟩ := Binary64.div_bounds hpos hlt (by decide)
  have hcall := randVal_zero hx.le
  have hdraw : draw 1 x = some (Binary64.div (Lehmer.next a m q r x) m, Lehmer.next a m q r x) := by
    rw [draw, hcall]
    exact if_neg (not_or.mpr ⟨hzpos.ne', hzlt.ne⟩)
  refine ⟨hx, Int.le_sub_one_of_lt hxm, ?_, ?_, ?_, 1, _, _, hdraw⟩
  · rw [hcall]
    exact decomposed.next_eq hx hxm
  · rw [hcall]
    exact hzpos
  · rw [hcall]
    exact hzlt

theorem state_zero {seed : Int} (hseed : 0 < seed) (x : Int) : state seed x 0 = seed := by
  simp only [state, Function.iterate_zero, id_eq, initZipf, not_le.mpr hseed, if_false, randVal,
    hseed, if_true, gt_iff_lt]

theorem state_range {seed : Int} (hseed : 0 < seed) (hlt : seed < m) (x : Int) (n : Nat) :
    0 < state seed x n ∧ state seed x n < m := by
  induction n with
  | zero =>
    rw [state_zero hseed]
    exact ⟨hseed, hlt⟩
  | succ n ih =>
    have hnext : state seed x (n + 1) = (randVal 0 (state seed x n)).2 :=
      Function.iterate_succ_apply' _ _ _
    rw [hnext, randVal_zero ih.1.le]
    exact decomposed.next_range ih.1 ih.2

/-- From the modulus no number of rounds gives a draw. -/
theorem draw_modulus (fuel : Nat) : draw fuel m = none := by
  induction fuel with
  | zero => rfl
  | succ fuel ih =>
    rw [draw, randVal_zero (by decide), decomposed.next_modulus, Binary64.div_self (by decide)]
    simpa using ih

/-- For every seed from 1 to `INT_MAX`, whatever the state was before: after every number of draws
the state is as it should be, and the next call of `zipf` gets its draw, if and only if the seed is
not `INT_MAX`. -/
theorem sound_iff {seed : Int} (hlow : 1 ≤ seed) (hhigh : seed ≤ intMax) (x : Int) :
    (∀ n, Sound (state seed x n)) ↔ seed ≠ intMax := by
  constructor
  · intro hsound heq
    obtain ⟨fuel, z, x', hdraw⟩ := (hsound 0).terminates
    rw [state_zero hlow, heq] at hdraw
    exact absurd ((draw_modulus fuel).symm.trans hdraw) (by simp)
  · intro hne n
    obtain ⟨hpos, hlt⟩ := state_range hlow (lt_of_le_of_ne hhigh hne) x n
    exact sound_of_lt hpos hlt

/-- The seed 1, after any number of draws. -/
theorem sound_iff_one : (1 : Int) ≠ intMax ∧ ∀ n, Sound (state 1 0 n) :=
  ⟨by decide, (sound_iff (by decide) (by decide) 0).mpr (by decide)⟩

/-- With the seed `INT_MAX`, in its range, `zipf` never gets a draw. -/
theorem draw_intMax_never : (1 : Int) ≤ intMax ∧ (intMax : Int) ≤ intMax ∧
    ∀ fuel, draw fuel (initZipf intMax 0).2 = none :=
  ⟨by decide, le_rfl, draw_modulus⟩

end Genzipf

end Cachetest
