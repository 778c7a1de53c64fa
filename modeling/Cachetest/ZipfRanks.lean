import Mathlib.Algebra.BigOperators.Intervals
import Mathlib.NumberTheory.LucasPrimality
import Mathlib.Tactic.NormNum.Prime
import Mathlib.Tactic.ReduceModChar
import Cachetest.FullPeriod
import Cachetest.Genzipf
import Cachetest.Rounding

/-!
# The ranks behind the Zipf draws

`zipf` of `genzipf.cc` with its static variables: it computes a constant on the first call of all,
and then maps each number of the generator to the first rank whose cumulative probability reaches
it. All of it is done with rounded numbers, and the last cumulative probability need not be 1.

The argument has two halves. The errors of the cumulative probabilities are a few factors a term
(`sumProb_near`), which a million terms do not add up to the distance of two numbers of the
generator. And the generator has the full period, so in `2 ^ 31 - 2` draws in a row each of its
numbers comes up once: how often a rank comes up is a matter of counting the numbers below a bound
(`card_below`).
-/

namespace Cachetest

namespace Genzipf

open Binary64 hiding round

/-! ## The code -/

/-- The static variables of `zipf` and of `rand_val`. -/
structure Statics where
  first : Bool
  c : ℚ
  x : Int

/-- Before any call. -/
def Statics.initial : Statics := ⟨true, 0, 0⟩

/-- The loop of the first call and the division after it. `power i` is `pow((double) i, alpha)`. -/
def normalization (power : Nat → ℚ) (n : Nat) (c : ℚ) : ℚ :=
  Binary64.round (1 / (List.range n).foldl
    (fun c i => Binary64.round (c + Binary64.round (1 / power (i + 1)))) c)

/-- The loop that maps `z` to a value, with `remaining` rounds left. -/
def mapToValue (power : Nat → ℚ) (c z : ℚ) : Nat → Nat → ℚ → Option Nat
  | 0, _, _ => none
  | remaining + 1, i, sumProb =>
    let sumProb := Binary64.round (sumProb + Binary64.round (c / power i))
    if sumProb ≥ z then some i else mapToValue power c z remaining (i + 1) sumProb

/-- `zipf`: its value and the static variables after it. -/
def zipf (power : Nat → ℚ) (n fuel : Nat) (st : Statics) : Option (Outcome (Nat × Statics)) :=
  let st := if st.first then { st with first := false, c := normalization power n st.c } else st
  match draw fuel st.x with
  | none => none
  | some (z, x) =>
    match mapToValue power st.c z n 1 0 with
    | none => some (.error (.undefined "zipf_value is not initialized"))
    | some value => some do
      assertThat (1 ≤ value && value ≤ n) "(zipf_value >=1) && (zipf_value <= n)"
      return (value, { st with x := x })

/-- The values of `count` calls in a row. -/
def zipfCalls (power : Nat → ℚ) (n fuel : Nat) :
    Nat → Statics → Option (Outcome (List Nat × Statics))
  | 0, st => some (.ok ([], st))
  | count + 1, st =>
    match zipf power n fuel st with
    | none => none
    | some (.error stop) => some (.error stop)
    | some (.ok (value, st)) =>
      match zipfCalls power n fuel count st with
      | none => none
      | some (.error stop) => some (.error stop)
      | some (.ok (values, st)) => some (.ok (value :: values, st))

/-- The calls of `zipfSubpath`, subpath after subpath: for each one the generator is seeded, and
there are as many calls of `zipf` as it takes. -/
def subpathCalls (power : Nat → ℚ) (n fuel : Nat) :
    List (Int × Nat) → Statics → Option (Outcome (List (List Nat) × Statics))
  | [], st => some (.ok ([], st))
  | (seed, count) :: subpaths, st =>
    let (failed, x) := initZipf seed st.x
    if failed ≠ 0 then some (.error (.exited "ERROR: zipf initialization failed\n" (-1)))
    else
      match zipfCalls power n fuel count { st with x := x } with
      | none => none
      | some (.error stop) => some (.error stop)
      | some (.ok (values, st)) =>
        match subpathCalls power n fuel subpaths st with
        | none => none
        | some (.error stop) => some (.error stop)
        | some (.ok (rest, st)) => some (.ok (values :: rest, st))

/-! ## The generator has the full period -/

theorem a_pow_one : (16807 : ZMod 2147483647) ^ (2147483647 - 1) = 1 := by
  norm_num only
  reduce_mod_char

theorem prime_dvd_period {p : Nat} (hp : p.Prime) (hdvd : p ∣ 2147483647 - 1) :
    p ∈ [2, 3, 7, 11, 31, 151, 331] := by
  have hfactors : 2147483647 - 1 = 2 * 3 * 3 * 7 * 11 * 31 * 151 * 331 := by norm_num
  rw [hfactors] at hdvd
  simp only [hp.dvd_mul] at hdvd
  have heq : ∀ r : Nat, r.Prime → p ∣ r → p = r :=
    fun r hr h => (Nat.prime_dvd_prime_iff_eq hp hr).mp h
  rcases hdvd with ((((((h | h) | h) | h) | h) | h) | h) | h
  all_goals simp [heq _ (by norm_num) h]

theorem a_pow_ne_one : ∀ p ∈ [2, 3, 7, 11, 31, 151, 331],
    (16807 : ZMod 2147483647) ^ ((2147483647 - 1) / p) ≠ 1 := by
  simp only [List.forall_mem_cons]
  norm_num only
  reduce_mod_char
  decide

theorem prime_m : Nat.Prime 2147483647 :=
  lucas_primality _ 16807 a_pow_one fun p hp hdvd => a_pow_ne_one p (prime_dvd_period hp hdvd)

/-- The multiplier is a primitive root. -/
theorem fullPeriod : Lehmer.FullPeriod a 2147483647 :=
  .of_pow prime_m a_pow_one fun p hp hdvd => a_pow_ne_one p (prime_dvd_period hp hdvd)

theorem generates : Lehmer.Generates (Lehmer.next a m q r) a 2147483647 :=
  Lehmer.Decomposed.generates (m := 2147483647) decomposed

/-! ## The cumulative probabilities -/

section Probabilities

variable {power : Nat → ℚ} {n : Nat} {c z : ℚ}

/-- The powers are positive, as powers of the numbers from 1 to `n` are. -/
def PositivePowers (power : Nat → ℚ) (n : Nat) : Prop := ∀ i < n, 0 < power (i + 1)

/-- What the cumulative probabilities are proportional to. -/
def harmonic (power : Nat → ℚ) (i : Nat) : ℚ := ∑ j ∈ Finset.range i, (power (j + 1))⁻¹

/-- `sum_prob` after `i` rounds. -/
def sumProb (power : Nat → ℚ) (c : ℚ) : Nat → ℚ
  | 0 => 0
  | i + 1 => Binary64.round (sumProb power c i + Binary64.round (c / power (i + 1)))

theorem normalization_eq (power : Nat → ℚ) (n : Nat) :
    normalization power n 0 = Binary64.round (1 / sumProb power 1 n) := by
  have hfold : ∀ i, (List.range i).foldl
      (fun c i => Binary64.round (c + Binary64.round (1 / power (i + 1)))) 0 =
      sumProb power 1 i := fun i => by
    induction i with
    | zero => rfl
    | succ i ih => rw [List.range_succ, List.foldl_concat, ih, sumProb]
  rw [normalization, hfold]

theorem PositivePowers.harmonic_pos (h : PositivePowers power n) {i : Nat} (hpos : 0 < i)
    (hi : i ≤ n) : 0 < harmonic power i :=
  Finset.sum_pos (fun j hj => inv_pos.mpr (h j ((Finset.mem_range.mp hj).trans_le hi)))
    ⟨0, Finset.mem_range.mpr hpos⟩

theorem PositivePowers.harmonic_nonneg (h : PositivePowers power n) {i : Nat} (hi : i ≤ n) :
    0 ≤ harmonic power i :=
  Finset.sum_nonneg fun j hj => (inv_pos.mpr (h j ((Finset.mem_range.mp hj).trans_le hi))).le

theorem PositivePowers.harmonic_mono (h : PositivePowers power n) {i j : Nat} (hij : i ≤ j)
    (hj : j ≤ n) : harmonic power i ≤ harmonic power j :=
  Finset.sum_le_sum_of_subset_of_nonneg (Finset.range_mono hij) fun k hk _ =>
    (inv_pos.mpr (h k ((Finset.mem_range.mp hk).trans_le hj))).le

theorem PositivePowers.term_pos (h : PositivePowers power n) (hc : 0 < c) {i : Nat} (hi : i < n) :
    0 < Binary64.round (c / power (i + 1)) :=
  round_pos (div_pos hc (h i hi))

theorem PositivePowers.sumProb_nonneg (h : PositivePowers power n) (hc : 0 < c) {i : Nat}
    (hi : i ≤ n) : 0 ≤ sumProb power c i := by
  induction i with
  | zero => exact le_rfl
  | succ i ih => exact (round_pos (add_pos_of_nonneg_of_pos (ih (by omega)) (h.term_pos hc hi))).le

theorem PositivePowers.sumProb_pos (h : PositivePowers power n) (hc : 0 < c) {i : Nat}
    (hi : i < n) : 0 < sumProb power c (i + 1) :=
  round_pos (add_pos_of_nonneg_of_pos (h.sumProb_nonneg hc hi.le) (h.term_pos hc hi))

theorem PositivePowers.sumProb_le_succ (h : PositivePowers power n) (hc : 0 < c) {i : Nat}
    (hi : i < n) : sumProb power c i ≤ sumProb power c (i + 1) := by
  cases i with
  | zero => exact (h.sumProb_pos hc hi).le
  | succ i =>
    have hterm := h.term_pos hc hi
    have hsum := add_pos_of_nonneg_of_pos (h.sumProb_nonneg hc (by omega : i ≤ n))
      (h.term_pos hc (by omega : i < n))
    calc sumProb power c (i + 1) = Binary64.round (sumProb power c (i + 1)) :=
          (round_round hsum).symm
      _ ≤ sumProb power c (i + 2) :=
          round_mono (h.sumProb_pos hc (by omega)) (le_add_of_nonneg_right hterm.le)

theorem PositivePowers.sumProb_mono (h : PositivePowers power n) (hc : 0 < c) {i j : Nat}
    (hij : i ≤ j) (hj : j ≤ n) : sumProb power c i ≤ sumProb power c j := by
  induction j, hij using Nat.le_induction with
  | base => exact le_rfl
  | succ j _ ih => exact (ih (by omega)).trans (h.sumProb_le_succ hc hj)

theorem PositivePowers.sumProb_near (h : PositivePowers power n) (hc : 0 < c) {i : Nat}
    (hi : i ≤ n) : Near unitLoss (i + 1) (c * harmonic power i) (sumProb power c i) := by
  induction i with
  | zero => constructor <;> simp [harmonic, sumProb]
  | succ i ih =>
    have hpower := h i hi
    have hdiv : 0 < c / power (i + 1) := div_pos hc hpower
    have hsum := add_pos_of_nonneg_of_pos (h.sumProb_nonneg hc (by omega : i ≤ n))
      (h.term_pos hc hi)
    have hterm : Near unitLoss (i + 1) (c / power (i + 1)) (Binary64.round (c / power (i + 1))) :=
      (near_round hdiv).mono unitLoss_pos.le unitLoss_le_one hdiv.le (round_pos hdiv).le
        (by omega)
    have hexact : c * harmonic power (i + 1) = c * harmonic power i + c / power (i + 1) := by
      rw [harmonic, Finset.sum_range_succ, mul_add, ← harmonic, div_eq_mul_inv]
    rw [hexact]
    exact ((ih (by omega)).add hterm).trans unitLoss_pos.le (near_round hsum)

theorem PositivePowers.normalization_pos (h : PositivePowers power n) (hn : 0 < n) :
    0 < normalization power n 0 := by
  rw [normalization_eq]
  obtain ⟨k, rfl⟩ := Nat.exists_eq_succ_of_ne_zero hn.ne'
  exact round_pos (one_div_pos.mpr (h.sumProb_pos one_pos (Nat.lt_succ_self k)))

theorem PositivePowers.normalization_near (h : PositivePowers power n) (hn : 0 < n) :
    Near unitLoss (n + 2) (harmonic power n)⁻¹ (normalization power n 0) := by
  have hharmonic := h.harmonic_pos hn le_rfl
  have hsum : 0 < sumProb power 1 n := by
    obtain ⟨k, rfl⟩ := Nat.exists_eq_succ_of_ne_zero hn.ne'
    exact h.sumProb_pos one_pos (Nat.lt_succ_self k)
  have hnear := h.sumProb_near one_pos le_rfl
  rw [one_mul] at hnear
  rw [normalization_eq, one_div]
  show Near unitLoss (n + 1 + 1) _ _
  exact (hnear.inv hharmonic hsum).trans unitLoss_pos.le (near_round (inv_pos.mpr hsum))

/-- The exact cumulative probability. -/
def cumulative (power : Nat → ℚ) (n i : Nat) : ℚ := harmonic power i / harmonic power n

theorem PositivePowers.cumulative_near (h : PositivePowers power n) (hn : 0 < n) {i : Nat}
    (hi : i ≤ n) : Near unitLoss (2 * n + 3) (cumulative power n i)
      (sumProb power (normalization power n 0) i) := by
  have hc := h.normalization_pos hn
  have hharmonic := h.harmonic_nonneg hi
  have hnear := ((h.normalization_near hn).mul_right hharmonic).trans unitLoss_pos.le
    (h.sumProb_near hc hi)
  have hexact : (harmonic power n)⁻¹ * harmonic power i = cumulative power n i := by
    rw [cumulative, div_eq_mul_inv, mul_comm]
  rw [hexact] at hnear
  exact hnear.mono unitLoss_pos.le unitLoss_le_one
    (div_nonneg hharmonic (h.harmonic_nonneg le_rfl)) (h.sumProb_nonneg hc hi) (by omega)

end Probabilities

/-! ## Numbers below a bound -/

/-- The number that the generator returns in state `y`. -/
def number (y : Int) : ℚ := Binary64.div y m

theorem number_near {y : Int} (hy : 0 < y) : Near unitLoss 1 (y / 2147483647 : ℚ) (number y) := by
  have hm : (m : ℚ) = 2147483647 := by norm_num [m]
  rw [number, Binary64.div, hm]
  exact near_round (div_pos (Int.cast_pos.mpr hy) (by norm_num))

theorem number_pos {y : Int} (hy : 0 < y) : 0 < number y :=
  round_pos (div_pos (Int.cast_pos.mpr hy) (by norm_num [m]))

/-- A million terms leave the bounds within half a number of the generator. -/
theorem unitLoss_pow_ge {k : Nat} (hk : k ≤ 2 ^ 21 + 4) :
    1 - (2 ^ 21 + 4) / 2 ^ 53 ≤ unitLoss ^ k := by
  have hcast : (k : ℚ) ≤ 2 ^ 21 + 4 := by exact_mod_cast hk
  have hpow := one_sub_le_unitLoss_pow k
  have hdiv : (k : ℚ) / 2 ^ 53 ≤ (2 ^ 21 + 4) / 2 ^ 53 :=
    div_le_div_of_nonneg_right hcast (by norm_num)
  linarith

section Counting

variable {P F : ℚ} {k : Nat}

theorem number_le {y : Int} (hy : 0 < y) (hF : Near unitLoss k P F)
    (h : (y : ℚ) ≤ 2147483647 * P * unitLoss ^ (k + 1)) : number y ≤ F := by
  have hpos := unitLoss_pos
  have hnumber := (number_near hy).high
  rw [pow_one] at hnumber
  have hle : number y * unitLoss ≤ P * unitLoss ^ k * unitLoss := by
    calc number y * unitLoss ≤ y / 2147483647 := hnumber
      _ ≤ P * unitLoss ^ (k + 1) := by
          rw [div_le_iff₀ (by norm_num)]
          linarith
      _ = P * unitLoss ^ k * unitLoss := by rw [pow_succ, mul_assoc]
  exact (le_of_mul_le_mul_right hle hpos).trans hF.low

theorem le_of_number_le {y : Int} (hy : 0 < y) (hF : Near unitLoss k P F) (h : number y ≤ F) :
    (y : ℚ) * unitLoss ^ (k + 1) ≤ 2147483647 * P := by
  have hpow : 0 ≤ unitLoss ^ k := pow_nonneg unitLoss_pos.le k
  have hnumber := (number_near hy).low
  rw [pow_one] at hnumber
  have hle : (y / 2147483647 : ℚ) * unitLoss ^ (k + 1) ≤ P := by
    calc (y / 2147483647 : ℚ) * unitLoss ^ (k + 1)
        = y / 2147483647 * unitLoss * unitLoss ^ k := by rw [pow_succ', mul_assoc]
      _ ≤ F * unitLoss ^ k := mul_le_mul_of_nonneg_right (hnumber.trans h) hpow
      _ ≤ P := hF.high
  rw [div_mul_eq_mul_div, div_le_iff₀ (by norm_num)] at hle
  linarith

/-- The numbers of the generator that are at most `F`. -/
noncomputable def below (F : ℚ) : Finset Int :=
  (Finset.Ioo 0 2147483647).filter fun y => number y ≤ F

theorem card_Ioc_floor {q : ℚ} (hq : 0 ≤ q) : ((Finset.Ioc 0 ⌊q⌋).card : ℚ) ≤ q ∧
    q - 1 < (Finset.Ioc 0 ⌊q⌋).card := by
  have hfloor : 0 ≤ ⌊q⌋ := Int.floor_nonneg.mpr hq
  have hcard : ((Finset.Ioc 0 ⌊q⌋).card : ℚ) = ⌊q⌋ := by
    rw [Int.card_Ioc, sub_zero]
    exact_mod_cast Int.toNat_of_nonneg hfloor
  rw [hcard]
  exact ⟨Int.floor_le q, by linarith [Int.lt_floor_add_one q]⟩

/-- The generator's numbers below a cumulative probability are as many as they should be, but for
two at most. -/
theorem card_below (hP : 0 ≤ P) (hP' : P ≤ 1) (hk : k ≤ 2 ^ 21 + 3) (hF : Near unitLoss k P F) :
    2147483647 * P - 8 / 5 < (below F).card ∧ ((below F).card : ℚ) ≤ 2147483647 * P + 3 / 5 := by
  have hloss : 1 - (2 ^ 21 + 4) / 2 ^ 53 ≤ unitLoss ^ (k + 1) := unitLoss_pow_ge (by omega)
  have hshare := mul_le_mul_of_nonneg_left hloss hP
  have hpow : 0 < unitLoss ^ (k + 1) := pow_pos unitLoss_pos _
  constructor
  · -- the states up to the exact bound are among them
    have hq : 0 ≤ 2147483647 * P * unitLoss ^ (k + 1) := by positivity
    have hsub : Finset.Ioc 0 ⌊2147483647 * P * unitLoss ^ (k + 1)⌋ ⊆ below F := fun y hy => by
      obtain ⟨hpos, hfloor⟩ := Finset.mem_Ioc.mp hy
      have hy' : (y : ℚ) ≤ 2147483647 * P * unitLoss ^ (k + 1) := Int.le_floor.mp hfloor
      have hone : unitLoss ^ (k + 1) < 1 :=
        pow_lt_one₀ unitLoss_pos.le (by norm_num [unitLoss]) k.succ_ne_zero
      have hlt : y < 2147483647 := by
        have hprod : P * unitLoss ^ (k + 1) ≤ unitLoss ^ (k + 1) :=
          mul_le_of_le_one_left hpow.le hP'
        exact_mod_cast (by linarith : (y : ℚ) < 2147483647)
      exact Finset.mem_filter.mpr ⟨Finset.mem_Ioo.mpr ⟨hpos, hlt⟩, number_le hpos hF hy'⟩
    have hcard : ((Finset.Ioc 0 ⌊2147483647 * P * unitLoss ^ (k + 1)⌋).card : ℚ) ≤ (below F).card :=
      by exact_mod_cast Finset.card_le_card hsub
    have hfloor := (card_Ioc_floor hq).2
    have hclose : 2147483647 * P - 3 / 5 ≤ 2147483647 * P * unitLoss ^ (k + 1) := by
      linarith
    linarith
  · -- and there are none but those up to a bound
    have hq : 0 ≤ 2147483647 * P / unitLoss ^ (k + 1) := by positivity
    have hsub : below F ⊆ Finset.Ioc 0 ⌊2147483647 * P / unitLoss ^ (k + 1)⌋ := fun y hy => by
      obtain ⟨hrange, hbelow⟩ := Finset.mem_filter.mp hy
      have hpos := (Finset.mem_Ioo.mp hrange).1
      refine Finset.mem_Ioc.mpr ⟨hpos, Int.le_floor.mpr ?_⟩
      rw [le_div_iff₀ hpow]
      exact le_of_number_le hpos hF hbelow
    have hcard : ((below F).card : ℚ) ≤ (Finset.Ioc 0 ⌊2147483647 * P / unitLoss ^ (k + 1)⌋).card :=
      by exact_mod_cast Finset.card_le_card hsub
    have hfloor := (card_Ioc_floor hq).1
    have hclose : 2147483647 * P / unitLoss ^ (k + 1) ≤ 2147483647 * P + 3 / 5 := by
      rw [div_le_iff₀ hpow]
      linarith
    linarith

end Counting

/-! ## The values -/

section Values

variable {power : Nat → ℚ} {n : Nat} {c z : ℚ}

/-- The loop stops at the first cumulative probability that reaches `z`. -/
theorem mapToValue_eq {remaining i r : Nat} (hi : i < r) (hr : r ≤ i + remaining)
    (hbelow : ∀ j, i < j → j < r → sumProb power c j < z) (hz : z ≤ sumProb power c r) :
    mapToValue power c z remaining (i + 1) (sumProb power c i) = some r := by
  induction remaining generalizing i with
  | zero => omega
  | succ remaining ih =>
    rw [mapToValue]
    change (if sumProb power c (i + 1) ≥ z then some (i + 1) else
      mapToValue power c z remaining (i + 1 + 1) (sumProb power c (i + 1))) = some r
    rcases Nat.eq_or_lt_of_le (Nat.succ_le_of_lt hi) with heq | hlt
    · rw [show i + 1 = r from heq, if_pos hz]
    · rw [if_neg (not_le.mpr (hbelow _ (Nat.lt_succ_self i) hlt))]
      exact ih hlt (by omega) fun j hj => hbelow j (by omega)

/-- The value for `z`. -/
def value (power : Nat → ℚ) (n : Nat) (z : ℚ) : Nat :=
  (mapToValue power (normalization power n 0) z n 1 0).getD 0

/-- The number `z` belongs to rank `i`. -/
def Belongs (power : Nat → ℚ) (n : Nat) (z : ℚ) (i : Nat) : Prop :=
  sumProb power (normalization power n 0) (i - 1) < z ∧
    z ≤ sumProb power (normalization power n 0) i

theorem Belongs.mapToValue (h : PositivePowers power n) {i : Nat} (hpos : 0 < i) (hi : i ≤ n)
    (hz : Belongs power n z i) :
    mapToValue power (normalization power n 0) z n 1 0 = some i := by
  have hc := h.normalization_pos (hpos.trans_le hi)
  refine mapToValue_eq (i := 0) hpos (by omega) (fun j _ hj => ?_) hz.2
  exact (h.sumProb_mono hc (by omega) (by omega)).trans_lt hz.1

theorem exists_belongs (hz : 0 < z) (hz' : z ≤ sumProb power (normalization power n 0) n) :
    ∃ i, 0 < i ∧ i ≤ n ∧ Belongs power n z i := by
  have hex : ∃ i, z ≤ sumProb power (normalization power n 0) i := ⟨n, hz'⟩
  classical
  have hfind := Nat.find_spec hex
  have hpos : 0 < Nat.find hex := by
    refine Nat.pos_of_ne_zero fun hzero => ?_
    rw [hzero] at hfind
    exact absurd hz (not_lt.mpr hfind)
  refine ⟨Nat.find hex, hpos, Nat.find_le hz', ?_, hfind⟩
  exact not_le.mp (Nat.find_min hex (by omega))

theorem value_eq_iff (h : PositivePowers power n) {i : Nat} (hpos : 0 < i) (hi : i ≤ n)
    (hz : 0 < z) (hz' : z ≤ sumProb power (normalization power n 0) n) :
    value power n z = i ↔ Belongs power n z i := by
  constructor
  · rintro rfl
    obtain ⟨j, hj, hjn, hbelongs⟩ := exists_belongs hz hz'
    have heq : value power n z = j := by rw [value, hbelongs.mapToValue h hj hjn, Option.getD_some]
    rwa [heq]
  · intro hbelongs
    rw [value, hbelongs.mapToValue h hpos hi, Option.getD_some]

theorem number_le_last (h : PositivePowers power n) (hn : 0 < n) (hn' : n ≤ 2 ^ 20) {y : Int}
    (hy : 0 < y) (hym : y < m) : number y ≤ sumProb power (normalization power n 0) n := by
  have hone : cumulative power n n = 1 := div_self (h.harmonic_pos hn le_rfl).ne'
  refine number_le hy (h.cumulative_near hn le_rfl) ?_
  have hloss := unitLoss_pow_ge (k := 2 * n + 3 + 1) (by omega)
  have hle : (y : ℚ) ≤ 2147483646 := by exact_mod_cast Int.le_sub_one_of_lt hym
  rw [hone]
  linarith

theorem cumulative_range (h : PositivePowers power n) {i : Nat} (hi : i ≤ n) :
    0 ≤ cumulative power n i ∧ cumulative power n i ≤ 1 :=
  ⟨div_nonneg (h.harmonic_nonneg hi) (h.harmonic_nonneg le_rfl),
    div_le_one_of_le₀ (h.harmonic_mono hi le_rfl) (h.harmonic_nonneg le_rfl)⟩

/-- The probability of rank `i`: `C / i ^ alpha`, with a `C` that makes them sum to 1. -/
def probability (power : Nat → ℚ) (n i : Nat) : ℚ := (power i)⁻¹ / harmonic power n

theorem cumulative_succ (power : Nat → ℚ) (n i : Nat) :
    cumulative power n (i + 1) = cumulative power n i + probability power n (i + 1) := by
  rw [cumulative, cumulative, probability, ← add_div, harmonic, Finset.sum_range_succ, ← harmonic]

/-- Of the numbers of the generator, as many belong to a rank as its probability asks for, but for
less than three. -/
theorem card_belongs (h : PositivePowers power n) (hn' : n ≤ 2 ^ 20) {i : Nat} (hi : i < n) :
    |(((Finset.Ioo 0 2147483647).filter fun y => value power n (number y) = i + 1).card : ℚ) -
      2147483647 * probability power n (i + 1)| < 3 := by
  have hn : 0 < n := by omega
  have hc := h.normalization_pos hn
  have hbelongs : (Finset.Ioo 0 2147483647).filter (fun y => value power n (number y) = i + 1) =
      below (sumProb power (normalization power n 0) (i + 1)) \
        below (sumProb power (normalization power n 0) i) := by
    ext y
    simp only [below, Finset.mem_filter, Finset.mem_sdiff, Finset.mem_Ioo, not_and, not_le]
    constructor
    · rintro ⟨hy, hvalue⟩
      have hz := (value_eq_iff h i.succ_pos hi (number_pos hy.1)
        (number_le_last h hn hn' hy.1 hy.2)).mp hvalue
      exact ⟨⟨hy, hz.2⟩, fun _ => hz.1⟩
    · rintro ⟨⟨hy, hle⟩, hlt⟩
      exact ⟨hy, (value_eq_iff h i.succ_pos hi (number_pos hy.1)
        (number_le_last h hn hn' hy.1 hy.2)).mpr ⟨hlt hy, hle⟩⟩
  have hsub : below (sumProb power (normalization power n 0) i) ⊆
      below (sumProb power (normalization power n 0) (i + 1)) :=
    Finset.monotone_filter_right _ fun y _ hy => hy.trans (h.sumProb_le_succ hc hi)
  have hcard := Finset.card_sdiff_add_card_eq_card hsub
  obtain ⟨hlow, hlow'⟩ := cumulative_range h hi.le
  obtain ⟨hhigh, hhigh'⟩ := cumulative_range h (Nat.succ_le_of_lt hi)
  obtain ⟨hmore, hless⟩ := card_below hlow hlow' (by omega) (h.cumulative_near hn hi.le)
  obtain ⟨hmore', hless'⟩ := card_below hhigh hhigh' (by omega) (h.cumulative_near hn hi)
  rw [← hbelongs] at hcard
  rw [cumulative_succ] at hmore' hless'
  have hcast := congrArg (Nat.cast (R := ℚ)) hcard
  push_cast at hcast
  rw [abs_lt]
  constructor <;> linarith

end Values

/-! ## The calls -/

section Calls

variable {power : Nat → ℚ} {n : Nat} {st : Statics}

/-- What the calls keep: the constant is the one for `power` and `n`, or the next call computes
it. -/
def Normalized (power : Nat → ℚ) (n : Nat) (st : Statics) : Prop :=
  if st.first then st.c = 0 else st.c = normalization power n 0

theorem normalized_initial (power : Nat → ℚ) (n : Nat) : Normalized power n .initial := rfl

/-- The rank of draw `k` after the generator is seeded. -/
def rank (power : Nat → ℚ) (n : Nat) (seed : Int) (k : Nat) : Nat :=
  value power n (number ((Lehmer.next a m q r)^[k + 1] seed))

theorem draw_succ {x : Int} (hx : 0 < x) (hxm : x < m) (fuel : Nat) :
    draw (fuel + 1) x = some (number (Lehmer.next a m q r x), Lehmer.next a m q r x) := by
  obtain ⟨hpos, hlt⟩ := decomposed.next_range hx hxm
  obtain ⟨hzpos, hzlt⟩ := Binary64.div_bounds hpos hlt (by decide)
  rw [draw, randVal_zero hx.le]
  exact if_neg (not_or.mpr ⟨hzpos.ne', hzlt.ne⟩)

/-- A call returns a rank and leaves the statics as the next call needs them. -/
theorem zipf_eq (h : PositivePowers power n) (hn : 0 < n) (hn' : n ≤ 2 ^ 20) (fuel : Nat)
    (hst : Normalized power n st) (hx : 0 < st.x) (hxm : st.x < m) :
    zipf power n (fuel + 1) st = some (.ok (rank power n st.x 0,
      ⟨false, normalization power n 0, Lehmer.next a m q r st.x⟩)) := by
  obtain ⟨hpos, hlt⟩ := decomposed.next_range hx hxm
  obtain ⟨i, hi, hin, hbelongs⟩ := exists_belongs (number_pos hpos)
    (number_le_last h hn hn' hpos hlt)
  have hmap := hbelongs.mapToValue h hi hin
  have hrank : rank power n st.x 0 = i := by
    change value power n (number (Lehmer.next a m q r st.x)) = i
    rw [value, hmap, Option.getD_some]
  obtain ⟨first, c, x⟩ := st
  have hassert : (decide (1 ≤ i) && decide (i ≤ n)) = true := by simp [Nat.succ_le_of_lt hi, hin]
  rw [hrank]
  cases first with
  | true =>
    obtain rfl : c = 0 := hst
    simp only [zipf, if_true, draw_succ hx hxm, hmap, hassert]
    rfl
  | false =>
    obtain rfl : c = normalization power n 0 := hst
    simp only [zipf, Bool.false_eq_true, if_false, draw_succ hx hxm, hmap, hassert]
    rfl

theorem zipfCalls_eq (h : PositivePowers power n) (hn : 0 < n) (hn' : n ≤ 2 ^ 20)
    (fuel count : Nat) (hst : Normalized power n st) (hx : 0 < st.x) (hxm : st.x < m) :
    ∃ st', Normalized power n st' ∧ zipfCalls power n (fuel + 1) count st =
      some (.ok ((List.range count).map (rank power n st.x), st')) := by
  induction count generalizing st with
  | zero => exact ⟨st, hst, rfl⟩
  | succ count ih =>
    obtain ⟨hpos, hlt⟩ := decomposed.next_range hx hxm
    have hnext : Normalized power n
      ⟨false, normalization power n 0, Lehmer.next a m q r st.x⟩ := rfl
    obtain ⟨st', hst', hcalls⟩ := ih hnext hpos hlt
    refine ⟨st', hst', ?_⟩
    rw [zipfCalls, zipf_eq h hn hn' fuel hst hx hxm]
    simp only [hcalls]
    rw [List.range_succ_eq_map, List.map_cons, List.map_map]
    rfl

/-- Whatever was drawn before, the ranks of a subpath are those of its seed. -/
theorem subpathCalls_eq (h : PositivePowers power n) (hn : 0 < n) (hn' : n ≤ 2 ^ 20) (fuel : Nat)
    {subpaths : List (Int × Nat)} (hseeds : ∀ s ∈ subpaths, 1 ≤ s.1 ∧ s.1 < intMax)
    (hst : Normalized power n st) :
    ∃ st', subpathCalls power n (fuel + 1) subpaths st =
      some (.ok (subpaths.map fun s => (List.range s.2).map (rank power n s.1), st')) := by
  induction subpaths generalizing st with
  | nil => exact ⟨st, rfl⟩
  | cons s subpaths ih =>
    obtain ⟨seed, count⟩ := s
    obtain ⟨hlow, hhigh⟩ : 1 ≤ seed ∧ seed < intMax := hseeds _ List.mem_cons_self
    have hinit : initZipf seed st.x = (0, seed) := by
      unfold initZipf randVal
      rw [if_neg (not_le.mpr hlow), if_pos (show seed > 0 from hlow)]
    have hseeded : Normalized power n { st with x := seed } := hst
    obtain ⟨st', hst', hcalls⟩ := zipfCalls_eq h hn hn' fuel count hseeded hlow hhigh
    obtain ⟨st'', hrest⟩ := ih (fun s hs => hseeds s (List.mem_cons_of_mem _ hs)) hst'
    refine ⟨st'', ?_⟩
    rw [subpathCalls, hinit]
    simp only [ne_eq, not_true_eq_false, if_false, hcalls, hrest]
    rfl

/-- With any positive powers and up to a million ranks, for all subpaths that are seeded with less
than `INT_MAX`: the first call of `zipf` prepares all others, every call returns a rank, the ranks
of a subpath are those of its seed alone, and in every `2 ^ 31 - 2` calls in a row rank `i` is
returned as often as `C / i ^ alpha` of `2 ^ 31 - 1` asks for, but for less than three calls. -/
theorem zipf_ranks (hpower : PositivePowers power n) (hn : 0 < n) (hn' : n ≤ 2 ^ 20) (fuel : Nat) :
    ∃ ranks : Int → Nat → Nat,
      (∀ subpaths : List (Int × Nat), (∀ s ∈ subpaths, 1 ≤ s.1 ∧ s.1 < intMax) →
        (subpathCalls power n (fuel + 1) subpaths .initial).map (Except.map Prod.fst) =
          some (.ok (subpaths.map fun s => (List.range s.2).map (ranks s.1)))) ∧
      ∀ seed : Int, 1 ≤ seed → seed < intMax →
        (∀ k, 1 ≤ ranks seed k ∧ ranks seed k ≤ n) ∧
        ∀ start i, 1 ≤ i → i ≤ n →
          |(((Finset.range (2 ^ 31 - 2)).filter fun k => ranks seed (start + k) = i).card : ℚ) -
            (2 ^ 31 - 1) * probability power n i| < 3 := by
  refine ⟨rank power n, fun subpaths hseeds => ?_, fun seed hlow hhigh =>
    ⟨fun k => ?_, fun start i hi hin => ?_⟩⟩
  · obtain ⟨st', hcalls⟩ := subpathCalls_eq hpower hn hn' fuel hseeds (normalized_initial power n)
    rw [hcalls]
    rfl
  · obtain ⟨hpos, hlt⟩ := generates.iterate_range hlow hhigh (k + 1)
    obtain ⟨i, hi, hin, hbelongs⟩ := exists_belongs (number_pos hpos)
      (number_le_last hpower hn hn' hpos hlt)
    have hrank : rank power n seed k = i := by
      rw [rank, value, hbelongs.mapToValue hpower hi hin, Option.getD_some]
    rw [hrank]
    exact ⟨hi, hin⟩
  · -- the calls from `start` on are a period of the generator
    obtain ⟨hpos, hlt⟩ := generates.iterate_range hlow hhigh (start + 1)
    obtain ⟨j, rfl⟩ := Nat.exists_eq_succ_of_ne_zero (by omega : i ≠ 0)
    have hrank : ∀ k, rank power n seed (start + k) = value power n
        (number ((Lehmer.next a m q r)^[k] ((Lehmer.next a m q r)^[start + 1] seed))) := fun k => by
      rw [rank, ← Function.iterate_add_apply]
      congr 3
      omega
    have hperiod := generates.card_iterate fullPeriod hpos hlt
      fun y => value power n (number y) = j + 1
    have hcalls : 2 ^ 31 - 2 = 2147483647 - 1 := rfl
    have hm : (2 : ℚ) ^ 31 - 1 = 2147483647 := by norm_num
    rw [Nat.cast_ofNat] at hperiod
    simp only [hrank]
    rw [hcalls, hm, Nat.succ_eq_add_one, hperiod]
    exact card_belongs hpower hn' hin

/-- A thousand ranks whose powers are the ranks themselves. -/
theorem zipf_ranks_thousand : ∃ ranks : Int → Nat → Nat,
    (∀ subpaths : List (Int × Nat), (∀ s ∈ subpaths, 1 ≤ s.1 ∧ s.1 < intMax) →
      (subpathCalls (fun i => i) 1000 1 subpaths .initial).map (Except.map Prod.fst) =
        some (.ok (subpaths.map fun s => (List.range s.2).map (ranks s.1)))) ∧
    ∀ seed : Int, 1 ≤ seed → seed < intMax →
      (∀ k, 1 ≤ ranks seed k ∧ ranks seed k ≤ 1000) ∧
      ∀ start i, 1 ≤ i → i ≤ 1000 →
        |(((Finset.range (2 ^ 31 - 2)).filter fun k => ranks seed (start + k) = i).card : ℚ) -
          (2 ^ 31 - 1) * probability (fun i => i) 1000 i| < 3 :=
  zipf_ranks (fun i _ => Nat.cast_pos.mpr i.succ_pos) (by decide) (by decide) 0

end Calls

end Genzipf

end Cachetest
