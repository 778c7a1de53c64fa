import Mathlib.Data.List.Perm.Basic
import Cachetest.Distribution
import Cachetest.MersenneTwister

/-!
# The ranks of the slots

`ZipfDistribution::doDistribute`, which shuffles an array of slots in place. The shuffle is sound as
long as it has a slot left to choose from, but the last round has none: it asks for a number up to
`0 - 1`, which as an `unsigned long` is the largest one. And the array is not filled with the slots
to begin with, but with zeros, so there is nothing to shuffle.
-/

namespace Cachetest

namespace ZipfDistribution

/-! ## The shuffle -/

/-- The three assignments that exchange `slots[i]` and `slots[j]`. -/
def exchange (slots : List Int) (i : Nat) (j : Int) : Outcome (List Int) :=
  if h : (0 ≤ j ∧ j.toNat < slots.length) ∧ i < slots.length then
    .ok ((slots.set j.toNat (slots.get ⟨i, h.2⟩)).set i (slots.get ⟨j.toNat, h.1.2⟩))
  else .error (.undefined "slots is accessed out of bounds")

/-- A round of the `while` loop, with `i` decremented already; `next` is the index of the next
number. A call of `randInt` draws `fuel` numbers at most. -/
def shuffleRound (numbers : Nat → BitVec 32) (fuel i : Nat) (s : Nat × List Int) :
    Option (Outcome (Nat × List Int)) :=
  match MTRand.randInt numbers (BitVec.ofInt 64 ((i : Int) - 1)) fuel s.1 with
  | none => none
  | some (r, next) =>
    let j : Int := (r.setWidth 32).toInt
    match exchange s.2 i j with
    | .error stop => some (.error stop)
    | .ok slots => some (.ok (next, slots))

/-- The `while` loop. -/
def shuffleLoop (numbers : Nat → BitVec 32) (fuel : Nat) :
    Nat → Nat × List Int → Option (Outcome (Nat × List Int))
  | 0, s => some (.ok s)
  | i + 1, s =>
    match shuffleRound numbers fuel i s with
    | none => none
    | some (.error stop) => some (.error stop)
    | some (.ok s) => shuffleLoop numbers fuel i s

/-- `doDistribute`: the slots at its end. -/
def doDistribute (numbers : Nat → BitVec 32) (fuel : Nat) (seed : Int) (numElements : Nat) :
    Option (Outcome (List Int)) :=
  if SubpathDistribution.initZipf seed < 0 then
    some (.error (.exited "Seeding Zipf failed\n" 1))
  else if intMax < numElements then some (.error (.undefined "i++ overflows"))
  else
    match shuffleLoop numbers fuel numElements (0, List.replicate numElements 0) with
    | none => none
    | some (.error stop) => some (.error stop)
    | some (.ok (_, slots)) => some (.ok slots)

/-! ## A round -/

section Round

variable {numbers : Nat → BitVec 32} {fuel i next : Nat} {slots slots' : List Int} {j : Int}
  {s s' : Nat × List Int} {stop : Stop}

theorem exchange_perm (h : exchange slots i j = .ok slots') : slots'.Perm slots := by
  unfold exchange at h
  split at h
  case isTrue hbounds =>
    obtain rfl := Except.ok.inj h
    exact List.set_set_perm hbounds.1.2 hbounds.2
  case isFalse => cases h

theorem shuffleRound_perm (h : shuffleRound numbers fuel i s = some (.ok s')) :
    s'.2.Perm s.2 := by
  unfold shuffleRound at h
  split at h
  case h_1 => cases h
  case h_2 r next hdraw =>
    dsimp only at h
    split at h
    case h_1 => cases h
    case h_2 slots hslots =>
      obtain rfl := Except.ok.inj (Option.some.inj h)
      exact exchange_perm hslots

/-- The last round takes the number as it is for an index. -/
theorem shuffleRound_zero : shuffleRound numbers (fuel + 1) 0 s =
    match exchange s.2 0 (numbers s.1).toInt with
    | .error stop => some (.error stop)
    | .ok slots => some (.ok (s.1 + 1, slots)) := by
  have hbound : BitVec.ofInt 64 (((0 : Nat) : Int) - 1) = -1 := by decide
  have hindex : ((numbers s.1).setWidth 64).setWidth 32 = numbers s.1 := by
    rw [BitVec.setWidth_setWidth_of_le _ (by decide), BitVec.setWidth_eq]
  rw [shuffleRound, hbound, MTRand.randInt_neg_one]
  dsimp only
  rw [hindex]

end Round

/-! ## The loop -/

section Loop

variable {numbers : Nat → BitVec 32} {fuel i n : Nat} {slots : List Int} {seed : Int}
  {s s' : Nat × List Int} {stop : Stop}

theorem shuffleLoop_perm (h : shuffleLoop numbers fuel i s = some (.ok s')) :
    s'.2.Perm s.2 := by
  induction i generalizing s with
  | zero =>
    obtain rfl := Except.ok.inj (Option.some.inj h)
    exact List.Perm.refl _
  | succ i ih =>
    rw [shuffleLoop] at h
    split at h
    case h_1 => cases h
    case h_2 => cases h
    case h_3 t hround => exact (ih h).trans (shuffleRound_perm hround)

theorem initZipf_of_pos (hseed : 0 < seed) : ¬SubpathDistribution.initZipf seed < 0 := by
  rw [SubpathDistribution.initZipf, if_neg (by omega)]
  decide

/-- What a run ends with is made of the zeros it starts with. -/
theorem doDistribute_perm (h : doDistribute numbers fuel seed n = some (.ok slots)) :
    slots.Perm (List.replicate n 0) := by
  unfold doDistribute at h
  split at h
  case isTrue => cases h
  case isFalse =>
    split at h
    case isTrue => cases h
    case isFalse =>
      split at h
      case h_1 => cases h
      case h_2 => cases h
      case h_3 next slots' hloop =>
        obtain rfl := Except.ok.inj (Option.some.inj h)
        exact shuffleLoop_perm hloop

theorem le_one_of_perm (h : (List.replicate n (0 : Int)).Perm ((List.range n).map Int.ofNat)) :
    n ≤ 1 := by
  by_contra hn
  have hone : (1 : Int) ∈ (List.range n).map Int.ofNat :=
    List.mem_map.mpr ⟨1, List.mem_range.mpr (by omega), rfl⟩
  exact absurd (List.eq_of_mem_replicate (h.symm.subset hone)) (by decide)

theorem doDistribute_one (hseed : 0 < seed) :
    (∃ fuel slots, doDistribute numbers fuel seed 1 = some (.ok slots)) ↔ numbers 0 = 0 := by
  have hrun : ∀ fuel, doDistribute numbers (fuel + 1) seed 1 =
      match exchange [0] 0 (numbers 0).toInt with
      | .error stop => some (.error stop)
      | .ok slots => some (.ok slots) := by
    intro fuel
    rw [doDistribute, if_neg (initZipf_of_pos hseed), if_neg (by decide), shuffleLoop,
      shuffleRound_zero, List.replicate_one]
    cases exchange [0] 0 (numbers 0).toInt with
    | error stop => rfl
    | ok slots => rfl
  constructor
  · rintro ⟨fuel, slots, h⟩
    cases fuel with
    | zero =>
      rw [doDistribute, if_neg (initZipf_of_pos hseed), if_neg (by decide)] at h
      cases h
    | succ fuel =>
      rw [hrun] at h
      by_cases hbounds : (0 ≤ (numbers 0).toInt ∧ (numbers 0).toInt.toNat < [(0 : Int)].length) ∧
          0 < [(0 : Int)].length
      · rw [List.length_singleton] at hbounds
        have hzero : (numbers 0).toInt = 0 := by omega
        exact BitVec.eq_of_toInt_eq hzero
      · rw [exchange, dif_neg hbounds] at h
        cases h
  · intro hzero
    refine ⟨1, [0], ?_⟩
    rw [hrun, hzero]
    rfl

/-- For every number of elements and every sequence of random numbers: the shuffle stays in bounds
and ends with a permutation of the slots if and only if there is one slot and the number drawn for
it is 0. -/
theorem shuffle_sound_iff (numbers : Nat → BitVec 32) (hseed : 0 < seed) (hn : 1 ≤ n) :
    (∃ fuel slots, doDistribute numbers fuel seed n = some (.ok slots) ∧
        slots.Perm ((List.range n).map Int.ofNat)) ↔
      n = 1 ∧ numbers 0 = 0 := by
  constructor
  · rintro ⟨fuel, slots, hrun, hperm⟩
    obtain rfl : n = 1 := by
      have hle := le_one_of_perm ((doDistribute_perm hrun).symm.trans hperm)
      omega
    exact ⟨rfl, (doDistribute_one hseed).mp ⟨fuel, slots, hrun⟩⟩
  · rintro ⟨rfl, hzero⟩
    obtain ⟨fuel, slots, hrun⟩ := (doDistribute_one hseed).mpr hzero
    exact ⟨fuel, slots, hrun, doDistribute_perm hrun⟩

/-- One element, and the number 0. -/
theorem shuffle_sound_iff_single :
    ∃ fuel slots, doDistribute (fun _ => 0) fuel 7 1 = some (.ok slots) ∧
      slots.Perm ((List.range 1).map Int.ofNat) :=
  (shuffle_sound_iff (fun _ => 0) (by decide : (0 : Int) < 7) le_rfl).mpr ⟨rfl, rfl⟩

/-- Two elements: the slots stay zeros with the numbers 0, and 5 is out of bounds. -/
theorem shuffle_fails_two_elements :
    doDistribute (fun _ => 0) 1 7 2 = some (.ok [0, 0]) ∧
      ¬[0, 0].Perm ((List.range 2).map Int.ofNat) ∧
      doDistribute (fun i => if i = 0 then 0 else 5) 1 7 2 =
        some (.error (.undefined "slots is accessed out of bounds")) :=
  ⟨rfl, by decide, rfl⟩

end Loop

end ZipfDistribution

end Cachetest
