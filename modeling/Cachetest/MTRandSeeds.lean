import Mathlib.Algebra.Group.Nat.Defs
import Cachetest.MTRandState

/-!
# Seeding the Mersenne twister

The two ways `MTRand` is seeded, with a number and with an array of numbers. The masks keep every
word below `2 ^ 32`, so a wider `uint32` gives the numbers that 32 bits give, and bits of a seed
above the lower 32 do not matter (`draw_seed`, `draw_seedArray`). And no seed leaves nothing but
zeros (`exists_draw_ne_zero`): the recurrence can be followed backwards far enough.
-/

namespace Cachetest

namespace MTRand

variable {w : Nat}

/-! ## The code -/

theorem zero_lt_N : 0 < 624 := by decide

theorem one_lt_N : 1 < 624 := by decide

/-- A round of the loop of `initialize`. -/
def initialRound (i : Nat) (_ : i < 623) (s : Vector (BitVec w) 624) : Vector (BitVec w) 624 :=
  s.set (i + 1) ((BitVec.ofNat w 1812433253 * (s[i] ^^^ s[i] >>> 30) + BitVec.ofNat w (i + 1)) &&&
    BitVec.ofNat w 0xffffffff)

/-- `initialize`, over what the array holds. -/
def initialState (s : Vector (BitVec w) 624) (seed : BitVec w) : Vector (BitVec w) 624 :=
  Nat.fold 623 initialRound (s.set 0 (seed &&& BitVec.ofNat w 0xffffffff) zero_lt_N)

/-- `seed` with a number. -/
def seed (g : MTRand w) (oneSeed : BitVec w) : MTRand w :=
  reload { g with state := initialState g.state oneSeed }

/-- The variables of the loops of `seed` with an array. -/
structure Filling (w seedLength : Nat) where
  state : Vector (BitVec w) 624
  i : Nat
  j : Nat
  i_pos : 0 < i
  i_lt : i < 624
  j_lt : j < seedLength

/-- Their values before the first one, for `n + 1` numbers. -/
def Filling.start (s : Vector (BitVec w) 624) (n : Nat) : Filling w (n + 1) where
  state := initialState s (BitVec.ofNat w 19650218)
  i := 1
  j := 0
  i_pos := Nat.one_pos
  i_lt := one_lt_N
  j_lt := n.succ_pos

/-- `++i`, and the first place again after the last one. -/
def Filling.nextPlace {n : Nat} (f : Filling w n) : Filling w n :=
  if h : f.i + 1 < 624 then { f with i := f.i + 1, i_pos := f.i.succ_pos, i_lt := h }
  else { f with
    state := f.state.set 0 f.state[623] zero_lt_N
    i := 1
    i_pos := Nat.one_pos
    i_lt := one_lt_N }

/-- `++j`, and the first number again after the last one. -/
def Filling.nextNumber {n : Nat} (f : Filling w n) : Filling w n :=
  if h : f.j + 1 < n then { f with j := f.j + 1, j_lt := h }
  else { f with j := 0, j_lt := Nat.zero_lt_of_lt f.j_lt }

/-- A round of the first loop. -/
def Filling.first {n : Nat} (bigSeed : Vector (BitVec w) n) (f : Filling w n) : Filling w n :=
  have hi := f.i_lt
  have hj := f.j_lt
  let previous := f.state[f.i - 1]
  let word := f.state[f.i] ^^^ (previous ^^^ previous >>> 30) * BitVec.ofNat w 1664525
  let word := word + ((bigSeed[f.j] &&& BitVec.ofNat w 0xffffffff) + BitVec.ofNat w f.j)
  let word := word &&& BitVec.ofNat w 0xffffffff
  { f with state := f.state.set f.i word }.nextPlace.nextNumber

/-- A round of the second loop. -/
def Filling.second {n : Nat} (f : Filling w n) : Filling w n :=
  have hi := f.i_lt
  let previous := f.state[f.i - 1]
  let word := f.state[f.i] ^^^ (previous ^^^ previous >>> 30) * BitVec.ofNat w 1566083941
  let word := word - BitVec.ofNat w f.i
  let word := word &&& BitVec.ofNat w 0xffffffff
  { f with state := f.state.set f.i word }.nextPlace

/-- The words `seed` with an array leaves, before the reload. -/
def filledState {n : Nat} (s : Vector (BitVec w) 624) (bigSeed : Vector (BitVec w) (n + 1)) :
    Vector (BitVec w) 624 :=
  let f := (Filling.first bigSeed)^[max 624 (n + 1)] (Filling.start s n)
  let f := Filling.second^[623] f
  f.state.set 0 (BitVec.ofNat w 0x80000000) zero_lt_N

/-- `seed` with an array, which is not empty. -/
def seedArray {n : Nat} (g : MTRand w) (bigSeed : Vector (BitVec w) (n + 1)) : MTRand w :=
  reload { g with state := filledState g.state bigSeed }

/-! ## Wider words -/

section Width

/-- The same number as a word of `w` bits. -/
abbrev widen (w : Nat) (u : BitVec 32) : BitVec w := u.setWidth w

/-- The lower 32 bits. -/
abbrev low (x : BitVec w) : BitVec 32 := x.setWidth 32

theorem low_widen (hw : 32 ≤ w) (u : BitVec 32) : low (widen w u) = u := by
  rw [low, widen, BitVec.setWidth_setWidth_of_le u hw, BitVec.setWidth_eq]

theorem low_ofNat (hw : 32 ≤ w) (n : Nat) : low (BitVec.ofNat w n) = BitVec.ofNat 32 n :=
  BitVec.setWidth_ofNat_of_le hw n

theorem low_sub (hw : 32 ≤ w) (x y : BitVec w) : low (x - y) = low x - low y := by
  rw [BitVec.sub_eq_add_neg, low, BitVec.setWidth_add _ _ hw, BitVec.setWidth_neg_of_le hw,
    ← BitVec.sub_eq_add_neg]

theorem and_mask (hw : 32 ≤ w) (x : BitVec w) :
    x &&& BitVec.ofNat w 0xffffffff = widen w (low x) := by
  have hmask : BitVec.ofNat 32 0xffffffff = BitVec.allOnes 32 := rfl
  rw [← BitVec.setWidth_ofNat_of_le_of_lt hw (by decide), XorShift.and_setWidth, hmask,
    BitVec.and_allOnes]

theorem widen_and_ofNat (hw : 32 ≤ w) (u : BitVec 32) {c : Nat} (hc : c < 2 ^ 32) :
    widen w u &&& BitVec.ofNat w c = widen w (u &&& BitVec.ofNat 32 c) := by
  rw [← BitVec.setWidth_ofNat_of_le_of_lt hw hc, ← BitVec.setWidth_and]

theorem widen_shiftLeft_and_ofNat (hw : 32 ≤ w) (u : BitVec 32) (k : Nat) {c : Nat}
    (hc : c < 2 ^ 32) :
    widen w u <<< k &&& BitVec.ofNat w c = widen w (u <<< k &&& BitVec.ofNat 32 c) := by
  have hlow : (widen w u <<< k).setWidth 32 = u <<< k := by
    have hback : (widen w u).setWidth 32 = u := low_widen hw u
    rw [BitVec.setWidth_shiftLeft_of_le hw, hback]
  rw [← BitVec.setWidth_ofNat_of_le_of_lt hw hc, XorShift.and_setWidth, hlow]

theorem widen_ushiftRight (hw : 32 ≤ w) (u : BitVec 32) (k : Nat) :
    widen w u >>> k = widen w (u >>> k) :=
  (BitVec.setWidth_ushiftRight hw).symm

theorem widen_eq_zero (hw : 32 ≤ w) {u : BitVec 32} : widen w u = 0 ↔ u = 0 := by
  have hzero : widen w 0 = 0 := BitVec.setWidth_zero w 32
  rw [← hzero]
  exact (XorShift.setWidth_injective hw).eq_iff

theorem mixBits_widen (hw : 32 ≤ w) (u v : BitVec 32) :
    mixBits (widen w u) (widen w v) = widen w (mixBits u v) := by
  rw [mixBits, hiBit, loBits, widen_and_ofNat hw _ (by decide), widen_and_ofNat hw _ (by decide),
    ← BitVec.setWidth_or]
  rfl

theorem magic_widen (hw : 32 ≤ w) (u : BitVec 32) : magic (widen w u) = widen w (magic u) := by
  have hbit : loBit (widen w u) = widen w (loBit u) := widen_and_ofNat hw u (by decide)
  simp only [magic, hbit, ne_eq, widen_eq_zero hw, ite_not]
  split_ifs with h
  · exact (BitVec.setWidth_zero w 32).symm
  · exact (BitVec.setWidth_ofNat_of_le_of_lt hw (by decide)).symm

theorem twist_widen (hw : 32 ≤ w) (m s0 s1 : BitVec 32) :
    twist (widen w m) (widen w s0) (widen w s1) = widen w (twist m s0 s1) := by
  rw [twist, mixBits_widen hw, magic_widen hw, widen_ushiftRight hw, ← BitVec.setWidth_xor,
    ← BitVec.setWidth_xor]
  rfl

theorem temper_widen (hw : 32 ≤ w) (u : BitVec 32) : temper (widen w u) = widen w (temper u) := by
  simp only [temper, widen_ushiftRight hw, ← BitVec.setWidth_xor,
    widen_shiftLeft_and_ofNat hw _ 7 (by decide : 0x9d2c5680 < 2 ^ 32),
    widen_shiftLeft_and_ofNat hw _ 15 (by decide : 0xefc60000 < 2 ^ 32)]

/-- An array of such words. -/
def widenState (w : Nat) (s : Vector (BitVec 32) 624) : Vector (BitVec w) 624 := s.map (widen w)

@[simp] theorem getElem_widenState (s : Vector (BitVec 32) 624) {i : Nat} (hi : i < 624) :
    (widenState w s)[i] = widen w s[i] :=
  Vector.getElem_map _ hi

theorem widenState_set (s : Vector (BitVec 32) 624) {i : Nat} (hi : i < 624) (u : BitVec 32) :
    widenState w (s.set i u) = (widenState w s).set i (widen w u) :=
  Vector.map_set

theorem reloadState_widen (hw : 32 ≤ w) (s : Vector (BitVec 32) 624) :
    reloadState (widenState w s) = widenState w (reloadState s) := by
  have hfirst : reloadFirst (widenState w s) = widenState w (reloadFirst s) :=
    (Lagged.map_fold (widenState w) (fun i hi s => by
      rw [widenState_set, ← twist_widen hw]
      simp only [getElem_widenState]) s).symm
  have hsecond : ∀ s, reloadSecond (widenState w s) = widenState w (reloadSecond s) := fun s =>
    (Lagged.map_fold (widenState w) (fun i hi s => by
      rw [widenState_set, ← twist_widen hw]
      simp only [getElem_widenState]) s).symm
  simp only [reloadState, hfirst, hsecond, widenState_set, ← twist_widen hw, getElem_widenState]

/-- The generator with wider words. -/
def widenRand (w : Nat) (g : MTRand 32) : MTRand w := { g with state := widenState w g.state }

theorem reload_widen (hw : 32 ≤ w) (g : MTRand 32) :
    (widenRand w g).reload = widenRand w g.reload := by
  rw [reload, widenRand, reloadState_widen hw]
  rfl

theorem refreshed_widen (hw : 32 ≤ w) (g : MTRand 32) :
    (widenRand w g).refreshed = widenRand w g.refreshed := by
  have hleft : (widenRand w g).left = g.left := rfl
  rw [refreshed, refreshed, reload_widen hw, hleft]
  split_ifs <;> rfl

theorem randInt32_widen (hw : 32 ≤ w) (g : MTRand 32) :
    randInt32 (widenRand w g) = ((randInt32 g).1.setWidth w, widenRand w (randInt32 g).2) := by
  have hlt := g.pNext_refreshed_lt
  simp only [randInt32, refreshed_widen hw]
  refine Prod.ext ?_ rfl
  change temper (widenState w g.refreshed.state)[g.refreshed.pNext] =
    widen w (temper g.refreshed.state[g.refreshed.pNext])
  rw [getElem_widenState, temper_widen hw]

theorem draw_widen (hw : 32 ≤ w) (g : MTRand 32) (n : Nat) :
    draw (widenRand w g) n = (draw g n).setWidth w := by
  have hcalls : Function.Semiconj (widenRand w) (fun g => (randInt32 g).2)
      (fun g => (randInt32 g).2) := fun g => (congrArg Prod.snd (randInt32_widen hw g)).symm
  rw [draw, draw, ← (hcalls.iterate_right n).eq, randInt32_widen hw]

/-! ## Seeds -/

/-- The words of `initialize`, in 32 bits. -/
def initialWord (seed : BitVec 32) : Nat → BitVec 32
  | 0 => seed
  | i + 1 =>
    BitVec.ofNat 32 1812433253 * (initialWord seed i ^^^ initialWord seed i >>> 30) +
      BitVec.ofNat 32 (i + 1)

theorem low_initialWord (hw : 32 ≤ w) (u : BitVec 32) (i : Nat) :
    low (BitVec.ofNat w 1812433253 * widen w u + BitVec.ofNat w (i + 1)) =
      BitVec.ofNat 32 1812433253 * u + BitVec.ofNat 32 (i + 1) := by
  rw [low, BitVec.setWidth_add _ _ hw, BitVec.setWidth_mul _ _ hw]
  simp only [low_ofNat hw, low_widen hw]

theorem getElem_initialState (hw : 32 ≤ w) (s : Vector (BitVec w) 624) (seed : BitVec w) {i : Nat}
    (hi : i < 624) : (initialState s seed)[i] = widen w (initialWord (low seed) i) := by
  refine Lagged.fold_invariant (fun j (s : Vector (BitVec w) 624) => ∀ i (hi : i < 624), i ≤ j →
    s[i] = widen w (initialWord (low seed) i)) ?first ?round i hi (by omega)
  case first =>
    intro i hi hle
    obtain rfl : i = 0 := Nat.le_zero.mp hle
    rw [Vector.getElem_set_self, and_mask hw, initialWord]
  case round =>
    intro j hj s hs i hi hle
    rw [initialRound]
    rcases Nat.eq_or_lt_of_le hle with rfl | hlt
    · rw [Vector.getElem_set_self, and_mask hw, hs j (by omega) (Nat.le_refl j),
        widen_ushiftRight hw, ← BitVec.setWidth_xor, low_initialWord hw, initialWord]
    · rw [Vector.getElem_set_ne _ _ (by omega)]
      exact hs i hi (by omega)

theorem initialState_eq (hw : 32 ≤ w) (s : Vector (BitVec w) 624) (seed : BitVec w)
    (t : Vector (BitVec 32) 624) :
    initialState s seed = widenState w (initialState t (low seed)) := by
  refine Vector.ext fun i hi => ?_
  have hback : low (low seed) = low seed := BitVec.setWidth_eq _
  rw [getElem_widenState, getElem_initialState hw, getElem_initialState (Nat.le_refl 32), hback]
  exact congrArg (widen w) (BitVec.setWidth_eq _).symm

/-- The variables of `seed` with wider words. -/
def Filling.widen {n : Nat} (w : Nat) (f : Filling 32 n) : Filling w n :=
  { f with state := widenState w f.state }

theorem and_mask_self (u : BitVec 32) : u &&& BitVec.ofNat 32 0xffffffff = u :=
  BitVec.and_allOnes

theorem low_mix (hw : 32 ≤ w) (u p : BitVec 32) (c : Nat) :
    low (widen w u ^^^ (widen w p ^^^ widen w p >>> 30) * BitVec.ofNat w c) =
      u ^^^ (p ^^^ p >>> 30) * BitVec.ofNat 32 c := by
  rw [widen_ushiftRight hw, ← BitVec.setWidth_xor, low, BitVec.setWidth_xor,
    BitVec.setWidth_mul _ _ hw]
  simp only [low_ofNat hw, low_widen hw]

section Filling

variable {n : Nat} {f : Filling 32 n}

theorem nextPlace_widen : (f.widen w).nextPlace = f.nextPlace.widen w := by
  by_cases h : f.i + 1 < 624
  · have h' : (f.widen w).i + 1 < 624 := h
    rw [Filling.nextPlace, Filling.nextPlace, dif_pos h, dif_pos h']
    rfl
  · have h' : ¬(f.widen w).i + 1 < 624 := h
    rw [Filling.nextPlace, Filling.nextPlace, dif_neg h, dif_neg h']
    simp only [Filling.widen, widenState_set, getElem_widenState]

theorem nextNumber_widen : (f.widen w).nextNumber = f.nextNumber.widen w := by
  by_cases h : f.j + 1 < n
  · have h' : (f.widen w).j + 1 < n := h
    rw [Filling.nextNumber, Filling.nextNumber, dif_pos h, dif_pos h']
    rfl
  · have h' : ¬(f.widen w).j + 1 < n := h
    rw [Filling.nextNumber, Filling.nextNumber, dif_neg h, dif_neg h']
    rfl

theorem first_widen (hw : 32 ≤ w) (bigSeed : Vector (BitVec w) n) :
    (f.widen w).first bigSeed = (f.first (bigSeed.map low)).widen w := by
  have hi := f.i_lt
  have hj := f.j_lt
  simp only [Filling.first, ← nextNumber_widen, ← nextPlace_widen]
  simp only [Filling.widen, widenState_set, getElem_widenState, Vector.getElem_map, and_mask hw,
    and_mask_self]
  rw [low, BitVec.setWidth_add _ _ hw, BitVec.setWidth_add _ _ hw]
  simp only [low_mix hw, low_ofNat hw, low_widen hw]

theorem second_widen (hw : 32 ≤ w) : (f.widen w).second = f.second.widen w := by
  have hi := f.i_lt
  simp only [Filling.second, ← nextPlace_widen]
  simp only [Filling.widen, widenState_set, getElem_widenState, and_mask hw, and_mask_self,
    low_sub hw, low_mix hw, low_ofNat hw]

end Filling

theorem start_widen (hw : 32 ≤ w) (s : Vector (BitVec w) 624) (t : Vector (BitVec 32) 624)
    (n : Nat) : Filling.start s n = (Filling.start t n).widen w := by
  have hstate := initialState_eq hw s (BitVec.ofNat w 19650218) t
  rw [low_ofNat hw] at hstate
  simp only [Filling.start, Filling.widen, hstate]

theorem filledState_eq (hw : 32 ≤ w) {n : Nat} (s : Vector (BitVec w) 624)
    (bigSeed : Vector (BitVec w) (n + 1)) (t : Vector (BitVec 32) 624) :
    filledState s bigSeed = widenState w (filledState t (bigSeed.map low)) := by
  have hfirst : Function.Semiconj (Filling.widen w) (Filling.first (bigSeed.map low))
      (Filling.first bigSeed) := fun f => (first_widen hw bigSeed).symm
  have hsecond : Function.Semiconj (Filling.widen w) (Filling.second (n := n + 1))
      Filling.second := fun f => (second_widen hw).symm
  have hmsb : BitVec.ofNat w 0x80000000 = widen w (BitVec.ofNat 32 0x80000000) :=
    (BitVec.setWidth_ofNat_of_le_of_lt hw (by decide)).symm
  simp only [filledState]
  rw [start_widen hw s t, ← (hfirst.iterate_right _).eq, ← (hsecond.iterate_right _).eq, hmsb]
  exact (widenState_set _ _ _).symm

/-- Both ways of seeding forget what the generator was before. -/
theorem seed_eq (hw : 32 ≤ w) (g : MTRand w) (g' : MTRand 32) (oneSeed : BitVec w) :
    g.seed oneSeed = widenRand w (g'.seed (low oneSeed)) := by
  rw [seed, seed, ← reload_widen hw, reload, reload, widenRand, initialState_eq hw _ _ g'.state]

theorem seedArray_eq (hw : 32 ≤ w) (g : MTRand w) (g' : MTRand 32) {n : Nat}
    (bigSeed : Vector (BitVec w) (n + 1)) :
    g.seedArray bigSeed = widenRand w (g'.seedArray (bigSeed.map low)) := by
  rw [seedArray, seedArray, ← reload_widen hw, reload, reload, widenRand,
    filledState_eq hw _ _ g'.state]

end Width

/-! ## The numbers after seeding -/

section Seeded

variable {x : Nat → BitVec 32}

theorem at_reload (g : MTRand w) : At (sequence g.state) 624 g.reload := by
  have hbefore : Lagged.Refilled (sequence g.state) g.state 0 := fun i hi => by
    rw [if_neg (Nat.not_lt_zero i), sequence_of_lt _ hi]
  have hafter := refilled_reloadState (recurs_sequence g.state) hbefore
  exact ⟨624, rfl, fun i hi => (hafter.new hi hi).trans (congrArg _ (Nat.add_comm i 624))⟩

theorem draw_reloaded (g : MTRand w) (n : Nat) :
    draw g.reload n = temper (sequence g.state (624 + n)) :=
  (at_reload g).draw (recurs_sequence _) n

/-- **The numbers are those of the recurrence in 32 bits**, however wide a `uint32` is: after
seeding with a number they are the tempered terms after the words of `initialize`, and after seeding
with an array those that the lower 32 bits of its numbers give. What the generator was before does
not matter. -/
theorem draw_seeded (hw : 32 ≤ w) (g : MTRand w) (g' : MTRand 32) :
    (∀ oneSeed, ∃ x : Nat → BitVec 32, Recurs x ∧
      (∀ i < 624, x i = initialWord (low oneSeed) i) ∧
      ∀ k, draw (g.seed oneSeed) k = (temper (x (624 + k))).setWidth w) ∧
    ∀ n (bigSeed : Vector (BitVec w) (n + 1)) k,
      draw (g.seedArray bigSeed) k = (draw (g'.seedArray (bigSeed.map low)) k).setWidth w := by
  constructor
  · intro oneSeed
    refine ⟨sequence (initialState g'.state (low oneSeed)), recurs_sequence _, fun i hi => ?_,
      fun k => ?_⟩
    · have hback : low (low oneSeed) = low oneSeed := BitVec.setWidth_eq _
      rw [sequence_of_lt _ hi, getElem_initialState (Nat.le_refl 32), hback]
      exact BitVec.setWidth_eq _
    · rw [seed_eq hw g g', draw_widen hw, seed, draw_reloaded]
  · intro n bigSeed k
    rw [seedArray_eq hw g g', draw_widen hw]

/-- A seed of 64 bits whose lower 32 bits are 5. -/
theorem draw_seeded_five :
    let g : MTRand 64 := ⟨Vector.replicate 624 0, 624, 0, rfl⟩
    let g' : MTRand 32 := ⟨Vector.replicate 624 0, 624, 0, rfl⟩
    ∀ k, draw (g.seedArray #v[0x100000005]) k = (draw (g'.seedArray #v[5]) k).setWidth 64 := by
  intro g g' k
  have hlow : (#v[0x100000005] : Vector (BitVec 64) 1).map low = #v[5] := by simp
  rw [← hlow]
  exact (draw_seeded (by decide) g g').2 0 #v[0x100000005] k

/-! ## Not only zeros -/

theorem hiBit_or_loBits (u : BitVec 32) : hiBit u ||| loBits u = u := by
  rw [hiBit, loBits, ← BitVec.and_or_distrib_left]
  exact BitVec.and_allOnes

/-- A zero comes only from zeros: the highest bit of `magic` says whether there was a low bit. -/
theorem mixBits_of_twist {a b : BitVec 32} (h : twist 0 a b = 0) : mixBits a b = 0 := by
  have hshift : mixBits a b >>> 1 = magic b := by
    have h : 0#32 ^^^ mixBits a b >>> 1 ^^^ magic b = 0#32 := h
    rw [BitVec.zero_xor] at h
    exact BitVec.xor_eq_zero_iff.mp h
  by_cases hlow : loBit b = 0
  · rw [magic, if_neg (not_not.mpr hlow)] at hshift
    refine BitVec.eq_of_getLsbD_eq fun i _ => ?_
    cases i with
    | zero =>
      have hbit : (loBit b).getLsbD 0 = false := by rw [hlow]; rfl
      simpa [mixBits, hiBit, loBits, loBit] using hbit
    | succ i =>
      have hbit : (mixBits a b >>> 1).getLsbD i = false := by rw [hshift]; exact BitVec.getLsbD_zero
      rw [BitVec.getLsbD_ushiftRight, Nat.add_comm] at hbit
      rw [hbit]
      exact BitVec.getLsbD_zero.symm
  · rw [magic, if_pos hlow] at hshift
    have hbit : (mixBits a b >>> 1).getLsbD 31 = true := by rw [hshift]; decide
    rw [BitVec.getLsbD_ushiftRight, BitVec.getLsbD_of_ge _ _ (by decide)] at hbit
    cases hbit

/-- Zeros in the middle of the sequence have come all the way from its second term. -/
theorem zeros_from_second (hx : Recurs x) {b : Nat} (h : ∀ i < 624, x (b + 1 + i) = 0) :
    (∀ i < 624, x (1 + i) = 0) ∧ hiBit (x 0) = 0 := by
  -- a window of zeros gives the bits of the two terms before it that it depends on
  have hbits : ∀ k, x (k + 624) = 0 → x (k + 397) = 0 →
      hiBit (x k) = 0 ∧ loBits (x (k + 1)) = 0 := fun k hnew hold => by
    have htwist := hx k
    rw [hnew, hold] at htwist
    exact BitVec.or_eq_zero_iff.mp (mixBits_of_twist htwist.symm)
  induction b with
  | zero =>
    have hfirst : ∀ i < 624, x (1 + i) = 0 := fun i hi => by
      rw [← h i hi, Nat.zero_add]
    exact ⟨hfirst, (hbits 0 (hfirst 623 (by decide)) (hfirst 396 (by decide))).1⟩
  | succ b ih =>
    refine ih fun i hi => ?_
    cases i with
    | zero =>
      have hhigh := (hbits (b + 1) (h 623 (by decide)) (h 396 (by decide))).1
      have hlow := (hbits b (h 622 (by decide)) (h 395 (by decide))).2
      rw [Nat.add_zero, ← hiBit_or_loBits (x (b + 1)), hhigh, hlow]
      rfl
    | succ i => rw [← h i (by omega), Nat.add_right_comm (b + 1) 1 i, Nat.add_assoc (b + 1)]

theorem widen_temper_eq_zero (hw : 32 ≤ w) {u : BitVec 32} (h : widen w (temper u) = 0) :
    u = 0 := by
  have hzero : temper (0 : BitVec 32) = 0 := by decide
  exact temper_injective ((widen_eq_zero hw).mp h |>.trans hzero.symm)

/-- When 624 numbers in a row are zero, most words were before the reload. -/
theorem zeros_of_draw (hw : 32 ≤ w) (g : MTRand 32) {start : Nat}
    (h : ∀ k < 624, draw (widenRand w g.reload) (start + k) = 0) :
    (∀ i (hi : i < 624), 0 < i → g.state[i] = 0) ∧ hiBit g.state[0] = 0 := by
  have hzeros : ∀ i < 624, sequence g.state (623 + start + 1 + i) = 0 := fun i hi => by
    have hdraw := h i hi
    rw [draw_widen hw, draw_reloaded] at hdraw
    rw [← widen_temper_eq_zero hw hdraw]
    congr 1
    omega
  obtain ⟨hsecond, hfirst⟩ := zeros_from_second (recurs_sequence g.state) hzeros
  rw [sequence_of_lt _ (by decide)] at hfirst
  refine ⟨fun i hi hpos => ?_, hfirst⟩
  rw [← sequence_of_lt _ hi, ← hsecond (i - 1) (by omega)]
  congr 1
  omega

/-- **No seed gives nothing but zeros.** After seeding with any number or any array, among any 624
numbers in a row there is one that is not zero. -/
theorem exists_draw_ne_zero (hw : 32 ≤ w) (g : MTRand w) (start : Nat) :
    (∀ oneSeed, ∃ k < 624, draw (g.seed oneSeed) (start + k) ≠ 0) ∧
    ∀ n (bigSeed : Vector (BitVec w) (n + 1)),
      ∃ k < 624, draw (g.seedArray bigSeed) (start + k) ≠ 0 := by
  let g' : MTRand 32 := ⟨Vector.replicate 624 0, 624, 0, rfl⟩
  constructor
  · intro oneSeed
    by_contra hnone
    have hall : ∀ k < 624, draw (g.seed oneSeed) (start + k) = 0 :=
      fun k hk => not_not.mp fun hne => hnone ⟨k, hk, hne⟩
    rw [seed_eq hw g g', seed] at hall
    have hwords := (zeros_of_draw hw _ hall).1
    -- the third word is the index that was added to it
    have hone := hwords 1 (by decide) (by decide)
    have htwo := hwords 2 (by decide) (by decide)
    simp only [getElem_initialState (Nat.le_refl 32), BitVec.setWidth_eq] at hone htwo
    rw [initialWord, hone] at htwo
    exact absurd htwo (by decide)
  · intro n bigSeed
    by_contra hnone
    have hall : ∀ k < 624, draw (g.seedArray bigSeed) (start + k) = 0 :=
      fun k hk => not_not.mp fun hne => hnone ⟨k, hk, hne⟩
    rw [seedArray_eq hw g g', seedArray] at hall
    have hfirst := (zeros_of_draw hw _ hall).2
    simp only [filledState, Vector.getElem_set_self] at hfirst
    exact absurd hfirst (by decide)

/-- A generator of an `unsigned long`, seeded with 1. -/
theorem exists_draw_ne_zero_one :
    let g : MTRand 64 := ⟨Vector.replicate 624 0, 624, 0, rfl⟩
    ∃ k < 624, draw (g.seed 1) (0 + k) ≠ 0 :=
  (exists_draw_ne_zero (by decide) _ 0).1 1

end Seeded

end MTRand

end Cachetest
