import Mathlib.Logic.Function.Iterate
import Cachetest.Lagged
import Cachetest.MersenneTwister
import Cachetest.XorShift

/-!
# The state of the Mersenne twister

`MTRand` of `MersenneTwister.h`: an array of 624 words, a pointer to the next one and the number of
words left before the array has to be reloaded. `uint32` is an `unsigned long`, so it is a word of
any width here.

The reload is done in place by three loops, whose bounds keep them from reading a word that is due
to be read as it was (`refilled_reloadState`). So the numbers are the tempered terms of one
recurrence, whatever the pointer is (`draw_eq`), and any 624 numbers in a row give all later ones.
-/

namespace Cachetest

/-- The members of `MTRand`, with `pNext` as an index. -/
structure MTRand (w : Nat) where
  state : Vector (BitVec w) 624
  pNext : Nat
  left : Nat
  pNext_add_left : pNext + left = 624

namespace MTRand

variable {w : Nat}

/-! ## The code -/

def hiBit (u : BitVec w) : BitVec w := u &&& BitVec.ofNat w 0x80000000

def loBit (u : BitVec w) : BitVec w := u &&& BitVec.ofNat w 0x00000001

def loBits (u : BitVec w) : BitVec w := u &&& BitVec.ofNat w 0x7fffffff

def mixBits (u v : BitVec w) : BitVec w := hiBit u ||| loBits v

def magic (u : BitVec w) : BitVec w := if loBit u ≠ 0 then BitVec.ofNat w 0x9908b0df else 0

def twist (m s0 s1 : BitVec w) : BitVec w := m ^^^ mixBits s0 s1 >>> 1 ^^^ magic s1

/-- The first loop of `reload`, with the pointer `p` at place `i`. -/
def reloadFirst (s : Vector (BitVec w) 624) : Vector (BitVec w) 624 :=
  Nat.fold 227 (fun i _ s => s.set i (twist s[i + 397] s[i] s[i + 1])) s

/-- The second one, with the pointer at place `i + 227`. -/
def reloadSecond (s : Vector (BitVec w) 624) : Vector (BitVec w) 624 :=
  Nat.fold 396 (fun i _ s => s.set (i + 227) (twist s[i] s[i + 227] s[i + 228])) s

/-- The words that `reload` generates. -/
def reloadState (s : Vector (BitVec w) 624) : Vector (BitVec w) 624 :=
  let s := reloadSecond (reloadFirst s)
  s.set 623 (twist s[396] s[623] s[0])

/-- `reload`. -/
def reload (g : MTRand w) : MTRand w where
  state := reloadState g.state
  pNext := 0
  left := 624
  pNext_add_left := rfl

/-- The shifts and masks at the end of `randInt()`. -/
def temper (s1 : BitVec w) : BitVec w :=
  let s1 := s1 ^^^ s1 >>> 11
  let s1 := s1 ^^^ (s1 <<< 7 &&& BitVec.ofNat w 0x9d2c5680)
  let s1 := s1 ^^^ (s1 <<< 15 &&& BitVec.ofNat w 0xefc60000)
  s1 ^^^ s1 >>> 18

/-- The first line of `randInt()`. -/
def refreshed (g : MTRand w) : MTRand w := if g.left = 0 then g.reload else g

theorem pNext_refreshed_lt (g : MTRand w) : g.refreshed.pNext < 624 := by
  have hsum := g.pNext_add_left
  unfold refreshed
  split_ifs with h
  · exact Nat.succ_pos 623
  · omega

/-- The rest of it, with a word left. -/
def take (g : MTRand w) (hlt : g.pNext < 624) : BitVec w × MTRand w :=
  (temper g.state[g.pNext], {
    state := g.state
    pNext := g.pNext + 1
    left := g.left - 1
    pNext_add_left := by
      have hsum := g.pNext_add_left
      omega })

/-- `randInt()`: the number and the generator after it. -/
def randInt32 (g : MTRand w) : BitVec w × MTRand w := take g.refreshed g.pNext_refreshed_lt

/-- Number `n` from here on. -/
def draw (g : MTRand w) (n : Nat) : BitVec w := ((fun g => (randInt32 g).2)^[n] g).randInt32.1

/-! ## The recurrence -/

/-- Tempering loses nothing. -/
theorem temper_injective : Function.Injective (temper : BitVec w → BitVec w) :=
  (XorShift.xor_ushiftRight_injective (by decide : 0 < 18)).comp
    ((XorShift.xor_shiftLeft_and_injective (by decide : 0 < 15) _).comp
      ((XorShift.xor_shiftLeft_and_injective (by decide : 0 < 7) _).comp
        (XorShift.xor_ushiftRight_injective (by decide : 0 < 11))))

/-- The recurrence of the generator. -/
abbrev Recurs (x : Nat → BitVec w) : Prop := Lagged.Solves 624 397 twist x

/-- The sequence that begins with the words of an array. -/
def sequence (s : Vector (BitVec w) 624) : Nat → BitVec w :=
  Lagged.term (by decide : 1 < 624) (by decide : 397 < 624) twist fun i => s[i]?.getD 0

theorem recurs_sequence (s : Vector (BitVec w) 624) : Recurs (sequence s) := Lagged.solves_term

theorem sequence_of_lt (s : Vector (BitVec w) 624) {i : Nat} (hi : i < 624) :
    sequence s i = s[i] := by
  rw [sequence, Lagged.term_of_lt hi, Vector.getElem?_eq_getElem hi, Option.getD_some]

section Reload

open Lagged

variable {x : Nat → BitVec w} {s : Vector (BitVec w) 624}

theorem refilled_reloadFirst (hx : Recurs x) (h : Refilled x s 0) :
    Refilled x (reloadFirst s) 227 :=
  fold_invariant (fun i s => Refilled x s i) h fun i hi s hs => by
    refine hs.set (by omega) ?_
    rw [hx i, hs.old (by omega) (by omega), hs.old (by omega) (Nat.le_refl _),
      hs.old (by omega) (by omega)]

theorem refilled_reloadSecond (hx : Recurs x) (h : Refilled x s 227) :
    Refilled x (reloadSecond s) 623 :=
  fold_invariant (fun i s => Refilled x s (i + 227)) h fun i hi s hs => by
    refine hs.set (by omega) ?_
    rw [hx (i + 227), hs.new (by omega) (by omega), hs.old (by omega) (Nat.le_refl _),
      hs.old (by omega) (by omega)]

/-- `reload` leaves the next 624 terms. -/
theorem refilled_reloadState (hx : Recurs x) (h : Refilled x s 0) :
    Refilled x (reloadState s) 624 := by
  have hloops := refilled_reloadSecond hx (refilled_reloadFirst hx h)
  refine hloops.set (by omega) ?_
  rw [hloops.new (by omega) (by omega), hloops.old (by omega) (Nat.le_refl _),
    hloops.new (by omega) (by omega)]
  exact (hx 623).symm

end Reload

/-! ## The numbers -/

/-- The generator has the words of `x` from a term on, and the next one it takes is term `p`. -/
def At (x : Nat → BitVec w) (p : Nat) (g : MTRand w) : Prop :=
  ∃ b, p = b + g.pNext ∧ ∀ i (hi : i < 624), g.state[i] = x (b + i)

section Numbers

variable {x : Nat → BitVec w} {p : Nat} {g g' : MTRand w}

theorem At.refreshed (hx : Recurs x) (h : At x p g) : At x p g.refreshed := by
  unfold MTRand.refreshed
  split_ifs with hleft
  · obtain ⟨b, rfl, hstate⟩ := h
    have hsum := g.pNext_add_left
    have hbefore : Lagged.Refilled (fun k => x (b + k)) g.state 0 := fun i hi => by
      rw [if_neg (Nat.not_lt_zero i), hstate i hi]
    have hafter := refilled_reloadState (hx.shift b) hbefore
    refine ⟨b + 624, ?_, fun i hi => ?_⟩
    · change b + g.pNext = b + 624 + 0
      omega
    · rw [reload, hafter.new hi hi, Nat.add_right_comm, Nat.add_assoc b i]
  · exact h

theorem At.randInt32 (hx : Recurs x) (h : At x p g) :
    (randInt32 g).1 = temper (x p) ∧ At x (p + 1) (randInt32 g).2 := by
  obtain ⟨b, hp, hstate⟩ := h.refreshed hx
  constructor
  · have hlt := g.pNext_refreshed_lt
    change temper g.refreshed.state[g.refreshed.pNext] = _
    rw [hstate _ hlt, hp]
  · refine ⟨b, ?_, hstate⟩
    rw [hp]
    rfl

theorem At.draw (hx : Recurs x) (h : At x p g) (n : Nat) : draw g n = temper (x (p + n)) := by
  have hat : ∀ n, At x (p + n) ((fun g => (MTRand.randInt32 g).2)^[n] g) := fun n => by
    induction n with
    | zero => exact h
    | succ n ih =>
      rw [Function.iterate_succ_apply']
      exact (ih.randInt32 hx).2
  exact ((hat n).randInt32 hx).1

/-- Every generator is somewhere in the sequence of its words. -/
theorem at_sequence (g : MTRand w) : At (sequence g.state) g.pNext g :=
  ⟨0, (Nat.zero_add _).symm, fun i hi => by rw [Nat.zero_add, sequence_of_lt _ hi]⟩

theorem draw_eq (g : MTRand w) (n : Nat) :
    draw g n = temper (sequence g.state (g.pNext + n)) :=
  (at_sequence g).draw (recurs_sequence _) n

/-- **624 numbers in a row give the generator away.** Whatever state two generators are in, and
wherever their pointers are: when they agree on 624 numbers in a row, they agree on all later
ones. -/
theorem draw_determined (start start' : Nat)
    (h : ∀ n < 624, draw g (start + n) = draw g' (start' + n)) (n : Nat) :
    draw g (start + n) = draw g' (start' + n) := by
  have hx := (recurs_sequence g.state).shift (g.pNext + start)
  have hy := (recurs_sequence g'.state).shift (g'.pNext + start')
  have hwindow := hx.eq_of_window (by decide) (by decide) hy fun i hi => by
    have hdraw := h i hi
    rw [draw_eq, draw_eq, ← Nat.add_assoc, ← Nat.add_assoc] at hdraw
    exact temper_injective hdraw
  rw [draw_eq, draw_eq, ← Nat.add_assoc, ← Nat.add_assoc]
  exact congrArg temper (hwindow n)

/-- To reload when nothing is left is what the next call does anyway. -/
theorem randInt32_reload (hleft : g.left = 0) : MTRand.randInt32 g.reload = MTRand.randInt32 g := by
  have hreloaded : g.reload.refreshed = g.reload := if_neg (by decide : ¬624 = 0)
  have hreload : g.refreshed = g.reload := if_pos hleft
  simp only [MTRand.randInt32, hreloaded, hreload]

theorem draw_reload (hleft : g.left = 0) (n : Nat) : draw g.reload n = draw g n := by
  cases n with
  | zero => exact congrArg Prod.fst (randInt32_reload hleft)
  | succ n => rw [draw, draw, Function.iterate_succ_apply, Function.iterate_succ_apply,
      randInt32_reload hleft]

/-- A generator whose words are used up agrees with itself after a reload. -/
theorem draw_determined_reloaded :
    let g : MTRand 32 := ⟨Vector.ofFn fun i : Fin 624 => BitVec.ofNat 32 i, 624, 0, rfl⟩
    ∀ n, draw g (0 + n) = draw g.reload (0 + n) :=
  draw_determined 0 0 fun n _ => (draw_reload rfl (0 + n)).symm

end Numbers

end MTRand

end Cachetest
