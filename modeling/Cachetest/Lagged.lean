import Mathlib.Data.Nat.Init
import Mathlib.Logic.Function.Basic

/-!
# Recurrences computed in place

A recurrence `x (k + N) = g (x (k + M)) (x k) (x (k + 1))` is determined by any `N` terms in a row
(`Solves.eq_of_window`). An array that holds `N` terms can be filled with the next `N` from its
first place to its last, because a place that is written is not read as an old term again
(`Refilled`).
-/

namespace Lagged

variable {α : Type*} {N M : Nat} {g : α → α → α → α} {x y : Nat → α}

/-- The sequence satisfies the recurrence. -/
def Solves (N M : Nat) (g : α → α → α → α) (x : Nat → α) : Prop :=
  ∀ k, x (k + N) = g (x (k + M)) (x k) (x (k + 1))

theorem Solves.shift (h : Solves N M g x) (b : Nat) : Solves N M g fun k => x (b + k) := by
  intro k
  have hk := h (b + k)
  simpa only [Nat.add_assoc] using hk

/-- The sequence that starts with given terms. -/
def term (hN : 1 < N) (hM : M < N) (g : α → α → α → α) (init : Nat → α) (k : Nat) : α :=
  if k < N then init k
  else
    g (term hN hM g init (k - N + M)) (term hN hM g init (k - N)) (term hN hM g init (k - N + 1))
termination_by k
decreasing_by all_goals omega

section Term

variable {hN : 1 < N} {hM : M < N} {init : Nat → α}

theorem term_of_lt {k : Nat} (hk : k < N) : term hN hM g init k = init k := by
  rw [term, if_pos hk]

theorem solves_term : Solves N M g (term hN hM g init) := by
  intro k
  rw [term, if_neg (by omega), Nat.add_sub_cancel]

end Term

/-- Two sequences that agree on a window agree from there on. -/
theorem Solves.eq_of_window (hN : 1 < N) (hM : M < N) (hx : Solves N M g x) (hy : Solves N M g y)
    (h : ∀ i < N, x i = y i) (k : Nat) : x k = y k := by
  induction k using Nat.strong_induction_on with
  | h k ih =>
    by_cases hk : k < N
    · exact h k hk
    · obtain ⟨j, rfl⟩ := Nat.exists_eq_add_of_le' (Nat.le_of_not_lt hk)
      rw [hx j, hy j, ih _ (by omega), ih _ (by omega), ih _ (by omega)]

/-! ## In place -/

/-- A loop keeps what holds before its rounds. -/
theorem fold_invariant {β : Type*} {n : Nat} {f : (i : Nat) → i < n → β → β} {init : β}
    (P : Nat → β → Prop) (hinit : P 0 init)
    (hstep : ∀ i (hi : i < n) b, P i b → P (i + 1) (f i hi b)) : P n (Nat.fold n f init) := by
  induction n with
  | zero => exact hinit
  | succ n ih =>
    rw [Nat.fold_succ]
    exact hstep n (Nat.lt_succ_self n) _ (ih fun i hi => hstep i (Nat.lt_succ_of_lt hi))

theorem map_fold {β γ : Type*} {n : Nat} {f : (i : Nat) → i < n → β → β}
    {f' : (i : Nat) → i < n → γ → γ} (φ : β → γ)
    (h : ∀ i (hi : i < n) b, φ (f i hi b) = f' i hi (φ b)) (init : β) :
    φ (Nat.fold n f init) = Nat.fold n f' (φ init) := by
  induction n with
  | zero => rfl
  | succ n ih =>
    rw [Nat.fold_succ, Nat.fold_succ, h, ih fun i hi => h i (Nat.lt_succ_of_lt hi)]

/-- The places before `j` hold the next terms already, the others the terms they held. -/
def Refilled (x : Nat → α) (s : Vector α N) (j : Nat) : Prop :=
  ∀ i (hi : i < N), s[i] = x (if i < j then i + N else i)

section Refilled

variable {s : Vector α N} {j : Nat}

theorem Refilled.new (h : Refilled x s j) {i : Nat} (hi : i < N) (hj : i < j) :
    s[i] = x (i + N) := by
  rw [h i hi, if_pos hj]

theorem Refilled.old (h : Refilled x s j) {i : Nat} (hi : i < N) (hj : j ≤ i) : s[i] = x i := by
  rw [h i hi, if_neg (Nat.not_lt.mpr hj)]

theorem Refilled.set (h : Refilled x s j) (hj : j < N) {v : α} (hv : v = x (j + N)) :
    Refilled x (s.set j v) (j + 1) := by
  intro i hi
  rw [Vector.getElem_set]
  by_cases heq : j = i
  · rw [if_pos heq, if_pos (by omega), hv, heq]
  · rw [if_neg heq, h i hi]
    by_cases hlt : i < j
    · rw [if_pos hlt, if_pos (by omega)]
    · rw [if_neg hlt, if_neg (by omega)]

end Refilled

end Lagged
