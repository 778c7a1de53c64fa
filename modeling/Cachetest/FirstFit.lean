import Mathlib.Data.List.Find

/-!
# Filling bins by first fit

Round after round a bin is offered, a list of places, and its first free place is taken. The
process ends at the first bin without a free place, or when the rounds are used up.

* `find?_eq_firstFree`: how a search that does not know the places taken finds the same place.
* `fill_invariant`: what every round keeps, the whole process keeps.
* `fromBins_fill`: the places taken lie, in order, in the bins offered.
* `fill_ends`: before the rounds are used up, it ends only at a bin that is full.
-/

namespace FirstFit

variable {α : Type*} {bin : Nat → List α} {taken places : List α} {a : α}

/-- Place `j` comes from bin `j`, from place `first` on. -/
def FromBins (bin : Nat → List α) (first : Nat) (taken : List α) : Prop :=
  ∀ j a, first ≤ j → taken[j]? = some a → a ∈ bin j

theorem FromBins.concat {first : Nat} (h : FromBins bin first taken) (ha : a ∈ bin taken.length) :
    FromBins bin first (taken ++ [a]) := by
  intro j b hj hb
  by_cases hlt : j < taken.length
  · rw [List.getElem?_append_left hlt] at hb
    exact h j b hj hb
  · obtain ⟨hjlen, -⟩ := List.getElem?_eq_some_iff.mp hb
    obtain rfl : j = taken.length := by
      rw [List.length_append, List.length_singleton] at hjlen
      omega
    rw [List.getElem?_concat_length] at hb
    exact Option.some.inj hb ▸ ha

variable [DecidableEq α]

/-- The first place that is not taken yet. -/
def firstFree (places taken : List α) : Option α := places.find? fun a => a ∉ taken

/-- The places that are taken in the end, with at most `rounds` rounds to go, the first of which is
offered `bin i`. -/
def fill (bin : Nat → List α) : Nat → Nat → List α → List α
  | 0, _, taken => taken
  | rounds + 1, i, taken =>
    match firstFree (bin i) taken with
    | none => taken
    | some a => fill bin rounds (i + 1) (taken ++ [a])

/-! ## One bin -/

theorem mem_of_firstFree (h : firstFree places taken = some a) : a ∈ places :=
  List.mem_of_find?_eq_some h

theorem mem_of_firstFree_eq_none (h : firstFree places taken = none) : ∀ a ∈ places, a ∈ taken := by
  rw [firstFree, List.find?_eq_none] at h
  simpa using h

theorem not_mem_of_firstFree (h : firstFree places taken = some a) : a ∉ taken := by
  rw [firstFree] at h
  simpa using List.find?_some h

theorem find?_eq_firstFree {free : α → Bool} (h : ∀ a ∈ places, free a = true ↔ a ∉ taken) :
    places.find? free = firstFree places taken := by
  apply List.find?_congr
  intro a ha
  rw [Bool.eq_iff_iff, h a ha, decide_eq_true_iff]

/-! ## All rounds -/

/-- What holds at the start, and is kept whenever a place is taken, holds at the end. -/
theorem fill_invariant {P : Nat → List α → Prop}
    (hstep : ∀ i taken a, P i taken → a ∈ bin i → a ∉ taken → P (i + 1) (taken ++ [a]))
    (rounds i : Nat) (h : P i taken) : ∃ j, P j (fill bin rounds i taken) := by
  induction rounds generalizing i taken with
  | zero => exact ⟨i, h⟩
  | succ rounds ih =>
    rw [fill]
    split
    case h_1 => exact ⟨i, h⟩
    case h_2 a hfree =>
      exact ih (i + 1) (hstep i taken a h (mem_of_firstFree hfree) (not_mem_of_firstFree hfree))

theorem fromBins_fill (bin : Nat → List α) (rounds : Nat) (taken : List α) :
    FromBins bin taken.length (fill bin rounds taken.length taken) := by
  have hstart : taken.length = taken.length ∧ FromBins bin taken.length taken := by
    refine ⟨rfl, fun j a hj ha => ?_⟩
    have hlt := (List.getElem?_eq_some_iff.mp ha).1
    omega
  obtain ⟨-, -, hbins⟩ := fill_invariant
    (P := fun i xs => xs.length = i ∧ FromBins bin taken.length xs)
    (fun i xs a h ha _ => by
      obtain ⟨rfl, hbins⟩ := h
      exact ⟨List.length_append, hbins.concat ha⟩) rounds taken.length hstart
  exact hbins

/-- With the rounds numbered by the places taken before them, the process uses all of them up, or
ends at a full bin. -/
theorem fill_ends (bin : Nat → List α) (rounds : Nat) (taken : List α) :
    (fill bin rounds taken.length taken).length = taken.length + rounds ∨
      ∀ a ∈ bin (fill bin rounds taken.length taken).length,
        a ∈ fill bin rounds taken.length taken := by
  induction rounds generalizing taken with
  | zero => exact Or.inl rfl
  | succ rounds ih =>
    rw [fill]
    split
    case h_1 hfull => exact Or.inr (mem_of_firstFree_eq_none hfull)
    case h_2 a hfree =>
      have hnext := ih (taken ++ [a])
      rw [List.length_append, List.length_singleton] at hnext
      exact hnext.imp_left fun hlen => by omega

end FirstFit
