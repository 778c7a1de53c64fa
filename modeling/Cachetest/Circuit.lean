import Mathlib.Data.List.Chain
import Mathlib.Data.List.Nodup
import Mathlib.Dynamics.PeriodicPts.Defs

/-!
# Walks and circuits of a successor function

`next : α → α` sends every point to the one that follows it. `Leads next xs z` says that
following `next` runs through the list `xs` in order and then arrives at `z`; a *circuit* is a
list without repetition that leads back to its own head.

* `leads_append`, `leads_concat`: walks are put together end to end.
* `leads_flatten`: stretches that lead to one another make one long walk.
* `IsCircuit.iterate`, `IsCircuit.minimalPeriod`: what iterating `next` does on a circuit.
-/

namespace Circuit

variable {α : Type*} {next next' : α → α}

/-- Following `next` runs through `xs` in order and then arrives at `z`. -/
def Leads (next : α → α) (xs : List α) (z : α) : Prop :=
  (xs ++ [z]).IsChain fun a b => next a = b

/-! ## Putting walks together -/

@[simp] theorem leads_nil (z : α) : Leads next [] z := by
  simp [Leads]

@[simp] theorem leads_singleton (a z : α) : Leads next [a] z ↔ next a = z := by
  simp [Leads]

theorem leads_cons_cons (a b z : α) (xs : List α) :
    Leads next (a :: b :: xs) z ↔ next a = b ∧ Leads next (b :: xs) z := by
  simp [Leads]

theorem leads_append (xs ys : List α) (y z : α) :
    Leads next (xs ++ y :: ys) z ↔ Leads next xs y ∧ Leads next (y :: ys) z := by
  unfold Leads
  rw [List.append_assoc, List.cons_append, List.isChain_split]

theorem leads_concat (xs : List α) (a z : α) :
    Leads next (xs ++ [a]) z ↔ Leads next xs a ∧ next a = z := by
  rw [leads_append, leads_singleton]

theorem Leads.congr {xs : List α} {z : α} (h : Leads next xs z)
    (heq : ∀ a ∈ xs, next' a = next a) : Leads next' xs z := by
  induction xs with
  | nil => simp
  | cons a xs ih =>
    cases xs with
    | nil =>
      rw [leads_singleton] at h ⊢
      rw [heq a (by simp), h]
    | cons b xs =>
      rw [leads_cons_cons] at h ⊢
      exact ⟨by rw [heq a (by simp), h.1], ih h.2 fun c hc => heq c (by simp [hc])⟩

/-- Extending a walk by its end point: the end point now leads on to `z`. -/
theorem Leads.extend {xs : List α} {a z : α} (h : Leads next xs a)
    (heq : ∀ b ∈ xs, next' b = next b) (ha : next' a = z) : Leads next' (xs ++ [a]) z :=
  (leads_concat xs a z).mpr ⟨h.congr heq, ha⟩

/-- Stretches, each leading to the head of the following one, make one long walk. -/
theorem leads_flatten (start : Nat → α) :
    ∀ cs : List (List α), (∀ k (hk : k < cs.length), cs[k].head? = some (start k)) →
      (∀ k (hk : k < cs.length), Leads next cs[k] (start (k + 1))) →
        Leads next cs.flatten (start cs.length) := by
  intro cs
  induction cs generalizing start with
  | nil => intro _ _; simp
  | cons c cs ih =>
    intro hhead hleads
    have htail : Leads next cs.flatten (start (cs.length + 1)) :=
      ih (fun k => start (k + 1))
        (fun k hk => hhead (k + 1) (by simpa using hk))
        (fun k hk => hleads (k + 1) (by simpa using hk))
    have hc : Leads next c (start 1) := hleads 0 (by simp)
    cases cs with
    | nil => simpa using hc
    | cons d ds =>
      have hd : d.head? = some (start 1) := hhead 1 (by simp)
      obtain ⟨ys, rfl⟩ : ∃ ys, d = start 1 :: ys := List.head?_eq_some_iff.mp hd
      simp only [List.flatten_cons, List.cons_append, List.length_cons] at htail ⊢
      exact (leads_append c _ _ _).mpr ⟨hc, htail⟩

/-- A walk is determined by where it starts and where it first arrives. -/
theorem Leads.unique {xs ys : List α} {z : α} (hxs : Leads next xs z) (hys : Leads next ys z)
    (hhead : xs.head? = ys.head?) (hx : z ∉ xs.tail) (hy : z ∉ ys.tail) : xs = ys := by
  induction xs generalizing ys with
  | nil =>
    symm
    simpa using hhead.symm
  | cons a xs ih =>
    obtain ⟨ys, rfl⟩ : ∃ ys', ys = a :: ys' := List.head?_eq_some_iff.mp hhead.symm
    cases xs with
    | nil =>
      cases ys with
      | nil => rfl
      | cons b ys =>
        rw [leads_singleton] at hxs
        rw [leads_cons_cons, hxs] at hys
        exact absurd (hys.1 ▸ List.mem_cons_self) hy
    | cons b xs =>
      rw [leads_cons_cons] at hxs
      cases ys with
      | nil =>
        rw [leads_singleton, hxs.1] at hys
        exact absurd (hys ▸ List.mem_cons_self) hx
      | cons c ys =>
        rw [leads_cons_cons, hxs.1] at hys
        obtain ⟨rfl, hys⟩ := hys
        rw [List.cons_inj_right]
        exact ih hxs.2 hys rfl (fun h => hx (List.mem_cons_of_mem _ h))
          (fun h => hy (List.mem_cons_of_mem _ h))

/-! ## Stepping along a walk -/

theorem Leads.getElem?_succ {xs : List α} {z a : α} (h : Leads next xs z) {j : Nat}
    (ha : xs[j]? = some a) : (xs ++ [z])[j + 1]? = some (next a) := by
  obtain ⟨hj, rfl⟩ := List.getElem?_eq_some_iff.mp ha
  have hj' : j + 1 < (xs ++ [z]).length := by simp; omega
  have hchain := List.isChain_iff_getElem.mp h j hj'
  rw [List.getElem_append_left hj] at hchain
  rw [List.getElem?_eq_getElem hj', hchain]

/-- `i` steps from the `j`-th point of a walk arrive at its `j + i`-th point. -/
theorem Leads.iterate {xs : List α} {z a : α} (h : Leads next xs z) {j i : Nat}
    (ha : (xs ++ [z])[j]? = some a) (hji : j + i ≤ xs.length) :
    (xs ++ [z])[j + i]? = some (next^[i] a) := by
  induction i with
  | zero => exact ha
  | succ i ih =>
    have hprev := ih (by omega)
    rw [List.getElem?_append_left (by omega)] at hprev
    rw [Function.iterate_succ_apply', ← Nat.add_assoc]
    exact h.getElem?_succ hprev

/-! ## Circuits -/

/-- Following `next` from `x` runs through `xs`, without repetition, and back to `x`. -/
structure IsCircuit (next : α → α) (x : α) (xs : List α) : Prop where
  head : xs.head? = some x
  nodup : xs.Nodup
  leads : Leads next xs x

namespace IsCircuit

variable {x : α} {xs : List α}

theorem length_pos (h : IsCircuit next x xs) : 0 < xs.length := by
  obtain ⟨ys, rfl⟩ := List.head?_eq_some_iff.mp h.head
  simp

theorem getElem?_zero (h : IsCircuit next x xs) : xs[0]? = some x := by
  rw [← List.head?_eq_getElem?, h.head]

theorem iterate_le (h : IsCircuit next x xs) {i : Nat} (hi : i ≤ xs.length) :
    (xs ++ [x])[i]? = some (next^[i] x) := by
  have hzero : (xs ++ [x])[0]? = some x := by
    rw [List.getElem?_append_left h.length_pos, h.getElem?_zero]
  have hit := h.leads.iterate hzero (i := i) (by omega)
  rwa [Nat.zero_add] at hit

theorem iterate_of_lt (h : IsCircuit next x xs) {i : Nat} (hi : i < xs.length) :
    xs[i]? = some (next^[i] x) := by
  rw [← h.iterate_le hi.le, List.getElem?_append_left hi]

theorem iterate_length (h : IsCircuit next x xs) : next^[xs.length] x = x := by
  have hit := h.iterate_le le_rfl
  rw [List.getElem?_append_right le_rfl] at hit
  simpa using hit.symm

theorem iterate (h : IsCircuit next x xs) (i : Nat) :
    xs[i % xs.length]? = some (next^[i] x) := by
  have hper : Function.IsPeriodicPt next xs.length x := h.iterate_length
  rw [← hper.iterate_mod_apply i]
  exact h.iterate_of_lt (Nat.mod_lt _ h.length_pos)

/-- The head first recurs after exactly one lap. -/
theorem minimalPeriod (h : IsCircuit next x xs) :
    Function.minimalPeriod next x = xs.length := by
  have hper : Function.IsPeriodicPt next xs.length x := h.iterate_length
  apply le_antisymm (hper.minimalPeriod_le h.length_pos)
  by_contra hlt
  have hlt' : Function.minimalPeriod next x < xs.length := Nat.lt_of_not_le hlt
  have hpos := hper.minimalPeriod_pos h.length_pos
  have hret : xs[Function.minimalPeriod next x]? = xs[0]? := by
    rw [h.iterate_of_lt hlt', h.getElem?_zero, Function.iterate_minimalPeriod]
  have hzero := (List.getElem?_inj hlt' h.nodup).mp hret
  omega

theorem mem_iff (h : IsCircuit next x xs) (a : α) :
    a ∈ xs ↔ ∃ i < xs.length, next^[i] x = a := by
  rw [List.mem_iff_getElem?]
  constructor
  · rintro ⟨i, hi⟩
    have hlt : i < xs.length := (List.getElem?_eq_some_iff.mp hi).1
    exact ⟨i, hlt, by simpa [h.iterate_of_lt hlt] using hi⟩
  · rintro ⟨i, hi, rfl⟩
    exact ⟨i, h.iterate_of_lt hi⟩

/-- A walk back to its head that does not meet it before is a circuit. -/
theorem of_leads {xs : List α} (hleads : Leads next (x :: xs) x) (hx : x ∉ xs) :
    IsCircuit next x (x :: xs) := by
  have hat : ∀ i (hi : i < (x :: xs).length), (x :: xs)[i] = next^[i] x := by
    intro i hi
    have hit := hleads.iterate (j := 0) (i := i) rfl (by omega)
    rw [Nat.zero_add, List.getElem?_append_left hi, List.getElem?_eq_getElem hi] at hit
    exact Option.some.inj hit
  have hlap : Function.IsPeriodicPt next (x :: xs).length x := by
    have hit := hleads.iterate (j := 0) (i := (x :: xs).length) rfl (by omega)
    rw [Nat.zero_add, List.getElem?_append_right le_rfl, Nat.sub_self] at hit
    exact (Option.some.inj hit).symm
  have hperiod : Function.minimalPeriod next x = (x :: xs).length := by
    refine le_antisymm (hlap.minimalPeriod_le (Nat.succ_pos _)) ?_
    by_contra hlt
    have hpos := hlap.minimalPeriod_pos (Nat.succ_pos _)
    obtain ⟨i, hi⟩ := Nat.exists_eq_succ_of_ne_zero hpos.ne'
    have hback := hat _ (Nat.lt_of_not_le hlt)
    rw [Function.iterate_minimalPeriod] at hback
    simp only [hi, List.getElem_cons_succ] at hback
    exact hx (hback ▸ List.getElem_mem _)
  refine ⟨rfl, List.nodup_iff_injective_getElem.mpr fun i j hij => Fin.ext ?_, hleads⟩
  have hinj := Function.iterate_injOn_Iio_minimalPeriod (f := next) (x := x)
  rw [hperiod] at hinj
  refine hinj i.isLt j.isLt ?_
  simpa only [hat _ i.isLt, hat _ j.isLt] using hij

theorem unique {ys : List α} (h : IsCircuit next x xs) (h' : IsCircuit next x ys) : xs = ys := by
  have hnew : ∀ {zs : List α}, IsCircuit next x zs → x ∉ zs.tail := by
    intro zs hz
    obtain ⟨zs, rfl⟩ := List.head?_eq_some_iff.mp hz.head
    exact (List.nodup_cons.mp hz.nodup).1
  exact h.leads.unique h'.leads (h.head.trans h'.head.symm) (hnew h) (hnew h')

/-- Every point recurs after one lap, so no two points share their successor. -/
theorem next_inj (h : IsCircuit next x xs) {a b : α} (ha : a ∈ xs) (hb : b ∈ xs)
    (hab : next a = next b) : a = b := by
  have hlap : ∀ c ∈ xs, next^[xs.length - 1] (next c) = c := by
    intro c hc
    obtain ⟨i, -, rfl⟩ := (h.mem_iff c).mp hc
    have hper : Function.IsPeriodicPt next xs.length (next^[i] x) :=
      Function.IsPeriodicPt.apply_iterate h.iterate_length i
    rw [← Function.iterate_succ_apply, Nat.succ_eq_add_one, Nat.sub_add_cancel h.length_pos]
    exact hper
  rw [← hlap a ha, hab, hlap b hb]

end IsCircuit

end Circuit
