import Mathlib.Data.List.Induction
import Mathlib.Data.Option.Basic
import Mathlib.Algebra.BigOperators.Group.List.Basic
import Mathlib.Algebra.GroupWithZero.Nat

/-!
# Runs of a transition system

A system is a partial function `step : σ → α → Option σ`: what performing an action does to a state,
if the action is possible. `run` performs a list of actions, in any order the list gives, so a
statement about all runs is a statement about all interleavings.

* `run_invariant`: what every step preserves holds after every run.
* `run_history`: the same for what relates a state to the actions that have led to it.
* `run_measure`: what every step decreases by its cost bounds the cost of a run.
* `run_simulation`: a step-by-step simulation, which may skip actions, carries whole runs over.
-/

namespace Runs

variable {σ τ α β : Type*} {step : σ → α → Option σ} {step' : τ → β → Option τ}

/-- Perform the actions one after the other; `none` when one of them is not possible. -/
def run (step : σ → α → Option σ) (s : σ) : List α → Option σ
  | [] => some s
  | a :: acts => (step s a).bind fun s' => run step s' acts

@[simp] theorem run_nil (s : σ) : run step s [] = some s := rfl

theorem run_cons {s s' : σ} {a : α} {acts : List α} :
    run step s (a :: acts) = some s' ↔ ∃ t, step s a = some t ∧ run step t acts = some s' := by
  simp [run, Option.bind_eq_some_iff]

theorem run_append {s s' : σ} {acts acts' : List α} :
    run step s (acts ++ acts') = some s' ↔
      ∃ t, run step s acts = some t ∧ run step t acts' = some s' := by
  induction acts generalizing s with
  | nil => simp
  | cons a acts ih =>
    simp only [List.cons_append, run_cons, ih]
    constructor
    · rintro ⟨t, hstep, u, hrun, hrest⟩
      exact ⟨u, ⟨t, hstep, hrun⟩, hrest⟩
    · rintro ⟨u, ⟨t, hstep, hrun⟩, hrest⟩
      exact ⟨t, hstep, u, hrun, hrest⟩

/-- The invariant rule. -/
theorem run_invariant {I : σ → Prop} {acts : List α}
    (hstep : ∀ s, ∀ a ∈ acts, ∀ s', I s → step s a = some s' → I s')
    {s s' : σ} (hs : I s) (hrun : run step s acts = some s') : I s' := by
  induction acts generalizing s with
  | nil => exact Option.some.inj hrun ▸ hs
  | cons a acts ih =>
    obtain ⟨t, hfirst, hrest⟩ := run_cons.mp hrun
    exact ih (fun s b hb => hstep s b (List.mem_cons_of_mem _ hb))
      (hstep s a List.mem_cons_self t hs hfirst) hrest

/-- The invariant rule with the actions so far. -/
theorem run_history {I : σ → List α → Prop} {s₀ : σ}
    (hstep : ∀ s acts a s', run step s₀ acts = some s → I s acts → step s a = some s' →
      I s' (acts ++ [a]))
    (hs : I s₀ []) {s : σ} {acts : List α} (hrun : run step s₀ acts = some s) : I s acts := by
  induction acts using List.reverseRecOn generalizing s with
  | nil => exact Option.some.inj hrun ▸ hs
  | append_singleton acts a ih =>
    obtain ⟨t, hfirst, hlast⟩ := run_append.mp hrun
    obtain ⟨t', ha, hnil⟩ := run_cons.mp hlast
    obtain rfl := Option.some.inj hnil
    exact hstep t acts a _ hfirst (ih hfirst) ha

/-- The ranking rule: `M s r` says that state `s` has at most `r` left to spend, and every step pays
its cost out of that. -/
theorem run_measure {M : σ → Nat → Prop} {cost : α → Nat}
    (hstep : ∀ s a s' r, M s r → step s a = some s' → ∃ r', M s' r' ∧ r' + cost a ≤ r)
    {s s' : σ} {r : Nat} (hs : M s r) {acts : List α} (hrun : run step s acts = some s') :
    ∃ r', M s' r' ∧ r' + (acts.map cost).sum ≤ r := by
  induction acts generalizing s r with
  | nil => exact ⟨r, Option.some.inj hrun ▸ hs, by simp⟩
  | cons a acts ih =>
    obtain ⟨t, hfirst, hrest⟩ := run_cons.mp hrun
    obtain ⟨r₁, ht, hpay⟩ := hstep s a t r hs hfirst
    obtain ⟨r₂, hs', hpay'⟩ := ih ht hrest
    exact ⟨r₂, hs', by rw [List.map_cons, List.sum_cons]; omega⟩

theorem sum_map_cost [DecidableEq α] (a : α) (acts : List α) :
    (acts.map fun b => if b = a then 1 else 0).sum = acts.count a := by
  induction acts with
  | nil => rfl
  | cons b acts ih =>
    simp only [List.map_cons, List.sum_cons, ih, List.count_cons, beq_iff_eq]
    omega

/-- The simulation rule: `f a` is what the simulating system does for `a`, if anything. -/
theorem run_simulation {R : σ → τ → Prop} {f : α → Option β}
    (hstep : ∀ s t a s', R s t → step s a = some s' →
      ∃ t', run step' t (f a).toList = some t' ∧ R s' t')
    {s s' : σ} {t : τ} (hs : R s t) {acts : List α} (hrun : run step s acts = some s') :
    ∃ t', run step' t (acts.filterMap f) = some t' ∧ R s' t' := by
  induction acts generalizing s t with
  | nil => exact ⟨t, rfl, Option.some.inj hrun ▸ hs⟩
  | cons a acts ih =>
    obtain ⟨u, hfirst, hrest⟩ := run_cons.mp hrun
    obtain ⟨t₁, hfirst', hu⟩ := hstep s t a u hs hfirst
    obtain ⟨t', hrest', hs'⟩ := ih hu hrest
    refine ⟨t', ?_, hs'⟩
    rw [show (a :: acts).filterMap f = (f a).toList ++ acts.filterMap f by
      cases hf : f a <;> simp [hf], run_append]
    exact ⟨t₁, hfirst', hrest'⟩

end Runs
