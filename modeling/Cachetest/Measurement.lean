import Cachetest.Runs

/-!
# Measurements

What a measurement is for: some parties do their units of work between two moments, and at the end
it is known how much each of them has done. Work outside of that time is not possible.

* `recorded_run`: the observations of a run are the beginning, the work and the end, in that order.
-/

namespace Measurement

open Runs

variable {ι : Type*} [DecidableEq ι]

inductive Stage where
  | before
  | during
  | after
  deriving DecidableEq, Repr

/-- What an observer of a measurement sees. -/
inductive Observation (ι : Type*) where
  | start
  | work (i : ι)
  | finish
  deriving DecidableEq, Repr

/-- A measurement and the work done in it. -/
structure Measured (ι : Type*) where
  stage : Stage
  done : ι → Nat

def Measured.initial : Measured ι := ⟨.before, fun _ => 0⟩

def Measured.step (s : Measured ι) : Observation ι → Option (Measured ι)
  | .start => if s.stage = .before then some { s with stage := .during } else none
  | .work i =>
    if s.stage = .during then some { s with done := Function.update s.done i (s.done i + 1) }
    else none
  | .finish => if s.stage = .during then some { s with stage := .after } else none

/-- The observations that lead to a state: the units of work are those of `works`, in this order. -/
def Recorded (s : Measured ι) (obs : List (Observation ι)) : Prop :=
  ∃ works : List ι, (∀ i, s.done i = works.count i) ∧
    match s.stage with
    | .before => works = [] ∧ obs = []
    | .during => obs = .start :: works.map .work
    | .after => obs = .start :: works.map .work ++ [.finish]

theorem recorded_step {s s' : Measured ι} {obs : List (Observation ι)} {e : Observation ι}
    (h : Recorded s obs) (hstep : s.step e = some s') : Recorded s' (obs ++ [e]) := by
  obtain ⟨works, hdone, hobs⟩ := h
  cases e with
  | start =>
    simp only [Measured.step, Option.ite_none_right_eq_some, Option.some.injEq] at hstep
    obtain ⟨hstage, rfl⟩ := hstep
    rw [hstage] at hobs
    obtain ⟨rfl, rfl⟩ := hobs
    exact ⟨[], hdone, rfl⟩
  | work i =>
    simp only [Measured.step, Option.ite_none_right_eq_some, Option.some.injEq] at hstep
    obtain ⟨hstage, rfl⟩ := hstep
    rw [hstage] at hobs
    refine ⟨works ++ [i], fun j => ?_, ?_⟩
    · rw [List.count_append, List.count_singleton]
      by_cases hji : j = i
      · subst hji
        simp [hdone]
      · simp [Function.update_of_ne hji, hdone, Ne.symm hji]
    · simp [hstage, hobs]
  | finish =>
    simp only [Measured.step, Option.ite_none_right_eq_some, Option.some.injEq] at hstep
    obtain ⟨hstage, rfl⟩ := hstep
    rw [hstage] at hobs
    exact ⟨works, hdone, by simp [hobs]⟩

/-- Every run of a measurement is a beginning, work, and an end. -/
theorem recorded_run {s : Measured ι} {obs : List (Observation ι)}
    (hrun : run Measured.step .initial obs = some s) : Recorded s obs :=
  run_history (fun _ _ _ _ _ => recorded_step) ⟨[], fun _ => rfl, rfl, rfl⟩ hrun

end Measurement
