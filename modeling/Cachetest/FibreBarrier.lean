import Mathlib.Algebra.BigOperators.Fin
import Mathlib.Algebra.Order.BigOperators.Group.Finset
import Cachetest.Runs

/-!
# The barrier of the fibres

`fibreTest` waits until every fibre has counted itself at the barrier, and then expects to be the
last one to arrive there. But `fibreCallback` counts a fibre before it arrives, so the main fibre
can overtake it.

The invariant `Counted` ties both counters to the phases of the fibres. At the moment the main
fibre arrives, it is the last one exactly when no fibre is between its two steps.
-/

namespace Cachetest

open Runs

/-! ## Sums over all components -/

theorem sum_comp_update {ι α : Type*} [Fintype ι] [DecidableEq ι] (w : α → Nat) (f : ι → α) (i : ι)
    (x : α) : ∑ j, w (Function.update f i x j) + w (f i) = ∑ j, w (f j) + w x := by
  have hcomp : ∀ j, w (Function.update f i x j) = Function.update (w ∘ f) i (w x) j := by
    intro j
    rw [← Function.comp_update]
    rfl
  simp only [hcomp]
  rw [Finset.sum_update_of_mem (Finset.mem_univ i), Finset.sdiff_singleton_eq_erase,
    ← Finset.add_sum_erase Finset.univ (fun j => w (f j)) (Finset.mem_univ i)]
  simp only [Function.comp_apply]
  omega

theorem sum_comp_update_of_eq {ι α : Type*} [Fintype ι] [DecidableEq ι] (w : α → Nat) (f : ι → α)
    (i : ι) {x : α} (h : w x = w (f i)) : ∑ j, w (Function.update f i x j) = ∑ j, w (f j) := by
  have hsum := sum_comp_update w f i x
  omega

/-! ## The system -/

/-- Where a fibre is in `fibreCallback`: created or not, after `numAtBarrior.fetch_add(1)`, and in
`fibre_barrier_wait`, which is going to return `PTHREAD_BARRIER_SERIAL_THREAD` or 0. -/
inductive FibrePhase where
  | uncreated
  | running
  | announced
  | arrived (serial : Bool)
  deriving DecidableEq, Repr

/-- Where the main fibre is in `fibreTest`: spawning fibre `curFibreIdx`, spinning on
`numAtBarrior`, past that loop, in `fibre_barrier_wait`, and back from it. -/
inductive MainPhase where
  | spawning (curFibreIdx : Nat)
  | spinning
  | released
  | arrived (serial : Bool)
  | returned (serial : Bool)
  deriving DecidableEq, Repr

/-- The main fibre and its `n` fibres. -/
structure FibreTest (n : Nat) where
  fibre : Fin n → FibrePhase
  main : MainPhase
  numAtBarrior : Nat
  /-- How many have called `fibre_barrier_wait(&testBarrier)`. -/
  arrivals : Nat

/-- One atomic step of one fibre. -/
inductive FibreAction (n : Nat) where
  | spawn
  | announce (i : Fin n)
  | arrive (i : Fin n)
  | release
  | arriveMain
  | returnMain
  deriving DecidableEq, Repr

namespace FibreTest

variable {n : Nat}

def initial (n : Nat) : FibreTest n := ⟨fun _ => .uncreated, .spawning 0, 0, 0⟩

/-- What `fibre_barrier_wait` gives to the next arrival at a barrier for `n + 1`: the value
`PTHREAD_BARRIER_SERIAL_THREAD` goes to exactly the last one. -/
def nextSerial (s : FibreTest n) : Bool := s.arrivals + 1 == n + 1

def step (s : FibreTest n) : FibreAction n → Option (FibreTest n)
  | .spawn =>
    match s.main with
    | .spawning curFibreIdx =>
      if h : curFibreIdx < n then
        some { s with
          fibre := Function.update s.fibre ⟨curFibreIdx, h⟩ .running
          main := .spawning (curFibreIdx + 1) }
      else some { s with main := .spinning }
    | _ => none
  | .announce i =>
    if s.fibre i = .running then
      some { s with
        fibre := Function.update s.fibre i .announced
        numAtBarrior := s.numAtBarrior + 1 }
    else none
  | .arrive i =>
    if s.fibre i = .announced then
      some { s with
        fibre := Function.update s.fibre i (.arrived s.nextSerial)
        arrivals := s.arrivals + 1 }
    else none
  | .release =>
    if s.main = .spinning ∧ s.numAtBarrior = n then some { s with main := .released } else none
  | .arriveMain =>
    if s.main = .released then
      some { s with main := .arrived s.nextSerial, arrivals := s.arrivals + 1 }
    else none
  | .returnMain =>
    match s.main with
    | .arrived serial =>
      if s.arrivals = n + 1 then some { s with main := .returned serial } else none
    | _ => none

/-! ## What a step does -/

variable {s s' : FibreTest n}

theorem step_spawn (h : s.step .spawn = some s') :
    ∃ cur, s.main = .spawning cur ∧
      ((∃ hcur : cur < n, s' = { s with
          fibre := Function.update s.fibre ⟨cur, hcur⟩ .running, main := .spawning (cur + 1) }) ∨
        (¬cur < n ∧ s' = { s with main := .spinning })) := by
  simp only [step] at h
  split at h
  case h_1 cur hmain =>
    refine ⟨cur, hmain, ?_⟩
    split at h
    case isTrue hcur => exact Or.inl ⟨hcur, (Option.some.inj h).symm⟩
    case isFalse hcur => exact Or.inr ⟨hcur, (Option.some.inj h).symm⟩
  case h_2 => cases h

theorem step_announce {i : Fin n} (h : s.step (.announce i) = some s') :
    s.fibre i = .running ∧ s' = { s with
      fibre := Function.update s.fibre i .announced, numAtBarrior := s.numAtBarrior + 1 } := by
  simp only [step, Option.ite_none_right_eq_some, Option.some.injEq] at h
  exact ⟨h.1, h.2.symm⟩

theorem step_arrive {i : Fin n} (h : s.step (.arrive i) = some s') :
    s.fibre i = .announced ∧ s' = { s with
      fibre := Function.update s.fibre i (.arrived s.nextSerial), arrivals := s.arrivals + 1 } := by
  simp only [step, Option.ite_none_right_eq_some, Option.some.injEq] at h
  exact ⟨h.1, h.2.symm⟩

theorem step_release (h : s.step .release = some s') :
    s.main = .spinning ∧ s.numAtBarrior = n ∧ s' = { s with main := .released } := by
  simp only [step, Option.ite_none_right_eq_some, Option.some.injEq] at h
  exact ⟨h.1.1, h.1.2, h.2.symm⟩

theorem step_arriveMain (h : s.step .arriveMain = some s') :
    s.main = .released ∧
      s' = { s with main := .arrived s.nextSerial, arrivals := s.arrivals + 1 } := by
  simp only [step, Option.ite_none_right_eq_some, Option.some.injEq] at h
  exact ⟨h.1, h.2.symm⟩

theorem step_returnMain (h : s.step .returnMain = some s') :
    ∃ serial, s.main = .arrived serial ∧ s' = { s with main := .returned serial } := by
  simp only [step] at h
  split at h
  case h_1 serial hmain =>
    rw [Option.ite_none_right_eq_some] at h
    exact ⟨serial, hmain, (Option.some.inj h.2).symm⟩
  case h_2 => cases h

/-! ## The counters -/

/-- What a fibre has added to `numAtBarrior`. -/
def announcements : FibrePhase → Nat
  | .announced | .arrived _ => 1
  | _ => 0

/-- What a fibre has added to the arrivals. -/
def fibreArrivals : FibrePhase → Nat
  | .arrived _ => 1
  | _ => 0

def mainArrivals : MainPhase → Nat
  | .arrived _ | .returned _ => 1
  | _ => 0

/-- The counters count what the fibres have done, and the main fibre leaves its loop only when all
fibres have counted themselves. -/
structure Counted (s : FibreTest n) : Prop where
  uncreated : ∀ cur, s.main = .spawning cur → ∀ i : Fin n, cur ≤ i → s.fibre i = .uncreated
  numAtBarrior : s.numAtBarrior = ∑ i, announcements (s.fibre i)
  arrivals : s.arrivals = (∑ i, fibreArrivals (s.fibre i)) + mainArrivals s.main
  released : s.main = .released → ∀ i, announcements (s.fibre i) = 1

theorem announcements_le (p : FibrePhase) : announcements p ≤ 1 := by
  cases p <;> simp [announcements]

theorem fibreArrivals_le (p : FibrePhase) : fibreArrivals p ≤ announcements p := by
  cases p <;> simp [announcements, fibreArrivals]

theorem fibreArrivals_eq_iff {p : FibrePhase} (h : announcements p = 1) :
    fibreArrivals p = announcements p ↔ p ≠ .announced := by
  cases p <;> simp_all [announcements, fibreArrivals]

theorem counted_initial (n : Nat) : Counted (initial n) where
  uncreated _ _ _ _ := rfl
  numAtBarrior := by simp [initial, announcements]
  arrivals := by simp [initial, fibreArrivals, mainArrivals]
  released h := by simp [initial] at h

theorem Counted.move (h : Counted s) {i : Fin n} (hcreated : s.fibre i ≠ .uncreated)
    {p : FibrePhase} (hle : announcements (s.fibre i) ≤ announcements p)
    {numAtBarrior arrivals : Nat}
    (hnum : numAtBarrior + announcements (s.fibre i) = s.numAtBarrior + announcements p)
    (harr : arrivals + fibreArrivals (s.fibre i) = s.arrivals + fibreArrivals p) :
    Counted { s with
      fibre := Function.update s.fibre i p
      numAtBarrior := numAtBarrior
      arrivals := arrivals } where
  uncreated cur hmain j hj := by
    have hji : j ≠ i := by
      rintro rfl
      exact hcreated (h.uncreated cur hmain j hj)
    exact (Function.update_of_ne hji _ _).trans (h.uncreated cur hmain j hj)
  numAtBarrior := by
    have hsum := sum_comp_update announcements s.fibre i p
    have hnum' := h.numAtBarrior
    simp only
    omega
  arrivals := by
    have hsum := sum_comp_update fibreArrivals s.fibre i p
    have harr' := h.arrivals
    simp only
    omega
  released hmain j := by
    by_cases hji : j = i
    · subst hji
      simp only [Function.update_self]
      have hone := h.released hmain j
      have hle' := announcements_le p
      omega
    · simp only [Function.update_of_ne hji]
      exact h.released hmain j

theorem counted_step {a : FibreAction n} (h : Counted s) (hstep : s.step a = some s') :
    Counted s' := by
  cases a with
  | spawn =>
    obtain ⟨cur, hmain, ⟨hcur, rfl⟩ | ⟨-, rfl⟩⟩ := step_spawn hstep
    · have hold : s.fibre ⟨cur, hcur⟩ = .uncreated := h.uncreated cur hmain _ le_rfl
      refine ⟨fun cur' hmain' i hi => ?_, ?_, ?_, fun hmain' => by simp at hmain'⟩
      · obtain rfl := MainPhase.spawning.inj hmain'
        have hne : i ≠ ⟨cur, hcur⟩ := fun heq => by
          rw [heq] at hi
          exact Nat.not_succ_le_self cur hi
        exact (Function.update_of_ne hne _ _).trans (h.uncreated cur hmain i (Nat.le_of_succ_le hi))
      · exact h.numAtBarrior.trans
          (sum_comp_update_of_eq announcements _ _ (by rw [hold]; rfl)).symm
      · have hsum : ∑ i, fibreArrivals (Function.update s.fibre ⟨cur, hcur⟩ .running i) =
            ∑ i, fibreArrivals (s.fibre i) :=
          sum_comp_update_of_eq fibreArrivals _ _ (by rw [hold]; rfl)
        simp only [hsum, h.arrivals, hmain]
        rfl
    · refine ⟨fun cur' hmain' => by simp at hmain', h.numAtBarrior, ?_,
        fun hmain' => by simp at hmain'⟩
      rw [h.arrivals, hmain]
      rfl
  | announce i =>
    obtain ⟨hphase, rfl⟩ := step_announce hstep
    exact h.move (by simp [hphase]) (by simp [hphase, announcements])
      (by simp [hphase, announcements]) (by simp [hphase, fibreArrivals])
  | arrive i =>
    obtain ⟨hphase, rfl⟩ := step_arrive hstep
    exact h.move (by simp [hphase]) (by simp [hphase, announcements])
      (by simp [hphase, announcements]) (by simp [hphase, fibreArrivals])
  | release =>
    obtain ⟨hmain, hall, rfl⟩ := step_release hstep
    refine ⟨fun cur hmain' => by simp at hmain', h.numAtBarrior, ?_, fun _ => ?_⟩
    · rw [h.arrivals, hmain]
      rfl
    · -- The sum of `n` numbers of at most 1 is `n`.
      have hsum : ∑ i, announcements (s.fibre i) = ∑ _i : Fin n, 1 := by
        rw [← h.numAtBarrior, hall]
        simp
      have heq := (Finset.sum_eq_sum_iff_of_le fun i _ => announcements_le (s.fibre i)).mp hsum
      exact fun i => heq i (Finset.mem_univ i)
  | arriveMain =>
    obtain ⟨hmain, rfl⟩ := step_arriveMain hstep
    refine ⟨fun cur hmain' => by simp at hmain', h.numAtBarrior, ?_,
      fun hmain' => by simp at hmain'⟩
    rw [h.arrivals, hmain]
    rfl
  | returnMain =>
    obtain ⟨serial, hmain, rfl⟩ := step_returnMain hstep
    refine ⟨fun cur hmain' => by simp at hmain', h.numAtBarrior, ?_,
      fun hmain' => by simp at hmain'⟩
    rw [h.arrivals, hmain]
    rfl

theorem counted_run {acts : List (FibreAction n)} (hrun : run step (initial n) acts = some s) :
    Counted s :=
  run_invariant (fun _ _ _ _ => counted_step) (counted_initial n) hrun

/-! ## The last arrival -/

/-- The main fibre is the last one to arrive exactly when no fibre is between its two steps. -/
theorem Counted.nextSerial_iff (h : Counted s) (hmain : s.main = .released) :
    s.nextSerial = true ↔ ∀ i, s.fibre i ≠ .announced := by
  have hone := h.released hmain
  have harr : s.arrivals = ∑ i, fibreArrivals (s.fibre i) := by
    rw [h.arrivals, hmain]
    rfl
  have hall : ∑ i, announcements (s.fibre i) = n := by simp [hone]
  calc s.nextSerial = true
      ↔ ∑ i, fibreArrivals (s.fibre i) = ∑ i, announcements (s.fibre i) := by
        rw [nextSerial, beq_iff_eq, Nat.add_right_cancel_iff, harr, hall]
    _ ↔ ∀ i ∈ Finset.univ, fibreArrivals (s.fibre i) = announcements (s.fibre i) :=
        Finset.sum_eq_sum_iff_of_le fun i _ => fibreArrivals_le _
    _ ↔ ∀ i, s.fibre i ≠ .announced := by
        simp only [Finset.mem_univ, true_imp_iff]
        exact forall_congr' fun i => fibreArrivals_eq_iff (hone i)

/-! ## What the main fibre gets -/

/-- The value of the main fibre's `fibre_barrier_wait`, once it has called it. -/
def result : MainPhase → Option Bool
  | .arrived serial | .returned serial => some serial
  | _ => none

/-- The value stays what it was at the arrival. -/
theorem result_step {a : FibreAction n} {serial : Bool} (hresult : result s.main = some serial)
    (hstep : s.step a = some s') : result s'.main = some serial := by
  cases a with
  | spawn =>
    obtain ⟨cur, hmain, -⟩ := step_spawn hstep
    simp [hmain, result] at hresult
  | announce i =>
    obtain ⟨-, rfl⟩ := step_announce hstep
    exact hresult
  | arrive i =>
    obtain ⟨-, rfl⟩ := step_arrive hstep
    exact hresult
  | release =>
    obtain ⟨hmain, -⟩ := step_release hstep
    simp [hmain, result] at hresult
  | arriveMain =>
    obtain ⟨hmain, -⟩ := step_arriveMain hstep
    simp [hmain, result] at hresult
  | returnMain =>
    obtain ⟨serial', hmain, rfl⟩ := step_returnMain hstep
    rwa [hmain] at hresult

theorem result_step_of_ne {a : FibreAction n} (ha : a ≠ .arriveMain)
    (hresult : result s.main = none) (hstep : s.step a = some s') : result s'.main = none := by
  cases a with
  | spawn =>
    obtain ⟨cur, -, ⟨hcur, rfl⟩ | ⟨-, rfl⟩⟩ := step_spawn hstep <;> rfl
  | announce i =>
    obtain ⟨-, rfl⟩ := step_announce hstep
    exact hresult
  | arrive i =>
    obtain ⟨-, rfl⟩ := step_arrive hstep
    exact hresult
  | release =>
    obtain ⟨-, -, rfl⟩ := step_release hstep
    rfl
  | arriveMain => exact absurd rfl ha
  | returnMain =>
    obtain ⟨serial, hmain, -⟩ := step_returnMain hstep
    simp [hmain, result] at hresult

/-- The main fibre arrives only when no fibre is between its two steps. -/
def ArrivesLast (n : Nat) (acts : List (FibreAction n)) : Prop :=
  ∀ pre post t, acts = pre ++ .arriveMain :: post → run step (initial n) pre = some t →
    ∀ i, t.fibre i ≠ .announced

/-- Any number of fibres, in any interleaving with the main fibre: when `fibre_barrier_wait` has
returned to the main fibre, the assertion holds if and only if the main fibre has arrived when no
fibre was between its `fetch_add` and its own arrival. -/
theorem assertion_iff {acts : List (FibreAction n)} {serial : Bool}
    (hrun : run step (initial n) acts = some s) (hreturned : s.main = .returned serial) :
    serial = true ↔ ArrivesLast n acts := by
  have hresult : result s.main = some serial := by rw [hreturned]; rfl
  -- The value was fixed by the state in which the main fibre arrived.
  have hsplit : ∀ pre post t, acts = pre ++ .arriveMain :: post →
      run step (initial n) pre = some t → (serial = true ↔ ∀ i, t.fibre i ≠ .announced) := by
    rintro pre post t rfl hpre
    obtain ⟨t', hpre', hrest⟩ := run_append.mp hrun
    obtain rfl := Option.some.inj (hpre'.symm.trans hpre)
    obtain ⟨u, hstep, hpost⟩ := run_cons.mp hrest
    obtain ⟨hmain, rfl⟩ := step_arriveMain hstep
    have hfinal := run_invariant (fun _ _ _ _ => result_step) rfl hpost
    rw [← Option.some.inj (hfinal.symm.trans hresult)]
    exact (counted_run hpre).nextSerial_iff hmain
  constructor
  · exact fun htrue pre post t hacts hpre => (hsplit pre post t hacts hpre).mp htrue
  · intro hlast
    have hmem : FibreAction.arriveMain ∈ acts := by
      by_contra hnot
      have hnone := run_invariant
        (fun _ a ha _ => result_step_of_ne fun heq => hnot (heq ▸ ha)) rfl hrun
      rw [hnone] at hresult
      cases hresult
    obtain ⟨pre, post, hacts⟩ := List.append_of_mem hmem
    obtain ⟨t, hpre, -⟩ := run_append.mp (hacts ▸ hrun)
    exact (hsplit pre post t hacts hpre).mpr (hlast pre post t hacts hpre)

/-- One fibre, which arrives before the main fibre does. -/
theorem assertion_iff_one_fibre :
    let acts : List (FibreAction 1) :=
      [.spawn, .spawn, .announce 0, .arrive 0, .release, .arriveMain, .returnMain]
    ∃ s, run step (initial 1) acts = some s ∧ s.main = .returned true ∧ ArrivesLast 1 acts :=
  ⟨_, rfl, rfl, (assertion_iff rfl rfl).mp rfl⟩

/-- One fibre, overtaken by the main fibre between its two steps. -/
theorem main_not_serial :
    ∃ s, run step (initial 1) [.spawn, .spawn, .announce 0, .release, .arriveMain, .arrive 0,
      .returnMain] = some s ∧ s.main = .returned false := ⟨_, rfl, rfl⟩

end FibreTest

end Cachetest
