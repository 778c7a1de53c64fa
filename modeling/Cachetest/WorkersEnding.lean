import Mathlib.Algebra.Order.BigOperators.Group.Finset
import Cachetest.Stopping
import Cachetest.Workers

/-!
# The last steps of the workers

A worker that has looked up its start can go on until it has finished (`Workers.exists_step`). And
once the alarm's handler has made its last store, every step of a worker is one of a number of steps
that are left (`WorkersEnding.step`): each has to load what is left of its stretch, and then to
leave.
-/

namespace Cachetest

open ByteMemory PerfEvents

/-! ## A worker can go on -/

/-- The next action of a worker that has looked up its start. -/
inductive WorkerAction.Going {ι : Type*} (i : ι) : WorkerAction ι → Prop
  | enter : Going i (.enter i)
  | load : Going i (.load i fun _ => 0)
  | leave : Going i (.leave i)

theorem Workers.exists_step {ι : Type*} [DecidableEq ι] (infos : List SubpathInfo)
    (numSubpaths : Nat) (start : Memory → ι → Thread) (s : Workers ι) {i : ι}
    (hidle : s.work i ≠ .idle) (hgoing : ∀ res, s.work i ≠ .finished res) :
    ∃ a, WorkerAction.Going i a ∧ (s.step infos numSubpaths start a).isSome := by
  cases hwork : s.work i with
  | idle => exact absurd hwork hidle
  | finished res => exact absurd hwork (hgoing res)
  | ready t => exact ⟨_, .enter, by simp [step, hwork]⟩
  | looping t =>
    by_cases hindex : t.index = invalidIndex
    · exact ⟨_, .leave, by simp [step, hwork, hindex]⟩
    · obtain ⟨t', ht'⟩ := Option.isSome_iff_exists.mp
        (Thread.iteration_isSome infos numSubpaths s.mem hindex)
      exact ⟨_, .load, by simp [step, hwork, ht']⟩

theorem startPerf_isSome {perf : Option PerfCachetest}
    (hperf : ∀ p, perf = some p → 0 < p.fdLeader) (k : Kernel) : (startPerf perf k).isSome := by
  cases perf with
  | none => rfl
  | some p => simp [startPerf, PerfCachetest.start, hperf p rfl]

theorem stopPerf_isSome {perf : Option PerfCachetest}
    (hperf : ∀ p, perf = some p → 0 < p.fdLeader) (arg : Nat) (k : Kernel) :
    (stopPerf perf arg k).isSome := by
  cases perf with
  | none => rfl
  | some p => simp [stopPerf, PerfCachetest.stop, hperf p rfl]

/-! ## The steps that are left -/

/-- The steps a worker has still to make, when it has `loads` loads left. -/
def workLeft : Work → Nat → Nat
  | .idle, loads => loads + 3
  | .ready _, loads => loads + 2
  | .looping _, loads => loads + 1
  | .finished _, _ => 0

/-- What a worker has left to load. -/
def WorkLoads (L : SubpathLayout) : Work → Nat → Prop
  | .ready t, loads | .looping t, loads => LoadsLeft L t.index loads
  | _, _ => True

/-- All workers have looked up their start, the handler has made its last store, and the workers
have `r` steps left. -/
structure WorkersEnding {ι : Type*} [Fintype ι] (L : SubpathLayout) (m : Memory) (s : Workers ι)
    (r : Nat) : Prop where
  prepared : ∀ i, s.work i ≠ .idle
  done : s.pending = []
  broken : ∀ k < L.numSubpaths, s.mem.load (L.start k) = invalidIndex
  kept : ∀ a ∈ L.elements, (∀ k < L.numSubpaths, a ≠ L.start k) → s.mem.load a = m.load a
  steps : ∃ left : ι → Nat, (∀ i, WorkLoads L (s.work i) (left i)) ∧
    ∑ i, workLeft (s.work i) (left i) ≤ r

variable {ι : Type*} [Fintype ι] [DecidableEq ι] {L : SubpathLayout} {m : Memory}
  {infos : List SubpathInfo} {numSubpaths : Nat} {start : Memory → ι → Thread} {s s' : Workers ι}
  {r : Nat}

omit [DecidableEq ι] in
theorem WorkersEnding.kernel (h : WorkersEnding L m s r) (k : Kernel) :
    WorkersEnding L m { s with kernel := k } r :=
  ⟨h.prepared, h.done, h.broken, h.kept, h.steps⟩

theorem WorkersEnding.move (h : WorkersEnding L m s r) {i : ι} {work : Work}
    (hidle : work ≠ .idle)
    (hmove : ∀ loads, WorkLoads L (s.work i) loads →
      ∃ loads', WorkLoads L work loads' ∧ workLeft work loads' < workLeft (s.work i) loads) :
    ∃ r', WorkersEnding L m (s.update i work) r' ∧ r' + 1 ≤ r := by
  obtain ⟨left, hleft, hsum⟩ := h.steps
  obtain ⟨loads', hloads', hless⟩ := hmove (left i) (hleft i)
  have hother : ∀ j ≠ i, (s.update i work).work j = s.work j ∧
      Function.update left i loads' j = left j := fun j hne =>
    ⟨Workers.work_update_of_ne hne, Function.update_of_ne hne ..⟩
  have hlt : ∑ j, workLeft ((s.update i work).work j) (Function.update left i loads' j) <
      ∑ j, workLeft (s.work j) (left j) := by
    refine Finset.sum_lt_sum (fun j _ => ?_) ⟨i, Finset.mem_univ i, by simpa using hless⟩
    by_cases heq : j = i
    · subst heq
      simpa using hless.le
    · rw [(hother j heq).1, (hother j heq).2]
  refine ⟨_, ⟨fun j => ?_, h.done, h.broken, h.kept, Function.update left i loads', fun j => ?_,
    le_rfl⟩, by omega⟩
  · by_cases heq : j = i
    · subst heq
      rwa [Workers.work_update_self]
    · rw [(hother j heq).1]
      exact h.prepared j
  · by_cases heq : j = i
    · subst heq
      simpa using hloads'
    · rw [(hother j heq).1, (hother j heq).2]
      exact hleft j

/-- Every step of a worker takes one of those that are left. -/
theorem WorkersEnding.step {succ : Nat → Nat} (hlinked : L.Linked m succ)
    (hsucc : ∀ k < L.numSubpaths, succ k < L.numSubpaths) (h : WorkersEnding L m s r)
    {a : WorkerAction ι} (hstep : s.step infos numSubpaths start a = some s') :
    ∃ r', WorkersEnding L m s' r' ∧ r' + 1 ≤ r := by
  cases a with
  | prepare i =>
    obtain ⟨hidle, -⟩ := Workers.step_prepare hstep
    exact absurd hidle (h.prepared i)
  | enter i =>
    obtain ⟨t, hready, rfl⟩ := Workers.step_enter hstep
    refine h.move Work.noConfusion fun loads hloads => ⟨loads, ?_, ?_⟩
    · rwa [hready] at hloads
    · simp [hready, workLeft]
  | load i ticks =>
    obtain ⟨t, t', hlooping, hiteration, rfl⟩ := Workers.step_load hstep
    obtain ⟨hgoing, hindex, -⟩ := Thread.iteration_eq_some hiteration
    have hmove : ∀ loads, WorkLoads L (s.work i) loads → ∃ loads',
        WorkLoads L (.looping t') loads' ∧
          workLeft (.looping t') loads' < workLeft (s.work i) loads := by
      intro loads hloads
      rw [hlooping] at hloads ⊢
      obtain ⟨loads', hloads', hpay⟩ :=
        LoadsLeft.load hlinked hsucc h.broken h.kept hgoing hloads
      rw [← hindex] at hloads'
      refine ⟨loads', hloads', ?_⟩
      simp only [workLeft]
      omega
    obtain ⟨r', hr', hpay⟩ := h.move Work.noConfusion hmove
    exact ⟨r', hr'.kernel _, hpay⟩
  | leave i =>
    obtain ⟨t, hlooping, -, rfl⟩ := Workers.step_leave hstep
    refine h.move Work.noConfusion fun loads _ => ⟨0, trivial, ?_⟩
    simp [hlooping, workLeft]
  | stop =>
    obtain ⟨info, rest, hpending, -⟩ := Workers.step_stop hstep
    simp [h.done] at hpending

/-! ## After the last store -/

omit [Fintype ι] [DecidableEq ι] in
/-- After the last store all starts are broken, and nothing else. -/
theorem words_of_done {sys : System ι} (hstops : StopsAt L infos) (h : WordsOf L m infos sys)
    (hdone : sys.pending = []) :
    (∀ k < L.numSubpaths, sys.mem.load (L.start k) = invalidIndex) ∧
      ∀ a ∈ L.elements, (∀ k < L.numSubpaths, a ≠ L.start k) → sys.mem.load a = m.load a := by
  obtain ⟨done, hall, hwords⟩ := h
  rw [hdone, List.append_nil] at hall
  subst hall
  constructor
  · intro k hk
    obtain ⟨info, hinfo, hat⟩ := hstops.all k hk
    rw [hwords _ (start_mem_elements hk), if_pos (List.mem_map.mpr ⟨info, hinfo, hat⟩)]
  · intro a ha hne
    rw [hwords a ha, if_neg]
    intro hin
    obtain ⟨info, hinfo, rfl⟩ := List.mem_map.mp hin
    obtain ⟨k, hk, hat⟩ := hstops.start info hinfo
    exact hne k hk hat

omit [DecidableEq ι] in
theorem workersEnding_of_done {sys : System ι} (hworkers : WorkersOf start m s sys)
    (hstops : StopsAt L infos) (hwords : WordsOf L m infos sys)
    (hhere : ∀ i, (sys.thread i).index = invalidIndex ∨ (sys.thread i).index ∈ L.elements)
    (hprepared : ∀ i, s.work i ≠ .idle) (hdone : s.pending = []) :
    WorkersEnding L m s (Fintype.card ι * (L.longest + 2)) := by
  obtain ⟨hbroken, hkept⟩ := words_of_done hstops hwords (hworkers.pending.trans hdone)
  rw [hworkers.mem] at hbroken hkept
  have hleft : ∀ i, ∃ loads, WorkLoads L (s.work i) loads ∧
      workLeft (s.work i) loads ≤ L.longest + 2 := by
    intro i
    have hthread := hworkers.work i
    obtain ⟨loads, hloads, hle⟩ : ∃ loads, LoadsLeft L (sys.thread i).index loads ∧
        loads ≤ L.longest := by
      rcases hhere i with hleft | hmem
      · exact ⟨0, Or.inl ⟨hleft, rfl⟩, Nat.zero_le _⟩
      · exact exists_loadsLeft hmem
    refine ⟨loads, ?_, ?_⟩
    · cases hwork : s.work i <;> rw [hwork] at hthread
      case idle => trivial
      case finished => trivial
      case ready t => exact (show sys.thread i = t from hthread) ▸ hloads
      case looping t => exact (show sys.thread i = t from hthread) ▸ hloads
    · cases hwork : s.work i with
      | idle => exact absurd hwork (hprepared i)
      | ready t | looping t | finished res =>
        simp only [workLeft]
        omega
  choose left hloads hle using hleft
  refine ⟨hprepared, hdone, hbroken, hkept, left, hloads, ?_⟩
  have hsum := Finset.sum_le_card_nsmul Finset.univ (fun i => workLeft (s.work i) (left i))
    (L.longest + 2) fun i _ => hle i
  rwa [smul_eq_mul, Finset.card_univ] at hsum

end Cachetest
