import Mathlib.Data.Fintype.Sigma
import Cachetest.FibreBarrier
import Cachetest.Measurement
import Cachetest.WorkerCpus
import Cachetest.Workers

/-!
# The test with threads

`threadTest` spawns one thread per worker and spins until all of them have counted themselves. Then
it evicts the caches, sets the alarm, starts the counters and lets the threads go, by a flag they
spin on; it joins them one after the other and stops the counters. The alarm's handler may run at
any point after the alarm was set, also before the threads are let go.

A run is a measurement (`threadTest_measures`): all iterations of all loops lie between the start
and the end of counting.
-/

namespace Cachetest

open ByteMemory Measurement PerfEvents Runs

/-! ## All workers, subpath by subpath -/

/-- Worker `j` of subpath `i`. -/
abbrev Worker {n : Nat} (counts : Fin n → Nat) : Type := (i : Fin n) × Fin (counts i)

section Visit

variable {n : Nat} {counts : Fin n → Nat}

/-- What the loop over the subpaths `i` and their workers `j` comes to. -/
inductive Visit (counts : Fin n → Nat) where
  | worker (w : Worker counts)
  | rowEnd
  | done

def visit (counts : Fin n → Nat) (i j : Nat) : Visit counts :=
  if hi : i < n then
    if hj : j < counts ⟨i, hi⟩ then .worker ⟨⟨i, hi⟩, ⟨j, hj⟩⟩ else .rowEnd
  else .done

/-- The loop has been at the worker before it comes to `i`, `j`. -/
def Before (i j : Nat) (w : Worker counts) : Prop :=
  w.1 < i ∨ (w.1 : Nat) = i ∧ (w.2 : Nat) < j

instance (i j : Nat) (w : Worker counts) : Decidable (Before i j w) :=
  inferInstanceAs (Decidable (w.1 < i ∨ (w.1 : Nat) = i ∧ (w.2 : Nat) < j))

theorem not_before_zero (w : Worker counts) : ¬Before 0 0 w := by
  simp [Before]

theorem before_of_worker {i j : Nat} {w : Worker counts} (h : visit counts i j = .worker w)
    (w' : Worker counts) : Before i (j + 1) w' ↔ Before i j w' ∨ w' = w := by
  unfold visit at h
  split at h
  case isFalse => cases h
  split at h
  case isFalse => cases h
  obtain rfl := Visit.worker.inj h
  obtain ⟨⟨i', hi'⟩, j', hj'⟩ := w'
  have heq : (⟨⟨i', hi'⟩, j', hj'⟩ : Worker counts) = ⟨⟨i, by assumption⟩, j, by assumption⟩ ↔
      i' = i ∧ j' = j := by
    constructor
    · intro h
      obtain ⟨h1, h2⟩ := Sigma.mk.inj h
      obtain rfl := Fin.mk.inj h1
      exact ⟨rfl, Fin.mk.inj (eq_of_heq h2)⟩
    · rintro ⟨rfl, rfl⟩
      rfl
  simp only [Before, heq]
  omega

theorem not_before_of_worker {i j : Nat} {w : Worker counts} (h : visit counts i j = .worker w) :
    ¬Before i j w := by
  unfold visit at h
  split at h
  case isFalse => cases h
  split at h
  case isFalse => cases h
  obtain rfl := Visit.worker.inj h
  simp [Before]

theorem before_of_rowEnd {i j : Nat} (h : visit counts i j = .rowEnd) (w : Worker counts) :
    Before (i + 1) 0 w ↔ Before i j w := by
  unfold visit at h
  split at h
  case isFalse => cases h
  split at h
  case isTrue => cases h
  case isFalse hi hj =>
    obtain ⟨⟨i', hi'⟩, j', hj'⟩ := w
    simp only [Before, Nat.not_lt_zero, and_false, or_false]
    constructor
    · intro hlt
      rcases Nat.lt_or_eq_of_le (Nat.le_of_lt_succ hlt) with hless | rfl
      · exact Or.inl hless
      · exact Or.inr ⟨rfl, by omega⟩
    · omega

theorem before_of_done {i j : Nat} (h : visit counts i j = .done) (w : Worker counts) :
    Before i j w := by
  unfold visit at h
  split at h
  case isTrue => split at h <;> cases h
  case isFalse hi => exact Or.inl (by omega)

end Visit

/-! ## The system -/

/-- A thread before its loop: not there yet, in its callback, and spinning on `startExperiment`. -/
inductive Launch where
  | unspawned
  | spawned
  | announced
  deriving DecidableEq, Repr

/-- Where `threadTest` is: in the loop that spawns thread `j` of subpath `i`, spinning on
`numAtBarrior`, before `evictCacheEntries`, before `setupTimeout`, before `perf->start()`, before
it sets the flag, joining thread `j` of subpath `i`, before `perf->stop()`, and back. -/
inductive MainStage where
  | spawning (i j : Nat)
  | spinning
  | evicting
  | arming
  | starting
  | releasing
  | joining (i j : Nat)
  | stopping
  | returned
  deriving DecidableEq, Repr

/-- The place of a stage in their order. -/
def MainStage.rank : MainStage → Nat
  | spawning _ _ => 0
  | spinning => 1
  | evicting => 2
  | arming => 3
  | starting => 4
  | releasing => 5
  | joining _ _ => 6
  | stopping => 7
  | returned => 8

/-- The stage of the measurement, which begins when the counters have been started. -/
def MainStage.stage : MainStage → Stage
  | spawning _ _ | spinning | evicting | arming | starting => .before
  | releasing | joining _ _ | stopping => .during
  | returned => .after

/-- What a test is given: the subpaths, the counters if there are measured events, and the CPUs
whose caches are to be wiped. -/
structure TestSetup where
  infos : List SubpathInfo
  perf : Option PerfCachetest
  uniqueWorkerCPUIdSet : Finset Int

/-- The main thread and a thread for every worker. -/
structure ThreadTest {n : Nat} (counts : Fin n → Nat) where
  workers : Workers (Worker counts)
  launch : Worker counts → Launch
  main : MainStage
  numAtBarrior : Nat
  startExperiment : Bool

inductive ThreadAction {n : Nat} (counts : Fin n → Nat) where
  | spawn
  | announce (w : Worker counts)
  | release
  | evict
  | arm
  | start
  | go
  | join
  | stop (arg : Nat)
  | worker (a : WorkerAction (Worker counts))

namespace ThreadTest

variable {n : Nat} {counts : Fin n → Nat}

/-- The variables with which a thread enters `loop`. -/
def loopStart (infos : List SubpathInfo) (m : Memory) (w : Worker counts) : Thread :=
  .loop (.start (workerStart infos m w.1 w.2 (counts w.1)))

/-- What a worker's action has to wait for: a thread looks up its start when it has been spawned, it
leaves its spin loop when it sees the flag, and the handler runs when the alarm has been set. -/
def Allowed (s : ThreadTest counts) : WorkerAction (Worker counts) → Prop
  | .prepare w => s.launch w = .spawned
  | .enter w => s.launch w = .announced ∧ s.startExperiment = true
  | .load _ _ | .leave _ => True
  | .stop => 4 ≤ s.main.rank

instance (s : ThreadTest counts) : (a : WorkerAction (Worker counts)) → Decidable (s.Allowed a)
  | .prepare w => inferInstanceAs (Decidable (s.launch w = .spawned))
  | .enter w => inferInstanceAs (Decidable (s.launch w = .announced ∧ s.startExperiment = true))
  | .load _ _ | .leave _ => inferInstanceAs (Decidable True)
  | .stop => inferInstanceAs (Decidable (4 ≤ s.main.rank))

def step (setup : TestSetup) (s : ThreadTest counts) :
    ThreadAction counts → Option (ThreadTest counts)
  | .spawn =>
    match s.main with
    | .spawning i j =>
      match visit counts i j with
      | .worker w =>
        some { s with launch := Function.update s.launch w .spawned, main := .spawning i (j + 1) }
      | .rowEnd => some { s with main := .spawning (i + 1) 0 }
      | .done => some { s with main := .spinning }
    | _ => none
  | .announce w =>
    match s.launch w, s.workers.work w with
    | .spawned, .ready _ =>
      some { s with
        launch := Function.update s.launch w .announced, numAtBarrior := s.numAtBarrior + 1 }
    | _, _ => none
  | .release =>
    if s.main = .spinning ∧ s.numAtBarrior = Fintype.card (Worker counts) then
      some { s with main := .evicting }
    else none
  | .evict =>
    if s.main = .evicting then
      (evictCacheEntries setup.uniqueWorkerCPUIdSet).toOption.map fun _ =>
        { s with main := .arming }
    else none
  | .arm => if s.main = .arming then some { s with main := .starting } else none
  | .start =>
    if s.main = .starting then
      (startPerf setup.perf s.workers.kernel).map fun k =>
        { s with workers := { s.workers with kernel := k }, main := .releasing }
    else none
  | .go =>
    if s.main = .releasing then some { s with startExperiment := true, main := .joining 0 0 }
    else none
  | .join =>
    match s.main with
    | .joining i j =>
      match visit counts i j with
      | .worker w =>
        match s.workers.work w with
        | .finished _ => some { s with main := .joining i (j + 1) }
        | _ => none
      | .rowEnd => some { s with main := .joining (i + 1) 0 }
      | .done => some { s with main := .stopping }
    | _ => none
  | .stop arg =>
    if s.main = .stopping then
      (stopPerf setup.perf arg s.workers.kernel).map fun k =>
        { s with workers := { s.workers with kernel := k }, main := .returned }
    else none
  | .worker a =>
    if s.Allowed a then
      (s.workers.step setup.infos n (loopStart setup.infos) a).map fun workers =>
        { s with workers := workers }
    else none

/-- The path is split and nothing has been spawned. -/
def initial (counts : Fin n → Nat) (setup : TestSetup) (m : Memory) (k : Kernel) :
    ThreadTest counts where
  workers := .initial (splitPointerChasingPath setup.infos m) setup.infos k
  launch _ := .unspawned
  main := .spawning 0 0
  numAtBarrior := 0
  startExperiment := false

/-! ## What a step does -/

variable {setup : TestSetup} {s s' : ThreadTest counts}

theorem step_spawn (h : s.step setup .spawn = some s') :
    ∃ i j, s.main = .spawning i j ∧
      ((∃ w, visit counts i j = .worker w ∧ s' = { s with
          launch := Function.update s.launch w .spawned, main := .spawning i (j + 1) }) ∨
        (visit counts i j = .rowEnd ∧ s' = { s with main := .spawning (i + 1) 0 }) ∨
        (visit counts i j = .done ∧ s' = { s with main := .spinning })) := by
  simp only [step] at h
  split at h
  case h_2 => cases h
  case h_1 i j hmain =>
    refine ⟨i, j, hmain, ?_⟩
    split at h
    case h_1 w hvisit => exact Or.inl ⟨w, hvisit, (Option.some.inj h).symm⟩
    case h_2 hvisit => exact Or.inr (Or.inl ⟨hvisit, (Option.some.inj h).symm⟩)
    case h_3 hvisit => exact Or.inr (Or.inr ⟨hvisit, (Option.some.inj h).symm⟩)

theorem step_announce {w : Worker counts} (h : s.step setup (.announce w) = some s') :
    s.launch w = .spawned ∧ (∃ t, s.workers.work w = .ready t) ∧ s' = { s with
      launch := Function.update s.launch w .announced, numAtBarrior := s.numAtBarrior + 1 } := by
  simp only [step] at h
  split at h
  case h_1 t hlaunch hready => exact ⟨hlaunch, ⟨t, hready⟩, (Option.some.inj h).symm⟩
  case h_2 => cases h

theorem step_release (h : s.step setup .release = some s') :
    s.main = .spinning ∧ s.numAtBarrior = Fintype.card (Worker counts) ∧
      s' = { s with main := .evicting } := by
  simp only [step, Option.ite_none_right_eq_some, Option.some.injEq] at h
  exact ⟨h.1.1, h.1.2, h.2.symm⟩

theorem step_evict (h : s.step setup .evict = some s') :
    s.main = .evicting ∧ s' = { s with main := .arming } := by
  simp only [step, Option.ite_none_right_eq_some, Option.map_eq_some_iff] at h
  obtain ⟨hmain, wiped, -, rfl⟩ := h
  exact ⟨hmain, rfl⟩

theorem step_arm (h : s.step setup .arm = some s') :
    s.main = .arming ∧ s' = { s with main := .starting } := by
  simp only [step, Option.ite_none_right_eq_some, Option.some.injEq] at h
  exact ⟨h.1, h.2.symm⟩

theorem step_start (h : s.step setup .start = some s') :
    s.main = .starting ∧ ∃ k, startPerf setup.perf s.workers.kernel = some k ∧
      s' = { s with workers := { s.workers with kernel := k }, main := .releasing } := by
  simp only [step, Option.ite_none_right_eq_some, Option.map_eq_some_iff] at h
  obtain ⟨hmain, k, hk, rfl⟩ := h
  exact ⟨hmain, k, hk, rfl⟩

theorem step_go (h : s.step setup .go = some s') :
    s.main = .releasing ∧ s' = { s with startExperiment := true, main := .joining 0 0 } := by
  simp only [step, Option.ite_none_right_eq_some, Option.some.injEq] at h
  exact ⟨h.1, h.2.symm⟩

theorem step_join (h : s.step setup .join = some s') :
    ∃ i j, s.main = .joining i j ∧
      ((∃ w res, visit counts i j = .worker w ∧ s.workers.work w = .finished res ∧
          s' = { s with main := .joining i (j + 1) }) ∨
        (visit counts i j = .rowEnd ∧ s' = { s with main := .joining (i + 1) 0 }) ∨
        (visit counts i j = .done ∧ s' = { s with main := .stopping })) := by
  simp only [step] at h
  split at h
  case h_2 => cases h
  case h_1 i j hmain =>
    refine ⟨i, j, hmain, ?_⟩
    split at h
    case h_1 w hvisit =>
      split at h
      case h_1 res hfinished =>
        exact Or.inl ⟨w, res, hvisit, hfinished, (Option.some.inj h).symm⟩
      case h_2 => cases h
    case h_2 hvisit => exact Or.inr (Or.inl ⟨hvisit, (Option.some.inj h).symm⟩)
    case h_3 hvisit => exact Or.inr (Or.inr ⟨hvisit, (Option.some.inj h).symm⟩)

theorem step_stop {arg : Nat} (h : s.step setup (.stop arg) = some s') :
    s.main = .stopping ∧ ∃ k, stopPerf setup.perf arg s.workers.kernel = some k ∧
      s' = { s with workers := { s.workers with kernel := k }, main := .returned } := by
  simp only [step, Option.ite_none_right_eq_some, Option.map_eq_some_iff] at h
  obtain ⟨hmain, k, hk, rfl⟩ := h
  exact ⟨hmain, k, hk, rfl⟩

theorem step_worker {a : WorkerAction (Worker counts)} (h : s.step setup (.worker a) = some s') :
    s.Allowed a ∧ ∃ workers,
      s.workers.step setup.infos n (loopStart setup.infos) a = some workers ∧
        s' = { s with workers := workers } := by
  simp only [step, Option.ite_none_right_eq_some, Option.map_eq_some_iff] at h
  obtain ⟨hallowed, workers, hworkers, rfl⟩ := h
  exact ⟨hallowed, workers, hworkers, rfl⟩

/-! ## The order of events -/

/-- What a thread has added to `numAtBarrior`. -/
def announcements : Launch → Nat
  | .announced => 1
  | _ => 0

/-- How far a thread can have come before its launch is completed. -/
def Launched : Launch → Work → Prop
  | .unspawned, w => w = .idle
  | .spawned, w => ¬w.Started
  | .announced, w => w ≠ .idle

/-- What holds at every moment: the main thread goes on when all threads have counted themselves, a
thread starts when the main thread has set the flag, and it has finished when it has been joined. -/
structure Ordered (s : ThreadTest counts) : Prop where
  spawned : ∀ i j, s.main = .spawning i j → ∀ w, ¬Before i j w → s.launch w = .unspawned
  numAtBarrior : s.numAtBarrior = ∑ w, announcements (s.launch w)
  launched : ∀ w, Launched (s.launch w) (s.workers.work w)
  gathered : 2 ≤ s.main.rank → ∀ w, s.launch w = .announced
  flag : s.startExperiment = true ↔ 6 ≤ s.main.rank
  started : ∀ w, (s.workers.work w).Started → s.startExperiment = true
  joined : ∀ i j, s.main = .joining i j → ∀ w, Before i j w →
    ∃ res, s.workers.work w = .finished res
  finished : 7 ≤ s.main.rank → ∀ w, ∃ res, s.workers.work w = .finished res

theorem announcements_le (p : Launch) : announcements p ≤ 1 := by
  cases p <;> simp [announcements]

theorem ordered_initial (setup : TestSetup) (m : Memory) (k : Kernel) :
    Ordered (initial counts setup m k) where
  spawned _ _ _ _ _ := rfl
  numAtBarrior := by simp [initial, announcements]
  launched _ := rfl
  gathered h := by simp [initial, MainStage.rank] at h
  flag := by simp [initial, MainStage.rank]
  started _ h := h.elim
  joined i j h := by cases h
  finished h := by simp [initial, MainStage.rank] at h

theorem Ordered.goto (h : Ordered s) {main : MainStage} {flag : Bool} (k : Kernel)
    (hspawned : ∀ i j, main = .spawning i j → ∀ w, ¬Before i j w → s.launch w = .unspawned)
    (hgathered : 2 ≤ main.rank → ∀ w, s.launch w = .announced)
    (hflag : flag = true ↔ 6 ≤ main.rank) (hkept : s.startExperiment = true → flag = true)
    (hjoined : ∀ i j, main = .joining i j → ∀ w, Before i j w →
      ∃ res, s.workers.work w = .finished res)
    (hfinished : 7 ≤ main.rank → ∀ w, ∃ res, s.workers.work w = .finished res) :
    Ordered { s with
      workers := { s.workers with kernel := k }
      main := main
      startExperiment := flag } where
  spawned := hspawned
  numAtBarrior := h.numAtBarrior
  launched := h.launched
  gathered := hgathered
  flag := hflag
  started w hw := hkept (h.started w hw)
  joined := hjoined
  finished := hfinished

theorem Ordered.advance (h : Ordered s) {main : MainStage} (k : Kernel) (hlow : s.main.rank < 6)
    (hhigh : main.rank < 6) (hpos : 0 < main.rank)
    (hgathered : 2 ≤ main.rank → ∀ w, s.launch w = .announced) :
    Ordered { s with workers := { s.workers with kernel := k }, main := main } := by
  refine h.goto k ?_ hgathered ?_ id ?_ (fun hrank => by omega)
  · rintro i j rfl
    exact absurd hpos (lt_irrefl 0)
  · rw [h.flag]
    omega
  · rintro i j rfl
    exact absurd hhigh (lt_irrefl 6)

theorem Ordered.move (h : Ordered s) {w : Worker counts} {work : Work} (k : Kernel)
    (hlaunched : Launched (s.launch w) work) (hstarted : work.Started → s.startExperiment = true)
    (hgoing : ∀ res, s.workers.work w ≠ .finished res) :
    Ordered { s with workers := { s.workers.update w work with kernel := k } } := by
  have hkept : ∀ w', (∃ res, s.workers.work w' = .finished res) →
      ∃ res, (s.workers.update w work).work w' = .finished res := by
    rintro w' ⟨res, hres⟩
    have hne : w' ≠ w := fun heq => hgoing res (heq ▸ hres)
    exact ⟨res, (Workers.work_update_of_ne hne).trans hres⟩
  refine ⟨h.spawned, h.numAtBarrior, fun w' => ?_, h.gathered, h.flag, fun w' hw' => ?_,
    fun i j hmain w' hw' => hkept w' (h.joined i j hmain w' hw'),
    fun hrank w' => hkept w' (h.finished hrank w')⟩
  · by_cases heq : w' = w
    · subst heq
      simpa [Workers.update] using hlaunched
    · simpa [Workers.update, Function.update_of_ne heq] using h.launched w'
  · by_cases heq : w' = w
    · subst heq
      exact hstarted (by simpa [Workers.update] using hw')
    · exact h.started w' (by simpa [Workers.update, Function.update_of_ne heq] using hw')

theorem Ordered.relaunch (h : Ordered s) (w : Worker counts) {p : Launch} {main : MainStage}
    {numAtBarrior : Nat} (hlow : s.main.rank < 2) (hlow' : main.rank < 2)
    (hspawned : ∀ i j, main = .spawning i j → ∀ w', ¬Before i j w' →
      Function.update s.launch w p w' = .unspawned)
    (hnum : numAtBarrior + announcements (s.launch w) = s.numAtBarrior + announcements p)
    (hlaunched : Launched p (s.workers.work w)) :
    Ordered { s with
      launch := Function.update s.launch w p
      main := main
      numAtBarrior := numAtBarrior } where
  spawned := hspawned
  numAtBarrior := by
    have hsum := sum_comp_update announcements s.launch w p
    have hnum' := h.numAtBarrior
    simp only
    omega
  launched w' := by
    by_cases heq : w' = w
    · subst heq
      simpa using hlaunched
    · simpa [Function.update_of_ne heq] using h.launched w'
  gathered hrank := absurd hlow' (not_lt.mpr hrank)
  flag := h.flag.trans (by simp only; omega)
  started := h.started
  joined i j hmain := by
    obtain rfl : main = .joining i j := hmain
    exact absurd hlow' (by simp [MainStage.rank])
  finished hrank := absurd hlow' (by simp only at hrank; omega)

/-- When the counter has reached the number of threads, all of them have counted themselves. -/
theorem Ordered.all_announced (h : Ordered s)
    (hall : s.numAtBarrior = Fintype.card (Worker counts)) (w : Worker counts) :
    s.launch w = .announced := by
  have hsum : ∑ w, announcements (s.launch w) = ∑ _w : Worker counts, 1 := by
    rw [← h.numAtBarrior, hall]
    simp
  have heq := (Finset.sum_eq_sum_iff_of_le fun w _ => announcements_le (s.launch w)).mp hsum
  have hone := heq w (Finset.mem_univ w)
  cases hlaunch : s.launch w <;> simp_all [announcements]

theorem Ordered.worker (h : Ordered s) {a : WorkerAction (Worker counts)}
    {workers : Workers (Worker counts)} (hallowed : s.Allowed a)
    (hstep : s.workers.step setup.infos n (loopStart setup.infos) a = some workers) :
    Ordered { s with workers := workers } := by
  cases a with
  | prepare w =>
    obtain ⟨hidle, rfl⟩ := Workers.step_prepare hstep
    have hlaunch : s.launch w = .spawned := hallowed
    refine h.move s.workers.kernel ?_ (fun hstarted => hstarted.elim) (by simp [hidle])
    rw [hlaunch]
    exact id
  | enter w =>
    obtain ⟨t, hready, rfl⟩ := Workers.step_enter hstep
    obtain ⟨hlaunch, hflag⟩ := hallowed
    refine h.move s.workers.kernel ?_ (fun _ => hflag) (by simp [hready])
    rw [hlaunch]
    exact Work.noConfusion
  | load w ticks =>
    obtain ⟨t, t', hlooping, -, rfl⟩ := Workers.step_load hstep
    have hflag := h.started w (by rw [hlooping]; trivial)
    refine h.move _ ?_ (fun _ => hflag) (by simp [hlooping])
    rw [h.gathered (by rw [h.flag] at hflag; omega) w]
    exact Work.noConfusion
  | leave w =>
    obtain ⟨t, hlooping, -, rfl⟩ := Workers.step_leave hstep
    have hflag := h.started w (by rw [hlooping]; trivial)
    refine h.move s.workers.kernel ?_ (fun _ => hflag) (by simp [hlooping])
    rw [h.gathered (by rw [h.flag] at hflag; omega) w]
    exact Work.noConfusion
  | stop =>
    obtain ⟨info, rest, -, rfl⟩ := Workers.step_stop hstep
    exact ⟨h.spawned, h.numAtBarrior, h.launched, h.gathered, h.flag, h.started, h.joined,
      h.finished⟩

/-- Every step keeps the order. -/
theorem ordered_step {a : ThreadAction counts} (h : Ordered s)
    (hstep : s.step setup a = some s') : Ordered s' := by
  cases a with
  | spawn =>
    obtain ⟨i, j, hmain, ⟨w, hvisit, rfl⟩ | ⟨hvisit, rfl⟩ | ⟨-, rfl⟩⟩ := step_spawn hstep
    · have hnew := h.spawned i j hmain w (not_before_of_worker hvisit)
      refine h.relaunch w (by simp [hmain, MainStage.rank]) (by simp [MainStage.rank])
        ?_ (by rw [hnew]; rfl) ?_
      · rintro i' j' hmain' w' hw'
        obtain ⟨rfl, rfl⟩ := MainStage.spawning.inj hmain'
        rw [before_of_worker hvisit, not_or] at hw'
        rw [Function.update_of_ne hw'.2]
        exact h.spawned i j hmain w' hw'.1
      · have hidle := h.launched w
        rw [hnew] at hidle
        rw [show s.workers.work w = .idle from hidle]
        exact id
    · have hflag := h.flag
      refine h.goto s.workers.kernel ?_ (fun hrank => by simp [MainStage.rank] at hrank)
        (by simpa [hmain, MainStage.rank] using hflag) id (fun i j hmain' => by cases hmain')
        (fun hrank => by simp [MainStage.rank] at hrank)
      rintro i' j' hmain' w' hw'
      obtain ⟨rfl, rfl⟩ := MainStage.spawning.inj hmain'
      exact h.spawned i j hmain w' fun hb => hw' ((before_of_rowEnd hvisit w').mpr hb)
    · exact h.advance s.workers.kernel (by simp [hmain, MainStage.rank]) (by decide) (by decide)
        (fun hrank => by simp [MainStage.rank] at hrank)
  | announce w =>
    obtain ⟨hlaunch, ⟨t, hready⟩, rfl⟩ := step_announce hstep
    have hlow : s.main.rank < 2 := by
      by_contra hrank
      have hgathered := h.gathered (not_lt.mp hrank) w
      rw [hlaunch] at hgathered
      cases hgathered
    refine h.relaunch w hlow hlow ?_ (by rw [hlaunch]; rfl) ?_
    · rintro i j hmain w' hw'
      have hnew := h.spawned i j hmain w' hw'
      have hne : w' ≠ w := by
        rintro rfl
        rw [hlaunch] at hnew
        cases hnew
      rw [Function.update_of_ne hne, hnew]
    · rw [hready]
      exact Work.noConfusion
  | release =>
    obtain ⟨hmain, hall, rfl⟩ := step_release hstep
    exact h.advance s.workers.kernel (by simp [hmain, MainStage.rank]) (by decide) (by decide)
      fun _ => h.all_announced hall
  | evict =>
    obtain ⟨hmain, rfl⟩ := step_evict hstep
    have hgathered := h.gathered (by simp [hmain, MainStage.rank])
    exact h.advance s.workers.kernel (by simp [hmain, MainStage.rank]) (by decide) (by decide)
      fun _ => hgathered
  | arm =>
    obtain ⟨hmain, rfl⟩ := step_arm hstep
    have hgathered := h.gathered (by simp [hmain, MainStage.rank])
    exact h.advance s.workers.kernel (by simp [hmain, MainStage.rank]) (by decide) (by decide)
      fun _ => hgathered
  | start =>
    obtain ⟨hmain, k, -, rfl⟩ := step_start hstep
    have hgathered := h.gathered (by simp [hmain, MainStage.rank])
    exact h.advance k (by simp [hmain, MainStage.rank]) (by decide) (by decide) fun _ => hgathered
  | go =>
    obtain ⟨hmain, rfl⟩ := step_go hstep
    have hgathered := h.gathered (by simp [hmain, MainStage.rank])
    refine h.goto s.workers.kernel (fun i j hmain' => by cases hmain') (fun _ => hgathered)
      (by simp [MainStage.rank]) (fun _ => rfl) ?_ (fun hrank => by simp [MainStage.rank] at hrank)
    rintro i j hmain' w hw
    obtain ⟨rfl, rfl⟩ := MainStage.joining.inj hmain'
    exact absurd hw (not_before_zero w)
  | join =>
    obtain ⟨i, j, hmain, ⟨w, res, hvisit, hres, rfl⟩ | ⟨hvisit, rfl⟩ | ⟨hvisit, rfl⟩⟩ :=
      step_join hstep
    · have hgathered := h.gathered (by simp [hmain, MainStage.rank])
      have hflag := h.flag
      refine h.goto s.workers.kernel (fun i j hmain' => by cases hmain') (fun _ => hgathered)
        (by simpa [hmain, MainStage.rank] using hflag) id ?_
        (fun hrank => by simp [MainStage.rank] at hrank)
      rintro i' j' hmain' w' hw'
      obtain ⟨rfl, rfl⟩ := MainStage.joining.inj hmain'
      rcases (before_of_worker hvisit w').mp hw' with hbefore | rfl
      · exact h.joined i j hmain w' hbefore
      · exact ⟨res, hres⟩
    · have hgathered := h.gathered (by simp [hmain, MainStage.rank])
      have hflag := h.flag
      refine h.goto s.workers.kernel (fun i j hmain' => by cases hmain') (fun _ => hgathered)
        (by simpa [hmain, MainStage.rank] using hflag) id ?_
        (fun hrank => by simp [MainStage.rank] at hrank)
      rintro i' j' hmain' w' hw'
      obtain ⟨rfl, rfl⟩ := MainStage.joining.inj hmain'
      exact h.joined i j hmain w' ((before_of_rowEnd hvisit w').mp hw')
    · have hgathered := h.gathered (by simp [hmain, MainStage.rank])
      have hflag := h.flag
      exact h.goto s.workers.kernel (fun i j hmain' => by cases hmain') (fun _ => hgathered)
        (by simpa [hmain, MainStage.rank] using hflag) id (fun i j hmain' => by cases hmain')
        (fun _ w => h.joined i j hmain w (before_of_done hvisit w))
  | stop arg =>
    obtain ⟨hmain, k, -, rfl⟩ := step_stop hstep
    have hgathered := h.gathered (by simp [hmain, MainStage.rank])
    have hfinished := h.finished (by simp [hmain, MainStage.rank])
    have hflag := h.flag
    exact h.goto k (fun i j hmain' => by cases hmain') (fun _ => hgathered)
      (by simpa [hmain, MainStage.rank] using hflag) id (fun i j hmain' => by cases hmain')
      (fun _ => hfinished)
  | worker a =>
    obtain ⟨hallowed, workers, hworkers, rfl⟩ := step_worker hstep
    exact h.worker hallowed hworkers

theorem ordered_run {m : Memory} {k : Kernel} {acts : List (ThreadAction counts)}
    (hrun : run (step setup) (initial counts setup m k) acts = some s) : Ordered s :=
  run_invariant (fun _ _ _ _ => ordered_step) (ordered_initial setup m k) hrun

/-! ## A test is a measurement -/

/-- What an action is for the measurement: an iteration is a unit of work. -/
def observe : ThreadAction counts → Option (Observation (Worker counts))
  | .start => some .start
  | .stop _ => some .finish
  | .worker a => a.loaded.map .work
  | _ => none

/-- What the event at `fd` counts in an action. -/
def ticks (fd : Int) : ThreadAction counts → Nat
  | .worker a => a.ticks fd
  | _ => 0

/-- An iteration takes place when the main thread is waiting for the threads. -/
theorem Ordered.joining_of_looping (h : Ordered s) {w : Worker counts} {t : Thread}
    (hlooping : s.workers.work w = .looping t) : ∃ i j, s.main = .joining i j := by
  have hflag := h.flag.mp (h.started w (by rw [hlooping]; trivial))
  have hlow : s.main.rank < 7 := by
    by_contra hrank
    obtain ⟨res, hres⟩ := h.finished (not_lt.mp hrank) w
    rw [hlooping] at hres
    cases hres
  cases hmain : s.main <;> simp_all [MainStage.rank]

theorem Ordered.during_of_load (h : Ordered s) {w : Worker counts} {ticks : Int → Nat}
    {workers : Workers (Worker counts)}
    (hstep : s.workers.step setup.infos n (loopStart setup.infos) (.load w ticks) =
      some workers) : s.main.stage = .during := by
  obtain ⟨t, t', hlooping, -, -⟩ := Workers.step_load hstep
  obtain ⟨i, j, hmain⟩ := h.joining_of_looping hlooping
  rw [hmain]
  rfl

/-- `t` is the measurement that `s` is a state of. -/
structure Measures (s : ThreadTest counts) (t : Measured (Worker counts)) : Prop where
  ordered : Ordered s
  stage : t.stage = s.main.stage
  done : ∀ w, t.done w = (s.workers.work w).accesscount

theorem measures_initial (setup : TestSetup) (m : Memory) (k : Kernel) :
    Measures (initial counts setup m k) .initial where
  ordered := ordered_initial setup m k
  stage := rfl
  done _ := rfl

/-- Every step of a test is a step of the measurement, or none. -/
theorem measures_step {t : Measured (Worker counts)} {a : ThreadAction counts} (h : Measures s t)
    (hstep : s.step setup a = some s') :
    ∃ t', run Measured.step t (observe a).toList = some t' ∧ Measures s' t' := by
  have hordered := ordered_step h.ordered hstep
  have hstage := h.stage
  cases a with
  | spawn =>
    obtain ⟨i, j, hmain, ⟨w, -, rfl⟩ | ⟨-, rfl⟩ | ⟨-, rfl⟩⟩ := step_spawn hstep
    all_goals
      rw [hmain] at hstage
      exact ⟨t, rfl, hordered, hstage, h.done⟩
  | announce w =>
    obtain ⟨-, -, rfl⟩ := step_announce hstep
    exact ⟨t, rfl, hordered, hstage, h.done⟩
  | release =>
    obtain ⟨hmain, -, rfl⟩ := step_release hstep
    rw [hmain] at hstage
    exact ⟨t, rfl, hordered, hstage, h.done⟩
  | evict =>
    obtain ⟨hmain, rfl⟩ := step_evict hstep
    rw [hmain] at hstage
    exact ⟨t, rfl, hordered, hstage, h.done⟩
  | arm =>
    obtain ⟨hmain, rfl⟩ := step_arm hstep
    rw [hmain] at hstage
    exact ⟨t, rfl, hordered, hstage, h.done⟩
  | start =>
    obtain ⟨hmain, k, -, rfl⟩ := step_start hstep
    rw [hmain] at hstage
    exact ⟨_, run_cons.mpr ⟨_, if_pos hstage, rfl⟩, hordered, rfl, h.done⟩
  | go =>
    obtain ⟨hmain, rfl⟩ := step_go hstep
    rw [hmain] at hstage
    exact ⟨t, rfl, hordered, hstage, h.done⟩
  | join =>
    obtain ⟨i, j, hmain, ⟨w, res, -, -, rfl⟩ | ⟨-, rfl⟩ | ⟨-, rfl⟩⟩ := step_join hstep
    all_goals
      rw [hmain] at hstage
      exact ⟨t, rfl, hordered, hstage, h.done⟩
  | stop arg =>
    obtain ⟨hmain, k, -, rfl⟩ := step_stop hstep
    rw [hmain] at hstage
    exact ⟨_, run_cons.mpr ⟨_, if_pos hstage, rfl⟩, hordered, rfl, h.done⟩
  | worker a =>
    obtain ⟨-, workers, hworkers, rfl⟩ := step_worker hstep
    obtain ⟨t', hrun, hstage', hdone⟩ := workers_measured (fun _ _ => rfl) h.done
      (fun w ticks heq => by
        subst heq
        rw [hstage]
        exact h.ordered.during_of_load hworkers) hworkers
    exact ⟨t', hrun, hordered, hstage'.trans hstage, hdone⟩

/-- A test refines the measurement. -/
theorem measures_run {m : Memory} {k : Kernel} {acts : List (ThreadAction counts)}
    (hrun : run (step setup) (initial counts setup m k) acts = some s) :
    ∃ t, run Measured.step .initial (acts.filterMap observe) = some t ∧ Measures s t :=
  run_simulation (fun _ _ _ _ => measures_step) (measures_initial setup m k) hrun

/-! ## The counters -/

variable {p : PerfCachetest} {k : Kernel} {acts : List (ThreadAction counts)}

/-- What the leader of the counters has counted in the iterations so far. -/
def Counted (p : PerfCachetest) (k : Kernel) (s : ThreadTest counts)
    (acts : List (ThreadAction counts)) : Prop :=
  Counts p k s.main.stage s.workers.kernel (acts.map (ticks p.fdLeader)).sum

theorem Counted.keep (h : Counted p k s acts) {a : ThreadAction counts}
    (hticks : ticks p.fdLeader a = 0) (hkernel : s'.workers.kernel = s.workers.kernel)
    (hstage : s'.main.stage = s.main.stage) : Counted p k s' (acts ++ [a]) := by
  rw [Counted, hkernel, hstage, List.map_append, List.sum_append, List.map_singleton,
    List.sum_singleton, hticks]
  exact h

theorem counted_step {os : PerfOpens} {k₀ : Kernel} {events : List Event}
    (hperf : setup.perf = some p) (hsetup : setupPerf os k₀ events = .ok (p, k))
    {a : ThreadAction counts} (hordered : Ordered s) (h : Counted p k s acts)
    (hstep : s.step setup a = some s') : Counted p k s' (acts ++ [a]) := by
  have hsum : ((acts ++ [a]).map (ticks p.fdLeader)).sum =
      (acts.map (ticks p.fdLeader)).sum + ticks p.fdLeader a := by
    simp
  cases a with
  | spawn =>
    obtain ⟨i, j, hmain, ⟨w, -, rfl⟩ | ⟨-, rfl⟩ | ⟨-, rfl⟩⟩ := step_spawn hstep
    all_goals exact h.keep rfl rfl (by rw [hmain]; rfl)
  | announce w =>
    obtain ⟨-, -, rfl⟩ := step_announce hstep
    exact h.keep rfl rfl rfl
  | release =>
    obtain ⟨hmain, -, rfl⟩ := step_release hstep
    exact h.keep rfl rfl (by rw [hmain]; rfl)
  | evict =>
    obtain ⟨hmain, rfl⟩ := step_evict hstep
    exact h.keep rfl rfl (by rw [hmain]; rfl)
  | arm =>
    obtain ⟨hmain, rfl⟩ := step_arm hstep
    exact h.keep rfl rfl (by rw [hmain]; rfl)
  | start =>
    obtain ⟨hmain, k', hstart, rfl⟩ := step_start hstep
    rw [hperf] at hstart
    rw [Counted, hmain] at h
    rw [Counted, hsum]
    exact Counts.start hsetup h hstart
  | go =>
    obtain ⟨hmain, rfl⟩ := step_go hstep
    exact h.keep rfl rfl (by rw [hmain]; rfl)
  | join =>
    obtain ⟨i, j, hmain, ⟨w, res, -, -, rfl⟩ | ⟨-, rfl⟩ | ⟨-, rfl⟩⟩ := step_join hstep
    all_goals exact h.keep rfl rfl (by rw [hmain]; rfl)
  | stop arg =>
    obtain ⟨hmain, k', hstop, rfl⟩ := step_stop hstep
    rw [hperf] at hstop
    rw [Counted, hmain] at h
    rw [Counted, hsum]
    exact Counts.stop h hstop
  | worker a =>
    obtain ⟨-, workers, hworkers, rfl⟩ := step_worker hstep
    rw [Counted, hsum]
    refine Counts.worker h (fun w ticks heq => ?_) hworkers
    subst heq
    exact hordered.during_of_load hworkers

theorem counted_run {os : PerfOpens} {k₀ : Kernel} {events : List Event} {m : Memory}
    (hperf : setup.perf = some p) (hsetup : setupPerf os k₀ events = .ok (p, k))
    (hrun : run (step setup) (initial counts setup m k) acts = some s) : Counted p k s acts :=
  run_history
    (fun _ _ _ _ hrun h hstep => counted_step hperf hsetup (ordered_run hrun) h hstep)
    ⟨rfl, rfl⟩ hrun

/-- **A test measures its loops.** For any number of threads, in every interleaving of their steps
with those of the main thread and the alarm's handler: a loop loads only when all threads have
counted themselves, the flag has been set and the leader of the counters is counting. When
`threadTest` has returned, there is one start and one end of counting with all iterations between
them, every thread has left the number of its iterations as its result, and the counter of the
leader has what it has counted in all iterations. -/
theorem threadTest_measures {m : Memory}
    (hperf : ∀ p, setup.perf = some p →
      ∃ os k₀ events, setupPerf os k₀ events = .ok (p, k))
    (hrun : run (step setup) (initial counts setup m k) acts = some s) :
    (∀ pre post w t, acts = pre ++ .worker (.load w t) :: post →
      ∃ u, run (step setup) (initial counts setup m k) pre = some u ∧
        (∀ w', u.launch w' = .announced) ∧ u.startExperiment = true ∧
        (∃ i j, u.main = .joining i j) ∧
        ∀ p, setup.perf = some p → u.workers.kernel.counting p.fdLeader = true) ∧
    (s.main = .returned →
      ∃ works : List (Worker counts), acts.filterMap observe = .start :: works.map .work ++ [.finish] ∧
        (∀ w, ∃ res, s.workers.work w = .finished res ∧ res.accesscount = works.count w) ∧
        ∀ p, setup.perf = some p →
          s.workers.kernel.read p.fdLeader = some (acts.map (ticks p.fdLeader)).sum) := by
  constructor
  · rintro pre post w t rfl
    obtain ⟨u, hpre, hrest⟩ := run_append.mp hrun
    obtain ⟨u', hstep, -⟩ := run_cons.mp hrest
    obtain ⟨-, workers, hworkers, -⟩ := step_worker hstep
    obtain ⟨v, v', hlooping, -, -⟩ := Workers.step_load hworkers
    have hordered := ordered_run hpre
    obtain ⟨i, j, hmain⟩ := hordered.joining_of_looping hlooping
    refine ⟨u, hpre, hordered.gathered (by simp [hmain, MainStage.rank]),
      hordered.flag.mpr (by simp [hmain, MainStage.rank]), ⟨i, j, hmain⟩, fun p hp => ?_⟩
    obtain ⟨os, k₀, events, hsetup⟩ := hperf p hp
    have hcounted := counted_run hp hsetup hpre
    rw [Counted, hmain] at hcounted
    exact hcounted.counting
  · intro hreturned
    obtain ⟨t, hmeasured, hmeasures⟩ := measures_run hrun
    obtain ⟨works, hdone, hobs⟩ := recorded_run hmeasured
    rw [hmeasures.stage, hreturned] at hobs
    refine ⟨works, hobs, fun w => ?_, fun p hp => ?_⟩
    · obtain ⟨res, hres⟩ := hmeasures.ordered.finished (by simp [hreturned, MainStage.rank]) w
      have hcount := hmeasures.done w
      rw [hres, hdone] at hcount
      exact ⟨res, hres, hcount.symm⟩
    · obtain ⟨os, k₀, events, hsetup⟩ := hperf p hp
      have hcounted := counted_run hp hsetup hrun
      rw [Counted, hreturned] at hcounted
      exact hcounted.read

/-- One thread and one event: two loads, with the handler's store between them. -/
theorem threadTest_measures_one :
    let setup : TestSetup := ⟨[⟨0, 0, 1⟩], some ⟨3, [3]⟩, {0}⟩
    let w : Worker fun _ : Fin 1 => 1 := ⟨0, 0⟩
    let acts : List (ThreadAction fun _ : Fin 1 => 1) :=
      [.spawn, .spawn, .spawn, .worker (.prepare w), .announce w, .release, .evict, .arm, .start,
        .go, .worker (.enter w), .worker (.load w fun _ => 5), .worker .stop,
        .worker (.load w fun _ => 7), .worker (.leave w), .join, .join, .join, .stop 0]
    let k : Kernel :=
      Kernel.opened ⟨fun _ => none⟩ 3 (eventAttr perfTypeRaw (rawConfig 0x3c 0)) (-1)
    ∃ s, run (step setup) (initial _ setup zeros k) acts = some s ∧
      s.workers.work w = .finished ⟨2, invalidIndex⟩ ∧ s.workers.kernel.read 3 = some 12 := by
  intro setup w acts k
  have hsetup : setupPerf PerfCachetest.fewOpens ⟨fun _ => none⟩ [⟨0x3c, 0, []⟩] =
    .ok (⟨3, [3]⟩, k) := rfl
  have hend : (run (step setup) (initial _ setup zeros k) acts).map (fun s =>
      (s.main, s.workers.work w)) = some (.returned, .finished ⟨2, invalidIndex⟩) := by
    decide +kernel
  obtain ⟨s, hrun, hs⟩ := Option.map_eq_some_iff.mp hend
  obtain ⟨hmain, hwork⟩ := Prod.mk.inj hs
  have hticks : (acts.map (ticks 3)).sum = 12 := by simp [acts, ticks, WorkerAction.ticks]
  have hperf : ∀ p, setup.perf = some p →
      ∃ os k₀ events, setupPerf os k₀ events = .ok (p, k) := by
    intro p hp
    obtain rfl := Option.some.inj hp
    exact ⟨_, _, _, hsetup⟩
  obtain ⟨works, -, -, hread⟩ := (threadTest_measures hperf hrun).2 hmain
  exact ⟨s, hrun, hwork, hticks ▸ hread ⟨3, [3]⟩ rfl⟩

end ThreadTest

end Cachetest
