import Mathlib.Algebra.BigOperators.Fin
import Cachetest.Migration
import Cachetest.ThreadTest

/-!
# The test with fibres

`fibreTest` around the barrier of `FibreTest`: the fibres look up their start before they count
themselves, the main fibre evicts the caches, sets the alarm and starts the counters before it
arrives, and afterwards it joins the fibres one after the other and stops the counters. Fibre `w` is
number `number w` at the barrier, in the order in which the fibres are created.

A fibre runs on the worker threads of the cluster it is on, `subpathThreadCounts` of which the
command line gives; which of them runs it when is left open. A fibre for which the barrier returned
the serial value goes no further, as its own assertion fails.

A run is a measurement (`fibreTest_measures`), as with threads. A fibre only loads what belongs to
the cluster it is on (`fibres_at_home`), also when it migrates and while the alarm's handler runs.
-/

namespace Cachetest

open ByteMemory Circuit Measurement PerfEvents Runs

/-! ## The system -/

/-- `MAX_NUM_SUBPATHS`. -/
def maxNumSubpaths : Nat := 10

/-- Where `fibreTest` is: before it creates the clusters, up to the end of its spin loop, before
`evictCacheEntries`, before `setupTimeout`, before `perf->start()`, at the barrier, joining fibre
`i`, before `perf->stop()`, and back. -/
inductive FibreStage where
  | creating
  | gathering
  | evicting
  | arming
  | starting
  | waiting
  | joining (i : Nat)
  | stopping
  | returned
  deriving DecidableEq, Repr

/-- The place of a stage in their order. -/
def FibreStage.rank : FibreStage → Nat
  | creating => 0
  | gathering => 1
  | evicting => 2
  | arming => 3
  | starting => 4
  | waiting => 5
  | joining _ => 6
  | stopping => 7
  | returned => 8

/-- The stage of the measurement. -/
def FibreStage.stage : FibreStage → Stage
  | creating | gathering | evicting | arming | starting => .before
  | waiting | joining _ | stopping => .during
  | returned => .after

/-- What a test with fibres is given: the cluster of subpath `i` has `subpathThreadCounts[i]` worker
threads. -/
structure FibreSetup extends TestSetup where
  migrate : Bool
  subpathThreadCounts : List Nat

/-- The fibres at the barrier and in their loops, and where the main fibre is. -/
structure FibreRun {n : Nat} (counts : Fin n → Nat) where
  workers : Workers (Worker counts)
  fibres : FibreTest (∑ i, counts i)
  stage : FibreStage

inductive FibreRunAction {n : Nat} (counts : Fin n → Nat) where
  | create
  | fibre (a : FibreAction (∑ i, counts i))
  | evict
  | arm
  | start
  | join
  | stop (arg : Nat)
  | worker (a : WorkerAction (Worker counts))

/-! ## More on the barrier -/

namespace FibreTest

variable {n : Nat} {s s' : FibreTest n}

theorem Counted.announcements_le_step (h : Counted s) {a : FibreAction n}
    (hstep : s.step a = some s') (i : Fin n) :
    announcements (s.fibre i) ≤ announcements (s'.fibre i) := by
  have hupdate : ∀ j p, announcements (s.fibre j) ≤ announcements p →
      announcements (s.fibre i) ≤ announcements (Function.update s.fibre j p i) := by
    intro j p hle
    by_cases heq : i = j
    · subst heq
      rwa [Function.update_self]
    · rw [Function.update_of_ne heq]
  cases a with
  | spawn =>
    obtain ⟨cur, hmain, ⟨hcur, rfl⟩ | ⟨-, rfl⟩⟩ := step_spawn hstep
    · exact hupdate _ _ (by rw [h.uncreated cur hmain _ le_rfl]; exact Nat.zero_le _)
    · exact le_rfl
  | announce j =>
    obtain ⟨-, rfl⟩ := step_announce hstep
    exact hupdate _ _ (announcements_le _)
  | arrive j =>
    obtain ⟨-, rfl⟩ := step_arrive hstep
    exact hupdate _ _ (announcements_le _)
  | release =>
    obtain ⟨-, -, rfl⟩ := step_release hstep
    exact le_rfl
  | arriveMain =>
    obtain ⟨-, rfl⟩ := step_arriveMain hstep
    exact le_rfl
  | returnMain =>
    obtain ⟨serial, -, rfl⟩ := step_returnMain hstep
    exact le_rfl

theorem arrivals_le_step {a : FibreAction n} (hstep : s.step a = some s') :
    s.arrivals ≤ s'.arrivals := by
  cases a with
  | spawn => obtain ⟨cur, -, ⟨hcur, rfl⟩ | ⟨-, rfl⟩⟩ := step_spawn hstep <;> exact le_rfl
  | announce i =>
    obtain ⟨-, rfl⟩ := step_announce hstep
    exact le_rfl
  | arrive i =>
    obtain ⟨-, rfl⟩ := step_arrive hstep
    exact Nat.le_succ _
  | release =>
    obtain ⟨-, -, rfl⟩ := step_release hstep
    exact le_rfl
  | arriveMain =>
    obtain ⟨-, rfl⟩ := step_arriveMain hstep
    exact Nat.le_succ _
  | returnMain =>
    obtain ⟨serial, -, rfl⟩ := step_returnMain hstep
    exact le_rfl

/-- More than `n` arrivals are those of all fibres and of the main fibre. -/
theorem Counted.all_arrived (h : Counted s) (hall : n < s.arrivals) :
    (∀ i, fibreArrivals (s.fibre i) = 1) ∧ mainArrivals s.main = 1 := by
  have hle : ∀ i ∈ Finset.univ, fibreArrivals (s.fibre i) ≤ 1 := fun i _ =>
    (fibreArrivals_le _).trans (announcements_le _)
  have hsum : ∑ i, fibreArrivals (s.fibre i) ≤ n := by
    simpa using Finset.sum_le_card_nsmul Finset.univ (fun i => fibreArrivals (s.fibre i)) 1 hle
  have hmain : mainArrivals s.main ≤ 1 := by
    cases s.main <;> simp [mainArrivals]
  have harr := h.arrivals
  have heq : ∑ i, fibreArrivals (s.fibre i) = ∑ _i : Fin n, 1 := by
    simp only [Finset.sum_const, Finset.card_univ, Fintype.card_fin, smul_eq_mul, mul_one]
    omega
  exact ⟨fun i => (Finset.sum_eq_sum_iff_of_le hle).mp heq i (Finset.mem_univ i), by omega⟩

end FibreTest

namespace FibreRun

variable {n : Nat} {counts : Fin n → Nat}

/-- `curFibreIdx` of a fibre. -/
def number (w : Worker counts) : Fin (∑ i, counts i) := finSigmaFinEquiv w

/-- The fibre with a number. -/
def ofNumber (i : Fin (∑ i, counts i)) : Worker counts := finSigmaFinEquiv.symm i

@[simp] theorem ofNumber_number (w : Worker counts) : ofNumber (number w) = w :=
  finSigmaFinEquiv.symm_apply_apply w

@[simp] theorem number_ofNumber (i : Fin (∑ i, counts i)) :
    number (ofNumber i : Worker counts) = i :=
  finSigmaFinEquiv.apply_symm_apply i

theorem number_injective : Function.Injective (number : Worker counts → _) :=
  finSigmaFinEquiv.injective

/-- The variables with which a fibre enters its loop. -/
def loopStart (migrate : Bool) (infos : List SubpathInfo) (m : Memory) (w : Worker counts) :
    Thread :=
  let startIdx := workerStart infos m w.1 w.2 (counts w.1)
  if migrate then
    .migratingLoop (.start infos w.1 startIdx
      (stepsOffset (subpathInfoAt infos w.1).length w.2 (counts w.1))) w.1
  else .loop (.start startIdx)

/-- The number of the cluster a fibre is on: the one it was created in, or the one it has last
passed to `fibre_migrate`. -/
def cluster (w : Worker counts) : Thread → Nat
  | .loop _ => w.1
  | .migratingLoop _ c => c

/-- The same, also before its loop. -/
def clusterOf (w : Worker counts) : Work → Nat
  | .ready t | .looping t => cluster w t
  | .idle | .finished _ => w.1

/-- There is a worker thread on the cluster of the fibre. Without one it does not run. -/
def Served (setup : FibreSetup) (s : FibreRun counts) (w : Worker counts) : Prop :=
  0 < setup.subpathThreadCounts.getD (clusterOf w (s.workers.work w)) 0

instance (setup : FibreSetup) (s : FibreRun counts) (w : Worker counts) :
    Decidable (s.Served setup w) := inferInstanceAs (Decidable (_ < _))

/-- What a worker's action has to wait for: a fibre looks up its start when it has been created, it
goes on when all have arrived at the barrier and `fibre_barrier_wait` has returned zero, and the
handler runs when the alarm has been set. -/
def Allowed (setup : FibreSetup) (s : FibreRun counts) : WorkerAction (Worker counts) → Prop
  | .prepare w => s.fibres.fibre (number w) = .running ∧ s.Served setup w
  | .enter w => s.fibres.fibre (number w) = .arrived false ∧
    s.fibres.arrivals = (∑ i, counts i) + 1 ∧ s.Served setup w
  | .load w _ | .leave w => s.Served setup w
  | .stop => 4 ≤ s.stage.rank

instance (setup : FibreSetup) (s : FibreRun counts) :
    (a : WorkerAction (Worker counts)) → Decidable (s.Allowed setup a)
  | .prepare _ | .enter _ => inferInstanceAs (Decidable (_ ∧ _))
  | .load w _ | .leave w => inferInstanceAs (Decidable (s.Served setup w))
  | .stop => inferInstanceAs (Decidable (4 ≤ s.stage.rank))

/-- The stage in which the main fibre is after a step of the barrier, from one in which the step is
possible. A fibre counts itself when it has looked up its start. The main fibre goes on when it was
the last one at the barrier; otherwise its assertion fails. -/
def stageAfter (s : FibreRun counts) (fibres : FibreTest (∑ i, counts i)) :
    FibreAction (∑ i, counts i) → Option FibreStage
  | .spawn => if s.stage = .gathering then some .gathering else none
  | .announce i =>
    match s.workers.work (ofNumber i) with
    | .ready _ => some s.stage
    | _ => none
  | .arrive _ => some s.stage
  | .release => if s.stage = .gathering then some .evicting else none
  | .arriveMain => if s.stage = .waiting then some .waiting else none
  | .returnMain =>
    if s.stage = .waiting ∧ fibres.main = .returned true then some (.joining 0) else none

def step (setup : FibreSetup) (s : FibreRun counts) :
    FibreRunAction counts → Option (FibreRun counts)
  | .create =>
    if s.stage = .creating ∧ n ≤ maxNumSubpaths then some { s with stage := .gathering } else none
  | .fibre a =>
    (s.fibres.step a).bind fun fibres => (s.stageAfter fibres a).map fun stage =>
      { s with fibres := fibres, stage := stage }
  | .evict =>
    if s.stage = .evicting then
      (evictCacheEntries setup.uniqueWorkerCPUIdSet).toOption.map fun _ =>
        { s with stage := .arming }
    else none
  | .arm => if s.stage = .arming then some { s with stage := .starting } else none
  | .start =>
    if s.stage = .starting then
      (startPerf setup.perf s.workers.kernel).map fun k =>
        { s with workers := { s.workers with kernel := k }, stage := .waiting }
    else none
  | .join =>
    match s.stage with
    | .joining i =>
      if h : i < ∑ i, counts i then
        match s.workers.work (ofNumber ⟨i, h⟩) with
        | .finished _ => some { s with stage := .joining (i + 1) }
        | _ => none
      else some { s with stage := .stopping }
    | _ => none
  | .stop arg =>
    if s.stage = .stopping then
      (stopPerf setup.perf arg s.workers.kernel).map fun k =>
        { s with workers := { s.workers with kernel := k }, stage := .returned }
    else none
  | .worker a =>
    if s.Allowed setup a then
      (s.workers.step setup.infos n (loopStart setup.migrate setup.infos) a).map fun workers =>
        { s with workers := workers }
    else none

/-- The memory in which the fibres run: the path is split when they do not migrate. -/
def startMemory (setup : FibreSetup) (m : Memory) : Memory :=
  if setup.migrate then m else splitPointerChasingPath setup.infos m

def initial (counts : Fin n → Nat) (setup : FibreSetup) (m : Memory) (k : Kernel) :
    FibreRun counts where
  workers := .initial (startMemory setup m) setup.infos k
  fibres := .initial _
  stage := .creating

/-! ## What a step does -/

variable {setup : FibreSetup} {s s' : FibreRun counts}

theorem step_create (h : s.step setup .create = some s') :
    s.stage = .creating ∧ s' = { s with stage := .gathering } := by
  simp only [step, Option.ite_none_right_eq_some, Option.some.injEq] at h
  exact ⟨h.1.1, h.2.symm⟩

theorem step_fibre {a : FibreAction (∑ i, counts i)} (h : s.step setup (.fibre a) = some s') :
    ∃ fibres stage, s.fibres.step a = some fibres ∧ s.stageAfter fibres a = some stage ∧
      s' = { s with fibres := fibres, stage := stage } := by
  simp only [step, Option.bind_eq_some_iff, Option.map_eq_some_iff] at h
  obtain ⟨fibres, hfibres, stage, hstage, rfl⟩ := h
  exact ⟨fibres, stage, hfibres, hstage, rfl⟩

theorem step_evict (h : s.step setup .evict = some s') :
    s.stage = .evicting ∧ s' = { s with stage := .arming } := by
  simp only [step, Option.ite_none_right_eq_some, Option.map_eq_some_iff] at h
  obtain ⟨hstage, wiped, -, rfl⟩ := h
  exact ⟨hstage, rfl⟩

theorem step_arm (h : s.step setup .arm = some s') :
    s.stage = .arming ∧ s' = { s with stage := .starting } := by
  simp only [step, Option.ite_none_right_eq_some, Option.some.injEq] at h
  exact ⟨h.1, h.2.symm⟩

theorem step_start (h : s.step setup .start = some s') :
    s.stage = .starting ∧ ∃ k, startPerf setup.perf s.workers.kernel = some k ∧
      s' = { s with workers := { s.workers with kernel := k }, stage := .waiting } := by
  simp only [step, Option.ite_none_right_eq_some, Option.map_eq_some_iff] at h
  obtain ⟨hstage, k, hk, rfl⟩ := h
  exact ⟨hstage, k, hk, rfl⟩

theorem step_join (h : s.step setup .join = some s') :
    ∃ i, s.stage = .joining i ∧
      ((∃ hi res, s.workers.work (ofNumber ⟨i, hi⟩) = .finished res ∧
          s' = { s with stage := .joining (i + 1) }) ∨
        (¬i < ∑ i, counts i ∧ s' = { s with stage := .stopping })) := by
  simp only [step] at h
  split at h
  case h_2 => cases h
  case h_1 i hstage =>
    refine ⟨i, hstage, ?_⟩
    split at h
    case isTrue hi =>
      split at h
      case h_1 res hres => exact Or.inl ⟨hi, res, hres, (Option.some.inj h).symm⟩
      case h_2 => cases h
    case isFalse hi => exact Or.inr ⟨hi, (Option.some.inj h).symm⟩

theorem step_stop {arg : Nat} (h : s.step setup (.stop arg) = some s') :
    s.stage = .stopping ∧ ∃ k, stopPerf setup.perf arg s.workers.kernel = some k ∧
      s' = { s with workers := { s.workers with kernel := k }, stage := .returned } := by
  simp only [step, Option.ite_none_right_eq_some, Option.map_eq_some_iff] at h
  obtain ⟨hstage, k, hk, rfl⟩ := h
  exact ⟨hstage, k, hk, rfl⟩

theorem step_worker {a : WorkerAction (Worker counts)} (h : s.step setup (.worker a) = some s') :
    s.Allowed setup a ∧ ∃ workers,
      s.workers.step setup.infos n (loopStart setup.migrate setup.infos) a = some workers ∧
        s' = { s with workers := workers } := by
  simp only [step, Option.ite_none_right_eq_some, Option.map_eq_some_iff] at h
  obtain ⟨hallowed, workers, hworkers, rfl⟩ := h
  exact ⟨hallowed, workers, hworkers, rfl⟩

/-- The barrier does what it does without the rest of the test. -/
def fibreAction : FibreRunAction counts → Option (FibreAction (∑ i, counts i))
  | .fibre a => some a
  | _ => none

/-- The barrier of a test is a run of the barrier. -/
theorem fibres_run {m : Memory} {k : Kernel} {acts : List (FibreRunAction counts)}
    (hrun : run (step setup) (initial counts setup m k) acts = some s) :
    run FibreTest.step (.initial (∑ i, counts i)) (acts.filterMap fibreAction) = some s.fibres := by
  obtain ⟨t, ht, rfl⟩ := run_simulation (R := fun s t => t = s.fibres) (f := fibreAction)
    (fun s t a s' h hstep => by
      subst h
      cases a with
      | create =>
        obtain ⟨-, rfl⟩ := step_create hstep
        exact ⟨_, rfl, rfl⟩
      | fibre a =>
        obtain ⟨fibres, stage, hfibres, -, rfl⟩ := step_fibre hstep
        exact ⟨fibres, run_cons.mpr ⟨_, hfibres, rfl⟩, rfl⟩
      | evict =>
        obtain ⟨-, rfl⟩ := step_evict hstep
        exact ⟨_, rfl, rfl⟩
      | arm =>
        obtain ⟨-, rfl⟩ := step_arm hstep
        exact ⟨_, rfl, rfl⟩
      | start =>
        obtain ⟨-, k, -, rfl⟩ := step_start hstep
        exact ⟨_, rfl, rfl⟩
      | join =>
        obtain ⟨i, -, ⟨hi, res, -, rfl⟩ | ⟨-, rfl⟩⟩ := step_join hstep <;> exact ⟨_, rfl, rfl⟩
      | stop arg =>
        obtain ⟨-, k, -, rfl⟩ := step_stop hstep
        exact ⟨_, rfl, rfl⟩
      | worker a =>
        obtain ⟨-, workers, -, rfl⟩ := step_worker hstep
        exact ⟨_, rfl, rfl⟩) rfl hrun
  exact ht

/-! ## The order of events -/

/-- How far a fibre can have come in each of its phases at the barrier. -/
def Launched : FibrePhase → Work → Prop
  | .uncreated, w => w = .idle
  | .running, w => ¬w.Started
  | .announced, w | .arrived _, w => w ≠ .idle

/-- What holds at every moment: the main fibre goes on when all fibres have counted themselves, a
fibre starts when all have arrived, and it has finished when it has been joined. -/
structure Ordered (s : FibreRun counts) : Prop where
  counted : FibreTest.Counted s.fibres
  launched : ∀ w, Launched (s.fibres.fibre (number w)) (s.workers.work w)
  gathered : 2 ≤ s.stage.rank → ∀ i, FibreTest.announcements (s.fibres.fibre i) = 1
  unarrived : s.stage.rank < 5 → FibreTest.mainArrivals s.fibres.main = 0
  started : ∀ w, (s.workers.work w).Started → ∑ i, counts i < s.fibres.arrivals
  joined : ∀ i, s.stage = .joining i → ∀ w, number w < i → ∃ res, s.workers.work w = .finished res
  finished : 7 ≤ s.stage.rank → ∀ w, ∃ res, s.workers.work w = .finished res

theorem Launched.of_started {p : FibrePhase} {w w' : Work} (h : Launched p w) (hw : w.Started)
    (hw' : w' ≠ .idle) : Launched p w' := by
  cases p with
  | uncreated =>
    obtain rfl : w = .idle := h
    exact hw.elim
  | running => exact absurd hw h
  | announced => exact hw'
  | arrived serial => exact hw'

theorem ordered_initial (setup : FibreSetup) (m : Memory) (k : Kernel) :
    Ordered (initial counts setup m k) where
  counted := FibreTest.counted_initial _
  launched _ := rfl
  gathered h := by simp [initial, FibreStage.rank] at h
  unarrived _ := rfl
  started _ h := h.elim
  joined i h := by cases h
  finished h := by simp [initial, FibreStage.rank] at h

theorem Ordered.goto (h : Ordered s) {stage : FibreStage} (k : Kernel)
    (hgathered : 2 ≤ stage.rank → ∀ i, FibreTest.announcements (s.fibres.fibre i) = 1)
    (hunarrived : stage.rank < 5 → FibreTest.mainArrivals s.fibres.main = 0)
    (hjoined : ∀ i, stage = .joining i → ∀ w, number w < i →
      ∃ res, s.workers.work w = .finished res)
    (hfinished : 7 ≤ stage.rank → ∀ w, ∃ res, s.workers.work w = .finished res) :
    Ordered { s with workers := { s.workers with kernel := k }, stage := stage } where
  counted := h.counted
  launched := h.launched
  gathered := hgathered
  unarrived := hunarrived
  started := h.started
  joined := hjoined
  finished := hfinished

theorem Ordered.move (h : Ordered s) {w : Worker counts} {work : Work} (k : Kernel)
    (hlaunched : Launched (s.fibres.fibre (number w)) work)
    (hstarted : work.Started → ∑ i, counts i < s.fibres.arrivals)
    (hgoing : ∀ res, s.workers.work w ≠ .finished res) :
    Ordered { s with workers := { s.workers.update w work with kernel := k } } := by
  have hkept : ∀ w', (∃ res, s.workers.work w' = .finished res) →
      ∃ res, (s.workers.update w work).work w' = .finished res := by
    rintro w' ⟨res, hres⟩
    have hne : w' ≠ w := fun heq => hgoing res (heq ▸ hres)
    exact ⟨res, (Workers.work_update_of_ne hne).trans hres⟩
  refine ⟨h.counted, fun w' => ?_, h.gathered, h.unarrived, fun w' hw' => ?_,
    fun i hstage w' hw' => hkept w' (h.joined i hstage w' hw'),
    fun hrank w' => hkept w' (h.finished hrank w')⟩
  · by_cases heq : w' = w
    · subst heq
      simpa [Workers.update] using hlaunched
    · simpa [Workers.update, Function.update_of_ne heq] using h.launched w'
  · by_cases heq : w' = w
    · subst heq
      exact hstarted (by simpa [Workers.update] using hw')
    · exact h.started w' (by simpa [Workers.update, Function.update_of_ne heq] using hw')

theorem Ordered.worker (h : Ordered s) {a : WorkerAction (Worker counts)}
    {workers : Workers (Worker counts)} (hallowed : s.Allowed setup a)
    (hstep : s.workers.step setup.infos n (loopStart setup.migrate setup.infos) a = some workers) :
    Ordered { s with workers := workers } := by
  cases a with
  | prepare w =>
    obtain ⟨hidle, rfl⟩ := Workers.step_prepare hstep
    obtain ⟨hrunning, -⟩ := hallowed
    refine h.move s.workers.kernel ?_ (fun hstarted => hstarted.elim) (by simp [hidle])
    rw [hrunning]
    exact id
  | enter w =>
    obtain ⟨t, hready, rfl⟩ := Workers.step_enter hstep
    obtain ⟨harrived, hall, -⟩ := hallowed
    refine h.move s.workers.kernel ?_ (fun _ => by omega) (by simp [hready])
    rw [harrived]
    exact Work.noConfusion
  | load w ticks =>
    obtain ⟨t, t', hlooping, -, rfl⟩ := Workers.step_load hstep
    have hstarted : (s.workers.work w).Started := by rw [hlooping]; trivial
    exact h.move _ ((h.launched w).of_started hstarted Work.noConfusion)
      (fun _ => h.started w hstarted) (by simp [hlooping])
  | leave w =>
    obtain ⟨t, hlooping, -, rfl⟩ := Workers.step_leave hstep
    have hstarted : (s.workers.work w).Started := by rw [hlooping]; trivial
    exact h.move s.workers.kernel ((h.launched w).of_started hstarted Work.noConfusion)
      (fun _ => h.started w hstarted) (by simp [hlooping])
  | stop =>
    obtain ⟨info, rest, -, rfl⟩ := Workers.step_stop hstep
    exact ⟨h.counted, h.launched, h.gathered, h.unarrived, h.started, h.joined, h.finished⟩

theorem stageAfter_cases {a : FibreAction (∑ i, counts i)} {fibres : FibreTest (∑ i, counts i)}
    {stage : FibreStage} (h : s.stageAfter fibres a = some stage) :
    (a = .spawn ∧ s.stage = .gathering ∧ stage = .gathering) ∨
      (∃ i t, a = .announce i ∧ s.workers.work (ofNumber i) = .ready t ∧ stage = s.stage) ∨
      (∃ i, a = .arrive i ∧ stage = s.stage) ∨
      (a = .release ∧ s.stage = .gathering ∧ stage = .evicting) ∨
      (a = .arriveMain ∧ s.stage = .waiting ∧ stage = .waiting) ∨
      (a = .returnMain ∧ s.stage = .waiting ∧ stage = .joining 0) := by
  cases a with
  | announce i =>
    simp only [stageAfter] at h
    split at h
    case h_1 t hready => exact Or.inr (Or.inl ⟨i, t, rfl, hready, (Option.some.inj h).symm⟩)
    case h_2 => cases h
  | arrive i => exact Or.inr (Or.inr (Or.inl ⟨i, rfl, (Option.some.inj h).symm⟩))
  | spawn =>
    simp only [stageAfter, Option.ite_none_right_eq_some, Option.some.injEq] at h
    exact Or.inl ⟨rfl, h.1, h.2.symm⟩
  | release =>
    simp only [stageAfter, Option.ite_none_right_eq_some, Option.some.injEq] at h
    exact Or.inr (Or.inr (Or.inr (Or.inl ⟨rfl, h.1, h.2.symm⟩)))
  | arriveMain =>
    simp only [stageAfter, Option.ite_none_right_eq_some, Option.some.injEq] at h
    exact Or.inr (Or.inr (Or.inr (Or.inr (Or.inl ⟨rfl, h.1, h.2.symm⟩))))
  | returnMain =>
    simp only [stageAfter, Option.ite_none_right_eq_some, Option.some.injEq] at h
    exact Or.inr (Or.inr (Or.inr (Or.inr (Or.inr ⟨rfl, h.1.1, h.2.symm⟩))))

/-- How far a fibre has come fits its phase after a step of the barrier. -/
theorem Ordered.launched_step (h : Ordered s) {a : FibreAction (∑ i, counts i)}
    {fibres : FibreTest (∑ i, counts i)} {stage : FibreStage}
    (hstep : s.fibres.step a = some fibres) (hstage : s.stageAfter fibres a = some stage)
    (w : Worker counts) : Launched (fibres.fibre (number w)) (s.workers.work w) := by
  have hkept : ∀ i p, (Launched (s.fibres.fibre i) (s.workers.work (ofNumber i)) →
      Launched p (s.workers.work (ofNumber i))) →
      Launched (Function.update s.fibres.fibre i p (number w)) (s.workers.work w) := by
    intro i p hlaunched
    by_cases heq : number w = i
    · subst heq
      rw [Function.update_self]
      rw [ofNumber_number] at hlaunched
      exact hlaunched (h.launched w)
    · rw [Function.update_of_ne heq]
      exact h.launched w
  cases a with
  | spawn =>
    obtain ⟨cur, hmain, ⟨hcur, rfl⟩ | ⟨-, rfl⟩⟩ := FibreTest.step_spawn hstep
    · refine hkept _ _ fun hold => ?_
      rw [h.counted.uncreated cur hmain _ le_rfl] at hold
      rw [show s.workers.work _ = .idle from hold]
      exact id
    · exact h.launched w
  | announce i =>
    obtain ⟨-, rfl⟩ := FibreTest.step_announce hstep
    obtain ⟨⟨t, hready⟩, -⟩ : (∃ t, s.workers.work (ofNumber i) = .ready t) ∧ stage = s.stage := by
      simpa using stageAfter_cases hstage
    refine hkept _ _ fun _ => ?_
    rw [hready]
    exact Work.noConfusion
  | arrive i =>
    obtain ⟨hphase, rfl⟩ := FibreTest.step_arrive hstep
    refine hkept _ _ fun hold => ?_
    rw [hphase] at hold
    exact hold
  | release =>
    obtain ⟨-, -, rfl⟩ := FibreTest.step_release hstep
    exact h.launched w
  | arriveMain =>
    obtain ⟨-, rfl⟩ := FibreTest.step_arriveMain hstep
    exact h.launched w
  | returnMain =>
    obtain ⟨serial, -, rfl⟩ := FibreTest.step_returnMain hstep
    exact h.launched w

theorem Ordered.barrier (h : Ordered s) {a : FibreAction (∑ i, counts i)}
    {fibres : FibreTest (∑ i, counts i)} {stage : FibreStage}
    (hstep : s.fibres.step a = some fibres) (hstage : s.stageAfter fibres a = some stage) :
    Ordered { s with fibres := fibres, stage := stage } := by
  have hcounted := FibreTest.counted_step h.counted hstep
  have hannounced : (∀ i, FibreTest.announcements (s.fibres.fibre i) = 1) →
      ∀ i, FibreTest.announcements (fibres.fibre i) = 1 := by
    intro hold i
    have hle := h.counted.announcements_le_step hstep i
    have hone := FibreTest.announcements_le (fibres.fibre i)
    rw [hold i] at hle
    omega
  have hstarted : ∀ w, (s.workers.work w).Started → ∑ i, counts i < fibres.arrivals :=
    fun w hw => (h.started w hw).trans_le (FibreTest.arrivals_le_step hstep)
  have hlaunched := h.launched_step hstep hstage
  obtain ⟨rfl, hold, rfl⟩ | ⟨i, t, rfl, -, rfl⟩ | ⟨i, rfl, rfl⟩ | ⟨rfl, hold, rfl⟩ |
    ⟨rfl, hold, rfl⟩ | ⟨rfl, hold, rfl⟩ := stageAfter_cases hstage
  · refine ⟨hcounted, hlaunched, fun hrank => by simp [FibreStage.rank] at hrank, fun _ => ?_,
      hstarted, fun i hi => (by cases hi), fun hrank => by simp [FibreStage.rank] at hrank⟩
    obtain ⟨cur, -, ⟨hcur, rfl⟩ | ⟨-, rfl⟩⟩ := FibreTest.step_spawn hstep <;> rfl
  · obtain ⟨-, rfl⟩ := FibreTest.step_announce hstep
    exact ⟨hcounted, hlaunched, fun hrank => hannounced (h.gathered hrank), h.unarrived, hstarted,
      h.joined, h.finished⟩
  · obtain ⟨-, rfl⟩ := FibreTest.step_arrive hstep
    exact ⟨hcounted, hlaunched, fun hrank => hannounced (h.gathered hrank), h.unarrived, hstarted,
      h.joined, h.finished⟩
  · obtain ⟨-, -, rfl⟩ := FibreTest.step_release hstep
    exact ⟨hcounted, hlaunched, fun _ => hcounted.released rfl, fun _ => rfl, hstarted,
      fun i hi => (by cases hi), fun hrank => by simp [FibreStage.rank] at hrank⟩
  · have hgathered := h.gathered (by simp [hold, FibreStage.rank])
    exact ⟨hcounted, hlaunched, fun _ => hannounced hgathered,
      fun hrank => by simp [FibreStage.rank] at hrank, hstarted, fun i hi => (by cases hi),
      fun hrank => by simp [FibreStage.rank] at hrank⟩
  · have hgathered := h.gathered (by simp [hold, FibreStage.rank])
    refine ⟨hcounted, hlaunched, fun _ => hannounced hgathered,
      fun hrank => by simp [FibreStage.rank] at hrank, hstarted, ?_,
      fun hrank => by simp [FibreStage.rank] at hrank⟩
    rintro i hi w hw
    obtain rfl := FibreStage.joining.inj hi
    exact absurd hw (Nat.not_lt_zero _)

/-- Every step keeps the order. -/
theorem ordered_step {a : FibreRunAction counts} (h : Ordered s)
    (hstep : s.step setup a = some s') : Ordered s' := by
  cases a with
  | create =>
    obtain ⟨hstage, rfl⟩ := step_create hstep
    exact h.goto s.workers.kernel (fun hrank => by simp [FibreStage.rank] at hrank)
      (fun _ => h.unarrived (by simp [hstage, FibreStage.rank])) (fun i hi => by cases hi)
      (fun hrank => by simp [FibreStage.rank] at hrank)
  | fibre a =>
    obtain ⟨fibres, stage, hfibres, hstage, rfl⟩ := step_fibre hstep
    exact h.barrier hfibres hstage
  | evict =>
    obtain ⟨hstage, rfl⟩ := step_evict hstep
    have hgathered := h.gathered (by simp [hstage, FibreStage.rank])
    exact h.goto s.workers.kernel (fun _ => hgathered)
      (fun _ => h.unarrived (by simp [hstage, FibreStage.rank])) (fun i hi => by cases hi)
      (fun hrank => by simp [FibreStage.rank] at hrank)
  | arm =>
    obtain ⟨hstage, rfl⟩ := step_arm hstep
    have hgathered := h.gathered (by simp [hstage, FibreStage.rank])
    exact h.goto s.workers.kernel (fun _ => hgathered)
      (fun _ => h.unarrived (by simp [hstage, FibreStage.rank])) (fun i hi => by cases hi)
      (fun hrank => by simp [FibreStage.rank] at hrank)
  | start =>
    obtain ⟨hstage, k, -, rfl⟩ := step_start hstep
    have hgathered := h.gathered (by simp [hstage, FibreStage.rank])
    exact h.goto k (fun _ => hgathered) (fun hrank => by simp [FibreStage.rank] at hrank)
      (fun i hi => by cases hi) (fun hrank => by simp [FibreStage.rank] at hrank)
  | join =>
    obtain ⟨i, hstage, ⟨hi, res, hres, rfl⟩ | ⟨hi, rfl⟩⟩ := step_join hstep
    · have hgathered := h.gathered (by simp [hstage, FibreStage.rank])
      refine h.goto s.workers.kernel (fun _ => hgathered)
        (fun hrank => by simp [FibreStage.rank] at hrank) ?_
        (fun hrank => by simp [FibreStage.rank] at hrank)
      rintro j hj w hw
      obtain rfl := FibreStage.joining.inj hj
      rcases Nat.lt_or_eq_of_le (Nat.le_of_lt_succ hw) with hless | heq
      · exact h.joined i hstage w hless
      · obtain rfl : w = ofNumber ⟨i, hi⟩ := number_injective (by
          rw [number_ofNumber]
          exact Fin.ext heq)
        exact ⟨res, hres⟩
    · have hgathered := h.gathered (by simp [hstage, FibreStage.rank])
      exact h.goto s.workers.kernel (fun _ => hgathered)
        (fun hrank => by simp [FibreStage.rank] at hrank) (fun i hi => by cases hi)
        (fun _ w => h.joined i hstage w ((number w).isLt.trans_le (not_lt.mp hi)))
  | stop arg =>
    obtain ⟨hstage, k, -, rfl⟩ := step_stop hstep
    have hgathered := h.gathered (by simp [hstage, FibreStage.rank])
    have hfinished := h.finished (by simp [hstage, FibreStage.rank])
    exact h.goto k (fun _ => hgathered) (fun hrank => by simp [FibreStage.rank] at hrank)
      (fun i hi => by cases hi) (fun _ => hfinished)
  | worker a =>
    obtain ⟨hallowed, workers, hworkers, rfl⟩ := step_worker hstep
    exact h.worker hallowed hworkers

theorem ordered_run {m : Memory} {k : Kernel} {acts : List (FibreRunAction counts)}
    (hrun : run (step setup) (initial counts setup m k) acts = some s) : Ordered s :=
  run_invariant (fun _ _ _ _ => ordered_step) (ordered_initial setup m k) hrun

/-! ## A test is a measurement -/

/-- What an action is for the measurement. -/
def observe : FibreRunAction counts → Option (Observation (Worker counts))
  | .start => some .start
  | .stop _ => some .finish
  | .worker a => a.loaded.map .work
  | _ => none

/-- What the event at `fd` counts in an action. -/
def ticks (fd : Int) : FibreRunAction counts → Nat
  | .worker a => a.ticks fd
  | _ => 0

/-- When a fibre is in its loop, all have arrived, and the main fibre has started the counters. -/
theorem Ordered.of_looping (h : Ordered s) {w : Worker counts} {t : Thread}
    (hlooping : s.workers.work w = .looping t) :
    (∀ i, FibreTest.fibreArrivals (s.fibres.fibre i) = 1) ∧
      FibreTest.mainArrivals s.fibres.main = 1 ∧ s.stage.stage = .during := by
  obtain ⟨hfibres, hmain⟩ := h.counted.all_arrived (h.started w (by rw [hlooping]; trivial))
  refine ⟨hfibres, hmain, ?_⟩
  have hlow : ¬s.stage.rank < 5 := fun hrank => by simp [h.unarrived hrank] at hmain
  have hhigh : s.stage.rank < 7 := by
    by_contra hrank
    obtain ⟨res, hres⟩ := h.finished (not_lt.mp hrank) w
    simp [hlooping] at hres
  cases hstage : s.stage <;> simp_all [FibreStage.rank, FibreStage.stage]

theorem Ordered.during_of_load (h : Ordered s) {w : Worker counts} {ticks : Int → Nat}
    {workers : Workers (Worker counts)}
    (hstep : s.workers.step setup.infos n (loopStart setup.migrate setup.infos) (.load w ticks) =
      some workers) : s.stage.stage = .during := by
  obtain ⟨t, t', hlooping, -, -⟩ := Workers.step_load hstep
  exact (h.of_looping hlooping).2.2

/-- `t` is the measurement that `s` is a state of. -/
structure Measures (s : FibreRun counts) (t : Measured (Worker counts)) : Prop where
  ordered : Ordered s
  stage : t.stage = s.stage.stage
  done : ∀ w, t.done w = (s.workers.work w).accesscount

theorem measures_initial (setup : FibreSetup) (m : Memory) (k : Kernel) :
    Measures (initial counts setup m k) .initial where
  ordered := ordered_initial setup m k
  stage := rfl
  done _ := rfl

theorem stage_stageAfter {a : FibreAction (∑ i, counts i)} {fibres : FibreTest (∑ i, counts i)}
    {stage : FibreStage} (h : s.stageAfter fibres a = some stage) :
    stage.stage = s.stage.stage := by
  obtain ⟨-, hold, rfl⟩ | ⟨i, t, -, -, rfl⟩ | ⟨i, -, rfl⟩ | ⟨-, hold, rfl⟩ | ⟨-, hold, rfl⟩ |
    ⟨-, hold, rfl⟩ := stageAfter_cases h
  case inr.inl | inr.inr.inl => rfl
  all_goals simp [hold, FibreStage.stage]

theorem accesscount_loopStart (migrate : Bool) (infos : List SubpathInfo) (m : Memory)
    (w : Worker counts) : (loopStart migrate infos m w).accesscount = 0 := by
  cases migrate <;> rfl

/-- Every step of a test is a step of the measurement, or none. -/
theorem measures_step {t : Measured (Worker counts)} {a : FibreRunAction counts}
    (h : Measures s t) (hstep : s.step setup a = some s') :
    ∃ t', run Measured.step t (observe a).toList = some t' ∧ Measures s' t' := by
  have hordered := ordered_step h.ordered hstep
  have hstage := h.stage
  cases a with
  | create =>
    obtain ⟨hold, rfl⟩ := step_create hstep
    rw [hold] at hstage
    exact ⟨t, rfl, hordered, hstage, h.done⟩
  | fibre a =>
    obtain ⟨fibres, stage, -, hafter, rfl⟩ := step_fibre hstep
    exact ⟨t, rfl, hordered, hstage.trans (stage_stageAfter hafter).symm, h.done⟩
  | evict =>
    obtain ⟨hold, rfl⟩ := step_evict hstep
    rw [hold] at hstage
    exact ⟨t, rfl, hordered, hstage, h.done⟩
  | arm =>
    obtain ⟨hold, rfl⟩ := step_arm hstep
    rw [hold] at hstage
    exact ⟨t, rfl, hordered, hstage, h.done⟩
  | start =>
    obtain ⟨hold, k, -, rfl⟩ := step_start hstep
    rw [hold] at hstage
    exact ⟨_, run_cons.mpr ⟨_, if_pos hstage, rfl⟩, hordered, rfl, h.done⟩
  | join =>
    obtain ⟨i, hold, ⟨hi, res, -, rfl⟩ | ⟨-, rfl⟩⟩ := step_join hstep
    all_goals
      rw [hold] at hstage
      exact ⟨t, rfl, hordered, hstage, h.done⟩
  | stop arg =>
    obtain ⟨hold, k, -, rfl⟩ := step_stop hstep
    rw [hold] at hstage
    exact ⟨_, run_cons.mpr ⟨_, if_pos hstage, rfl⟩, hordered, rfl, h.done⟩
  | worker a =>
    obtain ⟨-, workers, hworkers, rfl⟩ := step_worker hstep
    obtain ⟨t', hrun, hstage', hdone⟩ := workers_measured
      (accesscount_loopStart setup.migrate setup.infos) h.done (fun w ticks heq => by
        subst heq
        rw [hstage]
        exact h.ordered.during_of_load hworkers) hworkers
    exact ⟨t', hrun, hordered, hstage'.trans hstage, hdone⟩

theorem measures_run {m : Memory} {k : Kernel} {acts : List (FibreRunAction counts)}
    (hrun : run (step setup) (initial counts setup m k) acts = some s) :
    ∃ t, run Measured.step .initial (acts.filterMap observe) = some t ∧ Measures s t :=
  run_simulation (fun _ _ _ _ => measures_step) (measures_initial setup m k) hrun

/-! ## The counters -/

variable {p : PerfCachetest} {k : Kernel} {acts : List (FibreRunAction counts)}

/-- What the leader of the counters has counted in the iterations so far. -/
def Counted (p : PerfCachetest) (k : Kernel) (s : FibreRun counts)
    (acts : List (FibreRunAction counts)) : Prop :=
  Counts p k s.stage.stage s.workers.kernel (acts.map (ticks p.fdLeader)).sum

theorem Counted.keep (h : Counted p k s acts) {a : FibreRunAction counts}
    (hticks : ticks p.fdLeader a = 0) (hkernel : s'.workers.kernel = s.workers.kernel)
    (hstage : s'.stage.stage = s.stage.stage) : Counted p k s' (acts ++ [a]) := by
  rw [Counted, hkernel, hstage, List.map_append, List.sum_append, List.map_singleton,
    List.sum_singleton, hticks]
  exact h

/-- Every step keeps the counters right. -/
theorem counted_step {os : PerfOpens} {k₀ : Kernel} {events : List Event}
    (hperf : setup.perf = some p) (hsetup : setupPerf os k₀ events = .ok (p, k))
    {a : FibreRunAction counts} (hordered : Ordered s) (h : Counted p k s acts)
    (hstep : s.step setup a = some s') : Counted p k s' (acts ++ [a]) := by
  have hsum : ((acts ++ [a]).map (ticks p.fdLeader)).sum =
      (acts.map (ticks p.fdLeader)).sum + ticks p.fdLeader a := by
    simp
  cases a with
  | create =>
    obtain ⟨hold, rfl⟩ := step_create hstep
    exact h.keep rfl rfl (by rw [hold]; rfl)
  | fibre a =>
    obtain ⟨fibres, stage, -, hafter, rfl⟩ := step_fibre hstep
    exact h.keep rfl rfl (stage_stageAfter hafter)
  | evict =>
    obtain ⟨hold, rfl⟩ := step_evict hstep
    exact h.keep rfl rfl (by rw [hold]; rfl)
  | arm =>
    obtain ⟨hold, rfl⟩ := step_arm hstep
    exact h.keep rfl rfl (by rw [hold]; rfl)
  | start =>
    obtain ⟨hold, k', hstart, rfl⟩ := step_start hstep
    rw [hperf] at hstart
    rw [Counted, hold] at h
    rw [Counted, hsum]
    exact Counts.start hsetup h hstart
  | join =>
    obtain ⟨i, hold, ⟨hi, res, -, rfl⟩ | ⟨-, rfl⟩⟩ := step_join hstep
    all_goals exact h.keep rfl rfl (by rw [hold]; rfl)
  | stop arg =>
    obtain ⟨hold, k', hstop, rfl⟩ := step_stop hstep
    rw [hperf] at hstop
    rw [Counted, hold] at h
    rw [Counted, hsum]
    exact Counts.stop h hstop
  | worker a =>
    obtain ⟨-, workers, hworkers, rfl⟩ := step_worker hstep
    rw [Counted, hsum]
    refine Counts.worker h (fun w ticks heq => ?_) hworkers
    subst heq
    exact hordered.during_of_load hworkers

theorem counted_run {os : PerfOpens} {k₀ : Kernel} {events : List Event} {m : Memory}
    (hperf : setup.perf = some p) (hsetup : setupPerf os k₀ events = .ok (p, k))
    (hrun : run (step setup) (initial counts setup m k) acts = some s) : Counted p k s acts :=
  run_history
    (fun _ _ _ _ hrun h hstep => counted_step hperf hsetup (ordered_run hrun) h hstep)
    ⟨rfl, rfl⟩ hrun

/-- **A test with fibres measures its loops.** For any number of fibres, migrating or not, in every
interleaving of their steps with those of the main fibre and the alarm's handler: a loop loads only
when all fibres and the main fibre have arrived at the barrier and the leader of the counters is
counting. When `fibreTest` has returned, there is one start and one end of counting with all
iterations between them, every fibre has left the number of its iterations as its result, and the
counter of the leader has what it has counted in all iterations. -/
theorem fibreTest_measures {m : Memory}
    (hperf : ∀ p, setup.perf = some p →
      ∃ os k₀ events, setupPerf os k₀ events = .ok (p, k))
    (hrun : run (step setup) (initial counts setup m k) acts = some s) :
    (∀ pre post w t, acts = pre ++ .worker (.load w t) :: post →
      ∃ u, run (step setup) (initial counts setup m k) pre = some u ∧
        (∀ i, FibreTest.fibreArrivals (u.fibres.fibre i) = 1) ∧
        FibreTest.mainArrivals u.fibres.main = 1 ∧
        ∀ p, setup.perf = some p → u.workers.kernel.counting p.fdLeader = true) ∧
    (s.stage = .returned →
      ∃ works : List (Worker counts), acts.filterMap observe = .start :: works.map .work ++ [.finish] ∧
        (∀ w, ∃ res, s.workers.work w = .finished res ∧ res.accesscount = works.count w) ∧
        ∀ p, setup.perf = some p →
          s.workers.kernel.read p.fdLeader = some (acts.map (ticks p.fdLeader)).sum) := by
  constructor
  · rintro pre post w t rfl
    obtain ⟨u, hpre, hrest⟩ := run_append.mp hrun
    obtain ⟨u', hstep, -⟩ := run_cons.mp hrest
    obtain ⟨-, workers, hworkers, -⟩ := step_worker hstep
    obtain ⟨v, v', hlooping, -, -⟩ := Workers.step_load hworkers
    obtain ⟨hfibres, hmain, hstage⟩ := (ordered_run hpre).of_looping hlooping
    refine ⟨u, hpre, hfibres, hmain, fun p hp => ?_⟩
    obtain ⟨os, k₀, events, hsetup⟩ := hperf p hp
    have hcounted := counted_run hp hsetup hpre
    rw [Counted, hstage] at hcounted
    exact hcounted.counting
  · intro hreturned
    obtain ⟨t, hmeasured, hmeasures⟩ := measures_run hrun
    obtain ⟨works, hdone, hobs⟩ := recorded_run hmeasured
    rw [hmeasures.stage, hreturned] at hobs
    refine ⟨works, hobs, fun w => ?_, fun p hp => ?_⟩
    · obtain ⟨res, hres⟩ := hmeasures.ordered.finished (by simp [hreturned, FibreStage.rank]) w
      have hcount := hmeasures.done w
      rw [hres, hdone] at hcount
      exact ⟨res, hres, hcount.symm⟩
    · obtain ⟨os, k₀, events, hsetup⟩ := hperf p hp
      have hcounted := counted_run hp hsetup hrun
      rw [Counted, hreturned] at hcounted
      exact hcounted.read

/-- One migrating fibre and one event: two loads, with the handler's store between them. -/
theorem fibreTest_measures_one :
    let setup : FibreSetup := ⟨⟨[⟨0, 0, 1⟩], some ⟨3, [3]⟩, {0}⟩, true, [1]⟩
    let w : Worker fun _ : Fin 1 => 1 := ⟨0, 0⟩
    let acts : List (FibreRunAction fun _ : Fin 1 => 1) :=
      [.create, .fibre .spawn, .fibre .spawn, .worker (.prepare w), .fibre (.announce (number w)),
        .fibre .release, .evict, .arm, .fibre (.arrive (number w)), .start, .fibre .arriveMain,
        .worker (.enter w), .worker (.load w fun _ => 5), .worker .stop, .fibre .returnMain,
        .worker (.load w fun _ => 7), .worker (.leave w), .join, .join, .stop 0]
    let k : Kernel :=
      Kernel.opened ⟨fun _ => none⟩ 3 (eventAttr perfTypeRaw (rawConfig 0x3c 0)) (-1)
    ∃ s, run (step setup) (initial _ setup zeros k) acts = some s ∧
      s.workers.work w = .finished ⟨2, invalidIndex⟩ ∧ s.workers.kernel.read 3 = some 12 := by
  intro setup w acts k
  have hsetup : setupPerf PerfCachetest.fewOpens ⟨fun _ => none⟩ [⟨0x3c, 0, []⟩] =
    .ok (⟨3, [3]⟩, k) := rfl
  have hend : (run (step setup) (initial _ setup zeros k) acts).map (fun s =>
      (s.stage, s.workers.work w)) = some (.returned, .finished ⟨2, invalidIndex⟩) := by
    decide +kernel
  obtain ⟨s, hrun, hs⟩ := Option.map_eq_some_iff.mp hend
  obtain ⟨hstage, hwork⟩ := Prod.mk.inj hs
  have hticks : (acts.map (ticks 3)).sum = 12 := by simp [acts, ticks, WorkerAction.ticks]
  have hperf : ∀ p, setup.perf = some p →
      ∃ os k₀ events, setupPerf os k₀ events = .ok (p, k) := by
    intro p hp
    obtain rfl := Option.some.inj hp
    exact ⟨_, _, _, hsetup⟩
  obtain ⟨works, -, -, hread⟩ := (fibreTest_measures hperf hrun).2 hstage
  exact ⟨s, hrun, hwork, hticks ▸ hread ⟨3, [3]⟩ rfl⟩

end FibreRun

end Cachetest
