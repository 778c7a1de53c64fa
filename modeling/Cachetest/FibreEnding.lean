import Cachetest.FibreTraversal
import Cachetest.WorkersEnding

/-!
# The end of a test with fibres

A test with fibres needs a worker thread in every cluster and a CPU whose caches are to be wiped.
Then it can get stuck in one way only: when the main fibre has overtaken a fibre at the barrier, its
assertion on `PTHREAD_BARRIER_SERIAL_THREAD` fails. Otherwise, as long as `fibreTest` has not
returned, the main fibre or one of the fibres can go on (`exists_step`). And after the last store of
the alarm's handler every step is one of a number of steps that are left, the arrivals at the
barrier included, on the split path and, for migrating fibres, on the whole one.
-/

namespace Cachetest

open ByteMemory Circuit PerfEvents Runs

/-! ## What the main fibre has done at the barrier -/

namespace FibreTest

variable {n : Nat} {s s' : FibreTest n}

/-- The main fibre has created the fibres it has been at, when it is the last one at the barrier all
have arrived, and when a fibre is, the main fibre is not. -/
structure Created (s : FibreTest n) : Prop where
  spawning : ∀ cur, s.main = .spawning cur → ∀ i : Fin n, i < cur → s.fibre i ≠ .uncreated
  spawned : (∀ cur, s.main ≠ .spawning cur) → ∀ i, s.fibre i ≠ .uncreated
  last : result s.main = some true → n < s.arrivals
  serial : ∀ i, s.fibre i = .arrived true → n < s.arrivals ∧ result s.main ≠ some true

theorem created_initial (n : Nat) : Created (initial n) where
  spawning cur hmain i hi := by
    obtain rfl := MainPhase.spawning.inj hmain
    exact absurd hi (Nat.not_lt_zero _)
  spawned hmain := absurd rfl (hmain 0)
  last h := by cases h
  serial _ h := by cases h

theorem Created.move (h : Created s) {i : Fin n} {p : FibrePhase} (hp : p ≠ .uncreated)
    {numAtBarrior arrivals : Nat} (hle : s.arrivals ≤ arrivals)
    (hserial : p = .arrived true → n < arrivals ∧ result s.main ≠ some true) :
    Created { s with
      fibre := Function.update s.fibre i p
      numAtBarrior := numAtBarrior
      arrivals := arrivals } := by
  have hkept : ∀ j, s.fibre j ≠ .uncreated → Function.update s.fibre i p j ≠ .uncreated := by
    intro j hj
    by_cases heq : j = i
    · subst heq
      rwa [Function.update_self]
    · rwa [Function.update_of_ne heq]
  refine ⟨fun cur hmain j hj => hkept j (h.spawning cur hmain j hj),
    fun hmain j => hkept j (h.spawned hmain j), fun hlast => (h.last hlast).trans_le hle,
    fun j hj => ?_⟩
  simp only at hj
  by_cases heq : j = i
  · subst heq
    exact hserial (by rwa [Function.update_self] at hj)
  · obtain ⟨hall, hmain⟩ := h.serial j (by rwa [Function.update_of_ne heq] at hj)
    exact ⟨hall.trans_le hle, hmain⟩

theorem created_step {a : FibreAction n} (h : Created s) (hstep : s.step a = some s') :
    Created s' := by
  cases a with
  | spawn =>
    obtain ⟨cur, hmain, ⟨hcur, rfl⟩ | ⟨hcur, rfl⟩⟩ := step_spawn hstep
    · refine ⟨fun cur' hmain' i hi => ?_, fun hmain' => absurd rfl (hmain' (cur + 1)),
        fun hlast => (by cases hlast), fun i hi => ⟨(h.serial i ?_).1, by simp [result]⟩⟩
      case refine_2 =>
        simp only at hi
        by_cases heq : i = ⟨cur, hcur⟩
        · simp [heq] at hi
        · rwa [Function.update_of_ne heq] at hi
      obtain rfl := MainPhase.spawning.inj hmain'
      simp only
      by_cases heq : i = ⟨cur, hcur⟩
      · subst heq
        simp
      · rw [Function.update_of_ne heq]
        refine h.spawning cur hmain i (Nat.lt_of_le_of_ne (Nat.le_of_lt_succ hi) fun hval => ?_)
        exact heq (Fin.ext hval)
    · exact ⟨fun cur' hmain' => (by cases hmain'),
        fun _ i => h.spawning cur hmain i (i.isLt.trans_le (not_lt.mp hcur)),
        fun hlast => (by cases hlast), fun i hi => ⟨(h.serial i hi).1, by simp [result]⟩⟩
  | announce i =>
    obtain ⟨-, rfl⟩ := step_announce hstep
    exact h.move FibrePhase.noConfusion le_rfl fun hp => by cases hp
  | arrive i =>
    obtain ⟨-, rfl⟩ := step_arrive hstep
    refine h.move FibrePhase.noConfusion (Nat.le_succ _) fun hp => ?_
    -- The last one at the barrier is one only: when it is the main fibre, all are already there.
    have hserial := beq_iff_eq.mp (FibrePhase.arrived.inj hp)
    refine ⟨by omega, fun hmain => ?_⟩
    have hall := h.last hmain
    omega
  | release =>
    obtain ⟨hmain, -, rfl⟩ := step_release hstep
    exact ⟨fun cur hmain' => (by cases hmain'), fun _ => h.spawned (by simp [hmain]),
      fun hlast => (by cases hlast), fun i hi => ⟨(h.serial i hi).1, by simp [result]⟩⟩
  | arriveMain =>
    obtain ⟨hmain, rfl⟩ := step_arriveMain hstep
    have hserial : result (.arrived s.nextSerial) = some true → s.arrivals + 1 = n + 1 :=
      fun hlast => beq_iff_eq.mp (Option.some.inj hlast)
    refine ⟨fun cur hmain' => (by cases hmain'), fun _ => h.spawned (by simp [hmain]),
      fun hlast => (hserial hlast).symm.le, fun i hi => ?_⟩
    have hall := (h.serial i hi).1
    refine ⟨hall.trans_le (Nat.le_succ _), fun hlast => ?_⟩
    have := hserial hlast
    omega
  | returnMain =>
    obtain ⟨serial, hmain, rfl⟩ := step_returnMain hstep
    have hresult : result (.returned serial) = result s.main := by rw [hmain]; rfl
    exact ⟨fun cur hmain' => (by cases hmain'), fun _ => h.spawned (by simp [hmain]),
      fun hlast => h.last (hresult ▸ hlast), fun i hi => hresult ▸ h.serial i hi⟩

/-- Nobody arrives twice. -/
theorem Counted.arrivals_le (h : Counted s) : s.arrivals ≤ n + 1 := by
  have hle : ∀ i ∈ Finset.univ, fibreArrivals (s.fibre i) ≤ 1 := fun i _ =>
    (fibreArrivals_le _).trans (announcements_le _)
  have hsum : ∑ i, fibreArrivals (s.fibre i) ≤ n := by
    simpa using Finset.sum_le_card_nsmul Finset.univ (fun i => fibreArrivals (s.fibre i)) 1 hle
  have hmain : mainArrivals s.main ≤ 1 := by
    cases s.main <;> simp [mainArrivals]
  rw [h.arrivals]
  omega

end FibreTest

namespace FibreRun

variable {n : Nat} {counts : Fin n → Nat} {setup : FibreSetup} {s s' : FibreRun counts}
  {m : Memory} {k : Kernel} {acts : List (FibreRunAction counts)}

/-- Where the main fibre is at the barrier in a stage of the test. -/
def Paced : FibreStage → MainPhase → Prop
  | .creating, p => p = .spawning 0
  | .gathering, p => (∃ cur, p = .spawning cur) ∨ p = .spinning
  | .evicting, p | .arming, p | .starting, p => p = .released
  | .waiting, p => p = .released ∨ ∃ serial, p = .arrived serial
  | .joining _, p | .stopping, p | .returned, p => p = .returned true

/-- The stage fits the barrier, before the alarm is set no store of the handler has been made, and
every fibre is on the cluster of a subpath. -/
structure Launching (setup : FibreSetup) (s : FibreRun counts) : Prop where
  created : FibreTest.Created s.fibres
  paced : Paced s.stage s.fibres.main
  unbroken : s.stage.rank < 4 → s.workers.pending = setup.infos
  homed : ∀ w, clusterOf w (s.workers.work w) < n

theorem launching_initial (setup : FibreSetup) (m : Memory) (k : Kernel) :
    Launching setup (initial counts setup m k) where
  created := FibreTest.created_initial _
  paced := rfl
  unbroken _ := rfl
  homed w := w.1.isLt

theorem Launching.goto (h : Launching setup s) {stage : FibreStage} (k : Kernel)
    (hpaced : Paced stage s.fibres.main) (hrank : stage.rank < 4 → s.stage.rank < 4) :
    Launching setup { s with workers := { s.workers with kernel := k }, stage := stage } where
  created := h.created
  paced := hpaced
  unbroken hlow := h.unbroken (hrank hlow)
  homed := h.homed

theorem paced_stageAfter {a : FibreAction (∑ i, counts i)} {fibres : FibreTest (∑ i, counts i)}
    {stage : FibreStage} (h : Paced s.stage s.fibres.main) (hstep : s.fibres.step a = some fibres)
    (hstage : s.stageAfter fibres a = some stage) : Paced stage fibres.main := by
  cases a with
  | spawn =>
    obtain ⟨-, rfl⟩ : s.stage = .gathering ∧ stage = .gathering := by
      simpa using stageAfter_cases hstage
    obtain ⟨cur, -, ⟨hcur, rfl⟩ | ⟨-, rfl⟩⟩ := FibreTest.step_spawn hstep
    · exact Or.inl ⟨_, rfl⟩
    · exact Or.inr rfl
  | announce i =>
    obtain ⟨-, rfl⟩ : (∃ t, s.workers.work (ofNumber i) = .ready t) ∧ stage = s.stage := by
      simpa using stageAfter_cases hstage
    obtain ⟨-, rfl⟩ := FibreTest.step_announce hstep
    exact h
  | arrive i =>
    obtain rfl : stage = s.stage := by simpa using stageAfter_cases hstage
    obtain ⟨-, rfl⟩ := FibreTest.step_arrive hstep
    exact h
  | release =>
    obtain ⟨-, rfl⟩ : s.stage = .gathering ∧ stage = .evicting := by
      simpa using stageAfter_cases hstage
    obtain ⟨-, -, rfl⟩ := FibreTest.step_release hstep
    rfl
  | arriveMain =>
    obtain ⟨-, rfl⟩ : s.stage = .waiting ∧ stage = .waiting := by
      simpa using stageAfter_cases hstage
    obtain ⟨-, rfl⟩ := FibreTest.step_arriveMain hstep
    exact Or.inr ⟨_, rfl⟩
  | returnMain =>
    simp only [stageAfter, Option.ite_none_right_eq_some, Option.some.injEq] at hstage
    obtain ⟨⟨-, hmain⟩, rfl⟩ := hstage
    exact hmain

theorem cluster_loopStart (migrate : Bool) (infos : List SubpathInfo) (m : Memory)
    (w : Worker counts) : cluster w (loopStart migrate infos m w) = w.1 := by
  cases migrate <;> rfl

/-- `fibre_migrate` is called with the number of a subpath. -/
theorem cluster_iteration {infos : List SubpathInfo} {w : Worker counts} {t t' : Thread}
    (h : cluster w t < n) (hiteration : t.iteration infos n m = some t') : cluster w t' < n := by
  cases t with
  | loop v =>
    obtain ⟨v', -, rfl⟩ := Option.map_eq_some_iff.mp hiteration
    exact w.1.isLt
  | migratingLoop v c =>
    obtain ⟨⟨v', migrateTo⟩, hv, rfl⟩ := Option.map_eq_some_iff.mp hiteration
    obtain ⟨-, -, ⟨-, -, -, rfl⟩ | ⟨-, hsubpath, -, rfl⟩⟩ := migratingLoopIteration_cases hv
    · exact h
    · change v'.subpathIdx < n
      rw [hsubpath]
      split
      case isTrue => exact w.1.pos
      case isFalse hinside => exact not_le.mp hinside

theorem clusterOf_lt_step (h : ∀ w, clusterOf w (s.workers.work w) < n)
    {a : WorkerAction (Worker counts)} {workers : Workers (Worker counts)}
    (hstep : s.workers.step setup.infos n (loopStart setup.migrate setup.infos) a = some workers)
    (w : Worker counts) : clusterOf w (workers.work w) < n := by
  have hmove : ∀ w' work, clusterOf w' work < n →
      clusterOf w ((s.workers.update w' work).work w) < n := by
    intro w' work hwork
    by_cases heq : w = w'
    · subst heq
      rwa [Workers.work_update_self]
    · rw [Workers.work_update_of_ne heq]
      exact h w
  cases a with
  | prepare w' =>
    obtain ⟨-, rfl⟩ := Workers.step_prepare hstep
    exact hmove _ _ ((cluster_loopStart ..).trans_lt w'.1.isLt)
  | enter w' =>
    obtain ⟨t, hready, rfl⟩ := Workers.step_enter hstep
    have hcluster := h w'
    rw [hready] at hcluster
    exact hmove _ _ hcluster
  | load w' ticks =>
    obtain ⟨t, t', hlooping, hiteration, rfl⟩ := Workers.step_load hstep
    have hcluster := h w'
    rw [hlooping] at hcluster
    exact hmove _ _ (cluster_iteration hcluster hiteration)
  | leave w' =>
    obtain ⟨t, -, -, rfl⟩ := Workers.step_leave hstep
    exact hmove _ _ w'.1.isLt
  | stop =>
    obtain ⟨info, rest, -, rfl⟩ := Workers.step_stop hstep
    exact h w

theorem launching_step {a : FibreRunAction counts} (h : Launching setup s)
    (hstep : s.step setup a = some s') : Launching setup s' := by
  have hpaced := h.paced
  cases a with
  | create =>
    obtain ⟨hstage, rfl⟩ := step_create hstep
    rw [hstage] at hpaced
    exact h.goto s.workers.kernel (Or.inl ⟨0, hpaced⟩) fun _ => by simp [hstage, FibreStage.rank]
  | fibre a =>
    obtain ⟨fibres, stage, hfibres, hstage, rfl⟩ := step_fibre hstep
    refine ⟨FibreTest.created_step h.created hfibres, paced_stageAfter h.paced hfibres hstage,
      fun hrank => h.unbroken ?_, h.homed⟩
    simp only at hrank
    obtain ⟨-, hold, rfl⟩ | ⟨i, t, -, -, rfl⟩ | ⟨i, -, rfl⟩ | ⟨-, hold, rfl⟩ | ⟨-, hold, rfl⟩ |
      ⟨-, hold, rfl⟩ := stageAfter_cases hstage
    case inr.inl | inr.inr.inl => exact hrank
    all_goals simp [FibreStage.rank] at hrank
    all_goals simp [hold, FibreStage.rank]
  | evict =>
    obtain ⟨hstage, rfl⟩ := step_evict hstep
    rw [hstage] at hpaced
    exact h.goto s.workers.kernel hpaced fun _ => by simp [hstage, FibreStage.rank]
  | arm =>
    obtain ⟨hstage, rfl⟩ := step_arm hstep
    rw [hstage] at hpaced
    exact h.goto s.workers.kernel hpaced fun _ => by simp [hstage, FibreStage.rank]
  | start =>
    obtain ⟨hstage, k, -, rfl⟩ := step_start hstep
    rw [hstage] at hpaced
    exact h.goto k (Or.inl hpaced) fun hrank => by simp [FibreStage.rank] at hrank
  | join =>
    obtain ⟨i, hstage, ⟨hi, res, -, rfl⟩ | ⟨-, rfl⟩⟩ := step_join hstep
    all_goals
      rw [hstage] at hpaced
      exact h.goto s.workers.kernel hpaced fun hrank => by simp [FibreStage.rank] at hrank
  | stop arg =>
    obtain ⟨hstage, k, -, rfl⟩ := step_stop hstep
    rw [hstage] at hpaced
    exact h.goto k hpaced fun hrank => by simp [FibreStage.rank] at hrank
  | worker a =>
    obtain ⟨hallowed, workers, hworkers, rfl⟩ := step_worker hstep
    refine ⟨h.created, h.paced, fun hrank => ?_, clusterOf_lt_step h.homed hworkers⟩
    have hpending := h.unbroken hrank
    cases a with
    | prepare w =>
      obtain ⟨-, rfl⟩ := Workers.step_prepare hworkers
      exact hpending
    | enter w =>
      obtain ⟨t, -, rfl⟩ := Workers.step_enter hworkers
      exact hpending
    | load w ticks =>
      obtain ⟨t, t', -, -, rfl⟩ := Workers.step_load hworkers
      exact hpending
    | leave w =>
      obtain ⟨t, -, -, rfl⟩ := Workers.step_leave hworkers
      exact hpending
    | stop =>
      have hset : 4 ≤ s.stage.rank := hallowed
      exact absurd hrank (not_lt.mpr hset)

theorem launching_run (hrun : run (step setup) (initial counts setup m k) acts = some s) :
    Launching setup s :=
  run_invariant (fun _ _ _ _ => launching_step) (launching_initial setup m k) hrun

/-! ## Only the assertion is in the way -/

theorem Launching.served (h : Launching setup s)
    (hserved : ∀ i < n, 0 < setup.subpathThreadCounts.getD i 0) (w : Worker counts) :
    s.Served setup w :=
  hserved _ (h.homed w)

/-- When the main fibre was the last one at the barrier, all fibres get zero from it. -/
theorem Launching.arrived (h : Launching setup s) (hordered : Ordered s)
    (hmain : s.fibres.main = .returned true) (i : Fin (∑ i, counts i)) :
    s.fibres.fibre i = .arrived false ∧ s.fibres.arrivals = (∑ i, counts i) + 1 := by
  have hlast : FibreTest.result s.fibres.main = some true := by rw [hmain]; rfl
  have hall := h.created.last hlast
  have hone := (hordered.counted.all_arrived hall).1 i
  refine ⟨?_, le_antisymm hordered.counted.arrivals_le hall⟩
  cases hphase : s.fibres.fibre i with
  | arrived serial =>
    cases serial with
    | false => rfl
    | true => exact absurd hlast (h.created.serial i hphase).2
  | uncreated | running | announced => simp [hphase, FibreTest.fibreArrivals] at hone

theorem exists_step_running (hordered : Ordered s) {i : Fin (∑ i, counts i)}
    (hrunning : s.fibres.fibre i = .running) (hserved : s.Served setup (ofNumber i)) :
    ∃ a, a ≠ .worker .stop ∧ (s.step setup a).isSome := by
  have hlaunched := hordered.launched (ofNumber i)
  rw [number_ofNumber, hrunning] at hlaunched
  cases hwork : s.workers.work (ofNumber i) with
  | idle =>
    have hallowed : s.Allowed setup (.prepare (ofNumber i)) := by
      rw [Allowed, number_ofNumber]
      exact ⟨hrunning, hserved⟩
    exact ⟨.worker (.prepare (ofNumber i)), by simp,
      by simp [step, hallowed, Workers.step, hwork]⟩
  | ready t =>
    exact ⟨.fibre (.announce i), by simp,
      by simp [step, FibreTest.step, hrunning, stageAfter, hwork]⟩
  | looping t =>
    rw [hwork] at hlaunched
    exact absurd trivial hlaunched
  | finished res =>
    rw [hwork] at hlaunched
    exact absurd trivial hlaunched

theorem exists_step_arrived (hordered : Ordered s) (hrank : 4 ≤ s.stage.rank) {w : Worker counts}
    (harrived : s.fibres.fibre (number w) = .arrived false ∧
      s.fibres.arrivals = (∑ i, counts i) + 1)
    (hserved : s.Served setup w)
    (hgoing : ∀ res, s.workers.work w ≠ .finished res) :
    ∃ a, a ≠ .worker .stop ∧ (s.step setup a).isSome := by
  obtain ⟨a, ha, hstep⟩ := s.workers.exists_step setup.infos n
    (loopStart setup.migrate setup.infos) (hordered.ne_idle hrank w) hgoing
  have hallowed : s.Allowed setup a ∧ a ≠ .stop := by
    cases ha with
    | enter => exact ⟨⟨harrived.1, harrived.2, hserved⟩, by simp⟩
    | load | leave => exact ⟨hserved, by simp⟩
  exact ⟨.worker a, by simpa using hallowed.2, by simp [step, hallowed.1, hstep]⟩

/-- As long as `fibreTest` has not returned and the main fibre has not overtaken a fibre at the
barrier, the main fibre or a fibre can go on, also without the alarm. -/
theorem exists_step (hcount : n ≤ maxNumSubpaths)
    (hperf : ∀ p, setup.perf = some p → 0 < p.fdLeader)
    (hserved : ∀ i < n, 0 < setup.subpathThreadCounts.getD i 0)
    (hevict : setup.uniqueWorkerCPUIdSet.Nonempty) (hordered : Ordered s)
    (hlaunching : Launching setup s) (hreturned : s.stage ≠ .returned)
    (hserial : s.fibres.main ≠ .arrived false) :
    ∃ a, a ≠ .worker .stop ∧ (s.step setup a).isSome := by
  have hpaced := hlaunching.paced
  cases hstage : s.stage with
  | creating => exact ⟨.create, by simp, by simp [step, hstage, hcount]⟩
  | gathering =>
    rw [hstage] at hpaced
    rcases hpaced with ⟨cur, hmain⟩ | hmain
    · refine ⟨.fibre .spawn, by simp, ?_⟩
      by_cases hcur : cur < ∑ i, counts i
      · simp [step, FibreTest.step, hmain, hcur, stageAfter, hstage]
      · simp [step, FibreTest.step, hmain, hcur, stageAfter, hstage]
    · by_cases hall : ∀ i, FibreTest.announcements (s.fibres.fibre i) = 1
      · have hnum : s.fibres.numAtBarrior = ∑ i, counts i := by
          rw [hordered.counted.numAtBarrior, Finset.sum_congr rfl fun i _ => hall i]
          simp
        exact ⟨.fibre .release, by simp,
          by simp [step, FibreTest.step, hmain, hnum, stageAfter, hstage]⟩
      · obtain ⟨i, hi⟩ := not_forall.mp hall
        have hcreated := hlaunching.created.spawned (by simp [hmain]) i
        have hrunning : s.fibres.fibre i = .running := by
          cases hphase : s.fibres.fibre i <;> simp_all [FibreTest.announcements]
        exact exists_step_running hordered hrunning (hlaunching.served hserved _)
  | evicting =>
    exact ⟨.evict, by simp,
      by simp [step, hstage, evictCacheEntries_of_nonempty hevict, Except.toOption]⟩
  | arming => exact ⟨.arm, by simp, by simp [step, hstage]⟩
  | starting => exact ⟨.start, by simp, by simp [step, hstage, startPerf_isSome hperf]⟩
  | waiting =>
    rw [hstage] at hpaced
    rcases hpaced with hmain | ⟨serial, hmain⟩
    · exact ⟨.fibre .arriveMain, by simp,
        by simp [step, FibreTest.step, hmain, stageAfter, hstage]⟩
    · cases serial with
      | false => exact absurd hmain hserial
      | true =>
        have hlast := hlaunching.created.last (by rw [hmain]; rfl)
        have hall : s.fibres.arrivals = (∑ i, counts i) + 1 :=
          le_antisymm hordered.counted.arrivals_le hlast
        exact ⟨.fibre .returnMain, by simp,
          by simp [step, FibreTest.step, hmain, hall, stageAfter, hstage]⟩
  | joining i =>
    rw [hstage] at hpaced
    have hmain : s.fibres.main = .returned true := hpaced
    by_cases hi : i < ∑ i, counts i
    · by_cases hfinished : ∃ res, s.workers.work (ofNumber ⟨i, hi⟩) = .finished res
      · obtain ⟨res, hres⟩ := hfinished
        exact ⟨.join, by simp, by simp [step, hstage, hi, hres]⟩
      · exact exists_step_arrived hordered (by simp [hstage, FibreStage.rank])
          (hlaunching.arrived hordered hmain _) (hlaunching.served hserved _)
          (not_exists.mp hfinished)
    · exact ⟨.join, by simp, by simp [step, hstage, hi]⟩
  | stopping => exact ⟨.stop 0, by simp, by simp [step, hstage, stopPerf_isSome hperf]⟩
  | returned => exact absurd hstage hreturned

/-! ## The steps that are left -/

/-- The fibres that have still to arrive. -/
def arrivalsLeft {n : Nat} (s : FibreTest n) : Nat :=
  ∑ i, (1 - FibreTest.fibreArrivals (s.fibre i))

theorem arrivalsLeft_le {n : Nat} (s : FibreTest n) : arrivalsLeft s ≤ n := by
  simpa [arrivalsLeft] using Finset.sum_le_card_nsmul Finset.univ
    (fun i => 1 - FibreTest.fibreArrivals (s.fibre i)) 1 fun i _ => Nat.sub_le 1 _

/-- The steps the main fibre has still to make, from `perf->start()` on, with `total` fibres. -/
def stageLeft (total : Nat) : FibreStage → MainPhase → Nat
  | .starting, _ => total + 5
  | .waiting, .released => total + 4
  | .waiting, _ => total + 3
  | .joining i, _ => total - i + 2
  | .stopping, _ => 1
  | _, _ => 0

theorem stageLeft_le (total : Nat) (stage : FibreStage) (main : MainPhase) :
    stageLeft total stage main ≤ total + 5 := by
  unfold stageLeft
  split <;> omega

/-- The handler has made its last store, and `r` steps are left. -/
structure Ending (L : SubpathLayout) (m : Memory) (s : FibreRun counts) (r : Nat) : Prop where
  ordered : Ordered s
  armed : 4 ≤ s.stage.rank
  steps : ∃ left, WorkersEnding L m s.workers left ∧
    stageLeft (∑ i, counts i) s.stage s.fibres.main + arrivalsLeft s.fibres + left ≤ r

variable {L : SubpathLayout} {r : Nat}

theorem Ending.advance (h : Ending L m s r) {fibres : FibreTest (∑ i, counts i)}
    {stage : FibreStage} (k : Kernel)
    (hordered : Ordered { s with
      workers := { s.workers with kernel := k }, fibres := fibres, stage := stage })
    (harmed : 4 ≤ stage.rank)
    (hless : stageLeft (∑ i, counts i) stage fibres.main + arrivalsLeft fibres <
      stageLeft (∑ i, counts i) s.stage s.fibres.main + arrivalsLeft s.fibres) :
    ∃ r', Ending L m { s with
      workers := { s.workers with kernel := k }, fibres := fibres, stage := stage } r' ∧
      r' + 1 ≤ r := by
  obtain ⟨left, hleft, hsum⟩ := h.steps
  exact ⟨_, ⟨hordered, harmed, left, hleft.kernel k, le_rfl⟩, by simp only; omega⟩

/-- A step of the barrier lowers the number of steps that are left. -/
theorem Ending.barrier (h : Ending L m s r) {a : FibreAction (∑ i, counts i)}
    {fibres : FibreTest (∑ i, counts i)} {stage : FibreStage}
    (hstep : s.fibres.step a = some fibres) (hstage : s.stageAfter fibres a = some stage) :
    ∃ r', Ending L m { s with fibres := fibres, stage := stage } r' ∧ r' + 1 ≤ r := by
  have hordered := h.ordered.barrier hstep hstage
  have harmed := h.armed
  obtain ⟨rfl, hold, rfl⟩ | ⟨i, t, rfl, -, rfl⟩ | ⟨i, rfl, rfl⟩ | ⟨rfl, hold, rfl⟩ |
    ⟨rfl, hold, rfl⟩ | ⟨rfl, hold, rfl⟩ := stageAfter_cases hstage
  · simp [hold, FibreStage.rank] at harmed
  · obtain ⟨hrunning, -⟩ := FibreTest.step_announce hstep
    have hone := h.ordered.gathered (by omega) i
    simp [hrunning, FibreTest.announcements] at hone
  · obtain ⟨hphase, rfl⟩ := FibreTest.step_arrive hstep
    have hsum := sum_comp_update (fun p => 1 - FibreTest.fibreArrivals p) s.fibres.fibre i
      (.arrived s.fibres.nextSerial)
    have hbefore : FibreTest.fibreArrivals (s.fibres.fibre i) = 0 := by rw [hphase]; rfl
    have hafter : FibreTest.fibreArrivals (.arrived s.fibres.nextSerial) = 1 := rfl
    rw [hbefore, hafter] at hsum
    refine h.advance s.workers.kernel hordered harmed ?_
    simp only [arrivalsLeft]
    omega
  · simp [hold, FibreStage.rank] at harmed
  · obtain ⟨hmain, rfl⟩ := FibreTest.step_arriveMain hstep
    exact h.advance s.workers.kernel hordered (by decide)
      (by simp [hold, hmain, stageLeft, arrivalsLeft])
  · obtain ⟨serial, hmain, rfl⟩ := FibreTest.step_returnMain hstep
    exact h.advance s.workers.kernel hordered (by decide)
      (by simp [hold, hmain, stageLeft, arrivalsLeft])

/-- Every step takes one of those that are left. -/
theorem ending_step {succ : Nat → Nat} (hlinked : L.Linked m succ)
    (hsucc : ∀ k < L.numSubpaths, succ k < L.numSubpaths) {a : FibreRunAction counts}
    (h : Ending L m s r) (hstep : s.step setup a = some s') :
    ∃ r', Ending L m s' r' ∧ r' + 1 ≤ r := by
  have hordered := ordered_step h.ordered hstep
  have harmed := h.armed
  cases a with
  | create =>
    obtain ⟨hstage, -⟩ := step_create hstep
    simp [hstage, FibreStage.rank] at harmed
  | fibre a =>
    obtain ⟨fibres, stage, hfibres, hstage, rfl⟩ := step_fibre hstep
    exact h.barrier hfibres hstage
  | evict =>
    obtain ⟨hstage, -⟩ := step_evict hstep
    simp [hstage, FibreStage.rank] at harmed
  | arm =>
    obtain ⟨hstage, -⟩ := step_arm hstep
    simp [hstage, FibreStage.rank] at harmed
  | start =>
    obtain ⟨hstage, k, -, rfl⟩ := step_start hstep
    refine h.advance k hordered (by decide) ?_
    cases hmain : s.fibres.main <;> simp [hstage, stageLeft]
  | join =>
    obtain ⟨i, hstage, ⟨hi, res, -, rfl⟩ | ⟨hi, rfl⟩⟩ := step_join hstep
    · refine h.advance s.workers.kernel hordered (by simp [FibreStage.rank]) ?_
      simp only [hstage, stageLeft]
      omega
    · refine h.advance s.workers.kernel hordered (by decide) ?_
      simp [hstage, stageLeft]
  | stop arg =>
    obtain ⟨hstage, k, -, rfl⟩ := step_stop hstep
    exact h.advance k hordered (by decide) (by simp [hstage, stageLeft])
  | worker a =>
    obtain ⟨-, workers, hworkers, rfl⟩ := step_worker hstep
    obtain ⟨left, hleft, hsum⟩ := h.steps
    obtain ⟨left', hleft', hpay⟩ := hleft.step hlinked hsucc hworkers
    exact ⟨_, ⟨hordered, harmed, left', hleft', le_rfl⟩, by simp only; omega⟩

/-! ## After the last store -/

theorem linked_startMemory (hunsplit : L.Unsplit m) (hinfos : setup.infos = L.infos) :
    ∃ succ, L.Linked (startMemory setup m) succ ∧
      ∀ k < L.numSubpaths, succ k < L.numSubpaths := by
  rw [startMemory, hinfos]
  cases setup.migrate with
  | true => exact ⟨L.nextSubpath, hunsplit, fun k _ => SubpathLayout.nextSubpath_lt k⟩
  | false => exact ⟨id, split_of_unsplit hunsplit, fun _ hk => hk⟩

/-- The fibres are on elements of the path, of which the handler has changed nothing but starts. -/
theorem elements_run (hn : L.numSubpaths = n) (hunsplit : L.Unsplit m)
    (hinfos : setup.infos = L.infos)
    (hrun : run (step setup) (initial counts setup m k) acts = some s) :
    ∃ sys, Traverses setup (startMemory setup m) s sys ∧
      WordsOf L (startMemory setup m) L.infos sys ∧
      ∀ w, (sys.thread w).index = invalidIndex ∨ (sys.thread w).index ∈ L.elements := by
  subst hn
  obtain ⟨sys, hsys, htraverses⟩ := traverses_run hrun
  refine ⟨sys, htraverses, ?_⟩
  rw [startMemory, hinfos] at hsys ⊢
  cases hmigrate : setup.migrate with
  | true =>
    rw [hmigrate] at hsys
    have hroaming := allRoaming_run hunsplit hsys
    refine ⟨hroaming.words, fun w => ?_⟩
    by_cases hleft : (sys.thread w).index = invalidIndex
    · exact Or.inl hleft
    · obtain ⟨q, v, hv, hunderway⟩ := (hroaming.roams w).underway hleft
      rw [hv]
      exact Or.inr (SubpathLayout.mem_elements.mpr
        ⟨_, hunderway.subpath, List.mem_of_getElem? hunderway.element⟩)
  | false =>
    rw [hmigrate] at hsys
    have hturn := allInTurn_run hunsplit hsys
    exact ⟨hturn.words, fun w => (hturn.inTurn w).index.imp_right fun hat =>
      SubpathLayout.mem_elements.mpr ⟨w.1, w.1.isLt, List.mem_of_getElem? hat⟩⟩

/-- The steps that can be left after the last store. -/
def endBound (counts : Fin n → Nat) (L : SubpathLayout) : Nat :=
  5 + (∑ i, counts i) * (L.longest + 4)

theorem ending_of_done (hn : L.numSubpaths = n) (hunsplit : L.Unsplit m)
    (hinfos : setup.infos = L.infos)
    (hrun : run (step setup) (initial counts setup m k) acts = some s)
    (hdone : s.workers.pending = []) :
    Ending L (startMemory setup m) s (endBound counts L) := by
  obtain ⟨sys, htraverses, hwords, hhere⟩ := elements_run hn hunsplit hinfos hrun
  have harmed : 4 ≤ s.stage.rank := by
    by_contra hlow
    have hpending := (launching_run hrun).unbroken (not_le.mp hlow)
    rw [hdone, hinfos] at hpending
    have hlength := congrArg List.length hpending
    have hpos := L.numSubpaths_pos
    simp [SubpathLayout.infos] at hlength
    omega
  refine ⟨htraverses.ordered, harmed, _, workersEnding_of_done htraverses.workers
    (stopsAt_infos L) hwords hhere (htraverses.ordered.ne_idle harmed) hdone, ?_⟩
  have hstage := stageLeft_le (∑ i, counts i) s.stage s.fibres.main
  have harrivals := arrivalsLeft_le s.fibres
  have hcard : Fintype.card (Worker counts) = ∑ i, counts i := by simp
  rw [endBound, hcard, Nat.mul_add, Nat.mul_add]
  omega

end FibreRun

end Cachetest
