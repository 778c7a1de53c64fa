import Cachetest.Traversal
import Cachetest.WorkersEnding

/-!
# The end of a test

A test does not get stuck: as long as `threadTest` has not returned, the main thread or one of the
threads can go on (`exists_step`), unless there is no CPU whose caches are to be wiped and the
assertion of `evictCacheEntries` fails. And after the last store of the alarm's handler it does not
go on for ever: `Ending` ties every state to a number of steps that are left, of which every step
takes one.
-/

namespace Cachetest

open ByteMemory PerfEvents Runs

namespace ThreadTest

variable {n : Nat} {counts : Fin n → Nat} {setup : TestSetup} {s s' : ThreadTest counts}
  {m : Memory} {k : Kernel} {acts : List (ThreadAction counts)}

/-! ## What the main thread has done -/

/-- The main thread has spawned the threads it has been at, and before it has set the alarm no store
of the handler has been made. -/
structure Launching (setup : TestSetup) (s : ThreadTest counts) : Prop where
  spawning : ∀ i j, s.main = .spawning i j → ∀ w, Before i j w → s.launch w ≠ .unspawned
  spawned : 1 ≤ s.main.rank → ∀ w, s.launch w ≠ .unspawned
  unbroken : s.main.rank < 4 → s.workers.pending = setup.infos

theorem launching_initial (setup : TestSetup) (m : Memory) (k : Kernel) :
    Launching setup (initial counts setup m k) where
  spawning i j hmain w hw := by
    obtain ⟨rfl, rfl⟩ := MainStage.spawning.inj hmain
    exact absurd hw (not_before_zero w)
  spawned hrank := by simp [initial, MainStage.rank] at hrank
  unbroken _ := rfl

theorem update_ne_unspawned {launch : Worker counts → Launch} {p : Launch} (hp : p ≠ .unspawned)
    {w w' : Worker counts} (h : w' ≠ w → launch w' ≠ .unspawned) :
    Function.update launch w p w' ≠ .unspawned := by
  by_cases heq : w' = w
  · subst heq
    rwa [Function.update_self]
  · rw [Function.update_of_ne heq]
    exact h heq

theorem Launching.advance (h : Launching setup s) (hlow : 1 ≤ s.main.rank)
    (hle : s.main.rank ≤ s'.main.rank) (hlaunch : s'.launch = s.launch)
    (hpending : s'.workers.pending = s.workers.pending) : Launching setup s' where
  spawning i j hmain := by
    rw [hmain] at hle
    exact absurd (hlow.trans hle) (by simp [MainStage.rank])
  spawned _ w := by
    rw [hlaunch]
    exact h.spawned hlow w
  unbroken hrank := hpending.trans (h.unbroken (by omega))

theorem Launching.keep (h : Launching setup s) (hmain : s'.main = s.main)
    (hlaunch : ∀ w, s.launch w ≠ .unspawned → s'.launch w ≠ .unspawned)
    (hpending : s.main.rank < 4 → s'.workers.pending = s.workers.pending) :
    Launching setup s' where
  spawning i j hmain' w hw := hlaunch w (h.spawning i j (hmain ▸ hmain') w hw)
  spawned hrank w := hlaunch w (h.spawned (hmain ▸ hrank) w)
  unbroken hrank := by
    rw [hmain] at hrank
    exact (hpending hrank).trans (h.unbroken hrank)

theorem launching_step {a : ThreadAction counts} (h : Launching setup s)
    (hstep : s.step setup a = some s') : Launching setup s' := by
  cases a with
  | spawn =>
    obtain ⟨i, j, hmain, ⟨w, hvisit, rfl⟩ | ⟨hvisit, rfl⟩ | ⟨hvisit, rfl⟩⟩ := step_spawn hstep
    · refine ⟨fun i' j' hmain' w' hw' => ?_, fun hrank => by simp [MainStage.rank] at hrank,
        fun _ => h.unbroken (by simp [hmain, MainStage.rank])⟩
      obtain ⟨rfl, rfl⟩ := MainStage.spawning.inj hmain'
      exact update_ne_unspawned Launch.noConfusion fun heq =>
        h.spawning i j hmain w' (((before_of_worker hvisit w').mp hw').resolve_right heq)
    · refine ⟨fun i' j' hmain' w' hw' => ?_, fun hrank => by simp [MainStage.rank] at hrank,
        fun _ => h.unbroken (by simp [hmain, MainStage.rank])⟩
      obtain ⟨rfl, rfl⟩ := MainStage.spawning.inj hmain'
      exact h.spawning i j hmain w' ((before_of_rowEnd hvisit w').mp hw')
    · exact ⟨fun i' j' hmain' => (by cases hmain'),
        fun _ w => h.spawning i j hmain w (before_of_done hvisit w),
        fun _ => h.unbroken (by simp [hmain, MainStage.rank])⟩
  | announce w =>
    obtain ⟨-, -, rfl⟩ := step_announce hstep
    exact h.keep rfl (fun w' hw' => update_ne_unspawned Launch.noConfusion fun _ => hw')
      fun _ => rfl
  | release =>
    obtain ⟨hmain, -, rfl⟩ := step_release hstep
    exact h.advance (by simp [hmain, MainStage.rank]) (by simp [hmain, MainStage.rank]) rfl rfl
  | evict =>
    obtain ⟨hmain, rfl⟩ := step_evict hstep
    exact h.advance (by simp [hmain, MainStage.rank]) (by simp [hmain, MainStage.rank]) rfl rfl
  | arm =>
    obtain ⟨hmain, rfl⟩ := step_arm hstep
    exact h.advance (by simp [hmain, MainStage.rank]) (by simp [hmain, MainStage.rank]) rfl rfl
  | start =>
    obtain ⟨hmain, k, -, rfl⟩ := step_start hstep
    exact h.advance (by simp [hmain, MainStage.rank]) (by simp [hmain, MainStage.rank]) rfl rfl
  | go =>
    obtain ⟨hmain, rfl⟩ := step_go hstep
    exact h.advance (by simp [hmain, MainStage.rank]) (by simp [hmain, MainStage.rank]) rfl rfl
  | join =>
    obtain ⟨i, j, hmain, ⟨w, res, -, -, rfl⟩ | ⟨-, rfl⟩ | ⟨-, rfl⟩⟩ := step_join hstep
    all_goals
      exact h.advance (by simp [hmain, MainStage.rank]) (by simp [hmain, MainStage.rank]) rfl rfl
  | stop arg =>
    obtain ⟨hmain, k, -, rfl⟩ := step_stop hstep
    exact h.advance (by simp [hmain, MainStage.rank]) (by simp [hmain, MainStage.rank]) rfl rfl
  | worker a =>
    obtain ⟨hallowed, workers, hworkers, rfl⟩ := step_worker hstep
    refine h.keep rfl (fun _ => id) fun hrank => ?_
    cases a with
    | prepare w =>
      obtain ⟨-, rfl⟩ := Workers.step_prepare hworkers
      rfl
    | enter w =>
      obtain ⟨t, -, rfl⟩ := Workers.step_enter hworkers
      rfl
    | load w ticks =>
      obtain ⟨t, t', -, -, rfl⟩ := Workers.step_load hworkers
      rfl
    | leave w =>
      obtain ⟨t, -, -, rfl⟩ := Workers.step_leave hworkers
      rfl
    | stop =>
      have hset : 4 ≤ s.main.rank := hallowed
      omega

theorem launching_run (hrun : run (step setup) (initial counts setup m k) acts = some s) :
    Launching setup s :=
  run_invariant (fun _ _ _ _ => launching_step) (launching_initial setup m k) hrun

/-! ## No state is stuck -/

/-- A thread that has counted itself goes on when the flag is set, until it has finished. -/
theorem exists_step_released (hordered : Ordered s) {w : Worker counts}
    (hlaunch : s.launch w = .announced) (hflag : s.startExperiment = true)
    (hgoing : ∀ res, s.workers.work w ≠ .finished res) :
    ∃ a, a ≠ .worker .stop ∧ (s.step setup a).isSome := by
  have hlaunched := hordered.launched w
  rw [hlaunch] at hlaunched
  obtain ⟨a, ha, hstep⟩ := s.workers.exists_step setup.infos n (loopStart setup.infos) hlaunched
    hgoing
  have hallowed : s.Allowed a ∧ a ≠ .stop := by
    cases ha with
    | enter => exact ⟨⟨hlaunch, hflag⟩, by simp⟩
    | load | leave => exact ⟨trivial, by simp⟩
  exact ⟨.worker a, by simpa using hallowed.2, by simp [step, hallowed.1, hstep]⟩

theorem exists_step_spawned (hordered : Ordered s) {w : Worker counts}
    (hlaunch : s.launch w = .spawned) :
    ∃ a, a ≠ .worker .stop ∧ (s.step setup a).isSome := by
  have hlaunched := hordered.launched w
  rw [hlaunch] at hlaunched
  cases hwork : s.workers.work w with
  | idle =>
    have hallowed : s.Allowed (.prepare w) := hlaunch
    exact ⟨.worker (.prepare w), by simp, by simp [step, hallowed, Workers.step, hwork]⟩
  | ready t => exact ⟨.announce w, by simp, by simp [step, hlaunch, hwork]⟩
  | looping t =>
    rw [hwork] at hlaunched
    exact absurd trivial hlaunched
  | finished res =>
    rw [hwork] at hlaunched
    exact absurd trivial hlaunched

/-- As long as `threadTest` has not returned, the main thread or a thread can go on, also without
the alarm. -/
theorem exists_step (hperf : ∀ p, setup.perf = some p → 0 < p.fdLeader)
    (hordered : Ordered s) (hlaunching : Launching setup s) (hmain : s.main ≠ .returned)
    (hevict : s.main = .evicting → setup.uniqueWorkerCPUIdSet.Nonempty) :
    ∃ a, a ≠ .worker .stop ∧ (s.step setup a).isSome := by
  cases hstage : s.main with
  | spawning i j =>
    cases hvisit : visit counts i j with
    | worker w => exact ⟨.spawn, by simp, by simp [step, hstage, hvisit]⟩
    | rowEnd => exact ⟨.spawn, by simp, by simp [step, hstage, hvisit]⟩
    | done => exact ⟨.spawn, by simp, by simp [step, hstage, hvisit]⟩
  | spinning =>
    by_cases hall : ∀ w, s.launch w = .announced
    · have hnum : s.numAtBarrior = Fintype.card (Worker counts) := by
        rw [hordered.numAtBarrior, Finset.sum_congr rfl fun w _ => by rw [hall w]]
        simp [announcements]
      exact ⟨.release, by simp, by simp [step, hstage, hnum]⟩
    · obtain ⟨w, hw⟩ := not_forall.mp hall
      have hspawned := hlaunching.spawned (by simp [hstage, MainStage.rank]) w
      have hlaunch : s.launch w = .spawned := by
        cases hlaunch : s.launch w <;> simp_all
      exact exists_step_spawned hordered hlaunch
  | evicting =>
    exact ⟨.evict, by simp,
      by simp [step, hstage, evictCacheEntries_of_nonempty (hevict hstage), Except.toOption]⟩
  | arming => exact ⟨.arm, by simp, by simp [step, hstage]⟩
  | starting =>
    exact ⟨.start, by simp, by simp [step, hstage, startPerf_isSome hperf]⟩
  | releasing => exact ⟨.go, by simp, by simp [step, hstage]⟩
  | joining i j =>
    cases hvisit : visit counts i j with
    | worker w =>
      by_cases hfinished : ∃ res, s.workers.work w = .finished res
      · obtain ⟨res, hres⟩ := hfinished
        exact ⟨.join, by simp, by simp [step, hstage, hvisit, hres]⟩
      · have hrank : s.main.rank = 6 := by rw [hstage]; rfl
        exact exists_step_released hordered (hordered.gathered (by omega) w)
          (hordered.flag.mpr (by omega)) (not_exists.mp hfinished)
    | rowEnd => exact ⟨.join, by simp, by simp [step, hstage, hvisit]⟩
    | done => exact ⟨.join, by simp, by simp [step, hstage, hvisit]⟩
  | stopping =>
    exact ⟨.stop 0, by simp, by simp [step, hstage, stopPerf_isSome hperf]⟩
  | returned => exact absurd hstage hmain

/-! ## The steps that are left -/

/-- The joins the main thread has still to make, with the ends of the subpaths. -/
def joinsLeft (counts : Fin n → Nat) (i j : Nat) : Nat :=
  (Finset.univ.filter fun w : Worker counts => ¬Before i j w).card + (n - i) + 1

/-- The steps the main thread has still to make, from `perf->start()` on. -/
def stageLeft (counts : Fin n → Nat) : MainStage → Nat
  | .starting => joinsLeft counts 0 0 + 3
  | .releasing => joinsLeft counts 0 0 + 2
  | .joining i j => joinsLeft counts i j + 1
  | .stopping => 1
  | _ => 0

theorem joinsLeft_le (counts : Fin n → Nat) (i j : Nat) :
    joinsLeft counts i j ≤ Fintype.card (Worker counts) + n + 1 := by
  have hcard := Finset.card_le_univ (Finset.univ.filter fun w : Worker counts => ¬Before i j w)
  unfold joinsLeft
  omega

theorem joinsLeft_of_worker {i j : Nat} {w : Worker counts} (h : visit counts i j = .worker w) :
    joinsLeft counts i (j + 1) < joinsLeft counts i j := by
  have hcard : (Finset.univ.filter fun w : Worker counts => ¬Before i (j + 1) w).card <
      (Finset.univ.filter fun w : Worker counts => ¬Before i j w).card := by
    refine Finset.card_lt_card (Finset.ssubset_iff_of_subset ?_ |>.mpr ⟨w, ?_, ?_⟩)
    · intro w' hw'
      simp only [Finset.mem_filter, Finset.mem_univ, true_and, before_of_worker h, not_or] at hw' ⊢
      exact hw'.1
    · simp [not_before_of_worker h]
    · simp [before_of_worker h]
  unfold joinsLeft
  omega

theorem joinsLeft_of_rowEnd {i j : Nat} (h : visit counts i j = .rowEnd) :
    joinsLeft counts (i + 1) 0 < joinsLeft counts i j := by
  have hlt : i < n := by
    by_contra hge
    simp [visit, hge] at h
  simp only [joinsLeft, before_of_rowEnd h]
  omega

/-- The handler has made its last store, and `r` steps are left. -/
structure Ending (L : SubpathLayout) (m : Memory) (s : ThreadTest counts) (r : Nat) : Prop where
  ordered : Ordered s
  armed : 4 ≤ s.main.rank
  steps : ∃ left, WorkersEnding L m s.workers left ∧ stageLeft counts s.main + left ≤ r

variable {L : SubpathLayout} {r : Nat}

theorem Ending.advance (h : Ending L m s r) {main : MainStage} {flag : Bool} (k : Kernel)
    (hordered : Ordered { s with
      workers := { s.workers with kernel := k }, main := main, startExperiment := flag })
    (harmed : 4 ≤ main.rank) (hless : stageLeft counts main < stageLeft counts s.main) :
    ∃ r', Ending L m { s with
      workers := { s.workers with kernel := k }, main := main, startExperiment := flag } r' ∧
      r' + 1 ≤ r := by
  obtain ⟨left, hleft, hsum⟩ := h.steps
  exact ⟨_, ⟨hordered, harmed, left, hleft.kernel k, le_rfl⟩, by simp only; omega⟩

/-- Every step takes one of those that are left. -/
theorem ending_step {succ : Nat → Nat} (hlinked : L.Linked m succ)
    (hsucc : ∀ k < L.numSubpaths, succ k < L.numSubpaths) {a : ThreadAction counts}
    (h : Ending L m s r) (hstep : s.step setup a = some s') :
    ∃ r', Ending L m s' r' ∧ r' + 1 ≤ r := by
  have hordered := ordered_step h.ordered hstep
  have harmed := h.armed
  cases a with
  | spawn =>
    obtain ⟨i, j, hmain, -⟩ := step_spawn hstep
    simp [hmain, MainStage.rank] at harmed
  | announce w =>
    obtain ⟨hlaunch, -, -⟩ := step_announce hstep
    simp [h.ordered.gathered (by omega) w] at hlaunch
  | release =>
    obtain ⟨hmain, -, -⟩ := step_release hstep
    simp [hmain, MainStage.rank] at harmed
  | evict =>
    obtain ⟨hmain, -⟩ := step_evict hstep
    simp [hmain, MainStage.rank] at harmed
  | arm =>
    obtain ⟨hmain, -⟩ := step_arm hstep
    simp [hmain, MainStage.rank] at harmed
  | start =>
    obtain ⟨hmain, k, -, rfl⟩ := step_start hstep
    exact h.advance _ hordered (by simp [MainStage.rank]) (by simp [hmain, stageLeft])
  | go =>
    obtain ⟨hmain, rfl⟩ := step_go hstep
    exact h.advance _ hordered (by simp [MainStage.rank]) (by simp [hmain, stageLeft])
  | join =>
    obtain ⟨i, j, hmain, ⟨w, res, hvisit, -, rfl⟩ | ⟨hvisit, rfl⟩ | ⟨hvisit, rfl⟩⟩ :=
      step_join hstep
    · exact h.advance _ hordered (by simp [MainStage.rank])
        (by simp [hmain, stageLeft, joinsLeft_of_worker hvisit])
    · exact h.advance _ hordered (by simp [MainStage.rank])
        (by simp [hmain, stageLeft, joinsLeft_of_rowEnd hvisit])
    · exact h.advance _ hordered (by simp [MainStage.rank])
        (by simp [hmain, stageLeft, joinsLeft])
  | stop arg =>
    obtain ⟨hmain, k, -, rfl⟩ := step_stop hstep
    exact h.advance _ hordered (by simp [MainStage.rank]) (by simp [hmain, stageLeft])
  | worker a =>
    obtain ⟨-, workers, hworkers, rfl⟩ := step_worker hstep
    obtain ⟨left, hleft, hsum⟩ := h.steps
    obtain ⟨left', hleft', hpay⟩ := hleft.step hlinked hsucc hworkers
    exact ⟨_, ⟨hordered, harmed, left', hleft', le_rfl⟩, by simp only; omega⟩

/-! ## After the last store -/

/-- The steps that can be left after the last store. -/
def endBound (counts : Fin n → Nat) (L : SubpathLayout) : Nat :=
  n + 4 + Fintype.card (Worker counts) * (L.longest + 3)

theorem stageLeft_le (counts : Fin n → Nat) (main : MainStage) :
    stageLeft counts main ≤ Fintype.card (Worker counts) + n + 4 := by
  cases main with
  | joining i j =>
    have hle := joinsLeft_le counts i j
    simp only [stageLeft]
    omega
  | starting | releasing =>
    have hle := joinsLeft_le counts 0 0
    simp only [stageLeft]
    omega
  | spawning | spinning | evicting | arming | stopping | returned =>
    simp only [stageLeft]
    omega

theorem ending_of_done (hn : L.numSubpaths = n) (hunsplit : L.Unsplit m)
    (hinfos : setup.infos = L.infos)
    (hrun : run (step setup) (initial counts setup m k) acts = some s)
    (hdone : s.workers.pending = []) :
    Ending L (splitPointerChasingPath setup.infos m) s (endBound counts L) := by
  obtain ⟨sys, htraverses, hturn⟩ := inTurn_run hn hunsplit hinfos hrun
  have hordered := htraverses.ordered
  have harmed : 4 ≤ s.main.rank := by
    by_contra hlow
    have hpending := (launching_run hrun).unbroken (not_le.mp hlow)
    rw [hdone, hinfos] at hpending
    have hlength := congrArg List.length hpending
    have hpos := L.numSubpaths_pos
    simp [SubpathLayout.infos] at hlength
    omega
  have hprepared : ∀ w, s.workers.work w ≠ .idle := by
    intro w hidle
    have hlaunched := hordered.launched w
    rw [hordered.gathered (by omega) w] at hlaunched
    exact hlaunched hidle
  have hhere : ∀ w, (sys.thread w).index = invalidIndex ∨ (sys.thread w).index ∈ L.elements :=
    fun w => (hturn.inTurn w).index.imp_right fun hat =>
      SubpathLayout.mem_elements.mpr ⟨w.1, hn ▸ w.1.isLt, List.mem_of_getElem? hat⟩
  refine ⟨hordered, harmed, _, workersEnding_of_done htraverses.workers
    (hinfos ▸ stopsAt_infos L) hturn.words hhere hprepared hdone, ?_⟩
  have hstage := stageLeft_le counts s.main
  have hworkers : Fintype.card (Worker counts) * (L.longest + 3) =
    Fintype.card (Worker counts) * (L.longest + 2) + Fintype.card (Worker counts) := Nat.mul_succ ..
  rw [endBound, hworkers]
  omega

end ThreadTest

end Cachetest
