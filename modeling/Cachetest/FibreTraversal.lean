import Cachetest.FibreRun
import Cachetest.Roaming
import Cachetest.Traversal

/-!
# What the fibres of a test load

A fibre that does not migrate stays on the cluster of its subpath and traverses that subpath, as a
thread does. A migrating fibre follows the whole path and passes the cluster of every subpath it
enters to `fibre_migrate`, so that it ends with whole subpaths and one load
(`migrating_fibres_in_turn`). Either way a fibre only loads what belongs to the cluster it is on
(`fibres_at_home`), and this does not depend on when the handler breaks the path.
-/

namespace Cachetest

open ByteMemory Circuit PerfEvents Runs

namespace FibreRun

/-! ## The fibres of a test as the threads of a system -/

section Traverses

variable {n : Nat} {counts : Fin n → Nat} {setup : FibreSetup} {s s' : FibreRun counts}
  {m : Memory} {sys : System (Worker counts)}

/-- What the threads of a `System` see of an action. -/
def threadAction : FibreRunAction counts → Option (Action (Worker counts))
  | .worker a => a.threadAction
  | _ => none

/-- The fibres of the test are the threads of `sys`, started in the memory `m`. -/
structure Traverses (setup : FibreSetup) (m : Memory) (s : FibreRun counts)
    (sys : System (Worker counts)) : Prop where
  ordered : Ordered s
  workers : WorkersOf (loopStart setup.migrate setup.infos) m s.workers sys

theorem Traverses.keep (h : Traverses setup m s sys) (hordered : Ordered s')
    (hmem : s'.workers.mem = s.workers.mem) (hpending : s'.workers.pending = s.workers.pending)
    (hwork : s'.workers.work = s.workers.work) : Traverses setup m s' sys :=
  ⟨hordered, h.workers.congr hmem hpending hwork⟩

/-- When the alarm has been set, all fibres have looked up their start. -/
theorem Ordered.ne_idle (h : Ordered s) (hrank : 4 ≤ s.stage.rank) (w : Worker counts) :
    s.workers.work w ≠ .idle := by
  have hone := h.gathered (by omega) (number w)
  have hlaunched := h.launched w
  cases hphase : s.fibres.fibre (number w) with
  | uncreated | running => simp [hphase, FibreTest.announcements] at hone
  | announced | arrived serial =>
    rw [hphase] at hlaunched
    exact hlaunched

theorem traverses_step {a : FibreRunAction counts} (h : Traverses setup m s sys)
    (hstep : s.step setup a = some s') :
    ∃ sys', run (System.step false setup.infos n) sys (threadAction a).toList = some sys' ∧
      Traverses setup m s' sys' := by
  have hordered := ordered_step h.ordered hstep
  cases a with
  | create =>
    obtain ⟨-, rfl⟩ := step_create hstep
    exact ⟨sys, rfl, h.keep hordered rfl rfl rfl⟩
  | fibre a =>
    obtain ⟨fibres, stage, -, -, rfl⟩ := step_fibre hstep
    exact ⟨sys, rfl, h.keep hordered rfl rfl rfl⟩
  | evict =>
    obtain ⟨-, rfl⟩ := step_evict hstep
    exact ⟨sys, rfl, h.keep hordered rfl rfl rfl⟩
  | arm =>
    obtain ⟨-, rfl⟩ := step_arm hstep
    exact ⟨sys, rfl, h.keep hordered rfl rfl rfl⟩
  | start =>
    obtain ⟨-, k, -, rfl⟩ := step_start hstep
    exact ⟨sys, rfl, h.keep hordered rfl rfl rfl⟩
  | join =>
    obtain ⟨i, -, ⟨hi, res, -, rfl⟩ | ⟨-, rfl⟩⟩ := step_join hstep
    all_goals exact ⟨sys, rfl, h.keep hordered rfl rfl rfl⟩
  | stop arg =>
    obtain ⟨-, k, -, rfl⟩ := step_stop hstep
    exact ⟨sys, rfl, h.keep hordered rfl rfl rfl⟩
  | worker a =>
    obtain ⟨hallowed, workers, hworkers, rfl⟩ := step_worker hstep
    have hstop : a = .stop → ∀ w, s.workers.work w ≠ .idle := by
      rintro rfl
      exact h.ordered.ne_idle hallowed
    obtain ⟨sys', hrun, hworkers'⟩ := h.workers.step hstop hworkers
    exact ⟨sys', hrun, hordered, hworkers'⟩

/-- The fibres of every test are the threads of a system. -/
theorem traverses_run {k : Kernel} {acts : List (FibreRunAction counts)}
    (hrun : run (step setup) (initial counts setup m k) acts = some s) :
    ∃ sys, run (System.step false setup.infos n)
        (.initial (startMemory setup m) setup.infos
          (loopStart setup.migrate setup.infos (startMemory setup m)))
        (acts.filterMap threadAction) = some sys ∧
      Traverses setup (startMemory setup m) s sys :=
  run_simulation (fun _ _ _ _ => traverses_step)
    ⟨ordered_initial setup m k, workersOf_initial ..⟩ hrun

end Traverses

/-! ## Where a fibre is at home -/

variable {n : Nat} {L : SubpathLayout} {counts : Fin n → Nat} {setup : FibreSetup}
  {s : FibreRun counts} {m : Memory} {k : Kernel} {acts : List (FibreRunAction counts)}

/-- All fibres roam the path `m`, each from its own subpath on. -/
structure AllRoaming {counts : Fin L.numSubpaths → Nat} (m : Memory)
    (sys : System (Worker counts)) : Prop where
  words : WordsOf L m L.infos sys
  storing : ∀ w, sys.storing w = none
  roams : ∀ w, Roams L w.1 (sys.thread w)

theorem allRoaming_step {counts : Fin L.numSubpaths → Nat} (hunsplit : L.Unsplit m)
    {sys sys' : System (Worker counts)} {a : Action (Worker counts)} (h : AllRoaming m sys)
    (hstep : sys.step false L.infos L.numSubpaths a = some sys') : AllRoaming m sys' := by
  obtain ⟨hwords, hstoring, hroams⟩ := ThreadTest.threads_step (P := fun w => Roams L w.1)
    (stopsAt_infos L) (fun _ _ _ _ hroams hmem hrun => hroams.iteration hunsplit hmem hrun)
    h.words h.storing h.roams hstep
  exact ⟨hwords, hstoring, hroams⟩

theorem roams_loopStart {counts : Fin L.numSubpaths → Nat} (hunsplit : L.Unsplit m)
    (w : Worker counts) : Roams L w.1 (loopStart true L.infos m w) := by
  rw [loopStart, if_pos rfl, stepsOffset_eq_zero, workerStart_eq,
    ThreadTest.subpathInfoAt_infos w.1.isLt]
  exact roams_start hunsplit w.1.isLt

theorem loop_step {infos : List SubpathInfo} {numSubpaths : Nat} {sys sys' : System (Worker counts)}
    {a : Action (Worker counts)} (h : ∀ w, ∃ v, sys.thread w = .loop v)
    (hstep : sys.step false infos numSubpaths a = some sys') :
    ∀ w, ∃ v, sys'.thread w = .loop v := by
  cases a with
  | store w =>
    obtain ⟨index, -, rfl⟩ := System.step_store hstep
    exact h
  | stop =>
    obtain ⟨info, rest, -, rfl⟩ := System.step_stop hstep
    exact h
  | load w =>
    obtain ⟨-, t, ht, rfl⟩ := System.step_load hstep
    intro w'
    by_cases heq : w' = w
    · subst heq
      obtain ⟨v, hv⟩ := h w'
      rw [hv] at ht
      obtain ⟨v', -, rfl⟩ := Option.map_eq_some_iff.mp ht
      exact ⟨v', Function.update_self ..⟩
    · simpa only [Function.update_of_ne heq] using h w'

section Runs

variable {counts : Fin L.numSubpaths → Nat} {sys : System (Worker counts)}
  {acts : List (Action (Worker counts))}

theorem allRoaming_run (hunsplit : L.Unsplit m)
    (hrun : run (System.step false L.infos L.numSubpaths)
      (.initial m L.infos (loopStart true L.infos m)) acts = some sys) : AllRoaming m sys :=
  run_invariant (fun _ _ _ _ => allRoaming_step hunsplit)
    ⟨⟨[], rfl, fun a _ => by simp [System.initial]⟩, fun _ => rfl, roams_loopStart hunsplit⟩ hrun

theorem allInTurn_run (hunsplit : L.Unsplit m)
    (hrun : run (System.step false L.infos L.numSubpaths)
      (.initial (splitPointerChasingPath L.infos m) L.infos
        (loopStart false L.infos (splitPointerChasingPath L.infos m))) acts = some sys) :
    ThreadTest.AllInTurn L (splitPointerChasingPath L.infos m) L.infos sys :=
  run_invariant (fun _ _ _ _ =>
      ThreadTest.allInTurn_step rfl (split_of_unsplit hunsplit) (stopsAt_infos L))
    (ThreadTest.allInTurn_initial rfl (fun _ => rfl) fun w => by
      rw [loopStart, workerStart_eq, ThreadTest.subpathInfoAt_infos w.1.isLt]
      rfl) hrun

end Runs

theorem inTurn_run (hn : L.numSubpaths = n) (hunsplit : L.Unsplit m)
    (hinfos : setup.infos = L.infos) (hmigrate : setup.migrate = false)
    (hrun : run (step setup) (initial counts setup m k) acts = some s) :
    ∃ sys, Traverses setup (startMemory setup m) s sys ∧
      ThreadTest.AllInTurn L (splitPointerChasingPath L.infos m) L.infos sys := by
  subst hn
  obtain ⟨sys, hsys, htraverses⟩ := traverses_run hrun
  refine ⟨sys, htraverses, ?_⟩
  rw [startMemory, hinfos, hmigrate] at hsys
  exact allInTurn_run hunsplit hsys

theorem roams_run (hn : L.numSubpaths = n) (hunsplit : L.Unsplit m) (hinfos : setup.infos = L.infos)
    (hmigrate : setup.migrate = true)
    (hrun : run (step setup) (initial counts setup m k) acts = some s) :
    ∃ sys, Traverses setup (startMemory setup m) s sys ∧ ∀ w, Roams L w.1 (sys.thread w) := by
  subst hn
  obtain ⟨sys, hsys, htraverses⟩ := traverses_run hrun
  refine ⟨sys, htraverses, ?_⟩
  rw [startMemory, hinfos, hmigrate] at hsys
  exact (allRoaming_run hunsplit hsys).roams

/-- A fibre that has finished has been through a number of subpaths, and made one load. -/
theorem roams_finished {sys : System (Worker counts)} {w : Worker counts} {t₀ : Thread}
    {res : LoopResult} (hroams : Roams L w.1 (sys.thread w))
    (hthread : (Work.finished res).Is t₀ (sys.thread w)) :
    ∃ q, res.accesscount = L.stretch w.1 q + 1 := by
  obtain ⟨hindex, hcount, hleft⟩ := hthread
  obtain ⟨q, v, hv, hunderway | ⟨-, hwhole⟩⟩ := hroams
  · rw [hv] at hindex
    exact absurd (hindex.trans hleft) (SubpathLayout.ne_invalidIndex (SubpathLayout.mem_elements.mpr
      ⟨_, hunderway.subpath, List.mem_of_getElem? hunderway.element⟩))
  · rw [hv] at hcount
    exact ⟨q, hcount.symm.trans hwhole⟩

/-- The element a fibre is going to load belongs to its cluster. -/
theorem mem_chunk_cluster (hn : L.numSubpaths = n) (hunsplit : L.Unsplit m)
    (hinfos : setup.infos = L.infos)
    (hrun : run (step setup) (initial counts setup m k) acts = some s) {w : Worker counts}
    {t : Thread} (hlooping : s.workers.work w = .looping t) (hgoing : t.index ≠ invalidIndex) :
    cluster w t < L.numSubpaths ∧ t.index ∈ L.chunk (cluster w t) := by
  subst hn
  obtain ⟨sys, hsys, htraverses⟩ := traverses_run hrun
  have hthread := htraverses.workers.work w
  rw [hlooping] at hthread
  obtain rfl : sys.thread w = t := hthread
  rw [startMemory, hinfos] at hsys
  cases hmigrate : setup.migrate with
  | true =>
    rw [hmigrate] at hsys
    obtain ⟨q, v, hv, hunderway⟩ := ((allRoaming_run hunsplit hsys).roams w).underway hgoing
    rw [hv]
    exact ⟨hunderway.subpath, List.mem_of_getElem? hunderway.element⟩
  | false =>
    rw [hmigrate] at hsys
    obtain ⟨v, hv⟩ := run_invariant (fun _ _ _ _ => loop_step) (fun _ => ⟨_, rfl⟩) hsys w
    have hindex := ((allInTurn_run hunsplit hsys).inTurn w).index.resolve_left hgoing
    rw [hv] at hindex ⊢
    exact ⟨w.1.isLt, List.mem_of_getElem? hindex⟩

/-- **A fibre only loads what belongs to its cluster.** For every path that `doDistribute` builds,
in either mode, and every number of fibres, migrating or not, in every interleaving with the main
fibre and the alarm's handler: every load is from an element, and so from a line, of the subpath
whose cluster the fibre is on. -/
theorem fibres_at_home {d : SubpathDistribution} {counts : Fin d.numSubpaths → Nat}
    {rand : Randomness} {m₀ : Memory} {st : PathState} {opt : Options} {fuel : Nat}
    {s : FibreRun counts} {acts : List (FibreRunAction counts)}
    (hfit : d.Fits) (hbuild : d.doDistribute rand m₀ = .ok st)
    (hboundary : d.numSubpaths = 1 ∨ opt.dataset.toNat / d.numSubpaths = d.chunkSize)
    (hcollect : collectPointerChasingSubpathInfo fuel opt d.numSubpaths d.buffer st.mem =
      some (.ok setup.infos))
    (hrun : run (step setup) (initial counts setup st.mem k) acts = some s) :
    ∃ L : SubpathLayout, d.Builds st L ∧
      ∀ pre post w ticks, acts = pre ++ .worker (.load w ticks) :: post →
        ∃ u t, run (step setup) (initial counts setup st.mem k) pre = some u ∧
          u.workers.work w = .looping t ∧ t.index ∈ L.chunk (cluster w t) ∧
          ThreadTest.dataline d t.index / d.numDatalinesPerSubpath = cluster w t := by
  obtain ⟨L, hL⟩ := SubpathDistribution.exists_builds hfit hbuild
  have hinfos := ThreadTest.collect_eq_infos hL hboundary hcollect
  refine ⟨L, hL, ?_⟩
  rintro pre post w ticks rfl
  obtain ⟨u, hpre, hrest⟩ := run_append.mp hrun
  obtain ⟨u', hstep, -⟩ := run_cons.mp hrest
  obtain ⟨-, workers, hworkers, -⟩ := step_worker hstep
  obtain ⟨t, t', hlooping, hiteration, -⟩ := Workers.step_load hworkers
  obtain ⟨hcluster, hmem⟩ := mem_chunk_cluster hL.numSubpaths hL.unsplit hinfos hpre hlooping
    (Thread.iteration_eq_some hiteration).1
  exact ⟨u, t, hpre, hlooping, hmem,
    ThreadTest.dataline_div hfit hL (hcluster.trans_eq hL.numSubpaths) hmem⟩

/-- A migrating fibre has made the loads of its own subpath, and is on the cluster of the next one
when the handler has broken the first one. -/
theorem fibres_at_home_two_subpaths :
    let d := SubpathDistribution.create (Buffer.smallPool 256) 64 2 0
    let setup : FibreSetup := ⟨⟨[⟨0, 64, 2⟩, ⟨128, 192, 2⟩], none, {0}⟩, true, [1, 1]⟩
    let w : Worker fun _ : Fin 2 => 1 := ⟨0, 0⟩
    let v : Worker fun _ : Fin 2 => 1 := ⟨1, 0⟩
    let pre : List (FibreRunAction fun _ : Fin 2 => 1) :=
      [.create, .fibre .spawn, .fibre .spawn, .fibre .spawn, .worker (.prepare w),
        .fibre (.announce (number w)), .worker (.prepare v), .fibre (.announce (number v)),
        .fibre .release, .evict, .arm, .fibre (.arrive (number w)), .fibre (.arrive (number v)),
        .start, .fibre .arriveMain, .worker (.enter w), .worker (.load w fun _ => 0), .worker .stop,
        .worker (.load w fun _ => 0)]
    ∃ st u, d.doDistribute Randomness.identity zeros = .ok st ∧
      run (step setup) (initial _ setup st.mem ⟨fun _ => none⟩) pre = some u ∧
      ∃ L : SubpathLayout, d.Builds st L ∧ ∃ t, u.workers.work w = .looping t ∧
        cluster w t = 1 ∧ t.index ∈ L.chunk 1 := by
  intro d setup w v pre
  let opt := { Options.default with dataset := 256 }
  let acts := pre ++ [.worker (.load w fun _ => 0)]
  have hall : (d.doDistribute Randomness.identity zeros).toOption.map (fun st =>
      ((collectPointerChasingSubpathInfo 3 opt 2 d.buffer st.mem).bind Except.toOption,
        (run (step setup) (initial _ setup st.mem ⟨fun _ => none⟩) acts).isSome,
        (run (step setup) (initial _ setup st.mem ⟨fun _ => none⟩) pre).map fun u =>
          u.workers.work w)) =
      some (some setup.infos, true, some (.looping (.migratingLoop ⟨128, 2, 1, 2, 0⟩ 1))) := by
    decide +kernel
  have hfit : d.Fits :=
    SubpathDistribution.fits_of_window (by decide) (by decide) (by decide) (by decide)
  cases hbuild : d.doDistribute Randomness.identity zeros with
  | error e => simp [hbuild, Except.toOption] at hall
  | ok st =>
    rw [hbuild] at hall
    obtain ⟨hcollect, hrest⟩ := Prod.mk.inj (Option.some.inj hall)
    obtain ⟨hrun, hwork⟩ := Prod.mk.inj hrest
    obtain ⟨s, hrun⟩ := Option.isSome_iff_exists.mp hrun
    obtain ⟨infos, hcollect, hinfos⟩ := Option.bind_eq_some_iff.mp hcollect
    cases infos with
    | error e => simp [Except.toOption] at hinfos
    | ok infos =>
      obtain rfl : infos = setup.infos := Option.some.inj hinfos
      obtain ⟨L, hL, hloads⟩ := fibres_at_home hfit hbuild (Or.inr (by decide)) hcollect hrun
      obtain ⟨u, t, hpre, hlooping, hmem, -⟩ := hloads pre [] w _ rfl
      have hpre' : run (step setup) (initial _ setup st.mem ⟨fun _ => none⟩) pre = some u := hpre
      rw [hpre'] at hwork
      obtain rfl := Work.looping.inj (hlooping.symm.trans (Option.some.inj hwork))
      exact ⟨st, u, rfl, hpre, L, hL, _, hlooping, rfl, hmem⟩

/-- **Migrating fibres follow the path, subpath after subpath.** For every path that `doDistribute`
builds, in either mode, and every number of fibres, in every interleaving with the main fibre and
the alarm's handler: with `c` loads behind it a migrating fibre loads from element `c` of the whole
path, counted from the start of its own subpath, and that is element `_curStep` of the subpath it
has come to after `q` whole ones. A fibre ends with a number of whole subpaths and one load. -/
theorem migrating_fibres_in_turn {d : SubpathDistribution} {counts : Fin d.numSubpaths → Nat}
    {rand : Randomness} {m₀ : Memory} {st : PathState} {opt : Options} {fuel : Nat}
    {s : FibreRun counts} {acts : List (FibreRunAction counts)}
    (hfit : d.Fits) (hbuild : d.doDistribute rand m₀ = .ok st)
    (hboundary : d.numSubpaths = 1 ∨ opt.dataset.toNat / d.numSubpaths = d.chunkSize)
    (hcollect : collectPointerChasingSubpathInfo fuel opt d.numSubpaths d.buffer st.mem =
      some (.ok setup.infos))
    (hmigrate : setup.migrate = true)
    (hrun : run (step setup) (initial counts setup st.mem k) acts = some s) :
    ∃ L : SubpathLayout, d.Builds st L ∧
      (∀ pre post w ticks, acts = pre ++ .worker (.load w ticks) :: post →
        ∃ u v q, run (step setup) (initial counts setup st.mem k) pre = some u ∧
          u.workers.work w = .looping (.migratingLoop v v.subpathIdx) ∧
          v.index = st.mem.load^[v.accesscount] (L.start w.1) ∧
          v.accesscount = L.stretch w.1 q + v.curStep ∧
          v.subpathIdx = (w.1 + q) % d.numSubpaths ∧
          (L.chunk v.subpathIdx)[v.curStep]? = some v.index) ∧
      ∀ w res, s.workers.work w = .finished res →
        ∃ q, res.accesscount = L.stretch w.1 q + 1 := by
  obtain ⟨L, hL⟩ := SubpathDistribution.exists_builds hfit hbuild
  have hinfos := ThreadTest.collect_eq_infos hL hboundary hcollect
  refine ⟨L, hL, ?_, fun w res hres => ?_⟩
  · rintro pre post w ticks rfl
    obtain ⟨u, hpre, hrest⟩ := run_append.mp hrun
    obtain ⟨u', hstep, -⟩ := run_cons.mp hrest
    obtain ⟨-, workers, hworkers, -⟩ := step_worker hstep
    obtain ⟨t, t', hlooping, hiteration, -⟩ := Workers.step_load hworkers
    obtain ⟨sys, htraverses, hroams⟩ := roams_run hL.numSubpaths hL.unsplit hinfos hmigrate hpre
    have hthread := htraverses.workers.work w
    rw [hlooping] at hthread
    obtain rfl : sys.thread w = t := hthread
    obtain ⟨q, v, hv, hunderway⟩ := (hroams w).underway (Thread.iteration_eq_some hiteration).1
    have hlt : w.1.val < L.numSubpaths := w.1.isLt.trans_eq hL.numSubpaths.symm
    have hsubpath := hunderway.subpathIdx
    rw [hL.numSubpaths] at hsubpath
    exact ⟨u, v, q, hpre, hv ▸ hlooping, hunderway.index hL.unsplit hlt, hunderway.accesscount,
      hsubpath, hunderway.element⟩
  · obtain ⟨sys, htraverses, hroams⟩ := roams_run hL.numSubpaths hL.unsplit hinfos hmigrate hrun
    have hthread := htraverses.workers.work w
    rw [hres] at hthread
    exact roams_finished (hroams w) hthread

/-- The handler breaks the first subpath when the fibre has just left its start, and the second one
when the fibre has come to it. -/
theorem migrating_fibres_in_turn_two_subpaths :
    let d := SubpathDistribution.create (Buffer.smallPool 256) 64 2 0
    let setup : FibreSetup := ⟨⟨[⟨0, 64, 2⟩, ⟨128, 192, 2⟩], none, {0}⟩, true, [1, 1]⟩
    let w : Worker fun _ : Fin 2 => 1 := ⟨0, 0⟩
    let v : Worker fun _ : Fin 2 => 1 := ⟨1, 0⟩
    let acts : List (FibreRunAction fun _ : Fin 2 => 1) :=
      [.create, .fibre .spawn, .fibre .spawn, .fibre .spawn, .worker (.prepare w),
        .fibre (.announce (number w)), .worker (.prepare v), .fibre (.announce (number v)),
        .fibre .release, .evict, .arm, .fibre (.arrive (number w)), .fibre (.arrive (number v)),
        .start, .fibre .arriveMain, .worker (.enter w), .worker (.load w fun _ => 0), .worker .stop,
        .worker (.load w fun _ => 0), .worker .stop, .worker (.load w fun _ => 0),
        .worker (.leave w)]
    ∃ st s, d.doDistribute Randomness.identity zeros = .ok st ∧
      run (step setup) (initial _ setup st.mem ⟨fun _ => none⟩) acts = some s ∧
      ∃ L : SubpathLayout, d.Builds st L ∧ ∃ q, 3 = L.stretch 0 q + 1 := by
  intro d setup w v acts
  let opt := { Options.default with dataset := 256 }
  have hall : (d.doDistribute Randomness.identity zeros).toOption.map (fun st =>
      ((collectPointerChasingSubpathInfo 3 opt 2 d.buffer st.mem).bind Except.toOption,
        (run (step setup) (initial _ setup st.mem ⟨fun _ => none⟩) acts).map fun s =>
          s.workers.work w)) =
      some (some setup.infos, some (.finished ⟨3, invalidIndex⟩)) := by
    decide +kernel
  have hfit : d.Fits :=
    SubpathDistribution.fits_of_window (by decide) (by decide) (by decide) (by decide)
  cases hbuild : d.doDistribute Randomness.identity zeros with
  | error e => simp [hbuild, Except.toOption] at hall
  | ok st =>
    rw [hbuild] at hall
    obtain ⟨hcollect, hrun⟩ := Prod.mk.inj (Option.some.inj hall)
    obtain ⟨s, hrun, hwork⟩ := Option.map_eq_some_iff.mp hrun
    obtain ⟨infos, hcollect, hinfos⟩ := Option.bind_eq_some_iff.mp hcollect
    cases infos with
    | error e => simp [Except.toOption] at hinfos
    | ok infos =>
      obtain rfl : infos = setup.infos := Option.some.inj hinfos
      obtain ⟨L, hL, -, hwhole⟩ :=
        migrating_fibres_in_turn hfit hbuild (Or.inr (by decide)) hcollect rfl hrun
      exact ⟨st, s, rfl, hrun, L, hL, hwhole w _ hwork⟩

end FibreRun

end Cachetest
