import Cachetest.Distribute
import Cachetest.ThreadTest

/-!
# What the threads of a test load

The threads of a test are the threads of a `System` (`traverses_run`), which follow the rings that
the split path consists of. So a thread loads the elements of its own subpath in turn, whatever the
other threads and the alarm's handler do meanwhile, and it leaves after a number of laps and one
more load. Threads of different subpaths never load from the same line.
-/

namespace Cachetest

open ByteMemory Circuit PerfEvents Runs

namespace ThreadTest

/-! ## The threads of a test as the threads of a system -/

section Traverses

variable {n : Nat} {counts : Fin n → Nat} {setup : TestSetup} {s s' : ThreadTest counts}
  {m : Memory} {sys : System (Worker counts)}

/-- What the threads of a `System` see of an action. -/
def threadAction : ThreadAction counts → Option (Action (Worker counts))
  | .worker a => a.threadAction
  | _ => none

/-- The threads of the test are those of `sys`, started in the memory `m`. -/
structure Traverses (infos : List SubpathInfo) (m : Memory) (s : ThreadTest counts)
    (sys : System (Worker counts)) : Prop where
  ordered : Ordered s
  workers : WorkersOf (loopStart infos) m s.workers sys

theorem Traverses.keep (h : Traverses setup.infos m s sys) (hordered : Ordered s')
    (hmem : s'.workers.mem = s.workers.mem) (hpending : s'.workers.pending = s.workers.pending)
    (hwork : s'.workers.work = s.workers.work) : Traverses setup.infos m s' sys :=
  ⟨hordered, h.workers.congr hmem hpending hwork⟩

theorem traverses_step {a : ThreadAction counts} (h : Traverses setup.infos m s sys)
    (hstep : s.step setup a = some s') :
    ∃ sys', run (System.step false setup.infos n) sys (threadAction a).toList = some sys' ∧
      Traverses setup.infos m s' sys' := by
  have hordered := ordered_step h.ordered hstep
  cases a with
  | spawn =>
    obtain ⟨i, j, -, ⟨w, -, rfl⟩ | ⟨-, rfl⟩ | ⟨-, rfl⟩⟩ := step_spawn hstep
    all_goals exact ⟨sys, rfl, h.keep hordered rfl rfl rfl⟩
  | announce w =>
    obtain ⟨-, -, rfl⟩ := step_announce hstep
    exact ⟨sys, rfl, h.keep hordered rfl rfl rfl⟩
  | release =>
    obtain ⟨-, -, rfl⟩ := step_release hstep
    exact ⟨sys, rfl, h.keep hordered rfl rfl rfl⟩
  | evict =>
    obtain ⟨-, rfl⟩ := step_evict hstep
    exact ⟨sys, rfl, h.keep hordered rfl rfl rfl⟩
  | arm =>
    obtain ⟨-, rfl⟩ := step_arm hstep
    exact ⟨sys, rfl, h.keep hordered rfl rfl rfl⟩
  | start =>
    obtain ⟨-, k, -, rfl⟩ := step_start hstep
    exact ⟨sys, rfl, h.keep hordered rfl rfl rfl⟩
  | go =>
    obtain ⟨-, rfl⟩ := step_go hstep
    exact ⟨sys, rfl, h.keep hordered rfl rfl rfl⟩
  | join =>
    obtain ⟨i, j, -, ⟨w, res, -, -, rfl⟩ | ⟨-, rfl⟩ | ⟨-, rfl⟩⟩ := step_join hstep
    all_goals exact ⟨sys, rfl, h.keep hordered rfl rfl rfl⟩
  | stop arg =>
    obtain ⟨-, k, -, rfl⟩ := step_stop hstep
    exact ⟨sys, rfl, h.keep hordered rfl rfl rfl⟩
  | worker a =>
    obtain ⟨hallowed, workers, hworkers, rfl⟩ := step_worker hstep
    have hstop : a = .stop → ∀ w, s.workers.work w ≠ .idle := by
      rintro rfl w hidle
      have hrank : 4 ≤ s.main.rank := hallowed
      have hlaunched := h.ordered.launched w
      rw [h.ordered.gathered (by omega) w] at hlaunched
      exact hlaunched hidle
    obtain ⟨sys', hrun, hworkers'⟩ := h.workers.step hstop hworkers
    exact ⟨sys', hrun, hordered, hworkers'⟩

/-- The threads of every test are the threads of a system. -/
theorem traverses_run {k : Kernel} {acts : List (ThreadAction counts)}
    (hrun : run (step setup) (initial counts setup m k) acts = some s) :
    ∃ sys, run (System.step false setup.infos n)
        (.initial (splitPointerChasingPath setup.infos m) setup.infos
          (loopStart setup.infos (splitPointerChasingPath setup.infos m)))
        (acts.filterMap threadAction) = some sys ∧
      Traverses setup.infos (splitPointerChasingPath setup.infos m) s sys :=
  run_simulation (fun _ _ _ _ => traverses_step)
    ⟨ordered_initial setup m k, workersOf_initial ..⟩ hrun

end Traverses

/-! ## The subpaths a test is given -/

theorem walkSubpath_mono {m : Memory} {z fuel fuel' idx length : Nat} {r : Nat × Nat}
    (h : walkSubpath m z fuel idx length = some r) (hle : fuel ≤ fuel') :
    walkSubpath m z fuel' idx length = some r := by
  induction fuel generalizing idx length fuel' with
  | zero => cases h
  | succ fuel ih =>
    obtain ⟨fuel', rfl⟩ : ∃ f, fuel' = f + 1 := ⟨fuel' - 1, by omega⟩
    rw [walkSubpath] at h ⊢
    split
    case isTrue hne =>
      rw [if_pos hne] at h
      exact ih h (by omega)
    case isFalse hne => rwa [if_neg hne] at h

/-- With the right boundaries `collectPointerChasingSubpathInfo` finds the subpaths that were
built. -/
theorem collect_eq_infos {opt : Options} {d : SubpathDistribution} {st : PathState}
    {L : SubpathLayout} (hL : d.Builds st L)
    (hboundary : d.numSubpaths = 1 ∨ opt.dataset.toNat / d.numSubpaths = d.chunkSize)
    {fuel : Nat} {infos : List SubpathInfo}
    (hcollect : collectPointerChasingSubpathInfo fuel opt d.numSubpaths d.buffer st.mem =
      some (.ok infos)) : infos = L.infos := by
  rw [collectPointerChasingSubpathInfo, Option.map_eq_some_iff] at hcollect
  obtain ⟨infos', hmap, hok⟩ := hcollect
  obtain ⟨_, -, hret⟩ := bind_eq_ok.mp hok
  obtain rfl := Except.ok.inj hret
  obtain ⟨hlength, hread⟩ := mapM_range_eq_some.mp hmap
  have hpos : 0 < d.numSubpaths := hL.numSubpaths ▸ SubpathLayout.numSubpaths_pos
  refine List.ext_getElem? fun k => ?_
  by_cases hk : k < d.numSubpaths
  case neg =>
    rw [List.getElem?_eq_none (by omega),
      List.getElem?_eq_none (by simp [SubpathLayout.infos, hL.numSubpaths]; omega)]
  -- Both readings agree with one that has enough fuel for either.
  have hwalk := walkSubpath_mono (hL.laid.walk_eq hk) (Nat.le_max_right fuel _)
  have hinfo := hread k hk
  rw [List.getElem?_eq_getElem (hlength ▸ hk)] at hinfo
  obtain ⟨⟨idx, length⟩, hfound, hinfo⟩ := Option.map_eq_some_iff.mp hinfo
  rw [boundary_eq hboundary hk, boundary_eq hboundary (Nat.mod_lt _ hpos)] at hfound
  have hsame := (walkSubpath_mono hfound (Nat.le_max_left _ (st.entries + 1))).symm.trans hwalk
  obtain ⟨rfl, rfl⟩ := Prod.mk.inj (Option.some.inj hsame)
  rw [List.getElem?_eq_getElem (hlength ▸ hk), ← hinfo, boundary_eq hboundary hk]
  simp [SubpathLayout.infos, hL.numSubpaths, hk, SubpathInfo.describing, hL.laid.head k hk]

/-! ## The rings -/

variable {n : Nat} {L : SubpathLayout} {counts : Fin n → Nat} {setup : TestSetup}
  {s : ThreadTest counts} {m : Memory} {k : Kernel} {acts : List (ThreadAction counts)}

theorem subpathInfoAt_infos {i : Nat} (hi : i < L.numSubpaths) :
    subpathInfoAt L.infos i = .describing (L.chunk i) := by
  simp [subpathInfoAt, SubpathLayout.infos, List.getD_eq_getElem?_getD, hi]

theorem index_loopStart (hn : L.numSubpaths = n) (hinfos : setup.infos = L.infos) (m : Memory)
    (w : Worker counts) : (loopStart setup.infos m w).index = L.start w.1 := by
  have hstart : (loopStart setup.infos m w).index = workerStart setup.infos m w.1 w.2 _ := rfl
  rw [hstart, workerStart_eq, hinfos, subpathInfoAt_infos (hn ▸ w.1.isLt)]
  rfl

/-- What every load keeps, in a memory where starts of subpaths may have been broken, every step
keeps. -/
theorem threads_step {ι : Type*} [DecidableEq ι] {P : ι → Thread → Prop} {infos : List SubpathInfo}
    {numSubpaths : Nat} (hstops : StopsAt L infos)
    (hload : ∀ i t t' (mem : Memory), P i t →
      (∀ a ∈ L.elements, mem.load a = m.load a ∨
        (mem.load a = invalidIndex ∧ ∃ k < L.numSubpaths, a = L.start k)) →
      t.iteration infos numSubpaths mem = some t' → P i t')
    {sys sys' : System ι} (hwords : WordsOf L m infos sys) (hstoring : ∀ i, sys.storing i = none)
    (h : ∀ i, P i (sys.thread i)) {a : Action ι}
    (hstep : sys.step false infos numSubpaths a = some sys') :
    WordsOf L m infos sys' ∧ (∀ i, sys'.storing i = none) ∧ ∀ i, P i (sys'.thread i) := by
  cases a with
  | store i =>
    obtain ⟨index, hindex, -⟩ := System.step_store hstep
    simp [hstoring i] at hindex
  | stop =>
    have hwords' := hwords.stop hstops hstep
    obtain ⟨info, rest, -, rfl⟩ := System.step_stop hstep
    exact ⟨hwords', hstoring, h⟩
  | load i =>
    obtain ⟨-, t, ht, rfl⟩ := System.step_load hstep
    refine ⟨hwords, hstoring, fun j => ?_⟩
    by_cases heq : j = i
    · subst heq
      simp only [Function.update_self]
      exact hload j _ _ _ (h j) (fun a ha => hwords.load_eq hstops ha) ht
    · simp only [Function.update_of_ne heq]
      exact h j

/-- A thread has loaded `xs` in turn, lap after lap, from the first element on; when it is at `-1`
its last load was from the first element. -/
structure InTurn (xs : List Nat) (t : Thread) : Prop where
  index : t.index = invalidIndex ∨ xs[t.accesscount % xs.length]? = some t.index
  laps : t.index = invalidIndex → ∃ laps, t.accesscount = laps * xs.length + 1

theorem InTurn.iteration (hsplit : L.Split m) {i : Nat} (hi : i < L.numSubpaths)
    {infos : List SubpathInfo} {numSubpaths : Nat} {t t' : Thread} {mem : Memory}
    (h : InTurn (L.chunk i) t)
    (hmem : ∀ a ∈ L.elements, mem.load a = m.load a ∨
      (mem.load a = invalidIndex ∧ ∃ k < L.numSubpaths, a = L.start k))
    (hrun : t.iteration infos numSubpaths mem = some t') : InTurn (L.chunk i) t' := by
  obtain ⟨hgoing, hindex, hcount⟩ := Thread.iteration_eq_some hrun
  have hcircuit := hsplit.isCircuit hi
  have hhere := h.index.resolve_left hgoing
  have hmod := Nat.mod_lt t.accesscount hcircuit.length_pos
  have hchunk : t.index ∈ L.chunk i := List.mem_of_getElem? hhere
  have helement : t.index ∈ L.elements := SubpathLayout.mem_elements.mpr ⟨i, hi, hchunk⟩
  constructor
  case index =>
    rw [hindex, hcount]
    rcases hmem _ helement with hload | ⟨hload, -⟩
    · have hat := hcircuit.iterate t.accesscount
      rw [hhere] at hat
      rw [hload, Option.some.inj hat, ← Function.iterate_succ_apply' m.load]
      exact Or.inr (hcircuit.iterate (t.accesscount + 1))
    · exact Or.inl hload
  case laps =>
    intro hleft
    rw [hindex] at hleft
    obtain ⟨k, hk, hat⟩ : ∃ k < L.numSubpaths, t.index = L.start k := by
      rcases hmem _ helement with hload | ⟨-, hbroken⟩
      · exact absurd (hload.symm.trans hleft) (SubpathLayout.ne_invalidIndex
          (hsplit.load_mem helement))
      · exact hbroken
    obtain rfl := SubpathLayout.subpath_unique hi hk hchunk (hat ▸ SubpathLayout.start_mem hk)
    have hzero : t.accesscount % (L.chunk i).length = 0 := by
      refine (List.getElem?_inj hmod (SubpathLayout.nodup_chunk hi)).mp ?_
      rw [hhere, hat, SubpathLayout.getElem?_chunk_zero hi]
    refine ⟨t.accesscount / (L.chunk i).length, ?_⟩
    rw [hcount, Nat.div_mul_cancel (Nat.dvd_of_mod_eq_zero hzero)]

/-- All threads load the elements of their subpaths in turn. -/
structure AllInTurn (L : SubpathLayout) (m : Memory) (infos : List SubpathInfo)
    (sys : System (Worker counts)) : Prop where
  words : WordsOf L m infos sys
  storing : ∀ w, sys.storing w = none
  inTurn : ∀ w : Worker counts, InTurn (L.chunk w.1) (sys.thread w)

theorem allInTurn_initial (hn : L.numSubpaths = n) {infos : List SubpathInfo}
    {thread : Worker counts → Thread} (hfresh : ∀ w, (thread w).accesscount = 0)
    (hstart : ∀ w : Worker counts, (thread w).index = L.start w.1) :
    AllInTurn L m infos (System.initial m infos thread) where
  words := ⟨[], rfl, fun a _ => by simp [System.initial]⟩
  storing _ := rfl
  inTurn w := by
    have hindex : (System.initial m infos thread).thread w = thread w := rfl
    have hlt : w.1 < L.numSubpaths := hn ▸ w.1.isLt
    refine ⟨Or.inr ?_, fun hleft => ?_⟩
    · rw [hindex, hfresh, Nat.zero_mod, SubpathLayout.getElem?_chunk_zero hlt, hstart]
    · rw [hindex, hstart] at hleft
      exact absurd hleft (SubpathLayout.ne_invalidIndex (start_mem_elements hlt))

theorem allInTurn_step (hn : L.numSubpaths = n) (hsplit : L.Split m) {infos : List SubpathInfo}
    (hstops : StopsAt L infos) {numSubpaths : Nat} {sys sys' : System (Worker counts)}
    {a : Action (Worker counts)} (h : AllInTurn L m infos sys)
    (hstep : sys.step false infos numSubpaths a = some sys') : AllInTurn L m infos sys' := by
  obtain ⟨hwords, hstoring, hinTurn⟩ := threads_step (P := fun w => InTurn (L.chunk w.1)) hstops
    (fun w _ _ _ hturn hmem hrun => hturn.iteration hsplit (hn ▸ w.1.isLt) hmem hrun)
    h.words h.storing h.inTurn hstep
  exact ⟨hwords, hstoring, hinTurn⟩

/-- A thread that has finished has made a number of whole laps and one load. -/
theorem AllInTurn.laps {infos : List SubpathInfo} {sys : System (Worker counts)}
    (h : AllInTurn L m infos sys) {w : Worker counts} {t₀ : Thread} {res : LoopResult}
    (hthread : (Work.finished res).Is t₀ (sys.thread w)) :
    ∃ laps, res.accesscount = laps * (L.chunk w.1).length + 1 := by
  obtain ⟨hindex, hcount, hleft⟩ := hthread
  rw [← hcount]
  exact (h.inTurn w).laps (hindex.trans hleft)

theorem inTurn_run (hn : L.numSubpaths = n) (hunsplit : L.Unsplit m)
    (hinfos : setup.infos = L.infos)
    (hrun : run (step setup) (initial counts setup m k) acts = some s) :
    ∃ sys, Traverses setup.infos (splitPointerChasingPath setup.infos m) s sys ∧
      AllInTurn L (splitPointerChasingPath setup.infos m) setup.infos sys := by
  obtain ⟨sys, hsys, htraverses⟩ := traverses_run hrun
  have hsplit : L.Split (splitPointerChasingPath setup.infos m) := by
    rw [hinfos]
    exact split_of_unsplit hunsplit
  have hstops : StopsAt L setup.infos := by
    rw [hinfos]
    exact stopsAt_infos L
  exact ⟨sys, htraverses, run_invariant (fun _ _ _ _ => allInTurn_step hn hsplit hstops)
    (allInTurn_initial hn (fun _ => rfl) (index_loopStart hn hinfos _)) hsys⟩

/-! ## What a thread has loaded -/

/-- The line of a 32-bit index, counted from the start address. -/
def dataline (d : SubpathDistribution) (a : Nat) : Nat := (a - d.bufferOffset) / d.lineSize

theorem dataline_div {d : SubpathDistribution} (hfit : d.Fits) {st : PathState}
    (hL : d.Builds st L) {i : Nat} (hi : i < d.numSubpaths) {a : Nat} (ha : a ∈ L.chunk i) :
    dataline d a / d.numDatalinesPerSubpath = i := by
  obtain ⟨hlow, hhigh⟩ := hL.inside i hi a ha
  rw [hfit.chunkStart_eq hi.le] at hlow hhigh
  rw [dataline, Nat.div_div_eq_div_mul, Nat.mul_comm, ← SubpathDistribution.chunkSize]
  refine Nat.div_eq_of_lt_le ?_ ?_
  · omega
  · rw [Nat.succ_mul]
    omega

/-- **The threads traverse their own subpaths.** For every path that `doDistribute` builds, in
either mode, and every number of threads per subpath, in every interleaving with the main thread and
the alarm's handler: with `c` loads behind it, a thread loads from element `c` of its subpath,
counted around the ring, and that element is on one of the subpath's own lines. A thread ends with
a number of whole laps and one load. -/
theorem loads_in_turn {d : SubpathDistribution} {counts : Fin d.numSubpaths → Nat}
    {rand : Randomness} {m₀ : Memory} {st : PathState} {opt : Options} {fuel : Nat}
    {s : ThreadTest counts} {acts : List (ThreadAction counts)}
    (hfit : d.Fits) (hbuild : d.doDistribute rand m₀ = .ok st)
    (hboundary : d.numSubpaths = 1 ∨ opt.dataset.toNat / d.numSubpaths = d.chunkSize)
    (hcollect : collectPointerChasingSubpathInfo fuel opt d.numSubpaths d.buffer st.mem =
      some (.ok setup.infos))
    (hrun : run (step setup) (initial counts setup st.mem k) acts = some s) :
    ∃ L : SubpathLayout, d.Builds st L ∧
      (∀ pre post w ticks, acts = pre ++ .worker (.load w ticks) :: post →
        ∃ u t, run (step setup) (initial counts setup st.mem k) pre = some u ∧
          u.workers.work w = .looping t ∧
          (L.chunk w.1)[t.accesscount % (L.chunk w.1).length]? = some t.index ∧
          dataline d t.index / d.numDatalinesPerSubpath = w.1) ∧
      ∀ w res, s.workers.work w = .finished res →
        ∃ laps, res.accesscount = laps * (L.chunk w.1).length + 1 := by
  obtain ⟨L, hL⟩ := SubpathDistribution.exists_builds hfit hbuild
  have hinfos := collect_eq_infos hL hboundary hcollect
  refine ⟨L, hL, ?_, fun w res hres => ?_⟩
  · rintro pre post w ticks rfl
    obtain ⟨u, hpre, hrest⟩ := run_append.mp hrun
    obtain ⟨u', hstep, -⟩ := run_cons.mp hrest
    obtain ⟨-, workers, hworkers, -⟩ := step_worker hstep
    obtain ⟨t, t', hlooping, hiteration, -⟩ := Workers.step_load hworkers
    obtain ⟨sys, htraverses, hturn⟩ := inTurn_run hL.numSubpaths hL.unsplit hinfos hpre
    have hthread := htraverses.workers.work w
    rw [hlooping] at hthread
    obtain rfl : sys.thread w = t := hthread
    have hindex := (hturn.inTurn w).index.resolve_left (Thread.iteration_eq_some hiteration).1
    exact ⟨u, _, hpre, hlooping, hindex,
      dataline_div hfit hL w.1.isLt (List.mem_of_getElem? hindex)⟩
  · obtain ⟨sys, htraverses, hturn⟩ := inTurn_run hL.numSubpaths hL.unsplit hinfos hrun
    have hthread := htraverses.workers.work w
    rw [hres] at hthread
    exact hturn.laps hthread

/-- Two subpaths of two lines and a thread for each: the first one starts when the handler has
already broken its subpath. -/
theorem loads_in_turn_two_subpaths :
    let d := SubpathDistribution.create (Buffer.smallPool 256) 64 2 0
    let setup : TestSetup := ⟨[⟨0, 64, 2⟩, ⟨128, 192, 2⟩], none, {0}⟩
    let first : Worker fun _ : Fin 2 => 1 := ⟨0, 0⟩
    let second : Worker fun _ : Fin 2 => 1 := ⟨1, 0⟩
    let acts : List (ThreadAction fun _ : Fin 2 => 1) :=
      [.spawn, .spawn, .spawn, .spawn, .spawn, .worker (.prepare second), .announce second,
        .worker (.prepare first), .announce first, .release, .evict, .arm, .start, .go,
        .worker (.enter second), .worker (.load second fun _ => 0), .worker (.enter first),
        .worker .stop, .worker (.load first fun _ => 0), .worker (.leave first)]
    ∃ st s, d.doDistribute Randomness.identity zeros = .ok st ∧
      run (step setup) (initial _ setup st.mem ⟨fun _ => none⟩) acts = some s ∧
      s.workers.work second = .looping (.loop ⟨192, 1⟩) ∧
      ∃ L : SubpathLayout, d.Builds st L ∧ ∃ laps, 1 = laps * (L.chunk 0).length + 1 := by
  intro d setup first second acts
  let opt := { Options.default with dataset := 256 }
  have hall : (d.doDistribute Randomness.identity zeros).toOption.map (fun st =>
      ((collectPointerChasingSubpathInfo 3 opt 2 d.buffer st.mem).bind Except.toOption,
        (run (step setup) (initial _ setup st.mem ⟨fun _ => none⟩) acts).map fun s =>
          (s.workers.work first, s.workers.work second))) =
      some (some setup.infos, some (.finished ⟨1, invalidIndex⟩, .looping (.loop ⟨192, 1⟩))) := by
    decide +kernel
  have hfit : d.Fits :=
    SubpathDistribution.fits_of_window (by decide) (by decide) (by decide) (by decide)
  cases hbuild : d.doDistribute Randomness.identity zeros with
  | error e => simp [hbuild, Except.toOption] at hall
  | ok st =>
    rw [hbuild] at hall
    obtain ⟨hcollect, hrun⟩ := Prod.mk.inj (Option.some.inj hall)
    obtain ⟨s, hrun, hwork⟩ := Option.map_eq_some_iff.mp hrun
    obtain ⟨hfirst, hsecond⟩ := Prod.mk.inj hwork
    obtain ⟨infos, hcollect, hinfos⟩ := Option.bind_eq_some_iff.mp hcollect
    cases infos with
    | error e => simp [Except.toOption] at hinfos
    | ok infos =>
      obtain rfl : infos = setup.infos := Option.some.inj hinfos
      obtain ⟨L, hL, -, hlaps⟩ := loads_in_turn hfit hbuild (Or.inr (by decide)) hcollect hrun
      exact ⟨st, s, rfl, hrun, hsecond, L, hL, hlaps first _ hfirst⟩

end ThreadTest

end Cachetest
