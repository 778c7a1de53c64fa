import Mathlib.Algebra.Order.Round
import Mathlib.Data.Rat.Floor
import Cachetest.Measurement
import Cachetest.PerfCachetest
import Cachetest.Stopping

/-!
# The workers of a test

The part that the callbacks of `threadTest` and `fibreTest` have in common: a worker looks up the
index it starts on, enters its loop when it is let go, and stores the result of the loop when it
leaves. Over the path work all workers, the alarm's handler, and the performance counters, which
count what happens in an iteration.

`WorkersOf` ties the workers to the threads of a `System`, so that what holds of those in every
interleaving holds of the workers. `workers_measured` and `Counts` say what a test that lets them go
only between the start and the end of counting measures.
-/

namespace Cachetest

open ByteMemory Circuit Measurement PerfEvents Runs

/-! ## The start index -/

/-- `THREAD_SUBPATH_DISTRIBUTION_DEC`: all workers start at the first entry of their subpath. -/
def threadSubpathDistributionDec : ℚ := 0

/-- `stepsOffset`: how far worker `idx` of `count` starts from the start of a subpath. -/
def stepsOffset (length idx count : Nat) : Nat :=
  (round ((length : ℚ) * ((idx : ℚ) / count * threadSubpathDistributionDec))).toNat

@[simp] theorem stepsOffset_eq_zero (length idx count : Nat) :
    stepsOffset length idx count = 0 := by
  simp [stepsOffset, threadSubpathDistributionDec]

/-- `subpathInfo[i]`. There is one for every subpath. -/
def subpathInfoAt (infos : List SubpathInfo) (i : Nat) : SubpathInfo := infos.getD i ⟨0, 0, 0⟩

/-- `startIdx` of worker `idx` of subpath `i`. -/
def workerStart (infos : List SubpathInfo) (m : Memory) (i idx count : Nat) : Nat :=
  let info := subpathInfoAt infos i
  startIndex m info (stepsOffset info.length idx count)

theorem workerStart_eq (infos : List SubpathInfo) (m : Memory) (i idx count : Nat) :
    workerStart infos m i idx count = (subpathInfoAt infos i).startIdx := by
  simp [workerStart, startIndex]

/-! ## The workers -/

/-- `LoopResult`. -/
structure LoopResult where
  accesscount : Nat
  index : Nat
  deriving DecidableEq, Repr

/-- How far a worker has come. -/
inductive Work where
  | idle
  | ready (t : Thread)
  | looping (t : Thread)
  | finished (res : LoopResult)
  deriving DecidableEq, Repr

namespace Work

/-- The iterations the worker has made. -/
def accesscount : Work → Nat
  | idle => 0
  | ready t | looping t => t.accesscount
  | finished res => res.accesscount

/-- The worker has been let go. -/
def Started : Work → Prop
  | idle | ready _ => False
  | looping _ | finished _ => True

end Work

/-- All workers over one memory, the stores the handler has still to make, and the counters. -/
structure Workers (ι : Type*) where
  mem : Memory
  pending : List SubpathInfo
  work : ι → Work
  kernel : Kernel

/-- What happens next. During an iteration the events count `ticks`. -/
inductive WorkerAction (ι : Type*) where
  | prepare (i : ι)
  | enter (i : ι)
  | load (i : ι) (ticks : Int → Nat)
  | leave (i : ι)
  | stop

namespace Workers

variable {ι : Type*} [DecidableEq ι]

def update (s : Workers ι) (i : ι) (w : Work) : Workers ι :=
  { s with work := Function.update s.work i w }

/-- `start m i` are the variables with which worker `i` starts when it looks them up in `m`. -/
def step (infos : List SubpathInfo) (numSubpaths : Nat) (start : Memory → ι → Thread)
    (s : Workers ι) : WorkerAction ι → Option (Workers ι)
  | .prepare i =>
    match s.work i with
    | .idle => some (s.update i (.ready (start s.mem i)))
    | _ => none
  | .enter i =>
    match s.work i with
    | .ready t => some (s.update i (.looping t))
    | _ => none
  | .load i ticks =>
    match s.work i with
    | .looping t => (t.iteration infos numSubpaths s.mem).map fun t =>
        { s.update i (.looping t) with kernel := s.kernel.elapse ticks }
    | _ => none
  | .leave i =>
    match s.work i with
    | .looping t =>
      if t.index = invalidIndex then some (s.update i (.finished ⟨t.accesscount, t.index⟩))
      else none
    | _ => none
  | .stop =>
    match s.pending with
    | [] => none
    | info :: rest =>
      some { s with mem := s.mem.store info.startIdx invalidIndex, pending := rest }

def initial (m : Memory) (infos : List SubpathInfo) (k : Kernel) : Workers ι where
  mem := m
  pending := infos
  work _ := .idle
  kernel := k

variable {s s' : Workers ι} {infos : List SubpathInfo} {numSubpaths : Nat}
  {start : Memory → ι → Thread} {i : ι} {w : Work}

@[simp] theorem mem_update : (s.update i w).mem = s.mem := rfl

@[simp] theorem pending_update : (s.update i w).pending = s.pending := rfl

@[simp] theorem kernel_update : (s.update i w).kernel = s.kernel := rfl

@[simp] theorem work_update_self : (s.update i w).work i = w := Function.update_self ..

theorem work_update_of_ne {j : ι} (h : j ≠ i) : (s.update i w).work j = s.work j :=
  Function.update_of_ne h ..

/-! ## What an action can do -/

theorem step_prepare (h : s.step infos numSubpaths start (.prepare i) = some s') :
    s.work i = .idle ∧ s' = s.update i (.ready (start s.mem i)) := by
  simp only [step] at h
  split at h
  case h_1 hwork => exact ⟨hwork, (Option.some.inj h).symm⟩
  case h_2 => cases h

theorem step_enter (h : s.step infos numSubpaths start (.enter i) = some s') :
    ∃ t, s.work i = .ready t ∧ s' = s.update i (.looping t) := by
  simp only [step] at h
  split at h
  case h_1 t hwork => exact ⟨t, hwork, (Option.some.inj h).symm⟩
  case h_2 => cases h

theorem step_load {ticks : Int → Nat}
    (h : s.step infos numSubpaths start (.load i ticks) = some s') :
    ∃ t t', s.work i = .looping t ∧ t.iteration infos numSubpaths s.mem = some t' ∧
      s' = { s.update i (.looping t') with kernel := s.kernel.elapse ticks } := by
  simp only [step] at h
  split at h
  case h_1 t hwork =>
    obtain ⟨t', ht', rfl⟩ := Option.map_eq_some_iff.mp h
    exact ⟨t, t', hwork, ht', rfl⟩
  case h_2 => cases h

theorem step_leave (h : s.step infos numSubpaths start (.leave i) = some s') :
    ∃ t, s.work i = .looping t ∧ t.index = invalidIndex ∧
      s' = s.update i (.finished ⟨t.accesscount, t.index⟩) := by
  simp only [step] at h
  split at h
  case h_1 t hwork =>
    rw [Option.ite_none_right_eq_some] at h
    exact ⟨t, hwork, h.1, (Option.some.inj h.2).symm⟩
  case h_2 => cases h

theorem step_stop (h : s.step infos numSubpaths start .stop = some s') :
    ∃ info rest, s.pending = info :: rest ∧
      s' = { s with mem := s.mem.store info.startIdx invalidIndex, pending := rest } := by
  simp only [step] at h
  split at h
  case h_1 => cases h
  case h_2 info rest hpending => exact ⟨info, rest, hpending, (Option.some.inj h).symm⟩

end Workers

/-! ## The workers as the threads of a system -/

namespace WorkerAction

variable {ι : Type*}

/-- What the threads of a `System` see of an action. -/
def threadAction : WorkerAction ι → Option (Action ι)
  | .load i _ => some (.load i)
  | .stop => some .stop
  | _ => none

/-- The worker whose iteration an action is. -/
def loaded : WorkerAction ι → Option ι
  | .load i _ => some i
  | _ => none

/-- What the event at `fd` counts in an action. -/
def ticks (fd : Int) : WorkerAction ι → Nat
  | .load _ ticks => ticks fd
  | _ => 0

end WorkerAction

/-- A thread in the place of a worker, which starts as `t₀`. -/
def Work.Is (w : Work) (t₀ t : Thread) : Prop :=
  match w with
  | idle => t = t₀
  | ready t' | looping t' => t = t'
  | finished res => t.index = res.index ∧ t.accesscount = res.accesscount ∧
      res.index = invalidIndex

/-- The workers are the threads of `sys`, which all start in the memory `m`. -/
structure WorkersOf {ι : Type*} (start : Memory → ι → Thread) (m : Memory) (s : Workers ι)
    (sys : System ι) : Prop where
  mem : sys.mem = s.mem
  pending : sys.pending = s.pending
  storing : ∀ i, sys.storing i = none
  work : ∀ i, (s.work i).Is (start m i) (sys.thread i)
  untouched : ∀ i, s.work i = .idle → s.mem = m

section WorkersOf

variable {ι : Type*} [DecidableEq ι] {start : Memory → ι → Thread} {m : Memory}
  {infos : List SubpathInfo} {numSubpaths : Nat} {s s' : Workers ι} {sys : System ι}

omit [DecidableEq ι] in
theorem workersOf_initial (start : Memory → ι → Thread) (m : Memory) (infos : List SubpathInfo)
    (k : Kernel) : WorkersOf start m (.initial m infos k) (.initial m infos (start m)) where
  mem := rfl
  pending := rfl
  storing _ := rfl
  work _ := rfl
  untouched _ _ := rfl

omit [DecidableEq ι] in
theorem WorkersOf.congr (h : WorkersOf start m s sys) (hmem : s'.mem = s.mem)
    (hpending : s'.pending = s.pending) (hwork : s'.work = s.work) :
    WorkersOf start m s' sys where
  mem := h.mem.trans hmem.symm
  pending := h.pending.trans hpending.symm
  storing := h.storing
  work i := by
    rw [hwork]
    exact h.work i
  untouched i hi := by
    rw [hwork] at hi
    rw [hmem]
    exact h.untouched i hi

theorem WorkersOf.update (h : WorkersOf start m s sys) {i : ι} {w : Work} {t : Thread}
    (hw : w.Is (start m i) t) (hstarted : w ≠ .idle) (reads : ι → List Nat) (k : Kernel) :
    WorkersOf start m { s.update i w with kernel := k }
      { sys with thread := Function.update sys.thread i t, reads := reads } where
  mem := h.mem
  pending := h.pending
  storing := h.storing
  work j := by
    by_cases hji : j = i
    · subst hji
      simpa [Workers.update] using hw
    · simpa [Workers.update, Function.update_of_ne hji] using h.work j
  untouched j hj := by
    by_cases hji : j = i
    · subst hji
      exact absurd (by simpa [Workers.update] using hj) hstarted
    · exact h.untouched j (by simpa [Workers.update, Function.update_of_ne hji] using hj)

theorem WorkersOf.move (h : WorkersOf start m s sys) {i : ι} {w : Work}
    (hw : w.Is (start m i) (sys.thread i)) (hstarted : w ≠ .idle) :
    WorkersOf start m (s.update i w) sys := by
  have hself := h.update hw hstarted sys.reads s.kernel
  rwa [Function.update_eq_self] at hself

/-- The threads do what the workers do, as long as the handler waits for all of them to look up
their start. -/
theorem WorkersOf.step (h : WorkersOf start m s sys) {a : WorkerAction ι}
    (hstop : a = .stop → ∀ i, s.work i ≠ .idle)
    (hstep : s.step infos numSubpaths start a = some s') :
    ∃ sys', run (System.step false infos numSubpaths) sys a.threadAction.toList = some sys' ∧
      WorkersOf start m s' sys' := by
  cases a with
  | prepare i =>
    obtain ⟨hidle, rfl⟩ := Workers.step_prepare hstep
    have hthread := h.work i
    rw [hidle] at hthread
    rw [h.untouched i hidle]
    exact ⟨sys, rfl, h.move hthread Work.noConfusion⟩
  | enter i =>
    obtain ⟨t, hready, rfl⟩ := Workers.step_enter hstep
    have hthread := h.work i
    rw [hready] at hthread
    exact ⟨sys, rfl, h.move hthread Work.noConfusion⟩
  | load i ticks =>
    obtain ⟨t, t', hlooping, hiteration, rfl⟩ := Workers.step_load hstep
    have hthread := h.work i
    rw [hlooping] at hthread
    rw [← h.mem, ← (show sys.thread i = t from hthread)] at hiteration
    have hload : sys.step false infos numSubpaths (.load i) = some { sys with
        thread := Function.update sys.thread i t'
        reads := Function.update sys.reads i (sys.reads i ++ [(sys.thread i).index]) } := by
      simp [System.step, h.storing i, hiteration]
    have hmatch : (Work.looping t').Is (start m i) t' := rfl
    exact ⟨_, run_cons.mpr ⟨_, hload, rfl⟩, h.update hmatch Work.noConfusion _ _⟩
  | leave i =>
    obtain ⟨t, hlooping, hindex, rfl⟩ := Workers.step_leave hstep
    have hthread : (s.work i).Is (start m i) (sys.thread i) := h.work i
    rw [hlooping] at hthread
    obtain rfl : sys.thread i = t := hthread
    exact ⟨sys, rfl, h.move ⟨rfl, rfl, hindex⟩ Work.noConfusion⟩
  | stop =>
    obtain ⟨info, rest, hpending, rfl⟩ := Workers.step_stop hstep
    have hstore : sys.step false infos numSubpaths .stop = some { sys with
        mem := sys.mem.store info.startIdx invalidIndex, pending := rest } := by
      simp only [System.step, h.pending, hpending]
    refine ⟨_, run_cons.mpr ⟨_, hstore, rfl⟩, ?_, rfl, h.storing, h.work, ?_⟩
    · exact congrArg (·.store info.startIdx invalidIndex) h.mem
    · exact fun i hi => absurd hi (hstop rfl i)

end WorkersOf

/-! ## The workers in a measurement -/

section Measured

variable {ι : Type*} [DecidableEq ι] {start : Memory → ι → Thread} {infos : List SubpathInfo}
  {numSubpaths : Nat} {s s' : Workers ι}

theorem accesscount_update {i j : ι} {w : Work} (h : w.accesscount = (s.work i).accesscount) :
    ((s.update i w).work j).accesscount = (s.work j).accesscount := by
  by_cases heq : j = i
  · subst heq
    simpa [Workers.update] using h
  · rw [Workers.work_update_of_ne heq]

/-- A measurement sees the iterations of the workers, and nothing else of what they do. -/
theorem workers_measured (hfresh : ∀ m i, (start m i).accesscount = 0) {t : Measured ι}
    {a : WorkerAction ι} (hdone : ∀ i, t.done i = (s.work i).accesscount)
    (hduring : ∀ i ticks, a = .load i ticks → t.stage = .during)
    (hstep : s.step infos numSubpaths start a = some s') :
    ∃ t', run Measured.step t (a.loaded.map Observation.work).toList = some t' ∧
      t'.stage = t.stage ∧ ∀ i, t'.done i = (s'.work i).accesscount := by
  cases a with
  | prepare i =>
    obtain ⟨hidle, rfl⟩ := Workers.step_prepare hstep
    refine ⟨t, rfl, rfl, fun j => (hdone j).trans ?_⟩
    exact (accesscount_update (by rw [hidle]; exact hfresh s.mem i)).symm
  | enter i =>
    obtain ⟨v, hready, rfl⟩ := Workers.step_enter hstep
    refine ⟨t, rfl, rfl, fun j => (hdone j).trans ?_⟩
    exact (accesscount_update (by rw [hready]; rfl)).symm
  | load i ticks =>
    obtain ⟨v, v', hlooping, hiteration, rfl⟩ := Workers.step_load hstep
    refine ⟨{ t with done := Function.update t.done i (t.done i + 1) },
      run_cons.mpr ⟨_, if_pos (hduring i ticks rfl), rfl⟩, rfl, fun j => ?_⟩
    by_cases heq : j = i
    · subst heq
      have hcount := hdone j
      rw [hlooping] at hcount
      simp [Workers.update, hcount, Work.accesscount, (Thread.iteration_eq_some hiteration).2.2]
    · simpa [Workers.update, Function.update_of_ne heq] using hdone j
  | leave i =>
    obtain ⟨v, hlooping, -, rfl⟩ := Workers.step_leave hstep
    refine ⟨t, rfl, rfl, fun j => (hdone j).trans ?_⟩
    exact (accesscount_update (by rw [hlooping]; rfl)).symm
  | stop =>
    obtain ⟨info, rest, -, rfl⟩ := Workers.step_stop hstep
    exact ⟨t, rfl, rfl, hdone⟩

end Measured

/-! ## The counters of a test -/

/-- `perf->start()`, if there are measured events; `none` when it fails, which ends the program. -/
def startPerf (perf : Option PerfCachetest) (k : Kernel) : Option Kernel :=
  match perf with
  | none => some k
  | some p => if (p.start k).1 then some (p.start k).2 else none

/-- `perf->stop()`, if there are measured events. -/
def stopPerf (perf : Option PerfCachetest) (arg : Nat) (k : Kernel) : Option Kernel :=
  match perf with
  | none => some k
  | some p => if (p.stop arg k).1 then some (p.stop arg k).2 else none

/-- The counters at a stage of the measurement: in the kernel `k` before it; then the leader has
counted `total`, and it goes on counting until the end. -/
def Counts (p : PerfCachetest) (k : Kernel) (stage : Stage) (kernel : Kernel) (total : Nat) :
    Prop :=
  match stage with
  | .before => kernel = k ∧ total = 0
  | .during => 0 < p.fdLeader ∧
    ∃ attr, kernel.events p.fdLeader = some ⟨attr, p.fdLeader, true, total⟩
  | .after => ∃ attr, kernel.events p.fdLeader = some ⟨attr, p.fdLeader, false, total⟩

section Counts

variable {p : PerfCachetest} {k kernel kernel' : Kernel} {total : Nat}

theorem Counts.start {os : PerfOpens} {k₀ : Kernel} {events : List Event}
    (hsetup : setupPerf os k₀ events = .ok (p, k)) (h : Counts p k .before kernel total)
    (hstart : startPerf (some p) kernel = some kernel') : Counts p k .during kernel' total := by
  obtain ⟨rfl, rfl⟩ := h
  simp only [startPerf, Option.ite_none_right_eq_some, Option.some.injEq] at hstart
  obtain ⟨hok, rfl⟩ := hstart
  have hpos : 0 < p.fdLeader := by
    by_contra hneg
    simp [PerfCachetest.start, hneg] at hok
  have hopened := PerfCachetest.opened_setupPerf hsetup
  have hne : events ≠ [] := by
    rintro rfl
    have hleader := hopened.leader
    rw [List.eq_nil_of_length_eq_zero hopened.length] at hleader
    simp [hleader] at hpos
  obtain ⟨attr, hevent⟩ := hopened.mem (hopened.leader_mem hne)
  refine ⟨hpos, attr, ?_⟩
  rw [PerfCachetest.start_event hevent]
  simp [hpos]

theorem Counts.elapse (h : Counts p k .during kernel total) (ticks : Int → Nat) :
    Counts p k .during (kernel.elapse ticks) (total + ticks p.fdLeader) := by
  obtain ⟨hpos, attr, hevent⟩ := h
  refine ⟨hpos, attr, ?_⟩
  simp [Kernel.elapse_leader hevent rfl]

theorem Counts.stop (h : Counts p k .during kernel total) {arg : Nat}
    (hstop : stopPerf (some p) arg kernel = some kernel') : Counts p k .after kernel' total := by
  obtain ⟨hpos, attr, hevent⟩ := h
  simp only [stopPerf, PerfCachetest.stop, gt_iff_lt, hpos, if_true, Option.some.injEq] at hstop
  refine ⟨attr, ?_⟩
  rw [← hstop, Kernel.ioctl_self hevent]
  rfl

theorem Counts.counting (h : Counts p k .during kernel total) :
    kernel.counting p.fdLeader = true := by
  obtain ⟨-, attr, hevent⟩ := h
  simp [Kernel.counting, Kernel.enabled, hevent]

theorem Counts.read (h : Counts p k .after kernel total) :
    kernel.read p.fdLeader = some total := by
  obtain ⟨attr, hevent⟩ := h
  rw [Kernel.read, hevent]
  rfl

theorem Counts.worker {ι : Type*} [DecidableEq ι] {stage : Stage} {start : Memory → ι → Thread}
    {infos : List SubpathInfo} {numSubpaths : Nat} {s s' : Workers ι} {a : WorkerAction ι}
    (h : Counts p k stage s.kernel total)
    (hduring : ∀ i ticks, a = .load i ticks → stage = .during)
    (hstep : s.step infos numSubpaths start a = some s') :
    Counts p k stage s'.kernel (total + a.ticks p.fdLeader) := by
  cases a with
  | prepare i =>
    obtain ⟨-, rfl⟩ := Workers.step_prepare hstep
    exact h
  | enter i =>
    obtain ⟨v, -, rfl⟩ := Workers.step_enter hstep
    exact h
  | load i ticks =>
    obtain ⟨v, v', -, -, rfl⟩ := Workers.step_load hstep
    obtain rfl := hduring i ticks rfl
    exact h.elapse ticks
  | leave i =>
    obtain ⟨v, -, -, rfl⟩ := Workers.step_leave hstep
    exact h
  | stop =>
    obtain ⟨info, rest, -, rfl⟩ := Workers.step_stop hstep
    exact h

end Counts

end Cachetest
