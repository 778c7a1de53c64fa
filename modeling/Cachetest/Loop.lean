import Mathlib.Logic.Function.Basic
import Cachetest.Runs
import Cachetest.SplitPath

/-!
# The pointer-chasing loops

`loop` and `migratingLoop` follow the path until they read `-1`. The test is ended by
`alarm_handler`, which stores `-1` at the start of every subpath while the loops run. A `System` is
any number of such threads over one memory, with the stores the handler has still to make; single
loads and stores interleave in any order.

The flag `writeback` stands for the build with `WRITEBACK`, where every load is followed by a store
of `dummy`, a zero, in the word after the element.
-/

namespace Cachetest

open ByteMemory Circuit Runs

/-! ## The loops -/

/-- The variables of `loop`. The counters are natural numbers: a run does not get to `2 ^ 64`
iterations. -/
structure LoopVars where
  index : Nat
  accesscount : Nat
  deriving DecidableEq, Repr

/-- The variables of `migratingLoop`. -/
structure MigratingVars where
  index : Nat
  accesscount : Nat
  subpathIdx : Nat
  numSubpathSteps : Nat
  curStep : Nat
  deriving DecidableEq, Repr

/-- One iteration of `loop`, without the write-back; `none` when it leaves the loop. -/
def loopIteration (m : Memory) (v : LoopVars) : Option LoopVars :=
  if v.index = invalidIndex then none
  else
    let next := m.load v.index
    some { index := next, accesscount := v.accesscount + 1 }

/-- `subpathInfo[i].length`. -/
def subpathLength (infos : List SubpathInfo) (i : Nat) : Nat :=
  (infos[i]?.map fun info => info.length).getD 0

/-- One iteration of `migratingLoop`, without the write-back, and the number of the cluster it
passes to `fibre_migrate`, if it calls it; `none` when it leaves the loop. -/
def migratingLoopIteration (infos : List SubpathInfo) (numSubpaths : Nat) (m : Memory)
    (v : MigratingVars) : Option (MigratingVars × Option Nat) :=
  if v.index = invalidIndex then none
  else
    let next := m.load v.index
    let accesscount := v.accesscount + 1
    let curStep := v.curStep + 1
    if curStep ≥ v.numSubpathSteps then
      let subpathIdx := if v.subpathIdx + 1 ≥ numSubpaths then 0 else v.subpathIdx + 1
      some ({
        index := next
        accesscount := accesscount
        subpathIdx := subpathIdx
        numSubpathSteps := subpathLength infos subpathIdx
        curStep := 0 }, some subpathIdx)
    else some ({ v with index := next, accesscount := accesscount, curStep := curStep }, none)

/-- The start index `threadTest` and `fibreCallback` look up: `stepsOffset` loads from the start of
the subpath. -/
def startIndex (m : Memory) (info : SubpathInfo) (stepsOffset : Nat) : Nat :=
  m.load^[stepsOffset] info.startIdx

/-- The variables with which `loop` starts. -/
def LoopVars.start (startIdx : Nat) : LoopVars where
  index := startIdx
  accesscount := 0

/-- The variables with which `migratingLoop` starts. -/
def MigratingVars.start (infos : List SubpathInfo) (subpathIdx startIdx stepsOffset : Nat) :
    MigratingVars where
  index := startIdx
  accesscount := 0
  subpathIdx := subpathIdx
  numSubpathSteps := subpathLength infos subpathIdx
  curStep := stepsOffset

/-! ## All threads and the handler -/

/-- A thread or fibre in one of the two loops. A migrating fibre is on a cluster, which it changes
by calling `fibre_migrate`. -/
inductive Thread where
  | loop (v : LoopVars)
  | migratingLoop (v : MigratingVars) (cluster : Nat)
  deriving DecidableEq, Repr

namespace Thread

def index : Thread → Nat
  | loop v => v.index
  | migratingLoop v _ => v.index

def accesscount : Thread → Nat
  | loop v => v.accesscount
  | migratingLoop v _ => v.accesscount

/-- One iteration of the loop the thread is in. -/
def iteration (infos : List SubpathInfo) (numSubpaths : Nat) (m : Memory) :
    Thread → Option Thread
  | loop v => (loopIteration m v).map loop
  | migratingLoop v cluster =>
    (migratingLoopIteration infos numSubpaths m v).map fun (v, migrateTo) =>
      migratingLoop v (migrateTo.getD cluster)

end Thread

/-- All threads over one memory, and the rest of `alarm_handler`'s loop over `subpathInfo`. -/
structure System (ι : Type*) where
  mem : Memory
  pending : List SubpathInfo
  thread : ι → Thread
  /-- The element whose load a write-back has to follow before the thread goes on. -/
  storing : ι → Option Nat
  /-- Not in the program: the indices each thread has loaded from. -/
  reads : ι → List Nat

/-- What happens next: the load of a thread's iteration, its write-back, or the handler's store. -/
inductive Action (ι : Type*) where
  | load (i : ι)
  | store (i : ι)
  | stop
  deriving DecidableEq

variable {ι : Type*} [DecidableEq ι]

/-- What an action does. A thread that has left its loop makes no more loads. -/
def System.step (writeback : Bool) (infos : List SubpathInfo) (numSubpaths : Nat) (s : System ι) :
    Action ι → Option (System ι)
  | .load i =>
    if (s.storing i).isSome then none
    else
      ((s.thread i).iteration infos numSubpaths s.mem).map fun t =>
        { s with
          thread := Function.update s.thread i t
          storing :=
            if writeback then Function.update s.storing i (some (s.thread i).index) else s.storing
          reads := Function.update s.reads i (s.reads i ++ [(s.thread i).index]) }
  | .store i =>
    (s.storing i).map fun index =>
      { s with
        mem := s.mem.store (index + 4) 0
        storing := Function.update s.storing i none }
  | .stop =>
    match s.pending with
    | [] => none
    | info :: rest =>
      some { s with mem := s.mem.store info.startIdx invalidIndex, pending := rest }

/-- The threads start, the alarm has not gone off. -/
def System.initial (m : Memory) (infos : List SubpathInfo) (thread : ι → Thread) : System ι where
  mem := m
  pending := infos
  thread := thread
  storing _ := none
  reads _ := []

/-! ## What an action can do -/

theorem Thread.iteration_eq_some {infos : List SubpathInfo} {numSubpaths : Nat} {m : Memory}
    {t t' : Thread} (h : t.iteration infos numSubpaths m = some t') :
    t.index ≠ invalidIndex ∧ t'.index = m.load t.index ∧ t'.accesscount = t.accesscount + 1 := by
  cases t with
  | loop v =>
    simp only [iteration, loopIteration] at h
    split at h
    case isTrue => simp at h
    case isFalse hindex =>
      obtain rfl := Option.some.inj h
      exact ⟨hindex, rfl, rfl⟩
  | migratingLoop v cluster =>
    simp only [iteration, migratingLoopIteration] at h
    split at h
    case isTrue => simp at h
    case isFalse hindex =>
      split at h
      all_goals
        obtain rfl := Option.some.inj h
        exact ⟨hindex, rfl, rfl⟩

/-- What an iteration does only depends on the word it loads. -/
theorem Thread.iteration_congr {infos : List SubpathInfo} {numSubpaths : Nat} {m m' : Memory}
    {t : Thread} (h : m.load t.index = m'.load t.index) :
    t.iteration infos numSubpaths m = t.iteration infos numSubpaths m' := by
  cases t with
  | loop v =>
    have hload : m.load v.index = m'.load v.index := h
    simp only [iteration, loopIteration, hload]
  | migratingLoop v cluster =>
    have hload : m.load v.index = m'.load v.index := h
    simp only [iteration, migratingLoopIteration, hload]

theorem Thread.iteration_isSome (infos : List SubpathInfo) (numSubpaths : Nat) (m : Memory)
    {t : Thread} (h : t.index ≠ invalidIndex) :
    (t.iteration infos numSubpaths m).isSome := by
  cases t with
  | loop v =>
    have hindex : v.index ≠ invalidIndex := h
    simp [iteration, loopIteration, hindex]
  | migratingLoop v cluster =>
    have hindex : v.index ≠ invalidIndex := h
    simp only [iteration, migratingLoopIteration, hindex, if_false, Option.isSome_map]
    split <;> rfl

section Step

variable {writeback : Bool} {infos : List SubpathInfo} {numSubpaths : Nat} {s s' : System ι}

theorem System.step_load {i : ι} (h : s.step writeback infos numSubpaths (.load i) = some s') :
    s.storing i = none ∧ ∃ t, (s.thread i).iteration infos numSubpaths s.mem = some t ∧
      s' = { s with
        thread := Function.update s.thread i t
        storing :=
          if writeback then Function.update s.storing i (some (s.thread i).index) else s.storing
        reads := Function.update s.reads i (s.reads i ++ [(s.thread i).index]) } := by
  simp only [step] at h
  split at h
  case isTrue => simp at h
  case isFalse hstoring =>
    obtain ⟨t, ht, rfl⟩ := Option.map_eq_some_iff.mp h
    exact ⟨by simpa using hstoring, t, ht, rfl⟩

theorem System.step_store {i : ι} (h : s.step writeback infos numSubpaths (.store i) = some s') :
    ∃ index, s.storing i = some index ∧
      s' = { s with
        mem := s.mem.store (index + 4) 0
        storing := Function.update s.storing i none } := by
  obtain ⟨index, hindex, rfl⟩ := Option.map_eq_some_iff.mp h
  exact ⟨index, hindex, rfl⟩

theorem System.step_stop (h : s.step writeback infos numSubpaths .stop = some s') :
    ∃ info rest, s.pending = info :: rest ∧
      s' = { s with mem := s.mem.store info.startIdx invalidIndex, pending := rest } := by
  simp only [step] at h
  split at h
  case h_1 => simp at h
  case h_2 info rest hpending => exact ⟨info, rest, hpending, (Option.some.inj h).symm⟩

theorem System.exists_step_load (writeback : Bool) (infos : List SubpathInfo) (numSubpaths : Nat)
    {s : System ι} {i : ι} (hstoring : s.storing i = none)
    (hindex : (s.thread i).index ≠ invalidIndex) :
    ∃ t, s.step writeback infos numSubpaths (.load i) = some { s with
        thread := Function.update s.thread i t
        storing :=
          if writeback then Function.update s.storing i (some (s.thread i).index) else s.storing
        reads := Function.update s.reads i (s.reads i ++ [(s.thread i).index]) } := by
  obtain ⟨t, ht⟩ := Option.isSome_iff_exists.mp
    (Thread.iteration_isSome infos numSubpaths s.mem hindex)
  exact ⟨t, by simp [step, hstoring, ht]⟩

/-- The handler makes its stores one after the other. -/
theorem System.run_stops (s : System ι) {done rest : List SubpathInfo}
    (hpending : s.pending = done ++ rest) :
    ∃ m, run (System.step writeback infos numSubpaths) s (List.replicate done.length .stop) =
      some { s with mem := m, pending := rest } := by
  induction done generalizing s with
  | nil => exact ⟨s.mem, by simp [← show s.pending = rest from hpending]⟩
  | cons info done ih =>
    obtain ⟨m, hrun⟩ := ih
      { s with mem := s.mem.store info.startIdx invalidIndex, pending := done ++ rest } rfl
    refine ⟨m, ?_⟩
    rw [List.length_cons, List.replicate_succ, run_cons]
    exact ⟨_, by simp [step, hpending], hrun⟩

end Step

end Cachetest
