import Mathlib.Data.Int.Basic
import Mathlib.Logic.Function.Basic

/-!
# The performance counters of the kernel

`perf_event_open` and the requests on what it returns, as documented: an event opened with
`disabled` counts only after it has been enabled itself, a request with argument 0 acts on one event
and not on the rest of its group, and an event counts only while the leader of its group is enabled
too.
-/

namespace PerfEvents

/-- `struct perf_event_attr`. -/
structure PerfEventAttr where
  type : Nat
  config : BitVec 64
  disabled : Bool
  inherit : Bool
  inheritStat : Bool
  excludeKernel : Bool
  excludeHv : Bool
  deriving DecidableEq, Repr

/-- An open event. -/
structure PerfEvent where
  attr : PerfEventAttr
  /-- The descriptor of the leader of its group. -/
  leader : Int
  enabled : Bool
  count : Nat
  deriving DecidableEq, Repr

/-- What the kernel knows: the open events by their descriptors. -/
structure Kernel where
  events : Int → Option PerfEvent

/-- The requests of `ioctl`. -/
inductive Request where
  | reset
  | enable
  | disable
  deriving DecidableEq, Repr

def PerfEvent.request (e : PerfEvent) : Request → PerfEvent
  | .reset => { e with count := 0 }
  | .enable => { e with enabled := true }
  | .disable => { e with enabled := false }

namespace Kernel

/-- An event opened at descriptor `fd` in the group of `groupFd`, or in a group of its own. -/
def opened (k : Kernel) (fd : Int) (attr : PerfEventAttr) (groupFd : Int) : Kernel where
  events := Function.update k.events fd (some {
    attr := attr
    leader := if groupFd < 0 then fd else groupFd
    enabled := !attr.disabled
    count := 0 })

/-- `ioctl(fd, request, arg)`. Bit 0 of the argument is `PERF_IOC_FLAG_GROUP`. -/
def ioctl (k : Kernel) (fd : Int) (request : Request) (arg : Nat) : Kernel :=
  match k.events fd with
  | none => k
  | some e =>
    if arg.testBit 0 then
      ⟨fun fd' => (k.events fd').map fun e' =>
        if e'.leader = e.leader then e'.request request else e'⟩
    else ⟨Function.update k.events fd (some (e.request request))⟩

def enabled (k : Kernel) (fd : Int) : Bool := (k.events fd).any (·.enabled)

/-- Whether the event at `fd` is counting. -/
def counting (k : Kernel) (fd : Int) : Bool :=
  (k.events fd).any fun e => e.enabled && k.enabled e.leader

/-- What is counted between two calls. -/
def elapse (k : Kernel) (ticks : Int → Nat) : Kernel where
  events fd := (k.events fd).map fun e =>
    if k.counting fd then { e with count := e.count + ticks fd } else e

/-- `read` of a counter; `none` for an error. -/
def read (k : Kernel) (fd : Int) : Option Nat := (k.events fd).map (·.count)

/-! ## What a request changes -/

variable {k : Kernel} {fd fd' : Int} {e : PerfEvent}

@[simp] theorem opened_self (k : Kernel) (fd : Int) (attr : PerfEventAttr) (groupFd : Int) :
    (k.opened fd attr groupFd).events fd = some {
      attr := attr
      leader := if groupFd < 0 then fd else groupFd
      enabled := !attr.disabled
      count := 0 } :=
  Function.update_self ..

theorem opened_of_ne (h : fd' ≠ fd) (attr : PerfEventAttr) (groupFd : Int) :
    (k.opened fd attr groupFd).events fd' = k.events fd' :=
  Function.update_of_ne h ..

theorem ioctl_self (h : k.events fd = some e) (request : Request) (arg : Nat) :
    (k.ioctl fd request arg).events fd = some (e.request request) := by
  unfold ioctl
  rw [h]
  by_cases harg : arg.testBit 0 = true
  · simp [harg, h]
  · simp [harg]

theorem ioctl_of_ne (hne : fd' ≠ fd) (request : Request) :
    (k.ioctl fd request 0).events fd' = k.events fd' := by
  unfold ioctl
  cases h : k.events fd with
  | none => rfl
  | some e =>
    simp only [Nat.zero_testBit, Bool.false_eq_true, if_false]
    exact Function.update_of_ne hne ..

/-- Whatever the argument, an event is left alone or gets the request as a whole. -/
theorem ioctl_cases (k : Kernel) (fd : Int) (request : Request) (arg : Nat) (fd' : Int) :
    (k.ioctl fd request arg).events fd' = k.events fd' ∨
      (k.ioctl fd request arg).events fd' = (k.events fd').map fun e => e.request request := by
  unfold ioctl
  cases h : k.events fd with
  | none => exact Or.inl rfl
  | some e =>
    by_cases harg : arg.testBit 0 = true
    · simp only [harg, if_true]
      cases h' : k.events fd' with
      | none => exact Or.inl rfl
      | some e' => by_cases heq : e'.leader = e.leader <;> simp [heq]
    · simp only [harg, Bool.false_eq_true, if_false]
      by_cases hfd : fd' = fd
      · simp [hfd, h]
      · exact Or.inl (Function.update_of_ne hfd ..)

theorem enabled_of_some (h : k.events fd = some e) : k.enabled fd = e.enabled := by
  simp [enabled, h]

theorem counting_eq_false (h : k.events fd = some e) (hleader : k.enabled e.leader = false) :
    k.counting fd = false := by
  simp [counting, h, hleader]

/-- An event that leads its own group counts while it is enabled. -/
theorem elapse_leader (h : k.events fd = some e) (hleader : e.leader = fd) (ticks : Int → Nat) :
    (k.elapse ticks).events fd =
      some { e with count := e.count + if e.enabled then ticks fd else 0 } := by
  have hcounting : k.counting fd = e.enabled := by
    simp [counting, h, hleader, enabled_of_some h]
  obtain ⟨attr, leader, enabled, count⟩ := e
  cases enabled <;> simp_all [elapse]

theorem elapse_events (h : k.events fd = some e) (ticks : Int → Nat) :
    ∃ count, (k.elapse ticks).events fd = some { e with count := count } := by
  unfold elapse
  simp only [h, Option.map_some]
  split
  · exact ⟨_, rfl⟩
  · exact ⟨e.count, rfl⟩

end Kernel

end PerfEvents
