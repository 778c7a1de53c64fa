import Mathlib.Data.List.Nodup
import Cachetest.Machine
import Cachetest.PerfEvents
import Cachetest.Text

/-!
# The performance counters of an experiment

`Perf_Cachetest.cc` on x86-64 and `Setup_perf`. Every event after the first joins the group of the
first one and is opened disabled, but `start` enables the first one only. So a list of events is
measured as it should be only when it is a single one.
-/

namespace Cachetest

open PerfEvents

/-! ## Events -/

/-- `CUSTOM_PREFIX`, `L1D_HIT_TEST_NAME` and `L1D_MISS_TEST_NAME`. -/
def customPrefix : Text := "CUSTOM".toList

def l1dHitTestName : Text := "l1d_hit".toList

def l1dMissTestName : Text := "l1d_miss".toList

/-- `Event`. -/
structure Event where
  eventid : BitVec 32
  unitmask : BitVec 32
  stringEvent : Text
  deriving DecidableEq, Repr

/-- `PERF_TYPE_HW_CACHE` and `PERF_TYPE_RAW`. -/
def perfTypeHwCache : Nat := 3

def perfTypeRaw : Nat := 4

/-- `PERF_COUNT_HW_CACHE_L1D`, `_OP_READ`, `_RESULT_ACCESS` and `_RESULT_MISS`. -/
def perfCountHwCacheL1d : BitVec 64 := 0

def perfCountHwCacheOpRead : BitVec 64 := 0

def perfCountHwCacheResultAccess : BitVec 64 := 0

def perfCountHwCacheResultMiss : BitVec 64 := 1

/-- The attributes `addEvent` starts from. -/
def eventAttr (type : Nat) (config : BitVec 64) : PerfEventAttr where
  type := type
  config := config
  disabled := true
  inherit := true
  inheritStat := true
  excludeKernel := true
  excludeHv := true

/-- The code of a raw event. -/
def rawConfig (eventId unitMask : BitVec 32) : BitVec 64 :=
  1 <<< 16 ||| ((eventId.zeroExtend 64 <<< 24) &&& 0xF00000000) |||
    (eventId &&& 0xFF).zeroExtend 64 ||| ((unitMask <<< 8) &&& 0xFF00).zeroExtend 64

/-- What `addEvent` asks the kernel for. -/
def Event.attr (event : Event) : Outcome PerfEventAttr :=
  if event.eventid = -1 ∧ event.unitmask = -1 ∧
      event.stringEvent.take customPrefix.length = customPrefix then
    let testName := event.stringEvent.drop customPrefix.length
    if testName = l1dHitTestName then
      .ok (eventAttr perfTypeHwCache (perfCountHwCacheL1d ||| perfCountHwCacheOpRead <<< 8 |||
        perfCountHwCacheResultAccess <<< 16))
    else if testName = l1dMissTestName then
      .ok (eventAttr perfTypeHwCache (perfCountHwCacheL1d ||| perfCountHwCacheOpRead <<< 8 |||
        perfCountHwCacheResultMiss <<< 16))
    else .error (.exited "You messed up" (-1))
  else .ok (eventAttr perfTypeRaw (rawConfig event.eventid event.unitmask))

/-! ## The class -/

/-- The members of `Perf_Cachetest`. -/
structure PerfCachetest where
  fdLeader : Int
  fds : List Int
  deriving DecidableEq, Repr

/-- The descriptors `perf_event_open` returns. A new one is not in use; an error is negative. -/
structure PerfOpens where
  openFd : Kernel → PerfEventAttr → Int → Int
  unused : ∀ k attr groupFd, 0 ≤ openFd k attr groupFd →
    k.events (openFd k attr groupFd) = none

namespace PerfCachetest

/-- The constructor. -/
def initial : PerfCachetest := ⟨-1, []⟩

/-- `addEvent`. It returns `true` whenever it returns. -/
def addEvent (os : PerfOpens) (perf : PerfCachetest) (k : Kernel) (event : Event) :
    Outcome (PerfCachetest × Kernel) := do
  let attr ← event.attr
  let fd := os.openFd k attr perf.fdLeader
  if fd < 0 then .error (.exited "Opening perf" 1)
  else
    return (⟨if perf.fdLeader < 0 then fd else perf.fdLeader, perf.fds ++ [fd]⟩,
      k.opened fd attr perf.fdLeader)

/-- `start`. -/
def start (perf : PerfCachetest) (k : Kernel) : Bool × Kernel :=
  if perf.fdLeader > 0 then
    (true, (k.ioctl perf.fdLeader .reset 0).ioctl perf.fdLeader .enable 0)
  else (false, k)

/-- `stop`. It passes no argument, so the kernel finds any value in its place. -/
def stop (perf : PerfCachetest) (arg : Nat) (k : Kernel) : Bool × Kernel :=
  if perf.fdLeader > 0 then (true, k.ioctl perf.fdLeader .disable arg) else (false, k)

/-- `read_results`: the values are appended to `results`, up to the first one that cannot be
read. -/
def readResults (k : Kernel) : List Int → List Nat → Bool × List Nat
  | [], results => (true, results)
  | fd :: fds, results =>
    match k.read fd with
    | none => (false, results)
    | some data => readResults k fds (results ++ [data])

end PerfCachetest

/-- `Setup_perf`, with the events of `-e`. -/
def setupPerf (os : PerfOpens) (k : Kernel) (measuredEvents : List Event) :
    Outcome (PerfCachetest × Kernel) :=
  measuredEvents.foldlM (fun s event => s.1.addEvent os s.2 event) (.initial, k)

/-! ## What `Setup_perf` leaves behind -/

theorem Event.disabled_attr {event : Event} {attr : PerfEventAttr} (h : event.attr = .ok attr) :
    attr.disabled = true := by
  unfold Event.attr at h
  dsimp only at h
  split_ifs at h <;> cases h <;> rfl

namespace PerfCachetest

variable {os : PerfOpens} {k k' : Kernel} {perf perf' : PerfCachetest} {events : List Event}

/-- One descriptor per event, in order; all events are disabled, in the group of the first one, and
have not counted anything. -/
structure Opened (k : Kernel) (perf : PerfCachetest) (events : List Event) : Prop where
  length : perf.fds.length = events.length
  nodup : perf.fds.Nodup
  nonneg : ∀ fd ∈ perf.fds, 0 ≤ fd
  leader : perf.fdLeader = perf.fds.headD (-1)
  event : ∀ (i : Nat) (fd : Int) (event : Event), perf.fds[i]? = some fd →
    events[i]? = some event →
      ∃ attr, event.attr = .ok attr ∧ k.events fd = some ⟨attr, perf.fdLeader, false, 0⟩

theorem opened_initial (k : Kernel) : Opened k initial [] :=
  ⟨rfl, List.nodup_nil, by simp [initial], rfl, by simp [initial]⟩

theorem Opened.mem (h : Opened k perf events) {fd : Int} (hfd : fd ∈ perf.fds) :
    ∃ attr, k.events fd = some ⟨attr, perf.fdLeader, false, 0⟩ := by
  obtain ⟨i, hi⟩ := List.mem_iff_getElem?.mp hfd
  have hlt : i < events.length := h.length ▸ (List.getElem?_eq_some_iff.mp hi).1
  obtain ⟨attr, -, hevent⟩ := h.event i fd _ hi (List.getElem?_eq_getElem hlt)
  exact ⟨attr, hevent⟩

theorem Opened.leader_mem (h : Opened k perf events) (hne : events ≠ []) :
    perf.fdLeader ∈ perf.fds := by
  cases hfds : perf.fds with
  | nil =>
    have hlength := h.length
    rw [hfds, List.length_nil] at hlength
    exact absurd (List.length_eq_zero_iff.mp hlength.symm) hne
  | cons fd fds => rw [h.leader, hfds]; exact List.mem_cons_self

theorem addEvent_eq_ok {event : Event} (h : perf.addEvent os k event = .ok (perf', k')) :
    ∃ attr fd, event.attr = .ok attr ∧ fd = os.openFd k attr perf.fdLeader ∧ 0 ≤ fd ∧
      perf' = ⟨if perf.fdLeader < 0 then fd else perf.fdLeader, perf.fds ++ [fd]⟩ ∧
        k' = k.opened fd attr perf.fdLeader := by
  obtain ⟨attr, hattr, hopen⟩ := bind_eq_ok.mp h
  refine ⟨attr, _, hattr, rfl, ?_⟩
  dsimp only at hopen
  split at hopen
  case isTrue => cases hopen
  case isFalse hfd =>
    obtain ⟨rfl, rfl⟩ := Prod.mk.inj (Except.ok.inj hopen)
    exact ⟨not_lt.mp hfd, rfl, rfl⟩

theorem Opened.addEvent {event : Event} (h : Opened k perf events)
    (hadd : perf.addEvent os k event = .ok (perf', k')) :
    Opened k' perf' (events ++ [event]) := by
  obtain ⟨attr, fd, hattr, hfd, hpos, rfl, rfl⟩ := addEvent_eq_ok hadd
  have hnew : fd ∉ perf.fds := by
    intro hmem
    obtain ⟨attr', hevent⟩ := h.mem hmem
    have hunused := os.unused k attr perf.fdLeader (hfd ▸ hpos)
    rw [← hfd, hevent] at hunused
    cases hunused
  have hdisabled := Event.disabled_attr hattr
  -- With no event yet the new one leads its own group, and becomes the leader.
  have hleader : (if perf.fdLeader < 0 then fd else perf.fdLeader) = (perf.fds ++ [fd]).headD (-1) ∧
      ∀ fd' ∈ perf.fds, (if perf.fdLeader < 0 then fd else perf.fdLeader) = perf.fdLeader := by
    have hhead := h.leader
    cases hfds : perf.fds with
    | nil =>
      rw [hfds] at hhead
      simp [hhead]
    | cons fd' fds =>
      have hnonneg := h.nonneg fd' (hfds ▸ List.mem_cons_self)
      rw [hfds] at hhead
      have hge : ¬perf.fdLeader < 0 := by
        rw [hhead]
        exact not_lt.mpr hnonneg
      rw [if_neg hge]
      exact ⟨hhead, fun _ _ => rfl⟩
  constructor
  case length => simp [h.length]
  case nodup => exact List.nodup_append.mpr ⟨h.nodup, List.nodup_singleton _, by
    rintro a ha b hb rfl
    exact hnew (List.mem_singleton.mp hb ▸ ha)⟩
  case nonneg =>
    intro fd' hfd'
    rcases List.mem_append.mp hfd' with hold | hsame
    · exact h.nonneg fd' hold
    · exact List.mem_singleton.mp hsame ▸ hpos
  case leader => exact hleader.1
  case event =>
    intro i fd' event' hi hevent'
    by_cases hlt : i < perf.fds.length
    · rw [List.getElem?_append_left hlt] at hi
      rw [List.getElem?_append_left (h.length ▸ hlt)] at hevent'
      obtain ⟨attr', hattr', hkernel⟩ := h.event i fd' event' hi hevent'
      have hmem := List.mem_of_getElem? hi
      have hne : fd' ≠ fd := fun heq => hnew (heq ▸ hmem)
      refine ⟨attr', hattr', ?_⟩
      rw [Kernel.opened_of_ne hne, hkernel]
      simp only [hleader.2 fd' hmem]
    · rw [List.getElem?_append_right (by omega), List.getElem?_singleton] at hi
      rw [List.getElem?_append_right (by rw [← h.length]; omega), List.getElem?_singleton,
        ← h.length] at hevent'
      by_cases hzero : i - perf.fds.length = 0
      · rw [if_pos hzero, Option.some.injEq] at hi hevent'
        subst hi hevent'
        exact ⟨attr, hattr, by rw [Kernel.opened_self, hdisabled]; rfl⟩
      · rw [if_neg hzero] at hi
        cases hi

theorem opened_setupPerf (h : setupPerf os k events = .ok (perf', k')) :
    Opened k' perf' events := by
  suffices hloop : ∀ (rest done : List Event) (perf : PerfCachetest) (k : Kernel),
      Opened k perf done →
        rest.foldlM (fun s event => s.1.addEvent os s.2 event) (perf, k) = .ok (perf', k') →
          Opened k' perf' (done ++ rest) by
    exact hloop events [] initial k (opened_initial k) h
  intro rest
  induction rest with
  | nil =>
    intro done perf k hopened hrun
    obtain ⟨rfl, rfl⟩ := Prod.mk.inj (Except.ok.inj hrun)
    rwa [List.append_nil]
  | cons event rest ih =>
    intro done perf k hopened hrun
    rw [List.foldlM_cons] at hrun
    obtain ⟨⟨perf₁, k₁⟩, hadd, hrest⟩ := bind_eq_ok.mp hrun
    have hopened' := ih (done ++ [event]) perf₁ k₁ (hopened.addEvent hadd) hrest
    rwa [List.append_assoc, List.singleton_append] at hopened'

/-! ## Measuring -/

/-- The kernel when the results are read: `start`, some time, and `stop`. -/
def measured (perf : PerfCachetest) (ticks : Int → Nat) (arg : Nat) (k : Kernel) : Kernel :=
  (perf.stop arg ((perf.start k).2.elapse ticks)).2

/-- What the results of a list of events have to be: after `start` all events are counting from
zero, after `stop` none is, and there is one value per event, in the order of the list. -/
structure Measures (k : Kernel) (perf : PerfCachetest) (events : List Event) : Prop where
  starts : ∀ fd ∈ perf.fds,
    (perf.start k).2.counting fd = true ∧ (perf.start k).2.read fd = some 0
  stops : ∀ ticks arg, ∀ fd ∈ perf.fds, (perf.measured ticks arg k).counting fd = false
  reads : ∀ ticks arg, ∃ results,
    readResults (perf.measured ticks arg k) perf.fds [] = (true, results) ∧
      results.length = events.length ∧
        ∀ (i : Nat) (event : Event) (value : Nat), events[i]? = some event →
          results[i]? = some value → ∃ e, event.attr = .ok e.attr ∧ e.count = value ∧
            ∃ fd, perf.fds[i]? = some fd ∧ (perf.measured ticks arg k).events fd = some e

theorem start_event {fd : Int} {attr : PerfEventAttr}
    (hevent : k.events fd = some ⟨attr, perf.fdLeader, false, 0⟩) :
    (perf.start k).2.events fd =
      some ⟨attr, perf.fdLeader, decide (0 < perf.fdLeader ∧ fd = perf.fdLeader), 0⟩ := by
  unfold start
  by_cases hpos : perf.fdLeader > 0
  · rw [if_pos hpos]
    by_cases heq : fd = perf.fdLeader
    · subst heq
      have hreset := Kernel.ioctl_self hevent .reset 0
      rw [Kernel.ioctl_self hreset .enable 0]
      simp [PerfEvent.request, hpos]
    · rw [Kernel.ioctl_of_ne heq, Kernel.ioctl_of_ne heq, hevent]
      simp [heq]
  · rw [if_neg hpos, hevent]
    simp [hpos]

/-- After `stop` no event is enabled, whatever the argument is taken to be. -/
theorem measured_event {fd : Int} {attr : PerfEventAttr}
    (hevent : k.events fd = some ⟨attr, perf.fdLeader, false, 0⟩) (ticks : Int → Nat) (arg : Nat) :
    ∃ count, (perf.measured ticks arg k).events fd = some ⟨attr, perf.fdLeader, false, count⟩ := by
  obtain ⟨count, helapsed⟩ := Kernel.elapse_events (start_event hevent) ticks
  refine ⟨count, ?_⟩
  unfold measured stop
  by_cases hpos : perf.fdLeader > 0
  · rw [if_pos hpos]
    by_cases heq : fd = perf.fdLeader
    · subst heq
      exact Kernel.ioctl_self helapsed .disable arg
    · have hdisabled : decide (0 < perf.fdLeader ∧ fd = perf.fdLeader) = false := by simp [heq]
      rw [hdisabled] at helapsed
      rcases Kernel.ioctl_cases ((perf.start k).2.elapse ticks) perf.fdLeader .disable arg fd with
        hsame | hrequest
      · exact hsame.trans helapsed
      · rw [hrequest, helapsed]
        rfl
  · rw [if_neg hpos, helapsed]
    simp [hpos]

theorem readResults_eq {fds : List Int} {value : Int → Nat}
    (h : ∀ fd ∈ fds, k.read fd = some (value fd)) (results : List Nat) :
    readResults k fds results = (true, results ++ fds.map value) := by
  induction fds generalizing results with
  | nil => simp [readResults]
  | cons fd fds ih =>
    rw [readResults, h fd List.mem_cons_self]
    simp only
    rw [ih fun fd' hfd' => h fd' (List.mem_cons_of_mem _ hfd')]
    simp

/-- After `stop` nothing counts, for any list of events. -/
theorem Opened.stops (h : Opened k perf events) (hne : events ≠ []) (ticks : Int → Nat) (arg : Nat)
    {fd : Int} (hfd : fd ∈ perf.fds) : (perf.measured ticks arg k).counting fd = false := by
  obtain ⟨attr, hevent⟩ := h.mem hfd
  obtain ⟨count, hmeasured⟩ := measured_event hevent ticks arg
  obtain ⟨attr', hleader⟩ := h.mem (h.leader_mem hne)
  obtain ⟨count', hmeasured'⟩ := measured_event hleader ticks arg
  exact Kernel.counting_eq_false hmeasured (Kernel.enabled_of_some hmeasured')

/-- The results are the counts of the events, in order, for any list of events. -/
theorem Opened.reads (h : Opened k perf events) (ticks : Int → Nat) (arg : Nat) :
    ∃ results, readResults (perf.measured ticks arg k) perf.fds [] = (true, results) ∧
      results.length = events.length ∧
        ∀ (i : Nat) (event : Event) (value : Nat), events[i]? = some event →
          results[i]? = some value → ∃ e, event.attr = .ok e.attr ∧ e.count = value ∧
            ∃ fd, perf.fds[i]? = some fd ∧ (perf.measured ticks arg k).events fd = some e := by
  have hread : ∀ fd ∈ perf.fds, (perf.measured ticks arg k).read fd =
      some (((perf.measured ticks arg k).read fd).getD 0) := by
    intro fd hfd
    obtain ⟨attr, hevent⟩ := h.mem hfd
    obtain ⟨count, hmeasured⟩ := measured_event hevent ticks arg
    simp [Kernel.read, hmeasured]
  refine ⟨_, readResults_eq hread [], by simp [h.length], fun i event value hi hvalue => ?_⟩
  rw [List.nil_append, List.getElem?_map] at hvalue
  obtain ⟨fd, hfd, rfl⟩ := Option.map_eq_some_iff.mp hvalue
  obtain ⟨attr, hattr, hevent⟩ := h.event i fd event hfd hi
  obtain ⟨count, hmeasured⟩ := measured_event hevent ticks arg
  exact ⟨_, hattr, by simp [Kernel.read, hmeasured], fd, hfd, hmeasured⟩

/-- After `start` the leader counts, unless its descriptor is 0, and no other event. -/
theorem Opened.counting_start_iff (h : Opened k perf events) (hne : events ≠ []) {fd : Int}
    (hfd : fd ∈ perf.fds) :
    (perf.start k).2.counting fd = true ↔ fd = perf.fdLeader ∧ perf.fdLeader ≠ 0 := by
  obtain ⟨attr, hevent⟩ := h.mem hfd
  obtain ⟨attr', hleader⟩ := h.mem (h.leader_mem hne)
  have hnonneg := h.nonneg _ (h.leader_mem hne)
  rw [Kernel.counting, start_event hevent]
  simp only [Option.any_some, Kernel.enabled_of_some (start_event hleader), and_true,
    Bool.and_eq_true, decide_eq_true_eq]
  constructor
  · rintro ⟨⟨hpos, heq⟩, -⟩
    exact ⟨heq, hpos.ne'⟩
  · rintro ⟨heq, hzero⟩
    have hpos : 0 < perf.fdLeader := lt_of_le_of_ne hnonneg (Ne.symm hzero)
    exact ⟨⟨hpos, heq⟩, hpos⟩

/-- For every list of events that `Setup_perf` adds, whatever the kernel does: they are measured as
they should be if and only if there is one event and its descriptor is not 0. -/
theorem measures_iff (h : setupPerf os k events = .ok (perf', k')) (hne : events ≠ []) :
    Measures k' perf' events ↔ events.length = 1 ∧ perf'.fdLeader ≠ 0 := by
  have hopened := opened_setupPerf h
  constructor
  · intro hmeasures
    have hall : ∀ fd ∈ perf'.fds, fd = perf'.fdLeader ∧ perf'.fdLeader ≠ 0 := fun fd hfd =>
      (hopened.counting_start_iff hne hfd).mp (hmeasures.starts fd hfd).1
    refine ⟨?_, (hall _ (hopened.leader_mem hne)).2⟩
    rw [← hopened.length]
    have hone := List.eq_replicate_of_mem fun fd hfd => (hall fd hfd).1
    have hnodup := hopened.nodup
    rw [hone, List.nodup_replicate] at hnodup
    have hpos := List.length_pos_of_mem (hopened.leader_mem hne)
    omega
  · rintro ⟨hone, hzero⟩
    refine ⟨fun fd hfd => ?_, fun ticks arg fd hfd => hopened.stops hne ticks arg hfd,
      hopened.reads⟩
    obtain ⟨attr, hevent⟩ := hopened.mem hfd
    have hleader := hopened.leader_mem hne
    obtain ⟨fd', hfds⟩ := List.length_eq_one_iff.mp (hopened.length.trans hone)
    rw [hfds, List.mem_singleton] at hleader
    have heq : fd = perf'.fdLeader := by
      rw [hfds, List.mem_singleton] at hfd
      exact hfd.trans hleader.symm
    refine ⟨(hopened.counting_start_iff hne hfd).mpr ⟨heq, hzero⟩, ?_⟩
    rw [Kernel.read, start_event hevent]
    rfl

/-- A kernel with four descriptors to give away. -/
def fewOpens : PerfOpens where
  openFd k _ _ := ([3, 4, 5, 6].find? fun fd => (k.events fd).isNone).getD (-1)
  unused k attr groupFd h := by
    cases hfind : [3, 4, 5, 6].find? fun fd => (k.events fd).isNone with
    | none =>
      rw [hfind] at h
      exact absurd h (by decide)
    | some fd =>
      have hunused := List.find?_some hfind
      exact Option.isNone_iff_eq_none.mp hunused

/-- A single event, `-e r3c`. -/
theorem measures_iff_one :
    ∃ perf k, setupPerf fewOpens ⟨fun _ => none⟩ [⟨0x3c, 0, []⟩] = .ok (perf, k) ∧
      Measures k perf [⟨0x3c, 0, []⟩] :=
  have hsetup : setupPerf fewOpens ⟨fun _ => none⟩ [⟨0x3c, 0, []⟩] = .ok (⟨3, [3]⟩, _) := rfl
  ⟨_, _, hsetup, (measures_iff hsetup (by decide)).mpr ⟨rfl, by decide⟩⟩

/-- The second of two events, `-e r3c,rc0`, never counts. -/
theorem second_event_not_counting :
    ∃ perf k, setupPerf fewOpens ⟨fun _ => none⟩ [⟨0x3c, 0, []⟩, ⟨0xc0, 0, []⟩] = .ok (perf, k) ∧
      (perf.start k).2.counting 4 = false ∧ ¬Measures k perf [⟨0x3c, 0, []⟩, ⟨0xc0, 0, []⟩] := by
  refine ⟨⟨3, [3, 4]⟩, _, rfl, rfl, fun hmeasures => ?_⟩
  exact absurd (hmeasures.starts 4 (by decide)).1 (by decide)

end PerfCachetest

end Cachetest
