import Cachetest.FibreTraversal
import Cachetest.ParseEvents
import Cachetest.ParseOptions
import Cachetest.Report

/-!
# The program

`main` from its arguments to its report: `Parse_options`, the check of the dataset, the stages that
set up the buffer, the counters and the path, the test with threads or with fibres, and what is
printed when it has returned. A stage that fails ends the program before there is a report.

Put together, the stages tell what the one number of the report that is used later is made of
(`main_accesses`, and `main_accesses_migrating` for fibres that migrate).
-/

namespace Cachetest

open ByteMemory Measurement PerfEvents Report Runs

/-! ## The stages -/

/-- What the program runs on: the C library's `atof`, the machine, the operating system, and the
values its random generators and its uninitialized variables have. -/
structure Platform where
  atof : Text → ℚ
  hardwareConcurrency : Nat
  unset : Nat → BitVec 32
  host : Host
  os : PerfOpens
  rand : Randomness
  mem : Memory
  kernel : Kernel

/-- Random generators that change nothing, on a simple host without counters. -/
def Platform.simple : Platform where
  atof _ := 0
  hardwareConcurrency := 4
  unset _ := 0
  host := .simple
  os := PerfCachetest.fewOpens
  rand := .identity
  mem := zeros
  kernel := ⟨fun _ => none⟩

namespace Main

/-- `Parse_options` with the events of `Perf_Cachetest`. -/
def environment (pf : Platform) : Environment (Option (List Event)) where
  parseEvents := parseEvents pf.unset
  atof := pf.atof
  hardwareConcurrency := pf.hardwareConcurrency

/-- What has been set up when the subpaths are collected. -/
structure Built where
  distr : SubpathDistribution
  path : PathState
  perf : Option PerfCachetest
  kernel : Kernel

/-- `Setup_perf`, which does nothing without measured events. -/
def setupCounters (pf : Platform) : Option (List Event) → Outcome (Option PerfCachetest × Kernel)
  | none => return (none, pf.kernel)
  | some measuredEvents => do
    let (perf, k) ← setupPerf pf.os pf.kernel measuredEvents
    return (some perf, k)

/-- From the check of the dataset to `distribute()`. -/
def build (pf : Platform) (p : Parsed (Option (List Event))) : Outcome Built := do
  checkHugeDataset p.opt
  configureExperiment p.opt
  let (buffer, m) ← setupBuffer pf.host p.opt pf.mem
  let (perf, k) ← setupCounters pf p.measuredEvents.join
  let distr := setupDistribution p.opt p.numSubpaths p.zipfAlpha buffer
  let path ← distr.doDistribute pf.rand (buffer.view m)
  return { distr := distr, path := path, perf := perf, kernel := k }

variable {ε : Type}

/-- The workers of subpath `i`: its fibres, if there are any, or its threads. -/
def workerCount (p : Parsed ε) (i : Fin p.numSubpaths) : Nat :=
  if 0 < p.subpathFibreCounts.length then p.subpathFibreCounts.getD i 0
  else p.subpathThreadCounts.getD i 0

/-- What `threadTest` is given. -/
def testSetup (p : Parsed ε) (b : Built) (infos : List SubpathInfo) : TestSetup where
  infos := infos
  perf := b.perf
  uniqueWorkerCPUIdSet := p.uniqueWorkerCPUIdSet

/-- What `fibreTest` is given. -/
def fibreSetup (p : Parsed ε) (b : Built) (infos : List SubpathInfo) : FibreSetup where
  toTestSetup := testSetup p b infos
  migrate := p.migrate
  subpathThreadCounts := p.subpathThreadCounts

/-- The test has returned with these results, and left the counters like this. -/
inductive Returned (p : Parsed ε) (b : Built) (infos : List SubpathInfo) :
    (Worker (workerCount p) → LoopResult) → Kernel → Prop
  | threads {acts : List (ThreadAction (workerCount p))} {s : ThreadTest (workerCount p)}
      {result : Worker (workerCount p) → LoopResult}
      (hfibres : ¬0 < p.subpathFibreCounts.length)
      (hrun : run (ThreadTest.step (testSetup p b infos))
        (.initial _ (testSetup p b infos) b.path.mem b.kernel) acts = some s)
      (hmain : s.main = .returned) (hresult : ∀ w, s.workers.work w = .finished (result w)) :
      Returned p b infos result s.workers.kernel
  | fibres {acts : List (FibreRunAction (workerCount p))} {s : FibreRun (workerCount p)}
      {result : Worker (workerCount p) → LoopResult}
      (hfibres : 0 < p.subpathFibreCounts.length)
      (hrun : run (FibreRun.step (fibreSetup p b infos))
        (.initial _ (fibreSetup p b infos) b.path.mem b.kernel) acts = some s)
      (hstage : s.stage = .returned) (hresult : ∀ w, s.workers.work w = .finished (result w)) :
      Returned p b infos result s.workers.kernel

/-- A value that is read from a counter, as a `Result_t`. -/
def asResult (data : Nat) : Int := (BitVec.ofNat 64 data).toInt

end Main

/-- An execution of `main` that comes to its report. -/
structure Execution (pf : Platform) (program : Text) (args : List Text) where
  parsed : Parsed (Option (List Event))
  parsed_ok : parseOptions (Main.environment pf) program args = .ok parsed
  built : Main.Built
  built_ok : Main.build pf parsed = .ok built
  infos : List SubpathInfo
  collected : ∃ fuel, collectPointerChasingSubpathInfo fuel parsed.opt parsed.numSubpaths
    built.distr.buffer built.path.mem = some (.ok infos)
  result : Worker (Main.workerCount parsed) → LoopResult
  kernel : Kernel
  returned : Main.Returned parsed built infos result kernel
  readings : List Nat
  read_ok : PerfCachetest.readResults kernel (built.perf.getD .initial).fds [] = (true, readings)
  utilization : Text
  utilization_plain : '=' ∉ utilization ∧ '\n' ∉ utilization

namespace Main

variable {pf : Platform} {program : Text} {args : List Text}

/-- What it prints. -/
def printed (e : Execution pf program args) : Printed where
  opt := e.parsed.opt
  entries := e.built.path.entries
  numElements := e.built.distr.numElements
  utilization := e.utilization
  utilization_plain := e.utilization_plain
  loopResults := loopResults _ e.result
  results := e.readings.map asResult

/-! ## What the stages guarantee -/

theorem build_ok {p : Parsed (Option (List Event))} {b : Built} (h : build pf p = .ok b) :
    configureExperiment p.opt = .ok () ∧
      ∃ buffer m, setupBuffer pf.host p.opt pf.mem = .ok (buffer, m) ∧
        b.distr = setupDistribution p.opt p.numSubpaths p.zipfAlpha buffer ∧
        b.distr.doDistribute pf.rand (buffer.view m) = .ok b.path := by
  obtain ⟨_, -, h⟩ := bind_eq_ok.mp h
  obtain ⟨_, hconfigure, h⟩ := bind_eq_ok.mp h
  obtain ⟨⟨buffer, m⟩, hbuffer, h⟩ := bind_eq_ok.mp h
  obtain ⟨⟨perf, k⟩, -, h⟩ := bind_eq_ok.mp h
  obtain ⟨path, hpath, h⟩ := bind_eq_ok.mp h
  obtain rfl := Except.ok.inj h
  exact ⟨hconfigure, buffer, m, hbuffer, rfl, hpath⟩

variable {e : Execution pf program args}

/-- The path fits the buffer when the options ask for one that 32-bit indices can address. -/
theorem fits (hsize : 8 ≤ asSizeT e.parsed.opt.buffersize)
    (hwindow : e.parsed.opt.bufferoffset.toNat + asSizeT e.parsed.opt.buffersize < unsignedRange) :
    e.built.distr.Fits ∧ 8 ≤ e.built.distr.lineSize ∧
      e.built.distr.buffer.getSize = asSizeT e.parsed.opt.buffersize := by
  obtain ⟨hconfigure, buffer, m, hbuffer, hdistr, hpath⟩ := build_ok e.built_ok
  obtain ⟨hgetSize, hstart⟩ := setupBuffer_spec hbuffer
  have hline := eight_le_lineSize hconfigure e.parsed.numSubpaths e.parsed.zipfAlpha buffer
  rw [← hdistr] at hline
  have hbuf : e.built.distr.buffer = buffer := by rw [hdistr, buffer_setupDistribution]
  have hoffset : e.built.distr.bufferOffset = e.parsed.opt.bufferoffset.toNat :=
    SubpathDistribution.bufferOffset_eq (by rw [hbuf, hstart]) (by omega)
  have hsize' : e.built.distr.buffer.getSize = asSizeT e.parsed.opt.buffersize := by
    rw [hbuf, hgetSize]
  have hwindow' : e.built.distr.bufferOffset + e.built.distr.buffer.getSize < unsignedRange := by
    rw [hoffset, hsize']
    exact hwindow
  have hfit := SubpathDistribution.fits_or_empty hline hwindow' hpath
  refine ⟨hfit.resolve_right ?_, hline, hsize'⟩
  rintro ⟨-, -, hfew⟩
  have helements : e.built.distr.numElements =
      asUnsigned (e.built.distr.buffer.getSize / elementSize) := by
    rw [hdistr, setupDistribution]
    split <;> rfl
  rw [helements, hsize', elementSize, asUnsigned_of_lt (by omega)] at hfew
  omega

theorem asSizeT_toInt32_of_lt {x : UInt32} (h : x.toNat < 2147483648) :
    asSizeT x.toInt32 = x.toNat := by
  rw [asSizeT, toInt_toInt32, if_pos (by omega)]
  simp only [sizeRange]
  omega

theorem lt_of_asSizeT_toInt32_lt {x : UInt32} (h : asSizeT x.toInt32 < unsignedRange) :
    x.toNat < 2147483648 := by
  by_contra hge
  have hlt := x.toNat_lt
  rw [asSizeT, toInt_toInt32, if_neg (by omega)] at h
  simp only [sizeRange, unsignedRange] at h
  omega

/-- When the dataset is a number of lines for every subpath, the subpaths are where they are
collected. -/
theorem boundary_of_lines (hsize : 8 ≤ asSizeT e.parsed.opt.buffersize)
    (hwindow : e.parsed.opt.bufferoffset.toNat + asSizeT e.parsed.opt.buffersize < unsignedRange)
    (hfactor : e.parsed.opt.bufferfactor = 1)
    (hdvd : e.parsed.numSubpaths * e.parsed.opt.cacheline.toNat ∣ e.parsed.opt.dataset.toNat) :
    e.parsed.opt.dataset.toNat / e.parsed.numSubpaths = e.built.distr.chunkSize := by
  obtain ⟨hfit, hline, hgetSize⟩ := fits hsize hwindow
  obtain ⟨-, buffer, m, -, hdistr, -⟩ := build_ok e.built_ok
  have hbuffersize : e.parsed.opt.buffersize = e.parsed.opt.dataset.toInt32 := by
    rw [Options.buffersize, hfactor, UInt32.mul_one]
  rw [hbuffersize] at hsize hwindow hgetSize
  have hdataset := lt_of_asSizeT_toInt32_lt (x := e.parsed.opt.dataset) (by omega)
  rw [asSizeT_toInt32_of_lt hdataset] at hsize hgetSize
  have hsubpaths : e.built.distr.numSubpaths = e.parsed.numSubpaths := by
    rw [hdistr, numSubpaths_setupDistribution]
  have hpos : 0 < e.parsed.numSubpaths := hsubpaths ▸ hfit.subpaths_pos
  have hcacheline : e.parsed.opt.cacheline.toNat ≤ e.parsed.opt.dataset.toNat :=
    (Nat.le_mul_of_pos_left _ hpos).trans (Nat.le_of_dvd (by omega) hdvd)
  have hlineSize : e.built.distr.lineSize = e.parsed.opt.cacheline.toNat := by
    rw [hdistr, lineSize_setupDistribution, asSizeT_toInt32_of_lt (by omega)]
  have hgetSize' : e.built.distr.buffer.getSize < unsignedRange := by
    simp only [unsignedRange]
    omega
  rw [SubpathDistribution.chunkSize, SubpathDistribution.numDatalinesPerSubpath_eq hline hgetSize',
    hgetSize, hlineSize, hsubpaths]
  obtain ⟨lines, hlines⟩ := hdvd
  have hwhole : e.parsed.opt.dataset.toNat =
      e.parsed.opt.cacheline.toNat * (e.parsed.numSubpaths * lines) := by
    rw [hlines, Nat.mul_left_comm, Nat.mul_assoc]
  have hper : e.parsed.opt.dataset.toNat =
      e.parsed.numSubpaths * (lines * e.parsed.opt.cacheline.toNat) := by
    rw [hlines, Nat.mul_assoc, Nat.mul_comm lines]
  have hlinePos : 0 < e.parsed.opt.cacheline.toNat := by omega
  calc e.parsed.opt.dataset.toNat / e.parsed.numSubpaths
      = lines * e.parsed.opt.cacheline.toNat := by rw [hper, Nat.mul_div_cancel_left _ hpos]
    _ = _ := by
        rw [hwhole, Nat.mul_div_cancel_left _ hlinePos, Nat.mul_div_cancel_left _ hpos]

/-! ## What the report says -/

/-- The workers that have returned have made a number of whole laps and one load, unless they
migrate. -/
theorem Returned.laps {p : Parsed ε} {b : Built} {L : SubpathLayout}
    {result : Worker (workerCount p) → LoopResult} {k : Kernel}
    (h : Returned p b L.infos result k) (hn : L.numSubpaths = p.numSubpaths)
    (hunsplit : L.Unsplit b.path.mem)
    (hmigrate : p.subpathFibreCounts = [] ∨ p.migrate = false) (w : Worker (workerCount p)) :
    ∃ laps, (result w).accesscount = laps * (L.chunk w.1).length + 1 := by
  cases h with
  | threads hfibres hrun hmain hresult =>
    obtain ⟨sys, htraverses, hturn⟩ := ThreadTest.inTurn_run hn hunsplit rfl hrun
    have hthread := htraverses.workers.work w
    rw [hresult] at hthread
    exact hturn.laps hthread
  | fibres hfibres hrun hstage hresult =>
    have hstay := hmigrate.resolve_left (List.ne_nil_of_length_pos hfibres)
    obtain ⟨sys, htraverses, hturn⟩ := FibreRun.inTurn_run hn hunsplit rfl hstay hrun
    have hthread := htraverses.workers.work w
    rw [hresult] at hthread
    exact hturn.laps hthread

theorem Returned.stretches {p : Parsed ε} {b : Built} {L : SubpathLayout}
    {result : Worker (workerCount p) → LoopResult} {k : Kernel}
    (h : Returned p b L.infos result k) (hn : L.numSubpaths = p.numSubpaths)
    (hunsplit : L.Unsplit b.path.mem) (hfibres : p.subpathFibreCounts ≠ [])
    (hmigrate : p.migrate = true) (w : Worker (workerCount p)) :
    ∃ q, (result w).accesscount = L.stretch w.1 q + 1 := by
  cases h with
  | threads hnone => exact absurd (List.length_pos_of_ne_nil hfibres) hnone
  | fibres _ hrun hstage hresult =>
    obtain ⟨sys, htraverses, hroams⟩ := FibreRun.roams_run hn hunsplit rfl hmigrate hrun
    have hthread := htraverses.workers.work w
    rw [hresult] at hthread
    exact FibreRun.roams_finished (hroams w) hthread

theorem exists_layout (hfit : e.built.distr.Fits) :
    ∃ L : SubpathLayout, e.built.distr.Builds e.built.path L ∧
      (e.parsed.zipfAlpha ≤ 0 → ∀ k < e.parsed.numSubpaths,
        (L.chunk k).length = e.built.distr.numDatalinesPerSubpath) := by
  obtain ⟨-, buffer, m, -, hdistr, hpath⟩ := build_ok e.built_ok
  by_cases halpha : e.parsed.zipfAlpha ≤ 0
  · have halpha' : e.built.distr.zipfAlpha ≤ 0 := by
      rw [hdistr, setupDistribution, if_pos halpha]
      exact le_rfl
    obtain ⟨L, hL, hchunks, -⟩ := SubpathDistribution.uniform_builds hfit halpha' hpath
    refine ⟨L, hL, fun _ k hk => ?_⟩
    have hk' : k < e.built.distr.numSubpaths := by rwa [hdistr, numSubpaths_setupDistribution]
    rw [hchunks k hk', (SubpathDistribution.uniformChunk_perm _ k hfit.lines_pos).length_eq,
      List.length_map, List.length_range]
  · obtain ⟨L, hL⟩ := SubpathDistribution.exists_builds hfit hpath
    exact ⟨L, hL, fun hle => absurd hle halpha⟩

/-- The script finds the sum of all access counts. -/
theorem accesses_printed (e : Execution pf program args) :
    accesses (text (printed e)) = [decimal ((∑ w, (e.result w).accesscount) % sizeRange)] := by
  have hresults : (printed e).loopResults = loopResults _ e.result := rfl
  rw [accesses_text, hresults, totalAccessCount_loopResults]

/-- The test has returned from a run over the subpaths of the path that has been built. -/
theorem exists_returned (hsize : 8 ≤ asSizeT e.parsed.opt.buffersize)
    (hwindow : e.parsed.opt.bufferoffset.toNat + asSizeT e.parsed.opt.buffersize < unsignedRange)
    (hboundary : e.parsed.numSubpaths = 1 ∨ e.parsed.opt.bufferfactor = 1 ∧
      e.parsed.numSubpaths * e.parsed.opt.cacheline.toNat ∣ e.parsed.opt.dataset.toNat) :
    ∃ L : SubpathLayout, e.built.distr.Builds e.built.path L ∧
      L.numSubpaths = e.parsed.numSubpaths ∧
      (printed e).entries = ∑ i : Fin e.parsed.numSubpaths, (L.chunk i).length ∧
      (e.parsed.zipfAlpha ≤ 0 → ∀ i < e.parsed.numSubpaths,
        (L.chunk i).length = e.built.distr.numDatalinesPerSubpath) ∧
      Returned e.parsed e.built L.infos e.result e.kernel := by
  obtain ⟨hfit, -, -⟩ := fits hsize hwindow
  obtain ⟨-, buffer, m, -, hdistr, -⟩ := build_ok e.built_ok
  have hsubpaths : e.built.distr.numSubpaths = e.parsed.numSubpaths := by
    rw [hdistr, numSubpaths_setupDistribution]
  obtain ⟨L, hL, hlengths⟩ := exists_layout hfit
  have hplaces : e.built.distr.numSubpaths = 1 ∨
      e.parsed.opt.dataset.toNat / e.built.distr.numSubpaths = e.built.distr.chunkSize := by
    rw [hsubpaths]
    exact hboundary.imp_right fun h => boundary_of_lines hsize hwindow h.1 h.2
  obtain ⟨fuel, hcollect⟩ := e.collected
  rw [← hsubpaths] at hcollect
  have hinfos := ThreadTest.collect_eq_infos hL hplaces hcollect
  refine ⟨L, hL, hL.numSubpaths.trans hsubpaths, ?_, hlengths, hinfos ▸ e.returned⟩
  have hentries : (printed e).entries = _ := hL.laid.entries
  rw [hentries, hsubpaths]
  exact Finset.sum_range fun k => (L.chunk k).length

/-- **What the number of the report is made of.** In every execution of `main` that comes to its
report, with threads or with fibres that stay on their clusters: the entries are the elements of all
subpaths, every worker has made a number of whole laps over its own subpath and one load, and the
script finds the sum of these loads, modulo `2 ^ 64`. In uniform mode a lap is a load from every
line of the subpath. -/
theorem main_accesses (e : Execution pf program args)
    (hmigrate : e.parsed.subpathFibreCounts = [] ∨ e.parsed.migrate = false)
    (hsize : 8 ≤ asSizeT e.parsed.opt.buffersize)
    (hwindow : e.parsed.opt.bufferoffset.toNat + asSizeT e.parsed.opt.buffersize < unsignedRange)
    (hboundary : e.parsed.numSubpaths = 1 ∨ e.parsed.opt.bufferfactor = 1 ∧
      e.parsed.numSubpaths * e.parsed.opt.cacheline.toNat ∣ e.parsed.opt.dataset.toNat) :
    ∃ L : SubpathLayout, e.built.distr.Builds e.built.path L ∧
      (printed e).entries = ∑ i : Fin e.parsed.numSubpaths, (L.chunk i).length ∧
      (e.parsed.zipfAlpha ≤ 0 → ∀ i < e.parsed.numSubpaths,
        (L.chunk i).length = e.built.distr.numDatalinesPerSubpath) ∧
      ∃ laps : Worker (workerCount e.parsed) → Nat,
        (∀ w, (e.result w).accesscount = laps w * (L.chunk w.1).length + 1) ∧
        accesses (text (printed e)) =
          [decimal ((∑ w, (laps w * (L.chunk w.1).length + 1)) % sizeRange)] := by
  obtain ⟨L, hL, hnum, hentries, hlengths, hreturned⟩ := exists_returned hsize hwindow hboundary
  choose laps hlaps using hreturned.laps hnum hL.unsplit hmigrate
  refine ⟨L, hL, hentries, hlengths, laps, hlaps, ?_⟩
  rw [accesses_printed, Finset.sum_congr rfl fun w _ => hlaps w]

/-- What `-T 1,1 1` asks for: two subpaths with a thread each. -/
def twoThreads : Parsed (Option (List Event)) where
  opt := { Options.default with dataset := 1024 }
  migrate := false
  zipfAlpha := 0
  measuredEvents := none
  output := none
  errorOut := none
  subpathThreadCounts := [1, 1]
  subpathFibreCounts := []
  mainCPUIdSet := ∅
  cpuIdSets := [[∅], [∅]]
  uniqueWorkerCPUIdSet := (Finset.range 4).image fun i : Nat => (i : Int)

/-- With `-T 1,1 1` the subpaths have eight lines. One thread makes a lap before the handler runs,
the other begins when both subpaths are broken. -/
theorem main_accesses_two_threads :
    ∃ (e : Execution .simple [] (["-T", "1,1", "1"].map String.toList))
      (laps : Worker (workerCount e.parsed) → Nat),
      (∀ w, (e.result w).accesscount = laps w * 8 + 1) ∧
      accesses (text (printed e)) = [decimal ((∑ w, (laps w * 8 + 1)) % sizeRange)] := by
  have hparse : parseOptions (environment .simple) [] (["-T", "1,1", "1"].map String.toList) =
    .ok twoThreads := rfl
  let infos : List SubpathInfo := [⟨0, 448, 8⟩, ⟨512, 960, 8⟩]
  let first : Worker (workerCount twoThreads) := ⟨⟨0, by decide⟩, ⟨0, by decide⟩⟩
  let second : Worker (workerCount twoThreads) := ⟨⟨1, by decide⟩, ⟨0, by decide⟩⟩
  let load : ThreadAction (workerCount twoThreads) := .worker (.load second fun _ => 0)
  let acts : List (ThreadAction (workerCount twoThreads)) :=
    [.spawn, .spawn, .spawn, .spawn, .spawn, .worker (.prepare second), .announce second,
      .worker (.prepare first), .announce first, .release, .evict, .arm, .start, .go,
      .worker (.enter second), load, load, load, load, load, load, load, load, .worker .stop,
      .worker .stop, load, .worker (.leave second), .worker (.enter first),
      .worker (.load first fun _ => 0), .worker (.leave first), .join, .join, .join, .join, .join,
      .stop 0]
  let start (b : Built) : ThreadTest (workerCount twoThreads) :=
    .initial _ (testSetup twoThreads b infos) b.path.mem b.kernel
  have hsize : 8 ≤ asSizeT twoThreads.opt.buffersize := by decide
  have hwindow : twoThreads.opt.bufferoffset.toNat + asSizeT twoThreads.opt.buffersize <
    unsignedRange := by decide
  have hboundary : twoThreads.numSubpaths * twoThreads.opt.cacheline.toNat ∣
    twoThreads.opt.dataset.toNat := by decide
  have hset : (build .simple twoThreads).toOption.map (fun b =>
      (b.distr.numDatalinesPerSubpath, b.perf)) = some (8, none) := by
    decide +kernel
  have hall : (build .simple twoThreads).toOption.map (fun b =>
      ((collectPointerChasingSubpathInfo 9 twoThreads.opt twoThreads.numSubpaths
          b.distr.buffer b.path.mem).bind Except.toOption,
        (run (ThreadTest.step (testSetup twoThreads b infos)) (start b) acts).map fun s =>
          (s.main, s.workers.work first, s.workers.work second))) =
      some (some infos, some (.returned, .finished ⟨1, invalidIndex⟩,
        .finished ⟨9, invalidIndex⟩)) := by
    decide +kernel
  cases hbuild : build .simple twoThreads with
  | error stop => simp [hbuild, Except.toOption] at hset
  | ok b =>
    rw [hbuild] at hset hall
    obtain ⟨hlines, hperf⟩ := Prod.mk.inj (Option.some.inj hset)
    obtain ⟨hcollect, hrun⟩ := Prod.mk.inj (Option.some.inj hall)
    obtain ⟨infos', hcollect, hinfos⟩ := Option.bind_eq_some_iff.mp hcollect
    obtain ⟨s, hrun, hs⟩ := Option.map_eq_some_iff.mp hrun
    simp only [Prod.mk.injEq] at hs
    obtain ⟨hmain, hfirst, hsecond⟩ := hs
    obtain rfl : infos' = .ok infos := by
      cases infos' with
      | error stop => simp [Except.toOption] at hinfos
      | ok infos' => exact congrArg Except.ok (Option.some.inj hinfos)
    let result : Worker (workerCount twoThreads) → LoopResult := fun w =>
      ⟨if w.1.val = 0 then 1 else 9, invalidIndex⟩
    have hresult : ∀ w, s.workers.work w = .finished (result w) := by
      rintro ⟨⟨i, hi⟩, ⟨j, hj⟩⟩
      cases i with
      | zero =>
        obtain rfl : j = 0 := Nat.lt_one_iff.mp hj
        exact hfirst
      | succ i =>
        obtain rfl : i = 0 := Nat.lt_one_iff.mp (Nat.lt_of_succ_lt_succ hi)
        obtain rfl : j = 0 := Nat.lt_one_iff.mp hj
        exact hsecond
    let e : Execution .simple [] (["-T", "1,1", "1"].map String.toList) := {
      parsed := twoThreads
      parsed_ok := hparse
      built := b
      built_ok := hbuild
      infos := infos
      collected := ⟨9, hcollect⟩
      result := result
      kernel := s.workers.kernel
      returned := .threads (by decide) hrun hmain hresult
      readings := []
      read_ok := by rw [hperf]; rfl
      utilization := "0.0625".toList
      utilization_plain := by decide }
    obtain ⟨L, -, -, hlengths, laps, hlaps, haccesses⟩ :=
      main_accesses e (Or.inl rfl) hsize hwindow (Or.inr ⟨rfl, hboundary⟩)
    have height : ∀ w : Worker (workerCount e.parsed), (L.chunk w.1).length = 8 := fun w =>
      (hlengths le_rfl w.1 w.1.isLt).trans hlines
    simp only [height] at hlaps haccesses
    exact ⟨e, laps, hlaps, haccesses⟩

/-- **The same for fibres that migrate**: every fibre has been through a number of whole subpaths,
one after the other around the path from its own subpath on, and made one load more. -/
theorem main_accesses_migrating (e : Execution pf program args)
    (hfibres : e.parsed.subpathFibreCounts ≠ []) (hmigrate : e.parsed.migrate = true)
    (hsize : 8 ≤ asSizeT e.parsed.opt.buffersize)
    (hwindow : e.parsed.opt.bufferoffset.toNat + asSizeT e.parsed.opt.buffersize < unsignedRange)
    (hboundary : e.parsed.numSubpaths = 1 ∨ e.parsed.opt.bufferfactor = 1 ∧
      e.parsed.numSubpaths * e.parsed.opt.cacheline.toNat ∣ e.parsed.opt.dataset.toNat) :
    ∃ L : SubpathLayout, e.built.distr.Builds e.built.path L ∧
      (printed e).entries = ∑ i : Fin e.parsed.numSubpaths, (L.chunk i).length ∧
      (e.parsed.zipfAlpha ≤ 0 → ∀ i < e.parsed.numSubpaths,
        (L.chunk i).length = e.built.distr.numDatalinesPerSubpath) ∧
      ∃ q : Worker (workerCount e.parsed) → Nat,
        (∀ w, (e.result w).accesscount = L.stretch w.1 (q w) + 1) ∧
        accesses (text (printed e)) =
          [decimal ((∑ w, (L.stretch w.1 (q w) + 1)) % sizeRange)] := by
  obtain ⟨L, hL, hnum, hentries, hlengths, hreturned⟩ := exists_returned hsize hwindow hboundary
  choose q hq using hreturned.stretches hnum hL.unsplit hfibres hmigrate
  refine ⟨L, hL, hentries, hlengths, q, hq, ?_⟩
  rw [accesses_printed, Finset.sum_congr rfl fun w _ => hq w]

/-- What `-T 1,1 -F 1,1 -M 1` asks for: a fibre on each of two clusters, with migration. -/
def twoFibres : Parsed (Option (List Event)) :=
  { twoThreads with
    migrate := true
    subpathFibreCounts := [1, 1] }

/-- The first fibre goes through its subpath and finds the second one broken, where the other fibre
begins. -/
theorem main_accesses_migrating_two_fibres :
    ∃ (e : Execution .simple [] (["-T", "1,1", "-F", "1,1", "-M", "1"].map String.toList))
      (L : SubpathLayout) (q : Worker (workerCount e.parsed) → Nat),
      (∀ w, (e.result w).accesscount = L.stretch w.1 (q w) + 1) ∧
      accesses (text (printed e)) =
        [decimal ((∑ w, (L.stretch w.1 (q w) + 1)) % sizeRange)] := by
  have hparse : parseOptions (environment .simple) []
      (["-T", "1,1", "-F", "1,1", "-M", "1"].map String.toList) = .ok twoFibres := rfl
  let infos : List SubpathInfo := [⟨0, 448, 8⟩, ⟨512, 960, 8⟩]
  let first : Worker (workerCount twoFibres) := ⟨⟨0, by decide⟩, ⟨0, by decide⟩⟩
  let second : Worker (workerCount twoFibres) := ⟨⟨1, by decide⟩, ⟨0, by decide⟩⟩
  let load : FibreRunAction (workerCount twoFibres) := .worker (.load first fun _ => 0)
  let acts : List (FibreRunAction (workerCount twoFibres)) :=
    [.create, .fibre .spawn, .fibre .spawn, .fibre .spawn, .worker (.prepare second),
      .fibre (.announce (FibreRun.number second)), .worker (.prepare first),
      .fibre (.announce (FibreRun.number first)), .fibre .release, .evict, .arm,
      .fibre (.arrive (FibreRun.number first)), .fibre (.arrive (FibreRun.number second)), .start,
      .fibre .arriveMain, .worker (.enter first), load, load, load, load, load, load, load, load,
      .worker .stop, .worker .stop, load, .worker (.leave first), .worker (.enter second),
      .worker (.load second fun _ => 0), .worker (.leave second), .fibre .returnMain, .join, .join,
      .join, .stop 0]
  let start (b : Built) : FibreRun (workerCount twoFibres) :=
    .initial _ (fibreSetup twoFibres b infos) b.path.mem b.kernel
  have hsize : 8 ≤ asSizeT twoFibres.opt.buffersize := by decide
  have hwindow : twoFibres.opt.bufferoffset.toNat + asSizeT twoFibres.opt.buffersize <
    unsignedRange := by decide
  have hboundary : twoFibres.numSubpaths * twoFibres.opt.cacheline.toNat ∣
    twoFibres.opt.dataset.toNat := by decide
  have hset : (build .simple twoFibres).toOption.map (fun b => b.perf) = some none := by
    decide +kernel
  have hall : (build .simple twoFibres).toOption.map (fun b =>
      ((collectPointerChasingSubpathInfo 9 twoFibres.opt twoFibres.numSubpaths
          b.distr.buffer b.path.mem).bind Except.toOption,
        (run (FibreRun.step (fibreSetup twoFibres b infos)) (start b) acts).map fun s =>
          (s.stage, s.workers.work first, s.workers.work second))) =
      some (some infos, some (.returned, .finished ⟨9, invalidIndex⟩,
        .finished ⟨1, invalidIndex⟩)) := by
    decide +kernel
  cases hbuild : build .simple twoFibres with
  | error stop => simp [hbuild, Except.toOption] at hset
  | ok b =>
    rw [hbuild] at hset hall
    have hperf : b.perf = none := Option.some.inj hset
    obtain ⟨hcollect, hrun⟩ := Prod.mk.inj (Option.some.inj hall)
    obtain ⟨infos', hcollect, hinfos⟩ := Option.bind_eq_some_iff.mp hcollect
    obtain ⟨s, hrun, hs⟩ := Option.map_eq_some_iff.mp hrun
    simp only [Prod.mk.injEq] at hs
    obtain ⟨hstage, hfirst, hsecond⟩ := hs
    obtain rfl : infos' = .ok infos := by
      cases infos' with
      | error stop => simp [Except.toOption] at hinfos
      | ok infos' => exact congrArg Except.ok (Option.some.inj hinfos)
    let result : Worker (workerCount twoFibres) → LoopResult := fun w =>
      ⟨if w.1.val = 0 then 9 else 1, invalidIndex⟩
    have hresult : ∀ w, s.workers.work w = .finished (result w) := by
      rintro ⟨⟨i, hi⟩, ⟨j, hj⟩⟩
      cases i with
      | zero =>
        obtain rfl : j = 0 := Nat.lt_one_iff.mp hj
        exact hfirst
      | succ i =>
        obtain rfl : i = 0 := Nat.lt_one_iff.mp (Nat.lt_of_succ_lt_succ hi)
        obtain rfl : j = 0 := Nat.lt_one_iff.mp hj
        exact hsecond
    let e : Execution .simple []
        (["-T", "1,1", "-F", "1,1", "-M", "1"].map String.toList) := {
      parsed := twoFibres
      parsed_ok := hparse
      built := b
      built_ok := hbuild
      infos := infos
      collected := ⟨9, hcollect⟩
      result := result
      kernel := s.workers.kernel
      returned := .fibres (by decide) hrun hstage hresult
      readings := []
      read_ok := by rw [hperf]; rfl
      utilization := "0.0625".toList
      utilization_plain := by decide }
    obtain ⟨L, -, -, -, q, hq, haccesses⟩ := main_accesses_migrating e (List.cons_ne_nil _ _) rfl
      hsize hwindow (Or.inr ⟨rfl, hboundary⟩)
    exact ⟨e, L, q, hq, haccesses⟩

end Main

end Cachetest
