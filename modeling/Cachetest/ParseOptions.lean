import Mathlib.Data.Finset.Card
import Mathlib.Data.Finset.Image
import Cachetest.CommandLine

/-!
# Threads, fibres and their CPUs

The second half of `Parse_options`: the numbers of threads and fibres of every subpath, and the
table `cpuIdSets` of the CPUs every thread is pinned to. `threadTest` and `fibreTest` look up one
entry of the table for every thread.
-/

namespace Cachetest

open Text

/-! ## Lists of numbers -/

/-- `xs[i]`. -/
def elementAt {α : Type} (xs : List α) (i : Nat) : Outcome α :=
  match xs[i]? with
  | some x => .ok x
  | none => .error (.undefined "operator[] out of bounds")

/-- A CSV of thread or fibre counts. -/
def parseCounts (input : Text) : Outcome (List Nat) := do
  let tokens ← split input [',']
  tokens.mapM stoull

/-- The integers from `lo` to `hi`. -/
def idsFromTo (lo hi : Int) : List Int :=
  (List.range (hi + 1 - lo).toNat).map fun i : Nat => lo + (i : Int)

/-- `parseCSVOrRange`. -/
def parseCSVOrRange (cpuIdsStr : Text) : Outcome (List Int) := do
  if (find cpuIdsStr ['-'] 0).isSome then
    let range ← split cpuIdsStr ['-']
    assertThat (range.length = 2) "range.size() == 2"
    let lo ← stoi (range.getD 0 [])
    let hi ← stoi (range.getD 1 [])
    if lo ≤ hi ∧ hi = intMax then
      throw (.undefined "id++ overflows")
    return idsFromTo lo hi
  else
    let ids ← split cpuIdsStr [',']
    ids.mapM stoi

/-! ## CPUs of threads -/

/-- `SubpathCPUs`: the CPUs of all threads of a subpath, or of each of its threads. -/
structure SubpathCPUs where
  cpuIdsOfSubpath : List Int
  cpuIdsOfSubpathThreads : List (List Int)
  deriving DecidableEq, Repr

/-- The CPUs for one subpath, before the checks. -/
def readSubpathCPUs (cpuIdsStr : Text) : Outcome SubpathCPUs := do
  if (find cpuIdsStr ['~'] 0).isSome then
    let lists ← split cpuIdsStr ['~']
    let cpuIdsOfSubpathThreads ← lists.mapM parseCSVOrRange
    return ⟨[], cpuIdsOfSubpathThreads⟩
  else
    let cpuIdsOfSubpath ← parseCSVOrRange cpuIdsStr
    return ⟨cpuIdsOfSubpath, []⟩

/-- The CPUs for one subpath. -/
def parseSubpathCPUs (cpuIdsStr : Text) : Outcome SubpathCPUs := do
  let cpus ← readSubpathCPUs cpuIdsStr
  assertThat (decide (0 < cpus.cpuIdsOfSubpath.length) ^^
      decide (0 < cpus.cpuIdsOfSubpathThreads.length))
    "(cpuIdsOfSubpath.size() > 0) ^ (cpuIdsOfSubpathThreads.size() > 0)"
  assertThat (cpus.cpuIdsOfSubpath.length = 0 ||
      0 < cpus.cpuIdsOfSubpathThreads.foldl (fun least set => min least set.length) (sizeRange - 1))
    "(0 == cpuIdsOfSubpath.size()) || (std::accumulate(...) > 0)"
  return cpus

/-- `*std::min_element`. -/
def minElement (ids : List Int) : Int := ids.tail.foldl min (ids.headD 0)

/-- `*std::max_element`. -/
def maxElement (ids : List Int) : Int := ids.tail.foldl max (ids.headD 0)

/-- One step of the accumulation of the smallest and the largest CPU id. -/
def widenBounds (bounds : Int × Int) (cpus : SubpathCPUs) : Int × Int :=
  if 0 < cpus.cpuIdsOfSubpath.length then
    (min bounds.1 (minElement cpus.cpuIdsOfSubpath), max bounds.2 (maxElement cpus.cpuIdsOfSubpath))
  else
    (cpus.cpuIdsOfSubpathThreads.foldl (fun least ids => ids.foldl min least) bounds.1,
      cpus.cpuIdsOfSubpathThreads.foldl (fun most ids => ids.foldl max most) bounds.2)

/-- `CPU_SETSIZE`. -/
def cpuSetSize : Int := 1024

/-- `mainThreadCPUId`, which no option sets. -/
def mainThreadCPUId : Int := -1

/-- The check that all CPU ids fit a CPU set. -/
def checkCPUIds (cpuIdsList : List SubpathCPUs) : Outcome Unit := do
  let (minCPUId, maxCPUId) := cpuIdsList.foldl widenBounds ((intMax : Int), -2147483648)
  let minCPUId := if 0 ≤ mainThreadCPUId then min minCPUId mainThreadCPUId else minCPUId
  let maxCPUId := if 0 ≤ mainThreadCPUId then max maxCPUId mainThreadCPUId else maxCPUId
  assertThat (0 ≤ minCPUId && minCPUId ≤ maxCPUId && maxCPUId < cpuSetSize)
    "0 <= minCPUId && minCPUId <= maxCPUId && maxCPUId < CPU_SETSIZE"

/-- A set of CPU ids, which have to be distinct. -/
def toSet (ids : List Int) (condition : String) : Outcome (Finset Int) := do
  assertThat (ids.length = ids.toFinset.card) condition
  return ids.toFinset

/-- `subpathThreadCPUIds`: the CPU sets of the threads of one subpath. -/
def subpathThreadCPUIds (groupPinning : Bool) (numThreads : Nat) (cpus : SubpathCPUs) :
    Outcome (List (Finset Int)) := do
  if 0 < cpus.cpuIdsOfSubpathThreads.length then
    assertThat (numThreads = cpus.cpuIdsOfSubpathThreads.length)
      "numThreads == cpuIdsOfSubpathThreads.size()"
    cpus.cpuIdsOfSubpathThreads.mapM fun ids =>
      toSet ids "cpuIdsOfThread.size() == subpathThreadCPUIds.back().size()"
  else if groupPinning then
    let cpuIds ← toSet cpus.cpuIdsOfSubpath "cpuIds.size() == cpuIdsOfSubpath.size()"
    return List.replicate numThreads cpuIds
  else
    assertThat (numThreads = cpus.cpuIdsOfSubpath.length) "numThreads == cpuIdsOfSubpath.size()"
    return cpus.cpuIdsOfSubpath.map fun cpuId => {cpuId}

/-- `cpuIdSets` for the argument of `-C`. -/
def pinnedCpuIdSets (groupPinning : Bool) (subpathThreadCounts : List Nat) (cpuIdsInput : Text) :
    Outcome (List (List (Finset Int))) := do
  let numSubpaths := subpathThreadCounts.length
  let specs ← split cpuIdsInput ['.']
  let cpuIdsList ← specs.mapM parseSubpathCPUs
  checkCPUIds cpuIdsList
  assertThat (1 = cpuIdsList.length || numSubpaths = cpuIdsList.length)
    "1 == cpuIdsList.size() || (numSubpaths == cpuIdsList.size())"
  let first ← elementAt cpuIdsList 0
  let cpuIdsList :=
    if cpuIdsList.length = 1 ∧ 1 < numSubpaths then
      cpuIdsList ++ List.replicate (numSubpaths - 1) first
    else cpuIdsList
  (List.range numSubpaths).mapM fun i => do
    let cpus ← elementAt cpuIdsList i
    let numThreads ← elementAt subpathThreadCounts i
    subpathThreadCPUIds groupPinning numThreads cpus

/-- `cpuIdSets` without `-C`: empty sets. -/
def unpinnedCpuIdSets (subpathThreadCounts subpathFibreCounts : List Nat) :
    Outcome (List (List (Finset Int))) :=
  (List.range subpathThreadCounts.length).mapM fun i => do
    let count ← elementAt
      (if 0 < subpathFibreCounts.length then subpathFibreCounts else subpathThreadCounts) i
    return List.replicate count ∅

/-- Add the CPUs of the threads of one subpath. A thread that is not pinned may run on all CPUs, so
the rest of its subpath adds nothing. -/
def addWorkerCPUIds (hardwareConcurrency : Nat) (unique : Finset Int) :
    List (Finset Int) → Outcome (Finset Int)
  | [] => .ok unique
  | set :: setList =>
    if 0 < set.card then addWorkerCPUIds hardwareConcurrency (unique ∪ set) setList
    else do
      assertThat (0 < hardwareConcurrency) "std::thread::hardware_concurrency() > 0"
      return unique ∪ (Finset.range hardwareConcurrency).image fun i : Nat => (i : Int)

/-! ## The whole function -/

/-- What `Parse_options` leaves in the global variables. -/
structure Parsed (ε : Type) where
  opt : Options
  migrate : Bool
  zipfAlpha : ℚ
  measuredEvents : Option ε
  /-- The names of the output files; `none` stands for the standard output. -/
  output : Option Text
  errorOut : Option Text
  subpathThreadCounts : List Nat
  subpathFibreCounts : List Nat
  mainCPUIdSet : Finset Int
  cpuIdSets : List (List (Finset Int))
  uniqueWorkerCPUIdSet : Finset Int

/-- `numSubpaths`. -/
def Parsed.numSubpaths {ε : Type} (p : Parsed ε) : Nat := p.subpathThreadCounts.length

section Parse

variable {ε : Type}

/-- `subpathThreadCounts`: one subpath with one thread by default. -/
def Inputs.threadCounts (v : Inputs ε) : Outcome (List Nat) :=
  if v.threadsInput.length = 0 then .ok [1] else parseCounts v.threadsInput

/-- `subpathFibreCounts`. -/
def Inputs.fibreCounts (v : Inputs ε) (numSubpaths : Nat) : Outcome (List Nat) := do
  if 0 < v.fibresInput.length then
    let counts ← parseCounts v.fibresInput
    assertThat (counts.length = numSubpaths) "subpathFibreCounts.size() == numSubpaths"
    return counts
  else return []

/-- `mainCPUIdSet`. -/
def Inputs.mainCPUIds (v : Inputs ε) : Outcome (Finset Int) := do
  if 0 < v.mainCPUIdsInput.length then
    let cpuList ← parseCSVOrRange v.mainCPUIdsInput
    return cpuList.toFinset
  else return ∅

/-- `cpuIdSets`. -/
def Inputs.cpuIdSets (v : Inputs ε) (subpathThreadCounts subpathFibreCounts : List Nat) :
    Outcome (List (List (Finset Int))) :=
  if 0 < v.cpuIdsInput.length then
    pinnedCpuIdSets v.groupPinning subpathThreadCounts v.cpuIdsInput
  else unpinnedCpuIdSets subpathThreadCounts subpathFibreCounts

/-- The names of the output files. Both go through the same stream, which still holds the first name
when the second is written to it. -/
def Inputs.outputNames (v : Inputs ε) (files : List Text) : List Text :=
  let name := fun file : Text => file ++ ['_'] ++ (toString v.opt.cpu.toInt).toList ++ ".dat".toList
  match files with
  | [] => []
  | [file] => [name file]
  | file :: errorFile :: _ => [name file, name file ++ name errorFile]

/-- `Parse_options`. -/
def parseOptions (env : Environment ε) (program : Text) (args : List Text) :
    Outcome (Parsed ε) := do
  let (v, files) ← scanOptions env program args
  let threadCounts ← v.threadCounts
  let fibreCounts ← v.fibreCounts threadCounts.length
  let mainCPUIdSet ← v.mainCPUIds
  let cpuIdSets ← v.cpuIdSets threadCounts fibreCounts
  let unique ← cpuIdSets.foldlM (addWorkerCPUIds env.hardwareConcurrency) ∅
  return {
    opt := v.opt
    migrate := v.migrate
    zipfAlpha := v.zipfAlpha
    measuredEvents := v.measuredEvents
    output := (v.outputNames files)[0]?
    errorOut := (v.outputNames files)[1]?
    subpathThreadCounts := threadCounts
    subpathFibreCounts := fibreCounts
    mainCPUIdSet := mainCPUIdSet
    cpuIdSets := cpuIdSets
    uniqueWorkerCPUIdSet := unique }

end Parse

/-! ## The length of the rows -/

theorem elementAt_eq_ok {α : Type} {xs : List α} {i : Nat} {x : α} :
    elementAt xs i = .ok x ↔ xs[i]? = some x := by
  unfold elementAt
  cases xs[i]? <;> simp

theorem length_subpathThreadCPUIds {groupPinning : Bool} {numThreads : Nat} {cpus : SubpathCPUs}
    {row : List (Finset Int)} (h : subpathThreadCPUIds groupPinning numThreads cpus = .ok row) :
    row.length = numThreads := by
  unfold subpathThreadCPUIds at h
  split at h
  case isTrue =>
    obtain ⟨_, hcount, hsets⟩ := bind_eq_ok.mp h
    rw [← (mapM_eq_ok.mp hsets).length_eq]
    exact (of_decide_eq_true (assertThat_ok.mp hcount)).symm
  case isFalse =>
    split at h
    case isTrue =>
      obtain ⟨cpuIds, -, hrow⟩ := bind_eq_ok.mp h
      obtain rfl := Except.ok.inj hrow
      exact List.length_replicate
    case isFalse =>
      obtain ⟨_, hcount, hrow⟩ := bind_eq_ok.mp h
      obtain rfl := Except.ok.inj hrow
      rw [List.length_map]
      exact (of_decide_eq_true (assertThat_ok.mp hcount)).symm

theorem map_length_eq {α : Type} {table : List (List α)} {counts : List Nat}
    (hlength : table.length = counts.length)
    (hrows : ∀ (i : Nat) (row : List α), table[i]? = some row → counts[i]? = some row.length) :
    table.map List.length = counts := by
  refine List.ext_getElem? fun i => ?_
  rw [List.getElem?_map]
  cases hi : table[i]? with
  | none =>
    rw [List.getElem?_eq_none_iff, hlength, ← List.getElem?_eq_none_iff] at hi
    rw [hi, Option.map_none]
  | some row => rw [hrows i row hi, Option.map_some]

/-- With `-C` a row has one entry per thread of the subpath. -/
theorem lengths_of_pinned {groupPinning : Bool} {threads : List Nat} {cpuIdsInput : Text}
    {table : List (List (Finset Int))}
    (h : pinnedCpuIdSets groupPinning threads cpuIdsInput = .ok table) :
    table.map List.length = threads := by
  obtain ⟨specs, -, h⟩ := bind_eq_ok.mp h
  obtain ⟨cpuIdsList, -, h⟩ := bind_eq_ok.mp h
  obtain ⟨-, -, h⟩ := bind_eq_ok.mp h
  obtain ⟨-, -, h⟩ := bind_eq_ok.mp h
  obtain ⟨first, -, h⟩ := bind_eq_ok.mp h
  obtain ⟨hlength, hrows⟩ := mapM_range_eq_ok.mp h
  refine map_length_eq hlength fun i row hi => ?_
  obtain ⟨cpus, -, hrow⟩ := bind_eq_ok.mp (hrows i row hi)
  obtain ⟨numThreads, hthreads, hrow⟩ := bind_eq_ok.mp hrow
  rw [elementAt_eq_ok.mp hthreads, length_subpathThreadCPUIds hrow]

/-- Without `-C` a row has one entry per fibre of the subpath, if there are fibres. -/
theorem lengths_of_unpinned {threads fibres : List Nat} {table : List (List (Finset Int))}
    (hfibres : fibres = [] ∨ fibres.length = threads.length)
    (h : unpinnedCpuIdSets threads fibres = .ok table) :
    table.map List.length = if fibres = [] then threads else fibres := by
  obtain ⟨hlength, hrows⟩ := mapM_range_eq_ok.mp h
  have hcounts : (if 0 < fibres.length then fibres else threads) =
      if fibres = [] then threads else fibres := by
    cases fibres <;> rfl
  rw [hcounts] at hrows
  refine map_length_eq ?_ fun i row hi => ?_
  · rw [hlength]
    split
    · rfl
    · exact (hfibres.resolve_left ‹_›).symm
  · obtain ⟨count, hcount, hrow⟩ := bind_eq_ok.mp (hrows i row hi)
    obtain rfl := Except.ok.inj hrow
    rw [elementAt_eq_ok.mp hcount, List.length_replicate]

/-! ## Looking up the CPUs of a thread -/

section LookUp

variable {ε : Type} {env : Environment ε} {program : Text} {args files : List Text} {v : Inputs ε}
  {p : Parsed ε}

/-- The look-up `cpuIdSets[i][j]` in `threadTest` and `fibreTest`. -/
def Parsed.cpuIdSet (p : Parsed ε) (i j : Nat) : Outcome (Finset Int) := do
  let row ← elementAt p.cpuIdSets i
  elementAt row j

/-- What a completed `Parse_options` has parsed. -/
theorem parseOptions_ok (hscan : scanOptions env program args = .ok (v, files))
    (h : parseOptions env program args = .ok p) :
    p.opt = v.opt ∧ v.threadCounts = .ok p.subpathThreadCounts ∧
      v.fibreCounts p.numSubpaths = .ok p.subpathFibreCounts ∧
        v.cpuIdSets p.subpathThreadCounts p.subpathFibreCounts = .ok p.cpuIdSets ∧
          v.mainCPUIds = .ok p.mainCPUIdSet ∧
            p.cpuIdSets.foldlM (addWorkerCPUIds env.hardwareConcurrency) ∅ =
              .ok p.uniqueWorkerCPUIdSet := by
  rw [parseOptions, hscan, ok_bind] at h
  obtain ⟨threads, hthreads, h⟩ := bind_eq_ok.mp h
  obtain ⟨fibres, hfibres, h⟩ := bind_eq_ok.mp h
  obtain ⟨main, hmain, h⟩ := bind_eq_ok.mp h
  obtain ⟨table, htable, h⟩ := bind_eq_ok.mp h
  obtain ⟨unique, hunique, h⟩ := bind_eq_ok.mp h
  obtain rfl := Except.ok.inj h
  exact ⟨rfl, hthreads, hfibres, htable, hmain, hunique⟩

theorem fibreCounts_ok {numSubpaths : Nat} {fibres : List Nat}
    (h : v.fibreCounts numSubpaths = .ok fibres) :
    (v.fibresInput = [] → fibres = []) ∧ (v.fibresInput ≠ [] → fibres.length = numSubpaths) := by
  unfold Inputs.fibreCounts at h
  split at h
  case isTrue hgiven =>
    obtain ⟨counts, -, h⟩ := bind_eq_ok.mp h
    obtain ⟨_, hcount, h⟩ := bind_eq_ok.mp h
    obtain rfl := Except.ok.inj h
    exact ⟨fun hnone => absurd hnone (List.ne_nil_of_length_pos hgiven),
      fun _ => of_decide_eq_true (assertThat_ok.mp hcount)⟩
  case isFalse hnone =>
    obtain rfl := Except.ok.inj h
    exact ⟨fun _ => rfl, fun hgiven => absurd (List.length_pos_iff.mpr hgiven) hnone⟩

theorem Parsed.cpuIdSet_isOk {i j : Nat} :
    (∃ set, p.cpuIdSet i j = .ok set) ↔
      ∃ c, (p.cpuIdSets.map List.length)[i]? = some c ∧ j < c := by
  simp only [Parsed.cpuIdSet, bind_eq_ok, elementAt_eq_ok, List.getElem?_map,
    Option.map_eq_some_iff]
  constructor
  · rintro ⟨set, row, hrow, hset⟩
    exact ⟨row.length, ⟨row, hrow, rfl⟩, (List.getElem?_eq_some_iff.mp hset).1⟩
  · rintro ⟨_, ⟨row, hrow, rfl⟩, hj⟩
    exact ⟨row[j], row, hrow, List.getElem?_eq_getElem hj⟩

/-- Looking up the CPUs of every thread stays within the table exactly when there is a `-C`, or no
`-F`, or every subpath has at least as many fibres as threads. -/
theorem affinity_in_bounds_iff (hscan : scanOptions env program args = .ok (v, files))
    (hparse : parseOptions env program args = .ok p) {threads fibres : List Nat}
    (hthreads : v.threadCounts = .ok threads)
    (hfibres : v.fibreCounts threads.length = .ok fibres) :
    (∀ i numThreads, p.subpathThreadCounts[i]? = some numThreads → ∀ j < numThreads,
        ∃ set, p.cpuIdSet i j = .ok set) ↔
      v.cpuIdsInput ≠ [] ∨ v.fibresInput = [] ∨
        ∀ (i t f : Nat), threads[i]? = some t → fibres[i]? = some f → t ≤ f := by
  obtain ⟨-, hthreads', hfibres', htable, -⟩ := parseOptions_ok hscan hparse
  obtain rfl := Except.ok.inj (hthreads.symm.trans hthreads')
  obtain rfl := Except.ok.inj (hfibres.symm.trans hfibres')
  obtain ⟨hnone, hgiven⟩ := fibreCounts_ok hfibres
  simp only [Parsed.cpuIdSet_isOk]
  unfold Inputs.cpuIdSets at htable
  split at htable
  case isTrue hpinned =>
    rw [lengths_of_pinned htable]
    exact iff_of_true (fun i numThreads hi j hj => ⟨numThreads, hi, hj⟩)
      (Or.inl (List.ne_nil_of_length_pos hpinned))
  case isFalse hunpinned =>
    have hinput : v.cpuIdsInput = [] := List.eq_nil_of_length_eq_zero (by omega)
    rw [lengths_of_unpinned ((em _).imp hnone hgiven) htable]
    by_cases hfibre : v.fibresInput = []
    · rw [if_pos (hnone hfibre)]
      exact iff_of_true (fun i numThreads hi j hj => ⟨numThreads, hi, hj⟩) (Or.inr (Or.inl hfibre))
    · have hlength := hgiven hfibre
      simp only [hinput, hfibre, ne_eq, not_true_eq_false, false_or]
      split
      case isTrue hnil =>
        have hthreads : p.subpathThreadCounts = [] := List.eq_nil_of_length_eq_zero (by
          rw [← hlength, hnil, List.length_nil])
        simp [hthreads]
      case isFalse =>
        constructor
        · intro h i t f ht hf
          by_contra hlt
          obtain ⟨c, hc, hlt'⟩ := h i t ht f (by omega)
          rw [hf, Option.some.injEq] at hc
          omega
        · intro h i t ht j hj
          have hi := (List.getElem?_eq_some_iff.mp ht).1
          have hf := List.getElem?_eq_getElem (hlength.symm ▸ hi)
          exact ⟨_, hf, lt_of_lt_of_le hj (h i t _ ht hf)⟩

/-- An environment without events, on a machine of four CPUs. -/
def Environment.simple : Environment Unit where
  parseEvents _ := .ok ()
  atof _ := 0
  hardwareConcurrency := 4

/-- `-T 2,1 -F 2,3 1`: enough fibres. -/
theorem affinity_in_bounds_iff_enough_fibres :
    ∃ (v : Inputs Unit) (files : List Text) (p : Parsed Unit),
      scanOptions .simple [] (["-T", "2,1", "-F", "2,3", "1"].map String.toList) =
        .ok (v, files) ∧
      parseOptions .simple [] (["-T", "2,1", "-F", "2,3", "1"].map String.toList) = .ok p ∧
      v.threadCounts = .ok [2, 1] ∧ v.fibreCounts 2 = .ok [2, 3] ∧
      ((∀ i numThreads, p.subpathThreadCounts[i]? = some numThreads → ∀ j < numThreads,
          ∃ set, p.cpuIdSet i j = .ok set) ↔
        v.cpuIdsInput ≠ [] ∨ v.fibresInput = [] ∨
          ∀ (i t f : Nat), [2, 1][i]? = some t → [2, 3][i]? = some f → t ≤ f) := by
  obtain ⟨v, files, hscan, hthreads, hfibres⟩ : ∃ (v : Inputs Unit) (files : List Text),
      scanOptions .simple [] (["-T", "2,1", "-F", "2,3", "1"].map String.toList) = .ok (v, files) ∧
      v.threadCounts = .ok [2, 1] ∧ v.fibreCounts 2 = .ok [2, 3] := ⟨_, _, rfl, rfl, rfl⟩
  obtain ⟨p, hparse⟩ : ∃ p : Parsed Unit, parseOptions .simple []
      (["-T", "2,1", "-F", "2,3", "1"].map String.toList) = .ok p := ⟨_, rfl⟩
  exact ⟨v, files, p, hscan, hparse, hthreads, hfibres,
    affinity_in_bounds_iff hscan hparse hthreads hfibres⟩

/-- `-T 2 -F 1 1`: one fibre for two threads leaves one entry in the row. -/
theorem affinity_out_of_bounds :
    ∃ p : Parsed Unit,
      parseOptions .simple [] (["-T", "2", "-F", "1", "1"].map String.toList) = .ok p ∧
      p.subpathThreadCounts[0]? = some 2 ∧
      p.cpuIdSet 0 1 = .error (.undefined "operator[] out of bounds") :=
  ⟨_, rfl, rfl, rfl⟩

end LookUp

end Cachetest
