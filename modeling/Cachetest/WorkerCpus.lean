import Mathlib.Data.Finset.Union
import Cachetest.Pinning

/-!
# The CPUs of the main thread and of the workers

All ids of `-C` go through the check against `CPU_SETSIZE`. Those of `-m` do not: the check looks at
`mainThreadCPUId`, which is never set, and not at `mainCPUIdSet`.

`uniqueWorkerCPUIdSet` is computed from the table. A row of the table has one entry per thread, and
the set is the union over all workers, unless the row is sized by the fibres: a row without fibres
adds no CPU at all.
-/

namespace Cachetest

open Text

/-! ## The ids of the main thread -/

/-- `CPU_SET` has a bit for the CPU. -/
def FitsCPUSet (id : Int) : Prop := 0 ≤ id ∧ id < cpuSetSize

instance (id : Int) : Decidable (FitsCPUSet id) := inferInstanceAs (Decidable (_ ∧ _))

/-- All numbers of a CSV, and the end of a range that is not empty, are below `CPU_SETSIZE`. -/
def MainFits (mainCPUIdsInput : Text) : Prop :=
  if '-' ∈ mainCPUIdsInput then
    ∀ (lo hi : Text) (l u : Int), mainCPUIdsInput.splitOn '-' = [lo, hi] → stoi lo = .ok l →
      stoi hi = .ok u → l ≤ u → u < cpuSetSize
  else ∀ t ∈ mainCPUIdsInput.splitOn ',', ∀ id, stoi t = .ok id → id < cpuSetSize

theorem fits_of_parse {s : Text} {ids : List Int} (h : parseCSVOrRange s = .ok ids) :
    (∀ id ∈ ids, FitsCPUSet id) ↔ MainFits s := by
  unfold MainFits
  split
  case isTrue hminus =>
    obtain ⟨lo, hi, l, u, hpair, hl, hu, rfl⟩ := parseCSVOrRange_of_minus hminus h
    have hlo : '-' ∉ lo := fun hmem =>
      (mem_of_mem_splitOn (show lo ∈ _ by rw [hpair]; simp) hmem).2 rfl
    have hnonneg := scanInteger_nonneg hlo (scanInteger_of_stoi hl)
    simp only [mem_idsFromTo, FitsCPUSet]
    constructor
    · intro hfits lo' hi' l' u' hpair' hl' hu' hle
      rw [hpair, List.cons.injEq, List.cons.injEq] at hpair'
      obtain ⟨rfl, rfl, -⟩ := hpair'
      obtain rfl := Except.ok.inj (hl.symm.trans hl')
      obtain rfl := Except.ok.inj (hu.symm.trans hu')
      exact (hfits u ⟨hle, le_rfl⟩).2
    · intro hbound id hid
      have hu := hbound lo hi l u hpair hl hu (hid.1.trans hid.2)
      exact ⟨hnonneg.trans hid.1, hid.2.trans_lt hu⟩
  case isFalse hminus =>
    obtain ⟨hread, hfrom⟩ := exists_mem_of_forall₂ (parseCSVOrRange_of_no_minus hminus h)
    constructor
    · intro hfits t ht id hid
      obtain ⟨x, hx, hread⟩ := hread t ht
      obtain rfl := Except.ok.inj (hread.symm.trans hid)
      exact (hfits x hx).2
    · intro hbound id hid
      obtain ⟨t, ht, hread⟩ := hfrom id hid
      have hnonneg := scanInteger_nonneg (fun hc => hminus (mem_of_mem_splitOn ht hc).1)
        (scanInteger_of_stoi hread)
      exact ⟨hnonneg, hbound t ht id hread⟩

section Main

variable {ε : Type} {v : Inputs ε} {set : Finset Int}

theorem mainCPUIds_fit_iff (h : v.mainCPUIds = .ok set) :
    (∀ id ∈ set, FitsCPUSet id) ↔ MainFits v.mainCPUIdsInput := by
  unfold Inputs.mainCPUIds at h
  split at h
  case isTrue =>
    obtain ⟨ids, hids, h⟩ := bind_eq_ok.mp h
    obtain rfl := Except.ok.inj h
    simp only [List.mem_toFinset]
    exact fits_of_parse hids
  case isFalse hnone =>
    obtain rfl := Except.ok.inj h
    have hinput : v.mainCPUIdsInput = [] := List.eq_nil_of_length_eq_zero (by omega)
    refine iff_of_true (fun id hid => absurd hid (Finset.notMem_empty id)) ?_
    rw [hinput, MainFits, if_neg List.not_mem_nil]
    intro t ht id hid
    obtain rfl : t = [] := List.mem_singleton.mp ht
    cases hid

end Main

section Parse

variable {ε : Type} {env : Environment ε} {program : Text} {args files : List Text} {v : Inputs ε}
  {p : Parsed ε}

theorem eq_empty_of_unpinned {threads fibres : List Nat} {table : List (List (Finset Int))}
    (h : unpinnedCpuIdSets threads fibres = .ok table) : ∀ row ∈ table, ∀ set ∈ row, set = ∅ := by
  intro row hmem set hset
  obtain ⟨i, hi⟩ := List.mem_iff_getElem?.mp hmem
  obtain ⟨count, -, hrow⟩ := bind_eq_ok.mp ((mapM_range_eq_ok.mp h).2 i row hi)
  obtain rfl := Except.ok.inj hrow
  exact List.eq_of_mem_replicate hset

theorem workerCPUIds_fit (hscan : scanOptions env program args = .ok (v, files))
    (hparse : parseOptions env program args = .ok p) :
    ∀ row ∈ p.cpuIdSets, ∀ set ∈ row, ∀ id ∈ set, FitsCPUSet id := by
  obtain ⟨-, -, -, htable, -⟩ := parseOptions_ok hscan hparse
  unfold Inputs.cpuIdSets at htable
  split at htable
  case isTrue => exact pinned_ids_in_range htable
  case isFalse =>
    intro row hrow set hset id hid
    rw [eq_empty_of_unpinned htable row hrow set hset] at hid
    exact absurd hid (Finset.notMem_empty id)

/-- For every accepted command line, all ids of the worker and main threads fit a CPU set if and
only if those of `-m` do. The check of the ids of `-C` refuses nothing else exactly when there is an
id at all. -/
theorem cpuIds_fit_iff (hscan : scanOptions env program args = .ok (v, files))
    (hparse : parseOptions env program args = .ok p) (cpuIdsList : List SubpathCPUs) :
    (((∀ row ∈ p.cpuIdSets, ∀ set ∈ row, ∀ id ∈ set, FitsCPUSet id) ∧
        ∀ id ∈ p.mainCPUIdSet, FitsCPUSet id) ↔ MainFits v.mainCPUIdsInput) ∧
      ((checkCPUIds cpuIdsList = .ok () ↔
          ∀ cpus ∈ cpuIdsList, ∀ id ∈ cpus.ids, FitsCPUSet id) ↔
        ∃ cpus ∈ cpuIdsList, cpus.ids ≠ []) := by
  obtain ⟨-, -, -, -, hmain, -⟩ := parseOptions_ok hscan hparse
  constructor
  · rw [mainCPUIds_fit_iff hmain]
    exact and_iff_right (workerCPUIds_fit hscan hparse)
  · rw [checkCPUIds_eq_ok]
    constructor
    · intro hexact
      by_contra hnone
      refine hnone (hexact.mpr fun cpus hcpus id hid => ?_).1
      exact absurd ⟨cpus, hcpus, List.ne_nil_of_mem hid⟩ hnone
    · exact and_iff_right

/-- `-C 0-3 -m 1,2 1`. -/
theorem cpuIds_fit_iff_main_pinned :
    ∃ (v : Inputs Unit) (files : List Text) (p : Parsed Unit),
      scanOptions .simple [] (["-C", "0-3", "-m", "1,2", "1"].map String.toList) =
        .ok (v, files) ∧
      parseOptions .simple [] (["-C", "0-3", "-m", "1,2", "1"].map String.toList) = .ok p ∧
      (((∀ row ∈ p.cpuIdSets, ∀ set ∈ row, ∀ id ∈ set, FitsCPUSet id) ∧
          ∀ id ∈ p.mainCPUIdSet, FitsCPUSet id) ↔ MainFits v.mainCPUIdsInput) ∧
        ((checkCPUIds [⟨[0, 1, 2, 3], []⟩] = .ok () ↔
            ∀ cpus ∈ [SubpathCPUs.mk [0, 1, 2, 3] []], ∀ id ∈ cpus.ids, FitsCPUSet id) ↔
          ∃ cpus ∈ [SubpathCPUs.mk [0, 1, 2, 3] []], cpus.ids ≠ []) := by
  obtain ⟨v, files, hscan⟩ : ∃ (v : Inputs Unit) (files : List Text),
      scanOptions .simple [] (["-C", "0-3", "-m", "1,2", "1"].map String.toList) =
        .ok (v, files) := ⟨_, _, rfl⟩
  obtain ⟨p, hparse⟩ : ∃ p : Parsed Unit, parseOptions .simple []
      (["-C", "0-3", "-m", "1,2", "1"].map String.toList) = .ok p := ⟨_, rfl⟩
  exact ⟨v, files, p, hscan, hparse, cpuIds_fit_iff hscan hparse _⟩

/-- `-m 5000 1`: the main thread is to be pinned to a CPU no CPU set has. -/
theorem mainCPUId_unchecked :
    ∃ p : Parsed Unit,
      parseOptions .simple [] (["-m", "5000", "1"].map String.toList) = .ok p ∧
      ¬((∀ row ∈ p.cpuIdSets, ∀ set ∈ row, ∀ id ∈ set, FitsCPUSet id) ∧
        ∀ id ∈ p.mainCPUIdSet, FitsCPUSet id) := by
  obtain ⟨p, hparse, hmain⟩ : ∃ p : Parsed Unit,
      parseOptions .simple [] (["-m", "5000", "1"].map String.toList) = .ok p ∧
      5000 ∈ p.mainCPUIdSet := ⟨_, rfl, by decide⟩
  exact ⟨p, hparse, fun h => absurd (h.2 5000 hmain) (by decide)⟩

end Parse

/-! ## The CPUs of the workers -/

/-- The CPUs with the ids below `std::thread::hardware_concurrency()`. -/
def hardwareCPUs (hardwareConcurrency : Nat) : Finset Int :=
  (Finset.range hardwareConcurrency).image fun i : Nat => (i : Int)

/-- The CPUs a thread may run on by its entry of the table: all if it is not pinned. -/
def entryCPUs (hardwareConcurrency : Nat) (set : Finset Int) : Finset Int :=
  if 0 < set.card then set else hardwareCPUs hardwareConcurrency

/-- The CPUs a worker may run on. A worker past the end of its row is not pinned by any option. -/
def Parsed.threadCPUs {ε : Type} (p : Parsed ε) (hardwareConcurrency i j : Nat) : Finset Int :=
  entryCPUs hardwareConcurrency ((((p.cpuIdSets[i]?).getD [])[j]?).getD ∅)

/-- The union over all worker threads. -/
def Parsed.workerCPUs {ε : Type} (p : Parsed ε) (hardwareConcurrency : Nat) : Finset Int :=
  (Finset.range p.numSubpaths).biUnion fun i =>
    (Finset.range (p.subpathThreadCounts.getD i 0)).biUnion (p.threadCPUs hardwareConcurrency i)

/-- `evictCacheEntries`: the CPUs the main thread is pinned to, one after the other, to write a GB
of memory. It is taken that the huge page for that GB can be mapped, else the program exits. -/
def evictCacheEntries (uniqueWorkerCPUIdSet : Finset Int) : Outcome (Finset Int) := do
  assertThat (0 < uniqueWorkerCPUIdSet.card) "uniqueWorkerCPUIdSet.size() > 0"
  return uniqueWorkerCPUIdSet

section Entries

variable {hw : Nat} {unique result set : Finset Int} {row : List (Finset Int)}
  {table : List (List (Finset Int))} {id : Int}

theorem mem_hardwareCPUs : id ∈ hardwareCPUs hw ↔ 0 ≤ id ∧ id < hw := by
  simp only [hardwareCPUs, Finset.mem_image, Finset.mem_range]
  constructor
  · rintro ⟨i, hi, rfl⟩
    omega
  · rintro ⟨hnonneg, hlt⟩
    exact ⟨id.toNat, by omega, by omega⟩

theorem entryCPUs_empty : entryCPUs hw ∅ = hardwareCPUs hw := rfl

theorem entryCPUs_subset (hset : set ⊆ hardwareCPUs hw) : entryCPUs hw set ⊆ hardwareCPUs hw := by
  unfold entryCPUs
  split
  · exact hset
  · exact Finset.Subset.refl _

theorem hardwareCPUs_nonempty (hw0 : 0 < hw) : (hardwareCPUs hw).Nonempty :=
  ⟨0, mem_hardwareCPUs.mpr ⟨le_rfl, by omega⟩⟩

theorem entryCPUs_nonempty (h : 0 < set.card ∨ 0 < hw) : (entryCPUs hw set).Nonempty := by
  unfold entryCPUs
  split
  case isTrue hpinned => exact Finset.card_pos.mp hpinned
  case isFalse hunpinned => exact hardwareCPUs_nonempty (h.resolve_left hunpinned)

/-- Leaving a row at the first thread that is not pinned loses nothing: all CPUs are in by then. -/
theorem addWorkerCPUIds_ok (hrow : ∀ set ∈ row, set ⊆ hardwareCPUs hw)
    (h : addWorkerCPUIds hw unique row = .ok result) :
    (∀ id, id ∈ result ↔ id ∈ unique ∨ ∃ set ∈ row, id ∈ entryCPUs hw set) ∧
      ∀ set ∈ row, (entryCPUs hw set).Nonempty := by
  induction row generalizing unique with
  | nil =>
    obtain rfl := Except.ok.inj h
    simp
  | cons set row ih =>
    rw [addWorkerCPUIds] at h
    rw [List.forall_mem_cons] at hrow
    split at h
    case isTrue hpinned =>
      obtain ⟨hmem, hnonempty⟩ := ih hrow.2 h
      refine ⟨fun id => ?_, List.forall_mem_cons.mpr ⟨entryCPUs_nonempty (.inl hpinned), hnonempty⟩⟩
      rw [hmem, Finset.mem_union, List.exists_mem_cons_iff, entryCPUs, if_pos hpinned, or_assoc]
    case isFalse hunpinned =>
      obtain ⟨_, hw0, h⟩ := bind_eq_ok.mp h
      obtain rfl := Except.ok.inj h
      have hw0 : 0 < hw := of_decide_eq_true (assertThat_ok.mp hw0)
      refine ⟨fun id => ?_, fun _ _ => entryCPUs_nonempty (.inr hw0)⟩
      change id ∈ unique ∪ hardwareCPUs hw ↔ _
      rw [Finset.mem_union, List.exists_mem_cons_iff, entryCPUs, if_neg hunpinned]
      refine or_congr_right ⟨Or.inl, ?_⟩
      rintro (hid | ⟨set, hset, hid⟩)
      · exact hid
      · exact entryCPUs_subset (hrow.2 set hset) hid

theorem foldlM_addWorkerCPUIds_ok (htable : ∀ row ∈ table, ∀ set ∈ row, set ⊆ hardwareCPUs hw)
    (h : table.foldlM (addWorkerCPUIds hw) unique = .ok result) :
    (∀ id, id ∈ result ↔ id ∈ unique ∨ ∃ row ∈ table, ∃ set ∈ row, id ∈ entryCPUs hw set) ∧
      ∀ row ∈ table, ∀ set ∈ row, (entryCPUs hw set).Nonempty := by
  induction table generalizing unique with
  | nil =>
    obtain rfl := Except.ok.inj h
    simp
  | cons row table ih =>
    rw [List.forall_mem_cons] at htable
    rw [List.foldlM_cons] at h
    obtain ⟨added, hadded, h⟩ := bind_eq_ok.mp h
    obtain ⟨hmem, hnonempty⟩ := addWorkerCPUIds_ok htable.1 hadded
    obtain ⟨hmem', hnonempty'⟩ := ih htable.2 h
    refine ⟨fun id => ?_, List.forall_mem_cons.mpr ⟨hnonempty, hnonempty'⟩⟩
    rw [hmem', hmem, List.exists_mem_cons_iff, or_assoc]

end Entries

section Workers

variable {ε : Type} {env : Environment ε} {program : Text} {args files : List Text} {v : Inputs ε}
  {p : Parsed ε} {hw : Nat}

theorem mem_workerCPUs {id : Int} : id ∈ p.workerCPUs hw ↔
    ∃ i numThreads, p.subpathThreadCounts[i]? = some numThreads ∧
      ∃ j < numThreads, id ∈ p.threadCPUs hw i j := by
  simp only [Parsed.workerCPUs, Finset.mem_biUnion, Finset.mem_range, Parsed.numSubpaths,
    List.getD_eq_getElem?_getD]
  constructor
  · rintro ⟨i, hi, j, hj, hid⟩
    rw [List.getElem?_eq_getElem hi, Option.getD_some] at hj
    exact ⟨i, _, List.getElem?_eq_getElem hi, j, hj, hid⟩
  · rintro ⟨i, numThreads, hget, j, hj, hid⟩
    exact ⟨i, (List.getElem?_eq_some_iff.mp hget).1, j, by rwa [hget, Option.getD_some], hid⟩

theorem mem_workerCPUs_of_lengths (hlengths : p.cpuIdSets.map List.length = p.subpathThreadCounts)
    {id : Int} :
    id ∈ p.workerCPUs hw ↔ ∃ row ∈ p.cpuIdSets, ∃ set ∈ row, id ∈ entryCPUs hw set := by
  rw [mem_workerCPUs, ← hlengths]
  simp only [List.getElem?_map, Option.map_eq_some_iff, Parsed.threadCPUs]
  constructor
  · rintro ⟨i, _, ⟨row, hrow, rfl⟩, j, hj, hid⟩
    rw [hrow, Option.getD_some, List.getElem?_eq_getElem hj, Option.getD_some] at hid
    exact ⟨row, List.mem_of_getElem? hrow, _, List.getElem_mem hj, hid⟩
  · rintro ⟨row, hrow, set, hset, hid⟩
    obtain ⟨i, hi⟩ := List.mem_iff_getElem?.mp hrow
    obtain ⟨j, hj⟩ := List.mem_iff_getElem?.mp hset
    refine ⟨i, _, ⟨row, hi, rfl⟩, j, (List.getElem?_eq_some_iff.mp hj).1, ?_⟩
    rwa [hi, Option.getD_some, hj, Option.getD_some]

theorem workerCPUs_of_unpinned (hempty : ∀ row ∈ p.cpuIdSets, ∀ set ∈ row, set = ∅)
    (hworker : ∃ numThreads ∈ p.subpathThreadCounts, 0 < numThreads) :
    p.workerCPUs hw = hardwareCPUs hw := by
  have hthread : ∀ i j, p.threadCPUs hw i j = hardwareCPUs hw := by
    intro i j
    rw [Parsed.threadCPUs]
    cases hrow : p.cpuIdSets[i]? with
    | none => rfl
    | some row =>
      rw [Option.getD_some]
      cases hset : row[j]? with
      | none => rfl
      | some set => rw [Option.getD_some, hempty row (List.mem_of_getElem? hrow) set
          (List.mem_of_getElem? hset), entryCPUs_empty]
  obtain ⟨numThreads, hmem, hpos⟩ := hworker
  obtain ⟨i, hi⟩ := List.mem_iff_getElem?.mp hmem
  ext id
  rw [mem_workerCPUs]
  constructor
  · rintro ⟨i, numThreads, -, j, -, hid⟩
    rwa [hthread] at hid
  · intro hid
    exact ⟨i, numThreads, hi, 0, hpos, by rwa [hthread]⟩

theorem evictCacheEntries_eq_ok {unique wiped : Finset Int} :
    evictCacheEntries unique = .ok wiped ↔ unique.Nonempty ∧ wiped = unique := by
  rw [evictCacheEntries, bind_eq_ok]
  constructor
  · rintro ⟨_, hpos, h⟩
    exact ⟨Finset.card_pos.mp (of_decide_eq_true (assertThat_ok.mp hpos)),
      (Except.ok.inj h).symm⟩
  · rintro ⟨hne, rfl⟩
    exact ⟨(), assertThat_ok.mpr (decide_eq_true (Finset.card_pos.mpr hne)), rfl⟩

theorem evictCacheEntries_of_nonempty {unique : Finset Int} (h : unique.Nonempty) :
    evictCacheEntries unique = .ok unique :=
  evictCacheEntries_eq_ok.mpr ⟨h, rfl⟩

theorem evictCacheEntries_of_lengths
    (hmem : ∀ id, id ∈ p.uniqueWorkerCPUIdSet ↔
      ∃ row ∈ p.cpuIdSets, ∃ set ∈ row, id ∈ entryCPUs hw set)
    (hnonempty : ∀ row ∈ p.cpuIdSets, ∀ set ∈ row, (entryCPUs hw set).Nonempty)
    (hworker : ∃ numThreads ∈ p.subpathThreadCounts, 0 < numThreads)
    (hlengths : p.cpuIdSets.map List.length = p.subpathThreadCounts) :
    p.uniqueWorkerCPUIdSet = p.workerCPUs hw ∧
      evictCacheEntries p.uniqueWorkerCPUIdSet = .ok (p.workerCPUs hw) := by
  have hunion : p.uniqueWorkerCPUIdSet = p.workerCPUs hw :=
    Finset.ext fun id => (hmem id).trans (mem_workerCPUs_of_lengths hlengths).symm
  obtain ⟨numThreads, hthreads, hpos⟩ := hworker
  rw [← hlengths] at hthreads
  obtain ⟨row, hrow, rfl⟩ := List.mem_map.mp hthreads
  obtain ⟨set, hset⟩ := List.exists_mem_of_length_pos hpos
  obtain ⟨id, hid⟩ := hnonempty row hrow set hset
  exact ⟨hunion, evictCacheEntries_eq_ok.mpr
    ⟨⟨id, (hmem id).mpr ⟨row, hrow, set, hset, hid⟩⟩, hunion.symm⟩⟩

/-- When no thread is pinned, there has to be an entry in some row. -/
theorem evictCacheEntries_of_unpinned
    (hmem : ∀ id, id ∈ p.uniqueWorkerCPUIdSet ↔
      ∃ row ∈ p.cpuIdSets, ∃ set ∈ row, id ∈ entryCPUs hw set)
    (hnonempty : ∀ row ∈ p.cpuIdSets, ∀ set ∈ row, (entryCPUs hw set).Nonempty)
    (hworker : ∃ numThreads ∈ p.subpathThreadCounts, 0 < numThreads)
    (hempty : ∀ row ∈ p.cpuIdSets, ∀ set ∈ row, set = ∅) :
    (p.uniqueWorkerCPUIdSet = p.workerCPUs hw ∧
        evictCacheEntries p.uniqueWorkerCPUIdSet = .ok (p.workerCPUs hw)) ↔
      ∃ row ∈ p.cpuIdSets, 0 < row.length := by
  rw [workerCPUs_of_unpinned hempty hworker, evictCacheEntries_eq_ok]
  constructor
  · rintro ⟨-, ⟨id, hid⟩, -⟩
    obtain ⟨row, hrow, set, hset, -⟩ := (hmem id).mp hid
    exact ⟨row, hrow, List.length_pos_of_mem hset⟩
  · rintro ⟨row, hrow, hpos⟩
    obtain ⟨set, hset⟩ := List.exists_mem_of_length_pos hpos
    have hentry : entryCPUs hw set = hardwareCPUs hw := by
      rw [hempty row hrow set hset, entryCPUs_empty]
    have hall : p.uniqueWorkerCPUIdSet = hardwareCPUs hw := by
      ext id
      rw [hmem]
      constructor
      · rintro ⟨row, hrow, set, hset, hid⟩
        rwa [hempty row hrow set hset, entryCPUs_empty] at hid
      · intro hid
        exact ⟨row, hrow, set, hset, hentry ▸ hid⟩
    exact ⟨hall, hall ▸ hentry ▸ hnonempty row hrow set hset, hall.symm⟩

/-- For every accepted command line that makes a worker thread and whose ids are below the hardware
concurrency: `uniqueWorkerCPUIdSet` is the union over the workers, and all of their caches are
wiped, if and only if there is a `-C`, or no `-F`, or a subpath with a fibre. -/
theorem evictCacheEntries_all_iff (hscan : scanOptions env program args = .ok (v, files))
    (hparse : parseOptions env program args = .ok p) {fibres : List Nat}
    (hfibres : v.fibreCounts p.numSubpaths = .ok fibres)
    (hworker : ∃ numThreads ∈ p.subpathThreadCounts, 0 < numThreads)
    (hids : ∀ row ∈ p.cpuIdSets, ∀ set ∈ row, ∀ id ∈ set, id < env.hardwareConcurrency) :
    (p.uniqueWorkerCPUIdSet = p.workerCPUs env.hardwareConcurrency ∧
        evictCacheEntries p.uniqueWorkerCPUIdSet = .ok (p.workerCPUs env.hardwareConcurrency)) ↔
      v.cpuIdsInput ≠ [] ∨ v.fibresInput = [] ∨ ∃ numFibres ∈ fibres, 0 < numFibres := by
  obtain ⟨-, -, hfibres', htable, -, hunique⟩ := parseOptions_ok hscan hparse
  obtain rfl := Except.ok.inj (hfibres.symm.trans hfibres')
  obtain ⟨hnone, hgiven⟩ := fibreCounts_ok hfibres
  obtain ⟨hmem, hnonempty⟩ := foldlM_addWorkerCPUIds_ok (fun row hrow set hset id hid =>
    mem_hardwareCPUs.mpr ⟨(workerCPUIds_fit hscan hparse row hrow set hset id hid).1,
      hids row hrow set hset id hid⟩) hunique
  simp only [Finset.notMem_empty, false_or] at hmem
  have hsized := evictCacheEntries_of_lengths hmem hnonempty hworker
  unfold Inputs.cpuIdSets at htable
  split at htable
  case isTrue hpinned =>
    exact iff_of_true (hsized (lengths_of_pinned htable)) (.inl (List.ne_nil_of_length_pos hpinned))
  case isFalse hunpinned =>
    have hinput : v.cpuIdsInput = [] := List.eq_nil_of_length_eq_zero (by omega)
    have hlengths := lengths_of_unpinned ((em _).imp hnone hgiven) htable
    by_cases hfibre : v.fibresInput = []
    · rw [if_pos (hnone hfibre)] at hlengths
      exact iff_of_true (hsized hlengths) (.inr (.inl hfibre))
    · have hne : p.subpathFibreCounts ≠ [] := by
        intro hnil
        obtain ⟨_, hthreads, -⟩ := hworker
        have hpos := List.length_pos_of_mem hthreads
        have hlength := hgiven hfibre
        rw [hnil, List.length_nil, Parsed.numSubpaths] at hlength
        omega
      rw [if_neg hne] at hlengths
      rw [evictCacheEntries_of_unpinned hmem hnonempty hworker (eq_empty_of_unpinned htable),
        ← hlengths]
      simp [hinput, hfibre]

/-- `-T 1,2 -C 0-1.2 1`. -/
theorem evictCacheEntries_all_iff_two_subpaths :
    ∃ p : Parsed Unit,
      parseOptions .simple [] (["-T", "1,2", "-C", "0-1.2", "1"].map String.toList) = .ok p ∧
      p.uniqueWorkerCPUIdSet = p.workerCPUs 4 ∧
        evictCacheEntries p.uniqueWorkerCPUIdSet = .ok (p.workerCPUs 4) := by
  obtain ⟨v, files, hscan, hinput⟩ : ∃ (v : Inputs Unit) (files : List Text),
      scanOptions .simple [] (["-T", "1,2", "-C", "0-1.2", "1"].map String.toList) =
        .ok (v, files) ∧ v.cpuIdsInput ≠ [] := ⟨_, _, rfl, by decide⟩
  obtain ⟨p, hparse, hthreads, hsets⟩ : ∃ p : Parsed Unit, parseOptions .simple []
      (["-T", "1,2", "-C", "0-1.2", "1"].map String.toList) = .ok p ∧
      p.subpathThreadCounts = [1, 2] ∧ p.cpuIdSets = [[{0, 1}], [{2}, {2}]] := ⟨_, rfl, rfl, rfl⟩
  obtain ⟨-, -, hfibres, -⟩ := parseOptions_ok hscan hparse
  refine ⟨p, hparse, (evictCacheEntries_all_iff hscan hparse hfibres ?_ ?_).mpr (.inl hinput)⟩
  · rw [hthreads]
    decide
  · rw [hsets]
    decide

/-- `-T 1 -F 0 1`: the row of the only worker is empty, and so is the set. -/
theorem evictCacheEntries_fails_without_fibres :
    ∃ p : Parsed Unit,
      parseOptions .simple [] (["-T", "1", "-F", "0", "1"].map String.toList) = .ok p ∧
      p.subpathThreadCounts = [1] ∧ p.cpuIdSets = [[]] ∧ p.uniqueWorkerCPUIdSet = ∅ ∧
      p.workerCPUs 4 = {0, 1, 2, 3} ∧
      ¬(p.uniqueWorkerCPUIdSet = p.workerCPUs 4 ∧
        evictCacheEntries p.uniqueWorkerCPUIdSet = .ok (p.workerCPUs 4)) := by
  refine ⟨_, rfl, rfl, rfl, rfl, by decide, ?_⟩
  rintro ⟨h, -⟩
  revert h
  decide

end Workers

end Cachetest
