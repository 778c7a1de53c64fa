import Cachetest.CpuSpec

/-!
# Pinning as specified

The table `Parse_options` builds for the argument of `-C` against the table the argument stands for.
They agree, and pin every thread, unless a list is not `Proper`: a negative id turns a CSV into a
range, and an empty range passes the checks as the list of a single thread, which is not pinned
then.
-/

namespace Cachetest

open Text

/-! ## The check of the ids -/

/-- All ids of a subpath. -/
def SubpathCPUs.ids (cpus : SubpathCPUs) : List Int :=
  if 0 < cpus.cpuIdsOfSubpath.length then cpus.cpuIdsOfSubpath
  else cpus.cpuIdsOfSubpathThreads.flatten

theorem min_minElement {ids : List Int} (hne : 0 < ids.length) (b : Int) :
    min b (minElement ids) = ids.foldl min b := by
  obtain ⟨id, rest, rfl⟩ := List.exists_cons_of_length_pos hne
  simp only [minElement, List.tail_cons, List.headD_cons, List.foldl_cons]
  exact List.foldl_assoc.symm

theorem max_maxElement {ids : List Int} (hne : 0 < ids.length) (b : Int) :
    max b (maxElement ids) = ids.foldl max b := by
  obtain ⟨id, rest, rfl⟩ := List.exists_cons_of_length_pos hne
  simp only [maxElement, List.tail_cons, List.headD_cons, List.foldl_cons]
  exact List.foldl_assoc.symm

theorem widenBounds_eq (bounds : Int × Int) (cpus : SubpathCPUs) :
    widenBounds bounds cpus = (cpus.ids.foldl min bounds.1, cpus.ids.foldl max bounds.2) := by
  unfold widenBounds SubpathCPUs.ids
  split
  case isTrue hne => rw [min_minElement hne, max_maxElement hne]
  case isFalse => rw [List.foldl_flatten, List.foldl_flatten]

theorem foldl_widenBounds (cpuIdsList : List SubpathCPUs) (bounds : Int × Int) :
    cpuIdsList.foldl widenBounds bounds =
      ((cpuIdsList.flatMap SubpathCPUs.ids).foldl min bounds.1,
        (cpuIdsList.flatMap SubpathCPUs.ids).foldl max bounds.2) := by
  induction cpuIdsList generalizing bounds with
  | nil => rfl
  | cons cpus cpuIdsList ih =>
    rw [List.foldl_cons, ih, widenBounds_eq, List.flatMap_cons, List.foldl_append,
      List.foldl_append]

theorem foldl_min_le {ids : List Int} {b : Int} :
    ids.foldl min b ≤ b ∧ ∀ id ∈ ids, ids.foldl min b ≤ id := by
  induction ids generalizing b with
  | nil => simp
  | cons id ids ih =>
    obtain ⟨hbound, hids⟩ := ih (b := min b id)
    rw [List.foldl_cons]
    refine ⟨hbound.trans (min_le_left _ _), fun x hx => ?_⟩
    rcases List.mem_cons.mp hx with rfl | hx
    · exact hbound.trans (min_le_right _ _)
    · exact hids x hx

theorem le_foldl_max {ids : List Int} {b : Int} :
    b ≤ ids.foldl max b ∧ ∀ id ∈ ids, id ≤ ids.foldl max b := by
  induction ids generalizing b with
  | nil => simp
  | cons id ids ih =>
    obtain ⟨hbound, hids⟩ := ih (b := max b id)
    rw [List.foldl_cons]
    refine ⟨(le_max_left _ _).trans hbound, fun x hx => ?_⟩
    rcases List.mem_cons.mp hx with rfl | hx
    · exact (le_max_right _ _).trans hbound
    · exact hids x hx

theorem le_foldl_min {ids : List Int} {b c : Int} (hb : c ≤ b) (hids : ∀ id ∈ ids, c ≤ id) :
    c ≤ ids.foldl min b :=
  List.foldlRecOn (motive := fun least => c ≤ least) ids min hb fun _ hacc id hid =>
    le_min hacc (hids id hid)

theorem foldl_max_le {ids : List Int} {b c : Int} (hb : b ≤ c) (hids : ∀ id ∈ ids, id ≤ c) :
    ids.foldl max b ≤ c :=
  List.foldlRecOn (motive := fun most => most ≤ c) ids max hb fun _ hacc id hid =>
    max_le hacc (hids id hid)

theorem checkCPUIds_eq_ok {cpuIdsList : List SubpathCPUs} :
    checkCPUIds cpuIdsList = .ok () ↔
      (∃ cpus ∈ cpuIdsList, cpus.ids ≠ []) ∧
        ∀ cpus ∈ cpuIdsList, ∀ id ∈ cpus.ids, 0 ≤ id ∧ id < cpuSetSize := by
  have hmain : ¬0 ≤ mainThreadCPUId := by decide
  unfold checkCPUIds
  rw [foldl_widenBounds]
  simp only [hmain, if_false, assertThat_ok, Bool.and_eq_true, decide_eq_true_eq]
  constructor
  · rintro ⟨⟨hmin, hle⟩, hmax⟩
    constructor
    · by_contra hnone
      simp only [not_exists, not_and, not_not] at hnone
      rw [List.flatMap_eq_nil_iff.mpr hnone] at hle
      exact absurd hle (by decide)
    · intro cpus hcpus id hid
      have hmem := List.mem_flatMap.mpr ⟨cpus, hcpus, hid⟩
      exact ⟨hmin.trans (foldl_min_le.2 id hmem), (le_foldl_max.2 id hmem).trans_lt hmax⟩
  · rintro ⟨⟨cpus, hcpus, hne⟩, hrange⟩
    obtain ⟨id, hid⟩ := List.exists_mem_of_ne_nil _ hne
    have hmem := List.mem_flatMap.mpr ⟨cpus, hcpus, hid⟩
    have hall : ∀ id ∈ cpuIdsList.flatMap SubpathCPUs.ids, 0 ≤ id ∧ id ≤ cpuSetSize - 1 := by
      intro id hid
      obtain ⟨cpus, hcpus, hid⟩ := List.mem_flatMap.mp hid
      have h := hrange cpus hcpus id hid
      omega
    refine ⟨⟨le_foldl_min (by decide) fun id hid => (hall id hid).1,
      (foldl_min_le.2 id hmem).trans (le_foldl_max.2 id hmem)⟩, ?_⟩
    exact (foldl_max_le (by decide) fun id hid => (hall id hid).2).trans_lt (sub_one_lt _)

/-! ## The CPUs of a subpath -/

/-- The sanity check lets a list for all threads or lists per thread through, not both. -/
theorem one_of_parse {cpuIdsStr : Text} {cpus : SubpathCPUs}
    (h : parseSubpathCPUs cpuIdsStr = .ok cpus) :
    cpus.cpuIdsOfSubpath = [] ∨ cpus.cpuIdsOfSubpathThreads = [] := by
  obtain ⟨cpus', -, h⟩ := bind_eq_ok.mp h
  obtain ⟨_, hxor, h⟩ := bind_eq_ok.mp h
  obtain ⟨_, -, h⟩ := bind_eq_ok.mp h
  obtain rfl := Except.ok.inj h
  have hxor := assertThat_ok.mp hxor
  by_contra hboth
  obtain ⟨hall, hthreads⟩ := not_or.mp hboth
  simp [List.length_pos_of_ne_nil hall, List.length_pos_of_ne_nil hthreads] at hxor

/-- What reading the specification of a subpath gives: one list for all threads or, with a tilde,
one for each, and not neither. -/
inductive Reads : SubpathSpec → SubpathCPUs → Prop
  | all {cpus : CpuList} {ids : List Int} (hread : parseCSVOrRange cpus.text = .ok ids)
      (hne : ids ≠ []) : Reads (.all cpus) ⟨ids, []⟩
  | perThread {first second : CpuList} {rest : List CpuList} {lists : List (List Int)}
      (hread : List.Forall₂ (fun cpus ids => parseCSVOrRange (CpuList.text cpus) = .ok ids)
        (first :: second :: rest) lists) (hne : lists ≠ []) :
      Reads (.perThread first second rest) ⟨[], lists⟩

theorem reads_of_parse {s : SubpathSpec} {cpus : SubpathCPUs}
    (h : parseSubpathCPUs s.text = .ok cpus) : Reads s cpus := by
  obtain ⟨cpus', hcpus, h⟩ := bind_eq_ok.mp h
  obtain ⟨_, hxor, h⟩ := bind_eq_ok.mp h
  obtain ⟨_, -, h⟩ := bind_eq_ok.mp h
  obtain rfl := Except.ok.inj h
  have hxor := assertThat_ok.mp hxor
  unfold readSubpathCPUs at hcpus
  cases s with
  | all list =>
    have hnone : ¬(find (SubpathSpec.all list).text ['~'] 0).isSome = true := fun h =>
      CpuList.not_mem_text (by decide) (by decide) (by decide) (find_singleton_isSome.mp h)
    rw [if_neg hnone] at hcpus
    obtain ⟨ids, hids, hcpus⟩ := bind_eq_ok.mp hcpus
    obtain rfl := Except.ok.inj hcpus
    refine Reads.all hids ?_
    rintro rfl
    cases hxor
  | perThread first second rest =>
    have hsome : (find (SubpathSpec.perThread first second rest).text ['~'] 0).isSome = true :=
      find_singleton_isSome.mpr (by simp [SubpathSpec.text])
    rw [if_pos hsome, SubpathSpec.split_text, ok_bind] at hcpus
    obtain ⟨lists, hlists, hcpus⟩ := bind_eq_ok.mp hcpus
    obtain rfl := Except.ok.inj hcpus
    refine Reads.perThread (List.forall₂_map_left_iff.mp (mapM_eq_ok.mp hlists)) ?_
    rintro rfl
    cases hxor

/-! ## The row of a subpath -/

section Row

variable {groupPinning : Bool} {numThreads : Nat} {s : SubpathSpec} {cpus : SubpathCPUs}
  {row : List (Finset Int)}

theorem toSet_ok {ids : List Int} {condition : String} {set : Finset Int}
    (h : toSet ids condition = .ok set) : set = ids.toFinset := by
  obtain ⟨_, -, h⟩ := bind_eq_ok.mp h
  exact (Except.ok.inj h).symm

theorem row_of_all {ids : List Int}
    (h : subpathThreadCPUIds groupPinning numThreads ⟨ids, []⟩ = .ok row) :
    if groupPinning then row = List.replicate numThreads ids.toFinset
    else numThreads = ids.length ∧ row = ids.map fun id => {id} := by
  rw [subpathThreadCPUIds, if_neg (by simp)] at h
  cases groupPinning with
  | true =>
    obtain ⟨set, hset, h⟩ := bind_eq_ok.mp h
    obtain rfl := toSet_ok hset
    exact (Except.ok.inj h).symm
  | false =>
    obtain ⟨_, hcount, h⟩ := bind_eq_ok.mp h
    exact ⟨of_decide_eq_true (assertThat_ok.mp hcount), (Except.ok.inj h).symm⟩

theorem row_of_perThread {lists : List (List Int)} (hne : lists ≠ [])
    (h : subpathThreadCPUIds groupPinning numThreads ⟨[], lists⟩ = .ok row) :
    numThreads = lists.length ∧ row = lists.map List.toFinset := by
  rw [subpathThreadCPUIds, if_pos (List.length_pos_of_ne_nil hne)] at h
  obtain ⟨_, hcount, h⟩ := bind_eq_ok.mp h
  refine ⟨of_decide_eq_true (assertThat_ok.mp hcount), ?_⟩
  have hsets : List.Forall₂ Eq (lists.map List.toFinset) row :=
    List.forall₂_map_left_iff.mpr ((mapM_eq_ok.mp h).imp fun ids set hset => (toSet_ok hset).symm)
  exact (List.forall₂_eq_eq_eq ▸ hsets : lists.map List.toFinset = row).symm

theorem row_subset (hone : cpus.cpuIdsOfSubpath = [] ∨ cpus.cpuIdsOfSubpathThreads = [])
    (hrow : subpathThreadCPUIds groupPinning numThreads cpus = .ok row) :
    ∀ set ∈ row, ∀ id ∈ set, id ∈ cpus.ids := by
  intro set hset id hid
  obtain ⟨ids, lists⟩ := cpus
  rcases List.eq_nil_or_concat lists with rfl | ⟨init, last, rfl⟩
  · have hids : id ∈ ids := by
      have hcases := row_of_all hrow
      split at hcases
      · obtain rfl := hcases
        obtain ⟨-, rfl⟩ := List.mem_replicate.mp hset
        exact List.mem_toFinset.mp hid
      · obtain ⟨-, rfl⟩ := hcases
        obtain ⟨id', hid', rfl⟩ := List.mem_map.mp hset
        rwa [Finset.mem_singleton.mp hid]
    rwa [SubpathCPUs.ids, if_pos (List.length_pos_of_mem hids)]
  · obtain rfl : ids = [] := hone.resolve_right (by simp)
    obtain ⟨-, rfl⟩ := row_of_perThread (by simp) hrow
    obtain ⟨ids, hids, rfl⟩ := List.mem_map.mp hset
    rw [SubpathCPUs.ids, if_neg (by simp)]
    exact List.mem_flatten.mpr ⟨ids, hids, List.mem_toFinset.mp hid⟩

theorem row_of_proper (hreads : Reads s cpus)
    (hrow : subpathThreadCPUIds groupPinning numThreads cpus = .ok row)
    (hproper : ∀ c ∈ s.lists numThreads, c.Proper) :
    s.row groupPinning numThreads = some row ∧ ∀ set ∈ row, set.Nonempty := by
  cases hreads with
  | @all c ids hread hne =>
    have hids : 0 < numThreads → ids = c.ids := fun hpos =>
      parseCSVOrRange_text (hproper c (List.mem_replicate.mpr ⟨by omega, rfl⟩)) hread
    have hcases := row_of_all hrow
    cases groupPinning with
    | true =>
      obtain rfl : row = List.replicate numThreads ids.toFinset := hcases
      refine ⟨?_, fun set hset => ?_⟩
      · rcases Nat.eq_zero_or_pos numThreads with rfl | hpos
        · rfl
        · rw [hids hpos]
          rfl
      · obtain ⟨-, rfl⟩ := List.mem_replicate.mp hset
        exact List.toFinset_nonempty_iff ids |>.mpr hne
    | false =>
      obtain ⟨hcount, rfl⟩ : numThreads = ids.length ∧ row = ids.map fun id => {id} := hcases
      have heq := hids (hcount ▸ List.length_pos_of_ne_nil hne)
      refine ⟨?_, fun set hset => ?_⟩
      · simp [SubpathSpec.row, ← heq, hcount]
      · obtain ⟨id, -, rfl⟩ := List.mem_map.mp hset
        exact Finset.singleton_nonempty id
  | @perThread first second rest lists hread hne =>
    obtain ⟨hcount, rfl⟩ := row_of_perThread hne hrow
    have hlists : List.Forall₂ Eq ((first :: second :: rest).map CpuList.ids) lists :=
      List.forall₂_map_left_iff.mpr (List.forall₂_iff_get.mpr ⟨hread.length_eq, fun i h₁ h₂ =>
        (parseCSVOrRange_text (hproper _ (List.get_mem _ _)) (hread.get h₁ h₂)).symm⟩)
    rw [List.forall₂_eq_eq_eq] at hlists
    subst hlists
    refine ⟨?_, fun set hset => ?_⟩
    · rw [SubpathSpec.row, if_pos (by rw [hcount, List.length_map]), List.map_map]
      rfl
    · obtain ⟨_, hids, rfl⟩ := List.mem_map.mp hset
      obtain ⟨c, hc, rfl⟩ := List.mem_map.mp hids
      exact List.toFinset_nonempty_iff _ |>.mpr (CpuList.ids_ne_nil (hproper c hc))

theorem ids_mem_row (hspec : s.row groupPinning numThreads = some row) {c : CpuList}
    (hc : c ∈ s.lists numThreads) :
    (∀ id ∈ c.ids, ∃ set ∈ row, id ∈ set) ∧ (c.ids = [] → ∅ ∈ row) := by
  cases s with
  | all cpus =>
    obtain ⟨hpos, rfl⟩ := List.mem_replicate.mp hc
    rw [SubpathSpec.row] at hspec
    split at hspec
    · obtain rfl := Option.some.inj hspec
      have hmem : c.ids.toFinset ∈ List.replicate numThreads c.ids.toFinset :=
        List.mem_replicate.mpr ⟨hpos, rfl⟩
      refine ⟨fun id hid => ⟨_, hmem, List.mem_toFinset.mpr hid⟩, fun hnil => ?_⟩
      rwa [hnil] at hmem ⊢
    · split at hspec
      case isTrue hcount =>
        obtain rfl := Option.some.inj hspec
        refine ⟨fun id hid => ⟨{id}, List.mem_map_of_mem hid, Finset.mem_singleton_self id⟩, ?_⟩
        intro hnil
        rw [hnil, List.length_nil] at hcount
        exact absurd hcount.symm hpos
      case isFalse => cases hspec
  | perThread first second rest =>
    rw [SubpathSpec.row] at hspec
    split at hspec
    · obtain rfl := Option.some.inj hspec
      have hmem : c.ids.toFinset ∈ _ := List.mem_map_of_mem (f := fun c => c.ids.toFinset) hc
      refine ⟨fun id hid => ⟨_, hmem, List.mem_toFinset.mpr hid⟩, fun hnil => ?_⟩
      rwa [hnil] at hmem
    · cases hspec

/-- A specified row of non-empty sets without negative ids comes from proper lists. -/
theorem proper_of_row (hspec : s.row groupPinning numThreads = some row)
    (hnonempty : ∀ set ∈ row, set.Nonempty) (hnonneg : ∀ set ∈ row, ∀ id ∈ set, 0 ≤ id) :
    ∀ c ∈ s.lists numThreads, c.Proper := by
  intro c hc
  obtain ⟨hids, hnil⟩ := ids_mem_row hspec hc
  refine CpuList.proper_of_nonneg (fun h => ?_) fun id hid => ?_
  · exact Finset.not_nonempty_empty (hnonempty _ (hnil h))
  · obtain ⟨set, hset, hid⟩ := hids id hid
    exact hnonneg set hset id hid

end Row

/-! ## The table -/

section Table

variable {spec : CpuSpec} {groupPinning : Bool} {threads : List Nat}
  {table : List (List (Finset Int))}

theorem CpuSpec.table_eq_some : spec.table groupPinning threads = some table ↔
    table.length = threads.length ∧ ∀ (i : Nat) (row : List (Finset Int)), table[i]? = some row →
      ∃ s numThreads, spec.subpath i = some s ∧ threads[i]? = some numThreads ∧
        s.row groupPinning numThreads = some row := by
  rw [CpuSpec.table, mapM_range_eq_some]
  refine and_congr_right fun hlength => ?_
  simp only [Option.bind_eq_bind]
  constructor
  · intro h i row hi
    have hlt := (List.getElem?_eq_some_iff.mp hi).1
    obtain ⟨s, hs, hrow⟩ := Option.bind_eq_some_iff.mp ((h i (by omega)).trans hi)
    obtain ⟨numThreads, hthreads, hrow⟩ := Option.bind_eq_some_iff.mp hrow
    exact ⟨s, numThreads, hs, hthreads, hrow⟩
  · intro h i hi
    have hget := List.getElem?_eq_getElem (show i < table.length by omega)
    obtain ⟨s, numThreads, hs, hthreads, hrow⟩ := h i _ hget
    rw [hget, hs, Option.bind_some, hthreads, Option.bind_some, hrow]

theorem subpath_of_copies {cpuIdsList : List SubpathCPUs} {first cpus : SubpathCPUs} {n i : Nat}
    (hparse : List.Forall₂ (fun s cpus => parseSubpathCPUs (SubpathSpec.text s) = .ok cpus)
      spec.subpaths cpuIdsList)
    (hfirst : cpuIdsList[0]? = some first)
    (hcpus : (if cpuIdsList.length = 1 ∧ 1 < n then cpuIdsList ++ List.replicate (n - 1) first
      else cpuIdsList)[i]? = some cpus) :
    ∃ s, spec.subpath i = some s ∧ parseSubpathCPUs s.text = .ok cpus := by
  have hlength := hparse.length_eq
  by_cases hsingle : spec.rest = []
  · rw [CpuSpec.subpaths, hsingle] at hparse hlength
    obtain ⟨only, rfl⟩ := List.length_eq_one_iff.mp hlength.symm
    obtain rfl : only = first := Option.some.inj hfirst
    have hcopy : cpus = only := by
      have hmem := List.mem_of_getElem? hcpus
      split at hmem
      · rcases List.mem_append.mp hmem with h | h
        · exact List.mem_singleton.mp h
        · exact List.eq_of_mem_replicate h
      · exact List.mem_singleton.mp hmem
    refine ⟨spec.first, by rw [CpuSpec.subpath, if_pos hsingle], ?_⟩
    rw [hcopy]
    exact (List.forall₂_cons.mp hparse).1
  · have hmany : ¬(cpuIdsList.length = 1 ∧ 1 < n) := by
      rintro ⟨hone, -⟩
      rw [hone, CpuSpec.subpaths, List.length_cons] at hlength
      exact hsingle (List.eq_nil_of_length_eq_zero (by omega))
    rw [if_neg hmany] at hcpus
    obtain ⟨hi, rfl⟩ := List.getElem?_eq_some_iff.mp hcpus
    have hi' : i < spec.subpaths.length := hlength ▸ hi
    refine ⟨spec.subpaths[i], ?_, hparse.get hi' hi⟩
    rw [CpuSpec.subpath, if_neg hsingle, List.getElem?_eq_getElem hi']

/-- The check covers every id of the table. -/
theorem pinned_ids_in_range {cpuIdsInput : Text}
    (h : pinnedCpuIdSets groupPinning threads cpuIdsInput = .ok table) :
    ∀ row ∈ table, ∀ set ∈ row, ∀ id ∈ set, 0 ≤ id ∧ id < cpuSetSize := by
  obtain ⟨specs, -, h⟩ := bind_eq_ok.mp h
  obtain ⟨cpuIdsList, hparse, h⟩ := bind_eq_ok.mp h
  obtain ⟨⟨⟩, hcheck, h⟩ := bind_eq_ok.mp h
  obtain ⟨_, -, h⟩ := bind_eq_ok.mp h
  obtain ⟨first, hfirst, h⟩ := bind_eq_ok.mp h
  obtain ⟨-, hrows⟩ := mapM_range_eq_ok.mp h
  intro row hmem set hset id hid
  obtain ⟨i, hi⟩ := List.mem_iff_getElem?.mp hmem
  obtain ⟨cpus, hcpus, hrow⟩ := bind_eq_ok.mp (hrows i row hi)
  obtain ⟨numThreads, -, hrow⟩ := bind_eq_ok.mp hrow
  rw [elementAt_eq_ok] at hfirst hcpus
  have hcpus : cpus ∈ cpuIdsList := by
    have hcopies := List.mem_of_getElem? hcpus
    split at hcopies
    · rcases List.mem_append.mp hcopies with h | h
      · exact h
      · exact List.eq_of_mem_replicate h ▸ List.mem_of_getElem? hfirst
    · exact hcopies
  obtain ⟨spec, -, hspec⟩ := (exists_mem_of_forall₂ (mapM_eq_ok.mp hparse)).2 cpus hcpus
  exact (checkCPUIds_eq_ok.mp hcheck).2 cpus hcpus id
    (row_subset (one_of_parse hspec) hrow set hset id hid)

/-- Every row comes from the specification of its subpath, a single one standing for all. -/
theorem pinned_rows (h : pinnedCpuIdSets groupPinning threads spec.text = .ok table) :
    table.length = threads.length ∧ ∀ (i : Nat) (row : List (Finset Int)), table[i]? = some row →
      ∃ s cpus numThreads, spec.subpath i = some s ∧ threads[i]? = some numThreads ∧
        Reads s cpus ∧ subpathThreadCPUIds groupPinning numThreads cpus = .ok row := by
  rw [pinnedCpuIdSets, spec.split_text, ok_bind] at h
  obtain ⟨cpuIdsList, hparse, h⟩ := bind_eq_ok.mp h
  obtain ⟨_, -, h⟩ := bind_eq_ok.mp h
  obtain ⟨_, -, h⟩ := bind_eq_ok.mp h
  obtain ⟨first, hfirst, h⟩ := bind_eq_ok.mp h
  obtain ⟨hlength, hrows⟩ := mapM_range_eq_ok.mp h
  rw [mapM_eq_ok, List.forall₂_map_left_iff] at hparse
  refine ⟨hlength, fun i row hi => ?_⟩
  obtain ⟨cpus, hcpus, hrow⟩ := bind_eq_ok.mp (hrows i row hi)
  obtain ⟨numThreads, hthreads, hrow⟩ := bind_eq_ok.mp hrow
  rw [elementAt_eq_ok] at hfirst hcpus hthreads
  obtain ⟨s, hs, hread⟩ := subpath_of_copies hparse hfirst hcpus
  exact ⟨s, cpus, numThreads, hs, hthreads, reads_of_parse hread, hrow⟩

end Table

section Parse

variable {ε : Type} {env : Environment ε} {program : Text} {args files : List Text} {v : Inputs ε}
  {p : Parsed ε}

/-- The table is the specified one and pins every thread exactly when the lists that threads are
pinned by are proper. -/
theorem pinning_iff (hscan : scanOptions env program args = .ok (v, files))
    (hparse : parseOptions env program args = .ok p) {spec : CpuSpec}
    (hspec : v.cpuIdsInput = spec.text) {threads : List Nat}
    (hthreads : v.threadCounts = .ok threads) :
    (spec.table v.groupPinning threads = some p.cpuIdSets ∧
        ∀ row ∈ p.cpuIdSets, ∀ set ∈ row, set.Nonempty) ↔
      ∀ (i : Nat) (s : SubpathSpec) (numThreads : Nat), spec.subpath i = some s →
        threads[i]? = some numThreads → ∀ c ∈ s.lists numThreads, c.Proper := by
  obtain ⟨-, hthreads', -, htable, -⟩ := parseOptions_ok hscan hparse
  obtain rfl := Except.ok.inj (hthreads.symm.trans hthreads')
  rw [Inputs.cpuIdSets, hspec, if_pos (List.length_pos_of_ne_nil spec.text_ne_nil)] at htable
  obtain ⟨hlength, hrows⟩ := pinned_rows htable
  constructor
  · rintro ⟨hdenoted, hnonempty⟩ i s numThreads hs hcount
    have hlt := (List.getElem?_eq_some_iff.mp hcount).1
    have hi := List.getElem?_eq_getElem (hlength.symm ▸ hlt)
    have hmem := List.mem_of_getElem? hi
    obtain ⟨s', n, hs', hn, hrow⟩ := (CpuSpec.table_eq_some.mp hdenoted).2 i _ hi
    obtain rfl := Option.some.inj (hs.symm.trans hs')
    obtain rfl := Option.some.inj (hcount.symm.trans hn)
    exact proper_of_row hrow (hnonempty _ hmem) fun set hset id hid =>
      (pinned_ids_in_range htable _ hmem set hset id hid).1
  · intro hproper
    have hrow : ∀ (i : Nat) (row : List (Finset Int)), p.cpuIdSets[i]? = some row →
        ∃ s numThreads, spec.subpath i = some s ∧ p.subpathThreadCounts[i]? = some numThreads ∧
          s.row v.groupPinning numThreads = some row ∧ ∀ set ∈ row, set.Nonempty := by
      intro i row hi
      obtain ⟨s, cpus, numThreads, hs, hcount, hreads, hrow⟩ := hrows i row hi
      exact ⟨s, numThreads, hs, hcount,
        row_of_proper hreads hrow (hproper i s numThreads hs hcount)⟩
    refine ⟨CpuSpec.table_eq_some.mpr ⟨hlength, fun i row hi => ?_⟩, fun row hmem => ?_⟩
    · obtain ⟨s, numThreads, hs, hcount, hspecified, -⟩ := hrow i row hi
      exact ⟨s, numThreads, hs, hcount, hspecified⟩
    · obtain ⟨i, hi⟩ := List.mem_iff_getElem?.mp hmem
      obtain ⟨_, _, -, -, -, hnonempty⟩ := hrow i row hi
      exact hnonempty

end Parse

/-- `0-1~2,3.4-7`: lists for two threads, and one list for the second subpath. -/
def twoSubpathsSpec : CpuSpec where
  first := .perThread (.range (.digit '0' rfl) (.digit '1' rfl))
    (.csv (.digit '2' rfl) [.digit '3' rfl]) []
  rest := [.all (.range (.digit '4' rfl) (.digit '7' rfl))]

theorem pinning_iff_two_subpaths :
    ∃ (v : Inputs Unit) (files : List Text) (p : Parsed Unit),
      scanOptions .simple [] (["-T", "2,1", "-C", "0-1~2,3.4-7", "1"].map String.toList) =
        .ok (v, files) ∧
      parseOptions .simple [] (["-T", "2,1", "-C", "0-1~2,3.4-7", "1"].map String.toList) = .ok p ∧
      v.cpuIdsInput = twoSubpathsSpec.text ∧ v.threadCounts = .ok [2, 1] ∧
      ((twoSubpathsSpec.table v.groupPinning [2, 1] = some p.cpuIdSets ∧
          ∀ row ∈ p.cpuIdSets, ∀ set ∈ row, set.Nonempty) ↔
        ∀ (i : Nat) (s : SubpathSpec) (numThreads : Nat), twoSubpathsSpec.subpath i = some s →
          [2, 1][i]? = some numThreads → ∀ c ∈ s.lists numThreads, c.Proper) := by
  obtain ⟨v, files, hscan, hspec, hthreads⟩ : ∃ (v : Inputs Unit) (files : List Text),
      scanOptions .simple [] (["-T", "2,1", "-C", "0-1~2,3.4-7", "1"].map String.toList) =
        .ok (v, files) ∧
      v.cpuIdsInput = twoSubpathsSpec.text ∧ v.threadCounts = .ok [2, 1] := ⟨_, _, rfl, rfl, rfl⟩
  obtain ⟨p, hparse⟩ : ∃ p : Parsed Unit, parseOptions .simple []
      (["-T", "2,1", "-C", "0-1~2,3.4-7", "1"].map String.toList) = .ok p := ⟨_, rfl⟩
  exact ⟨v, files, p, hscan, hparse, hspec, hthreads, pinning_iff hscan hparse hspec hthreads⟩

/-- `0~5-3`: the list of the second thread is empty. -/
def emptyRangeSpec : CpuSpec where
  first := .perThread (.csv (.digit '0' rfl) []) (.range (.digit '5' rfl) (.digit '3' rfl)) []
  rest := []

/-- `-T 2 -C 0~5-3 1` is accepted, and the second thread is not pinned. -/
theorem pinning_leaves_thread_unpinned :
    ∃ (v : Inputs Unit) (files : List Text) (p : Parsed Unit),
      scanOptions .simple [] (["-T", "2", "-C", "0~5-3", "1"].map String.toList) =
        .ok (v, files) ∧
      parseOptions .simple [] (["-T", "2", "-C", "0~5-3", "1"].map String.toList) = .ok p ∧
      v.cpuIdsInput = emptyRangeSpec.text ∧ v.threadCounts = .ok [2] ∧
      p.cpuIdSet 0 1 = .ok ∅ ∧
      ¬(emptyRangeSpec.table v.groupPinning [2] = some p.cpuIdSets ∧
        ∀ row ∈ p.cpuIdSets, ∀ set ∈ row, set.Nonempty) := by
  obtain ⟨v, files, hscan, hspec, hthreads⟩ : ∃ (v : Inputs Unit) (files : List Text),
      scanOptions .simple [] (["-T", "2", "-C", "0~5-3", "1"].map String.toList) =
        .ok (v, files) ∧
      v.cpuIdsInput = emptyRangeSpec.text ∧ v.threadCounts = .ok [2] := ⟨_, _, rfl, rfl, rfl⟩
  obtain ⟨p, hparse, hsets⟩ : ∃ p : Parsed Unit, parseOptions .simple []
      (["-T", "2", "-C", "0~5-3", "1"].map String.toList) = .ok p ∧
      p.cpuIdSets = [[{0}, ∅]] := ⟨_, rfl, rfl⟩
  refine ⟨v, files, p, hscan, hparse, hspec, hthreads, ?_, fun h => ?_⟩
  · rw [Parsed.cpuIdSet, hsets]
    rfl
  · exact Finset.not_nonempty_empty (h.2 [{0}, ∅] (by simp [hsets]) ∅ (by simp))

end Cachetest
