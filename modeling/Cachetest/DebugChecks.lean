import Cachetest.SplitPath

/-!
# The checks of a debug build

Built with `DEBUG`, `splitPointerChasingPath` prints the rings it has made and checks them:
`printPath` asserts that a ring has the length of its info, and then every ring has to lie above the
one before. `debugSplit_ok` says what the checks accept, in any memory; over a path that
`doDistribute` has built they tell whether it has been split as intended
(`debug_checks_splitsInto`).
-/

namespace Cachetest

open ByteMemory Circuit

/-! ## The code -/

/-- The variables of `printPath`, and the indices it has printed. -/
structure PathVars where
  indices : List Nat
  minIdx : Nat
  maxIdx : Nat
  length : Nat
  deriving DecidableEq, Repr

namespace PathVars

def initial : PathVars where
  indices := []
  minIdx := 4294967295
  maxIdx := 0
  length := 0

/-- What a round of the loop does before it goes on to the next index. -/
def visit (v : PathVars) (idx : Nat) : PathVars where
  indices := v.indices ++ [idx]
  minIdx := if v.minIdx < idx then v.minIdx else idx
  maxIdx := if v.maxIdx > idx then v.maxIdx else idx
  length := v.length + 1

end PathVars

/-- The `do` loop of `printPath` with a bound on the number of rounds: `none` when it has not ended
by then. -/
def walkPath (m : Memory) (startIdx : Nat) : Nat → Nat → PathVars → Option PathVars
  | 0, _, _ => none
  | fuel + 1, idx, v =>
    if startIdx ≠ m.load idx then walkPath m startIdx fuel (m.load idx) (v.visit idx)
    else some (v.visit idx)

/-- `printPath`. -/
def printPath (fuel : Nat) (m : Memory) (idx : Nat) (info : Option SubpathInfo) :
    Option (Outcome PathVars) :=
  (walkPath m idx fuel idx .initial).map fun v => do
    if let some info := info then
      assertThat (v.length = info.length) "length == info->length"
    return v

/-- The `for` loop over the subpaths after one whose greatest index is `prevMaxIdx`. -/
def printSubpaths (fuel : Nat) (m : Memory) :
    Nat → List SubpathInfo → Option (Outcome (List PathVars))
  | _, [] => some (.ok [])
  | prevMaxIdx, info :: infos =>
    match printPath fuel m info.startIdx (some info) with
    | none => none
    | some (.error stop) => some (.error stop)
    | some (.ok v) =>
      if prevMaxIdx < v.minIdx then
        (printSubpaths fuel m v.maxIdx infos).map fun paths => paths.map (v :: ·)
      else some (.error (.assertFailed "prevMaxIdx < minIdx"))

/-- `splitPointerChasingPath` built with `DEBUG`, and what it prints. -/
def debugSplit (fuel : Nat) (infos : List SubpathInfo) (m : Memory) :
    Option (Outcome (Memory × List PathVars)) :=
  let m := splitPointerChasingPath infos m
  match infos with
  | [] => some (.error (.undefined "subpathInfo[0]"))
  | info :: infos =>
    match printPath fuel m info.startIdx (some info) with
    | none => none
    | some (.error stop) => some (.error stop)
    | some (.ok v) =>
      (printSubpaths fuel m v.maxIdx infos).map fun paths => paths.map fun paths => (m, v :: paths)

/-! ## The loop of `printPath` -/

section Loop

variable {m : Memory} {x : Nat}

/-- What the loop has printed after the indices `xs`. -/
def PathVars.along (xs : List Nat) : PathVars := xs.foldl .visit .initial

theorem foldl_visit (xs : List Nat) (v : PathVars) :
    (xs.foldl .visit v).indices = v.indices ++ xs ∧
      (xs.foldl .visit v).length = v.length + xs.length := by
  induction xs generalizing v with
  | nil => simp
  | cons a xs ih =>
    obtain ⟨hindices, hlength⟩ := ih (v.visit a)
    rw [List.foldl_cons, hindices, hlength]
    simp only [PathVars.visit, List.append_assoc, List.singleton_append, List.length_cons, true_and]
    omega

@[simp] theorem PathVars.indices_along (xs : List Nat) : (along xs).indices = xs :=
  (foldl_visit xs initial).1

@[simp] theorem PathVars.length_along (xs : List Nat) : (along xs).length = xs.length :=
  (foldl_visit xs initial).2.trans (Nat.zero_add _)

theorem foldl_visit_maxIdx_lt {xs : List Nat} {v : PathVars} {b : Nat} :
    (xs.foldl .visit v).maxIdx < b ↔ v.maxIdx < b ∧ ∀ a ∈ xs, a < b := by
  induction xs generalizing v with
  | nil => simp
  | cons a xs ih =>
    rw [List.foldl_cons, ih, List.forall_mem_cons, ← and_assoc, PathVars.visit]
    refine and_congr_left fun _ => ?_
    simp only
    split <;> omega

theorem lt_foldl_visit_minIdx {xs : List Nat} {v : PathVars} {b : Nat} :
    b < (xs.foldl .visit v).minIdx ↔ b < v.minIdx ∧ ∀ a ∈ xs, b < a := by
  induction xs generalizing v with
  | nil => simp
  | cons a xs ih =>
    rw [List.foldl_cons, ih, List.forall_mem_cons, ← and_assoc, PathVars.visit]
    refine and_congr_left fun _ => ?_
    simp only
    split <;> omega

/-- The check of two rings compares all of their indices. -/
theorem maxIdx_lt_minIdx {xs ys : List Nat} (hxs : xs ≠ []) (hys : ys ≠ [])
    (hrange : ∀ b ∈ ys, b < unsignedRange) :
    (PathVars.along xs).maxIdx < (PathVars.along ys).minIdx ↔ ∀ a ∈ xs, ∀ b ∈ ys, a < b := by
  obtain ⟨a, ha⟩ := List.exists_mem_of_ne_nil xs hxs
  obtain ⟨b, hb⟩ := List.exists_mem_of_ne_nil ys hys
  have hlt := hrange b hb
  rw [PathVars.along, PathVars.along, foldl_visit_maxIdx_lt, lt_foldl_visit_minIdx]
  simp only [lt_foldl_visit_minIdx, PathVars.initial]
  constructor
  · rintro ⟨-, hall⟩ a ha b hb
    exact (hall a ha).2 b hb
  · intro hall
    refine ⟨⟨by decide, fun b hb => (Nat.zero_le a).trans_lt (hall a ha b hb)⟩, fun a ha =>
      ⟨?_, hall a ha⟩⟩
    have hless := hall a ha b hb
    simp only [unsignedRange] at hlt
    omega

/-- The loop runs through a walk up to its end, which it does not meet before. -/
theorem walkPath_of_leads {xs : List Nat} :
    ∀ {idx fuel : Nat} {v : PathVars}, Leads m.load (idx :: xs) x → x ∉ xs → xs.length < fuel →
      walkPath m x fuel idx v = some ((idx :: xs).foldl .visit v) := by
  induction xs with
  | nil =>
    intro idx fuel v hleads _ hfuel
    obtain ⟨fuel, rfl⟩ := Nat.exists_eq_succ_of_ne_zero hfuel.ne'
    rw [leads_singleton] at hleads
    simp [walkPath, hleads]
  | cons a xs ih =>
    intro idx fuel v hleads hx hfuel
    obtain ⟨fuel, rfl⟩ := Nat.exists_eq_succ_of_ne_zero (Nat.ne_zero_of_lt hfuel)
    rw [leads_cons_cons] at hleads
    rw [List.mem_cons, not_or] at hx
    rw [walkPath, if_pos (hleads.1.symm ▸ hx.1), hleads.1,
      ih hleads.2 hx.2 (Nat.lt_of_succ_lt_succ hfuel)]
    rfl

theorem leads_of_walkPath {fuel idx : Nat} {v w : PathVars}
    (h : walkPath m x fuel idx v = some w) :
    ∃ xs, Leads m.load (idx :: xs) x ∧ x ∉ xs ∧ w = (idx :: xs).foldl .visit v := by
  induction fuel generalizing idx v with
  | zero => cases h
  | succ fuel ih =>
    rw [walkPath] at h
    split at h
    case isTrue hne =>
      obtain ⟨xs, hleads, hx, rfl⟩ := ih h
      refine ⟨m.load idx :: xs, (leads_cons_cons ..).mpr ⟨rfl, hleads⟩, ?_, rfl⟩
      rw [List.mem_cons, not_or]
      exact ⟨hne, hx⟩
    case isFalse heq =>
      rw [not_not] at heq
      exact ⟨[], (leads_singleton ..).mpr heq.symm, List.not_mem_nil, (Option.some.inj h).symm⟩

/-- **`printPath` ends exactly when its start lies on a ring**, which it has printed then. -/
theorem walkPath_eq_some {w : PathVars} :
    (∃ fuel, walkPath m x fuel x .initial = some w) ↔
      ∃ ring, IsCircuit m.load x ring ∧ w = .along ring := by
  constructor
  · rintro ⟨fuel, h⟩
    obtain ⟨xs, hleads, hx, rfl⟩ := leads_of_walkPath h
    exact ⟨x :: xs, .of_leads hleads hx, rfl⟩
  · rintro ⟨ring, hring, rfl⟩
    obtain ⟨xs, rfl⟩ := List.head?_eq_some_iff.mp hring.head
    exact ⟨xs.length + 1, walkPath_of_leads hring.leads (List.nodup_cons.mp hring.nodup).1
      (Nat.lt_succ_self _)⟩

end Loop

/-! ## What the checks accept -/

section Checks

variable {m : Memory} {infos : List SubpathInfo} {info : SubpathInfo} {v : PathVars}
  {paths : List PathVars}

/-- `printPath` has printed the ring of a subpath, which has the right length. -/
structure RingPrinted (m : Memory) (info : SubpathInfo) (v : PathVars) : Prop where
  ring : IsCircuit m.load info.startIdx v.indices
  along : v = .along v.indices
  length : v.length = info.length

theorem RingPrinted.ne_nil (h : RingPrinted m info v) : v.indices ≠ [] :=
  List.ne_nil_of_length_pos h.ring.length_pos

theorem RingPrinted.lt (h : RingPrinted m info v) {a : Nat} (ha : a ∈ v.indices) :
    a < unsignedRange := by
  obtain ⟨i, hi, rfl⟩ := (h.ring.mem_iff a).mp ha
  have hlap := h.ring.iterate_length
  -- One lap later the index has been loaded.
  rw [← hlap, ← Function.iterate_add_apply, Nat.add_comm]
  obtain ⟨n, hn⟩ := Nat.exists_eq_succ_of_ne_zero (Nat.ne_of_gt (Nat.add_pos_left
    h.ring.length_pos i))
  rw [hn, Function.iterate_succ_apply']
  exact m.load_lt _

theorem RingPrinted.maxIdx_lt_iff {info' : SubpathInfo} {v' : PathVars} (h : RingPrinted m info v)
    (h' : RingPrinted m info' v') :
    v.maxIdx < v'.minIdx ↔ ∀ a ∈ v.indices, ∀ b ∈ v'.indices, a < b := by
  rw [h.along, h'.along, maxIdx_lt_minIdx h.ne_nil h'.ne_nil fun b hb => h'.lt hb,
    PathVars.indices_along, PathVars.indices_along]

theorem printed_of_printPath {fuel : Nat}
    (h : printPath fuel m info.startIdx (some info) = some (.ok v)) : RingPrinted m info v := by
  obtain ⟨w, hwalk, hw⟩ := Option.map_eq_some_iff.mp h
  obtain ⟨ring, hring, rfl⟩ := walkPath_eq_some.mp ⟨fuel, hwalk⟩
  obtain ⟨_, hlength, hw⟩ := bind_eq_ok.mp hw
  obtain rfl := Except.ok.inj hw
  rw [assertThat_ok, decide_eq_true_eq] at hlength
  exact ⟨by rwa [PathVars.indices_along], by rw [PathVars.indices_along], hlength⟩

theorem RingPrinted.printPath_eq (h : RingPrinted m info v) {fuel : Nat} (hfuel : v.length ≤ fuel) :
    printPath fuel m info.startIdx (some info) = some (.ok v) := by
  obtain ⟨xs, hxs⟩ := List.head?_eq_some_iff.mp h.ring.head
  have hring := h.ring
  have halong := h.along
  rw [hxs] at hring halong
  rw [halong, PathVars.length_along, List.length_cons] at hfuel
  have hwalk : walkPath m info.startIdx fuel info.startIdx .initial = _ :=
    walkPath_of_leads hring.leads (List.nodup_cons.mp hring.nodup).1 hfuel
  rw [printPath, hwalk, Option.map_some]
  change some (_ : Outcome PathVars) = _
  rw [← PathVars.along, ← halong, h.length]
  simp [pure, Except.pure]

/-- The loop over the subpaths has checked every ring against the one before. -/
theorem printSubpaths_ok {fuel : Nat}
    (h : printSubpaths fuel m v.maxIdx infos = some (.ok paths)) :
    List.Forall₂ (RingPrinted m) infos paths ∧
      (v :: paths).IsChain fun v v' => v.maxIdx < v'.minIdx := by
  induction infos generalizing v paths with
  | nil =>
    obtain rfl := Except.ok.inj (Option.some.inj h)
    exact ⟨.nil, .singleton v⟩
  | cons info infos ih =>
    rw [printSubpaths] at h
    split at h
    case h_1 => cases h
    case h_2 => cases h
    case h_3 w hprint =>
      split at h
      case isTrue hless =>
        obtain ⟨rest, hrest, hpaths⟩ := Option.map_eq_some_iff.mp h
        cases rest with
        | error stop => cases hpaths
        | ok rest =>
          obtain rfl := Except.ok.inj hpaths
          obtain ⟨hprinted, hchain⟩ := ih hrest
          exact ⟨.cons (printed_of_printPath hprint) hprinted, .cons_cons hless hchain⟩
      case isFalse => cases h

theorem printSubpaths_eq {fuel : Nat} (hprinted : List.Forall₂ (RingPrinted m) infos paths)
    (hchain : (v :: paths).IsChain fun v v' => v.maxIdx < v'.minIdx)
    (hfuel : ∀ v ∈ paths, v.length ≤ fuel) :
    printSubpaths fuel m v.maxIdx infos = some (.ok paths) := by
  induction hprinted generalizing v with
  | nil => rfl
  | cons hprint _ ih =>
    obtain ⟨hless, hchain⟩ := List.isChain_cons_cons.mp hchain
    rw [List.forall_mem_cons] at hfuel
    rw [printSubpaths, hprint.printPath_eq hfuel.1]
    simp only [if_pos hless, ih hchain hfuel.2]
    rfl

theorem isChain_iff (hprinted : List.Forall₂ (RingPrinted m) infos paths) :
    (paths.IsChain fun v v' => v.maxIdx < v'.minIdx) ↔
      paths.IsChain fun v v' => ∀ a ∈ v.indices, ∀ b ∈ v'.indices, a < b := by
  induction hprinted with
  | nil => exact iff_of_true .nil .nil
  | cons hprint hrest ih =>
    cases hrest with
    | nil => exact iff_of_true (.singleton _) (.singleton _)
    | cons hnext hrest =>
      rw [List.isChain_cons_cons, List.isChain_cons_cons, hprint.maxIdx_lt_iff hnext]
      exact and_congr_right fun _ => ih

/-- **What the checks accept**, in any memory: after the split every info's start lies on a ring of
its length, and every ring lies above the one before. These rings are what is printed. -/
theorem debugSplit_ok {m' : Memory} :
    (∃ fuel, debugSplit fuel infos m = some (.ok (m', paths))) ↔
      infos ≠ [] ∧ m' = splitPointerChasingPath infos m ∧
        List.Forall₂ (RingPrinted m') infos paths ∧
        paths.IsChain fun v v' => ∀ a ∈ v.indices, ∀ b ∈ v'.indices, a < b := by
  constructor
  · rintro ⟨fuel, h⟩
    cases infos with
    | nil => cases h
    | cons info infos =>
      rw [debugSplit] at h
      split at h
      case h_1 => cases h
      case h_2 => cases h
      case h_3 v hprint =>
        obtain ⟨rest, hrest, hpaths⟩ := Option.map_eq_some_iff.mp h
        cases rest with
        | error stop => cases hpaths
        | ok rest =>
          obtain ⟨rfl, rfl⟩ := Prod.mk.inj (Except.ok.inj hpaths)
          obtain ⟨hprinted, hchain⟩ := printSubpaths_ok hrest
          have hall := hprinted.cons (printed_of_printPath hprint)
          exact ⟨List.cons_ne_nil _ _, rfl, hall, (isChain_iff hall).mp hchain⟩
  · rintro ⟨hne, rfl, hprinted, hchain⟩
    rw [← isChain_iff hprinted] at hchain
    obtain ⟨fuel, hfuel⟩ : ∃ fuel, ∀ v ∈ paths, v.length ≤ fuel :=
      ⟨(paths.map fun v => v.length).sum, fun v hv =>
        List.single_le_sum (fun _ _ => Nat.zero_le _) _ (List.mem_map_of_mem hv)⟩
    refine ⟨fuel, ?_⟩
    cases hprinted with
    | nil => exact absurd rfl hne
    | cons hprint hrest =>
      rw [List.forall_mem_cons] at hfuel
      simp only [debugSplit, hprint.printPath_eq hfuel.1, printSubpaths_eq hrest hchain hfuel.2]
      rfl

/-- A path that is split as intended passes. -/
theorem debugSplit_of_splitsInto {origin : Nat} (hne : infos ≠ [])
    (h : SplitsInto infos m (splitPointerChasingPath infos m) origin) :
    ∃ fuel paths,
      debugSplit fuel infos m = some (.ok (splitPointerChasingPath infos m, paths)) := by
  obtain ⟨cycle, hcycle, -, -, hascending, -⟩ := h
  let paths := (List.range infos.length).map fun k => PathVars.along (cycle k)
  have hprinted : List.Forall₂ (RingPrinted (splitPointerChasingPath infos m)) infos paths := by
    refine List.forall₂_iff_get.mpr ⟨by simp [paths], fun k hk hk' => ?_⟩
    obtain ⟨hring, hlength⟩ := hcycle k _ (List.getElem?_eq_getElem hk)
    have hpath : paths.get ⟨k, hk'⟩ = .along (cycle k) := by simp [paths]
    rw [hpath]
    exact ⟨by rwa [PathVars.indices_along], by rw [PathVars.indices_along],
      (PathVars.length_along _).trans hlength⟩
  have hchain : paths.IsChain fun v v' => ∀ a ∈ v.indices, ∀ b ∈ v'.indices, a < b := by
    refine List.Pairwise.isChain (List.pairwise_map.mpr ?_)
    refine List.pairwise_lt_range.imp_of_mem fun hj hk hjk => ?_
    rw [PathVars.indices_along, PathVars.indices_along]
    exact hascending _ (List.mem_range.mp hj) _ (List.mem_range.mp hk) hjk
  obtain ⟨fuel, hrun⟩ := debugSplit_ok.mpr ⟨hne, rfl, hprinted, hchain⟩
  exact ⟨fuel, paths, hrun⟩

end Checks

/-! ## Every path of a completed `doDistribute` -/

section Completed

variable {m : Memory} {x : Nat}

theorem load_split_self (hload : m.load x = x) (n : Nat) :
    (splitPointerChasingPath (List.replicate n ⟨x, x, 1⟩) m).load x = x := by
  have hlt : x < wordRange := hload ▸ m.load_lt x
  induction n generalizing m with
  | zero => exact hload
  | succ n ih => exact ih (Memory.load_store_of_lt _ _ hlt)

/-- Two subpaths that are the same word fail the second check. -/
theorem debugSplit_self (hload : m.load x = x) (n : Nat) :
    debugSplit 1 (List.replicate (n + 2) ⟨x, x, 1⟩) m =
      some (.error (.assertFailed "prevMaxIdx < minIdx")) := by
  have hprinted : RingPrinted (splitPointerChasingPath (List.replicate (n + 2) ⟨x, x, 1⟩) m)
      ⟨x, x, 1⟩ (.along [x]) :=
    ⟨⟨rfl, List.nodup_singleton x, (leads_singleton ..).mpr (load_split_self hload _)⟩, rfl, rfl⟩
  have hagain : ¬(PathVars.along [x]).maxIdx < (PathVars.along [x]).minIdx := by
    rw [hprinted.maxIdx_lt_iff hprinted]
    exact fun hless => lt_irrefl x
      (hless x (List.mem_singleton_self x) x (List.mem_singleton_self x))
  have hprint : printPath 1 _ x _ = _ := hprinted.printPath_eq le_rfl
  simp only [List.replicate_succ] at hprint ⊢
  simp only [debugSplit, hprint, printSubpaths, if_neg hagain]
  rfl

variable {d : SubpathDistribution} {rand : Randomness} {m₀ : Memory} {st : PathState}
  {chunk : Nat → List Nat}

/-- **The checks tell whether the path has been split.** Over every path of a completed
`doDistribute` the debug build goes on exactly when `splitPointerChasingPath` has split the path as
intended; otherwise it stops with the assertion on the order of the subpaths. -/
theorem debug_checks_splitsInto (hline : 8 ≤ d.lineSize)
    (hwindow : d.bufferOffset + d.buffer.getSize < unsignedRange)
    (hrun : d.doDistribute rand m₀ = .ok st) (hchunk : Laid d st chunk) {infos : List SubpathInfo}
    (hinfos : infos = (List.range d.numSubpaths).map fun k => .describing (chunk k)) :
    ((∃ fuel paths, debugSplit fuel infos st.mem =
          some (.ok (splitPointerChasingPath infos st.mem, paths))) ↔
        SplitsInto infos st.mem (splitPointerChasingPath infos st.mem) d.bufferOffset) ∧
      (¬SplitsInto infos st.mem (splitPointerChasingPath infos st.mem) d.bufferOffset →
        ∃ fuel, debugSplit fuel infos st.mem =
          some (.error (.assertFailed "prevMaxIdx < minIdx"))) := by
  obtain ⟨-, ⟨-, hpos⟩, -, -⟩ := SubpathDistribution.doDistribute_ok.mp hrun
  have hne : infos ≠ [] := by
    rw [hinfos]
    simpa using hpos
  rcases SubpathDistribution.fits_or_empty hline hwindow hrun with
    hfit | ⟨hlines, halpha, helements⟩
  · -- A path with lines is always split as intended.
    obtain ⟨L, hL⟩ := SubpathDistribution.exists_builds hfit hrun
    have hsame : infos = L.infos := by
      rw [hinfos, SubpathLayout.infos, hL.numSubpaths]
      refine List.map_congr_left fun k hk => ?_
      rw [hchunk.unique hL.laid (List.mem_range.mp hk)]
    have horigin : L.start 0 = d.bufferOffset := by
      rw [hL.start 0 hfit.subpaths_pos, hfit.chunkStart_eq (Nat.zero_le _), Nat.zero_mul,
        Nat.add_zero]
    have hsplit := splitsInto_of_unsplit hL.unsplit
    rw [← hsame, horigin] at hsplit
    exact ⟨iff_of_true (debugSplit_of_splitsInto hne hsplit) hsplit, fun h => absurd hsplit h⟩
  · -- Without lines all subpaths are the word at the start address.
    obtain ⟨hload, hempty⟩ := SubpathDistribution.laid_of_empty hlines halpha helements hrun
    have hsame : infos = List.replicate d.numSubpaths ⟨d.bufferOffset, d.bufferOffset, 1⟩ := by
      rw [hinfos]
      refine List.eq_replicate_iff.mpr ⟨by simp, List.forall_mem_map.mpr fun k hk => ?_⟩
      rw [hchunk.unique hempty (List.mem_range.mp hk)]
      rfl
    by_cases hone : d.numSubpaths = 1
    · have hsplit := splitsInto_self hload
      rw [show [⟨d.bufferOffset, d.bufferOffset, 1⟩] = infos by rw [hsame, hone]; rfl] at hsplit
      exact ⟨iff_of_true (debugSplit_of_splitsInto hne hsplit) hsplit, fun h => absurd hsplit h⟩
    · obtain ⟨n, hn⟩ := Nat.exists_eq_add_of_le' (show 2 ≤ d.numSubpaths by omega)
      have hfails := debugSplit_self hload n
      rw [← hn, ← hsame] at hfails
      refine ⟨⟨?_, debugSplit_of_splitsInto hne⟩, fun _ => ⟨1, hfails⟩⟩
      rintro ⟨fuel, paths, hpass⟩
      obtain ⟨-, -, hprinted, hchain⟩ := debugSplit_ok.mp ⟨fuel, hpass⟩
      rw [hsame, hn, List.replicate_succ, List.replicate_succ] at hprinted
      obtain - | ⟨hfirst, hrest⟩ := hprinted
      obtain - | ⟨hsecond, -⟩ := hrest
      exact absurd ((List.isChain_cons_cons.mp hchain).1 _ (List.mem_of_head? hfirst.ring.head) _
        (List.mem_of_head? hsecond.ring.head)) (lt_irrefl _)

/-- Two chunks of eight lines. -/
theorem debug_checks_splitsInto_two_chunks :
    let d := SubpathDistribution.create (Buffer.smallPool 1024) 64 2 0
    ∃ st chunk, d.doDistribute Randomness.identity zeros = .ok st ∧ Laid d st chunk ∧
      let infos := (List.range 2).map fun k => .describing (chunk k)
      ((∃ fuel paths, debugSplit fuel infos st.mem =
          some (.ok (splitPointerChasingPath infos st.mem, paths))) ↔
        SplitsInto infos st.mem (splitPointerChasingPath infos st.mem) d.bufferOffset) := by
  intro d
  have hfit : d.Fits :=
    SubpathDistribution.fits_of_window (by decide) (by decide) (by decide) (by decide)
  obtain ⟨st, hrun⟩ := SubpathDistribution.uniform_total hfit rfl le_rfl (by decide) (by decide)
    Randomness.identity zeros
  obtain ⟨chunk, hchunk⟩ := SubpathDistribution.exists_laid (by decide) (by decide) hrun
  exact ⟨st, chunk, hrun, hchunk,
    (debug_checks_splitsInto (by decide) (by decide) hrun hchunk rfl).1⟩

end Completed

end Cachetest
