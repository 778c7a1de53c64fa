import Cachetest.UniformSubpath
import Cachetest.ZipfSubpath

/-!
# The recorded sequence

Beside the path, a builder records the data line of every element it places, and `dumpSequence`
writes the record out. In uniform mode it is the access pattern of the path, as long as the indices
of the data lines do not wrap around. In Zipf mode the first element of every subpath is counted but
not recorded, so the record is too short (`records_iff`).
-/

namespace Cachetest

open ByteMemory Circuit

/-- `dumpSequence`: the values it passes to `write`, one call each. -/
def dumpSequence (st : PathState) : List UInt32 := st.sequence.map UInt32.ofNat

namespace SubpathDistribution

/-- What is written is the access pattern of the path: one item for every entry, and item `i` is
the data line of the element that `i` loads from the start address arrive at. -/
structure Records (d : SubpathDistribution) (st : PathState) : Prop where
  length : (dumpSequence st).length = st.entries
  dataline : ∀ (i : Nat) (line : UInt32), (dumpSequence st)[i]? = some line →
    d.bufferOffset + line.toNat * d.lineSize ≤ st.mem.load^[i] d.bufferOffset ∧
      st.mem.load^[i] d.bufferOffset < d.bufferOffset + (line.toNat + 1) * d.lineSize

variable {d : SubpathDistribution} {rand : Randomness}

/-! ## Zipf mode -/

theorem zipfLoop_sequence {k offsetDatalines lines rounds i : Nat} {map : List Nat}
    {s s' : Nat × PathState}
    (hrun : d.zipfLoop rand k offsetDatalines lines map rounds i s = .ok s') :
    s'.2.sequence.length + s.2.entries = s.2.sequence.length + s'.2.entries := by
  induction rounds generalizing i s with
  | zero =>
    obtain rfl := Except.ok.inj hrun
    rfl
  | succ rounds ih =>
    obtain ⟨previdx, st⟩ := s
    simp only [zipfLoop] at hrun
    split at hrun
    case h_1 => simp at hrun
    case h_2 =>
      obtain ⟨_, -, hrest⟩ := bind_eq_ok.mp hrun
      split at hrest
      case h_1 =>
        obtain rfl := Except.ok.inj hrest
        rfl
      case h_2 =>
        have hrec := ih hrest
        simp only [List.length_append, List.length_singleton] at hrec ⊢
        omega

theorem zipf_entries (halpha : ¬d.zipfAlpha ≤ 0) {m : Memory} {st : PathState}
    (hrun : d.doDistribute rand m = .ok st) :
    st.entries = st.sequence.length + d.numSubpaths := by
  obtain ⟨-, -, -, hloop⟩ := doDistribute_ok.mp hrun
  refine foldlM_range_invariant (fun k s => s.entries = s.sequence.length + k)
    (fun k _ s s' hs hround => ?_) rfl hloop
  obtain ⟨⟨last, built⟩, hbuild, hlink⟩ := bind_eq_ok.mp hround
  obtain rfl := Except.ok.inj hlink
  rw [buildSubpath, if_neg halpha, zipfSubpath_eq] at hbuild
  have hlength := zipfLoop_sequence hbuild
  simp only [linkSubpath] at hlength ⊢
  omega

theorem zipf_not_records (halpha : ¬d.zipfAlpha ≤ 0) {m : Memory} {st : PathState}
    (hrun : d.doDistribute rand m = .ok st) : ¬d.Records st := by
  intro h
  obtain ⟨-, ⟨-, hsubpaths⟩, -, -⟩ := doDistribute_ok.mp hrun
  have hentries := zipf_entries halpha hrun
  have hlength := h.length
  rw [dumpSequence, List.length_map] at hlength
  omega

/-! ## Uniform mode -/

/-- The data lines of the window in the order of the path: chunk after chunk, each in the order of
its shuffle. -/
def pathLines (d : SubpathDistribution) (rand : Randomness) (subpaths : Nat) : List Nat :=
  (List.range subpaths).flatMap fun k =>
    (lineOrder (rand.shuffle k (d.numDatalinesPerSubpath - 1))).map
      fun l => k * d.numDatalinesPerSubpath + l

theorem pathLines_succ (k : Nat) :
    d.pathLines rand (k + 1) = d.pathLines rand k ++
      (lineOrder (rand.shuffle k (d.numDatalinesPerSubpath - 1))).map
        fun l => k * d.numDatalinesPerSubpath + l := by
  simp [pathLines, List.range_succ]

theorem pathLines_head {k : Nat} (hk : 0 < k) : (d.pathLines rand k)[0]? = some 0 := by
  obtain ⟨k, rfl⟩ := Nat.exists_eq_add_of_lt hk
  simp [pathLines, List.range_succ_eq_map, lineOrder]

theorem lt_of_mem_pathLines (hpos : 0 < d.numDatalinesPerSubpath) {k l : Nat}
    (hl : l ∈ d.pathLines rand k) : l < k * d.numDatalinesPerSubpath := by
  obtain ⟨j, hj, hmem⟩ := List.mem_flatMap.mp hl
  obtain ⟨r, hr, rfl⟩ := List.mem_map.mp hmem
  have hlt := (mem_lineOrder _).mp hr
  calc j * d.numDatalinesPerSubpath + r
      < (j + 1) * d.numDatalinesPerSubpath := by rw [Nat.succ_mul]; omega
    _ ≤ k * d.numDatalinesPerSubpath := Nat.mul_le_mul_right _ (List.mem_range.mp hj)

/-- Every data line of the chunks begins at a 32-bit index. -/
def LinesIndexed (d : SubpathDistribution) : Prop :=
  d.bufferOffset + (d.numSubpaths * d.numDatalinesPerSubpath - 1) * d.lineSize < unsignedRange

theorem LinesIndexed.lt (h : d.LinesIndexed) {l : Nat}
    (hl : l < d.numSubpaths * d.numDatalinesPerSubpath) :
    d.bufferOffset + l * d.lineSize < unsignedRange :=
  (Nat.add_le_add_left (Nat.mul_le_mul_right _ (Nat.le_sub_one_of_lt hl)) _).trans_lt h

/-- After `k` rounds the lines of the first `k` chunks are linked, in order, and recorded. -/
structure RecordedUpTo (d : SubpathDistribution) (rand : Randomness) (k : Nat) (st : PathState) :
    Prop where
  leads : Leads st.mem.load ((d.pathLines rand k).map fun l => d.bufferOffset + l * 64)
    (d.chunkStart (k % d.numSubpaths))
  sequence : st.sequence = (d.pathLines rand k).map asUnsigned
  entries : st.entries = (d.pathLines rand k).length

theorem RecordedUpTo.step (halpha : d.zipfAlpha ≤ 0) (hlines : d.LinesIndexed) {k : Nat}
    (hk : k < d.numSubpaths) {st st' : PathState} (h : d.RecordedUpTo rand k st)
    (hrun : d.distributeSubpath rand st k = .ok st') : d.RecordedUpTo rand (k + 1) st' := by
  obtain ⟨⟨last, built⟩, hbuild, hlink⟩ := bind_eq_ok.mp hrun
  obtain rfl : d.linkSubpath k last built = st' := Except.ok.inj hlink
  rw [buildSubpath, if_pos halpha] at hbuild
  have hline := lineSize_of_cacheline (cacheline_of_uniformSubpath hbuild)
  have hpos := lines_pos_of_uniformSubpath hbuild
  have hend : k * d.numDatalinesPerSubpath + d.numDatalinesPerSubpath ≤
      d.numSubpaths * d.numDatalinesPerSubpath := by
    rw [← Nat.succ_mul]
    exact Nat.mul_le_mul_right _ hk
  have hlast := hlines.lt (l := k * d.numDatalinesPerSubpath + (d.numDatalinesPerSubpath - 1))
    (by omega)
  rw [hline, Nat.add_mul, ← Nat.add_assoc] at hlast
  have hstart : d.chunkStart k = d.bufferOffset + k * d.numDatalinesPerSubpath * 64 := by
    rw [chunkStart, hline]
    exact asUnsigned_of_lt (by omega)
  have hbase : d.bufferOffset + asUnsigned (k * d.numDatalinesPerSubpath * 64) =
      d.chunkStart k := by
    rw [hstart, asUnsigned_of_lt (by omega)]
  obtain ⟨xs, hbuilt, hwhole, hsequence, hentries⟩ :=
    uniformSubpath_built hbuild hbase (by rwa [hstart])
  rw [show d.numDatalinesPerSubpath * 64 = d.chunkSize by rw [chunkSize, hline]] at hbuilt
  -- The chunk lies above the lines of its predecessors, so these keep their links.
  have hkept : ∀ a ∈ (d.pathLines rand k).map fun l => d.bufferOffset + l * 64,
      (d.linkSubpath k last built).mem.load a = st.mem.load a := by
    intro a ha
    obtain ⟨l, hl, rfl⟩ := List.mem_map.mp ha
    have hlt := lt_of_mem_pathLines hpos hl
    have hbelow : d.bufferOffset + l * 64 + 4 ≤ d.chunkStart k := by omega
    exact Memory.load_congr_of_lt hbelow fun b hb => hbuilt.below_link hb
  have hchunk : xs ++ [last] = (lineOrder (rand.shuffle k (d.numDatalinesPerSubpath - 1))).map
      fun l => d.bufferOffset + (k * d.numDatalinesPerSubpath + l) * 64 := by
    rw [hwhole, hstart]
    simp only [Nat.add_mul, Nat.add_assoc]
  constructor
  case leads =>
    obtain ⟨ys, hys⟩ := List.head?_eq_some_iff.mp hbuilt.head
    have hleads := hbuilt.link.leads
    have hbefore := h.leads
    rw [Nat.mod_eq_of_lt hk] at hbefore
    rw [pathLines_succ, List.map_append, List.map_map, Function.comp_def, ← hchunk, hys,
      leads_append]
    exact ⟨hbefore.congr hkept, hys ▸ hleads⟩
  case sequence =>
    rw [pathLines_succ, List.map_append, List.map_map, ← h.sequence]
    exact hsequence
  case entries =>
    rw [pathLines_succ, List.length_append, List.length_map, length_lineOrder, ← h.entries,
      Nat.sub_add_cancel hpos]
    exact hentries

/-- In uniform mode the record is the access pattern as long as indices do not wrap around,
whatever the buffer held and however it is shuffled. -/
theorem uniform_records (halpha : d.zipfAlpha ≤ 0) (hlines : d.LinesIndexed) {m : Memory}
    {st : PathState} (hrun : d.doDistribute rand m = .ok st) : d.Records st := by
  obtain ⟨hcache, hpos⟩ := uniform_lines halpha hrun
  have hline := lineSize_of_cacheline hcache
  obtain ⟨-, ⟨-, hsubpaths⟩, -, hloop⟩ := doDistribute_ok.mp hrun
  have h : d.RecordedUpTo rand d.numSubpaths st :=
    foldlM_range_invariant (d.RecordedUpTo rand)
      (fun k hk s s' hs hround => hs.step halpha hlines hk hround)
      ⟨by simp [pathLines], by simp [pathLines], by simp [pathLines]⟩ hloop
  have hlt : ∀ l ∈ d.pathLines rand d.numSubpaths, l < unsignedRange := by
    intro l hl
    have hindex := hlines.lt (lt_of_mem_pathLines hpos hl)
    rw [hline] at hindex
    omega
  have hdump : dumpSequence st = (d.pathLines rand d.numSubpaths).map UInt32.ofNat := by
    rw [dumpSequence, h.sequence, List.map_map]
    apply List.map_congr_left
    intro l hl
    rw [Function.comp_apply, asUnsigned_of_lt (hlt l hl)]
  constructor
  case length => rw [hdump, List.length_map, h.entries]
  case dataline =>
    intro i line hi
    rw [hdump, List.getElem?_map] at hi
    obtain ⟨l, hl, rfl⟩ := Option.map_eq_some_iff.mp hi
    set elements := (d.pathLines rand d.numSubpaths).map fun l => d.bufferOffset + l * 64
    have helement : elements[i]? = some (d.bufferOffset + l * 64) := by
      rw [List.getElem?_map, hl, Option.map_some]
    have hi' : i < elements.length := (List.getElem?_eq_some_iff.mp helement).1
    have hfirst : (elements ++ [d.chunkStart (d.numSubpaths % d.numSubpaths)])[0]? =
        some d.bufferOffset := by
      rw [List.getElem?_append_left (by omega), List.getElem?_map,
        pathLines_head (Nat.pos_of_ne_zero hsubpaths)]
      simp
    have hleads : Leads st.mem.load elements _ := h.leads
    have hiterate := hleads.iterate hfirst (i := i) (by omega)
    rw [Nat.zero_add, List.getElem?_append_left hi', helement] at hiterate
    rw [← Option.some.inj hiterate, UInt32.toNat_ofNat_of_lt' (hlt l (List.mem_of_getElem? hl)),
      hline]
    omega

/-! ## Lines past the 32-bit indices -/

/-- After `i` rounds of the pass, whatever the indices: those of the rounds to come are in place,
and those found so far are recorded. -/
structure PassRecorded {n : Nat} (base offsetDatalines : Nat) (σ : Equiv.Perm (Fin (n - 1)))
    (before : List Nat) (i : Nat) (s : ChainState) : Prop where
  indices : ∀ j : Fin (n - 1), i ≤ j →
    s.path.mem.load (base + j * 64 + 4) = asUnsigned ((σ j : Nat) + 1)
  kept : ∀ l ∈ before, l ∈ s.path.sequence
  lines : ∀ j : Fin (n - 1), j < i →
    asUnsigned (offsetDatalines + asUnsigned ((σ j : Nat) + 1)) ∈ s.path.sequence

theorem PassRecorded.step {n base offsetBytes offsetDatalines i : Nat}
    {σ : Equiv.Perm (Fin (n - 1))} {before : List Nat} {s s' : ChainState}
    (h : PassRecorded base offsetDatalines σ before i s)
    (hrun : d.chainStep base offsetBytes offsetDatalines n s i = .ok s') :
    PassRecorded base offsetDatalines σ before (i + 1) s' := by
  obtain ⟨hnext, -, hsequence, hmem⟩ := chainStep_ok hrun
  constructor
  case indices =>
    intro j hj
    rw [hmem, Memory.load_store_of_apart _ _ (by unfold Apart; omega),
      Memory.load_store_of_apart _ _ (by unfold Apart; omega)]
    exact h.indices j (by omega)
  case kept =>
    intro l hl
    rw [hsequence]
    exact List.mem_append_left _ (h.kept l hl)
  case lines =>
    intro j hj
    rw [hsequence]
    rcases Nat.lt_succ_iff_lt_or_eq.mp hj with hlt | heq
    · exact List.mem_append_left _ (h.lines j hlt)
    · rw [hnext, ← heq, h.indices j heq.ge]
      exact List.mem_append_right _ (List.mem_singleton_self _)

theorem passRecorded_start {n base offsetDatalines : Nat} {σ : Equiv.Perm (Fin (n - 1))}
    {m : Memory} {before : List Nat} {s : ChainState} (hmem : s.path.mem = prepared m base n σ)
    (hsequence : s.path.sequence = before) :
    PassRecorded base offsetDatalines σ before 0 s where
  indices j _ := by rw [hmem, prepared_index m base σ j]
  kept _ hl := hsequence ▸ hl
  lines j hj := absurd hj (Nat.not_lt_zero _)

/-- A completed `uniformSubpath` keeps the record and adds every line whose number 32 bits hold. -/
theorem uniformSubpath_records {k last offsetDatalines n : Nat} {st st' : PathState}
    (hrun : d.uniformSubpath rand k offsetDatalines n st = .ok (last, st')) :
    (∀ l ∈ st.sequence, l ∈ st'.sequence) ∧
      ∀ l < n, l < unsignedRange → asUnsigned (offsetDatalines + l) ∈ st'.sequence := by
  obtain ⟨hn, s, hloop, rfl⟩ := pass_of_uniformSubpath hrun
  set σ := rand.shuffle k (n - 1)
  have h := foldlM_range_invariant
    (PassRecorded (d.bufferOffset + asUnsigned (offsetDatalines * 64)) offsetDatalines σ
      (st.sequence ++ [asUnsigned offsetDatalines]))
    (fun i _ s s' hs hround => hs.step hround) (passRecorded_start rfl rfl) hloop
  refine ⟨fun l hl => h.kept l (List.mem_append_left _ hl), fun l hl hlt => ?_⟩
  cases l with
  | zero => exact h.kept _ (List.mem_append_right _ (List.mem_singleton_self _))
  | succ l =>
    have hmem := h.lines (σ.symm ⟨l, by omega⟩) (σ.symm ⟨l, by omega⟩).isLt
    rwa [Equiv.apply_symm_apply, asUnsigned_of_lt hlt] at hmem

theorem mem_sequence (halpha : d.zipfAlpha ≤ 0) {m : Memory} {st : PathState}
    (hrun : d.doDistribute rand m = .ok st) {l : Nat}
    (hl : l < d.numSubpaths * d.numDatalinesPerSubpath) (hlt : l < unsignedRange) :
    l ∈ st.sequence := by
  obtain ⟨-, -, -, hloop⟩ := doDistribute_ok.mp hrun
  refine foldlM_range_invariant
    (fun k s => ∀ l < k * d.numDatalinesPerSubpath, l < unsignedRange → l ∈ s.sequence)
    (fun k _ s s' hs hround l hl hlt => ?_) (fun l hl => ?_) hloop l hl hlt
  · obtain ⟨⟨last, built⟩, hbuild, hlink⟩ := bind_eq_ok.mp hround
    obtain rfl := Except.ok.inj hlink
    rw [buildSubpath, if_pos halpha] at hbuild
    obtain ⟨hkept, hlines⟩ := uniformSubpath_records hbuild
    rw [Nat.succ_mul] at hl
    by_cases hbefore : l < k * d.numDatalinesPerSubpath
    · exact hkept l (hs l hbefore hlt)
    · have hmem := hlines (l - k * d.numDatalinesPerSubpath) (by omega) (by omega)
      rwa [Nat.add_sub_cancel' (by omega), asUnsigned_of_lt hlt] at hmem
  · rw [Nat.zero_mul] at hl
    exact absurd hl (Nat.not_lt_zero l)

/-- An element loaded from the path has a 32-bit index, so a recorded line does as well. -/
theorem Records.lt {st : PathState} (h : d.Records st) {l : Nat} (hl : l ∈ st.sequence)
    (hlt : l < unsignedRange) : d.bufferOffset + l * d.lineSize < unsignedRange := by
  obtain ⟨i, hi⟩ := List.mem_iff_getElem?.mp (List.mem_map_of_mem (f := UInt32.ofNat) hl)
  have hindex := (h.dataline i _ hi).1
  rw [UInt32.toNat_ofNat_of_lt' hlt] at hindex
  refine hindex.trans_lt ?_
  cases i with
  | zero => exact asUnsigned_lt _
  | succ i =>
    rw [Function.iterate_succ_apply']
    exact Memory.load_lt _ _

theorem Records.linesIndexed (halpha : d.zipfAlpha ≤ 0) {m : Memory} {st : PathState}
    (hrun : d.doDistribute rand m = .ok st) (h : d.Records st) : d.LinesIndexed := by
  obtain ⟨hcache, hpos⟩ := uniform_lines halpha hrun
  obtain ⟨-, ⟨-, hsubpaths⟩, -, -⟩ := doDistribute_ok.mp hrun
  have hlines := Nat.mul_pos (Nat.pos_of_ne_zero hsubpaths) hpos
  -- The last line, or an earlier one that lies past the 32-bit indices already.
  have hrecorded := h.lt (mem_sequence halpha hrun
    (l := min (d.numSubpaths * d.numDatalinesPerSubpath - 1) (2 ^ 26)) (by omega)
    ((Nat.min_le_right _ _).trans_lt (by decide)))
    ((Nat.min_le_right _ _).trans_lt (by decide))
  rw [lineSize_of_cacheline hcache] at hrecorded
  rw [LinesIndexed, lineSize_of_cacheline hcache]
  simp only [unsignedRange] at hrecorded ⊢
  omega

/-! ## Both modes -/

/-- For every completed `doDistribute` the record is the access pattern if and only if the mode is
uniform and no index of a data line wraps around. -/
theorem records_iff {m : Memory} {st : PathState} (hrun : d.doDistribute rand m = .ok st) :
    d.Records st ↔ d.zipfAlpha ≤ 0 ∧ d.LinesIndexed := by
  constructor
  · intro h
    have halpha : d.zipfAlpha ≤ 0 := by
      by_contra halpha
      exact zipf_not_records halpha hrun h
    exact ⟨halpha, h.linesIndexed halpha hrun⟩
  · exact fun ⟨halpha, hlines⟩ => uniform_records halpha hlines hrun

/-- Two chunks of two lines in each mode. -/
theorem records_iff_two_chunks :
    (∃ st, (create (Buffer.hugePool 256) 64 2 0).doDistribute Randomness.identity zeros = .ok st ∧
      ((create (Buffer.hugePool 256) 64 2 0).Records st ↔
        (0 : ℚ) ≤ 0 ∧ (create (Buffer.hugePool 256) 64 2 0).LinesIndexed)) ∧
    ∃ st, (create (Buffer.hugePool 256) 64 2 1).doDistribute Randomness.identity zeros = .ok st ∧
      ((create (Buffer.hugePool 256) 64 2 1).Records st ↔
        (1 : ℚ) ≤ 0 ∧ (create (Buffer.hugePool 256) 64 2 1).LinesIndexed) := by
  constructor
  · have hfit : (create (Buffer.hugePool 256) 64 2 0).Fits :=
      fits_of_window (by decide) (by decide) (by decide) (by decide)
    obtain ⟨st, hrun⟩ := uniform_total hfit rfl le_rfl (by decide) (by decide)
      Randomness.identity zeros
    exact ⟨st, hrun, records_iff hrun⟩
  · have hfit : (create (Buffer.hugePool 256) 64 2 1).Fits :=
      fits_of_window (by decide) (by decide) (by decide) (by decide)
    obtain ⟨st, hrun⟩ := @zipf_total _ Randomness.identity hfit (by decide) (by decide)
      (by decide) (fun _ _ _ => (by decide : 1 ≤ 1 ∧ 1 ≤ 2)) zeros
    exact ⟨st, hrun, records_iff hrun⟩

/-- One subpath over two lines, `zipf` returning the first rank until the line is full: one item
less than entries. -/
theorem zipf_sequence_too_short :
    ∃ st, (create (Buffer.hugePool 128) 64 1 1).doDistribute Randomness.identity zeros = .ok st ∧
      st.entries = (dumpSequence st).length + 1 ∧
      ¬(create (Buffer.hugePool 128) 64 1 1).Records st := by
  have hfit : (create (Buffer.hugePool 128) 64 1 1).Fits :=
    fits_of_window (by decide) (by decide) (by decide) (by decide)
  obtain ⟨st, hrun⟩ := @zipf_total _ Randomness.identity hfit (by decide) (by decide) (by decide)
    (fun _ _ _ => (by decide : 1 ≤ 1 ∧ 1 ≤ 2)) zeros
  have hentries : st.entries = (dumpSequence st).length + 1 := by
    rw [dumpSequence, List.length_map]
    exact zipf_entries (by decide) hrun
  refine ⟨st, hrun, hentries, fun h => ?_⟩
  have hlength := h.length
  omega

end SubpathDistribution

end Cachetest
