import Cachetest.SubpathInfo

/-!
# Splitting the path

`splitPointerChasingPath` overwrites the last word of every stretch with the first index of the same
stretch. On a path of several chunks this closes every chunk to a ring of its own. The exception is
a buffer without data lines, where all subpaths are the same word.
-/

namespace Cachetest

open ByteMemory Circuit

/-! ## Relinking the ends -/

section Relink

variable {L : SubpathLayout} {m : Memory}

/-- The infos of a layout. -/
def SubpathLayout.infos (L : SubpathLayout) : List SubpathInfo :=
  (List.range L.numSubpaths).map fun k => SubpathInfo.describing (L.chunk k)

/-- The memory after the first `j` ends have been relinked. -/
def relinked (L : SubpathLayout) (m : Memory) (j : Nat) : Memory :=
  (List.range j).foldl (fun m k => m.store (L.last k) (L.start k)) m

theorem relinked_succ (L : SubpathLayout) (m : Memory) (j : Nat) :
    relinked L m (j + 1) = (relinked L m j).store (L.last j) (L.start j) := by
  simp [relinked, List.range_succ]

theorem splitPointerChasingPath_eq (L : SubpathLayout) (m : Memory) :
    splitPointerChasingPath L.infos m = relinked L m L.numSubpaths := by
  rw [splitPointerChasingPath, SubpathLayout.infos, List.foldl_map]
  rfl

theorem last_mem_elements {k : Nat} (hk : k < L.numSubpaths) : L.last k ∈ L.elements :=
  SubpathLayout.mem_elements.mpr ⟨k, hk, SubpathLayout.last_mem hk⟩

theorem start_lt {k : Nat} (hk : k < L.numSubpaths) : L.start k < wordRange := by
  have := L.addressable _ (SubpathLayout.mem_elements.mpr ⟨k, hk, SubpathLayout.start_mem hk⟩)
  simp only [unsignedRange] at this
  simp only [wordRange]
  omega

theorem load_relinked_of_ne {a : Nat} (ha : a ∈ L.elements) {j : Nat} (hj : j ≤ L.numSubpaths)
    (hne : ∀ k < j, a ≠ L.last k) : (relinked L m j).load a = m.load a := by
  induction j with
  | zero => rfl
  | succ j ih =>
    have hlast := last_mem_elements (L := L) (show j < L.numSubpaths by omega)
    have hapart := SubpathLayout.apart_of_ne ha hlast (hne j (by omega))
    rw [relinked_succ, Memory.load_store_of_apart _ _ hapart.symm]
    exact ih (by omega) fun k hk => hne k (by omega)

theorem load_relinked_last {k j : Nat} (hkj : k < j) (hj : j ≤ L.numSubpaths) :
    (relinked L m j).load (L.last k) = L.start k := by
  induction j with
  | zero => omega
  | succ j ih =>
    have hk : k < L.numSubpaths := by omega
    rw [relinked_succ]
    rcases Nat.lt_succ_iff_lt_or_eq.mp hkj with hlt | rfl
    · have hapart := SubpathLayout.apart_of_ne_subpath (show k ≠ j by omega) hk
        (show j < L.numSubpaths by omega) (SubpathLayout.last_mem hk)
        (SubpathLayout.last_mem (show j < L.numSubpaths by omega))
      rw [Memory.load_store_of_apart _ _ hapart.symm]
      exact ih hlt (by omega)
    · exact Memory.load_store_of_lt _ _ (start_lt hk)

theorem byte_relinked {b j : Nat} (hout : ∀ k < j, b < L.last k ∨ L.last k + 4 ≤ b) :
    (relinked L m j).byte b = m.byte b := by
  induction j with
  | zero => rfl
  | succ j ih =>
    rw [relinked_succ, ← ih fun k hk => hout k (by omega)]
    exact Memory.byte_store_of_outside _ _ (hout j (by omega))

/-- Splitting turns the single ring into one ring per subpath. -/
theorem split_of_unsplit (h : L.Unsplit m) : L.Split (splitPointerChasingPath L.infos m) := by
  rw [splitPointerChasingPath_eq]
  intro k hk
  obtain ⟨xs, hxs⟩ := SubpathLayout.chunk_eq_concat hk
  have hlead := h k hk
  have hnodup := SubpathLayout.nodup_chunk hk
  rw [hxs] at hlead hnodup ⊢
  refine Leads.extend ((leads_concat _ _ _).mp hlead).1 (fun a ha => ?_)
    (load_relinked_last hk le_rfl)
  have hin : a ∈ L.chunk k := hxs ▸ List.mem_append_left _ ha
  refine load_relinked_of_ne (SubpathLayout.mem_elements.mpr ⟨k, hk, hin⟩) le_rfl ?_
  rintro j hj rfl
  obtain rfl := SubpathLayout.subpath_unique hj hk (SubpathLayout.last_mem hj) hin
  exact (List.nodup_append.mp hnodup).2.2 _ ha _ (by simp) rfl

end Relink

/-! ## The rings -/

/-- Relinking the ring through `origin` has split it as intended: there is one ring per info, which
starts at its first index and has its length; the rings are disjoint and ascending, they consist of
the elements of the former ring, and no byte outside the end words has changed. -/
def SplitsInto (infos : List SubpathInfo) (before after : Memory) (origin : Nat) : Prop :=
  ∃ cycle : Nat → List Nat,
    (∀ k info, infos[k]? = some info →
      IsCircuit after.load info.startIdx (cycle k) ∧ (cycle k).length = info.length) ∧
    (∀ j < infos.length, ∀ k < infos.length, j ≠ k → (cycle j).Disjoint (cycle k)) ∧
    (∀ a, (∃ k < infos.length, a ∈ cycle k) ↔ ∃ i, before.load^[i] origin = a) ∧
    (∀ j < infos.length, ∀ k < infos.length, j < k → ∀ a ∈ cycle j, ∀ b ∈ cycle k, a < b) ∧
    ∀ b, (∀ info ∈ infos, b < info.endIdx ∨ info.endIdx + 4 ≤ b) → after.byte b = before.byte b

theorem splitsInto_of_unsplit {L : SubpathLayout} {m : Memory} (h : L.Unsplit m) :
    SplitsInto L.infos m (splitPointerChasingPath L.infos m) (L.start 0) := by
  have hlength : L.infos.length = L.numSubpaths := by simp [SubpathLayout.infos]
  refine ⟨L.chunk, fun k info hinfo => ?_, ?_, ?_, ?_, ?_⟩
  · obtain ⟨hk, rfl⟩ := List.getElem?_eq_some_iff.mp hinfo
    have hinfo_eq : L.infos[k] = SubpathInfo.describing (L.chunk k) := by
      simp [SubpathLayout.infos]
    rw [hinfo_eq]
    exact ⟨(split_of_unsplit h).isCircuit (hlength ▸ hk), rfl⟩
  · intro j hj k hk hjk a haj hak
    exact hjk (SubpathLayout.subpath_unique (hlength ▸ hj) (hlength ▸ hk) haj hak)
  · intro a
    rw [hlength, ← SubpathLayout.mem_elements, h.isCircuit.mem_iff]
    refine ⟨fun ⟨i, _, hi⟩ => ⟨i, hi⟩, fun ⟨i, hi⟩ => ?_⟩
    rw [← h.isCircuit.mem_iff, ← hi]
    exact List.mem_of_getElem? (h.isCircuit.iterate i)
  · intro j _ k hk hjk a ha b hb
    have := SubpathLayout.add_four_le hjk (hlength ▸ hk) ha hb
    omega
  · intro b hout
    rw [splitPointerChasingPath_eq]
    refine byte_relinked fun k hk => hout (.describing (L.chunk k)) ?_
    exact List.mem_map.mpr ⟨k, List.mem_range.mpr hk, rfl⟩

theorem splitsInto_self {m : Memory} {x : Nat} (hload : m.load x = x) :
    SplitsInto [⟨x, x, 1⟩] m (splitPointerChasingPath [⟨x, x, 1⟩] m) x := by
  have hafter : (splitPointerChasingPath [⟨x, x, 1⟩] m).load x = x := by
    have hlt : x < wordRange := hload ▸ m.load_lt x
    exact Memory.load_store_of_lt _ _ hlt
  refine ⟨fun _ => [x], fun k info hinfo => ?_, ?_, fun a => ?_, ?_, fun b hout => ?_⟩
  · obtain rfl : info = ⟨x, x, 1⟩ := by simpa using List.mem_of_getElem? hinfo
    exact ⟨⟨rfl, by simp, by simpa using hafter⟩, rfl⟩
  · intro j hj k hk hjk
    simp at hj hk
    omega
  · constructor
    · rintro ⟨k, -, hk⟩
      exact ⟨0, (List.mem_singleton.mp hk).symm⟩
    · rintro ⟨i, rfl⟩
      exact ⟨0, by simp, List.mem_singleton.mpr (Function.iterate_fixed hload i)⟩
  · intro j hj k hk hjk
    simp at hk
    omega
  · exact Memory.byte_store_of_outside _ _ (hout _ (List.mem_singleton_self _))

/-! ## Every path of a completed `doDistribute` -/

section Completed

variable {d : SubpathDistribution} {rand : Randomness} {m : Memory} {st : PathState}
  {chunk chunk' : Nat → List Nat}

/-- There is only one way to cut the path into stretches. -/
theorem Laid.unique (h : Laid d st chunk) (h' : Laid d st chunk') {k : Nat}
    (hk : k < d.numSubpaths) : chunk k = chunk' k :=
  (h.leads k hk).unique (h'.leads k hk) ((h.head k hk).trans (h'.head k hk).symm)
    (fun hmem => h.first k hk _ hmem rfl) (fun hmem => h'.first k hk _ hmem rfl)

/-- `splitPointerChasingPath` splits the path of a completed `doDistribute` as intended exactly when
there is only one subpath or the chunks have data lines. -/
theorem split_iff (hline : 8 ≤ d.lineSize)
    (hwindow : d.bufferOffset + d.buffer.getSize < unsignedRange)
    (hrun : d.doDistribute rand m = .ok st) (hchunk : Laid d st chunk) {infos : List SubpathInfo}
    (hinfos : infos = (List.range d.numSubpaths).map fun k => .describing (chunk k)) :
    SplitsInto infos st.mem (splitPointerChasingPath infos st.mem) d.bufferOffset ↔
      d.numSubpaths = 1 ∨ 0 < d.numDatalinesPerSubpath := by
  obtain ⟨-, ⟨-, hpos⟩, -, -⟩ := SubpathDistribution.doDistribute_ok.mp hrun
  have hsame : ∀ {chunk'}, Laid d st chunk' →
      infos = (List.range d.numSubpaths).map fun k => .describing (chunk' k) := fun h' => by
    rw [hinfos]
    refine List.map_congr_left fun k hk => ?_
    rw [hchunk.unique h' (List.mem_range.mp hk)]
  rcases SubpathDistribution.fits_or_empty hline hwindow hrun with
    hfit | ⟨hlines, halpha, helements⟩
  · obtain ⟨L, hL⟩ := SubpathDistribution.exists_builds hfit hrun
    have hsplit := splitsInto_of_unsplit hL.unsplit
    have horigin : L.start 0 = d.bufferOffset := by
      rw [hL.start 0 hfit.subpaths_pos, hfit.chunkStart_eq (Nat.zero_le _), Nat.zero_mul,
        Nat.add_zero]
    have hinfos' : infos = L.infos := by
      rw [hsame hL.laid, SubpathLayout.infos, hL.numSubpaths]
    rw [hinfos', ← horigin]
    exact iff_of_true hsplit (Or.inr hfit.lines_pos)
  · obtain ⟨hload, hempty⟩ := SubpathDistribution.laid_of_empty hlines halpha helements hrun
    have hinfos' : infos = List.replicate d.numSubpaths ⟨d.bufferOffset, d.bufferOffset, 1⟩ := by
      rw [hsame hempty]
      simp [SubpathInfo.describing, List.map_const']
    rw [hinfos']
    constructor
    · rintro ⟨cycle, hcycle, hdisjoint, -⟩
      by_contra hmany
      have htwo : 1 < d.numSubpaths := by omega
      have hmem : ∀ k < d.numSubpaths, d.bufferOffset ∈ cycle k := fun k hk =>
        List.mem_of_head? (hcycle k ⟨d.bufferOffset, d.bufferOffset, 1⟩ (by simp [hk])).1.head
      exact hdisjoint 0 (by simp; omega) 1 (by simpa using htwo) (by decide)
        (hmem 0 (by omega)) (hmem 1 htwo)
    · intro hone
      have hone' : d.numSubpaths = 1 := by omega
      rw [hone']
      exact splitsInto_self hload

/-- Two chunks of eight lines. -/
theorem split_iff_two_chunks :
    let d := SubpathDistribution.create (Buffer.smallPool 1024) 64 2 0
    ∃ st chunk,
      d.doDistribute Randomness.identity zeros = .ok st ∧ Laid d st chunk ∧
        (SplitsInto ((List.range 2).map fun k => .describing (chunk k)) st.mem
            (splitPointerChasingPath ((List.range 2).map fun k => .describing (chunk k)) st.mem)
            d.bufferOffset ↔
          d.numSubpaths = 1 ∨ 0 < d.numDatalinesPerSubpath) := by
  intro d
  have hfit : d.Fits :=
    SubpathDistribution.fits_of_window (by decide) (by decide) (by decide) (by decide)
  obtain ⟨st, hrun⟩ := SubpathDistribution.uniform_total hfit rfl le_rfl (by decide) (by decide)
    Randomness.identity zeros
  obtain ⟨chunk, hchunk⟩ := SubpathDistribution.exists_laid (by decide) (by decide) hrun
  exact ⟨st, chunk, hrun, hchunk, split_iff (by decide) (by decide) hrun hchunk rfl⟩

/-- `-Z 1 -T 1,1 0`: a dataset of no bytes. Both subpaths are the word at the start address. -/
theorem split_fails_without_lines :
    let buffer := (Buffer.smallPool 0).setBufferOffset 0
    let d := setupDistribution Options.default 2 1 buffer
    configureExperiment Options.default = .ok () ∧
      ∃ m' st,
        setupBuffer Host.simple Options.default zeros = .ok (buffer, m') ∧
        d.doDistribute Randomness.identity (buffer.view m') = .ok st ∧
        collectPointerChasingSubpathInfo 1 Options.default 2 buffer st.mem =
          some (.ok [⟨0, 0, 1⟩, ⟨0, 0, 1⟩]) ∧
        ¬SplitsInto [⟨0, 0, 1⟩, ⟨0, 0, 1⟩] st.mem
          (splitPointerChasingPath [⟨0, 0, 1⟩, ⟨0, 0, 1⟩] st.mem) d.bufferOffset := by
  intro buffer d
  have hlines : d.numDatalinesPerSubpath = 0 := by decide
  have halpha : ¬d.zipfAlpha ≤ 0 := by decide
  obtain ⟨st, hrun⟩ := SubpathDistribution.empty_total hlines halpha (by decide) rfl (by decide)
    (by decide) Randomness.identity (buffer.view ((Buffer.smallPool 0).zeroPool zeros))
  have hoffset : d.bufferOffset = 0 := by decide
  have hload := (SubpathDistribution.laid_of_empty hlines halpha (by decide) hrun).1
  rw [hoffset] at hload ⊢
  refine ⟨rfl, _, st, setupBuffer_small rfl rfl (by decide) zeros, hrun, ?_, ?_⟩
  · have hbuffer : buffer.bufferOffset = 0 := hoffset
    simp [collectPointerChasingSubpathInfo, hbuffer, Options.default, List.range_succ, walkSubpath,
      asUnsigned, hload, pure, Except.pure]
  · rintro ⟨cycle, hcycle, hdisjoint, -⟩
    have hmem : ∀ k < 2, 0 ∈ cycle k := fun k hk =>
      List.mem_of_head? (hcycle k ⟨0, 0, 1⟩ (by
        obtain rfl | rfl : k = 0 ∨ k = 1 := by omega
        all_goals rfl)).1.head
    exact hdisjoint 0 (by decide) 1 (by decide) (by decide) (hmem 0 (by decide))
      (hmem 1 (by decide))

end Completed

end Cachetest
