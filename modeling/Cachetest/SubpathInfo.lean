import Mathlib.Algebra.Order.BigOperators.Group.List
import Cachetest.Experiment
import Cachetest.UniformSubpath
import Cachetest.ZipfSubpath

/-!
# Information about the subpaths

After the path has been built, `collectPointerChasingSubpathInfo` reads it back: it follows the path
from where it expects each subpath to start to where it expects the next one to start.
`splitPointerChasingPath` then closes every subpath to a ring of its own.

The builder takes the chunk boundaries from the size of the buffer, the reader from the dataset. The
two agree exactly when these give the same chunk length, or when there is only one chunk.
-/

namespace Cachetest

open ByteMemory Circuit

/-! ## The code -/

/-- `SubpathInfo`. -/
structure SubpathInfo where
  startIdx : Nat
  endIdx : Nat
  length : Nat
  deriving DecidableEq, Repr

/-- The `while` loop of `collectPointerChasingSubpathInfo` with a bound on the number of rounds:
`none` when it has not ended by then. -/
def walkSubpath (m : Memory) (startIdxNextSubpath : Nat) : Nat → Nat → Nat → Option (Nat × Nat)
  | 0, _, _ => none
  | fuel + 1, idx, length =>
    if startIdxNextSubpath ≠ m.load idx then
      walkSubpath m startIdxNextSubpath fuel (m.load idx) (length + 1)
    else some (idx, length)

/-- `collectPointerChasingSubpathInfo`, following every subpath for at most `fuel` loads. -/
def collectPointerChasingSubpathInfo (fuel : Nat) (opt : Options) (numSubpaths : Nat)
    (buffer : Buffer) (m : Memory) : Option (Outcome (List SubpathInfo)) :=
  let bufferOffset := buffer.bufferOffset
  let subpathBufferLength := opt.dataset.toNat / numSubpaths
  let infos := (List.range numSubpaths).mapM fun i =>
    let startIdx := asUnsigned (bufferOffset + i * subpathBufferLength)
    let startIdxNextSubpath :=
      asUnsigned (bufferOffset + ((i + 1) % numSubpaths) * subpathBufferLength)
    (walkSubpath m startIdxNextSubpath fuel startIdx 1).map fun (idx, length) =>
      { startIdx := startIdx, endIdx := idx, length := length : SubpathInfo }
  infos.map fun infos => do
    assertThat (0 < infos.length) "subpathInfo.size() > 0"
    return infos

/-- `splitPointerChasingPath`: make the last entry of each subpath point to the first. -/
def splitPointerChasingPath (infos : List SubpathInfo) (m : Memory) : Memory :=
  infos.foldl (fun m info => m.store info.endIdx info.startIdx) m

/-! ## What a completed `doDistribute` has laid out -/

/-- The stretches of the path: `chunk k` runs from the first index of chunk `k` up to, but not
including, the first index of the next chunk. -/
structure Laid (d : SubpathDistribution) (st : PathState) (chunk : Nat → List Nat) : Prop where
  head : ∀ k < d.numSubpaths, (chunk k).head? = some (d.chunkStart k)
  leads : ∀ k < d.numSubpaths,
    Leads st.mem.load (chunk k) (d.chunkStart ((k + 1) % d.numSubpaths))
  first : ∀ k < d.numSubpaths, ∀ a ∈ (chunk k).tail, a ≠ d.chunkStart ((k + 1) % d.numSubpaths)
  entries : st.entries = ((List.range d.numSubpaths).map fun k => (chunk k).length).sum

/-- What the info about a stretch has to be. -/
def SubpathInfo.describing (chunk : List Nat) : SubpathInfo where
  startIdx := chunk.headD 0
  endIdx := chunk.getLastD 0
  length := chunk.length

section Laid

variable {d : SubpathDistribution} {rand : Randomness} {m : Memory} {st : PathState}

theorem SubpathDistribution.Builds.laid {L : SubpathLayout} (hL : d.Builds st L) :
    Laid d st L.chunk where
  head k hk := by rw [SubpathLayout.head?_chunk (hL.numSubpaths ▸ hk), hL.start k hk]
  leads k hk := by
    have hnext : L.nextSubpath k = (k + 1) % d.numSubpaths := by
      rw [SubpathLayout.nextSubpath, hL.numSubpaths]
    rw [← hL.start _ (Nat.mod_lt _ (Nat.zero_lt_of_lt hk)), ← hnext]
    exact hL.unsplit k (hL.numSubpaths ▸ hk)
  first k hk a ha := by
    have hk' : k < L.numSubpaths := hL.numSubpaths ▸ hk
    rw [← hL.start _ (Nat.mod_lt _ (Nat.zero_lt_of_lt hk)), ← hL.numSubpaths]
    rintro rfl
    obtain ⟨xs, hxs⟩ := SubpathLayout.chunk_eq_cons hk'
    have hmem : L.start (L.nextSubpath k) ∈ xs := by
      simpa [hxs, SubpathLayout.nextSubpath] using ha
    have hin : L.start (L.nextSubpath k) ∈ L.chunk k := hxs ▸ List.mem_cons_of_mem _ hmem
    have hsame := SubpathLayout.subpath_unique (SubpathLayout.nextSubpath_lt k) hk'
      (SubpathLayout.start_mem (SubpathLayout.nextSubpath_lt k)) hin
    have hnodup := SubpathLayout.nodup_chunk hk'
    rw [hxs, List.nodup_cons] at hnodup
    exact hnodup.1 (hsame ▸ hmem)
  entries := by
    rw [hL.entries, SubpathLayout.elements, List.length_flatten, ← hL.numSubpaths]
    congr 1
    apply List.ext_getElem
    · simp [SubpathLayout.numSubpaths]
    · intro k hk _
      simp only [List.getElem_map, List.getElem_range]
      rw [SubpathLayout.chunk_eq_getElem (by simpa using hk)]

namespace SubpathDistribution

/-- A completed run in a window with 32-bit indices has built chunks of at least one line, except in
Zipf mode over a buffer of at most one element. -/
theorem fits_or_empty (hline : 8 ≤ d.lineSize)
    (hwindow : d.bufferOffset + d.buffer.getSize < unsignedRange)
    (hrun : d.doDistribute rand m = .ok st) :
    d.Fits ∨ (d.numDatalinesPerSubpath = 0 ∧ ¬d.zipfAlpha ≤ 0 ∧ d.numElements ≤ 1) := by
  by_cases halpha : d.zipfAlpha ≤ 0
  · exact Or.inl (uniform_fits halpha hwindow hrun).1
  obtain ⟨-, ⟨-, hsubpaths⟩, -, hloop⟩ := doDistribute_ok.mp hrun
  by_cases hlines : d.numDatalinesPerSubpath = 0
  · refine Or.inr ⟨hlines, halpha, ?_⟩
    by_contra hmany
    have hfirst := foldlM_range_invariant (fun k _ => ¬0 < k) (fun k _ s s' _ hround => by
      obtain ⟨⟨last, built⟩, hbuild, -⟩ := bind_eq_ok.mp hround
      obtain ⟨rounds, hrounds⟩ : ∃ rounds, d.numElements - 1 = rounds + 1 :=
        ⟨d.numElements - 2, by omega⟩
      -- With no line there is no rank, so the first draw already reads out of bounds.
      have hdraw : rankedLine (rankToDatalineMap rand k 0) (rand.zipf k 1) = none := by
        cases h : rand.zipf k 1 <;> simp [rankedLine, rankToDatalineMap]
      rw [buildSubpath, if_neg halpha, zipfSubpath_eq, hrounds, hlines] at hbuild
      simp only [zipfLoop, hdraw] at hbuild
      simp at hbuild) (lt_irrefl 0) hloop
    exact hfirst (by omega)
  · refine Or.inl (fits_of_window hline (by omega) ?_ hwindow)
    rw [numDatalinesPerSubpath_eq hline (by omega)] at hlines
    by_contra hlt
    exact hlines (Nat.div_eq_of_lt (by omega))

theorem exists_builds (hfit : d.Fits) (hrun : d.doDistribute rand m = .ok st) :
    ∃ L : SubpathLayout, d.Builds st L := by
  by_cases halpha : d.zipfAlpha ≤ 0
  · obtain ⟨L, hL, -⟩ := uniform_builds hfit halpha hrun
    exact ⟨L, hL⟩
  · obtain ⟨L, hL, -⟩ := zipf_builds hfit halpha hrun
    exact ⟨L, hL⟩

theorem chunkStart_of_empty (hlines : d.numDatalinesPerSubpath = 0) (k : Nat) :
    d.chunkStart k = d.bufferOffset := by
  rw [chunkStart, hlines, Nat.mul_zero, Nat.zero_mul, Nat.add_zero]
  exact asUnsigned_of_lt (asUnsigned_lt _)

theorem distributeSubpath_of_empty (hlines : d.numDatalinesPerSubpath = 0)
    (halpha : ¬d.zipfAlpha ≤ 0) (helements : d.numElements ≤ 1) (st : PathState) (k : Nat) :
    d.distributeSubpath rand st k =
      .ok { mem := st.mem.store d.bufferOffset d.bufferOffset
            sequence := st.sequence
            entries := st.entries + 1 } := by
  have hbuild : d.buildSubpath rand st k =
      .ok (d.chunkStart k, { st with entries := st.entries + 1 }) := by
    rw [buildSubpath, if_neg halpha, zipfSubpath_eq, show d.numElements - 1 = 0 by omega]
    rfl
  rw [distributeSubpath, hbuild, ok_bind]
  simp only [linkSubpath, chunkStart_of_empty hlines]
  rfl

/-- Without lines all chunks consist of the word at the start address, which leads to itself. -/
theorem laid_of_empty (hlines : d.numDatalinesPerSubpath = 0) (halpha : ¬d.zipfAlpha ≤ 0)
    (helements : d.numElements ≤ 1) (hrun : d.doDistribute rand m = .ok st) :
    st.mem.load d.bufferOffset = d.bufferOffset ∧ Laid d st fun _ => [d.bufferOffset] := by
  obtain ⟨-, ⟨-, hsubpaths⟩, -, hloop⟩ := doDistribute_ok.mp hrun
  have hall := foldlM_range_invariant
    (fun k s => s.entries = k ∧ (0 < k → s.mem.load d.bufferOffset = d.bufferOffset))
    (fun k _ s s' hs hround => by
      rw [distributeSubpath_of_empty hlines halpha helements] at hround
      obtain rfl := Except.ok.inj hround
      exact ⟨congrArg (· + 1) hs.1, fun _ => Memory.load_store_of_lt _ _ (asUnsigned_lt _)⟩)
    ⟨rfl, fun h => absurd h (lt_irrefl 0)⟩ hloop
  have hload := hall.2 (Nat.pos_of_ne_zero hsubpaths)
  have hchunk := chunkStart_of_empty hlines
  refine ⟨hload, fun k _ => by rw [hchunk]; rfl, fun k hk => ?_, fun k _ a ha => by simp at ha, ?_⟩
  · rw [hchunk, leads_singleton]
    exact hload
  · simp [hall.1]

theorem empty_total (hlines : d.numDatalinesPerSubpath = 0) (halpha : ¬d.zipfAlpha ≤ 0)
    (helements : d.numElements ≤ 1) (hslabs : d.buffer.getSlabs = [])
    (hpos : d.lineSize ≠ 0 ∧ d.numSubpaths ≠ 0) (hdvd : d.numDatalines % d.numSubpaths = 0)
    (rand : Randomness) (m : Memory) : ∃ st, d.doDistribute rand m = .ok st := by
  obtain ⟨st, hloop, -⟩ := foldlM_range_total (fun _ _ => True) (n := d.numSubpaths)
    (fun k _ s _ => ⟨_, distributeSubpath_of_empty hlines halpha helements s k, trivial⟩) trivial
  exact ⟨st, doDistribute_ok.mpr ⟨fun h => h.2 hslabs, hpos, hdvd, hloop⟩⟩

theorem exists_laid (hline : 8 ≤ d.lineSize)
    (hwindow : d.bufferOffset + d.buffer.getSize < unsignedRange)
    (hrun : d.doDistribute rand m = .ok st) : ∃ chunk, Laid d st chunk := by
  rcases fits_or_empty hline hwindow hrun with hfit | ⟨hlines, halpha, helements⟩
  · obtain ⟨L, hL⟩ := exists_builds hfit hrun
    exact ⟨_, hL.laid⟩
  · exact ⟨_, (laid_of_empty hlines halpha helements hrun).2⟩

end SubpathDistribution

end Laid

/-! ## Reading the path back -/

theorem walkSubpath_eq {m : Memory} {z : Nat} :
    ∀ (xs : List Nat) (a length fuel : Nat), Leads m.load (a :: xs) z → z ∉ xs →
      xs.length < fuel →
        walkSubpath m z fuel a length = some ((a :: xs).getLastD 0, length + xs.length) := by
  intro xs
  induction xs with
  | nil =>
    intro a length fuel hleads _ hfuel
    obtain ⟨fuel, rfl⟩ : ∃ f, fuel = f + 1 := ⟨fuel - 1, by simp at hfuel; omega⟩
    rw [leads_singleton] at hleads
    simp [walkSubpath, hleads]
  | cons b xs ih =>
    intro a length fuel hleads hz hfuel
    obtain ⟨fuel, rfl⟩ : ∃ f, fuel = f + 1 := ⟨fuel - 1, by simp at hfuel; omega⟩
    rw [leads_cons_cons] at hleads
    rw [List.mem_cons, not_or] at hz
    rw [walkSubpath, if_pos (by rw [hleads.1]; exact hz.1), hleads.1,
      ih b (length + 1) fuel hleads.2 hz.2 (by simpa using hfuel)]
    simp only [List.getLastD_cons, List.length_cons, Option.some.injEq, Prod.mk.injEq, true_and]
    omega

/-- `collectPointerChasingSubpathInfo` ends, and describes the stretches `chunk`. -/
def CollectAgrees (opt : Options) (d : SubpathDistribution) (st : PathState)
    (chunk : Nat → List Nat) : Prop :=
  ∃ fuel infos,
    collectPointerChasingSubpathInfo fuel opt d.numSubpaths d.buffer st.mem = some (.ok infos) ∧
      infos.length = d.numSubpaths ∧
      (∀ k < d.numSubpaths, infos[k]? = some (.describing (chunk k))) ∧
        (infos.map fun info => info.length).sum = st.entries

section Collect

variable {opt : Options} {d : SubpathDistribution} {st : PathState} {chunk : Nat → List Nat}

theorem boundary_eq (h : d.numSubpaths = 1 ∨ opt.dataset.toNat / d.numSubpaths = d.chunkSize)
    {k : Nat} (hk : k < d.numSubpaths) :
    asUnsigned (d.buffer.bufferOffset + k * (opt.dataset.toNat / d.numSubpaths)) =
      d.chunkStart k := by
  rcases h with hone | hsize
  · obtain rfl : k = 0 := by omega
    simp [SubpathDistribution.chunkStart, SubpathDistribution.bufferOffset]
  · rw [hsize, SubpathDistribution.chunkSize, ← Nat.mul_assoc]
    rfl

/-- With the right boundaries, one round of the reader describes one stretch. -/
theorem Laid.walk_eq (h : Laid d st chunk) {k : Nat} (hk : k < d.numSubpaths) :
    walkSubpath st.mem (d.chunkStart ((k + 1) % d.numSubpaths)) (st.entries + 1) (d.chunkStart k)
      1 = some ((chunk k).getLastD 0, (chunk k).length) := by
  obtain ⟨xs, hxs⟩ := List.head?_eq_some_iff.mp (h.head k hk)
  have hlength : (chunk k).length ≤ st.entries := by
    rw [h.entries]
    exact List.single_le_sum (fun _ _ => Nat.zero_le _) _
      (List.mem_map.mpr ⟨k, List.mem_range.mpr hk, rfl⟩)
  have hleads := h.leads k hk
  have hfirst := h.first k hk
  rw [hxs] at hlength hleads hfirst ⊢
  rw [walkSubpath_eq xs _ 1 _ hleads (fun hmem => hfirst _ hmem rfl)
    (by simp only [List.length_cons] at hlength; omega), List.length_cons, Nat.add_comm]

theorem Laid.collectAgrees (h : Laid d st chunk) (hpos : 0 < d.numSubpaths)
    (hboundary : d.numSubpaths = 1 ∨ opt.dataset.toNat / d.numSubpaths = d.chunkSize) :
    CollectAgrees opt d st chunk := by
  have hinfos : (List.range d.numSubpaths).mapM (fun i =>
      (walkSubpath st.mem (asUnsigned (d.buffer.bufferOffset +
          ((i + 1) % d.numSubpaths) * (opt.dataset.toNat / d.numSubpaths))) (st.entries + 1)
        (asUnsigned (d.buffer.bufferOffset + i * (opt.dataset.toNat / d.numSubpaths))) 1).map
          fun (idx, length) => { startIdx := asUnsigned (d.buffer.bufferOffset +
              i * (opt.dataset.toNat / d.numSubpaths)), endIdx := idx, length := length
            : SubpathInfo }) =
      some ((List.range d.numSubpaths).map fun k => .describing (chunk k)) := by
    rw [mapM_range_eq_some]
    refine ⟨by simp, fun k hk => ?_⟩
    rw [boundary_eq hboundary hk, boundary_eq hboundary (Nat.mod_lt _ hpos), h.walk_eq hk]
    simp [hk, SubpathInfo.describing, h.head k hk]
  refine ⟨st.entries + 1, (List.range d.numSubpaths).map fun k => .describing (chunk k), ?_,
    by simp, fun k hk => by simp [hk], ?_⟩
  · simp only [collectPointerChasingSubpathInfo, hinfos]
    simp [hpos, pure, Except.pure]
  · rw [h.entries, List.map_map]
    rfl

/-- The reader agrees with the builder exactly when they use the same boundaries. -/
theorem Laid.collectAgrees_iff (h : Laid d st chunk) (hpos : 0 < d.numSubpaths)
    (hwindow : d.bufferOffset + d.numSubpaths * d.chunkSize < unsignedRange) :
    CollectAgrees opt d st chunk ↔
      d.numSubpaths = 1 ∨ opt.dataset.toNat / d.numSubpaths = d.chunkSize := by
  refine ⟨?_, h.collectAgrees hpos⟩
  rintro ⟨fuel, infos, hcollect, -, hinfos, -⟩
  by_cases hone : d.numSubpaths = 1
  · exact Or.inl hone
  right
  have hk : 1 < d.numSubpaths := by omega
  -- The info of subpath 1 shows which boundary the reader has used.
  rw [collectPointerChasingSubpathInfo, Option.map_eq_some_iff] at hcollect
  obtain ⟨infos', hmap, hok⟩ := hcollect
  obtain ⟨_, -, hret⟩ := bind_eq_ok.mp hok
  obtain rfl := Except.ok.inj hret
  have hread := (mapM_range_eq_some.mp hmap).2 1 hk
  rw [hinfos 1 hk, Option.map_eq_some_iff] at hread
  obtain ⟨⟨idx, length⟩, -, hinfo⟩ := hread
  have hstart := congrArg SubpathInfo.startIdx hinfo
  have hone_le : 2 * d.chunkSize ≤ d.numSubpaths * d.chunkSize := Nat.mul_le_mul_right _ hk
  have hdataset := opt.dataset.toNat_lt
  have hhalf : opt.dataset.toNat / d.numSubpaths ≤ opt.dataset.toNat := Nat.div_le_self _ _
  simp only [SubpathInfo.describing, List.headD_eq_head?_getD, h.head 1 hk, Option.getD_some,
    Nat.one_mul, SubpathDistribution.chunkStart, ← SubpathDistribution.chunkSize.eq_1] at hstart
  change asUnsigned (d.bufferOffset + _) = asUnsigned (d.bufferOffset + _) at hstart
  generalize opt.dataset.toNat / d.numSubpaths = length at hstart hhalf ⊢
  simp only [asUnsigned, unsignedRange] at hstart hwindow
  omega

end Collect

/-- For every command line that gets past the checks and every completed `doDistribute`, the reader
agrees with the builder exactly when there is one subpath or a subpath's share of the dataset is as
long as a chunk of the buffer. -/
theorem collect_agrees_iff {host : Host} {opt : Options} {numSubpaths : Nat} {zipfAlpha : ℚ}
    {rand : Randomness} {m m' : Memory} {buffer : Buffer} {st : PathState}
    (hconfigure : configureExperiment opt = .ok ())
    (hbuffer : setupBuffer host opt m = .ok (buffer, m'))
    (hwindow : opt.bufferoffset.toNat + asSizeT opt.buffersize < unsignedRange)
    (hrun : (setupDistribution opt numSubpaths zipfAlpha buffer).doDistribute rand
      (buffer.view m') = .ok st) :
    (∃ chunk, Laid (setupDistribution opt numSubpaths zipfAlpha buffer) st chunk) ∧
      ∀ chunk, Laid (setupDistribution opt numSubpaths zipfAlpha buffer) st chunk →
        (CollectAgrees opt (setupDistribution opt numSubpaths zipfAlpha buffer) st chunk ↔
          numSubpaths = 1 ∨ opt.dataset.toNat / numSubpaths =
            asSizeT opt.buffersize / asSizeT opt.cacheline.toInt32 / numSubpaths *
              asSizeT opt.cacheline.toInt32) := by
  obtain ⟨hsize, hstart⟩ := setupBuffer_spec hbuffer
  have hline := eight_le_lineSize hconfigure numSubpaths zipfAlpha buffer
  have hoffset : (setupDistribution opt numSubpaths zipfAlpha buffer).bufferOffset =
      opt.bufferoffset.toNat :=
    SubpathDistribution.bufferOffset_eq (by rw [buffer_setupDistribution, hstart]) (by omega)
  have hsize' : (setupDistribution opt numSubpaths zipfAlpha buffer).buffer.getSize =
      asSizeT opt.buffersize := by
    rw [buffer_setupDistribution, hsize]
  have hchunkSize : (setupDistribution opt numSubpaths zipfAlpha buffer).chunkSize =
      asSizeT opt.buffersize / asSizeT opt.cacheline.toInt32 / numSubpaths *
        asSizeT opt.cacheline.toInt32 := by
    rw [SubpathDistribution.chunkSize,
      SubpathDistribution.numDatalinesPerSubpath_eq hline (by omega), hsize',
      lineSize_setupDistribution, numSubpaths_setupDistribution]
  have hchunks := SubpathDistribution.mul_chunkSize_le hline (by omega)
  obtain ⟨-, ⟨-, hpos⟩, -, -⟩ := SubpathDistribution.doDistribute_ok.mp hrun
  refine ⟨SubpathDistribution.exists_laid hline (by omega) hrun, fun chunk hchunk => ?_⟩
  rw [hchunk.collectAgrees_iff (Nat.pos_of_ne_zero hpos) (by omega), hchunkSize,
    numSubpaths_setupDistribution]

/-- Two subpaths in a buffer of the size of the dataset. -/
theorem collect_agrees_iff_two_subpaths :
    let opt := { Options.default with dataset := 1024 }
    let buffer := (Buffer.smallPool 1024).setBufferOffset 0
    ∃ m' st,
      setupBuffer Host.simple opt zeros = .ok (buffer, m') ∧
      (setupDistribution opt 2 0 buffer).doDistribute Randomness.identity (buffer.view m') =
        .ok st ∧
      ∀ chunk, Laid (setupDistribution opt 2 0 buffer) st chunk →
        (CollectAgrees opt (setupDistribution opt 2 0 buffer) st chunk ↔
          2 = 1 ∨ opt.dataset.toNat / 2 =
            asSizeT opt.buffersize / asSizeT opt.cacheline.toInt32 / 2 *
              asSizeT opt.cacheline.toInt32) := by
  intro opt buffer
  obtain ⟨st, hrun⟩ := SubpathDistribution.uniform_total (d := setupDistribution opt 2 0 buffer)
    (SubpathDistribution.fits_of_window (by decide) (by decide) (by decide) (by decide)) rfl
    (by decide) (by decide) (by decide) Randomness.identity
    (buffer.view ((Buffer.smallPool 1024).zeroPool zeros))
  have hbuffer : setupBuffer Host.simple opt zeros =
      .ok (buffer, (Buffer.smallPool 1024).zeroPool zeros) :=
    setupBuffer_small rfl rfl (by decide) zeros
  exact ⟨_, st, hbuffer, hrun, (collect_agrees_iff rfl hbuffer (by decide) hrun).2⟩

/-- With `-b 2` the buffer is twice the dataset: the reader looks for the second of two subpaths in
the middle of the first. -/
theorem collect_disagrees :
    let opt := { Options.default with bufferfactor := 2, dataset := 1024 }
    let buffer := (Buffer.smallPool 2048).setBufferOffset 0
    configureExperiment opt = .ok () ∧
      ∃ m' st,
        setupBuffer Host.simple opt zeros = .ok (buffer, m') ∧
        (setupDistribution opt 2 0 buffer).doDistribute Randomness.identity (buffer.view m') =
          .ok st ∧
        ∀ chunk, Laid (setupDistribution opt 2 0 buffer) st chunk →
          ¬CollectAgrees opt (setupDistribution opt 2 0 buffer) st chunk := by
  intro opt buffer
  have hfit : (setupDistribution opt 2 0 buffer).Fits :=
    SubpathDistribution.fits_of_window (by decide) (by decide) (by decide) (by decide)
  obtain ⟨st, hrun⟩ := SubpathDistribution.uniform_total hfit rfl (by decide) (by decide)
    (by decide) Randomness.identity (buffer.view ((Buffer.smallPool 2048).zeroPool zeros))
  refine ⟨rfl, _, st, setupBuffer_small rfl rfl (by decide) zeros, hrun, fun chunk hchunk => ?_⟩
  rw [hchunk.collectAgrees_iff (by decide) hfit.window]
  decide

end Cachetest
