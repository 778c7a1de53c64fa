import Cachetest.UniformDistribution
import Cachetest.ZipfSubpath

/-!
# The uniform and the Zipf placement compared

The loop of `zipfSubpath` is a copy of the one in `UniformDistribution::doDistribute`: draw a line,
take its first empty word, stop when it has none. The copies differ in where a line ends. The search
of `doDistribute` gives up at `offset == num_line_elements - 1`, before the last word of the line,
the search of `zipfSubpath` after it. So a uniform path never takes the last word of a line, while a
Zipf path ends with a line all of whose words are taken.
-/

namespace Cachetest

open ByteMemory Circuit

/-- Both runs complete, and leave the same memory and the same number of entries. -/
def SameOutcome (r r' : Outcome PathState) : Prop :=
  ∃ st st', r = .ok st ∧ r' = .ok st' ∧ (∀ a, st.mem.byte a = st'.mem.byte a) ∧
    st.entries = st'.entries

namespace UniformDistribution

variable {d : Distribution} {randInt : Nat → UInt32}

/-- No element of the path is the last word of a line. -/
theorem IsPath.last_slot_not_mem (hfit : Fits d) (hpath : IsPath d (elements d randInt))
    {l s : Nat} (hslot : IsSlot d l s) (hlast : s + 1 = d.lineSize / elementSize) :
    slot d l s ∉ elements d randInt := by
  intro hin
  have htwo : 2 ≤ d.lineSize / elementSize :=
    (Nat.le_div_iff_mul_le (by decide)).mpr hfit.eight_le
  obtain ⟨j, hj⟩ := List.mem_iff_getElem?.mp hin
  cases j with
  | zero =>
    rw [← List.head?_eq_getElem?, hpath.head, Option.some.injEq, ← slot_zero] at hj
    have heq := lineWord_inj hfit.isSlot_zero.fits_line hslot.fits_line hj
    omega
  | succ j =>
    obtain ⟨s', hs', heq⟩ := List.mem_map.mp (element_mem_bin hj)
    have hs'' := List.mem_range.mp hs'
    have hslot' : IsSlot d (drawnLine d randInt (j + 1)) s' :=
      ⟨hfit.drawnLine_lt _ _, by omega⟩
    have heq' := lineWord_inj hslot'.fits_line hslot.fits_line heq
    omega

theorem doDistribute_of_lt {m : Memory} (hline : d.lineSize ≠ 0) (hone : d.numElements ≤ 1)
    (hstart : d.startOffset < 2147483648)
    (hslabs : ¬(d.buffer.isLargeBuffer = true ∧ d.buffer.getSlabs ≠ [])) :
    doDistribute d randInt m = .ok {
      mem := m.store d.startOffset d.startOffset, sequence := [], entries := 1 } := by
  have hcheck : ¬((d.buffer.isLargeBuffer && !d.buffer.getSlabs.isEmpty) = true) := by
    simpa using hslabs
  rw [doDistribute, if_neg hline, if_neg hcheck, if_neg (by omega)]
  simp only [Nat.sub_eq_zero_of_le hone, distributeLoop, asSizeT_asInt hstart]
  rfl

end UniformDistribution

namespace SubpathDistribution

variable {d : SubpathDistribution} {rand : Randomness}

theorem lines_pos_of_drawnLine {k i l : Nat} (h : d.drawnLine rand k i = some l) :
    0 < d.numDatalinesPerSubpath := by
  rw [drawnLine] at h
  cases hzipf : rand.zipf k i with
  | zero => simp [hzipf, rankedLine] at h
  | succ rank =>
    rw [hzipf, rankedLine, rankToDatalineMap] at h
    obtain ⟨hlt, -⟩ := List.getElem?_eq_some_iff.mp h
    rw [List.length_ofFn] at hlt
    omega

theorem doDistribute_of_lt {m : Memory} (hline : d.lineSize ≠ 0) (hone : d.numElements ≤ 1)
    (hsub : d.numSubpaths = 1) (hlines : d.numDatalines = 0) (halpha : ¬d.zipfAlpha ≤ 0)
    (hslabs : ¬(d.buffer.isLargeBuffer = true ∧ d.buffer.getSlabs ≠ [])) :
    d.doDistribute rand m = .ok {
      mem := m.store d.bufferOffset d.bufferOffset, sequence := [], entries := 1 } := by
  have hcheck : ¬((d.buffer.isLargeBuffer && !d.buffer.getSlabs.isEmpty) = true) := by
    simpa using hslabs
  have hstart : asUnsigned d.bufferOffset = d.bufferOffset :=
    asUnsigned_of_lt (asUnsigned_lt _)
  rw [doDistribute, if_neg hcheck, if_neg (by omega), hsub, hlines]
  simp [distributeSubpath, buildSubpath, halpha, zipfSubpath_eq, Nat.sub_eq_zero_of_le hone,
    zipfLoop, linkSubpath, chunkStart, hsub, hstart]

end SubpathDistribution

/-! ## The two runs -/

open UniformDistribution in
/-- On a buffer with a line the two paths are never the same. -/
theorem not_sameOutcome {d : Distribution} {d' : SubpathDistribution} {randInt : Nat → UInt32}
    {rand : Randomness} {m : Memory} (hfit : UniformDistribution.Fits d) (hfit' : d'.Fits)
    (hbuffer : d'.buffer = d.buffer) (hcacheline : d'.cacheline = d.cacheline)
    (hsub : d'.numSubpaths = 1) (halpha : ¬d'.zipfAlpha ≤ 0)
    (helements : d'.numElements = asUnsigned (d'.buffer.getSize / elementSize))
    (hslabs : ¬(d.buffer.isLargeBuffer = true ∧ d.buffer.getSlabs ≠ []))
    (hzero : ∀ a, d.startOffset ≤ a → a < d.startOffset + d.buffer.getSize → m.byte a = 0) :
    ¬SameOutcome (doDistribute d randInt m) (d'.doDistribute rand m) := by
  rintro ⟨st, st', hrun, hrun', hmem, -⟩
  have hwindow := hfit.window
  have hline : d'.lineSize = d.lineSize := by
    rw [SubpathDistribution.lineSize, Distribution.lineSize, hcacheline]
  have hoffset : d'.bufferOffset = d.startOffset := by
    rw [SubpathDistribution.bufferOffset, hbuffer]
    exact asUnsigned_of_lt (lt_of_le_of_lt (Nat.le_add_right _ _) (hwindow.trans (by decide)))
  have hwindow' : d'.bufferOffset + d'.buffer.getSize < unsignedRange := by
    rw [hoffset, hbuffer]
    exact hwindow.trans (by decide)
  have hlines : d'.numDatalinesPerSubpath = d.buffer.getSize / d.lineSize := by
    rw [SubpathDistribution.numDatalinesPerSubpath_eq hfit'.eight_le (by omega), hsub, Nat.div_one,
      hbuffer, hline]
  have hchunk : d'.chunkStart 0 = d.startOffset := by
    rw [hfit'.chunkStart_eq (Nat.zero_le _), Nat.zero_mul, Nat.add_zero, hoffset]
  have hslot : ∀ l s, d'.slot 0 l s = UniformDistribution.slot d l s := by
    intro l s
    rw [SubpathDistribution.slot, hchunk, hline]
    rfl
  -- Both memories hold a circuit through the start, so with equal memories it is the same one.
  obtain ⟨stU, hrunU, hpath, hcircuit, -⟩ := hfit.doDistribute_eq randInt hslabs fun l s h =>
    Memory.load_eq_zero fun t ht => by
      have hbounds := h.bounds
      exact hzero _ (by omega) (by omega)
  obtain rfl : stU = st := Except.ok.inj (hrunU.symm.trans hrun)
  obtain ⟨L, hL, hchunks⟩ := SubpathDistribution.zipf_builds hfit' halpha hrun'
  have hcircuit' := hL.unsplit.isCircuit
  have hload : st'.mem.load = stU.mem.load := funext fun a =>
    Memory.load_congr fun b _ _ => (hmem b).symm
  rw [hL.start 0 (by omega), hchunk, hload] at hcircuit'
  have helems : elements d randInt = L.elements := hcircuit.unique hcircuit'
  -- The Zipf path has a line with all words taken.
  obtain ⟨l, hl, hfull⟩ := (hchunks 0 (by omega)).exists_full_line hfit' hwindow' helements
    (by rw [hoffset, hbuffer]; exact hzero) (by omega)
    (SubpathLayout.nodup_chunk (by rw [hL.numSubpaths]; omega))
  have htwo : 2 ≤ d.lineSize / elementSize :=
    (Nat.le_div_iff_mul_le (by decide)).mpr hfit.eight_le
  have hlast : d'.slot 0 l (d.lineSize / elementSize - 1) ∈ L.elements :=
    SubpathLayout.mem_elements.mpr ⟨0, by rw [hL.numSubpaths]; omega,
      hfull _ (by rw [SubpathDistribution.numEntriesPerDataline, hline]; omega)⟩
  rw [hslot, ← helems] at hlast
  exact hpath.last_slot_not_mem hfit ⟨hlines ▸ hl, by omega⟩ (by omega) hlast

/-- Fed the same lines, the two routines agree on a zero-filled buffer only if it has less than two
words, so that there is nothing to place. -/
theorem placements_agree_iff {b : Buffer} {cacheline : Int32} {offset line : Nat} {zipfAlpha : ℚ}
    (hcache : cacheline.toInt = line) (hline : 8 ≤ line)
    (hstart : b.getStartAddress = b.getBufferPointer + offset)
    (hwindow : offset + b.getSize < 2147483648) (halpha : 0 < zipfAlpha)
    {randInt : Nat → UInt32} {rand : Randomness}
    (hdraws : ∀ i, 1 ≤ i → i < b.getSize / elementSize →
      (SubpathDistribution.create b cacheline 1 zipfAlpha).drawnLine rand 0 i =
        some (UniformDistribution.drawnLine (Distribution.setup b cacheline) randInt i))
    {m : Memory} (hzero : ∀ a, offset ≤ a → a < offset + b.getSize → m.byte a = 0) :
    SameOutcome (UniformDistribution.doDistribute (Distribution.setup b cacheline) randInt m)
        ((SubpathDistribution.create b cacheline 1 zipfAlpha).doDistribute rand m) ↔
      b.getSize < 8 ∧ ¬(b.isLargeBuffer = true ∧ b.getSlabs ≠ []) := by
  set d := Distribution.setup b cacheline with hd
  set d' := SubpathDistribution.create b cacheline 1 zipfAlpha with hd'
  have hlineSize : d.lineSize = line := asSizeT_of_toInt hcache
  have hlineSize' : d'.lineSize = line := SubpathDistribution.lineSize_eq hcache
  have hoffset : d.startOffset = offset := by
    rw [Distribution.startOffset, hd, Distribution.setup, hstart, Nat.add_sub_cancel_left]
  have hoffset' : d'.bufferOffset = offset :=
    SubpathDistribution.bufferOffset_eq hstart (by simp only [unsignedRange]; omega)
  have hsize : b.getSize < unsignedRange := by simp only [unsignedRange]; omega
  have hlines : d'.numDatalines = b.getSize / line := by
    rw [SubpathDistribution.numDatalines_eq (hlineSize' ▸ hline) hsize, hlineSize']
    rfl
  by_cases hslabs : b.isLargeBuffer = true ∧ b.getSlabs ≠ []
  · refine iff_of_false ?_ fun h => h.2 hslabs
    rintro ⟨-, st', -, hrun', -⟩
    rw [SubpathDistribution.doDistribute_of_slabs hslabs.1 hslabs.2] at hrun'
    cases hrun'
  by_cases hsmall : b.getSize < 8
  · have hone : b.getSize / elementSize ≤ 1 := by
      simp only [elementSize]
      omega
    have helements : asUnsigned (b.getSize / elementSize) ≤ 1 := (Nat.mod_le _ _).trans hone
    refine iff_of_true ⟨_, _, UniformDistribution.doDistribute_of_lt (by omega) helements
      (by omega) hslabs, SubpathDistribution.doDistribute_of_lt (by omega) helements rfl
        (by rw [hlines]; exact Nat.div_eq_of_lt (by omega)) (not_le.mpr halpha) hslabs, ?_⟩
      ⟨hsmall, hslabs⟩
    rw [hoffset, hoffset']
    exact ⟨fun _ => rfl, rfl⟩
  refine iff_of_false ?_ fun h => hsmall h.1
  -- There is a second element to place, so the first draw gave a line that exists.
  have hdraw := hdraws 1 le_rfl
    ((Nat.le_div_iff_mul_le (by decide)).mpr (by simp only [elementSize]; omega))
  have hpos : 0 < b.getSize / line := by
    have hper := SubpathDistribution.lines_pos_of_drawnLine hdraw
    rwa [SubpathDistribution.numDatalinesPerSubpath_eq (hlineSize' ▸ hline) hsize, hlineSize',
      show d'.numSubpaths = 1 from rfl, Nat.div_one] at hper
  have hle : line ≤ b.getSize := by
    by_contra hlt
    rw [Nat.div_eq_of_lt (by omega)] at hpos
    omega
  have hfit : UniformDistribution.Fits d :=
    ⟨hlineSize ▸ hline, hlineSize ▸ hle, hoffset ▸ hwindow⟩
  have hfit' : d'.Fits := SubpathDistribution.fits_of_window (hlineSize' ▸ hline) Nat.one_pos
    (hlineSize' ▸ hpos) (by rw [hoffset']; exact hwindow.trans (by decide))
  exact not_sameOutcome hfit hfit' rfl rfl rfl (not_le.mpr halpha) rfl hslabs (hoffset ▸ hzero)

/-- A line of 16 bytes: the uniform path has three elements, the Zipf path four. -/
theorem placements_differ_one_line :
    (∀ i, (SubpathDistribution.create (Buffer.smallPool 16) 16 1 1).drawnLine
        Randomness.identity 0 i =
      some (UniformDistribution.drawnLine (Distribution.setup (Buffer.smallPool 16) 16)
        (fun _ => 0) i)) ∧
    (UniformDistribution.doDistribute (Distribution.setup (Buffer.smallPool 16) 16)
      (fun _ => 0) zeros).map PathState.entries = .ok 3 ∧
    ((SubpathDistribution.create (Buffer.smallPool 16) 16 1 1).doDistribute
      Randomness.identity zeros).map PathState.entries = .ok 4 ∧
    ¬SameOutcome (UniformDistribution.doDistribute (Distribution.setup (Buffer.smallPool 16) 16)
        (fun _ => 0) zeros)
      ((SubpathDistribution.create (Buffer.smallPool 16) 16 1 1).doDistribute
        Randomness.identity zeros) := by
  have hentries : (UniformDistribution.doDistribute (Distribution.setup (Buffer.smallPool 16) 16)
      (fun _ => 0) zeros).map PathState.entries = .ok 3 := by decide
  have hentries' : ((SubpathDistribution.create (Buffer.smallPool 16) 16 1 1).doDistribute
      Randomness.identity zeros).map PathState.entries = .ok 4 := by decide
  refine ⟨fun _ => rfl, hentries, hentries', ?_⟩
  rintro ⟨st, st', hrun, hrun', -, heq⟩
  rw [hrun] at hentries
  rw [hrun'] at hentries'
  have h : st.entries = 3 := Except.ok.inj hentries
  have h' : st'.entries = 4 := Except.ok.inj hentries'
  omega

/-- The theorem at two lines of 16 bytes, with the first one drawn all the time. -/
theorem placements_agree_iff_two_lines :
    ¬SameOutcome (UniformDistribution.doDistribute (Distribution.setup (Buffer.smallPool 32) 16)
        (fun _ => 0) zeros)
      ((SubpathDistribution.create (Buffer.smallPool 32) 16 1 1).doDistribute
        Randomness.identity zeros) := fun h =>
  absurd ((placements_agree_iff (by decide : (16 : Int32).toInt = (16 : Nat)) (by decide)
    (show (Buffer.smallPool 32).getStartAddress = _ + 0 from rfl) (by decide) (by decide)
    (fun _ _ _ => rfl) fun _ _ _ => rfl).mp h).1 (by decide)

end Cachetest
