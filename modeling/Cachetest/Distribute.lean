import Cachetest.Distribution
import Cachetest.SubpathLayout

/-!
# The loop over the subpaths

`doDistribute` builds chunk after chunk and links each to the next. Both builders meet the same
contract (`ChunkBuilt`): they leave a walk through words of their own chunk and touch nothing below
it. This file turns that contract, for whatever mode, into the layout of the whole path.
-/

namespace Cachetest

open ByteMemory Circuit

namespace SubpathDistribution

/-- The chunks are not empty and every byte of them has a 32-bit index. -/
structure Fits (d : SubpathDistribution) : Prop where
  subpaths_pos : 0 < d.numSubpaths
  lines_pos : 0 < d.numDatalinesPerSubpath
  eight_le : 8 ≤ d.lineSize
  window : d.bufferOffset + d.numSubpaths * (d.numDatalinesPerSubpath * d.lineSize) < unsignedRange

/-- The length of a chunk in bytes. -/
def chunkSize (d : SubpathDistribution) : Nat := d.numDatalinesPerSubpath * d.lineSize

/-- What a builder leaves of chunk `[lo, hi)`: a walk through `xs`, starting at `lo` and arriving at
the still unwritten `last`. -/
structure ChunkBuilt (lo hi : Nat) (before after : Memory) (xs : List Nat) (last : Nat) : Prop where
  head : (xs ++ [last]).head? = some lo
  leads : Leads after.load xs last
  apart : (xs ++ [last]).Pairwise Apart
  inside : ∀ a ∈ xs ++ [last], lo ≤ a ∧ a + 4 ≤ hi
  below : ∀ b < lo, after.byte b = before.byte b

/-- A finished chunk, linked to the next one. -/
structure ChunkLinked (d : SubpathDistribution) (m : Memory) (k : Nat) (xs : List Nat) : Prop where
  head : xs.head? = some (d.chunkStart k)
  leads : Leads m.load xs (d.chunkStart ((k + 1) % d.numSubpaths))
  apart : xs.Pairwise Apart
  inside : ∀ a ∈ xs, d.chunkStart k ≤ a ∧ a + 4 ≤ d.chunkStart k + d.chunkSize

/-- `st` holds the path with layout `L`, as a single ring: subpath `k` starts at the first index of
chunk `k`, stays inside the chunk, and every element has been counted. -/
structure Builds (d : SubpathDistribution) (st : PathState) (L : SubpathLayout) : Prop where
  numSubpaths : L.numSubpaths = d.numSubpaths
  unsplit : L.Unsplit st.mem
  start : ∀ k < d.numSubpaths, L.start k = d.chunkStart k
  inside : ∀ k < d.numSubpaths, ∀ a ∈ L.chunk k,
    d.chunkStart k ≤ a ∧ a + 4 ≤ d.chunkStart k + d.chunkSize
  entries : st.entries = L.elements.length

variable {d : SubpathDistribution}

/-! ## Where the chunks lie -/

/-- For a buffer that 32-bit indices can address, the detour through `int` loses nothing. -/
theorem numDatalines_eq (hline : 8 ≤ d.lineSize) (hsize : d.buffer.getSize < unsignedRange) :
    d.numDatalines = d.buffer.getSize / d.lineSize := by
  have hle : d.buffer.getSize / d.lineSize ≤ d.buffer.getSize / 8 :=
    Nat.div_le_div_left hline (by omega)
  simp only [unsignedRange] at hsize
  exact asSizeT_asInt (by omega)

theorem bufferOffset_eq {offset : Nat}
    (hstart : d.buffer.getStartAddress = d.buffer.getBufferPointer + offset)
    (hoffset : offset < unsignedRange) : d.bufferOffset = offset := by
  rw [bufferOffset, Buffer.bufferOffset, hstart, Nat.add_sub_cancel_left, asUnsigned_of_lt hoffset]

theorem numDatalinesPerSubpath_eq (hline : 8 ≤ d.lineSize)
    (hsize : d.buffer.getSize < unsignedRange) :
    d.numDatalinesPerSubpath = d.buffer.getSize / d.lineSize / d.numSubpaths := by
  have hlines : d.buffer.getSize / d.lineSize ≤ d.buffer.getSize / 8 :=
    Nat.div_le_div_left hline (by omega)
  have hle := Nat.div_le_self (d.buffer.getSize / d.lineSize) d.numSubpaths
  simp only [unsignedRange] at hsize
  rw [numDatalinesPerSubpath, numDatalines_eq hline (by simpa using hsize)]
  exact asSizeT_asInt (by omega)

theorem mul_chunkSize_le (hline : 8 ≤ d.lineSize) (hsize : d.buffer.getSize < unsignedRange) :
    d.numSubpaths * d.chunkSize ≤ d.buffer.getSize := by
  rw [chunkSize, numDatalinesPerSubpath_eq hline hsize, ← Nat.mul_assoc]
  exact (Nat.mul_le_mul_right _ (Nat.mul_div_le _ _)).trans (Nat.div_mul_le_self _ _)

theorem fits_of_window (hline : 8 ≤ d.lineSize) (hpos : 0 < d.numSubpaths)
    (hlines : d.numSubpaths ≤ d.buffer.getSize / d.lineSize)
    (hwindow : d.bufferOffset + d.buffer.getSize < unsignedRange) : d.Fits where
  subpaths_pos := hpos
  lines_pos := by
    rw [numDatalinesPerSubpath_eq hline (by omega)]
    exact Nat.div_pos hlines hpos
  eight_le := hline
  window := by
    have hle := mul_chunkSize_le (d := d) hline (by omega)
    unfold chunkSize at hle
    omega

theorem Fits.chunkStart_eq (hfit : d.Fits) {k : Nat} (hk : k ≤ d.numSubpaths) :
    d.chunkStart k = d.bufferOffset + k * d.chunkSize := by
  have hle : k * d.chunkSize ≤ d.numSubpaths * d.chunkSize := Nat.mul_le_mul_right _ hk
  have hwin := hfit.window
  unfold chunkStart
  rw [Nat.mul_assoc]
  exact asUnsigned_of_lt (by unfold chunkSize at hle; omega)

theorem Fits.chunkStart_succ (hfit : d.Fits) {k : Nat} (hk : k < d.numSubpaths) :
    d.chunkStart (k + 1) = d.chunkStart k + d.chunkSize := by
  rw [hfit.chunkStart_eq hk, hfit.chunkStart_eq hk.le, Nat.succ_mul, Nat.add_assoc]

theorem Fits.chunkStart_le (hfit : d.Fits) {j k : Nat} (hjk : j < k) (hk : k ≤ d.numSubpaths) :
    d.chunkStart j + d.chunkSize ≤ d.chunkStart k := by
  rw [← hfit.chunkStart_succ (by omega), hfit.chunkStart_eq (by omega), hfit.chunkStart_eq hk]
  exact Nat.add_le_add_left (Nat.mul_le_mul_right _ hjk) _

theorem Fits.chunkStart_add_lt (hfit : d.Fits) {k : Nat} (hk : k < d.numSubpaths) :
    d.chunkStart k + d.chunkSize < unsignedRange := by
  have hle := Nat.mul_le_mul_right d.chunkSize (Nat.succ_le_of_lt hk)
  have hwin := hfit.window
  rw [← hfit.chunkStart_succ hk, hfit.chunkStart_eq hk]
  unfold chunkSize at hle ⊢
  omega

/-! ## One round -/

theorem ChunkLinked.congr {m m' : Memory} {k : Nat} {xs : List Nat} (h : d.ChunkLinked m k xs)
    (heq : ∀ b < d.chunkStart k + d.chunkSize, m'.byte b = m.byte b) : d.ChunkLinked m' k xs where
  head := h.head
  leads := h.leads.congr fun a ha => Memory.load_congr_of_lt (h.inside a ha).2 heq
  apart := h.apart
  inside := h.inside

/-- Linking a built chunk finishes it. -/
theorem ChunkBuilt.link {k last : Nat} {before : Memory} {st : PathState}
    {xs : List Nat}
    (h : ChunkBuilt (d.chunkStart k) (d.chunkStart k + d.chunkSize) before st.mem xs last) :
    d.ChunkLinked (d.linkSubpath k last st).mem k (xs ++ [last]) where
  head := h.head
  leads := by
    have hlt : d.chunkStart ((k + 1) % d.numSubpaths) < wordRange := asUnsigned_lt _
    have hapart := List.pairwise_append.mp h.apart
    refine h.leads.extend (fun b hb => ?_) (Memory.load_store_of_lt _ _ hlt)
    exact Memory.load_store_of_apart _ _ (hapart.2.2 b hb last (by simp)).symm
  apart := h.apart
  inside := h.inside

theorem ChunkBuilt.below_link {k last lo hi : Nat} {before : Memory} {st : PathState}
    {xs : List Nat} (h : ChunkBuilt lo hi before st.mem xs last) {b : Nat} (hb : b < lo) :
    (d.linkSubpath k last st).mem.byte b = before.byte b := by
  have hlast := (h.inside last (by simp)).1
  rw [← h.below b hb]
  exact Memory.byte_store_of_lt _ _ (by omega)

/-! ## All rounds -/

/-- Every completed build of a chunk `k` meets the contract, given `I k` of the memory it starts
from: the finished chunk has the property `P k`, and `I (k + 1)` holds once it is linked. -/
def MeetsContract (d : SubpathDistribution) (rand : Randomness) (I : Nat → Memory → Prop)
    (P : Nat → List Nat → Prop) : Prop :=
  ∀ k < d.numSubpaths, ∀ st last st', I k st.mem → d.buildSubpath rand st k = .ok (last, st') →
    ∃ xs, ChunkBuilt (d.chunkStart k) (d.chunkStart k + d.chunkSize) st.mem st'.mem xs last ∧
      st'.entries = st.entries + (xs.length + 1) ∧ P k (xs ++ [last]) ∧
        I (k + 1) (d.linkSubpath k last st').mem

/-- After `k` rounds the first `k` chunks are finished. -/
def LinkedUpTo (d : SubpathDistribution) (I : Nat → Memory → Prop) (P : Nat → List Nat → Prop)
    (k : Nat) (st : PathState) : Prop :=
  ∃ chunks : List (List Nat), chunks.length = k ∧
    (∀ j (hj : j < chunks.length), d.ChunkLinked st.mem j chunks[j] ∧ P j chunks[j]) ∧
      st.entries = chunks.flatten.length ∧ I k st.mem

variable {rand : Randomness} {I : Nat → Memory → Prop} {P : Nat → List Nat → Prop}

theorem linkedUpTo_step (hfit : d.Fits) (hmeets : d.MeetsContract rand I P) {k : Nat}
    (hk : k < d.numSubpaths) {st st' : PathState} (h : d.LinkedUpTo I P k st)
    (hrun : d.distributeSubpath rand st k = .ok st') : d.LinkedUpTo I P (k + 1) st' := by
  obtain ⟨chunks, rfl, hchunks, hentries, hI⟩ := h
  obtain ⟨⟨last, built⟩, hbuild, hlink⟩ := bind_eq_ok.mp hrun
  obtain rfl : d.linkSubpath chunks.length last built = st' := Except.ok.inj hlink
  obtain ⟨xs, hxs, hcount, hP, hI'⟩ := hmeets _ hk st last built hI hbuild
  refine ⟨chunks ++ [xs ++ [last]], by simp, fun j hj => ?_, ?_, hI'⟩
  · by_cases hjk : j < chunks.length
    · obtain ⟨hlinked, hPj⟩ := hchunks j hjk
      rw [List.getElem_append_left hjk]
      refine ⟨hlinked.congr fun b hb => hxs.below_link ?_, hPj⟩
      exact lt_of_lt_of_le hb (hfit.chunkStart_le hjk hk.le)
    · obtain rfl : j = chunks.length := by simp at hj; omega
      rw [List.getElem_append_right le_rfl]
      simp only [Nat.sub_self, List.getElem_cons_zero]
      exact ⟨hxs.link, hP⟩
  · simp only [linkSubpath, hcount, hentries, List.flatten_append, List.length_append,
      List.flatten_cons, List.flatten_nil, List.length_cons, List.length_nil]

/-- The finished chunks are a layout, and the memory links it as one ring. -/
theorem exists_layout (hfit : d.Fits) {st : PathState} {chunks : List (List Nat)}
    (hlen : chunks.length = d.numSubpaths)
    (hchunks : ∀ j (hj : j < chunks.length), d.ChunkLinked st.mem j chunks[j])
    (hentries : st.entries = chunks.flatten.length) :
    ∃ L : SubpathLayout, L.chunks = chunks ∧ d.Builds st L := by
  have hmem : ∀ c ∈ chunks, ∃ j, j < d.numSubpaths ∧ d.ChunkLinked st.mem j c := by
    intro c hc
    obtain ⟨j, hj, rfl⟩ := List.mem_iff_getElem.mp hc
    exact ⟨j, hlen ▸ hj, hchunks j hj⟩
  let L : SubpathLayout := {
    chunks := chunks
    chunks_ne_nil := by
      intro hnil
      have := hfit.subpaths_pos
      simp [hnil] at hlen
      omega
    chunk_ne_nil := by
      rintro c hc rfl
      obtain ⟨j, -, hlinked⟩ := hmem _ hc
      simpa using hlinked.head
    apart := by
      intro c hc
      obtain ⟨j, -, hlinked⟩ := hmem c hc
      exact hlinked.apart
    ordered := by
      rw [List.pairwise_iff_getElem]
      intro i j hi hj hij a ha b hb
      have hia := (hchunks i hi).inside a ha
      have hjb := (hchunks j hj).inside b hb
      have hle := hfit.chunkStart_le hij (hlen ▸ hj.le)
      omega
    addressable := by
      intro a ha
      obtain ⟨c, hc, hac⟩ := List.mem_flatten.mp ha
      obtain ⟨j, hj, hlinked⟩ := hmem c hc
      exact (hlinked.inside a hac).2.trans (hfit.chunkStart_add_lt hj).le }
  have hchunk : ∀ k < d.numSubpaths, d.ChunkLinked st.mem k (L.chunk k) := by
    intro k hk
    have hk' : k < L.chunks.length := hlen ▸ hk
    rw [SubpathLayout.chunk_eq_getElem hk']
    exact hchunks k hk'
  have hstart : ∀ k < d.numSubpaths, L.start k = d.chunkStart k := by
    intro k hk
    have hk' : k < chunks.length := hlen ▸ hk
    have hhead := SubpathLayout.head?_chunk (show k < L.numSubpaths from hk')
    rw [(hchunk k hk).head] at hhead
    exact (Option.some.inj hhead).symm
  refine ⟨L, rfl, hlen, fun k hk => ?_, hstart, fun k hk => (hchunk k hk).inside, hentries⟩
  have hnext : L.nextSubpath k = (k + 1) % d.numSubpaths := by
    rw [SubpathLayout.nextSubpath, show L.numSubpaths = d.numSubpaths from hlen]
  rw [hnext, hstart _ (Nat.mod_lt _ hfit.subpaths_pos)]
  exact (hchunk k (hlen ▸ hk)).leads

theorem doDistribute_of_slabs (hlarge : d.buffer.isLargeBuffer = true)
    (hslabs : d.buffer.getSlabs ≠ []) (rand : Randomness) (m : Memory) :
    d.doDistribute rand m =
      .error (.exited "ERROR: doHugeDistribution() not implemtned\n" (-1)) := by
  simp [doDistribute, hlarge, hslabs]

/-- `doDistribute` completes exactly when its checks pass and no builder stops. -/
theorem doDistribute_ok {m : Memory} {st : PathState} :
    d.doDistribute rand m = .ok st ↔
      ¬(d.buffer.isLargeBuffer = true ∧ d.buffer.getSlabs ≠ []) ∧
        (d.lineSize ≠ 0 ∧ d.numSubpaths ≠ 0) ∧ d.numDatalines % d.numSubpaths = 0 ∧
          (List.range d.numSubpaths).foldlM (d.distributeSubpath rand)
            { mem := m, sequence := [], entries := 0 } = .ok st := by
  unfold doDistribute
  by_cases hlarge : d.buffer.isLargeBuffer = true ∧ d.buffer.getSlabs ≠ []
  · simp [hlarge]
  by_cases hzero : d.lineSize = 0 ∨ d.numSubpaths = 0
  · have hzero' : ¬(d.lineSize ≠ 0 ∧ d.numSubpaths ≠ 0) := by tauto
    simp only [hzero, hzero', if_true, throw_eq_error, error_bind, false_and, and_false, iff_false]
    split <;> simp
  · have hzero' : d.lineSize ≠ 0 ∧ d.numSubpaths ≠ 0 := by tauto
    have hcheck : ¬((d.buffer.isLargeBuffer && !d.buffer.getSlabs.isEmpty) = true) := by
      simpa using hlarge
    simp only [hcheck, hlarge, hzero', not_false_eq_true, true_and, ne_eq, and_self]
    rw [if_neg (by simp), if_neg (by simp)]
    simp only [bind_eq_ok, assertThat_ok, beq_iff_eq, exists_const]

/-- A completed `doDistribute` leaves a layout, as one ring, whose chunks have the properties the
builder guarantees. -/
theorem doDistribute_builds (hfit : d.Fits) (hmeets : d.MeetsContract rand I P) {m : Memory}
    {st : PathState} (hI : I 0 m) (hrun : d.doDistribute rand m = .ok st) :
    ∃ L : SubpathLayout, d.Builds st L ∧ (∀ k < d.numSubpaths, P k (L.chunk k)) ∧
      I d.numSubpaths st.mem := by
  obtain ⟨-, -, -, hloop⟩ := doDistribute_ok.mp hrun
  obtain ⟨chunks, hlen, hchunks, hentries, hI'⟩ := foldlM_range_invariant (d.LinkedUpTo I P)
    (fun k hk s s' hs hs' => linkedUpTo_step hfit hmeets hk hs hs')
    ⟨[], rfl, by simp, rfl, hI⟩ hloop
  obtain ⟨L, rfl, hL⟩ := exists_layout hfit hlen (fun j hj => (hchunks j hj).1) hentries
  refine ⟨L, hL, fun k hk => ?_, hI'⟩
  have hk' : k < L.chunks.length := hlen ▸ hk
  rw [SubpathLayout.chunk_eq_getElem hk']
  exact (hchunks k hk').2

/-- When the two checks at the top pass and no builder stops, `doDistribute` completes. -/
theorem doDistribute_total (hfit : d.Fits) (hmeets : d.MeetsContract rand I P)
    (htotal : ∀ k < d.numSubpaths, ∀ st, I k st.mem → ∃ r, d.buildSubpath rand st k = .ok r)
    {m : Memory} (hslabs : ¬(d.buffer.isLargeBuffer = true ∧ d.buffer.getSlabs ≠ []))
    (hdvd : d.numDatalines % d.numSubpaths = 0) (hI : I 0 m) :
    ∃ st, d.doDistribute rand m = .ok st := by
  obtain ⟨st, hloop, -⟩ := foldlM_range_total (d.LinkedUpTo I P)
    (f := d.distributeSubpath rand) (n := d.numSubpaths) (fun k hk s hs => by
      obtain ⟨⟨last, built⟩, hbuild⟩ := htotal k hk s hs.choose_spec.2.2.2
      have hround : d.distributeSubpath rand s k = .ok (d.linkSubpath k last built) := by
        rw [distributeSubpath, hbuild, ok_bind]
        rfl
      exact ⟨_, hround, linkedUpTo_step hfit hmeets hk hs hround⟩)
    (s := { mem := m, sequence := [], entries := 0 }) ⟨[], rfl, by simp, rfl, hI⟩
  have height := hfit.eight_le
  exact ⟨st, doDistribute_ok.mpr ⟨hslabs, ⟨by omega, hfit.subpaths_pos.ne'⟩, hdvd, hloop⟩⟩

end SubpathDistribution

end Cachetest
