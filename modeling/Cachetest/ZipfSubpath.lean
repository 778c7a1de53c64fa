import Cachetest.Contiguity
import Cachetest.Distribute
import Cachetest.LinkedWords

/-!
# Zipf mode

`zipfSubpath` keeps drawing data lines and takes the first empty word of each, until a drawn line
has none left. Zero marks an empty word, so the argument has to exclude that a taken word holds
zero: every link but the one written last points to a word above the first word of its chunk, and
the tail of the path, which has no link yet, is marked with a one.

`Placed` is the invariant of the loop. It holds for any previous contents of the buffer; on a
zero-filled chunk it says that the taken words of a line come before its empty ones.
-/

namespace Cachetest

open ByteMemory Circuit

namespace SubpathDistribution

variable {d : SubpathDistribution} {rand : Randomness}

/-! ## Slots -/

/-- The address of word `s` of line `l` of chunk `k`. -/
def slot (d : SubpathDistribution) (k l s : Nat) : Nat :=
  d.chunkStart k + l * d.lineSize + s * elementSize

/-- The line drawn by call `i` of `zipf` in chunk `k`. -/
def drawnLine (d : SubpathDistribution) (rand : Randomness) (k i : Nat) : Option Nat :=
  rankedLine (rankToDatalineMap rand k d.numDatalinesPerSubpath) (rand.zipf k i)

/-- The words `l` of a chunk and `s` of a line that exist. -/
def IsSlot (d : SubpathDistribution) (l s : Nat) : Prop :=
  l < d.numDatalinesPerSubpath ∧ s < d.numEntriesPerDataline

theorem slot_zero (k : Nat) : d.slot k 0 0 = d.chunkStart k := by
  simp [slot]

theorem mul_numEntriesPerDataline_le : d.numEntriesPerDataline * 4 ≤ d.lineSize :=
  Nat.div_mul_le_self _ _

theorem IsSlot.fits_line {l s : Nat} (h : d.IsSlot l s) : (s + 1) * 4 ≤ d.lineSize :=
  (Nat.le_div_iff_mul_le (by decide)).mp h.2

theorem IsSlot.bounds {l s : Nat} (h : d.IsSlot l s) (k : Nat) :
    d.chunkStart k ≤ d.slot k l s ∧ d.slot k l s + 4 ≤ d.chunkStart k + d.chunkSize :=
  ⟨le_lineWord _ _ _ _, lineWord_le _ h.fits_line h.1⟩

theorem slot_apart {k l l' s s' : Nat} (h : d.IsSlot l s) (h' : d.IsSlot l' s')
    (hne : d.slot k l s ≠ d.slot k l' s') : Apart (d.slot k l s) (d.slot k l' s') :=
  lineWord_apart h.fits_line h'.fits_line hne

theorem slot_inj {k l l' s s' : Nat} (h : d.IsSlot l s) (h' : d.IsSlot l' s')
    (heq : d.slot k l s = d.slot k l' s') : l = l' ∧ s = s' :=
  lineWord_inj h.fits_line h'.fits_line heq

theorem Fits.slotIndex_eq (hfit : d.Fits) {k l s : Nat} (hk : k < d.numSubpaths)
    (h : d.IsSlot l s) : d.slotIndex (l + k * d.numDatalinesPerSubpath) s = d.slot k l s := by
  have hlt := hfit.chunkStart_add_lt hk
  have hbounds := h.bounds k
  have haddr : d.bufferOffset + (l + k * d.numDatalinesPerSubpath) * d.lineSize + s * elementSize =
      d.slot k l s := by
    rw [slot, hfit.chunkStart_eq hk.le, chunkSize, Nat.add_mul, Nat.mul_assoc]
    omega
  rw [slotIndex, haddr, asUnsigned_of_lt (by omega)]

/-! ## The search for an empty word -/

theorem findEmpty_some {m : Memory} {line remaining offset element : Nat}
    (h : d.findEmpty m line remaining offset = some element) :
    ∃ s, s < offset + remaining ∧ element = d.slotIndex line s ∧ m.load (d.slotIndex line s) = 0 ∧
      ∀ s', offset ≤ s' → s' < s → m.load (d.slotIndex line s') ≠ 0 := by
  induction remaining generalizing offset with
  | zero => simp [findEmpty] at h
  | succ remaining ih =>
    rw [findEmpty] at h
    split at h
    case isTrue htaken =>
      obtain ⟨s, hs, helement, hempty, hbefore⟩ := ih h
      refine ⟨s, by omega, helement, hempty, fun s' hle hlt => ?_⟩
      rcases Nat.eq_or_lt_of_le hle with rfl | hlt'
      · exact htaken
      · exact hbefore s' hlt' hlt
    case isFalse hempty =>
      exact ⟨offset, by omega, (Option.some.inj h).symm, not_not.mp hempty, fun s' _ _ => by omega⟩

theorem findEmpty_none {m : Memory} {line remaining offset : Nat}
    (h : d.findEmpty m line remaining offset = none) {s : Nat} (hle : offset ≤ s)
    (hlt : s < offset + remaining) : m.load (d.slotIndex line s) ≠ 0 := by
  induction remaining generalizing offset with
  | zero => omega
  | succ remaining ih =>
    rw [findEmpty] at h
    split at h
    case isTrue htaken =>
      rcases Nat.eq_or_lt_of_le hle with rfl | hlt'
      · exact htaken
      · exact ih h hlt' (by omega)
    case isFalse => simp at h

/-! ## The loop -/

/-- Chunk `k` is being built, over a buffer that held `m` from the chunk on: the path runs through
`xs` and has arrived at its tail `prev`. -/
structure Placed (d : SubpathDistribution) (rand : Randomness) (m before : Memory)
    (entries k : Nat) (xs : List Nat) (prev : Nat) (st : PathState) : Prop where
  head : (xs ++ [prev]).head? = some (d.slot k 0 0)
  leads : Leads st.mem.load xs prev
  nodup : (xs ++ [prev]).Nodup
  slots : ∀ a ∈ xs ++ [prev], ∃ l s, d.IsSlot l s ∧ a = d.slot k l s
  taken : ∀ a ∈ xs, st.mem.load a ≠ 0
  untouched : ∀ b, d.chunkStart k ≤ b → (∀ a ∈ xs ++ [prev], b < a ∨ a + 4 ≤ b) →
    st.mem.byte b = m.byte b
  below : ∀ b < d.chunkStart k, st.mem.byte b = before.byte b
  firstFit : ∀ l s, d.IsSlot l s → d.slot k l s ∈ xs ++ [prev] → ∀ s' < s,
    d.slot k l s' ∈ xs ++ [prev] ∨ m.load (d.slot k l s') ≠ 0
  drawn : ∀ j a, (xs ++ [prev])[j + 1]? = some a →
    ∃ l s, d.drawnLine rand k (j + 1) = some l ∧ d.IsSlot l s ∧ a = d.slot k l s
  entries : st.entries = entries + (xs.length + 1)

variable {m before : Memory} {entries k prev : Nat} {xs : List Nat} {st : PathState}

theorem Placed.apart (h : d.Placed rand m before entries k xs prev st) :
    (xs ++ [prev]).Pairwise Apart :=
  pairwise_apart_of_lineWord h.nodup fun a ha => by
    obtain ⟨l, s, hslot, rfl⟩ := h.slots a ha
    exact ⟨l, s, hslot.fits_line, rfl⟩

theorem Placed.words (h : d.Placed rand m before entries k xs prev st) :
    LinkedWords st.mem st.mem xs prev :=
  ⟨h.apart, h.leads, fun _ _ => rfl⟩

theorem Placed.bounds (h : d.Placed rand m before entries k xs prev st) {a : Nat}
    (ha : a ∈ xs ++ [prev]) :
    d.chunkStart k ≤ a ∧ a + 4 ≤ d.chunkStart k + d.chunkSize := by
  obtain ⟨l, s, hslot, rfl⟩ := h.slots a ha
  exact hslot.bounds k

theorem Placed.load_slot (h : d.Placed rand m before entries k xs prev st) {l s : Nat}
    (hslot : d.IsSlot l s) (hnew : d.slot k l s ∉ xs ++ [prev]) :
    st.mem.load (d.slot k l s) = m.load (d.slot k l s) := by
  refine Memory.load_eq_of_outside h.untouched (hslot.bounds k).1 fun a ha => ?_
  obtain ⟨l', s', hslot', rfl⟩ := h.slots a ha
  exact slot_apart hslot hslot' fun heq => hnew (heq ▸ ha)

theorem Placed.store_tail (h : d.Placed rand m before entries k xs prev st) (v : Nat) :
    d.Placed rand m before entries k xs prev { st with mem := st.mem.store prev v } := by
  have hwords := h.words.store_tail v
  refine ⟨h.head, hwords.leads, h.nodup, h.slots, fun a ha => ?_, fun b hb hout => ?_,
    fun b hb => ?_, h.firstFit, h.drawn, h.entries⟩
  · rw [h.words.load_store_tail v ha]
    exact h.taken a ha
  · exact (hwords.untouched b hout).trans (h.untouched b hb hout)
  · have hout : ∀ a ∈ xs ++ [prev], b < a ∨ a + 4 ≤ b := fun a ha =>
      Or.inl (hb.trans_le (h.bounds ha).1)
    exact (hwords.untouched b hout).trans (h.below b hb)

theorem Placed.slot_not_mem (h : d.Placed rand m before entries k xs prev st) {l s : Nat}
    (hempty : (st.mem.store prev 1).load (d.slot k l s) = 0) : d.slot k l s ∉ xs ++ [prev] := by
  intro hin
  rcases List.mem_append.mp hin with hxs | hprev
  · exact (h.store_tail 1).taken _ hxs hempty
  · rw [List.mem_singleton.mp hprev, Memory.load_store_of_lt _ _ (by decide)] at hempty
    omega

/-- One round: the first empty word of the drawn line becomes the new tail. -/
theorem Placed.extend (hfit : d.Fits) (hk : k < d.numSubpaths)
    (h : d.Placed rand m before entries k xs prev st) {l s : Nat} (hslot : d.IsSlot l s)
    (hdraw : d.drawnLine rand k (xs.length + 1) = some l)
    (hempty : (st.mem.store prev 1).load (d.slot k l s) = 0)
    (hfirst : ∀ s' < s, (st.mem.store prev 1).load (d.slot k l s') ≠ 0) (sequence : List Nat) :
    d.Placed rand m before entries k (xs ++ [prev]) (d.slot k l s)
      { mem := (st.mem.store prev 1).store prev (d.slot k l s)
        sequence := sequence
        entries := st.entries + 1 } := by
  have hmarked := h.store_tail 1
  have hnew := h.slot_not_mem hempty
  have hstart : d.slot k 0 0 ∈ xs ++ [prev] := List.mem_of_head? h.head
  have hpos : d.slot k l s ≠ 0 := by
    have hne : d.slot k l s ≠ d.slot k 0 0 := fun heq => hnew (heq ▸ hstart)
    have hle := (hslot.bounds k).1
    rw [slot_zero] at hne
    omega
  have hlt : d.slot k l s < wordRange := by
    have hbound := hfit.chunkStart_add_lt hk
    have hle := (hslot.bounds k).2
    simp only [unsignedRange] at hbound
    simp only [wordRange]
    omega
  have hlinked := hmarked.store_tail (d.slot k l s)
  have hlink : ((st.mem.store prev 1).store prev (d.slot k l s)).load prev = d.slot k l s :=
    Memory.load_store_of_lt _ _ hlt
  constructor
  case head => rw [List.head?_append_of_ne_nil _ (by simp), h.head]
  case leads => exact (leads_concat _ _ _).mpr ⟨hlinked.leads, hlink⟩
  case nodup => exact List.nodup_append.mpr ⟨h.nodup, by simp, by rintro a ha b hb rfl; simp_all⟩
  case slots =>
    intro a ha
    rcases List.mem_append.mp ha with hold | hlast
    · exact h.slots a hold
    · exact ⟨l, s, hslot, List.mem_singleton.mp hlast⟩
  case taken =>
    intro a ha
    rcases List.mem_append.mp ha with hold | hlast
    · exact hlinked.taken a hold
    · rw [List.mem_singleton.mp hlast, hlink]
      exact hpos
  case untouched => exact fun b hb hout =>
    hlinked.untouched b hb fun a ha => hout a (List.mem_append_left _ ha)
  case below => exact hlinked.below
  case firstFit =>
    intro l' s' hslot' hin s'' hlt'
    rcases List.mem_append.mp hin with hold | hlast
    · exact (h.firstFit l' s' hslot' hold s'' hlt').imp_left (List.mem_append_left _)
    · obtain ⟨rfl, rfl⟩ := slot_inj hslot' hslot (List.mem_singleton.mp hlast)
      by_cases hold : d.slot k l' s'' ∈ xs ++ [prev]
      · exact Or.inl (List.mem_append_left _ hold)
      · have hslot'' : d.IsSlot l' s'' := ⟨hslot.1, by have := hslot.2; omega⟩
        rw [← hmarked.load_slot hslot'' hold]
        exact Or.inr (hfirst s'' hlt')
  case drawn =>
    intro j a ha
    by_cases hj : j + 1 < (xs ++ [prev]).length
    · rw [List.getElem?_append_left hj] at ha
      exact h.drawn j a ha
    · have hjlen : j + 1 < (xs ++ [prev] ++ [d.slot k l s]).length :=
        (List.getElem?_eq_some_iff.mp ha).1
      obtain rfl : j = xs.length := by
        simp only [List.length_append, List.length_cons, List.length_nil] at hj hjlen
        omega
      rw [List.getElem?_append_right (by simp)] at ha
      simp only [List.length_append, List.length_cons, List.length_nil, Nat.sub_self,
        List.getElem?_cons_zero, Option.some.injEq] at ha
      exact ⟨l, s, hdraw, hslot, ha.symm⟩
  case entries =>
    simp only [h.entries, List.length_append, List.length_cons, List.length_nil]
    omega

/-- The loop has ended: the line it drew last has no empty word, or all rounds are used up. -/
def Ended (d : SubpathDistribution) (rand : Randomness) (m : Memory) (k : Nat) (xs : List Nat) :
    Prop :=
  (∃ l, d.drawnLine rand k xs.length = some l ∧ l < d.numDatalinesPerSubpath ∧
    ∀ s < d.numEntriesPerDataline, d.slot k l s ∈ xs ∨ m.load (d.slot k l s) ≠ 0) ∨
  d.numElements ≤ xs.length

/-- The loop, from any of its rounds on, by induction on the number of rounds left. -/
theorem zipfLoop_placed (hfit : d.Fits) (hk : k < d.numSubpaths) {rounds last : Nat}
    {st' : PathState} (h : d.Placed rand m before entries k xs prev st)
    (hrounds : d.numElements ≤ rounds + (xs.length + 1))
    (hrun : d.zipfLoop rand k (k * d.numDatalinesPerSubpath) d.numDatalinesPerSubpath
      (rankToDatalineMap rand k d.numDatalinesPerSubpath) rounds (xs.length + 1) (prev, st) =
        .ok (last, st')) :
    ∃ ys, d.Placed rand m before entries k ys last st' ∧ d.Ended rand m k (ys ++ [last]) := by
  induction rounds generalizing xs prev st with
  | zero =>
    obtain ⟨rfl, rfl⟩ := Prod.mk.inj (Except.ok.inj hrun)
    exact ⟨xs, h, Or.inr (by simpa using hrounds)⟩
  | succ rounds ih =>
    simp only [zipfLoop] at hrun
    split at hrun
    case h_1 => simp at hrun
    case h_2 l hdraw =>
      obtain ⟨_, hl, hrest⟩ := bind_eq_ok.mp hrun
      rw [assertThat_ok, decide_eq_true_eq] at hl
      have hindex : ∀ s < d.numEntriesPerDataline,
          d.slotIndex (l + k * d.numDatalinesPerSubpath) s = d.slot k l s :=
        fun s hs => hfit.slotIndex_eq hk ⟨hl, hs⟩
      split at hrest
      case h_1 hfull =>
        obtain ⟨rfl, rfl⟩ := Prod.mk.inj (Except.ok.inj hrest)
        have hmarked := h.store_tail 1
        have hdraw' : d.drawnLine rand k (xs ++ [prev]).length = some l := by
          rw [List.length_append]
          exact hdraw
        refine ⟨xs, hmarked, Or.inl ⟨l, hdraw', hl, fun s hs => ?_⟩⟩
        by_cases hin : d.slot k l s ∈ xs ++ [prev]
        · exact Or.inl hin
        · rw [← hmarked.load_slot ⟨hl, hs⟩ hin, ← hindex s hs]
          exact Or.inr (findEmpty_none hfull (Nat.zero_le s) (by omega))
      case h_2 element hfound =>
        obtain ⟨s, hs, rfl, hempty, hfirst⟩ := findEmpty_some hfound
        rw [Nat.zero_add] at hs
        rw [hindex s hs] at hempty hrest
        have hfirst' : ∀ s' < s, (st.mem.store prev 1).load (d.slot k l s') ≠ 0 := by
          intro s' hs'
          rw [← hindex s' (by omega)]
          exact hfirst s' (Nat.zero_le _) hs'
        have hextended := h.extend hfit hk ⟨hl, hs⟩ hdraw hempty hfirst'
          (st.sequence ++ [asUnsigned (l + k * d.numDatalinesPerSubpath)])
        exact ih hextended (by simp; omega) (by simpa using hrest)

/-- When every rank is in range, the loop completes. -/
theorem zipfLoop_total {lines : Nat} (hrank : ∀ i, 1 ≤ rand.zipf k i ∧ rand.zipf k i ≤ lines)
    (offsetDatalines rounds i : Nat) (s : Nat × PathState) :
    ∃ r, d.zipfLoop rand k offsetDatalines lines (rankToDatalineMap rand k lines) rounds i s =
      .ok r := by
  induction rounds generalizing i s with
  | zero => exact ⟨s, rfl⟩
  | succ rounds ih =>
    obtain ⟨previdx, st⟩ := s
    obtain ⟨r, hr⟩ : ∃ r, rand.zipf k i = r + 1 :=
      ⟨rand.zipf k i - 1, by have := (hrank i).1; omega⟩
    have hlt : r < lines := by have := (hrank i).2; omega
    have hdraw : rankedLine (rankToDatalineMap rand k lines) (rand.zipf k i) =
        some (rand.shuffle k lines ⟨r, hlt⟩ : Nat) := by
      rw [hr, rankedLine, rankToDatalineMap, List.getElem?_ofFn, dif_pos hlt]
    simp only [zipfLoop, hdraw, Fin.is_lt, decide_true, assertThat_true, ok_bind]
    split
    case h_1 => exact ⟨_, rfl⟩
    case h_2 => exact ih _ _

/-! ## The whole function -/

theorem zipfSubpath_eq (k offsetDatalines lines : Nat) (st : PathState) :
    d.zipfSubpath rand k offsetDatalines lines st =
      d.zipfLoop rand k offsetDatalines lines (rankToDatalineMap rand k lines) (d.numElements - 1) 1
        (asUnsigned (d.bufferOffset + offsetDatalines * d.lineSize),
          { st with entries := st.entries + 1 }) := by
  have hlt := (rand.randInt k).isLt
  have hseed : (1 ≤ ((rand.randInt k : Nat) : Int) + 1 &&
      ((rand.randInt k : Nat) : Int) + 1 ≤ intMax) = true := by
    simp only [Bool.and_eq_true, decide_eq_true_eq]
    omega
  have hinit : initZipf (((rand.randInt k : Nat) : Int) + 1) = 0 := if_neg (by omega)
  simp only [zipfSubpath, hseed, assertThat_true, hinit, ne_eq, not_true_eq_false, if_false,
    ok_bind]

/-- What the builder guarantees of a finished chunk `k` over a buffer that held `m`. -/
structure ZipfChunk (d : SubpathDistribution) (rand : Randomness) (m : Memory) (k : Nat)
    (xs : List Nat) : Prop where
  slots : ∀ a ∈ xs, ∃ l s, d.IsSlot l s ∧ a = d.slot k l s
  firstFit : ∀ l s, d.IsSlot l s → d.slot k l s ∈ xs → ∀ s' < s,
    d.slot k l s' ∈ xs ∨ m.load (d.slot k l s') ≠ 0
  drawn : ∀ j a, xs[j + 1]? = some a →
    ∃ l s, d.drawnLine rand k (j + 1) = some l ∧ d.IsSlot l s ∧ a = d.slot k l s
  ended : d.Ended rand m k xs

theorem numEntriesPerDataline_pos (hfit : d.Fits) : 0 < d.numEntriesPerDataline := by
  have hline := hfit.eight_le
  simp only [numEntriesPerDataline, elementSize]
  omega

theorem placed_start (hfit : d.Fits) {st : PathState}
    (huntouched : ∀ b, d.chunkStart k ≤ b → st.mem.byte b = m.byte b) :
    d.Placed rand m st.mem st.entries k [] (d.chunkStart k)
      { st with entries := st.entries + 1 } where
  head := by simp [slot_zero]
  leads := leads_nil _
  nodup := by simp
  slots a ha := ⟨0, 0, ⟨hfit.lines_pos, numEntriesPerDataline_pos hfit⟩, by
    rw [slot_zero]
    simpa using ha⟩
  taken a ha := absurd ha List.not_mem_nil
  untouched b hb _ := huntouched b hb
  below _ _ := rfl
  firstFit l s hslot hin s' hs' := by
    have hzero : d.IsSlot 0 0 := ⟨hfit.lines_pos, numEntriesPerDataline_pos hfit⟩
    have heq : d.slot k l s = d.slot k 0 0 := by
      rw [slot_zero]
      simpa using hin
    have := (slot_inj hslot hzero heq).2
    omega
  drawn j a ha := by simp at ha
  entries := rfl

/-- In Zipf mode chunk `k` becomes a `ZipfChunk`, and the chunks to come are left alone. -/
theorem zipf_meetsContract (hfit : d.Fits) (halpha : ¬d.zipfAlpha ≤ 0) (m : Memory) :
    d.MeetsContract rand (fun k mem => ∀ b, d.chunkStart k ≤ b → mem.byte b = m.byte b)
      (d.ZipfChunk rand m) := by
  intro k hk st last st' huntouched hrun
  have hstart : asUnsigned (d.bufferOffset + k * d.numDatalinesPerSubpath * d.lineSize) =
      d.chunkStart k := rfl
  simp only [buildSubpath, halpha, if_false] at hrun
  rw [zipfSubpath_eq, hstart] at hrun
  obtain ⟨xs, hplaced, hended⟩ := zipfLoop_placed hfit hk (placed_start hfit huntouched)
    (by simp only [List.length_nil]; omega) hrun
  have hlast := hplaced.bounds (a := last) (by simp)
  refine ⟨xs, ⟨?_, hplaced.leads, hplaced.apart, fun a ha => hplaced.bounds ha, hplaced.below⟩,
    hplaced.entries, ⟨hplaced.slots, hplaced.firstFit, hplaced.drawn, hended⟩, fun b hb => ?_⟩
  · rw [hplaced.head, slot_zero]
  · rw [hfit.chunkStart_succ hk] at hb
    rw [← hplaced.untouched b (by omega) fun a ha => Or.inr (by have := hplaced.bounds ha; omega)]
    exact Memory.byte_store_of_ge _ _ (by omega)

/-! ## The path of Zipf mode -/

theorem zipf_total (hfit : d.Fits) (halpha : ¬d.zipfAlpha ≤ 0)
    (hslabs : ¬(d.buffer.isLargeBuffer = true ∧ d.buffer.getSlabs ≠ []))
    (hdvd : d.numDatalines % d.numSubpaths = 0)
    (hrank : ∀ k < d.numSubpaths, ∀ i, 1 ≤ rand.zipf k i ∧
      rand.zipf k i ≤ d.numDatalinesPerSubpath) (m : Memory) :
    ∃ st, d.doDistribute rand m = .ok st := by
  refine doDistribute_total hfit (zipf_meetsContract hfit halpha m) (fun k hk st _ => ?_) hslabs
    hdvd (fun _ _ => rfl)
  simp only [buildSubpath, halpha, if_false, zipfSubpath_eq]
  exact zipfLoop_total (hrank k hk) _ _ _ _

theorem zipf_builds (hfit : d.Fits) (halpha : ¬d.zipfAlpha ≤ 0) {m : Memory} {st : PathState}
    (hrun : d.doDistribute rand m = .ok st) :
    ∃ L : SubpathLayout, d.Builds st L ∧ ∀ k < d.numSubpaths, d.ZipfChunk rand m k (L.chunk k) := by
  obtain ⟨L, hL, hchunks, -⟩ :=
    doDistribute_builds hfit (zipf_meetsContract hfit halpha m) (fun _ _ => rfl) hrun
  exact ⟨L, hL, hchunks⟩

/-- A path of distinct slots that is as long as the chunk has slots takes all of them. -/
theorem slot_mem_of_length_le {xs : List Nat} (hnodup : xs.Nodup)
    (hslots : ∀ a ∈ xs, ∃ l s, d.IsSlot l s ∧ a = d.slot k l s)
    (hlength : d.numDatalinesPerSubpath * d.numEntriesPerDataline ≤ xs.length) {l s : Nat}
    (hslot : d.IsSlot l s) : d.slot k l s ∈ xs := by
  set all := (List.range d.numDatalinesPerSubpath).flatMap fun l =>
    (List.range d.numEntriesPerDataline).map fun s => d.slot k l s with hall
  have hmem : ∀ {l s}, d.IsSlot l s → d.slot k l s ∈ all := fun h =>
    List.mem_flatMap.mpr ⟨_, List.mem_range.mpr h.1,
      List.mem_map.mpr ⟨_, List.mem_range.mpr h.2, rfl⟩⟩
  have hsub : xs.Subperm all := List.subperm_of_subset hnodup fun a ha => by
    obtain ⟨l, s, h, rfl⟩ := hslots a ha
    exact hmem h
  have hcount : all.length = d.numDatalinesPerSubpath * d.numEntriesPerDataline := by
    simp [hall, List.length_flatMap]
  exact (hsub.perm_of_length_le (hcount ▸ hlength)).mem_iff.mpr (hmem hslot)

theorem slots_le_numElements (hfit : d.Fits)
    (hwindow : d.bufferOffset + d.buffer.getSize < unsignedRange)
    (helements : d.numElements = asUnsigned (d.buffer.getSize / elementSize)) :
    d.numDatalinesPerSubpath * d.numEntriesPerDataline ≤ d.numElements := by
  have hchunks := mul_chunkSize_le (d := d) hfit.eight_le (by omega)
  have hone : d.chunkSize ≤ d.numSubpaths * d.chunkSize :=
    Nat.le_mul_of_pos_left _ hfit.subpaths_pos
  have hline := Nat.mul_le_mul_left d.numDatalinesPerSubpath (mul_numEntriesPerDataline_le (d := d))
  rw [helements, elementSize, asUnsigned_of_lt (by omega), Nat.le_div_iff_mul_le (by omega),
    Nat.mul_assoc]
  unfold chunkSize at hchunks hone
  omega

theorem load_slot_eq_zero (hfit : d.Fits) (hsize : d.buffer.getSize < unsignedRange) {m : Memory}
    (hzero : ∀ a, d.bufferOffset ≤ a → a < d.bufferOffset + d.buffer.getSize → m.byte a = 0)
    {k l s : Nat} (hk : k < d.numSubpaths) (hslot : d.IsSlot l s) : m.load (d.slot k l s) = 0 := by
  have hbounds := hslot.bounds k
  have hchunk := hfit.chunkStart_eq hk.le
  have hchunks := mul_chunkSize_le hfit.eight_le hsize
  have hnext := Nat.mul_le_mul_right d.chunkSize (Nat.succ_le_of_lt hk)
  rw [Nat.succ_mul] at hnext
  exact Memory.load_eq_zero fun t ht => hzero _ (by omega) (by omega)

theorem ZipfChunk.mem_of_lt (hfit : d.Fits) (hsize : d.buffer.getSize < unsignedRange) {m : Memory}
    (hzero : ∀ a, d.bufferOffset ≤ a → a < d.bufferOffset + d.buffer.getSize → m.byte a = 0)
    {k : Nat} (hk : k < d.numSubpaths) {xs : List Nat} (h : d.ZipfChunk rand m k xs)
    {l s s' : Nat} (hslot : d.IsSlot l s) (hin : d.slot k l s ∈ xs) (hlt : s' < s) :
    d.slot k l s' ∈ xs :=
  (h.firstFit l s hslot hin s' hlt).resolve_right fun hne =>
    hne (load_slot_eq_zero hfit hsize hzero hk ⟨hslot.1, hlt.trans hslot.2⟩)

/-- Over a zero-filled window a finished chunk ends at a draw of a full line, or is full itself. -/
theorem ZipfChunk.full (hfit : d.Fits)
    (hwindow : d.bufferOffset + d.buffer.getSize < unsignedRange)
    (helements : d.numElements = asUnsigned (d.buffer.getSize / elementSize)) {m : Memory}
    (hzero : ∀ a, d.bufferOffset ≤ a → a < d.bufferOffset + d.buffer.getSize → m.byte a = 0)
    {k : Nat} (hk : k < d.numSubpaths) {xs : List Nat} (hnodup : xs.Nodup)
    (h : d.ZipfChunk rand m k xs) :
    (∃ l, d.drawnLine rand k xs.length = some l ∧ l < d.numDatalinesPerSubpath ∧
      ∀ s < d.numEntriesPerDataline, d.slot k l s ∈ xs) ∨
    ∀ l s, d.IsSlot l s → d.slot k l s ∈ xs := by
  rcases h.ended with ⟨l, hdraw, hl, hfull⟩ | hlength
  · refine Or.inl ⟨l, hdraw, hl, fun s hs => (hfull s hs).resolve_right fun hne => hne ?_⟩
    exact load_slot_eq_zero hfit (by omega) hzero hk ⟨hl, hs⟩
  · exact Or.inr fun l s hslot => slot_mem_of_length_le hnodup h.slots
      ((slots_le_numElements hfit hwindow helements).trans hlength) hslot

theorem ZipfChunk.exists_full_line (hfit : d.Fits)
    (hwindow : d.bufferOffset + d.buffer.getSize < unsignedRange)
    (helements : d.numElements = asUnsigned (d.buffer.getSize / elementSize)) {m : Memory}
    (hzero : ∀ a, d.bufferOffset ≤ a → a < d.bufferOffset + d.buffer.getSize → m.byte a = 0)
    {k : Nat} (hk : k < d.numSubpaths) {xs : List Nat} (hnodup : xs.Nodup)
    (h : d.ZipfChunk rand m k xs) :
    ∃ l < d.numDatalinesPerSubpath, ∀ s < d.numEntriesPerDataline, d.slot k l s ∈ xs := by
  rcases h.full hfit hwindow helements hzero hk hnodup with ⟨l, -, hl, hfull⟩ | hfull
  · exact ⟨l, hl, hfull⟩
  · exact ⟨0, hfit.lines_pos, fun s hs => hfull 0 s ⟨hfit.lines_pos, hs⟩⟩

theorem lineSize_eq {line : Nat} (h : d.cacheline.toInt = line) : d.lineSize = line :=
  asSizeT_of_toInt h

/-- On a zero-filled window `doDistribute` in Zipf mode completes and leaves one cycle. Its stretch
through chunk `k` starts at the first slot of the chunk, takes slots of the chunk only and of every
line the first ones; element `j + 1` lies in the line of draw `j + 1`. The stretch ends at a draw of
a full line, or with the last slot of the chunk. -/
theorem zipf_single_cycle {b : Buffer} {cacheline : Int32} {n offset line : Nat} {zipfAlpha : ℚ}
    (hcache : cacheline.toInt = line) (hline : 8 ≤ line) (hn : 1 ≤ n)
    (hlines : 0 < b.getSize / line) (hdvd : n ∣ b.getSize / line)
    (hstart : b.getStartAddress = b.getBufferPointer + offset)
    (hwindow : offset + b.getSize < unsignedRange) (halpha : 0 < zipfAlpha)
    (hslabs : ¬(b.isLargeBuffer = true ∧ b.getSlabs ≠ [])) {rand : Randomness}
    (hrank : ∀ k < n, ∀ i, 1 ≤ rand.zipf k i ∧ rand.zipf k i ≤ b.getSize / line / n) {m : Memory}
    (hzero : ∀ a, offset ≤ a → a < offset + b.getSize → m.byte a = 0) :
    let lines := b.getSize / line / n
    let slots := line / 4
    let slot := fun k l s => offset + (k * lines + l) * line + s * 4
    let drawn := fun k i => rankedLine (rankToDatalineMap rand k lines) (rand.zipf k i)
    ∃ (st : PathState) (L : SubpathLayout),
      (create b cacheline n zipfAlpha).doDistribute rand m = .ok st ∧
      IsCircuit st.mem.load offset L.elements ∧
      L.elements.length = st.entries ∧
      L.numSubpaths = n ∧
      ∀ k < n,
        L.start k = slot k 0 0 ∧
        (∀ a ∈ L.chunk k, ∃ l < lines, ∃ s < slots, a = slot k l s) ∧
        (∀ l < lines, ∀ s < slots, slot k l s ∈ L.chunk k → ∀ s' < s, slot k l s' ∈ L.chunk k) ∧
        (∀ j a, (L.chunk k)[j + 1]? = some a →
          ∃ l, drawn k (j + 1) = some l ∧ ∃ s < slots, a = slot k l s) ∧
        ((∃ l, drawn k (L.chunk k).length = some l ∧ ∀ s < slots, slot k l s ∈ L.chunk k) ∨
          ∀ l < lines, ∀ s < slots, slot k l s ∈ L.chunk k) := by
  intro lines slots slot drawn
  have hsize : b.getSize < unsignedRange := by omega
  have hlineSize : (create b cacheline n zipfAlpha).lineSize = line := lineSize_eq hcache
  have hoffset : (create b cacheline n zipfAlpha).bufferOffset = offset :=
    bufferOffset_eq hstart (by omega)
  have hnum : (create b cacheline n zipfAlpha).numDatalines = b.getSize / line := by
    rw [numDatalines_eq (hlineSize ▸ hline) hsize, hlineSize]
    rfl
  have hper : (create b cacheline n zipfAlpha).numDatalinesPerSubpath = lines := by
    rw [numDatalinesPerSubpath_eq (hlineSize ▸ hline) hsize, hlineSize]
    rfl
  have hfit : (create b cacheline n zipfAlpha).Fits :=
    fits_of_window (hlineSize ▸ hline) hn (hlineSize ▸ Nat.le_of_dvd hlines hdvd)
      (hoffset ▸ hwindow)
  have hslots : (create b cacheline n zipfAlpha).numEntriesPerDataline = slots := by
    rw [numEntriesPerDataline, hlineSize]
  have hslot : ∀ k < n, ∀ l s, (create b cacheline n zipfAlpha).slot k l s = slot k l s := by
    intro k hk l s
    rw [SubpathDistribution.slot, hfit.chunkStart_eq hk.le, chunkSize, hper, hlineSize, hoffset]
    simp only [slot, elementSize, Nat.add_mul, Nat.mul_assoc, Nat.add_assoc]
  have hdrawn : ∀ k i, (create b cacheline n zipfAlpha).drawnLine rand k i = drawn k i := by
    intro k i
    rw [drawnLine, hper]
  obtain ⟨st, hrun⟩ := zipf_total hfit (not_le.mpr halpha) hslabs
    (hnum ▸ Nat.mod_eq_zero_of_dvd hdvd) (fun k hk => by rw [hper]; exact hrank k hk) m
  obtain ⟨L, hL, hchunks⟩ := zipf_builds hfit (not_le.mpr halpha) hrun
  have hcircuit := hL.unsplit.isCircuit
  rw [hL.start 0 hn, ← slot_zero, hslot 0 hn] at hcircuit
  simp only [slot, Nat.zero_mul, Nat.add_zero] at hcircuit
  refine ⟨st, L, hrun, hcircuit, hL.entries.symm, hL.numSubpaths, fun k hk => ⟨?_, ?_, ?_, ?_, ?_⟩⟩
  · rw [hL.start k hk, ← slot_zero, hslot k hk]
  · intro a ha
    obtain ⟨l, s, hls, rfl⟩ := (hchunks k hk).slots a ha
    exact ⟨l, hper ▸ hls.1, s, hslots ▸ hls.2, hslot k hk l s⟩
  · intro l hl s hs hin s' hs'
    rw [← hslot k hk] at hin ⊢
    exact (hchunks k hk).mem_of_lt hfit hsize (hoffset ▸ hzero) hk ⟨hper ▸ hl, hslots ▸ hs⟩ hin hs'
  · intro j a ha
    obtain ⟨l, s, hdraw, hls, rfl⟩ := (hchunks k hk).drawn j a ha
    exact ⟨l, hdrawn k (j + 1) ▸ hdraw, s, hslots ▸ hls.2, hslot k hk l s⟩
  · have hnodup : (L.chunk k).Nodup := SubpathLayout.nodup_chunk (hL.numSubpaths ▸ hk)
    rcases (hchunks k hk).full hfit (hoffset ▸ hwindow) rfl (hoffset ▸ hzero) hk hnodup with
      ⟨l, hdraw, -, hfull⟩ | hfull
    · refine Or.inl ⟨l, hdrawn k _ ▸ hdraw, fun s hs => ?_⟩
      rw [← hslot k hk]
      exact hfull s (hslots ▸ hs)
    · refine Or.inr fun l hl s hs => ?_
      rw [← hslot k hk]
      exact hfull l s ⟨hper ▸ hl, hslots ▸ hs⟩

/-- Two chunks of two lines of 16 bytes, with the same line drawn all the time. -/
theorem zipf_single_cycle_two_chunks :
    ∃ (st : PathState) (L : SubpathLayout),
      (create (Buffer.hugePool 64) 16 2 1).doDistribute Randomness.identity zeros = .ok st ∧
      IsCircuit st.mem.load 0 L.elements ∧
      L.elements.length = st.entries ∧
      L.numSubpaths = 2 ∧
      ∀ k < 2, L.start k = 0 + (k * 2 + 0) * 16 + 0 * 4 := by
  obtain ⟨st, L, hrun, hcircuit, hentries, hnum, hchunks⟩ :=
    @zipf_single_cycle (Buffer.hugePool 64) 16 2 0 16 1 rfl (by decide) (by decide) (by decide)
      (by decide) rfl (by decide) (by decide) (by decide) Randomness.identity
      (fun _ _ _ => (by decide : 1 ≤ 1 ∧ 1 ≤ 2)) zeros (fun _ _ _ => rfl)
  exact ⟨st, L, hrun, hcircuit, hentries, hnum, fun k hk => (hchunks k hk).1⟩

/-- With `-a -h -Z 1 1` the buffer has a slab, and no path is built either. -/
theorem zipf_slabs_exits :
    ∃ (b : Buffer) (m : Memory),
      setupBuffer Host.identity
          { Options.default with cont := true, huge := true, dataset := 1024 } zeros = .ok (b, m) ∧
        b.getSize / 64 = 16 ∧ b.getStartAddress = b.getBufferPointer + 0 ∧
        0 + b.getSize < unsignedRange ∧
        ∀ (rand : Randomness) (m' : Memory), (create b 64 1 1).doDistribute rand m' =
          .error (.exited "ERROR: doHugeDistribution() not implemtned\n" (-1)) := by
  obtain ⟨b, m, hbuffer, hsize, hstart, hlarge, hslabs⟩ := Buffer.setupBuffer_identity zeros
  refine ⟨b, m, hbuffer, by rw [hsize], hstart, by rw [hsize]; decide, fun rand m' => ?_⟩
  have hne : b.getSlabs ≠ [] := by
    rw [hslabs]
    exact List.cons_ne_nil _ _
  exact doDistribute_of_slabs hlarge hne rand m'

end SubpathDistribution

end Cachetest
