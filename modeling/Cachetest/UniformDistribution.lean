import Cachetest.Circuit
import Cachetest.Distribution
import Cachetest.FirstFit
import Cachetest.LinkedWords

/-!
# The uniform distribution

`UniformDistribution::doDistribute` of `Distribution.cc`: it keeps drawing lines of the buffer and
makes the first empty word of the drawn line the next element of the path, until a drawn line has
none left. A word is empty when it holds zero, and the tail of the path, which has no link yet, is
marked with a one. The last word of a line is never looked at.

What the routine is for is filling bins by first fit, where the elements of the path are the places
taken: `Represents` says that memory, sequence and counter are those of the places taken so far, and
`distributeLoop_represents` that the loop and `fill` stay in step.
-/

namespace Cachetest

open ByteMemory Circuit FirstFit

/-- The members of `Distribution` that the builders read. -/
structure Distribution where
  buffer : Buffer
  cacheline : Int32
  numElements : Nat

namespace Distribution

/-- `setup`. Every caller passes `sizeof(element_size_t)` as the element size, and the seed only
appears through the random numbers. -/
def setup (buffer : Buffer) (cacheline : Int32) : Distribution where
  buffer := buffer
  cacheline := cacheline
  numElements := asUnsigned (buffer.getSize / elementSize)

/-- `cacheline`, converted for arithmetic with a `size_t`. -/
def lineSize (d : Distribution) : Nat := asSizeT d.cacheline

/-- `buffer->Get_start_address() - buffer->Get_buffer_pointer()`. -/
def startOffset (d : Distribution) : Nat := d.buffer.getStartAddress - d.buffer.getBufferPointer

/-- `num_line_elements`, an `int`, as the comparison with `offset` sees it. -/
def numLineElements (d : Distribution) : Nat := asSizeT (asInt (d.lineSize / elementSize))

end Distribution

/-- The loop looking for the first empty word of a line, from word `offset` on, with `remaining`
words left to look at; `none` when they are all taken (`done`). `element` gives the index of a
word. -/
def findEmpty (m : Memory) (element : Nat → Nat) : Nat → Nat → Option Nat
  | 0, _ => none
  | remaining + 1, offset =>
    if m.load (element offset) ≠ 0 then findEmpty m element remaining (offset + 1)
    else some (element offset)

namespace UniformDistribution

/-! ## One stretch of memory -/

/-- `bufferlines`, an `int`, as `%` with an `unsigned long` sees it. -/
def bufferlines (d : Distribution) : Nat := asSizeT (asInt (d.buffer.getSize / d.lineSize))

/-- `idx`, the line of draw `i`. -/
def drawnLine (d : Distribution) (randInt : Nat → UInt32) (i : Nat) : Nat :=
  asSizeT (asInt ((randInt i).toNat % bufferlines d))

/-- `element`, an `int`, as a distance from the buffer pointer. -/
def elementIndex (d : Distribution) (idx offset : Nat) : Nat :=
  asSizeT (asInt (idx * d.lineSize + offset * elementSize + d.startOffset))

/-- The `for` loop of `doDistribute` with the number of rounds left and the loop counter `i`, which
is also the number of the next draw. -/
def distributeLoop (d : Distribution) (randInt : Nat → UInt32) :
    Nat → Nat → Nat × PathState → Nat × PathState
  | 0, _, s => s
  | rounds + 1, i, (previdx, st) =>
    -- Mark the tail as taken, in case its line is drawn again.
    let mem := st.mem.store previdx 1
    let idx := drawnLine d randInt i
    -- `configureExperiment` rules out lines of a single word, which the search would run past.
    match findEmpty mem (elementIndex d idx) (d.numLineElements - 1) 0 with
    | none => (previdx, { st with mem := mem })
    | some element =>
      distributeLoop d randInt rounds (i + 1) (element, {
        mem := mem.store previdx element
        sequence := st.sequence ++ [asUnsigned idx]
        entries := st.entries + 1 })

/-! ## Across huge pages -/

/-- `bufferlines` of `doHugeDistribution`, an `unsigned int`. -/
def hugeBufferlines (d : Distribution) : Nat := asUnsigned (d.buffer.getSize / d.lineSize)

/-- `num_lines_on_page`. -/
def numLinesOnPage (d : Distribution) : Nat := (2097152 / d.cacheline).toUInt32.toNat

/-- `element` of `doHugeDistribution`, an `int`, as a distance from the buffer pointer. -/
def hugeElementIndex (d : Distribution) (virtPageStart pageIDX offset : Nat) : Nat :=
  asSizeT (asInt (virtPageStart + (sizeRange - d.buffer.getBufferPointer) +
    asUnsigned (pageIDX * d.lineSize) + offset * elementSize))

/-- The `for` loop of `doHugeDistribution`. -/
def hugeLoop (d : Distribution) (randInt : Nat → UInt32) :
    Nat → Nat → Nat × PathState → Outcome (Nat × PathState)
  | 0, _, s => .ok s
  | rounds + 1, i, (previdx, st) =>
    let mem := st.mem.store previdx 1
    let idx := asUnsigned ((randInt i).toNat % hugeBufferlines d)
    let sequence := st.sequence ++ [idx]
    let page := idx / numLinesOnPage d
    let pageIDX := idx - page * numLinesOnPage d
    match d.buffer.getSlabs[page]? with
    | none => .error (.undefined "Get_slabs() is read out of bounds")
    | some virtPageStart =>
      match findEmpty mem (hugeElementIndex d virtPageStart pageIDX) (d.numLineElements - 1) 0 with
      | none => .ok (previdx, { st with mem := mem, sequence := sequence })
      | some element =>
        hugeLoop d randInt rounds (i + 1) (element, {
          mem := mem.store previdx element
          sequence := sequence
          entries := st.entries + 1 })

/-- `doHugeDistribution`. -/
def doHugeDistribution (d : Distribution) (randInt : Nat → UInt32) (m : Memory) :
    Outcome PathState := do
  assertThat (0 < d.buffer.getSlabs.length) "(buffer->Get_slabs()).size() > 0"
  if (hugeBufferlines d = 0 ∨ numLinesOnPage d = 0) ∧ 1 < d.numElements then
    throw (.undefined "division by zero")
  let (previdx, st) ← hugeLoop d randInt (d.numElements - 1) 1
    (d.startOffset, { mem := m, sequence := [], entries := 1 })
  return { st with mem := st.mem.store previdx d.startOffset }

/-! ## The whole function -/

/-- `doDistribute`. -/
def doDistribute (d : Distribution) (randInt : Nat → UInt32) (m : Memory) :
    Outcome PathState := do
  if d.lineSize = 0 then throw (.undefined "division by zero")
  if d.buffer.isLargeBuffer && !d.buffer.getSlabs.isEmpty then
    doHugeDistribution d randInt m
  else
    if bufferlines d = 0 ∧ 1 < d.numElements then throw (.undefined "division by zero")
    let (previdx, st) := distributeLoop d randInt (d.numElements - 1) 1
      (asSizeT (asInt d.startOffset), { mem := m, sequence := [], entries := 1 })
    -- Connect the end to the start.
    return { st with mem := st.mem.store previdx d.startOffset }

/-! ## Slots -/

/-- The buffer has a line, and `int` can hold every index of the window. -/
structure Fits (d : Distribution) : Prop where
  eight_le : 8 ≤ d.lineSize
  line_le : d.lineSize ≤ d.buffer.getSize
  window : d.startOffset + d.buffer.getSize < 2147483648

/-- The address of word `s` of line `l` of the window. -/
def slot (d : Distribution) (l s : Nat) : Nat := lineWord d.startOffset d.lineSize l s

/-- The lines `l` of the window and the words `s` of a line that exist. -/
def IsSlot (d : Distribution) (l s : Nat) : Prop :=
  l < d.buffer.getSize / d.lineSize ∧ s < d.lineSize / elementSize

variable {d : Distribution} {randInt : Nat → UInt32}

theorem startOffset_setup {b : Buffer} {offset : Nat} (cacheline : Int32)
    (hstart : b.getStartAddress = b.getBufferPointer + offset) :
    (Distribution.setup b cacheline).startOffset = offset := by
  rw [Distribution.startOffset, Distribution.setup, hstart, Nat.add_sub_cancel_left]

theorem slot_zero (d : Distribution) : slot d 0 0 = d.startOffset := by
  simp [slot, lineWord]

theorem IsSlot.fits_line {l s : Nat} (h : IsSlot d l s) : (s + 1) * 4 ≤ d.lineSize :=
  (Nat.le_div_iff_mul_le (by decide)).mp h.2

theorem IsSlot.bounds {l s : Nat} (h : IsSlot d l s) :
    d.startOffset ≤ slot d l s ∧ slot d l s + 4 ≤ d.startOffset + d.buffer.getSize := by
  have hle := lineWord_le d.startOffset h.fits_line h.1
  have hdiv := Nat.div_mul_le_self d.buffer.getSize d.lineSize
  exact ⟨le_lineWord _ _ _ _, by unfold slot; omega⟩

theorem IsSlot.load_eq_zero {m : Memory}
    (hzero : ∀ a, d.startOffset ≤ a → a < d.startOffset + d.buffer.getSize → m.byte a = 0)
    {l s : Nat} (h : IsSlot d l s) : m.load (slot d l s) = 0 := by
  have hbounds := h.bounds
  exact Memory.load_eq_zero fun t ht => hzero _ (by omega) (by omega)

theorem slot_apart {l l' s s' : Nat} (h : IsSlot d l s) (h' : IsSlot d l' s')
    (hne : slot d l s ≠ slot d l' s') : Apart (slot d l s) (slot d l' s') :=
  lineWord_apart h.fits_line h'.fits_line hne

theorem Fits.lines_pos (hfit : Fits d) : 0 < d.buffer.getSize / d.lineSize :=
  Nat.div_pos hfit.line_le (by have := hfit.eight_le; omega)

theorem Fits.isSlot_zero (hfit : Fits d) : IsSlot d 0 0 :=
  ⟨hfit.lines_pos, Nat.div_pos (le_trans (by decide) hfit.eight_le) (by decide)⟩

theorem Fits.bufferlines_eq (hfit : Fits d) :
    bufferlines d = d.buffer.getSize / d.lineSize := by
  have hle := Nat.div_le_self d.buffer.getSize d.lineSize
  have hwindow := hfit.window
  exact asSizeT_asInt (by omega)

theorem Fits.numLineElements_eq (hfit : Fits d) :
    d.numLineElements = d.lineSize / elementSize := by
  have hle := Nat.div_le_self d.lineSize elementSize
  have hline := hfit.line_le
  have hwindow := hfit.window
  exact asSizeT_asInt (by omega)

theorem Fits.drawnLine_eq (hfit : Fits d) (randInt : Nat → UInt32) (i : Nat) :
    drawnLine d randInt i = (randInt i).toNat % (d.buffer.getSize / d.lineSize) := by
  have hlt := Nat.mod_lt (randInt i).toNat hfit.lines_pos
  have hle := Nat.div_le_self d.buffer.getSize d.lineSize
  have hwindow := hfit.window
  rw [drawnLine, hfit.bufferlines_eq]
  exact asSizeT_asInt (by omega)

theorem Fits.drawnLine_lt (hfit : Fits d) (randInt : Nat → UInt32) (i : Nat) :
    drawnLine d randInt i < d.buffer.getSize / d.lineSize := by
  rw [hfit.drawnLine_eq]
  exact Nat.mod_lt _ hfit.lines_pos

/-- The source computes the index of a slot without overflow. -/
theorem Fits.elementIndex_eq (hfit : Fits d) {l s : Nat} (h : IsSlot d l s) :
    elementIndex d l s = slot d l s := by
  have hbounds := h.bounds
  have hwindow := hfit.window
  have haddr : l * d.lineSize + s * elementSize + d.startOffset = slot d l s := by
    simp only [slot, lineWord, elementSize]
    omega
  rw [elementIndex, haddr]
  exact asSizeT_asInt (by omega)

/-! ## The search for an empty word -/

theorem findEmpty_eq_find? (m : Memory) (element : Nat → Nat) (remaining offset : Nat) :
    findEmpty m element remaining offset =
      ((List.range' offset remaining).map element).find? fun a => m.load a = 0 := by
  induction remaining generalizing offset with
  | zero => rfl
  | succ remaining ih =>
    rw [findEmpty, List.range'_succ, List.map_cons, List.find?_cons]
    by_cases hempty : m.load (element offset) = 0
    · simp [hempty]
    · simp [hempty, ih]

/-- The words of the drawn line that are looked at: all but the last one. -/
def bin (d : Distribution) (randInt : Nat → UInt32) (i : Nat) : List Nat :=
  (List.range (d.lineSize / elementSize - 1)).map fun s => slot d (drawnLine d randInt i) s

theorem mem_bin {i a : Nat} (ha : a ∈ bin d randInt i) :
    ∃ s < d.lineSize / elementSize, a = slot d (drawnLine d randInt i) s := by
  obtain ⟨s, hs, rfl⟩ := List.mem_map.mp ha
  have hs' := List.mem_range.mp hs
  exact ⟨s, by omega, rfl⟩

theorem Fits.isSlot_of_mem_bin (hfit : Fits d) {i a : Nat} (ha : a ∈ bin d randInt i) :
    ∃ l s, IsSlot d l s ∧ a = slot d l s := by
  obtain ⟨s, hs, rfl⟩ := mem_bin ha
  exact ⟨_, s, ⟨hfit.drawnLine_lt _ _, hs⟩, rfl⟩

theorem Fits.findEmpty_eq (hfit : Fits d) (m : Memory) (i : Nat) :
    findEmpty m (elementIndex d (drawnLine d randInt i)) (d.numLineElements - 1) 0 =
      (bin d randInt i).find? fun a => m.load a = 0 := by
  rw [findEmpty_eq_find?, hfit.numLineElements_eq, ← List.range_eq_range', bin]
  congr 1
  apply List.map_congr_left
  intro s hs
  have hs' := List.mem_range.mp hs
  exact hfit.elementIndex_eq ⟨hfit.drawnLine_lt _ _, by omega⟩

/-! ## The loop -/

/-- The places taken so far are different slots, the first of them the start. -/
structure IsPath (d : Distribution) (taken : List Nat) : Prop where
  head : taken.head? = some d.startOffset
  nodup : taken.Nodup
  slots : ∀ a ∈ taken, ∃ l s, IsSlot d l s ∧ a = slot d l s

/-- The state `s` of the loop, over a buffer that held `m`, when the path runs through `xs` and has
arrived at its tail. -/
structure Represents (d : Distribution) (randInt : Nat → UInt32) (m : Memory) (xs : List Nat)
    (s : Nat × PathState) : Prop where
  leads : Leads s.2.mem.load xs s.1
  linked : ∀ a ∈ xs, s.2.mem.load a ≠ 0
  untouched : ∀ b, (∀ a ∈ xs ++ [s.1], b < a ∨ a + 4 ≤ b) → s.2.mem.byte b = m.byte b
  sequence : s.2.sequence =
    (List.range xs.length).map fun j => asUnsigned (drawnLine d randInt (j + 1))
  entries : s.2.entries = xs.length + 1

theorem IsPath.concat {taken : List Nat} {l s : Nat} (h : IsPath d taken) (hslot : IsSlot d l s)
    (hnew : slot d l s ∉ taken) : IsPath d (taken ++ [slot d l s]) where
  head := by
    obtain ⟨xs, rfl⟩ := List.head?_eq_some_iff.mp h.head
    rfl
  nodup := by
    rw [← List.concat_eq_append]
    exact h.nodup.concat hnew
  slots a ha := by
    rcases List.mem_append.mp ha with hold | hlast
    · exact h.slots a hold
    · exact ⟨l, s, hslot, List.mem_singleton.mp hlast⟩

theorem IsPath.apart {taken : List Nat} (h : IsPath d taken) : taken.Pairwise Apart :=
  pairwise_apart_of_lineWord h.nodup fun a ha => by
    obtain ⟨l, s, hslot, rfl⟩ := h.slots a ha
    exact ⟨l, s, hslot.fits_line, rfl⟩

theorem IsPath.apart_of_not_mem {taken : List Nat} {l s : Nat} (h : IsPath d taken)
    (hslot : IsSlot d l s) (hnew : slot d l s ∉ taken) :
    ∀ a ∈ taken, Apart (slot d l s) a := by
  intro a ha
  obtain ⟨l', s', hslot', rfl⟩ := h.slots a ha
  exact slot_apart hslot hslot' fun heq => hnew (heq ▸ ha)

theorem IsPath.ne_zero_of_not_mem {taken : List Nat} {l s : Nat} (h : IsPath d taken)
    (hslot : IsSlot d l s) (hnew : slot d l s ∉ taken) : slot d l s ≠ 0 := by
  have hne : slot d l s ≠ d.startOffset := fun heq => hnew (heq ▸ List.mem_of_mem_head? h.head)
  have hle := hslot.bounds.1
  omega

theorem Fits.slot_lt_wordRange (hfit : Fits d) {l s : Nat} (hslot : IsSlot d l s) :
    slot d l s < wordRange := by
  have hbounds := hslot.bounds
  have hwindow := hfit.window
  simp only [wordRange]
  omega

variable {m : Memory} {xs : List Nat} {prev : Nat} {st : PathState}

/-- The path is a linked list of words. -/
theorem Represents.words (hpath : IsPath d (xs ++ [prev]))
    (h : Represents d randInt m xs (prev, st)) : LinkedWords m st.mem xs prev :=
  ⟨hpath.apart, h.leads, h.untouched⟩

theorem Represents.store_tail (hpath : IsPath d (xs ++ [prev]))
    (h : Represents d randInt m xs (prev, st)) (v : Nat) :
    Represents d randInt m xs (prev, { st with mem := st.mem.store prev v }) := by
  have hwords := (h.words hpath).store_tail v
  refine ⟨hwords.leads, fun a ha => ?_, hwords.untouched, h.sequence, h.entries⟩
  rw [(h.words hpath).load_store_tail v ha]
  exact h.linked a ha

/-- Once the tail is marked, a slot is empty if and only if the path has not taken it. -/
theorem Represents.load_eq_zero_iff (hpath : IsPath d (xs ++ [prev]))
    (h : Represents d randInt m xs (prev, st))
    (hzero : ∀ l s, IsSlot d l s → m.load (slot d l s) = 0) {l s : Nat} (hslot : IsSlot d l s) :
    (st.mem.store prev 1).load (slot d l s) = 0 ↔ slot d l s ∉ xs ++ [prev] := by
  have hmarked := h.store_tail hpath 1
  constructor
  · intro hempty hin
    rcases List.mem_append.mp hin with hxs | hprev
    · exact hmarked.linked _ hxs hempty
    · rw [List.mem_singleton.mp hprev, Memory.load_store_of_lt _ _ (by decide)] at hempty
      exact one_ne_zero hempty
  · intro hnew
    rw [← hzero l s hslot]
    exact (hmarked.words hpath).load_eq (hpath.apart_of_not_mem hslot hnew)

/-- One round: the tail is linked to the slot taken, which is the new tail. -/
theorem Represents.concat (hfit : Fits d) (hpath : IsPath d (xs ++ [prev]))
    (h : Represents d randInt m xs (prev, st)) {l s : Nat} (hslot : IsSlot d l s)
    (hnew : slot d l s ∉ xs ++ [prev]) :
    Represents d randInt m (xs ++ [prev]) (slot d l s, {
      mem := (st.mem.store prev 1).store prev (slot d l s)
      sequence := st.sequence ++ [asUnsigned (drawnLine d randInt (xs.length + 1))]
      entries := st.entries + 1 }) := by
  have hmarked := h.store_tail hpath 1
  have hlt := hfit.slot_lt_wordRange hslot
  have hwords := (hmarked.words hpath).extend hlt fun a ha =>
    (hpath.apart_of_not_mem hslot hnew a ha).symm
  constructor
  case leads => exact hwords.leads
  case linked =>
    intro a ha
    rcases List.mem_append.mp ha with hold | hlast
    · exact (hmarked.store_tail hpath _).linked a hold
    · rw [List.mem_singleton.mp hlast, Memory.load_store_of_lt _ _ hlt]
      exact hpath.ne_zero_of_not_mem hslot hnew
  case untouched => exact hwords.untouched
  case sequence =>
    rw [h.sequence, List.length_append, List.length_singleton, List.range_succ, List.map_append]
    rfl
  case entries => rw [h.entries, List.length_append, List.length_singleton]

/-- The loop and `fill` stay in step, by induction on the number of rounds left. -/
theorem distributeLoop_represents (hfit : Fits d)
    (hzero : ∀ l s, IsSlot d l s → m.load (slot d l s) = 0) {s : Nat × PathState} (rounds : Nat)
    (hpath : IsPath d (xs ++ [s.1])) (h : Represents d randInt m xs s) :
    ∃ ys last st', distributeLoop d randInt rounds (xs.length + 1) s = (last, st') ∧
      fill (bin d randInt) rounds (xs.length + 1) (xs ++ [s.1]) = ys ++ [last] ∧
        IsPath d (ys ++ [last]) ∧ Represents d randInt m ys (last, st') := by
  induction rounds generalizing xs s with
  | zero => exact ⟨xs, s.1, s.2, rfl, rfl, hpath, h⟩
  | succ rounds ih =>
    obtain ⟨prev, st⟩ := s
    have hsearch : findEmpty (st.mem.store prev 1)
        (elementIndex d (drawnLine d randInt (xs.length + 1))) (d.numLineElements - 1) 0 =
          firstFree (bin d randInt (xs.length + 1)) (xs ++ [prev]) := by
      rw [hfit.findEmpty_eq]
      refine find?_eq_firstFree fun a ha => ?_
      obtain ⟨l, s, hslot, rfl⟩ := hfit.isSlot_of_mem_bin ha
      rw [decide_eq_true_iff]
      exact h.load_eq_zero_iff hpath hzero hslot
    rw [distributeLoop, fill, hsearch]
    cases hfree : firstFree (bin d randInt (xs.length + 1)) (xs ++ [prev]) with
    | none => exact ⟨xs, prev, _, rfl, rfl, hpath, h.store_tail hpath 1⟩
    | some element =>
      obtain ⟨l, s, hslot, rfl⟩ := hfit.isSlot_of_mem_bin (mem_of_firstFree hfree)
      have hnew := not_mem_of_firstFree hfree
      have hstep := ih (hpath.concat hslot hnew) (h.concat hfit hpath hslot hnew)
      rwa [List.length_append, List.length_singleton] at hstep

/-! ## The path -/

theorem Fits.represents_start (hfit : Fits d) (randInt : Nat → UInt32) (m : Memory) :
    IsPath d ([] ++ [d.startOffset]) ∧ Represents d randInt m []
      (d.startOffset, { mem := m, sequence := [], entries := 1 }) := by
  refine ⟨⟨rfl, List.nodup_singleton _, fun a ha => ?_⟩,
    ⟨leads_nil _, by simp, fun _ _ => rfl, rfl, rfl⟩⟩
  exact ⟨0, 0, hfit.isSlot_zero, by rw [slot_zero, List.mem_singleton.mp ha]⟩

/-- The elements of the path are the places that `fill` takes. -/
def elements (d : Distribution) (randInt : Nat → UInt32) : List Nat :=
  fill (bin d randInt) (d.numElements - 1) 1 [d.startOffset]

/-- Away from the huge pages `doDistribute` completes, and leaves the elements as one cycle. -/
theorem Fits.doDistribute_eq (hfit : Fits d) (randInt : Nat → UInt32)
    (hslabs : ¬(d.buffer.isLargeBuffer = true ∧ d.buffer.getSlabs ≠ []))
    (hzero : ∀ l s, IsSlot d l s → m.load (slot d l s) = 0) :
    ∃ st, doDistribute d randInt m = .ok st ∧
      IsPath d (elements d randInt) ∧
      IsCircuit st.mem.load d.startOffset (elements d randInt) ∧
      st.entries = (elements d randInt).length ∧
      st.sequence = (List.range ((elements d randInt).length - 1)).map
        fun j => drawnLine d randInt (j + 1) := by
  have hwindow := hfit.window
  have hlines := hfit.bufferlines_eq
  have hpos := hfit.lines_pos
  have hline := hfit.eight_le
  obtain ⟨hstart, hempty⟩ := hfit.represents_start randInt m
  obtain ⟨xs, last, st, hloop, hfill, hpath, hst⟩ :=
    distributeLoop_represents hfit hzero (d.numElements - 1) hstart hempty
  have helements : elements d randInt = xs ++ [last] := hfill
  have hlt : d.startOffset < wordRange := slot_zero d ▸ hfit.slot_lt_wordRange hfit.isSlot_zero
  have hcheck : ¬((d.buffer.isLargeBuffer && !d.buffer.getSlabs.isEmpty) = true) := by
    simpa using hslabs
  refine ⟨{ st with mem := st.mem.store last d.startOffset }, ?_, helements ▸ hpath, ?_, ?_, ?_⟩
  · rw [doDistribute, if_neg (by omega), if_neg hcheck, if_neg (by omega)]
    simp only [show asSizeT (asInt d.startOffset) = d.startOffset from asSizeT_asInt (by omega)]
    rw [show distributeLoop d randInt (d.numElements - 1) 1 (d.startOffset, _) = _ from hloop]
    rfl
  · rw [helements]
    exact (hst.words hpath).close hlt hpath.head
  · rw [hst.entries, helements, List.length_append, List.length_singleton]
  · rw [hst.sequence, helements, List.length_append, List.length_singleton, Nat.add_sub_cancel]
    apply List.map_congr_left
    intro j _
    have hlt := hfit.drawnLine_lt randInt (j + 1)
    have hle := Nat.div_le_self d.buffer.getSize d.lineSize
    exact asUnsigned_of_lt (by simp only [unsignedRange]; omega)

theorem element_mem_bin {j a : Nat} (ha : (elements d randInt)[j + 1]? = some a) :
    a ∈ bin d randInt (j + 1) :=
  fromBins_fill (bin d randInt) (d.numElements - 1) [d.startOffset] (j + 1) a (by simp) ha

/-- The path has an element for every round, or it ends where a line is drawn whose words, except
for the last one, are all on it. -/
theorem elements_end (d : Distribution) (randInt : Nat → UInt32) :
    (elements d randInt).length = d.numElements - 1 + 1 ∨
      ∀ a ∈ bin d randInt (elements d randInt).length, a ∈ elements d randInt :=
  (fill_ends (bin d randInt) (d.numElements - 1) [d.startOffset]).imp_left fun hlen =>
    hlen.trans (Nat.add_comm _ _)

/-- On a zero-filled window, whatever is drawn, `doDistribute` leaves one cycle of distinct slots
through the start address. Its length is the number of entries, and the elements after the first
lie, in order, in the lines recorded, which are those drawn. The cycle is as long as it can get: the
next line drawn has no word left, or all words of the window have been counted. -/
theorem uniform_distribution_single_cycle {b : Buffer} {cacheline : Int32} {offset line : Nat}
    (hcache : cacheline.toInt = line) (hline : 8 ≤ line) (hsize : line ≤ b.getSize)
    (hstart : b.getStartAddress = b.getBufferPointer + offset)
    (hwindow : offset + b.getSize < 2147483648)
    (hslabs : ¬(b.isLargeBuffer = true ∧ b.getSlabs ≠ [])) (randInt : Nat → UInt32) {m : Memory}
    (hzero : ∀ a, offset ≤ a → a < offset + b.getSize → m.byte a = 0) :
    let slot := fun l s => offset + l * line + s * 4
    ∃ (st : PathState) (elements : List Nat),
      doDistribute (Distribution.setup b cacheline) randInt m = .ok st ∧
      IsCircuit st.mem.load offset elements ∧
      elements.length = st.entries ∧
      (∀ a ∈ elements, ∃ l < b.getSize / line, ∃ s < line / 4, a = slot l s) ∧
      elements.length = st.sequence.length + 1 ∧
      (∀ j l, st.sequence[j]? = some l → ∃ s < line / 4, elements[j + 1]? = some (slot l s)) ∧
      st.sequence = (List.range (st.entries - 1)).map
        (fun j => (randInt (j + 1)).toNat % (b.getSize / line)) ∧
      (st.entries = b.getSize / 4 ∨ ∀ s < line / 4 - 1,
        slot ((randInt st.entries).toNat % (b.getSize / line)) s ∈ elements) := by
  intro slot
  set d := Distribution.setup b cacheline
  have hlineSize : d.lineSize = line := asSizeT_of_toInt hcache
  have hoffset : d.startOffset = offset := startOffset_setup cacheline hstart
  have hfit : Fits d := ⟨hlineSize ▸ hline, hlineSize ▸ hsize, hoffset ▸ hwindow⟩
  have hslot : ∀ l s, UniformDistribution.slot d l s = slot l s := by
    intro l s
    rw [UniformDistribution.slot, lineWord, hoffset, hlineSize]
  have hempty : ∀ l s, IsSlot d l s → m.load (UniformDistribution.slot d l s) = 0 :=
    fun _ _ h => h.load_eq_zero (hoffset.symm ▸ hzero)
  obtain ⟨st, hrun, hpath, hcircuit, hentries, hsequence⟩ :=
    hfit.doDistribute_eq randInt hslabs hempty
  have hpos := hcircuit.length_pos
  have hdrawn : ∀ i, drawnLine d randInt i = (randInt i).toNat % (b.getSize / line) :=
    fun i => by rw [hfit.drawnLine_eq, hlineSize]; rfl
  refine ⟨st, elements d randInt, hrun, hoffset ▸ hcircuit, hentries.symm, ?_, ?_, ?_, ?_, ?_⟩
  · intro a ha
    obtain ⟨l, s, h, rfl⟩ := hpath.slots a ha
    rw [hslot]
    exact ⟨l, hlineSize ▸ h.1, s, hlineSize ▸ h.2, rfl⟩
  · rw [hsequence, List.length_map, List.length_range, Nat.sub_add_cancel hpos]
  · intro j l hj
    rw [hsequence, List.getElem?_map] at hj
    obtain ⟨j', hj', rfl⟩ := Option.map_eq_some_iff.mp hj
    obtain ⟨hlt, rfl⟩ := List.getElem?_eq_some_iff.mp hj'
    rw [List.length_range] at hlt
    obtain ⟨a, ha⟩ : ∃ a, (elements d randInt)[j + 1]? = some a :=
      ⟨_, List.getElem?_eq_getElem (by omega)⟩
    obtain ⟨s, hs, rfl⟩ := mem_bin (element_mem_bin ha)
    rw [List.getElem_range, ha, hslot]
    exact ⟨s, hlineSize ▸ hs, rfl⟩
  · rw [hsequence, hentries]
    exact List.map_congr_left fun j _ => hdrawn (j + 1)
  · rw [hentries]
    rcases elements_end d randInt with hrounds | hfull
    · have hwords : d.numElements = b.getSize / 4 :=
        asUnsigned_of_lt (by simp only [elementSize, unsignedRange]; omega)
      exact Or.inl (by omega)
    · refine Or.inr fun s hs => ?_
      rw [← hdrawn, ← hslot]
      exact hfull _ (List.mem_map.mpr ⟨s, List.mem_range.mpr (hlineSize.symm ▸ hs), rfl⟩)

/-- Two lines of 16 bytes at offset 0, the first one drawn all the time. -/
theorem uniform_distribution_single_cycle_two_lines :
    let randInt : Nat → UInt32 := fun _ => 0
    ∃ (st : PathState) (elements : List Nat),
      doDistribute (Distribution.setup (Buffer.smallPool 32) 16) randInt zeros = .ok st ∧
      IsCircuit st.mem.load 0 elements ∧
      elements.length = st.entries ∧
      (∀ a ∈ elements, ∃ l < 2, ∃ s < 4, a = 0 + l * 16 + s * 4) ∧
      elements.length = st.sequence.length + 1 ∧
      (∀ j l, st.sequence[j]? = some l → ∃ s < 4, elements[j + 1]? = some (0 + l * 16 + s * 4)) ∧
      st.sequence = (List.range (st.entries - 1)).map (fun j => (randInt (j + 1)).toNat % 2) ∧
      (st.entries = 8 ∨
        ∀ s < 3, 0 + (randInt st.entries).toNat % 2 * 16 + s * 4 ∈ elements) :=
  uniform_distribution_single_cycle (by decide : (16 : Int32).toInt = (16 : Nat)) (by decide)
    (by decide) rfl (by decide) (by decide) (fun _ => 0) (fun _ _ _ => rfl)

/-- The last word of the line stays empty. -/
example : elements (Distribution.setup (Buffer.smallPool 32) 16) (fun _ => 0) = [0, 4, 8] := by
  decide

end UniformDistribution

end Cachetest
