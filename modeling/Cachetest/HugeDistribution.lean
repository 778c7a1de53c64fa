import Cachetest.Contiguity
import Cachetest.UniformDistribution

/-!
# The uniform distribution across huge pages

`UniformDistribution::doHugeDistribution` turns a line of the buffer into a page number and a line
of that page, and looks the page up in `Get_slabs()`. It does so in pages of 2MB, while the table
lists the pages that `Find_contiguous_range` has found in pages of `M_Logical_page_size`, 1GB. The
table never holds more than one of them, so every line past the first 2MB is looked up outside it.
-/

namespace Cachetest

open ByteMemory

namespace Buffer

variable {host : Host} {b : Buffer} {unit : Nat} {head : Nat → Nat} {size : Nat}

/-! ## The table of slabs -/

/-- The word at address `a` lies in one of the pages that `Get_slabs()` lists. -/
def InSlabs (b : Buffer) (a : Nat) : Prop :=
  ∃ page ∈ b.getSlabs, page ≤ a ∧ a + 4 ≤ page + b.logicalPageSize

/-- Up to 1GB the search asks for one page, so it returns the first one of the pool. -/
theorem single_slab (hpage : host.PageSizes) (hb : Built host true b) (hle : b.bufferSize ≤ page1GB)
    {slabs : List Nat} (hfound : b.findContiguousRange host = .ok (.ok, slabs)) :
    ∃ page, slabs = [page] ∧ b.pointer ≤ page ∧ page < b.pointer + page1GB := by
  have hpopulated := hb.populated hpage host
  have hlogical : b.logicalPageSize = page1GB := hb.logicalPageSize
  have hlt : b.bufferSize + (2 ^ 30 - 1) < sizeRange := by
    simp only [page1GB, sizeRange] at hle ⊢
    omega
  have hpool := hb.poolPages_large hlt
  obtain ⟨hpages, hratio⟩ := hb.poolPages_eq hpage
  obtain ⟨-, hfound⟩ := findContiguousRange_eq_ok.mp hfound
  cases hmap : populateFrameToPageMap host b with
  | nil => simp [hmap, searchFrames] at hfound
  | cons e map =>
    obtain ⟨pfn, vpn⟩ := e
    obtain ⟨idx, hidx, -, heq⟩ := hpopulated.mem (pfn, vpn) (by simp [hmap])
    have hpos : 0 < b.bufferSize := by
      by_contra hzero
      rw [hpages, hpool, Nat.eq_zero_of_not_pos hzero] at hidx
      simp [pagesFor, page1GB] at hidx
    have hone : pagesFor b.bufferSize page1GB = 1 := by
      simp only [pagesFor, page1GB] at hle ⊢
      omega
    have hrequired := requiredPages_of_lt (by decide) hlogical hpos hlt
    rw [show pagesFor b.bufferSize (2 ^ 30) = 1 from hone] at hrequired
    rw [hmap, searchFrames_cons, findContiguousLoop, if_pos (by omega)] at hfound
    refine ⟨vpn, (Prod.mk.inj (Except.ok.inj hfound)).2.symm, ?_⟩
    have hvpn : vpn = b.pointer + idx * b.pageSize := (Prod.mk.inj heq).2
    rw [hpages, hpool, hone, Nat.one_mul] at hidx
    have hlt' : idx * b.pageSize < b.pagesPerLogicalPage * b.pageSize :=
      Nat.mul_lt_mul_of_pos_right hidx (hb.pageSize_pos hpage)
    rw [hratio, hlogical] at hlt'
    exact ⟨hvpn ▸ Nat.le_add_right _ _, hvpn ▸ Nat.add_lt_add_left hlt' _⟩

/-- A contiguous large buffer that was built fits into 1GB, and its table lists one page, which
starts in the pool. -/
theorem large_slabs (hpage : host.PageSizes) (hunit : 1 < unit) (hsize : size < sizeRange)
    {m m' : Memory} (hbuild : build host true size true m = .ok (b, m'))
    (hmaps : MapsUnits host b unit head) :
    b.isLargeBuffer = true ∧ b.bufferSize = size ∧ size ≤ page1GB ∧
      b.startAddress = b.pointer ∧ b.logicalPageSize = page1GB ∧
        ∃ page, b.slabs = [page] ∧ b.pointer ≤ page ∧ page < b.pointer + page1GB := by
  obtain ⟨-, slabs, hfound, rfl, -⟩ := build_contiguous_iff.mp hbuild
  have hb := built_alignPointer hpage true size true
  have hbsize : (allocated host true size true).alignPointer.bufferSize = size := by simp
  generalize (allocated host true size true).alignPointer = b₀ at hfound hb hbsize hmaps
  subst hbsize
  have hmaps' : MapsUnits host b₀ unit head := ⟨hmaps.frame, hmaps.flag, hmaps.distinct⟩
  have hle : b₀.bufferSize ≤ page1GB := by
    by_contra hlarge
    exact not_found_large hpage hb hsize (Nat.lt_of_not_le hlarge) hunit hmaps' slabs hfound
  exact ⟨hb.isLargeBuffer, rfl, hle, rfl, hb.logicalPageSize, single_slab hpage hb hle hfound⟩

end Buffer

namespace UniformDistribution

variable {d : Distribution} {randInt : Nat → UInt32} {page : Nat}

/-- `doHugeDistribution` completes, so that every page number it uses is one of the table, and after
each round the element placed last lies in a page of the table. -/
def StaysInSlabs (d : Distribution) (randInt : Nat → UInt32) (m : Memory) : Prop :=
  (∃ st, doHugeDistribution d randInt m = .ok st) ∧
  ∀ rounds ≤ d.numElements - 1, ∃ previdx st,
    hugeLoop d randInt rounds 1 (d.startOffset, { mem := m, sequence := [], entries := 1 }) =
      .ok (previdx, st) ∧
    d.buffer.InSlabs (d.buffer.getBufferPointer + previdx)

/-! ## Lines and pages -/

theorem numLinesOnPage_eq {line : Nat} (hcache : d.cacheline.toInt = line) :
    numLinesOnPage d = 2097152 / line := by
  have hne : (2097152 : Int32) ≠ Int32.minValue := by decide
  have hdiv : (2097152 / d.cacheline : Int32).toInt = (2097152 / line : Nat) := by
    rw [Int32.toInt_div_of_ne_left _ _ hne, hcache]
    exact Int.ofNat_tdiv 2097152 line
  have hnonneg : (0 : Int32) ≤ 2097152 / d.cacheline := by
    rw [Int32.le_iff_toInt_le, hdiv]
    exact Int.natCast_nonneg _
  rw [numLinesOnPage, Int32.toNat_toUInt32_of_le hnonneg, Int32.toNatClampNeg, hdiv,
    Int.toNat_natCast]

/-- The buffer lies within the first page of the table, and `int` can hold every index. -/
structure HugeFits (d : Distribution) (page : Nat) : Prop where
  eight_le : 8 ≤ d.lineSize
  slabs : d.buffer.getSlabs = [page]
  logical : d.buffer.logicalPageSize = page1GB
  pointer_lt : d.buffer.getBufferPointer < sizeRange
  pointer_le : d.buffer.getBufferPointer ≤ page
  page_lt : page < d.buffer.getBufferPointer + page1GB
  lines_pos : 0 < d.buffer.getSize / d.lineSize
  lines_le : d.buffer.getSize / d.lineSize ≤ 2097152 / d.lineSize
  lines_on_page : numLinesOnPage d = 2097152 / d.lineSize

theorem HugeFits.numLineElements_eq (h : HugeFits d page) :
    d.numLineElements = d.lineSize / elementSize := by
  have hline : d.lineSize ≤ 2097152 := by
    by_contra hlt
    have hzero := Nat.div_eq_of_lt (Nat.lt_of_not_le hlt)
    have hpos := h.lines_pos
    have hle := h.lines_le
    omega
  have hle := Nat.div_le_self d.lineSize elementSize
  exact asSizeT_asInt (by omega)

theorem HugeFits.element_inSlabs (h : HugeFits d page) {line s : Nat}
    (hline : line < d.buffer.getSize / d.lineSize) (hs : s < d.lineSize / elementSize) :
    d.buffer.InSlabs (d.buffer.getBufferPointer + hugeElementIndex d page line s) := by
  have hword : (s + 1) * 4 ≤ d.lineSize := (Nat.le_div_iff_mul_le (by decide)).mp hs
  have hlines : (line + 1) * d.lineSize ≤ 2097152 :=
    (Nat.mul_le_mul_right _ (hline.trans_le h.lines_le)).trans (Nat.div_mul_le_self _ _)
  rw [Nat.add_mul, Nat.one_mul] at hlines
  have hle := h.pointer_le
  have hlt := h.page_lt
  have hpointer := h.pointer_lt
  have hlogical := h.logical
  simp only [page1GB] at hlt hlogical
  -- The pointer is subtracted modulo `2^64`, which `int` does not see.
  have hsum : page + (sizeRange - d.buffer.getBufferPointer) + line * d.lineSize + s * elementSize =
      sizeRange + (page - d.buffer.getBufferPointer + line * d.lineSize + s * 4) := by
    simp only [elementSize]
    omega
  have hwrap : ∀ x, asInt (sizeRange + x) = asInt x := by
    intro x
    rw [asInt, Int32.ofNat_add]
    exact Int32.zero_add _
  have hindex : hugeElementIndex d page line s =
      page - d.buffer.getBufferPointer + line * d.lineSize + s * 4 := by
    rw [hugeElementIndex, asUnsigned_of_lt (by simp only [unsignedRange]; omega), hsum, hwrap]
    exact asSizeT_asInt (by omega)
  refine ⟨page, by simp [h.slabs], by omega, ?_⟩
  rw [hlogical, hindex]
  omega

/-! ## The loop -/

theorem HugeFits.exists_line (h : HugeFits d page) (randInt : Nat → UInt32) (i : Nat) :
    ∃ idx < d.buffer.getSize / d.lineSize,
      asUnsigned ((randInt i).toNat % hugeBufferlines d) = idx ∧ idx / numLinesOnPage d = 0 := by
  have hlines : d.buffer.getSize / d.lineSize < unsignedRange :=
    (h.lines_le.trans (Nat.div_le_self _ _)).trans_lt (by decide)
  have hlt := Nat.mod_lt (randInt i).toNat h.lines_pos
  refine ⟨_, hlt, ?_, ?_⟩
  · rw [hugeBufferlines, asUnsigned_of_lt hlines]
    exact asUnsigned_of_lt (hlt.trans hlines)
  · rw [h.lines_on_page]
    exact Nat.div_eq_of_lt (hlt.trans_le h.lines_le)

/-- The loop does not leave the table, by induction on the number of rounds left. -/
theorem HugeFits.hugeLoop_inSlabs (h : HugeFits d page) (randInt : Nat → UInt32)
    (rounds i : Nat) {prev : Nat} (st : PathState)
    (hprev : d.buffer.InSlabs (d.buffer.getBufferPointer + prev)) :
    ∃ prev' st', hugeLoop d randInt rounds i (prev, st) = .ok (prev', st') ∧
      d.buffer.InSlabs (d.buffer.getBufferPointer + prev') := by
  induction rounds generalizing i prev st with
  | zero => exact ⟨prev, st, rfl, hprev⟩
  | succ rounds ih =>
    obtain ⟨idx, hidx, hdraw, hpage⟩ := h.exists_line randInt i
    simp only [hugeLoop, hdraw, hpage, h.slabs, List.getElem?_cons_zero, Nat.zero_mul,
      Nat.sub_zero]
    cases hfound : findEmpty (st.mem.store prev 1) (hugeElementIndex d page idx)
        (d.numLineElements - 1) 0 with
    | none => exact ⟨prev, _, rfl, hprev⟩
    | some element =>
      rw [findEmpty_eq_find?] at hfound
      obtain ⟨s, hs, rfl⟩ := List.mem_map.mp (List.mem_of_find?_eq_some hfound)
      rw [List.mem_range'_1, h.numLineElements_eq] at hs
      exact ih _ _ (h.element_inSlabs hidx (by omega))

/-- The first line past the first 2MB makes the loop read the table out of bounds. -/
theorem hugeLoop_of_second_page (randInt : Nat → UInt32) (hslabs : d.buffer.getSlabs = [page])
    {idx : Nat}
    (hdraw : asUnsigned ((randInt 1).toNat % hugeBufferlines d) = idx)
    (hpage : 0 < idx / numLinesOnPage d) (rounds : Nat) (s : Nat × PathState) :
    ∃ stop, hugeLoop d randInt (rounds + 1) 1 s = .error stop := by
  obtain ⟨n, hn⟩ := Nat.exists_eq_succ_of_ne_zero hpage.ne'
  obtain ⟨prev, st⟩ := s
  refine ⟨.undefined "Get_slabs() is read out of bounds", ?_⟩
  simp only [hugeLoop, hdraw, hn, hslabs, Nat.succ_eq_add_one, List.getElem?_cons_succ,
    List.getElem?_nil]

/-! ## The whole function -/

theorem doHugeDistribution_of_loop (hslabs : d.buffer.getSlabs ≠ [])
    (hdiv : ¬((hugeBufferlines d = 0 ∨ numLinesOnPage d = 0) ∧ 1 < d.numElements)) {m : Memory}
    {prev : Nat} {st : PathState}
    (hloop : hugeLoop d randInt (d.numElements - 1) 1
      (d.startOffset, { mem := m, sequence := [], entries := 1 }) = .ok (prev, st)) :
    ∃ st', doHugeDistribution d randInt m = .ok st' := by
  have htable : decide (0 < d.buffer.getSlabs.length) = true :=
    decide_eq_true (List.length_pos_iff.mpr hslabs)
  refine ⟨{ st with mem := st.mem.store prev d.startOffset }, ?_⟩
  rw [doHugeDistribution, htable, assertThat_true, ok_bind, if_neg hdiv]
  change (hugeLoop d randInt _ 1 _ >>= _) = _
  rw [hloop]
  rfl

theorem StaysInSlabs.start {m : Memory} (h : StaysInSlabs d randInt m) :
    d.buffer.InSlabs (d.buffer.getBufferPointer + d.startOffset) := by
  obtain ⟨prev, st, hloop, hprev⟩ := h.2 0 (Nat.zero_le _)
  obtain ⟨rfl, -⟩ := Prod.mk.inj (Except.ok.inj hloop)
  exact hprev

theorem staysInSlabs_of_small (hslabs : d.buffer.getSlabs ≠ []) (hone : d.numElements ≤ 1)
    (hstart : d.buffer.InSlabs (d.buffer.getBufferPointer + d.startOffset)) (m : Memory) :
    StaysInSlabs d randInt m := by
  have hrounds := Nat.sub_eq_zero_of_le hone
  constructor
  · have hloop : hugeLoop d randInt (d.numElements - 1) 1
        (d.startOffset, { mem := m, sequence := [], entries := 1 }) =
          .ok (d.startOffset, { mem := m, sequence := [], entries := 1 }) := by
      rw [hrounds]
      rfl
    exact doHugeDistribution_of_loop hslabs (by omega) hloop
  · intro rounds hle
    obtain rfl : rounds = 0 := by omega
    exact ⟨d.startOffset, _, rfl, hstart⟩

/-- A buffer within the first 2MB of the page stays in the table if its start does. -/
theorem HugeFits.staysInSlabs (h : HugeFits d page)
    (hstart : d.buffer.InSlabs (d.buffer.getBufferPointer + d.startOffset)) (m : Memory) :
    StaysInSlabs d randInt m := by
  have hslabs : d.buffer.getSlabs ≠ [] := by simp [h.slabs]
  have hlines : hugeBufferlines d = d.buffer.getSize / d.lineSize :=
    asUnsigned_of_lt ((h.lines_le.trans (Nat.div_le_self _ _)).trans_lt (by decide))
  have hpos := h.lines_pos
  have hle := h.lines_le
  have hpage := h.lines_on_page
  constructor
  · obtain ⟨prev, st, hloop, -⟩ := h.hugeLoop_inSlabs randInt (d.numElements - 1) 1
      { mem := m, sequence := [], entries := 1 } hstart
    exact doHugeDistribution_of_loop hslabs (by omega) hloop
  · intro rounds _
    exact h.hugeLoop_inSlabs randInt rounds 1 _ hstart

theorem doHugeDistribution_of_div_zero
    (hdiv : (hugeBufferlines d = 0 ∨ numLinesOnPage d = 0) ∧ 1 < d.numElements) (m : Memory) :
    ∃ stop, doHugeDistribution d randInt m = .error stop := by
  rw [doHugeDistribution, if_pos hdiv]
  cases decide (0 < d.buffer.getSlabs.length) with
  | false => exact ⟨_, rfl⟩
  | true => exact ⟨_, rfl⟩

theorem doHugeDistribution_of_loop_error {m : Memory} {stop : Stop}
    (hloop : hugeLoop d randInt (d.numElements - 1) 1
      (d.startOffset, { mem := m, sequence := [], entries := 1 }) = .error stop) :
    ∃ stop, doHugeDistribution d randInt m = .error stop := by
  rw [doHugeDistribution, hloop]
  cases decide (0 < d.buffer.getSlabs.length) with
  | false => exact ⟨_, rfl⟩
  | true =>
    rw [assertThat_true, ok_bind]
    split
    case isTrue => exact ⟨_, rfl⟩
    case isFalse => exact ⟨_, rfl⟩

/-- A buffer with two words or more runs into a division by zero unless it has a line, and out of
the table as soon as line `2097152 / d.lineSize` is drawn. -/
theorem not_staysInSlabs (hslabs : d.buffer.getSlabs = [page])
    (hsize : d.buffer.getSize ≤ page1GB) (htwo : 1 < d.numElements)
    (hlines : d.lineSize ≤ d.buffer.getSize →
      2097152 / d.lineSize < d.buffer.getSize / d.lineSize)
    (hpage : numLinesOnPage d = 2097152 / d.lineSize) (m : Memory) :
    ¬StaysInSlabs d (fun _ => (2097152 / d.lineSize).toUInt32) m := by
  rintro ⟨⟨st, hrun⟩, -⟩
  have hbuffer : hugeBufferlines d = d.buffer.getSize / d.lineSize :=
    asUnsigned_of_lt ((Nat.div_le_self _ _).trans_lt (hsize.trans_lt (by decide)))
  have hpages : 2097152 / d.lineSize < unsignedRange :=
    (Nat.div_le_self _ _).trans_lt (by decide)
  have hfail : ∃ stop, doHugeDistribution d (fun _ => (2097152 / d.lineSize).toUInt32) m =
      .error stop := by
    by_cases hdiv : hugeBufferlines d = 0 ∨ numLinesOnPage d = 0
    · exact doHugeDistribution_of_div_zero ⟨hdiv, htwo⟩ m
    · obtain ⟨hpos, hpos'⟩ := not_or.mp hdiv
      rw [hbuffer] at hpos
      rw [hpage] at hpos'
      have hle : d.lineSize ≤ d.buffer.getSize := by
        by_contra hlt
        exact hpos (Nat.div_eq_of_lt (Nat.lt_of_not_le hlt))
      have hdraw : asUnsigned ((2097152 / d.lineSize).toUInt32.toNat % hugeBufferlines d) =
          2097152 / d.lineSize := by
        rw [hbuffer, show (2097152 / d.lineSize).toUInt32.toNat = 2097152 / d.lineSize from
          Nat.mod_eq_of_lt hpages, Nat.mod_eq_of_lt (hlines hle), asUnsigned_of_lt hpages]
      have hsecond : 0 < 2097152 / d.lineSize / numLinesOnPage d := by
        rw [hpage, Nat.div_self (Nat.pos_of_ne_zero hpos')]
        exact Nat.one_pos
      obtain ⟨stop, hloop⟩ := hugeLoop_of_second_page
        (fun _ => (2097152 / d.lineSize).toUInt32) hslabs hdraw hsecond
        (d.numElements - 2) (d.startOffset, { mem := m, sequence := [], entries := 1 })
      rw [show d.numElements - 2 + 1 = d.numElements - 1 by omega] at hloop
      exact doHugeDistribution_of_loop_error hloop
  obtain ⟨stop, hstop⟩ := hfail
  rw [hrun] at hstop
  cases hstop

/-- For every contiguous large buffer that was built, the path stays in the table of slabs for all
random numbers if and only if it starts in the only page listed, and the buffer has at most as many
lines as 2MB hold. -/
theorem staysInSlabs_iff {host : Host} {b : Buffer} {unit size line : Nat}
    {head : Nat → Nat} {cacheline : Int32} (hhost : host.PageSizes) (hunit : 1 < unit)
    (hsize : size < sizeRange) (offset : Nat) (m : Memory) {m₀ m' : Memory}
    (hbuild : Buffer.build host true size true m₀ = .ok (b, m'))
    (hmaps : Buffer.MapsUnits host b unit head) (hpointer : b.getBufferPointer < sizeRange)
    (hcache : cacheline.toInt = line) (hline : 8 ≤ line) :
    ∃ page, b.getSlabs = [page] ∧
      ((∀ randInt,
          StaysInSlabs (Distribution.setup (b.setBufferOffset offset) cacheline) randInt m) ↔
        (page ≤ b.getBufferPointer + offset ∧
          b.getBufferPointer + offset + 4 ≤ page + page1GB) ∧
        (size < 8 ∨ line ≤ size ∧ size / line ≤ 2097152 / line)) := by
  obtain ⟨-, hbsize, hle, hstart, hlogical, page, hslabs, hpage, hpage'⟩ :=
    Buffer.large_slabs hhost hunit hsize hbuild hmaps
  refine ⟨page, hslabs, ?_⟩
  set d := Distribution.setup (b.setBufferOffset offset) cacheline
  have hslabs' : d.buffer.getSlabs = [page] := hslabs
  have hne : d.buffer.getSlabs ≠ [] := by simp [hslabs']
  have hlineSize : d.lineSize = line := asSizeT_of_toInt hcache
  have hgetSize : d.buffer.getSize = size := hbsize
  have hoffset : d.startOffset = offset :=
    startOffset_setup cacheline (congrArg (· + offset) hstart)
  have helements : d.numElements = size / elementSize := by
    change asUnsigned (d.buffer.getSize / elementSize) = _
    rw [hgetSize]
    exact asUnsigned_of_lt ((Nat.div_le_self _ _).trans_lt (hle.trans_lt (by decide)))
  have hlines : numLinesOnPage d = 2097152 / d.lineSize := by
    rw [hlineSize]
    exact numLinesOnPage_eq hcache
  have hin : d.buffer.InSlabs (d.buffer.getBufferPointer + d.startOffset) ↔
      page ≤ b.getBufferPointer + offset ∧ b.getBufferPointer + offset + 4 ≤ page + page1GB := by
    rw [hoffset, Buffer.InSlabs, hslabs']
    simp only [List.mem_singleton, exists_eq_left]
    rw [show d.buffer.logicalPageSize = page1GB from hlogical]
    rfl
  rw [← hin]
  constructor
  · intro hall
    refine ⟨(hall fun _ => 0).start, ?_⟩
    by_contra hnot
    obtain ⟨hbig, hmany⟩ := not_or.mp hnot
    refine not_staysInSlabs hslabs' (hgetSize.trans_le hle) ?_ ?_ hlines m (hall _)
    · rw [helements]
      exact (Nat.le_div_iff_mul_le (by decide)).mpr (by simp only [elementSize]; omega)
    · rw [hlineSize, hgetSize]
      exact fun hle' => Nat.lt_of_not_le fun h => hmany ⟨hle', h⟩
  · rintro ⟨hstart', hsmall | ⟨hle', hfew⟩⟩ randInt
    · refine staysInSlabs_of_small hne ?_ hstart' m
      rw [helements]
      simp only [elementSize]
      omega
    · refine HugeFits.staysInSlabs ⟨hlineSize ▸ hline, hslabs', hlogical, hpointer, hpage, hpage',
        ?_, ?_, hlines⟩ hstart' m
      · rw [hlineSize, hgetSize]
        exact Nat.div_pos hle' (by omega)
      · rw [hlineSize, hgetSize]
        exact hfew

/-- 8KB on a huge page of 1GB, in lines of 64 bytes. -/
theorem staysInSlabs_iff_two_pages :
    ∃ b m', Buffer.build Host.identity true 8192 true zeros = .ok (b, m') ∧
      ∀ randInt, StaysInSlabs (Distribution.setup (b.setBufferOffset 0) 64) randInt zeros := by
  obtain ⟨b, m', hbuild, hpointer, -, -, -, hslabs, hmaps⟩ :=
    Buffer.build_identity 8192 (by decide) (by decide) zeros
  obtain ⟨page, hpage, hiff⟩ := staysInSlabs_iff Host.identity_pageSizes (by decide) (by decide)
    0 zeros hbuild hmaps
    (by rw [Buffer.getBufferPointer, hpointer]; decide)
    (by decide : (64 : Int32).toInt = (64 : Nat)) (by decide)
  obtain rfl : page1GB = page := List.singleton_inj.mp (hslabs.symm.trans hpage)
  refine ⟨b, m', hbuild, hiff.mpr ⟨?_, Or.inr (by decide)⟩⟩
  rw [Buffer.getBufferPointer, hpointer]
  decide

/-- 4MB on a huge page of 1GB, of which line 32768, the first one past 2MB, is drawn. -/
theorem staysInSlabs_fails_4MB :
    ∃ b m', Buffer.build Host.identity true 4194304 true zeros = .ok (b, m') ∧
      b.getSlabs = [page1GB] ∧
      ¬StaysInSlabs (Distribution.setup (b.setBufferOffset 0) 64) (fun _ => 32768) zeros := by
  obtain ⟨b, m', hbuild, -, -, -, -, hslabs, hmaps⟩ :=
    Buffer.build_identity 4194304 (by decide) (by decide) zeros
  obtain ⟨-, hsize, -⟩ :=
    Buffer.large_slabs Host.identity_pageSizes (by decide) (by decide) hbuild hmaps
  refine ⟨b, m', hbuild, hslabs, ?_⟩
  have hsize' : (Distribution.setup (b.setBufferOffset 0) 64).buffer.getSize = 4194304 := hsize
  have helements : (Distribution.setup (b.setBufferOffset 0) 64).numElements = 1048576 := by
    change asUnsigned (b.bufferSize / elementSize) = _
    rw [hsize]
    decide
  have hline : (Distribution.setup (b.setBufferOffset 0) 64).lineSize = 64 := rfl
  have hnot := not_staysInSlabs (d := Distribution.setup (b.setBufferOffset 0) 64) hslabs
    (by rw [hsize']; decide) (by rw [helements]; decide)
    (fun _ => by rw [hsize', hline]; decide)
    (numLinesOnPage_eq (by decide : (64 : Int32).toInt = (64 : Nat))) zeros
  rwa [hline, show Nat.toUInt32 (2097152 / 64) = 32768 by decide] at hnot

end UniformDistribution

end Cachetest
