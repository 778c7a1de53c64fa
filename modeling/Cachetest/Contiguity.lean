import Cachetest.FrameMap

/-!
# Where contiguous memory is used

`Initialize` starts the path at the beginning of the pool, whatever `Find_contiguous_range` has
found: the slabs are only recorded. So the pages under the path are physically contiguous only when
they lie in one page of the kernel, be it of 4KB or a huge page.
-/

namespace Cachetest

open Consecutive ByteMemory

/-- The same host with other page tables. -/
def Host.withPages (host : Host) (pagemap kpageflags : Nat → Nat) : Host :=
  { host with pagemap := pagemap, kpageflags := kpageflags }

@[simp] theorem Host.withPages_pageSize (host : Host) (pagemap kpageflags : Nat → Nat) :
    (host.withPages pagemap kpageflags).pageSize = host.pageSize := rfl

@[simp] theorem poolSizeFor_withPages (host : Host) (pagemap kpageflags : Nat → Nat)
    (isLarge : Bool) (size : Nat) :
    poolSizeFor (host.withPages pagemap kpageflags) isLarge size =
      poolSizeFor host isLarge size := by
  unfold poolSizeFor
  rw [Host.withPages_pageSize]

@[simp] theorem blockFor_withPages (host : Host) (pagemap kpageflags : Nat → Nat) (isLarge : Bool)
    (size : Nat) :
    blockFor (host.withPages pagemap kpageflags) isLarge size = blockFor host isLarge size := by
  unfold blockFor
  rw [poolSizeFor_withPages, poolSizeFor_withPages]
  rfl

@[simp] theorem Buffer.allocated_withPages (host : Host) (pagemap kpageflags : Nat → Nat)
    (isLarge : Bool) (size : Nat) (contiguous : Bool) :
    Buffer.allocated (host.withPages pagemap kpageflags) isLarge size contiguous =
      Buffer.allocated host isLarge size contiguous := by
  unfold Buffer.allocated
  rw [blockFor_withPages, blockFor_withPages]
  rfl

theorem Host.PageSizes.withPages {host : Host} (h : host.PageSizes)
    (pagemap kpageflags : Nat → Nat) : (host.withPages pagemap kpageflags).PageSizes := h

namespace Buffer

variable {host : Host} {b : Buffer} {isLarge : Bool} {size : Nat}

/-! ## Construction with contiguous memory -/

/-- A constructor completes exactly when the search succeeds. -/
theorem build_contiguous_iff {m m' : Memory} :
    build host isLarge size true m = .ok (b, m') ↔
      blockFor host isLarge size ≠ 0 ∧ ∃ slabs,
        (allocated host isLarge size true).alignPointer.findContiguousRange host =
            .ok (.ok, slabs) ∧
          b = { (allocated host isLarge size true).alignPointer with
            startAddress := (allocated host isLarge size true).alignPointer.pointer
            slabs := slabs } ∧
          m' = (allocated host isLarge size true).zeroPool m := by
  have hcontiguous : (allocated host isLarge size true).alignPointer.contiguous = true := by
    unfold alignPointer
    split <;> exact allocated_contiguous _ _ _ _
  rw [build_eq_ok, initializeBuffer, allocated_pointer]
  split
  case isTrue hzero => simp [hzero]
  case isFalse hblock =>
    simp only [hcontiguous, if_true]
    generalize (allocated host isLarge size true).alignPointer.findContiguousRange host = found
    cases found with
    | error stop => simp
    | ok result =>
      obtain ⟨status, slabs⟩ := result
      cases status <;> simp [hblock, eq_comm]

theorem build_of_found {slabs : List Nat}
    (hb : (allocated host isLarge size true).alignPointer = b)
    (hblock : blockFor host isLarge size ≠ 0)
    (hfound : b.findContiguousRange host = .ok (.ok, slabs)) (m : Memory) :
    build host isLarge size true m =
      .ok ({ b with startAddress := b.pointer, slabs := slabs },
        (allocated host isLarge size true).zeroPool m) := by
  subst hb
  exact build_contiguous_iff.mpr ⟨hblock, slabs, hfound, rfl, rfl⟩

theorem exists_build_of_hasRun (host : Host) {k f : Nat}
    (hend : host.populateEnd = .noReturn .ok) (hblock : blockFor host isLarge size ≠ 0)
    (hasc : Ascending (populateFrameToPageMap host (allocated host isLarge size true).alignPointer))
    (hone : ∀ page, (1, page) ∉
      populateFrameToPageMap host (allocated host isLarge size true).alignPointer)
    (hk : (allocated host isLarge size true).alignPointer.requiredPages + 1 = k)
    (hrun : HasRun
      (populateFrameToPageMap host (allocated host isLarge size true).alignPointer) f k)
    (m : Memory) : ∃ b m', build host isLarge size true m = .ok (b, m') := by
  obtain ⟨page, hmem⟩ := hrun 0 (by omega)
  obtain ⟨⟨status, slabs⟩, hr, hsearched⟩ :=
    searchFrames_of_one_not_mem hk hasc (List.ne_nil_of_mem hmem) hone
  obtain ⟨rfl, -⟩ := hsearched.resolve_right fun hnone => hnone.2 f hrun
  exact ⟨_, _, build_contiguous_iff.mpr
    ⟨hblock, slabs, findContiguousRange_eq_ok.mpr ⟨hend, hr⟩, rfl, rfl⟩⟩

/-! ## The pool in base pages -/

theorem Built.pool (hpage : host.PageSizes) (hb : Built host isLarge b) :
    b.pageSize ∣ b.poolSize ∧ b.poolSize / b.pageSize < 2 ^ 53 := by
  obtain ⟨s, hs, hs', hsize⟩ := hpage
  have hlt : b.poolSize < sizeRange := by
    rw [hb.poolSize]
    cases isLarge with
    | false =>
      rw [poolSizeFor_small]
      exact lt_of_le_of_lt Nat.and_le_left (Nat.mod_lt _ (by decide))
    | true =>
      rw [poolSizeFor_large]
      exact lt_of_le_of_lt Nat.and_le_left (Nat.mod_lt _ (by decide))
  have hpages : 2 ^ 12 ≤ b.pageSize := by
    rw [hb.pageSize, hsize]
    exact Nat.pow_le_pow_right Nat.two_pos hs
  refine ⟨?_, Nat.div_lt_of_lt_mul (hlt.trans_le ?_)⟩
  · rw [hb.pageSize, hb.poolSize, hsize]
    cases isLarge with
    | false =>
      rw [poolSizeFor_small, hsize]
      exact dvd_roundToAlignment _ (by omega)
    | true =>
      rw [poolSizeFor_large]
      exact (Nat.pow_dvd_pow 2 hs'.le).trans (dvd_roundToAlignment _ (by decide))
  · calc sizeRange ≤ 2 ^ 12 * 2 ^ 53 := by decide
      _ ≤ b.pageSize * 2 ^ 53 := Nat.mul_le_mul_right _ hpages

/-- The sizes for which the pool of a small buffer does not overflow and that of a large buffer is
one huge page. -/
def PoolFits (host : Host) (isLarge : Bool) (size : Nat) : Prop :=
  if isLarge then size ≤ page1GB else poolSize4KB + size + (host.pageSize - 1) < sizeRange

theorem poolFits_of_le (hpage : host.PageSizes) (isLarge : Bool) (hle : size ≤ page1GB) :
    PoolFits host isLarge size := by
  cases isLarge with
  | true => exact hle
  | false =>
    obtain ⟨s, -, hs, hsize⟩ := hpage
    have hpow : 2 ^ s < 2 ^ 30 := Nat.pow_lt_pow_right Nat.one_lt_two hs
    have hrange : poolSize4KB + page1GB + 2 ^ 30 < sizeRange := by decide
    change poolSize4KB + size + (host.pageSize - 1) < sizeRange
    rw [hsize]
    omega

theorem Built.le_poolSize (hpage : host.PageSizes) (hb : Built host isLarge b)
    (hfits : PoolFits host isLarge b.bufferSize) : b.bufferSize ≤ b.poolSize := by
  cases isLarge with
  | false =>
    obtain ⟨s, -, hs, hsize⟩ := hpage
    have hlt : poolSize4KB + b.bufferSize + (2 ^ s - 1) < sizeRange := hsize ▸ hfits
    rw [hb.poolSize, poolSizeFor_small, Nat.mod_eq_of_lt (by omega), hsize]
    exact (Nat.le_add_left _ _).trans (le_roundToAlignment (by omega) hlt)
  | true =>
    have hle : b.bufferSize ≤ 2 ^ 30 := hfits
    have hlt : b.bufferSize + (2 ^ 30 - 1) < sizeRange :=
      (Nat.add_le_add_right hle _).trans_lt (by decide)
    rw [hb.poolSize, poolSizeFor_large, poolSize1GB, Nat.zero_add, Nat.mod_eq_of_lt (by omega)]
    exact le_roundToAlignment (by decide) hlt

theorem Built.completed (hb : Built host isLarge b) (start : Nat) (slabs : List Nat) :
    Built host isLarge { b with startAddress := start, slabs := slabs } :=
  ⟨hb.pageSize, hb.logicalPageSize, hb.isLargeBuffer, hb.poolSize, hb.aligned⟩

/-! ## The page map of the kernel -/

/-- The kernel has mapped the pool in units of `unit` base pages: a unit lies in `unit` consecutive
frames from a multiple of `unit` on, two units lie in different frames, and the first frame of a
huge page is flagged as the compound head. -/
structure MapsUnits (host : Host) (b : Buffer) (unit : Nat) (head : Nat → Nat) : Prop where
  frame : ∀ idx < b.poolSize / b.pageSize,
    frameAt host b idx = head (idx / unit) * unit + idx % unit
  flag : 1 < unit → ∀ idx < b.poolSize / b.pageSize,
    (host.kpageflags (frameAt host b idx)).testBit kpfCompoundHead = decide (idx % unit = 0)
  distinct : ∀ i < b.poolSize / b.pageSize, ∀ j < b.poolSize / b.pageSize,
    head (i / unit) = head (j / unit) → i / unit = j / unit

/-- The pages under the path are backed by consecutive frames. -/
def WindowContiguous (host : Host) (b : Buffer) : Prop :=
  ∀ p, b.getStartAddress / host.pageSize ≤ p →
    (p + 1) * host.pageSize < b.getStartAddress + b.getSize →
      host.frame (p + 1) = host.frame p + 1

variable {unit : Nat} {head : Nat → Nat}

theorem MapsUnits.frameAt_inj (hunit : 0 < unit) (h : MapsUnits host b unit head) :
    ∀ i < b.poolSize / b.pageSize, ∀ j < b.poolSize / b.pageSize,
      frameAt host b i = frameAt host b j → i = j := by
  intro i hi j hj heq
  rw [h.frame i hi, h.frame j hj] at heq
  have hmod : i % unit = j % unit := by
    have hmod' := congrArg (· % unit) heq
    simpa only [Nat.mul_add_mod_of_lt (Nat.mod_lt _ hunit)] using hmod'
  rw [hmod] at heq
  have hdiv := h.distinct i hi j hj (Nat.eq_of_mul_eq_mul_right hunit (Nat.add_right_cancel heq))
  rw [← Nat.div_add_mod i unit, ← Nat.div_add_mod j unit, hdiv, hmod]

theorem MapsUnits.windowContiguous (hpage : host.PageSizes) (hb : Built host isLarge b)
    (h : MapsUnits host b unit head) (hstart : b.startAddress = b.pointer)
    (hsize : b.bufferSize ≤ unit * host.pageSize) (hpool : b.bufferSize ≤ b.poolSize) :
    WindowContiguous host b := by
  have hdvd : host.pageSize ∣ b.pointer := hb.pageSize ▸ hb.aligned
  have hdvd' : host.pageSize ∣ b.poolSize := hb.pageSize ▸ (hb.pool hpage).1
  intro p hp hwindow
  rw [getStartAddress, hstart] at hp hwindow
  obtain ⟨i, rfl⟩ := Nat.exists_eq_add_of_le hp
  have hi : (i + 1) * host.pageSize < b.bufferSize := by
    rw [Nat.add_assoc, Nat.add_mul, Nat.div_mul_cancel hdvd] at hwindow
    exact Nat.lt_of_add_lt_add_left hwindow
  have hunit : i + 1 < unit := Nat.lt_of_mul_lt_mul_right (hi.trans_le hsize)
  have hlt : i + 1 < b.poolSize / b.pageSize := by
    rw [hb.pageSize]
    exact (Nat.lt_div_iff_mul_lt' hdvd' _).mpr (Nat.mul_comm _ _ ▸ hi.trans_le hpool)
  have hframe : ∀ r < unit, r < b.poolSize / b.pageSize →
      host.frame (b.pointer / host.pageSize + r) = head 0 * unit + r := by
    intro r hr hr'
    have hr'' := h.frame r hr'
    rwa [Nat.div_eq_of_lt hr, Nat.mod_eq_of_lt hr, frameAt, hb.pageSize] at hr''
  rw [Nat.add_assoc, hframe (i + 1) hunit hlt, hframe i (by omega) (by omega)]
  rfl

/-! ## When the constructor cannot complete -/

theorem MapsUnits.dvd_of_mem (hpage : host.PageSizes) (hb : Built host true b) (hunit : 1 < unit)
    (h : MapsUnits host b unit head) :
    ∀ e ∈ populateFrameToPageMap host b, unit ∣ e.1 := by
  intro e he
  obtain ⟨idx, hidx, hcounted, rfl⟩ := (hb.populated hpage host).mem e he
  have hflag := h.flag hunit idx hidx
  rw [hcounted hb.isLargeBuffer] at hflag
  have hzero : idx % unit = 0 := of_decide_eq_true hflag.symm
  simp only [h.frame idx hidx, hzero, Nat.add_zero]
  exact Nat.dvd_mul_left _ _

/-- Frames that are multiples of `unit` do not follow one another. -/
theorem searchFrames_of_dvd {map : FrameToPageMap} {k : Nat} (hunit : 1 < unit)
    (hdvd : ∀ e ∈ map, unit ∣ e.1) (hasc : Ascending map) (hk : b.requiredPages + 1 = k)
    (htwo : 2 ≤ k) (slabs : List Nat) : b.searchFrames map ≠ .ok (.ok, slabs) := by
  intro hfound
  have hne : map ≠ [] := by
    rintro rfl
    simp [searchFrames] at hfound
  have hone : ∀ page, (1, page) ∉ map := fun page hmem =>
    hunit.ne' (Nat.dvd_one.mp (hdvd _ hmem))
  obtain ⟨r, hr, hsearched⟩ := searchFrames_of_one_not_mem hk hasc hne hone
  obtain rfl := Except.ok.inj (hr.symm.trans hfound)
  obtain ⟨-, f, hrun⟩ := hsearched.resolve_right fun hnone => by cases hnone.1
  obtain ⟨x, hx⟩ := hrun.hasRun 0 (by omega)
  obtain ⟨y, hy⟩ := hrun.hasRun 1 (by omega)
  exact hunit.ne' (Nat.dvd_one.mp ((Nat.dvd_add_right (hdvd _ hx)).mp (hdvd _ hy)))

/-- More than one huge page is never found. -/
theorem not_found_large (hpage : host.PageSizes) (hb : Built host true b)
    (hsize : b.bufferSize < sizeRange) (hlarge : page1GB < b.bufferSize) (hunit : 1 < unit)
    (h : MapsUnits host b unit head) (slabs : List Nat) :
    b.findContiguousRange host ≠ .ok (.ok, slabs) := by
  have hpopulated := hb.populated hpage host
  have hlogical : b.logicalPageSize = 2 ^ 30 := hb.logicalPageSize
  have hlarge' : 2 ^ 30 < b.bufferSize := hlarge
  refine fun hfound => absurd (findContiguousRange_eq_ok.mp hfound).2 ?_
  by_cases hlt : b.bufferSize + (2 ^ 30 - 1) < sizeRange
  · refine searchFrames_of_dvd hunit (h.dvd_of_mem hpage hb hunit) hpopulated.ascending
      (requiredPages_of_lt (by decide) hlogical (by omega) hlt) ?_ slabs
    exact (Nat.le_div_iff_mul_le (Nat.two_pow_pos 30)).mpr (by omega)
  · -- The pool is empty, and so is the map.
    have hpool : b.poolSize = 0 := by
      rw [hb.poolSize, poolSizeFor_large, poolSize1GB, Nat.zero_add, Nat.mod_eq_of_lt hsize]
      exact roundToAlignment_of_ge (by decide) hsize (Nat.le_of_not_lt hlt)
    rw [hpool, Nat.zero_div] at hpopulated
    rw [List.eq_nil_of_length_eq_zero (Nat.le_zero.mp hpopulated.length_le)]
    simp [searchFrames]

/-- A size for which the pool of a small buffer overflows needs more pages than the pool has. -/
theorem not_found_small (hpage : host.PageSizes) (hb : Built host false b)
    (hsize : b.bufferSize < sizeRange)
    (hfits : ¬PoolFits host false b.bufferSize) (slabs : List Nat) :
    b.findContiguousRange host ≠ .ok (.ok, slabs) := by
  have hge : sizeRange ≤ poolSize4KB + b.bufferSize + (host.pageSize - 1) := Nat.le_of_not_lt hfits
  have hpopulated := hb.populated hpage host
  have hfew := (hb.pool hpage).2
  obtain ⟨s, -, hs, hpagesize⟩ := hpage
  have hpow : 2 ^ s < 2 ^ 30 := Nat.pow_lt_pow_right Nat.one_lt_two hs
  have hpos := Nat.two_pow_pos s
  have hpage : b.pageSize = 2 ^ s := hb.pageSize.trans hpagesize
  have hlogical : b.logicalPageSize = 2 ^ s := hb.logicalPageSize.trans hpagesize
  rw [hpagesize] at hge
  -- What is left of the size after the overflow is less than the 32MB that were added.
  have hpool : b.poolSize < 2 ^ 25 + 2 ^ s := by
    rw [hb.poolSize, poolSizeFor_small, hpagesize]
    by_cases hsum : poolSize4KB + b.bufferSize < sizeRange
    · rw [Nat.mod_eq_of_lt hsum, roundToAlignment_of_ge (by omega) hsum hge]
      omega
    · have hmod : (poolSize4KB + b.bufferSize) % sizeRange < 2 ^ 25 := by
        rw [Nat.mod_eq_sub_mod (Nat.le_of_not_lt hsum)]
        refine (Nat.mod_le _ _).trans_lt ?_
        simp only [poolSize4KB] at hsum ⊢
        omega
      have hlt : (poolSize4KB + b.bufferSize) % sizeRange + (2 ^ s - 1) < sizeRange := by
        have hrange : 2 ^ 25 + 2 ^ 30 < sizeRange := by decide
        omega
      rw [roundToAlignment_of_lt (by omega) hlt]
      exact (Nat.div_mul_le_self _ _).trans_lt (by omega)
  have hpages : b.poolSize / b.pageSize * 2 ^ s ≤ b.poolSize := hpage ▸ Nat.div_mul_le_self _ _
  have hlength := hpopulated.length_le
  intro hfound
  obtain ⟨-, hfound⟩ := findContiguousRange_eq_ok.mp hfound
  by_cases hlt : b.bufferSize + (2 ^ s - 1) < sizeRange
  · have hbig : sizeRange - 2 ^ 31 ≤ b.bufferSize := by
      simp only [poolSize4KB] at hge
      omega
    have hle := length_of_searchFrames_ok (requiredPages_of_lt (by omega) hlogical
      (lt_of_lt_of_le (by decide) hbig) hlt) hpopulated.ascending hfound rfl
    have hround : b.bufferSize ≤ pagesFor b.bufferSize (2 ^ s) * 2 ^ s := by
      have hdiv := Nat.div_add_mod' (b.bufferSize + (2 ^ s - 1)) (2 ^ s)
      have hrest := Nat.mod_lt (b.bufferSize + (2 ^ s - 1)) hpos
      unfold pagesFor
      omega
    have hneeded : pagesFor b.bufferSize (2 ^ s) * 2 ^ s ≤
        (b.poolSize / b.pageSize + 1) * 2 ^ s :=
      Nat.mul_le_mul_right _ (hle.trans (Nat.succ_le_succ hlength))
    rw [Nat.add_mul, Nat.one_mul] at hneeded
    have hrange : sizeRange - 2 ^ 31 > 2 ^ 32 := by decide
    omega
  · have hk : b.requiredPages + 1 = sizeRange := by
      rw [requiredPages_of_ge (by omega) hlogical hsize (Nat.le_of_not_lt hlt)]
      rfl
    have hle := length_of_searchFrames_ok hk hpopulated.ascending hfound rfl
    have hrange : 2 ^ 53 + 1 < sizeRange := by decide
    omega

/-! ## A page map in descending order -/

/-- `count` units from page `base` on, each in frames below those of the one before it. -/
def descending (base count unit page : Nat) : Nat :=
  (count + 1 - (page - base) / unit) * unit + (page - base) % unit

/-- The kernel has mapped the pool in descending order. -/
def onDescending (host : Host) (b : Buffer) (unit : Nat) : Host :=
  host.withPages (descending (b.pointer / b.pageSize) (b.poolSize / b.pageSize / unit) unit)
    fun frame => if frame % unit = 0 then 2 ^ kpfCompoundHead else 0

theorem mapsUnits_onDescending (hpage : host.PageSizes) (hb : Built host isLarge b)
    (hpos : 0 < unit) (hunit : unit * host.pageSize ≤ page1GB) :
    MapsUnits (onDescending host b unit) b unit
      fun q => b.poolSize / b.pageSize / unit + 1 - q := by
  have hfew := (hb.pool hpage).2
  have hsmall : unit ≤ 2 ^ 18 := by
    obtain ⟨s, hs, -, hsize⟩ := hpage
    have hpages : 2 ^ 12 ≤ host.pageSize := hsize ▸ Nat.pow_le_pow_right Nat.two_pos hs
    have hmul : unit * 2 ^ 12 ≤ 2 ^ 18 * 2 ^ 12 := (Nat.mul_le_mul_left _ hpages).trans hunit
    exact Nat.le_of_mul_le_mul_right hmul (Nat.two_pow_pos 12)
  have hframe : ∀ idx, frameAt (onDescending host b unit) b idx =
      (b.poolSize / b.pageSize / unit + 1 - idx / unit) * unit + idx % unit := by
    intro idx
    have hlt : (b.poolSize / b.pageSize / unit + 1 - idx / unit) * unit + idx % unit < 2 ^ 55 := by
      have hmod := Nat.mod_lt idx hpos
      have hsub := Nat.mul_le_mul_right unit
        (Nat.sub_le (b.poolSize / b.pageSize / unit + 1) (idx / unit))
      have hdiv := Nat.div_mul_le_self (b.poolSize / b.pageSize) unit
      rw [Nat.add_mul, Nat.one_mul] at hsub
      omega
    unfold frameAt Host.frame onDescending Host.withPages
    simp only [descending, Nat.add_sub_cancel_left]
    rw [pagemapPfnMask, Nat.and_two_pow_sub_one_eq_mod, Nat.mod_eq_of_lt hlt]
  constructor
  · exact fun idx _ => hframe idx
  · intro hone idx hidx
    have hmod : ((b.poolSize / b.pageSize / unit + 1 - idx / unit) * unit + idx % unit) % unit =
        idx % unit := Nat.mul_add_mod_of_lt (Nat.mod_lt _ hpos)
    rw [hframe]
    simp only [onDescending, Host.withPages, hmod]
    by_cases hzero : idx % unit = 0 <;> simp [hzero]
  · intro i hi j hj heq
    have hi' := Nat.div_le_div_right (c := unit) hi.le
    have hj' := Nat.div_le_div_right (c := unit) hj.le
    omega

theorem not_windowContiguous_onDescending (hpage : host.PageSizes) (hb : Built host isLarge b)
    (hpos : 0 < unit) (hunit : unit * host.pageSize ≤ page1GB)
    (hstart : b.startAddress = b.pointer) (hsize : unit * host.pageSize < b.bufferSize)
    (hpool : b.bufferSize ≤ b.poolSize) :
    ¬WindowContiguous (onDescending host b unit) b := by
  have h := mapsUnits_onDescending hpage hb hpos hunit
  have hdvd : host.pageSize ∣ b.pointer := hb.pageSize ▸ hb.aligned
  have hdvd' : host.pageSize ∣ b.poolSize := hb.pageSize ▸ (hb.pool hpage).1
  have hlt : unit < b.poolSize / b.pageSize := by
    rw [hb.pageSize]
    exact (Nat.lt_div_iff_mul_lt' hdvd' _).mpr (Nat.mul_comm _ _ ▸ hsize.trans_le hpool)
  have hframe : ∀ idx, (onDescending host b unit).frame (b.pointer / host.pageSize + idx) =
      frameAt (onDescending host b unit) b idx := by
    intro idx
    rw [frameAt, hb.pageSize]
  intro hwindow
  have hnext := hwindow (b.pointer / host.pageSize + (unit - 1)) ?_ ?_
  · -- The last frame of the first unit, and the first frame of the second one.
    have hlast := h.frame (unit - 1) (by omega)
    have hfirst := h.frame unit hlt
    rw [Nat.div_eq_of_lt (Nat.sub_lt hpos Nat.one_pos), Nat.sub_zero, Nat.add_mul] at hlast
    rw [Nat.div_self hpos, Nat.mod_self, Nat.add_sub_cancel] at hfirst
    rw [Nat.add_assoc, Nat.sub_add_cancel hpos, hframe, hframe] at hnext
    omega
  · rw [getStartAddress, hstart]
    exact Nat.le_add_right _ _
  · rw [getStartAddress, hstart, Nat.add_assoc, Nat.sub_add_cancel hpos, Nat.add_mul]
    change b.pointer / host.pageSize * host.pageSize + unit * host.pageSize < _
    rw [Nat.div_mul_cancel hdvd]
    exact Nat.add_lt_add_left hsize _

theorem unit_pos (hunit : if isLarge then 1 < unit else unit = 1) : 0 < unit := by
  cases isLarge with
  | false => exact hunit ▸ Nat.one_pos
  | true => exact Nat.zero_lt_of_lt hunit

theorem one_not_mem_onDescending (hpage : host.PageSizes) (hb : Built host isLarge b)
    (hpos : 0 < unit) (hunit : unit * host.pageSize ≤ page1GB) (page : Nat) :
    (1, page) ∉ populateFrameToPageMap (onDescending host b unit) b := by
  intro hmem
  obtain ⟨idx, hidx, -, heq⟩ := (hb.populated hpage (onDescending host b unit)).mem _ hmem
  have hframe := (mapsUnits_onDescending hpage hb hpos hunit).frame idx hidx
  rw [← (Prod.mk.inj heq).1] at hframe
  have hle := Nat.div_le_div_right (c := unit) hidx.le
  have hmul : 1 * unit ≤ (b.poolSize / b.pageSize / unit + 1 - idx / unit) * unit :=
    Nat.mul_le_mul_right _ (by omega)
  obtain rfl : unit = 1 := by omega
  simp only [Nat.div_one] at hframe
  omega

/-- For a small buffer the frames in descending order are consecutive all the same. -/
theorem hasRun_onDescending_small (hpage : host.PageSizes) (hb : Built host false b) {k : Nat}
    (hk : k ≤ b.poolSize / b.pageSize) :
    HasRun (populateFrameToPageMap (onDescending host b 1) b) 2 k := by
  have hunit : 1 * host.pageSize ≤ page1GB := by
    obtain ⟨s, -, hs, hsize⟩ := hpage
    rw [Nat.one_mul, hsize]
    exact Nat.pow_le_pow_right Nat.two_pos hs.le
  have h := mapsUnits_onDescending hpage hb Nat.one_pos hunit
  have hpopulated := hb.populated hpage (onDescending host b 1)
  intro i hi
  have hidx : b.poolSize / b.pageSize - 1 - i < b.poolSize / b.pageSize := by omega
  have hmem := hpopulated.complete (h.frameAt_inj Nat.one_pos) _ hidx fun hlarge =>
    absurd (hb.isLargeBuffer.symm.trans hlarge) Bool.false_ne_true
  have hframe : frameAt (onDescending host b 1) b (b.poolSize / b.pageSize - 1 - i) = 2 + i := by
    rw [h.frame _ hidx]
    simp only [Nat.div_one]
    omega
  exact ⟨b.pageAt (b.poolSize / b.pageSize - 1 - i), hframe ▸ hmem⟩

theorem hasRun_onDescending_large (hpage : host.PageSizes) (hb : Built host true b)
    (hunit : 1 < unit) (hle : unit * host.pageSize ≤ page1GB)
    (hpool : 0 < b.poolSize / b.pageSize) :
    ∃ f, HasRun (populateFrameToPageMap (onDescending host b unit) b) f 1 := by
  have h := mapsUnits_onDescending hpage hb (Nat.zero_lt_of_lt hunit) hle
  have hpopulated := hb.populated hpage (onDescending host b unit)
  have hmem := hpopulated.complete (h.frameAt_inj (Nat.zero_lt_of_lt hunit)) 0 hpool fun _ => by
    rw [h.flag hunit 0 hpool, Nat.zero_mod]
    rfl
  refine ⟨frameAt (onDescending host b unit) b 0, fun i hi => ⟨b.pageAt 0, ?_⟩⟩
  rwa [Nat.lt_one_iff.mp hi, Nat.add_zero]

theorem Built.hasRun_onDescending (hpage : host.PageSizes) (hb : Built host isLarge b)
    (hpos : 0 < b.bufferSize) (hunit : if isLarge then 1 < unit else unit = 1)
    (hle : unit * host.pageSize ≤ page1GB) (hfits : PoolFits host isLarge b.bufferSize) :
    ∃ f, HasRun (populateFrameToPageMap (onDescending host b unit) b) f (b.requiredPages + 1) := by
  have hpool := hb.le_poolSize hpage hfits
  have hdvd := (hb.pool hpage).1
  have hpagesize := hpage
  obtain ⟨s, -, hs, hsize⟩ := hpagesize
  have hpow := Nat.two_pow_pos s
  have hpages : b.pageSize = 2 ^ s := hb.pageSize.trans hsize
  cases isLarge with
  | false =>
    obtain rfl : unit = 1 := hunit
    have hlogical : b.logicalPageSize = 2 ^ s := hb.logicalPageSize.trans hsize
    have hlt : poolSize4KB + b.bufferSize + (2 ^ s - 1) < sizeRange := hsize ▸ hfits
    refine ⟨2, hasRun_onDescending_small hpage hb ?_⟩
    rw [requiredPages_of_lt (by omega) hlogical hpos (by omega), hpages]
    rw [hpages] at hdvd
    refine Nat.le_of_lt_succ (Nat.div_lt_of_lt_mul ?_)
    rw [Nat.mul_succ, Nat.mul_div_cancel' hdvd]
    omega
  | true =>
    have hlogical : b.logicalPageSize = 2 ^ 30 := hb.logicalPageSize
    have hle' : b.bufferSize ≤ 2 ^ 30 := hfits
    have hlt : b.bufferSize + (2 ^ 30 - 1) < sizeRange :=
      (Nat.add_le_add_right hle' _).trans_lt (by decide)
    have hk : pagesFor b.bufferSize (2 ^ 30) = 1 :=
      Nat.div_eq_of_lt_le (by omega) (by omega)
    rw [requiredPages_of_lt (by decide) hlogical hpos hlt, hk]
    refine hasRun_onDescending_large hpage hb hunit hle (Nat.div_pos ?_ (hpages ▸ hpow))
    exact Nat.le_of_dvd (hpos.trans_le hpool) hdvd

/-- A constructor completes there nevertheless: the frames of a small buffer are consecutive in the
other direction, and of a huge page one is enough. -/
theorem exists_build_onDescending (hpage : host.PageSizes) (hend : host.populateEnd = .noReturn .ok)
    (hblock : blockFor host isLarge size ≠ 0) (hpos : 0 < size)
    (hunit : if isLarge then 1 < unit else unit = 1) (hle : unit * host.pageSize ≤ page1GB)
    (hfits : PoolFits host isLarge size) (m : Memory) :
    ∃ b m', build (onDescending host (allocated host isLarge size true).alignPointer unit)
      isLarge size true m = .ok (b, m') := by
  have hb := built_alignPointer hpage isLarge size true
  have hsize : (allocated host isLarge size true).alignPointer.bufferSize = size := by simp
  have hrun := hb.hasRun_onDescending hpage (hsize.symm ▸ hpos) hunit hle (hsize.symm ▸ hfits)
  have hone := one_not_mem_onDescending hpage hb (unit_pos hunit) hle
  have hasc := (hb.populated hpage
    (onDescending host (allocated host isLarge size true).alignPointer unit)).ascending
  generalize hhost : onDescending host (allocated host isLarge size true).alignPointer unit = host'
    at hrun hone hasc ⊢
  have hsame : allocated host' isLarge size true = allocated host isLarge size true :=
    hhost ▸ allocated_withPages host _ _ isLarge size true
  have hblock' : blockFor host' isLarge size ≠ 0 := by
    rwa [← hhost, onDescending, blockFor_withPages]
  rw [← hsame] at hrun hone hasc
  obtain ⟨f, hrun⟩ := hrun
  exact exists_build_of_hasRun host' (hhost ▸ hend) hblock' hasc hone rfl hrun m

theorem build_onDescending (hpage : host.PageSizes) {m m' : Memory}
    (h : build (onDescending host (allocated host isLarge size true).alignPointer unit)
      isLarge size true m = .ok (b, m')) :
    Built host isLarge b ∧ b.startAddress = b.pointer ∧ b.bufferSize = size ∧
      onDescending host (allocated host isLarge size true).alignPointer unit =
        onDescending host b unit := by
  obtain ⟨-, slabs, -, hcompleted, -⟩ := build_contiguous_iff.mp h
  rw [onDescending, allocated_withPages] at hcompleted
  have hb := (built_alignPointer hpage isLarge size true).completed
    (allocated host isLarge size true).alignPointer.pointer slabs
  rw [← hcompleted] at hb
  refine ⟨hb, by rw [hcompleted], by rw [hcompleted]; simp, ?_⟩
  rw [hcompleted]
  rfl

/-! ## A host with huge pages of 1GB -/

theorem mapsUnits_identity (hb : Built Host.identity true b) (hpointer : b.pointer = page1GB) :
    MapsUnits Host.identity b (2 ^ 18) (· + 1) := by
  have hframe : ∀ idx < b.poolSize / b.pageSize, frameAt Host.identity b idx = 2 ^ 18 + idx := by
    intro idx hidx
    have hlt := hidx.trans (hb.pool Host.identity_pageSizes).2
    rw [frameAt, hpointer, hb.pageSize, show page1GB / Host.identity.pageSize = 2 ^ 18 by decide]
    exact Host.frame_identity (by omega)
  refine ⟨fun idx hidx => ?_, fun _ idx hidx => ?_, fun i _ j _ heq => Nat.add_right_cancel heq⟩
  · rw [hframe idx hidx, Nat.add_mul, Nat.one_mul]
    omega
  · rw [hframe idx hidx, Host.kpageflags_identity, Nat.add_mod_left]
    split
    case isTrue hzero => rw [hzero, Nat.testBit_two_pow_self, decide_eq_true rfl]
    case isFalse hzero => rw [Nat.zero_testBit, decide_eq_false hzero]

theorem build_identity (size : Nat) (hpos : 0 < size) (hle : size ≤ page1GB) (m : Memory) :
    ∃ b m', build Host.identity true size true m = .ok (b, m') ∧ b.pointer = page1GB ∧
      b.startAddress = page1GB ∧ b.bufferSize = size ∧ b.isLargeBuffer = true ∧
      b.slabs = [page1GB] ∧ MapsUnits Host.identity b (2 ^ 18) (· + 1) := by
  have hlt : size + (2 ^ 30 - 1) < sizeRange := by
    simp only [page1GB, sizeRange] at hle ⊢
    omega
  have hone : pagesFor size page1GB = 1 := by
    simp only [pagesFor, page1GB] at hle ⊢
    omega
  have hblock : blockFor Host.identity true size ≠ 0 := by
    rw [blockFor_identity hpos hlt]
    decide
  -- Given a name, its members are not computed, down to the size of the pool.
  obtain ⟨b₀, hb₀, hb, hpointer, rfl⟩ :
      ∃ b₀, (allocated Host.identity true size true).alignPointer = b₀ ∧
        Built Host.identity true b₀ ∧ b₀.pointer = page1GB ∧ b₀.bufferSize = size :=
    ⟨_, rfl, built_alignPointer Host.identity_pageSizes true size true,
      pointer_identity hpos hlt true, by simp⟩
  have hfound := (hugePages_identity hb hpointer).searchFrames_single Host.identity_pageSizes hb
    hpos hone
  rw [hpointer] at hfound
  exact ⟨_, _, build_of_found hb₀ hblock (findContiguousRange_eq_ok.mpr ⟨rfl, hfound⟩) m, hpointer,
    hpointer, rfl, hb.isLargeBuffer, rfl, mapsUnits_identity (hb.completed _ _) hpointer⟩

/-- The buffer of `-a -h 1` there: 1KB on a huge page, with that page as its slab. -/
theorem setupBuffer_identity (m : Memory) :
    ∃ b m', setupBuffer Host.identity
        { Options.default with cont := true, huge := true, dataset := 1024 } m = .ok (b, m') ∧
      b.getSize = 1024 ∧ b.getStartAddress = b.getBufferPointer ∧ b.isLargeBuffer = true ∧
        b.getSlabs = [page1GB] := by
  obtain ⟨b, m', hbuild, hpointer, hstart, hsize, hlarge, hslabs, -⟩ :=
    build_identity 1024 (by decide) (by decide) m
  have hcreate : createBuffer Host.identity
      { Options.default with cont := true, huge := true, dataset := 1024 } m = .ok (b, m') := hbuild
  refine ⟨b.setBufferOffset 0, m', ?_, hsize, hstart.trans hpointer.symm, hlarge, hslabs⟩
  rw [setupBuffer, hcreate, ok_bind]
  rfl

/-! ## When the path is contiguous -/

/-- For every host, both kinds of buffer and every size: whenever a constructor completes, the
pages under the path are physically contiguous for all page maps if and only if the buffer fits
into one unit of the map, or the constructor completes for none of them. -/
theorem windowContiguous_iff (hpage : host.PageSizes)
    (hunit : if isLarge then 1 < unit else unit = 1) (hle : unit * host.pageSize ≤ page1GB)
    (hsize : size < sizeRange) (m : Memory) :
    (∀ pagemap kpageflags b m',
        build (host.withPages pagemap kpageflags) isLarge size true m = .ok (b, m') →
          (∃ head, MapsUnits (host.withPages pagemap kpageflags) b unit head) →
            WindowContiguous (host.withPages pagemap kpageflags) b) ↔
      size ≤ unit * host.pageSize ∨ blockFor host isLarge size = 0 ∨
        ¬PoolFits host isLarge size ∨ host.populateEnd ≠ .noReturn .ok := by
  constructor
  · intro hall
    by_contra hnot
    obtain ⟨hlarge, hnot⟩ := not_or.mp hnot
    obtain ⟨hblock, hnot⟩ := not_or.mp hnot
    obtain ⟨hfits, hend⟩ := not_or.mp hnot
    rw [not_not] at hfits hend
    obtain ⟨b, m', hbuild⟩ := exists_build_onDescending hpage hend hblock
      (Nat.zero_lt_of_lt (Nat.lt_of_not_le hlarge)) hunit hle hfits m
    obtain ⟨hb, hstart, hbsize, hsame⟩ := build_onDescending hpage hbuild
    rw [hsame] at hbuild
    refine not_windowContiguous_onDescending hpage hb (unit_pos hunit) hle hstart
      (hbsize ▸ Nat.lt_of_not_le hlarge) (hb.le_poolSize hpage (hbsize.symm ▸ hfits)) ?_
    exact hall _ _ b m' hbuild ⟨_, mapsUnits_onDescending hpage hb (unit_pos hunit) hle⟩
  · rintro hcond pagemap kpageflags b m' hbuild ⟨head, hmaps⟩
    obtain ⟨hblock, slabs, hfound, hcompleted, -⟩ := build_contiguous_iff.mp hbuild
    rw [blockFor_withPages] at hblock
    have hpage' := hpage.withPages pagemap kpageflags
    have hb := built_alignPointer hpage' isLarge size true
    have hbsize : (allocated (host.withPages pagemap kpageflags) isLarge size
      true).alignPointer.bufferSize = size := by simp
    generalize (allocated (host.withPages pagemap kpageflags) isLarge size true).alignPointer = b₀
      at hfound hcompleted hb hbsize
    subst hcompleted hbsize
    rcases hcond with hunitsize | hzero | hfits | hend
    · have hpool := hb.le_poolSize hpage' (poolFits_of_le hpage isLarge (hunitsize.trans hle))
      exact hmaps.windowContiguous hpage' (hb.completed _ _) rfl hunitsize hpool
    · exact absurd hzero hblock
    · have hmaps' : MapsUnits (host.withPages pagemap kpageflags) b₀ unit head :=
        ⟨hmaps.frame, hmaps.flag, hmaps.distinct⟩
      cases isLarge with
      | false => exact absurd hfound (not_found_small hpage' hb hsize hfits slabs)
      | true =>
        have hlarge : page1GB < b₀.bufferSize := Nat.lt_of_not_le hfits
        exact absurd hfound (not_found_large hpage' hb hsize hlarge hunit hmaps' slabs)
    · exact absurd (findContiguousRange_eq_ok.mp hfound).1 hend

/-- A huge page of 1GB under a path of two pages. -/
theorem windowContiguous_iff_huge_page :
    ∃ pagemap kpageflags b m',
      build (Host.simple.withPages pagemap kpageflags) true 8192 true zeros = .ok (b, m') ∧
        WindowContiguous (Host.simple.withPages pagemap kpageflags) b := by
  have hunit : if true then 1 < 2 ^ 18 else 2 ^ 18 = 1 := by decide
  have hle : 2 ^ 18 * Host.simple.pageSize ≤ page1GB := by decide
  have hfits : PoolFits Host.simple true 8192 :=
    poolFits_of_le Host.simple_pageSizes true (by decide)
  obtain ⟨b, m', hbuild⟩ := exists_build_onDescending Host.simple_pageSizes rfl (by decide)
    (by decide) hunit hle hfits zeros
  obtain ⟨hb, -, -, hsame⟩ := build_onDescending Host.simple_pageSizes hbuild
  rw [hsame] at hbuild
  have hmaps := mapsUnits_onDescending Host.simple_pageSizes hb (by decide) hle
  exact ⟨_, _, b, m', hbuild, (windowContiguous_iff Host.simple_pageSizes hunit hle (by decide)
    zeros).mpr (Or.inl (by decide)) _ _ b m' hbuild ⟨_, hmaps⟩⟩

/-- Two small pages in descending order: the search succeeds, the path runs against the frames. -/
theorem build_ignores_slabs :
    ∃ kpageflags b m',
      build (Host.simple.withPages (descending (2 ^ 18) 8194 1) kpageflags) false 8192 true zeros =
          .ok (b, m') ∧
        ¬WindowContiguous (Host.simple.withPages (descending (2 ^ 18) 8194 1) kpageflags) b := by
  have hunit : if false then 1 < 1 else 1 = 1 := rfl
  have hle : 1 * Host.simple.pageSize ≤ page1GB := by decide
  have hfits : PoolFits Host.simple false 8192 :=
    poolFits_of_le Host.simple_pageSizes false (by decide)
  have hblock : blockFor Host.simple false 8192 = page1GB := by rw [blockFor_small]; rfl
  have hpool : poolSizeFor Host.simple false 8192 = 8194 * 4096 := by
    rw [poolSizeFor_small]
    decide
  have hdvd : Host.simple.pageSize ∣ page1GB := by decide
  have hsame : onDescending Host.simple (allocated Host.simple false 8192 true).alignPointer 1 =
      Host.simple.withPages (descending (2 ^ 18) 8194 1)
        fun frame => if frame % 1 = 0 then 2 ^ kpfCompoundHead else 0 := by
    rw [alignPointer_of_dvd (by rw [allocated_pageSize, allocated_pointer, hblock]; exact hdvd),
      onDescending, allocated_pageSize, allocated_pointer, allocated_poolSize, hblock, hpool]
    rfl
  obtain ⟨b, m', hbuild⟩ := exists_build_onDescending Host.simple_pageSizes rfl
    (by rw [hblock]; decide) (by decide) hunit hle hfits zeros
  obtain ⟨hb, hstart, hbsize, hsame'⟩ := build_onDescending Host.simple_pageSizes hbuild
  have hnot := not_windowContiguous_onDescending Host.simple_pageSizes hb Nat.one_pos hle hstart
    (by rw [hbsize]; decide) (hb.le_poolSize Host.simple_pageSizes (hbsize.symm ▸ hfits))
  rw [← hsame', hsame] at hnot
  rw [hsame] at hbuild
  exact ⟨_, b, m', hbuild, hnot⟩

end Buffer

end Cachetest
