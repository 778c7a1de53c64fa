import Cachetest.FrameSearch

/-!
# The frames behind the pool

`Populate_frame_to_page_map` collects the frames of the pool, for a large buffer only the heads of
huge pages. The search then counts logical pages but compares frame numbers, in units of base pages,
so two huge pages or more are never found, adjacent or not.
-/

namespace Cachetest

open Consecutive ByteMemory

/-- The physical frame of a virtual page, as the kernel reports it. -/
def Host.frame (host : Host) (page : Nat) : Nat := host.pagemap page &&& pagemapPfnMask

/-- A host that backs every page by the frame of its own number, in huge pages of 1GB. -/
def Host.identity : Host :=
  { Host.simple with
    kpageflags := fun frame => if frame % 2 ^ 18 = 0 then 2 ^ kpfCompoundHead else 0 }

theorem Host.identity_pageSizes : Host.identity.PageSizes := Host.simple_pageSizes

theorem Host.frame_identity {page : Nat} (h : page < 2 ^ 55) : Host.identity.frame page = page :=
  (Nat.and_two_pow_sub_one_eq_mod page 55).trans (Nat.mod_eq_of_lt h)

theorem Host.kpageflags_identity (frame : Nat) : Host.identity.kpageflags frame =
    if frame % 2 ^ 18 = 0 then 2 ^ kpfCompoundHead else 0 := rfl

namespace Buffer

/-! ## Filling the map -/

theorem mem_insertFrame {pfn page : Nat} {map : FrameToPageMap} {e : Nat × Nat}
    (h : e ∈ insertFrame pfn page map) : e = (pfn, page) ∨ e ∈ map := by
  fun_induction insertFrame pfn page map with
  | case1 => exact Or.inl (List.mem_singleton.mp h)
  | case2 f p map hlt => exact List.mem_cons.mp h
  | case3 p map hne =>
    exact (List.mem_cons.mp h).imp_right (List.mem_cons_of_mem _)
  | case4 f p map hlt hne ih =>
    rcases List.mem_cons.mp h with rfl | hrest
    · exact Or.inr List.mem_cons_self
    · exact (ih hrest).imp_right (List.mem_cons_of_mem _)

theorem self_mem_insertFrame (pfn page : Nat) (map : FrameToPageMap) :
    (pfn, page) ∈ insertFrame pfn page map := by
  fun_induction insertFrame pfn page map with
  | case1 | case2 | case3 => exact List.mem_cons_self
  | case4 f p map hlt hne ih => exact List.mem_cons_of_mem _ ih

theorem mem_insertFrame_of_ne {pfn page : Nat} {map : FrameToPageMap} {e : Nat × Nat}
    (h : e ∈ map) (hne : e.1 ≠ pfn) : e ∈ insertFrame pfn page map := by
  fun_induction insertFrame pfn page map with
  | case1 => cases h
  | case2 f p map hlt => exact List.mem_cons_of_mem _ h
  | case3 p map hlt =>
    rcases List.mem_cons.mp h with rfl | hrest
    · exact absurd rfl hne
    · exact List.mem_cons_of_mem _ hrest
  | case4 f p map hlt hne' ih =>
    rcases List.mem_cons.mp h with rfl | hrest
    · exact List.mem_cons_self
    · exact List.mem_cons_of_mem _ (ih hrest)

theorem ascending_insertFrame (pfn page : Nat) {map : FrameToPageMap} (h : Ascending map) :
    Ascending (insertFrame pfn page map) := by
  fun_induction insertFrame pfn page map with
  | case1 => exact List.pairwise_singleton _ _
  | case2 f p map hlt =>
    refine List.pairwise_cons.mpr ⟨fun e he => ?_, h⟩
    rcases List.mem_cons.mp he with rfl | hrest
    · exact hlt
    · exact hlt.trans ((List.pairwise_cons.mp h).1 e hrest)
  | case3 p map hne =>
    exact List.pairwise_cons.mpr (List.pairwise_cons.mp h)
  | case4 f p map hlt hne ih =>
    obtain ⟨hhead, htail⟩ := List.pairwise_cons.mp h
    refine List.pairwise_cons.mpr ⟨fun e he => ?_, ih htail⟩
    rcases mem_insertFrame he with rfl | hrest
    · exact lt_of_le_of_ne (Nat.le_of_not_lt hlt) (Ne.symm hne)
    · exact hhead e hrest

theorem length_insertFrame_le (pfn page : Nat) (map : FrameToPageMap) :
    (insertFrame pfn page map).length ≤ map.length + 1 := by
  fun_induction insertFrame pfn page map with
  | case1 => simp
  | case2 => simp
  | case3 => simp
  | case4 f p map hlt hne ih => simpa using ih

theorem nodup_pages_insertFrame (pfn : Nat) {page : Nat} {map : FrameToPageMap}
    (h : (map.map Prod.snd).Nodup) (hpage : page ∉ map.map Prod.snd) :
    ((insertFrame pfn page map).map Prod.snd).Nodup := by
  fun_induction insertFrame pfn page map with
  | case1 => simp
  | case2 f p map hlt => exact List.nodup_cons.mpr ⟨hpage, h⟩
  | case3 p map hne =>
    obtain ⟨-, htail⟩ := List.nodup_cons.mp h
    exact List.nodup_cons.mpr ⟨fun hmem => hpage (List.mem_cons_of_mem _ hmem), htail⟩
  | case4 f p map hlt hne ih =>
    obtain ⟨hhead, htail⟩ := List.nodup_cons.mp h
    refine List.nodup_cons.mpr ⟨fun hmem => ?_, ih htail fun hmem =>
      hpage (List.mem_cons_of_mem _ hmem)⟩
    obtain ⟨e, he, heq⟩ := List.mem_map.mp hmem
    rcases mem_insertFrame he with rfl | hrest
    · exact hpage (List.mem_cons.mpr (Or.inl heq))
    · exact hhead (List.mem_map.mpr ⟨e, hrest, heq⟩)

/-- The frame of page `idx` of the pool. -/
def frameAt (host : Host) (b : Buffer) (idx : Nat) : Nat :=
  host.frame (b.pointer / b.pageSize + idx)

/-- The address of page `idx` of the pool. -/
def pageAt (b : Buffer) (idx : Nat) : Nat := b.pointer + idx * b.pageSize

/-- Page `idx` gets into the map: it is not inside a huge page. -/
def Counted (host : Host) (b : Buffer) (idx : Nat) : Prop :=
  b.isLargeBuffer = true → (host.kpageflags (frameAt host b idx)).testBit kpfCompoundHead = true

/-- What the map is after `n` pages of the pool. -/
structure Populated (host : Host) (b : Buffer) (n : Nat) (map : FrameToPageMap) : Prop where
  ascending : Ascending map
  pages_nodup : (map.map Prod.snd).Nodup
  length_le : map.length ≤ n
  mem : ∀ e ∈ map, ∃ idx < n, Counted host b idx ∧ e = (frameAt host b idx, b.pageAt idx)
  complete : (∀ i < n, ∀ j < n, frameAt host b i = frameAt host b j → i = j) →
    ∀ idx < n, Counted host b idx → (frameAt host b idx, b.pageAt idx) ∈ map

variable {host : Host} {b : Buffer}

theorem Populated.skip {n : Nat} {map : FrameToPageMap} (h : Populated host b n map)
    (hskip : ¬Counted host b n) : Populated host b (n + 1) map where
  ascending := h.ascending
  pages_nodup := h.pages_nodup
  length_le := Nat.le_succ_of_le h.length_le
  mem e he := by
    obtain ⟨idx, hidx, hcounted, heq⟩ := h.mem e he
    exact ⟨idx, Nat.lt_succ_of_lt hidx, hcounted, heq⟩
  complete hinj idx hidx hcounted := by
    rcases Nat.lt_succ_iff_lt_or_eq.mp hidx with hlt | rfl
    · exact h.complete (fun i hi j hj => hinj i (Nat.lt_succ_of_lt hi) j (Nat.lt_succ_of_lt hj))
        idx hlt hcounted
    · exact absurd hcounted hskip

theorem Populated.insert (hsize : 0 < b.pageSize) {n : Nat} {map : FrameToPageMap}
    (h : Populated host b n map) (hcounted : Counted host b n) :
    Populated host b (n + 1) (insertFrame (frameAt host b n) (b.pageAt n) map) where
  ascending := ascending_insertFrame _ _ h.ascending
  pages_nodup := by
    refine nodup_pages_insertFrame _ h.pages_nodup fun hmem => ?_
    obtain ⟨e, he, heq⟩ := List.mem_map.mp hmem
    obtain ⟨idx, hidx, -, rfl⟩ := h.mem e he
    have hpages : idx * b.pageSize = n * b.pageSize := Nat.add_left_cancel heq
    exact hidx.ne (Nat.eq_of_mul_eq_mul_right hsize hpages)
  length_le := (length_insertFrame_le _ _ _).trans (Nat.succ_le_succ h.length_le)
  mem e he := by
    rcases mem_insertFrame he with rfl | hold
    · exact ⟨n, Nat.lt_succ_self n, hcounted, rfl⟩
    · obtain ⟨idx, hidx, hcounted', heq⟩ := h.mem e hold
      exact ⟨idx, Nat.lt_succ_of_lt hidx, hcounted', heq⟩
  complete hinj idx hidx hcounted' := by
    rcases Nat.lt_succ_iff_lt_or_eq.mp hidx with hlt | rfl
    · refine mem_insertFrame_of_ne (h.complete (fun i hi j hj => hinj i (Nat.lt_succ_of_lt hi) j
        (Nat.lt_succ_of_lt hj)) idx hlt hcounted') fun heq => ?_
      exact hlt.ne (hinj idx hidx n (Nat.lt_succ_self n) heq)
    · exact self_mem_insertFrame _ _ _

/-- The map describes the pool. -/
theorem populateFrameToPageMap_spec (host : Host) (b : Buffer) (hsize : 0 < b.pageSize) :
    Populated host b (b.poolSize / b.pageSize) (populateFrameToPageMap host b) := by
  unfold populateFrameToPageMap getAllocatedSize
  induction b.poolSize / b.pageSize with
  | zero =>
    exact ⟨List.Pairwise.nil, List.nodup_nil, le_rfl, fun e he => (List.not_mem_nil he).elim,
      fun _ idx hidx => absurd hidx (Nat.not_lt_zero idx)⟩
  | succ n ih =>
    rw [List.range_succ, List.foldl_append, List.foldl_cons, List.foldl_nil]
    simp only
    split
    case isTrue hskip =>
      refine ih.skip fun hcounted => ?_
      rw [Bool.and_eq_true, Bool.not_eq_true'] at hskip
      exact absurd (hcounted hskip.1) (by rw [Bool.not_eq_true]; exact hskip.2)
    case isFalse hkeep =>
      refine ih.insert hsize fun hlarge => ?_
      rw [hlarge, Bool.true_and, Bool.not_eq_true, Bool.not_eq_false'] at hkeep
      exact hkeep

/-! ## Huge pages -/

/-- What a constructor has set before the search. -/
structure Built (host : Host) (isLarge : Bool) (b : Buffer) : Prop where
  pageSize : b.pageSize = host.pageSize
  logicalPageSize : b.logicalPageSize = if isLarge then page1GB else host.pageSize
  isLargeBuffer : b.isLargeBuffer = isLarge
  poolSize : b.poolSize = poolSizeFor host isLarge b.bufferSize
  aligned : b.pageSize ∣ b.pointer

/-- Base pages in a logical page. -/
def pagesPerLogicalPage (b : Buffer) : Nat := b.logicalPageSize / b.pageSize

/-- The pool consists of huge pages: page `j` occupies the frames from `head j` on, and only the
first of them is flagged as a compound head. -/
structure HugePages (host : Host) (b : Buffer) (head : Nat → Nat) : Prop where
  frame : ∀ j < b.poolSize / b.logicalPageSize, ∀ r < b.pagesPerLogicalPage,
    frameAt host b (j * b.pagesPerLogicalPage + r) = head j + r
  flag : ∀ j < b.poolSize / b.logicalPageSize, ∀ r < b.pagesPerLogicalPage,
    (host.kpageflags (head j + r)).testBit kpfCompoundHead = decide (r = 0)

/-- `order` lists `k` huge pages of the pool that are physically adjacent. -/
structure Adjacent (b : Buffer) (head : Nat → Nat) (k : Nat) (order : List Nat) : Prop where
  length : order.length = k
  inPool : ∀ j ∈ order, j < b.poolSize / b.logicalPageSize
  next : ∀ i j j', order[i]? = some j → order[i + 1]? = some j' →
    head j' = head j + b.pagesPerLogicalPage

theorem Built.pageSize_pos {isLarge : Bool} (hpage : host.PageSizes) (hb : Built host isLarge b) :
    0 < b.pageSize := hb.pageSize ▸ hpage.pos

/-- What the map holds, whatever the frames of the pages are. -/
theorem Built.populated {isLarge : Bool} (hpage : host.PageSizes)
    (hb : Built host isLarge b) (frames : Host) :
    Populated frames b (b.poolSize / b.pageSize) (populateFrameToPageMap frames b) :=
  populateFrameToPageMap_spec frames b (hb.pageSize_pos hpage)

theorem Built.pagesPerLogicalPage_eq (hpage : host.PageSizes) (hb : Built host true b) :
    ∃ s, 12 ≤ s ∧ s < 30 ∧ b.pageSize = 2 ^ s ∧ b.pagesPerLogicalPage = 2 ^ (30 - s) := by
  obtain ⟨s, hs, hs', hsize⟩ := hpage
  refine ⟨s, hs, hs', hb.pageSize.trans hsize, ?_⟩
  rw [pagesPerLogicalPage, hb.logicalPageSize, if_pos rfl, hb.pageSize, hsize]
  exact Nat.pow_div hs'.le Nat.two_pos

theorem Built.two_le_pagesPerLogicalPage (hpage : host.PageSizes) (hb : Built host true b) :
    2 ≤ b.pagesPerLogicalPage := by
  obtain ⟨s, -, hs, -, hratio⟩ := hb.pagesPerLogicalPage_eq hpage
  rw [hratio, show 30 - s = (29 - s) + 1 by omega, pow_succ]
  have hpos := Nat.two_pow_pos (29 - s)
  omega

theorem Built.poolPages_large (hb : Built host true b)
    (hlt : b.bufferSize + (2 ^ 30 - 1) < sizeRange) :
    b.poolSize / b.logicalPageSize = pagesFor b.bufferSize page1GB := by
  have hlogical : b.logicalPageSize = 2 ^ 30 := hb.logicalPageSize
  have hpool : b.poolSize = roundToAlignment b.bufferSize (2 ^ 30) := by
    rw [hb.poolSize, poolSizeFor_large, poolSize1GB, Nat.zero_add, Nat.mod_eq_of_lt (by omega)]
    rfl
  rw [hpool, hlogical, roundToAlignment_of_lt (by decide) hlt,
    Nat.mul_div_cancel _ (Nat.two_pow_pos 30)]
  rfl

/-- A size that overflows has no pool. -/
theorem Built.lt_of_poolPages_pos (hb : Built host true b) (hsize : b.bufferSize < sizeRange)
    (hpool : 0 < b.poolSize / b.logicalPageSize) :
    b.bufferSize + (2 ^ 30 - 1) < sizeRange := by
  by_contra hge
  have hzero : b.poolSize = 0 := by
    rw [hb.poolSize, poolSizeFor_large, poolSize1GB, Nat.zero_add, Nat.mod_eq_of_lt hsize]
    exact roundToAlignment_of_ge (by decide) hsize (Nat.le_of_not_lt hge)
  rw [hzero, Nat.zero_div] at hpool
  exact absurd hpool (Nat.lt_irrefl 0)

theorem Built.poolPages_eq (hpage : host.PageSizes) (hb : Built host true b) :
    b.poolSize / b.pageSize = b.poolSize / b.logicalPageSize * b.pagesPerLogicalPage ∧
      b.pagesPerLogicalPage * b.pageSize = b.logicalPageSize := by
  obtain ⟨s, -, hs, hsize, hratio⟩ := hb.pagesPerLogicalPage_eq hpage
  have hlogical : b.logicalPageSize = 2 ^ 30 := hb.logicalPageSize
  have hmul : b.pagesPerLogicalPage * b.pageSize = b.logicalPageSize := by
    rw [hratio, hsize, hlogical, ← pow_add, Nat.sub_add_cancel hs.le]
  have hdvd : b.logicalPageSize ∣ b.poolSize := by
    rw [hb.poolSize, poolSizeFor_large, hlogical]
    exact dvd_roundToAlignment _ (by decide)
  refine ⟨?_, hmul⟩
  obtain ⟨N, hN⟩ := hdvd
  have hpos := hb.pageSize_pos hpage
  have hposL : 0 < b.logicalPageSize := by rw [hlogical]; exact Nat.two_pow_pos 30
  rw [hN, Nat.mul_div_cancel_left _ hposL, ← hmul]
  rw [show b.pagesPerLogicalPage * b.pageSize * N = N * b.pagesPerLogicalPage * b.pageSize by ring,
    Nat.mul_div_cancel _ hpos]

variable {head : Nat → Nat}

/-- The map holds the heads of the huge pages only. -/
theorem HugePages.mem_map (hpage : host.PageSizes) (hb : Built host true b)
    (h : HugePages host b head) {e : Nat × Nat} (he : e ∈ populateFrameToPageMap host b) :
    ∃ j < b.poolSize / b.logicalPageSize, e = (head j, b.pointer + j * b.logicalPageSize) := by
  obtain ⟨hpages, hmul⟩ := hb.poolPages_eq hpage
  have hratio := hb.two_le_pagesPerLogicalPage hpage
  obtain ⟨idx, hidx, hcounted, rfl⟩ := (hb.populated hpage host).mem e he
  rw [hpages] at hidx
  have hj : idx / b.pagesPerLogicalPage < b.poolSize / b.logicalPageSize :=
    Nat.div_lt_of_lt_mul (by rwa [Nat.mul_comm])
  have hr : idx % b.pagesPerLogicalPage < b.pagesPerLogicalPage := Nat.mod_lt _ (by omega)
  have hframe := h.frame _ hj _ hr
  rw [Nat.div_add_mod'] at hframe
  have hflag := h.flag _ hj _ hr
  rw [← hframe, hcounted hb.isLargeBuffer] at hflag
  have hzero : idx % b.pagesPerLogicalPage = 0 := of_decide_eq_true hflag.symm
  refine ⟨_, hj, Prod.ext ?_ ?_⟩
  · rw [hframe, hzero, Nat.add_zero]
  · rw [pageAt, ← hmul, ← Nat.mul_assoc, Nat.div_mul_cancel (Nat.dvd_of_mod_eq_zero hzero)]

theorem HugePages.not_successor (hpage : host.PageSizes) (hb : Built host true b)
    (h : HugePages host b head) {f x y : Nat} (hx : (f, x) ∈ populateFrameToPageMap host b)
    (hy : (f + 1, y) ∈ populateFrameToPageMap host b) : False := by
  have hratio := hb.two_le_pagesPerLogicalPage hpage
  obtain ⟨j, hj, heq⟩ := h.mem_map hpage hb hx
  obtain ⟨j', hj', heq'⟩ := h.mem_map hpage hb hy
  have hnot := h.flag j hj 1 (by omega)
  have hhead := h.flag j' hj' 0 (by omega)
  rw [← (Prod.mk.inj heq).1] at hnot
  rw [Nat.add_zero, ← (Prod.mk.inj heq').1, hnot] at hhead
  simp at hhead

/-- A search for two huge pages or more does not find them. -/
theorem HugePages.not_found (hpage : host.PageSizes) (hb : Built host true b)
    (h : HugePages host b head) {k : Nat} (hk : b.requiredPages + 1 = k) (htwo : 2 ≤ k)
    {slabs : List Nat} (hnodup : slabs.Nodup) :
    b.findContiguousRange host ≠ .ok (.ok, slabs) := by
  intro hfound
  obtain ⟨-, hfound⟩ := findContiguousRange_eq_ok.mp hfound
  have hasc : Ascending (populateFrameToPageMap host b) := (hb.populated hpage host).ascending
  have hnot : ∀ {f x y}, (f, x) ∈ populateFrameToPageMap host b →
      (f + 1, y) ∈ populateFrameToPageMap host b → False := h.not_successor hpage hb
  revert hfound hasc hnot
  cases populateFrameToPageMap host b with
  | nil => simp [searchFrames]
  | cons e rest =>
    obtain ⟨pfn, vpn⟩ := e
    intro hfound hasc hnot
    by_cases hone : pfn = 1
    · subst hone
      obtain ⟨r, hr, hsearched⟩ := searchFrames_sentinel hk htwo hasc
      obtain rfl := Except.ok.inj (hr.symm.trans hfound)
      obtain ⟨-, f, hrun⟩ := hsearched.resolve_right fun hnone => by cases hnone.1
      have hmem : ∀ i < 2, ∃ x, slabs[i]? = some x ∧ (f + i, x) ∈ (0, vpn) :: (1, vpn) :: rest := by
        intro i hi
        have hlt : i < slabs.length := by rw [hrun.length]; omega
        exact ⟨_, List.getElem?_eq_getElem hlt, hrun.run i _ (List.getElem?_eq_getElem hlt)⟩
      obtain ⟨x, hx, hx'⟩ := hmem 0 (by omega)
      obtain ⟨y, hy, hy'⟩ := hmem 1 (by omega)
      have hlower : ∀ {g page}, 0 < g → (g, page) ∈ (0, vpn) :: (1, vpn) :: rest →
          (g, page) ∈ (1, vpn) :: rest := fun hg hmem =>
        (List.mem_cons.mp hmem).resolve_left fun heq => hg.ne' (Prod.mk.inj heq).1
      rcases Nat.eq_zero_or_pos f with rfl | hf
      · -- Both pages are the page of frame 1.
        have hxv : x = vpn := by
          rcases List.mem_cons.mp hx' with heq | hrest
          · exact (Prod.mk.inj heq).2
          · have := (eq_of_mem_of_le hasc hrest (by omega)).1
            omega
        have hyv : y = vpn := (eq_of_mem_of_le hasc (hlower (by omega) hy') (by omega)).2
        have heq := (List.getElem?_inj (by rw [hrun.length]; omega) hnodup).mp
          ((hx.trans (congrArg some (hxv.trans hyv.symm))).trans hy.symm)
        omega
      · exact hnot (hlower hf hx') (hlower (by omega) hy')
    · obtain ⟨r, hr, hsearched⟩ := searchFrames_searched hk hasc (Or.inl hone)
      obtain rfl := Except.ok.inj (hr.symm.trans hfound)
      obtain ⟨-, f, hrun⟩ := hsearched.resolve_right fun hnone => by cases hnone.1
      obtain ⟨x, hx⟩ := hrun.hasRun 0 (by omega)
      obtain ⟨y, hy⟩ := hrun.hasRun 1 (by omega)
      exact hnot hx hy

theorem HugePages.single (hpage : host.PageSizes) (hb : Built host true b)
    (h : HugePages host b head) (hone : b.poolSize / b.logicalPageSize = 1) :
    populateFrameToPageMap host b = [(head 0, b.pointer)] := by
  obtain ⟨hpages, -⟩ := hb.poolPages_eq hpage
  have hratio := hb.two_le_pagesPerLogicalPage hpage
  have hspec := hb.populated hpage host
  rw [hpages, hone, Nat.one_mul] at hspec
  have hframe : ∀ r < b.pagesPerLogicalPage, frameAt host b r = head 0 + r := by
    intro r hr
    have hr' := h.frame 0 (by omega) r hr
    rwa [Nat.zero_mul, Nat.zero_add] at hr'
  have hmem : (head 0, b.pointer) ∈ populateFrameToPageMap host b := by
    have hmem' := hspec.complete (fun i hi j hj heq => by
      rw [hframe i hi, hframe j hj] at heq
      exact Nat.add_left_cancel heq) 0 (by omega) fun _ => by
        rw [hframe 0 (by omega), h.flag 0 (by omega) 0 (by omega)]
        rfl
    rwa [hframe 0 (by omega), pageAt, Nat.zero_mul] at hmem'
  have hall : ∀ e ∈ populateFrameToPageMap host b, e = (head 0, b.pointer) := by
    intro e he
    obtain ⟨j, hj, rfl⟩ := h.mem_map hpage hb he
    rw [show j = 0 by omega, Nat.zero_mul, Nat.add_zero]
  have hnodup : (populateFrameToPageMap host b).Nodup := List.Nodup.of_map _ hspec.pages_nodup
  refine List.perm_singleton.mp ((List.perm_ext_iff_of_nodup hnodup (List.nodup_singleton _)).mpr
    fun e => ⟨fun he => List.mem_singleton.mpr (hall e he), fun he => ?_⟩)
  rwa [List.mem_singleton.mp he]

/-- A buffer that needs one huge page gets it. -/
theorem HugePages.searchFrames_single (hpage : host.PageSizes) (hb : Built host true b)
    (h : HugePages host b head) (hpos : 0 < b.bufferSize)
    (hone : pagesFor b.bufferSize page1GB = 1) :
    b.searchFrames (populateFrameToPageMap host b) = .ok (.ok, [b.pointer]) := by
  have hlt : b.bufferSize + (2 ^ 30 - 1) < sizeRange := by
    simp only [pagesFor, page1GB, sizeRange] at hone ⊢
    omega
  have hrequired : b.requiredPages + 1 = pagesFor b.bufferSize page1GB :=
    requiredPages_of_lt (by decide) hb.logicalPageSize hpos hlt
  rw [h.single hpage hb ((hb.poolPages_large hlt).trans hone), searchFrames_cons]
  simp [findContiguousLoop, show b.requiredPages = 0 by omega]

theorem Adjacent.nodup (hratio : 0 < b.pagesPerLogicalPage) {k : Nat} {order : List Nat}
    (h : Adjacent b head k order) : order.Nodup := by
  have hnext : (order.map head).IsChain (· < ·) := by
    refine List.isChain_iff_getElem.mpr fun i hi => ?_
    rw [List.length_map] at hi
    rw [List.getElem_map, List.getElem_map, h.next i _ _ (List.getElem?_eq_getElem (by omega))
      (List.getElem?_eq_getElem hi)]
    omega
  have hpairwise : (order.map head).Pairwise (· < ·) := List.isChain_iff_pairwise.mp hnext
  exact List.Nodup.of_map head (hpairwise.imp fun hlt => hlt.ne)

/-! ## When adjacent huge pages are found -/

theorem built_alignPointer (hpage : host.PageSizes) (isLarge : Bool) (size : Nat)
    (contiguous : Bool) :
    Built host isLarge (allocated host isLarge size contiguous).alignPointer := by
  obtain ⟨s, -, hs, hsize⟩ := hpage
  unfold alignPointer
  split
  case isFalse hzero =>
    refine ⟨by simp, by simp, by simp, by simp, ?_⟩
    exact Nat.dvd_of_mod_eq_zero (not_not.mp hzero)
  case isTrue hne =>
    refine ⟨by simp, by simp, by simp, by simp, ?_⟩
    simp only [allocated_pageSize, allocated_logicalPageSize]
    cases isLarge with
    | false =>
      rw [if_neg Bool.false_ne_true, hsize]
      exact dvd_roundToAlignment _ (by omega)
    | true =>
      rw [if_pos rfl, hsize]
      exact (Nat.pow_dvd_pow 2 hs.le).trans (dvd_roundToAlignment _ (by decide))

/-- For every buffer on huge pages and every assignment of frames to them: `k` adjacent huge pages,
as many as the buffer needs, are found if and only if what the caller takes for the status of
`Populate_frame_to_page_map` is `OK`, and `k` is 1. -/
theorem hugePages_found_iff (hpage : host.PageSizes) (hb : Built host true b)
    (hpos : 0 < b.bufferSize) (hsize : b.bufferSize < sizeRange) (h : HugePages host b head)
    {order : List Nat} (horder : Adjacent b head (pagesFor b.bufferSize page1GB) order) :
    b.findContiguousRange host =
        .ok (.ok, order.map fun j => b.pointer + j * b.logicalPageSize) ↔
      host.populateEnd = .noReturn .ok ∧ pagesFor b.bufferSize page1GB = 1 := by
  have hk : 0 < pagesFor b.bufferSize page1GB :=
    Nat.div_pos (by unfold page1GB; omega) (Nat.two_pow_pos 30)
  obtain ⟨first, rest, rfl⟩ : ∃ first rest, order = first :: rest :=
    List.exists_cons_of_length_pos (horder.length ▸ hk)
  have hfirst := horder.inPool first List.mem_cons_self
  have hlt := hb.lt_of_poolPages_pos hsize (Nat.zero_lt_of_lt hfirst)
  have hpool := hb.poolPages_large hlt
  have hrequired : b.requiredPages + 1 = pagesFor b.bufferSize page1GB :=
    requiredPages_of_lt (by decide) hb.logicalPageSize hpos hlt
  have hlogical : 0 < b.logicalPageSize := by
    rw [hb.logicalPageSize]
    exact Nat.two_pow_pos 30
  constructor
  · intro hfound
    refine ⟨(findContiguousRange_eq_ok.mp hfound).1, ?_⟩
    by_contra hne
    have hnodup := horder.nodup (Nat.zero_lt_of_lt (hb.two_le_pagesPerLogicalPage hpage))
    refine h.not_found hpage hb hrequired (by omega) (hnodup.map fun i j hij => ?_) hfound
    exact Nat.eq_of_mul_eq_mul_right hlogical (Nat.add_left_cancel hij)
  · rintro ⟨hend, hone⟩
    rw [hone] at hpool
    obtain rfl : first = 0 := by omega
    obtain rfl : rest = [] := by
      have hlength := horder.length
      rw [hone, List.length_cons] at hlength
      exact List.eq_nil_of_length_eq_zero (by omega)
    rw [findContiguousRange_eq_ok]
    refine ⟨hend, (h.searchFrames_single hpage hb hpos hone).trans ?_⟩
    simp

theorem hugePages_identity (hb : Built Host.identity true b) (hpointer : b.pointer = page1GB) :
    HugePages Host.identity b fun j => (j + 1) * 2 ^ 18 := by
  have hratio : b.pagesPerLogicalPage = 2 ^ 18 := by
    rw [pagesPerLogicalPage, hb.logicalPageSize, hb.pageSize]
    rfl
  have hpool : b.poolSize / b.logicalPageSize < 2 ^ 34 := by
    have hlt : b.poolSize < sizeRange := by
      rw [hb.poolSize, poolSizeFor_large]
      exact lt_of_le_of_lt Nat.and_le_left (Nat.mod_lt _ (by decide))
    have hlogical : b.logicalPageSize = 2 ^ 30 := hb.logicalPageSize
    rw [hlogical]
    exact Nat.div_lt_of_lt_mul (hlt.trans_eq (by decide))
  constructor
  · intro j hj r hr
    rw [hratio] at hr ⊢
    rw [frameAt, hpointer, hb.pageSize, show page1GB / Host.identity.pageSize = 2 ^ 18 by decide,
      Host.frame_identity (by omega)]
    omega
  · intro j hj r hr
    rw [hratio] at hr
    have hmod : ((j + 1) * 2 ^ 18 + r) % 2 ^ 18 = r := by omega
    rw [Host.kpageflags_identity, hmod]
    by_cases hr0 : r = 0 <;> simp [hr0]

theorem blockFor_identity {size : Nat} (hpos : 0 < size) (hlt : size + (2 ^ 30 - 1) < sizeRange) :
    blockFor Host.identity true size = page1GB := by
  have hpool : poolSizeFor Host.identity true size ≠ 0 := by
    rw [poolSizeFor_large, poolSize1GB, Nat.zero_add, Nat.mod_eq_of_lt (by omega)]
    exact (hpos.trans_le (le_roundToAlignment (by decide) hlt)).ne'
  have hmmap : Host.identity.mmap (poolSizeFor Host.identity true size) = some page1GB :=
    if_neg hpool
  rw [blockFor_large, hmmap, Option.getD_some]

theorem pointer_identity {size : Nat} (hpos : 0 < size) (hlt : size + (2 ^ 30 - 1) < sizeRange)
    (contiguous : Bool) :
    (allocated Host.identity true size contiguous).alignPointer.pointer = page1GB := by
  have hpointer : (allocated Host.identity true size contiguous).pointer = page1GB :=
    (allocated_pointer _ _ _ _).trans (blockFor_identity hpos hlt)
  have hdvd : Host.identity.pageSize ∣ page1GB := by decide
  rw [alignPointer_of_dvd, hpointer]
  rw [allocated_pageSize, hpointer]
  exact hdvd

/-- A huge page for 1KB. -/
theorem hugePages_found_iff_one :
    let b := (allocated Host.identity true 1024 true).alignPointer
    b.findContiguousRange Host.identity = .ok (.ok, [b.pointer]) := by
  intro b
  have hb : Built Host.identity true b := built_alignPointer Host.identity_pageSizes _ _ _
  have hsize : b.bufferSize = 1024 := by simp [b]
  have hk : pagesFor b.bufferSize page1GB = 1 := by rw [hsize]; decide
  have hpool : b.poolSize / b.logicalPageSize = 1 :=
    (hb.poolPages_large (by rw [hsize]; decide)).trans hk
  have horder : Adjacent b (fun j => (j + 1) * 2 ^ 18) (pagesFor b.bufferSize page1GB) [0] :=
    ⟨hk.symm, by simp [hpool], by simp⟩
  have hfound := (hugePages_found_iff Host.identity_pageSizes hb (by rw [hsize]; decide)
    (by rw [hsize]; decide) (hugePages_identity hb (pointer_identity (by decide) (by decide) _))
    horder).mpr ⟨rfl, hk⟩
  simpa using hfound

/-- Two adjacent huge pages for 2,048,000,000 bytes, which the search does not find, although the
helper seems to have returned `OK`. -/
theorem hugePages_adjacent_not_found :
    let b := (allocated Host.identity true 2048000000 true).alignPointer
    Host.identity.populateEnd = .noReturn .ok ∧ Built Host.identity true b ∧
      HugePages Host.identity b (fun j => (j + 1) * 2 ^ 18) ∧
      Adjacent b (fun j => (j + 1) * 2 ^ 18) (pagesFor b.bufferSize page1GB) [0, 1] ∧
        b.findContiguousRange Host.identity ≠
          .ok (.ok, [0, 1].map fun j => b.pointer + j * b.logicalPageSize) := by
  intro b
  have hb : Built Host.identity true b := built_alignPointer Host.identity_pageSizes _ _ _
  have hsize : b.bufferSize = 2048000000 := by simp [b]
  have hk : pagesFor b.bufferSize page1GB = 2 := by rw [hsize]; decide
  have hlt : b.bufferSize + (2 ^ 30 - 1) < sizeRange := by rw [hsize]; decide
  have hpool : b.poolSize / b.logicalPageSize = 2 := (hb.poolPages_large hlt).trans hk
  have hlogical : b.logicalPageSize = 2 ^ 30 := hb.logicalPageSize
  have hratio : b.pagesPerLogicalPage = 2 ^ 18 := by
    rw [pagesPerLogicalPage, hlogical, hb.pageSize]
    decide
  have hrequired : b.requiredPages + 1 = 2 :=
    (requiredPages_of_lt (by decide) hlogical (by rw [hsize]; decide) hlt).trans hk
  have h := hugePages_identity hb (pointer_identity (by decide) (by decide) _)
  refine ⟨rfl, hb, h, ⟨hk.symm, by simp [hpool], ?_⟩,
    h.not_found Host.identity_pageSizes hb hrequired le_rfl ?_⟩
  · intro i j j' hj hj'
    obtain rfl : i = 0 := by
      have hlength := (List.getElem?_eq_some_iff.mp hj').1
      simp at hlength
      omega
    simp only [List.getElem?_cons_zero, List.getElem?_cons_succ, Option.some.injEq] at hj hj'
    subst hj hj'
    rw [hratio]
    rfl
  · simp [hlogical]

end Buffer

end Cachetest
