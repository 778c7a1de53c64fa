import Mathlib.Data.List.Nodup
import Mathlib.Data.List.Perm.Subperm
import Cachetest.Consecutive
import Cachetest.Pool

/-!
# The search for contiguous frames

`Find_contiguous_range` walks over the frames of the pool in ascending order and counts down the
pages it still needs, starting again at every gap. It returns the pages of the lowest run that is
long enough, with one exception: the previous frame is initialised to 0, so a lowest frame 1 counts
as the second frame of a run, and its page is returned twice.
-/

namespace Cachetest

open Consecutive

/-- What `Frame_to_page_map` always is: its keys are distinct frame numbers in ascending order, and
a page is in one frame only. -/
structure IsFrameMap (map : Buffer.FrameToPageMap) : Prop where
  ascending : Ascending map
  pages_nodup : (map.map Prod.snd).Nodup
  masked : ∀ e ∈ map, e.1 ≤ pagemapPfnMask

namespace Buffer

/-- The search succeeds only if the helper seems to have returned `OK`. -/
theorem findContiguousRange_eq_ok {host : Host} {b : Buffer} {slabs : List Nat} :
    b.findContiguousRange host = .ok (.ok, slabs) ↔
      host.populateEnd = .noReturn .ok ∧
        b.searchFrames (populateFrameToPageMap host b) = .ok (.ok, slabs) := by
  unfold findContiguousRange
  cases host.populateEnd with
  | seekFailed => simp
  | failed text => simp
  | noReturn status => by_cases hok : status = .ok <;> simp [hok]
  | ranOn => simp

variable {b : Buffer} {map : FrameToPageMap} {k : Nat}

/-! ## The pages required -/

/-- `⌈size / page⌉`. -/
def pagesFor (size page : Nat) : Nat := (size + (page - 1)) / page

theorem requiredPages_of_lt {s : Nat} (hs : s ≤ 64) (hpage : b.logicalPageSize = 2 ^ s)
    (hpos : 0 < b.bufferSize) (hlt : b.bufferSize + (2 ^ s - 1) < sizeRange) :
    b.requiredPages + 1 = pagesFor b.bufferSize (2 ^ s) := by
  have hpow := Nat.two_pow_pos s
  have hk : 1 ≤ pagesFor b.bufferSize (2 ^ s) :=
    Nat.div_pos (by omega) hpow
  have hle : pagesFor b.bufferSize (2 ^ s) < sizeRange :=
    (Nat.div_le_self _ _).trans_lt hlt
  rw [requiredPages, hpage, roundToAlignment_of_lt hs hlt, Nat.mul_div_cancel _ hpow]
  change (pagesFor b.bufferSize (2 ^ s) + (sizeRange - 1)) % sizeRange + 1 = _
  simp only [sizeRange] at hle ⊢
  omega

/-- When the rounding overflows, the count wraps around as well. -/
theorem requiredPages_of_ge {s : Nat} (hs : s ≤ 64) (hpage : b.logicalPageSize = 2 ^ s)
    (hsize : b.bufferSize < sizeRange) (hge : sizeRange ≤ b.bufferSize + (2 ^ s - 1)) :
    b.requiredPages = sizeRange - 1 := by
  rw [requiredPages, hpage, roundToAlignment_of_ge hs hsize hge, Nat.zero_div, Nat.zero_add,
    Nat.mod_eq_of_lt (Nat.sub_lt (by decide) Nat.one_pos)]

/-! ## The loop -/

/-- The outcome of a search for the lowest `k` consecutive frames of `map`. -/
def Searched (map : FrameToPageMap) (k : Nat) (r : ErrorCode × List Nat) : Prop :=
  (r.1 = .ok ∧ ∃ f, IsLowest map k f r.2) ∨
    (r.1 = .noContiguousRangeFound ∧ ∀ f, ¬HasRun map f k)

/-- The loop, from any of its rounds on, by induction on the frames that are left. -/
theorem findContiguousLoop_searched (hk : b.requiredPages + 1 = k) {pre post : FrameToPageMap}
    {f last required : Nat} {slabs : List Nat} (h : Scanned pre k f last slabs)
    (hrequired : required + slabs.length = k) (hasc : Ascending (pre ++ post)) :
    Searched (pre ++ post) k (findContiguousLoop b post required last slabs) := by
  induction post generalizing pre f last required slabs with
  | nil =>
    rw [findContiguousLoop]
    split
    case isTrue hzero => exact Or.inl ⟨rfl, f, h.isLowest (by omega) hasc⟩
    case isFalse hpos =>
      rw [List.append_nil]
      exact Or.inr ⟨rfl, h.not_hasRun (by omega)⟩
  | cons e post ih =>
    obtain ⟨pfn, vpn⟩ := e
    have hasc' : Ascending ((pre ++ [(pfn, vpn)]) ++ post) := by
      rwa [List.append_assoc, List.singleton_append]
    obtain ⟨x, hx⟩ := h.last_mem
    have hlt : last < pfn := (List.pairwise_append.mp hasc).2.2 _ hx _ List.mem_cons_self
    rw [show pre ++ (pfn, vpn) :: post = (pre ++ [(pfn, vpn)]) ++ post by simp] at hasc ⊢
    rw [findContiguousLoop]
    split
    case isTrue hzero =>
      rw [List.append_assoc] at hasc ⊢
      exact Or.inl ⟨rfl, f, h.isLowest (by omega) hasc⟩
    case isFalse hpos =>
      split
      case isTrue hnext =>
        subst hnext
        refine ih (h.extend (by omega) vpn) ?_ hasc
        rw [List.length_append, List.length_singleton]
        omega
      case isFalse hgap =>
        exact ih (h.restart (by omega) vpn hlt hgap) hk hasc

/-! ## The whole search -/

theorem searchFrames_cons {pfn vpn : Nat} : b.searchFrames ((pfn, vpn) :: map) =
    .ok (findContiguousLoop b ((pfn, vpn) :: map) b.requiredPages 0 [vpn]) := rfl

/-- Unless the lowest frame is 1, or for a single page, the search finds the lowest run. -/
theorem searchFrames_searched (hk : b.requiredPages + 1 = k) {pfn vpn : Nat}
    (hasc : Ascending ((pfn, vpn) :: map)) (hfirst : pfn ≠ 1 ∨ k = 1) :
    ∃ r, b.searchFrames ((pfn, vpn) :: map) = .ok r ∧ Searched ((pfn, vpn) :: map) k r := by
  have hsingle : Scanned [(pfn, vpn)] k pfn pfn [vpn] := Scanned.singleton (by omega) pfn vpn
  refine ⟨_, searchFrames_cons, ?_⟩
  rw [findContiguousLoop]
  split
  case isTrue hzero =>
    exact Or.inl ⟨rfl, pfn, hsingle.isLowest (by simp; omega) hasc⟩
  case isFalse hpos =>
    rw [if_neg (by omega)]
    exact findContiguousLoop_searched hk hsingle hk hasc

/-- A lowest frame 1 is taken for the second one of a run: the search behaves as if frame 0 were
there too, with the same page. -/
theorem searchFrames_sentinel (hk : b.requiredPages + 1 = k) (htwo : 2 ≤ k) {vpn : Nat}
    (hasc : Ascending ((1, vpn) :: map)) :
    ∃ r, b.searchFrames ((1, vpn) :: map) = .ok r ∧
      Searched ((0, vpn) :: (1, vpn) :: map) k r := by
  have hzero : Scanned [(0, vpn)] k 0 0 [vpn] := Scanned.singleton (by omega) 0 vpn
  have hasc' : Ascending ((0, vpn) :: (1, vpn) :: map) := by
    refine List.pairwise_cons.mpr ⟨fun e he => ?_, hasc⟩
    rcases List.mem_cons.mp he with rfl | hmem
    · exact Nat.one_pos
    · exact Nat.zero_lt_of_lt ((List.pairwise_cons.mp hasc).1 e hmem)
  refine ⟨_, searchFrames_cons, ?_⟩
  rw [findContiguousLoop, if_neg (by omega), if_pos rfl]
  exact findContiguousLoop_searched hk (hzero.extend (by rw [List.length_singleton]; omega) vpn)
    (by simp; omega) hasc'

theorem length_of_searched_ok {r : ErrorCode × List Nat} (h : Searched map k r) (hok : r.1 = .ok) :
    k ≤ map.length := by
  rcases h with ⟨-, f, hrun⟩ | ⟨hnone, -⟩
  · have hsub : (List.range' f k) ⊆ map.map Prod.fst := by
      intro g hg
      obtain ⟨i, hi, rfl⟩ := List.mem_range'.mp hg
      obtain ⟨x, hx⟩ := hrun.hasRun i hi
      exact List.mem_map.mpr ⟨_, hx, by simp⟩
    simpa using (List.subperm_of_subset List.nodup_range' hsub).length_le
  · rw [hok] at hnone
    cases hnone

theorem searchFrames_of_one_not_mem (hk : b.requiredPages + 1 = k) (hasc : Ascending map)
    (hne : map ≠ []) (hone : ∀ page, (1, page) ∉ map) :
    ∃ r, b.searchFrames map = .ok r ∧ Searched map k r := by
  obtain ⟨⟨pfn, vpn⟩, rest, rfl⟩ := List.exists_cons_of_ne_nil hne
  refine searchFrames_searched hk hasc (Or.inl fun heq => hone vpn ?_)
  rw [heq]
  exact List.mem_cons_self

/-- With the sentinel, a run that was found is at most one frame longer than the map. -/
theorem length_of_searchFrames_ok (hk : b.requiredPages + 1 = k) (hasc : Ascending map)
    {r : ErrorCode × List Nat} (h : b.searchFrames map = .ok r) (hok : r.1 = .ok) :
    k ≤ map.length + 1 := by
  match map, hasc, h with
  | (pfn, vpn) :: rest, hasc, h =>
    by_cases hfirst : pfn = 1 ∧ 2 ≤ k
    · obtain ⟨rfl, htwo⟩ := hfirst
      obtain ⟨r, hr, hsearched⟩ := searchFrames_sentinel hk htwo hasc
      obtain rfl := Except.ok.inj (hr.symm.trans h)
      exact length_of_searched_ok hsearched hok
    · obtain ⟨r, hr, hsearched⟩ := searchFrames_searched hk hasc (by omega)
      obtain rfl := Except.ok.inj (hr.symm.trans h)
      exact (length_of_searched_ok hsearched hok).trans (Nat.le_succ _)

/-- The frames below `2 ^ 55` are too few for a count that wrapped around. -/
theorem searchFrames_of_ge {s : Nat} (hs : s ≤ 64) (hpage : b.logicalPageSize = 2 ^ s)
    (hsize : b.bufferSize < sizeRange) (hge : sizeRange ≤ b.bufferSize + (2 ^ s - 1))
    (hmap : IsFrameMap map) (hne : map ≠ []) :
    ∃ r, b.searchFrames map = .ok r ∧ r.1 ≠ .ok := by
  have hk : b.requiredPages + 1 = sizeRange := by
    rw [requiredPages_of_ge hs hpage hsize hge]
    rfl
  have hlength : map.length + 1 < sizeRange := by
    have hsub : map.map Prod.fst ⊆ List.range (pagemapPfnMask + 1) := by
      intro f hf
      obtain ⟨e, he, rfl⟩ := List.mem_map.mp hf
      exact List.mem_range.mpr (Nat.lt_succ_of_le (hmap.masked e he))
    have hnodup : (map.map Prod.fst).Nodup :=
      List.pairwise_map.mpr (hmap.ascending.imp fun hlt => Nat.ne_of_lt hlt)
    have hle := (List.subperm_of_subset hnodup hsub).length_le
    rw [List.length_map, List.length_range] at hle
    exact (Nat.succ_le_succ hle).trans_lt (by decide)
  obtain ⟨⟨pfn, vpn⟩, rest, rfl⟩ := List.exists_cons_of_ne_nil hne
  refine ⟨_, searchFrames_cons, fun hok => ?_⟩
  exact Nat.not_lt_of_le (length_of_searchFrames_ok hk hmap.ascending searchFrames_cons hok) hlength

/-! ## When the result is right -/

/-- The result is the pages of the lowest `k` consecutive frames, or there are none. -/
def FindsLowestRun (map : FrameToPageMap) (k : Nat) (r : ErrorCode × List Nat) : Prop :=
  (r.1 = .ok ↔ ∃ f, HasRun map f k) ∧
    (r.1 = .ok → ∃ f, IsLowest map k f r.2 ∧ r.2.Nodup)

/-- The lowest frame is 1, and the frames `1, ..., k - 1` are there. -/
def HasShortRunAtOne (map : FrameToPageMap) (k : Nat) : Prop :=
  2 ≤ k ∧ ¬HasRun map 0 1 ∧ HasRun map 1 (k - 1)

theorem findsLowestRun_of_searched (hmap : IsFrameMap map) {r : ErrorCode × List Nat}
    (h : Searched map k r) : FindsLowestRun map k r := by
  rcases h with ⟨hok, f, hrun⟩ | ⟨hnone, hnot⟩
  · refine ⟨⟨fun _ => ⟨f, hrun.hasRun⟩, fun _ => hok⟩, fun _ => ⟨f, hrun, ?_⟩⟩
    rw [List.nodup_iff_injective_getElem]
    intro i j hij
    have hi := hrun.run i _ (List.getElem?_eq_getElem i.isLt)
    have hj := hrun.run j _ (List.getElem?_eq_getElem j.isLt)
    have hframes := List.inj_on_of_nodup_map hmap.pages_nodup hi hj hij
    have heq := (Prod.mk.inj hframes).1
    exact Fin.ext (by omega)
  · have hne : r.1 ≠ .ok := fun hok => by simp [hok] at hnone
    exact ⟨iff_of_false hne fun ⟨f, hf⟩ => hnot f hf, fun hok => absurd hok hne⟩

theorem eq_of_mem_of_le {pfn vpn g page : Nat} (hasc : Ascending ((pfn, vpn) :: map))
    (hmem : (g, page) ∈ (pfn, vpn) :: map) (hle : g ≤ pfn) : g = pfn ∧ page = vpn := by
  rcases List.mem_cons.mp hmem with heq | hrest
  · exact Prod.mk.inj heq
  · have hlt := (List.pairwise_cons.mp hasc).1 _ hrest
    exact absurd hle (Nat.not_le_of_lt hlt)

/-- With the sentinel as frame 0, the result is right unless the run at 1 is one frame short. -/
theorem findsLowestRun_sentinel_iff (htwo : 2 ≤ k) {vpn : Nat} {r : ErrorCode × List Nat}
    (hmap : IsFrameMap ((1, vpn) :: map)) (h : Searched ((0, vpn) :: (1, vpn) :: map) k r) :
    FindsLowestRun ((1, vpn) :: map) k r ↔ ¬HasRun ((1, vpn) :: map) 1 (k - 1) := by
  have hasc : Ascending ((0, vpn) :: (1, vpn) :: map) := by
    refine List.pairwise_cons.mpr ⟨fun e he => ?_, hmap.ascending⟩
    obtain ⟨g, page⟩ := e
    by_contra hpos
    have hzero := (eq_of_mem_of_le hmap.ascending he (by omega)).1
    omega
  have hdrop : ∀ {g page}, 0 < g → (g, page) ∈ (0, vpn) :: (1, vpn) :: map →
      (g, page) ∈ (1, vpn) :: map := fun hg hmem =>
    (List.mem_cons.mp hmem).resolve_left fun heq => hg.ne' (Prod.mk.inj heq).1
  constructor
  · intro hright hshort
    have hrun : HasRun ((0, vpn) :: (1, vpn) :: map) 0 k := by
      intro i hi
      rcases Nat.eq_zero_or_pos i with rfl | hpos
      · exact ⟨vpn, List.mem_cons_self⟩
      · obtain ⟨page, hpage⟩ := hshort (i - 1) (by omega)
        exact ⟨page, List.mem_cons_of_mem _ (by rwa [show 0 + i = 1 + (i - 1) by omega])⟩
    obtain ⟨hok, f, hlowest⟩ := h.resolve_right fun hnone => hnone.2 0 hrun
    obtain rfl : f = 0 := Nat.le_zero.mp (hlowest.lowest 0 hrun)
    -- Both of the first two pages are the page of frame 1.
    have hpage : ∀ i < 2, r.2[i]? = some vpn := by
      intro i hi
      have hlt : i < r.2.length := by rw [hlowest.length]; omega
      rw [List.getElem?_eq_getElem hlt]
      have hmem := hlowest.run i _ (List.getElem?_eq_getElem hlt)
      rw [Nat.zero_add] at hmem
      rcases Nat.eq_zero_or_pos i with rfl | hpos
      · rw [(eq_of_mem_of_le hasc hmem le_rfl).2]
      · rw [(eq_of_mem_of_le hmap.ascending (hdrop hpos hmem) (by omega)).2]
    obtain ⟨-, -, hnodup⟩ := hright.2 hok
    have hne := (List.getElem?_inj (by rw [hlowest.length]; omega) hnodup).mp
      ((hpage 0 (by omega)).trans (hpage 1 (by omega)).symm)
    omega
  · intro hshort
    refine findsLowestRun_of_searched hmap ?_
    have hmono : ∀ {g}, HasRun ((1, vpn) :: map) g k → HasRun ((0, vpn) :: (1, vpn) :: map) g k :=
      fun hg i hi => (hg i hi).imp fun _ => List.mem_cons_of_mem _
    rcases h with ⟨hok, f, hlowest⟩ | ⟨hnone, hnot⟩
    · have hpos : 0 < f := by
        refine Nat.pos_of_ne_zero fun hzero => hshort fun i hi => ?_
        obtain ⟨page, hpage⟩ := hlowest.hasRun (1 + i) (by omega)
        rw [hzero, Nat.zero_add] at hpage
        exact ⟨page, hdrop (by omega) hpage⟩
      refine Or.inl ⟨hok, f, fun i page hi => hdrop (by omega) (hlowest.run i page hi),
        hlowest.length, fun g hg => hlowest.lowest g (hmono hg)⟩
    · exact Or.inr ⟨hnone, fun f hf => hnot f (hmono hf)⟩

/-- For every map and every size: `Find_contiguous_range` succeeds if and only if the map has `k`
consecutive frames, and with the distinct pages of the lowest ones, exactly when the map does not
begin with the frames `1, ..., k - 1`; for a size that overflows in `Round_to_alignment`, exactly
when the map has no such frames. -/
theorem findsLowestRun_iff {s : Nat} (hs : s ≤ 64) (hpage : b.pageSize = 2 ^ s)
    (hlogical : b.logicalPageSize = b.pageSize) (hpos : 0 < b.bufferSize)
    (hsize : b.bufferSize < sizeRange) (hmap : IsFrameMap map) (hne : map ≠ []) :
    ∃ r, b.searchFrames map = .ok r ∧
      (FindsLowestRun map (pagesFor b.bufferSize b.pageSize) r ↔
        if b.bufferSize + (b.pageSize - 1) < sizeRange then
          ¬HasShortRunAtOne map (pagesFor b.bufferSize b.pageSize)
        else ¬∃ f, HasRun map f (pagesFor b.bufferSize b.pageSize)) := by
  rw [hpage] at hlogical ⊢
  split
  case isTrue hlt =>
    have hk := requiredPages_of_lt hs hlogical hpos hlt
    obtain ⟨⟨pfn, vpn⟩, rest, rfl⟩ := List.exists_cons_of_ne_nil hne
    by_cases hfirst : pfn = 1 ∧ 2 ≤ pagesFor b.bufferSize (2 ^ s)
    · obtain ⟨rfl, htwo⟩ := hfirst
      obtain ⟨r, hr, hsearched⟩ := searchFrames_sentinel hk htwo hmap.ascending
      refine ⟨r, hr, (findsLowestRun_sentinel_iff htwo hmap hsearched).trans ?_⟩
      have hzero : ¬HasRun ((1, vpn) :: rest) 0 1 := by
        intro hrun
        obtain ⟨page, hmem⟩ := hrun 0 Nat.one_pos
        have hone := (eq_of_mem_of_le hmap.ascending hmem (by omega)).1
        omega
      simp [HasShortRunAtOne, htwo, hzero]
    · obtain ⟨r, hr, hsearched⟩ :=
        searchFrames_searched hk hmap.ascending (by omega)
      refine ⟨r, hr, iff_of_true (findsLowestRun_of_searched hmap hsearched) ?_⟩
      rintro ⟨htwo, hzero, hrun⟩
      obtain ⟨page, hmem⟩ := hrun 0 (by omega)
      -- The lowest frame is neither 0 nor 1, so frame 1 is not there.
      have hle : pfn ≤ 1 := by
        rcases List.mem_cons.mp hmem with heq | hrest
        · exact (Prod.mk.inj heq).1 ▸ le_rfl
        · exact ((List.pairwise_cons.mp hmap.ascending).1 _ hrest).le
      obtain rfl : pfn = 0 := by omega
      exact hzero fun i hi => ⟨vpn, by simp [show i = 0 by omega]⟩
  case isFalse hge =>
    obtain ⟨r, hr, hnot⟩ :=
      searchFrames_of_ge hs hlogical hsize (Nat.le_of_not_lt hge) hmap hne
    refine ⟨r, hr, fun h hrun => hnot (h.1.mpr hrun), fun hrun => ⟨?_, fun hok => absurd hok hnot⟩⟩
    exact iff_of_false hnot hrun

/-- Two pages in the frames 3 and 4. -/
theorem findsLowestRun_iff_two_pages :
    ∃ r, (smallPool 8192).searchFrames [(3, 4096), (4, 8192)] = .ok r ∧
      FindsLowestRun [(3, 4096), (4, 8192)] 2 r := by
  have hmap : IsFrameMap [(3, 4096), (4, 8192)] :=
    ⟨by unfold Ascending; decide, by decide, by decide⟩
  obtain ⟨r, hr, hiff⟩ := findsLowestRun_iff (b := smallPool 8192) (s := 12) (by decide) rfl rfl
    (by decide) (by decide) hmap (by decide)
  refine ⟨r, hr, hiff.mpr ?_⟩
  rw [if_pos (by decide)]
  rintro ⟨-, -, hrun⟩
  obtain ⟨page, hmem⟩ := hrun 0 (by decide)
  simp at hmem

/-- A single page, in frame 1, passes for two contiguous ones. -/
theorem searchFrames_counts_sentinel :
    IsFrameMap [(1, 4096)] ∧
      (smallPool 8192).searchFrames [(1, 4096)] = .ok (.ok, [4096, 4096]) ∧
        ¬FindsLowestRun [(1, 4096)] (pagesFor (smallPool 8192).bufferSize (smallPool 8192).pageSize)
          (.ok, [4096, 4096]) := by
  refine ⟨⟨by unfold Ascending; decide, by decide, by decide⟩, ?_, ?_⟩
  · simp [searchFrames_cons, findContiguousLoop, show (smallPool 8192).requiredPages = 1 by decide]
  · rintro ⟨-, hright⟩
    obtain ⟨f, -, hnodup⟩ := hright rfl
    revert hnodup
    decide

end Buffer

end Cachetest
