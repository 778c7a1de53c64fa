import Cachetest.Bisection
import Cachetest.UniformDistribution
import Mathlib.Order.Interval.Finset.Nat

/-!
# The weighted draw

`WeightedUniform` of `Distribution.cc` draws line `i` of the buffer with weight `i`: `calculateCDF`
adds the weights up, and `getNextIDX` looks for the line of a random key by bisection. It returns
the last midpoint of the search rather than one of its bounds, which is the line before the right
one unless the search has come down to a window of that line alone.
-/

namespace Cachetest

open Bisection

namespace WeightedUniform

/-! ## The draw -/

/-- The members that `calculateCDF` sets. -/
structure Weights where
  cdf : List Nat
  maxValinCDF : Nat
  deriving DecidableEq, Repr

/-- `calculateCDF`. The totals of as many lines as `int` can count fit an `unsigned long long`. -/
def calculateCDF (bufferlines : Nat) : Weights :=
  let totals := (List.range bufferlines).foldl
    (fun (totals : Weights) i =>
      { cdf := totals.cdf ++ [totals.maxValinCDF + i], maxValinCDF := totals.maxValinCDF + i })
    { cdf := [], maxValinCDF := 0 }
  { totals with cdf := totals.cdf.mergeSort }

/-- `getNextIDX`, from the key on: `mid`, which stays uninitialised only if there is no line. The
sum `max + min` fits an `int`: a buffer size that does makes less than `2 ^ 28` lines, as a line has
eight bytes at least. -/
def getNextIDX (weights : Weights) (key : Nat) : Nat :=
  lastMid (fun mid => key < weights.cdf.getD mid 0) 0 weights.cdf.length 0

/-! ## The sums of weights -/

/-- `0 + 1 + ... + i`. -/
def total (i : Nat) : Nat := i * (i + 1) / 2

theorem total_succ (i : Nat) : total (i + 1) = total i + (i + 1) := by
  have h : (i + 1) * (i + 1 + 1) = i * (i + 1) + 2 * (i + 1) := by ring
  rw [total, total, h, Nat.add_mul_div_left _ _ Nat.two_pos]

theorem total_mono : Monotone total :=
  monotone_nat_of_le_succ fun i => total_succ i ▸ Nat.le_add_right _ _

theorem foldl_totals (n : Nat) :
    (List.range n).foldl
      (fun (totals : Weights) i =>
        { cdf := totals.cdf ++ [totals.maxValinCDF + i], maxValinCDF := totals.maxValinCDF + i })
      { cdf := [], maxValinCDF := 0 } =
      { cdf := (List.range n).map total, maxValinCDF := total (n - 1) } := by
  induction n with
  | zero => rfl
  | succ n ih =>
    have htotal : total (n - 1) + n = total n := by
      cases n with
      | zero => rfl
      | succ n => exact (total_succ n).symm
    rw [List.range_succ, List.foldl_append, ih, List.foldl_cons, List.foldl_nil, htotal,
      List.map_append, Nat.add_sub_cancel]
    rfl

theorem calculateCDF_eq (n : Nat) :
    calculateCDF n = { cdf := (List.range n).map total, maxValinCDF := total (n - 1) } := by
  have hsorted : ((List.range n).map total).Pairwise fun a b => decide (a ≤ b) = true := by
    refine List.pairwise_map.mpr (List.pairwise_lt_range.imp fun h => ?_)
    rw [decide_eq_true_iff]
    exact total_mono h.le
  rw [calculateCDF, foldl_totals, List.mergeSort_of_pairwise hsorted]

theorem cdf_getD {n i : Nat} (hi : i < n) : (calculateCDF n).cdf.getD i 0 = total i := by
  simp [calculateCDF_eq, List.getD_eq_getElem?_getD, hi]

/-! ## The keys of a line -/

/-- The keys for which `i` is the least index with `key < cdf[i]`. -/
def keys (i : Nat) : Finset Nat := Finset.Ico (total (i - 1)) (total i)

theorem card_keys (i : Nat) : (keys i).card = i := by
  rw [keys, Nat.card_Ico]
  cases i with
  | zero => rfl
  | succ i => rw [Nat.add_sub_cancel, total_succ, Nat.add_sub_cancel_left]

variable {n i key : Nat}

theorem pos_of_mem_keys (hkey : key ∈ keys i) : 0 < i := by
  by_contra hzero
  rw [Nat.eq_zero_of_not_pos hzero] at hkey
  exact absurd (Finset.mem_Ico.mp hkey).2 (Nat.not_lt_zero key)

theorem lt_of_mem_keys (hi : i < n) (hkey : key ∈ keys i) :
    key < (calculateCDF n).maxValinCDF := by
  rw [calculateCDF_eq]
  exact (Finset.mem_Ico.mp hkey).2.trans_le (total_mono (by omega))

theorem exists_mem_keys (hkey : key < (calculateCDF n).maxValinCDF) : ∃ i < n, key ∈ keys i := by
  rw [calculateCDF_eq] at hkey
  have hexists : ∃ i, key < total i := ⟨_, hkey⟩
  have hle : Nat.find hexists ≤ n - 1 := Nat.find_min' hexists hkey
  have hpos : 0 < n - 1 := by
    by_contra hzero
    rw [Nat.eq_zero_of_not_pos hzero] at hkey
    exact Nat.not_lt_zero _ hkey
  refine ⟨Nat.find hexists, by omega, Finset.mem_Ico.mpr ⟨?_, Nat.find_spec hexists⟩⟩
  rcases Nat.eq_zero_or_pos (Nat.find hexists) with hzero | hpos
  · rw [hzero]
    exact Nat.zero_le _
  · exact Nat.le_of_not_lt (Nat.find_min hexists (Nat.sub_lt hpos Nat.one_pos))

theorem mem_keys_unique {j : Nat} (hi : key ∈ keys i) (hj : key ∈ keys j) : i = j := by
  have hle : ∀ {i j}, key ∈ keys i → key ∈ keys j → i ≤ j := by
    intro i j hi hj
    by_contra hlt
    have hmono := total_mono (show j ≤ i - 1 by omega)
    exact absurd ((Finset.mem_Ico.mp hj).2.trans_le (hmono.trans (Finset.mem_Ico.mp hi).1))
      (Nat.lt_irrefl _)
  exact le_antisymm (hle hi hj) (hle hj hi)

theorem isLeast_of_mem_keys (hi : i < n) (hkey : key ∈ keys i) :
    IsLeast {j | j < n ∧ key < (calculateCDF n).cdf.getD j 0} i := by
  obtain ⟨hlo, hhi⟩ := Finset.mem_Ico.mp hkey
  refine ⟨⟨hi, by rwa [cdf_getD hi]⟩, fun j hj => ?_⟩
  obtain ⟨hjn, hj⟩ := hj
  rw [cdf_getD hjn] at hj
  by_contra hlt
  exact absurd (hj.trans_le ((total_mono (show j ≤ i - 1 by omega)).trans hlo)) (Nat.lt_irrefl _)

/-! ## The search -/

/-- The search ends at the line of the key, or at the line before it. -/
theorem getNextIDX_eq (hi : i < n) (hkey : key ∈ keys i) :
    getNextIDX (calculateCDF n) key = if IsLeaf n i then i else i - 1 := by
  obtain ⟨hlo, hhi⟩ := Finset.mem_Ico.mp hkey
  have hlength : (calculateCDF n).cdf.length = n := by simp [calculateCDF_eq]
  have hsearch := lastMid_eq (fun mid => decide (key < (calculateCDF n).cdf.getD mid 0))
    (a := i) 0 (Nat.zero_lt_of_lt hi) (Nat.zero_le _) hi.le
    (fun j _ hj => by
      rw [decide_eq_false_iff_not, cdf_getD (hj.trans hi), Nat.not_lt]
      exact (total_mono (show j ≤ i - 1 by omega)).trans hlo)
    (fun j hj hjn => by
      rw [decide_eq_true_iff, cdf_getD hjn]
      exact hhi.trans_le (total_mono hj))
  rw [getNextIDX, hlength, hsearch, Nat.sub_zero, Nat.sub_zero]

theorem getNextIDX_lt (hn : 0 < n) (key : Nat) : getNextIDX (calculateCDF n) key < n := by
  by_cases hkey : key < (calculateCDF n).maxValinCDF
  · obtain ⟨i, hi, hmem⟩ := exists_mem_keys hkey
    rw [getNextIDX_eq hi hmem]
    split <;> omega
  · have hlength : (calculateCDF n).cdf.length = n := by simp [calculateCDF_eq]
    have hsearch := lastMid_eq (fun mid => decide (key < (calculateCDF n).cdf.getD mid 0))
      (a := n) 0 hn (Nat.zero_le _) le_rfl
      (fun j _ hj => by
        rw [calculateCDF_eq, Nat.not_lt] at hkey
        rw [decide_eq_false_iff_not, cdf_getD hj, Nat.not_lt]
        exact (total_mono (show j ≤ n - 1 by omega)).trans hkey)
      (fun j hj hjn => absurd hjn (Nat.not_lt.mpr hj))
    rw [Nat.sub_zero, not_isLeaf_of_le le_rfl, if_neg Bool.false_ne_true] at hsearch
    rw [getNextIDX, hlength, hsearch]
    exact Nat.sub_lt hn Nat.one_pos

/-- The search is right for the keys of the leaves, and for no others. -/
theorem isLeast_getNextIDX_iff (hkey : key < (calculateCDF n).maxValinCDF) :
    IsLeast {j | j < n ∧ key < (calculateCDF n).cdf.getD j 0} (getNextIDX (calculateCDF n) key) ↔
      ∃ i, IsLeaf n i ∧ key ∈ keys i := by
  obtain ⟨i, hi, hmem⟩ := exists_mem_keys hkey
  have hleast := isLeast_of_mem_keys hi hmem
  have hpos := pos_of_mem_keys hmem
  rw [getNextIDX_eq hi hmem]
  constructor
  · intro h
    have heq := h.unique hleast
    cases hleaf : IsLeaf n i with
    | true => exact ⟨i, hleaf, hmem⟩
    | false =>
      rw [hleaf, if_neg Bool.false_ne_true] at heq
      omega
  · rintro ⟨j, hleaf, hmem'⟩
    obtain rfl := mem_keys_unique hmem hmem'
    rwa [hleaf, if_pos rfl]

/-- The keys for which a line is drawn: its own if it is a leaf, and those of the next line if that
is not. -/
theorem filter_getNextIDX (hi : i < n) :
    {key ∈ Finset.range (calculateCDF n).maxValinCDF | getNextIDX (calculateCDF n) key = i} =
      (if IsLeaf n i then keys i else ∅) ∪
        if i + 1 < n ∧ IsLeaf n (i + 1) = false then keys (i + 1) else ∅ := by
  ext key
  rw [Finset.mem_filter, Finset.mem_range, Finset.mem_union]
  constructor
  · rintro ⟨hkey, heq⟩
    obtain ⟨j, hj, hmem⟩ := exists_mem_keys hkey
    rw [getNextIDX_eq hj hmem] at heq
    cases hleaf : IsLeaf n j with
    | true =>
      rw [hleaf, if_pos rfl] at heq
      rw [← heq, hleaf, if_pos rfl]
      exact Or.inl hmem
    | false =>
      have hpos := pos_of_mem_keys hmem
      rw [hleaf, if_neg Bool.false_ne_true] at heq
      obtain rfl : j = i + 1 := by omega
      refine Or.inr ?_
      rw [if_pos ⟨hj, hleaf⟩]
      exact hmem
  · rintro (hown | hnext)
    · split at hown
      case isTrue hleaf =>
        refine ⟨lt_of_mem_keys hi hown, ?_⟩
        rw [getNextIDX_eq hi hown, if_pos hleaf]
      case isFalse => exact absurd hown (Finset.notMem_empty key)
    · split at hnext
      case isTrue h =>
        refine ⟨lt_of_mem_keys h.1 hnext, ?_⟩
        rw [getNextIDX_eq h.1 hnext, h.2, if_neg Bool.false_ne_true, Nat.add_sub_cancel]
      case isFalse => exact absurd hnext (Finset.notMem_empty key)

/-- Line `i` is drawn for `i` keys exactly when it is a leaf or line 0, and the line after it, if
there is one, is a leaf. -/
theorem card_getNextIDX_iff (hi : i < n) :
    Finset.card {key ∈ Finset.range (calculateCDF n).maxValinCDF |
        getNextIDX (calculateCDF n) key = i} = i ↔
      (i + 1 < n → IsLeaf n (i + 1)) ∧ (i = 0 ∨ IsLeaf n i) := by
  have hdisjoint : Disjoint (keys i) (keys (i + 1)) :=
    Finset.disjoint_left.mpr fun key h h' => by
      have := mem_keys_unique h h'
      omega
  rw [filter_getNextIDX hi]
  by_cases hnext : i + 1 < n ∧ IsLeaf n (i + 1) = false
  · rw [if_pos hnext]
    have hlarge : i + 1 ≤ ((if IsLeaf n i then keys i else ∅) ∪ keys (i + 1)).card := by
      calc i + 1 = (keys (i + 1)).card := (card_keys _).symm
        _ ≤ _ := Finset.card_le_card Finset.subset_union_right
    refine iff_of_false (by omega) fun h => ?_
    rw [hnext.2] at h
    exact Bool.false_ne_true (h.1 hnext.1)
  · have hleaf : i + 1 < n → IsLeaf n (i + 1) := fun hlt => by
      by_contra hnot
      exact hnext ⟨hlt, Bool.eq_false_iff.mpr hnot⟩
    rw [if_neg hnext, Finset.union_empty]
    by_cases hown : IsLeaf n i
    · rw [if_pos hown, card_keys]
      exact iff_of_true rfl ⟨hleaf, Or.inr hown⟩
    · rw [if_neg hown, Finset.card_empty]
      constructor
      · exact fun h => ⟨hleaf, Or.inl h.symm⟩
      · exact fun h => (h.2.resolve_right hown).symm

/-- For every number of lines: the search returns the least index for the keys of the leaves only,
and a line is drawn for as many keys as its index under a condition on the leaves next to it. The
line tested first never meets either: its keys give another line, and it is drawn for another number
of keys. -/
theorem weighted_search_iff (hn : 2 ≤ n) :
    (∀ key < (calculateCDF n).maxValinCDF,
      IsLeast {j | j < n ∧ key < (calculateCDF n).cdf.getD j 0}
          (getNextIDX (calculateCDF n) key) ↔ ∃ i, IsLeaf n i ∧ key ∈ keys i) ∧
    (∀ i < n, Finset.card {key ∈ Finset.range (calculateCDF n).maxValinCDF |
        getNextIDX (calculateCDF n) key = i} = i ↔
      (i + 1 < n → IsLeaf n (i + 1)) ∧ (i = 0 ∨ IsLeaf n i)) ∧
    (∃ key < (calculateCDF n).maxValinCDF,
      ¬IsLeast {j | j < n ∧ key < (calculateCDF n).cdf.getD j 0}
        (getNextIDX (calculateCDF n) key)) ∧
    ∃ i < n, Finset.card {key ∈ Finset.range (calculateCDF n).maxValinCDF |
      getNextIDX (calculateCDF n) key = i} ≠ i := by
  have hhalf : n / 2 < n := Nat.div_lt_self (by omega) (by omega)
  have hpos : 0 < n / 2 := Nat.div_pos hn Nat.two_pos
  have hleaf := not_isLeaf_half hn
  refine ⟨fun key => isLeast_getNextIDX_iff, fun i => card_getNextIDX_iff, ?_, n / 2, hhalf, ?_⟩
  · obtain ⟨key, hkey⟩ : (keys (n / 2)).Nonempty :=
      Finset.card_pos.mp ((card_keys _).symm ▸ hpos)
    have hlt := lt_of_mem_keys hhalf hkey
    refine ⟨key, hlt, fun h => ?_⟩
    obtain ⟨i, hleaf', hmem⟩ := (isLeast_getNextIDX_iff hlt).mp h
    rw [mem_keys_unique hmem hkey, hleaf] at hleaf'
    exact Bool.false_ne_true hleaf'
  · rw [ne_eq, card_getNextIDX_iff hhalf]
    rintro ⟨-, hzero | hleaf'⟩
    · omega
    · rw [hleaf] at hleaf'
      exact Bool.false_ne_true hleaf'

/-- Of four lines the last is a leaf; 3, 4 and 5 are its keys. -/
theorem weighted_search_four_lines :
    IsLeast {j | j < 4 ∧ 5 < (calculateCDF 4).cdf.getD j 0} (getNextIDX (calculateCDF 4) 5) := by
  have hmax : 5 < (calculateCDF 4).maxValinCDF := by
    rw [calculateCDF_eq]
    decide
  have hleaf : IsLeaf 4 3 = true := (isLeaf_right (n := 4) (i := 0) (by decide)).trans isLeaf_one
  exact ((weighted_search_iff (n := 4) (by decide)).1 5 hmax).mpr ⟨3, hleaf, by decide⟩

/-- With two lines the only key belongs to line 1, and line 0 is drawn. -/
theorem weighted_search_two_lines :
    (calculateCDF 2).maxValinCDF = 1 ∧ getNextIDX (calculateCDF 2) 0 = 0 ∧
      ¬IsLeast {j | j < 2 ∧ 0 < (calculateCDF 2).cdf.getD j 0} (getNextIDX (calculateCDF 2) 0) := by
  have hdraw : getNextIDX (calculateCDF 2) 0 = 0 := by
    rw [getNextIDX_eq (i := 1) (by decide) (by decide),
      show IsLeaf 2 1 = false from not_isLeaf_half le_rfl]
    rfl
  refine ⟨by rw [calculateCDF_eq]; rfl, hdraw, fun h => ?_⟩
  rw [hdraw] at h
  obtain ⟨-, hlt⟩ := h.1
  rw [cdf_getD (by decide)] at hlt
  exact Nat.not_lt_zero 0 hlt

end WeightedUniform

end Cachetest
