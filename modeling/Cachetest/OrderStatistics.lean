import Mathlib.Algebra.Order.Field.Basic
import Mathlib.Data.List.GetD
import Mathlib.Data.List.Sort
import Mathlib.Order.Bounds.Basic

/-!
# Order statistics

The sorted form of a list, its `i`-th smallest item, its median and its extremes, and how they move
when further items are thrown in: an order statistic can only fall, and it stays as it is exactly
when no more than `i` of all the items lie below it. All of this goes through `below v xs`, the
number of items less than `v`; in a sorted list these are the first ones.
-/

namespace OrderStatistics

variable {α : Type*} [LinearOrder α]

/-! ## Sorting and counting -/

/-- The items in increasing order. -/
def sort (xs : List α) : List α := xs.insertionSort (· ≤ ·)

/-- The number of items less than `v`. -/
def below (v : α) (xs : List α) : Nat := xs.countP (· < v)

theorem sort_perm (xs : List α) : (sort xs).Perm xs := xs.perm_insertionSort _

@[simp] theorem length_sort (xs : List α) : (sort xs).length = xs.length := (sort_perm xs).length_eq

theorem sort_pairwise (xs : List α) : (sort xs).Pairwise (· ≤ ·) := List.pairwise_insertionSort _ xs

theorem sort_eq_of_perm {xs ys : List α} (h : xs.Perm ys) : sort xs = sort ys :=
  (((sort_perm xs).trans h).trans (sort_perm ys).symm).eq_of_pairwise' (sort_pairwise xs)
    (sort_pairwise ys)

@[simp] theorem below_nil (v : α) : below v [] = 0 := rfl

@[simp] theorem below_append (v : α) (xs ys : List α) :
    below v (xs ++ ys) = below v xs + below v ys := List.countP_append

@[simp] theorem below_sort (v : α) (xs : List α) : below v (sort xs) = below v xs :=
  (sort_perm xs).countP_eq _

theorem below_cons_of_not_lt {v a : α} {l : List α} (h : (a :: l).Pairwise (· ≤ ·))
    (hv : ¬a < v) : below v (a :: l) = 0 := by
  refine List.countP_eq_zero.mpr fun b hb => ?_
  rw [decide_eq_true_eq, not_lt]
  rcases List.mem_cons.mp hb with rfl | hb
  · exact not_lt.mp hv
  · exact le_trans (not_lt.mp hv) (List.rel_of_pairwise_cons h hb)

theorem below_tail (v : α) {l : List α} (h : l.Pairwise (· ≤ ·)) :
    below v l.tail = below v l - 1 := by
  cases l with
  | nil => rfl
  | cons a l =>
    rcases lt_or_ge a v with hlt | hge
    · have hcons : below v (a :: l) = below v l + 1 := List.countP_cons_of_pos (by simpa using hlt)
      rw [hcons, List.tail_cons, Nat.add_sub_cancel]
    · have hzero := below_cons_of_not_lt h (not_lt.mpr hge)
      have hcons : below v (a :: l) = below v l := List.countP_cons_of_neg (by simpa using hge)
      rw [List.tail_cons, ← hcons, hzero]

theorem below_drop (v : α) {l : List α} (h : l.Pairwise (· ≤ ·)) (n : Nat) :
    below v (l.drop n) = below v l - n := by
  induction n with
  | zero => rfl
  | succ n ih => rw [← List.tail_drop, below_tail v (h.drop), ih, Nat.sub_sub]

/-- In a sorted list the items below a value are the first ones. -/
theorem getElem_lt_iff {v : α} {l : List α} (h : l.Pairwise (· ≤ ·)) {i : Nat}
    (hi : i < l.length) : l[i] < v ↔ i < below v l := by
  have hdrop := below_drop v h i
  rw [List.drop_eq_getElem_cons hi] at hdrop
  constructor
  · intro hlt
    have hcons : below v (l[i] :: l.drop (i + 1)) = below v (l.drop (i + 1)) + 1 :=
      List.countP_cons_of_pos (by simpa using hlt)
    omega
  · intro hlt
    by_contra hnot
    have hzero := below_cons_of_not_lt (List.drop_eq_getElem_cons hi ▸ h.drop) hnot
    omega

/-! ## The `i`-th smallest item -/

/-- The `i`-th smallest item, counted from 0. -/
def nth [Zero α] (xs : List α) (i : Nat) : α := (sort xs).getD i 0

section Nth

variable [Zero α]

theorem nth_lt_iff {v : α} {xs : List α} {i : Nat} (hi : i < xs.length) :
    nth xs i < v ↔ i < below v xs := by
  have hi' : i < (sort xs).length := by rwa [length_sort]
  rw [nth, List.getD_eq_getElem _ _ hi', getElem_lt_iff (sort_pairwise xs), below_sort]

theorem nth_append_le (xs ys : List α) {i : Nat} (hi : i < xs.length) :
    nth (xs ++ ys) i ≤ nth xs i := by
  have hi' : i < (xs ++ ys).length := Nat.lt_of_lt_of_le hi (by simp)
  by_contra hlt
  have hbelow := (nth_lt_iff hi).mp (not_le.mp hlt)
  refine lt_irrefl (nth (xs ++ ys) i) ((nth_lt_iff hi').mpr ?_)
  rw [below_append]
  omega

theorem nth_mem {xs : List α} {i : Nat} (hi : i < xs.length) : nth xs i ∈ xs := by
  have hi' : i < (sort xs).length := by rwa [length_sort]
  rw [nth, List.getD_eq_getElem _ _ hi']
  exact (sort_perm xs).subset (List.getElem_mem hi')

/-- The order statistic is the greatest item that at most `i` items are less than. -/
theorem isGreatest_nth {xs : List α} {i : Nat} (hi : i < xs.length) :
    IsGreatest {v | v ∈ xs ∧ below v xs ≤ i} (nth xs i) := by
  refine ⟨⟨nth_mem hi, ?_⟩, fun v hv => ?_⟩
  · rw [← not_lt, ← nth_lt_iff hi]
    exact lt_irrefl _
  · rw [← not_lt, nth_lt_iff hi]
    exact not_lt.mpr hv.2

/-- **When further items leave an order statistic alone.** Exactly when at most `i` of all items
are less than it. -/
theorem nth_append_eq_iff {xs ys : List α} {i : Nat} (hi : i < xs.length) :
    nth (xs ++ ys) i = nth xs i ↔ below (nth xs i) (xs ++ ys) ≤ i := by
  have hi' : i < (xs ++ ys).length := Nat.lt_of_lt_of_le hi (by simp)
  rw [← not_lt, ← nth_lt_iff hi', not_lt]
  exact ⟨fun h => h.ge, fun h => le_antisymm (nth_append_le xs ys hi) h⟩

end Nth

/-! ## The median -/

section Median

variable {K : Type*} [Field K] [LinearOrder K]

/-- The median: the middle item, or the mean of the two middle items. -/
def median (xs : List K) : K :=
  if xs.length % 2 = 1 then nth xs (xs.length / 2)
  else (nth xs (xs.length / 2 - 1) + nth xs (xs.length / 2)) / 2

end Median

/-! ## Extremes -/

/-- The least item. -/
def least [Zero α] (xs : List α) : α := xs.min?.getD 0

/-- The greatest item. -/
def greatest [Zero α] (xs : List α) : α := xs.max?.getD 0

/-- A lower bound that is attained bounds a larger set exactly when the set has an item below all
the new ones. -/
theorem isLeast_union_iff {s t : Set α} {a : α} (h : IsLeast s a) :
    IsLeast (t ∪ s) a ↔ ∃ v ∈ s, ∀ u ∈ t, v ≤ u := by
  constructor
  · exact fun hunion => ⟨a, h.1, fun u hu => hunion.2 (Or.inl hu)⟩
  · rintro ⟨v, hv, hle⟩
    refine ⟨Or.inr h.1, fun u hu => ?_⟩
    rcases hu with hu | hu
    · exact le_trans (h.2 hv) (hle u hu)
    · exact h.2 hu

theorem isGreatest_union_iff {s t : Set α} {a : α} (h : IsGreatest s a) :
    IsGreatest (t ∪ s) a ↔ ∃ v ∈ s, ∀ u ∈ t, u ≤ v :=
  isLeast_union_iff (α := αᵒᵈ) h

section Extremes

variable [Zero α]

theorem isLeast_least {xs : List α} (h : xs ≠ []) : IsLeast {x | x ∈ xs} (least xs) := by
  obtain ⟨m, hm⟩ := Option.isSome_iff_exists.mp (List.isSome_min?_iff.mpr h)
  rw [least, hm]
  exact List.min?_eq_some_iff.mp hm

theorem isGreatest_greatest {xs : List α} (h : xs ≠ []) :
    IsGreatest {x | x ∈ xs} (greatest xs) := by
  obtain ⟨m, hm⟩ := Option.isSome_iff_exists.mp (List.isSome_max?_iff.mpr h)
  rw [greatest, hm]
  exact List.max?_eq_some_iff.mp hm

theorem least_append_eq_iff (xs : List α) {ys : List α} (h : ys ≠ []) :
    least (xs ++ ys) = least ys ↔ ∃ v ∈ ys, ∀ u ∈ xs, v ≤ u := by
  have hunion : {x | x ∈ xs ++ ys} = {x | x ∈ xs} ∪ {x | x ∈ ys} := by ext; simp
  have hleast : IsLeast ({x | x ∈ xs} ∪ {x | x ∈ ys}) (least (xs ++ ys)) :=
    hunion ▸ isLeast_least (List.append_ne_nil_of_right_ne_nil xs h)
  refine Iff.trans ?_ (isLeast_union_iff (isLeast_least h))
  exact ⟨fun heq => heq ▸ hleast, fun hys => hleast.unique hys⟩

theorem greatest_append_eq_iff (xs : List α) {ys : List α} (h : ys ≠ []) :
    greatest (xs ++ ys) = greatest ys ↔ ∃ v ∈ ys, ∀ u ∈ xs, u ≤ v := by
  have hunion : {x | x ∈ xs ++ ys} = {x | x ∈ xs} ∪ {x | x ∈ ys} := by ext; simp
  have hgreatest : IsGreatest ({x | x ∈ xs} ∪ {x | x ∈ ys}) (greatest (xs ++ ys)) :=
    hunion ▸ isGreatest_greatest (List.append_ne_nil_of_right_ne_nil xs h)
  refine Iff.trans ?_ (isGreatest_union_iff (isGreatest_greatest h))
  exact ⟨fun heq => heq ▸ hgreatest, fun hys => hgreatest.unique hys⟩

/-- The least item is found by comparing with one item after the other. -/
theorem least_concat {xs : List α} (h : xs ≠ []) (x : α) :
    least (xs ++ [x]) = if least xs > x then x else least xs := by
  obtain ⟨y, xs, rfl⟩ := List.exists_cons_of_ne_nil h
  rw [least, least, List.cons_append, List.min?_cons', List.min?_cons', List.foldl_append]
  exact (min_comm _ _).trans (min_def_lt _ _)

theorem greatest_concat {xs : List α} (h : xs ≠ []) (x : α) :
    greatest (xs ++ [x]) = if greatest xs < x then x else greatest xs := by
  obtain ⟨y, xs, rfl⟩ := List.exists_cons_of_ne_nil h
  rw [greatest, greatest, List.cons_append, List.max?_cons', List.max?_cons', List.foldl_append]
  exact max_def_lt _ _

end Extremes

end OrderStatistics
