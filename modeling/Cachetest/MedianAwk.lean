import Cachetest.AwkScript
import Cachetest.Dictionary
import Cachetest.OrderStatistics

/-!
# median.awk

The script is meant to print the median, the minimum and the maximum of every block of `count` rows.
After the first block `min` is never set back, `max` starts again from 0, and `nums` keeps what
`asort` left in it: a block overwrites `nums[0]` to `nums[count - 1]`, so the largest values of the
blocks before stay from `nums[count]` on and are sorted in again. And for an even `count` the median
is a computed number, which `print` shortens to six digits unless it is an integer. `printedLine` is
what the script prints for a block in closed form, and `medianAwk_iff` says for which inputs the
lines are nevertheless the ones meant.

The fields are taken to be different as `double`s when they are different.
-/

namespace Cachetest

open Blocks OrderStatistics

/-! ## The script -/

/-- An output line: `print nums[..],min,max`. Its numbers are the written ones. -/
structure MedianLine where
  median : ℚ
  min : ℚ
  max : ℚ
  deriving DecidableEq, Repr

/-- The variables of the script and the lines printed. -/
structure Sampling where
  nr : Nat := 0
  min : ℚ := 0
  max : ℚ := 0
  nums : Dictionary Nat ℚ := ∅
  printed : List MedianLine := []

/-- `asort(nums)`: the values in increasing order, numbered from 1. -/
def asort (nums : Dictionary Nat ℚ) : Dictionary Nat ℚ :=
  Dictionary.enumerate 1 (sort (Dictionary.values nums))

/-- `if(NR==1)min=max=$1;` on the row just read. -/
def firstRow (st : Sampling) (x : ℚ) : Sampling :=
  if st.nr = 1 then { st with min := x, max := x } else st

/-- The assignments made for every row: the element of `nums`, `max` and `min`. -/
def recordValue (count : Nat) (st : Sampling) (x : ℚ) : Sampling :=
  { st with
    nums := st.nums.insert (st.nr % count) x
    max := if st.max < x then x else st.max
    min := if st.min > x then x else st.min }

/-- `print (x+y) / 2`, with the sum of two `double`s. -/
def printedMean (x y : ℚ) : ℚ :=
  printNumber (Binary64.nearest (Binary64.nearest x + Binary64.nearest y) / 2)

/-- The element of the sorted array, or the mean of two, that is printed first. -/
def printedMedian (count : Nat) (nums : Dictionary Nat ℚ) : ℚ :=
  if count % 2 ≠ 0 then Dictionary.read nums ((count + 1) / 2)
  else printedMean (Dictionary.read nums (count / 2)) (Dictionary.read nums (count / 2 + 1))

/-- What is done at the end of a block. -/
def printBlock (count : Nat) (st : Sampling) : Sampling :=
  let nums := asort st.nums
  { st with
    nums := nums
    printed := st.printed ++ [⟨printedMedian count nums, st.min, st.max⟩]
    max := 0 }

/-- What the rule does with the first field of every row. -/
def recordRow (count : Nat) (st : Sampling) (x : ℚ) : Sampling :=
  recordValue count (firstRow { st with nr := st.nr + 1 } x) x

/-- The rule of the script. -/
def medianRule (count : Nat) (st : Sampling) (row : Row) : Sampling :=
  let st := recordRow count st (field row 1)
  if st.nr % count = 0 then printBlock count st else st

/-- `median.awk`: the lines it prints. -/
def medianAwk (count : Nat) (rows : List Row) : Outcome (List MedianLine) :=
  runScript count (medianRule count) Sampling.printed {} rows

/-! ## What is printed for a block -/

/-- The line meant for a block of values. -/
def medianLine (block : List ℚ) : MedianLine := ⟨median block, least block, greatest block⟩

/-- What the sorted array holds after some blocks. -/
def sortedNums (count : Nat) (earlier : List (List ℚ)) : List ℚ :=
  earlier.foldl (fun nums block => sort (block ++ nums.drop (count - 1))) []

/-- The values that the next block does not overwrite. -/
def staleNums (count : Nat) (earlier : List (List ℚ)) : List ℚ :=
  (sortedNums count earlier).drop (count - 1)

/-- What `max` starts from: nothing before the first row, then 0. -/
def maxSeed (earlier : List (List ℚ)) : List ℚ := if earlier.isEmpty then [] else [0]

/-- The median that is printed for some values by their order, of which `count` belong to a
block. -/
def printedMiddle (count : Nat) (value : Nat → ℚ) : ℚ :=
  if count % 2 = 1 then value (count / 2)
  else printedMean (value (count / 2 - 1)) (value (count / 2))

/-- The line that is printed for a block after some earlier blocks. -/
def printedLine (count : Nat) (earlier : List (List ℚ)) (block : List ℚ) : MedianLine where
  median := printedMiddle count (nth (block ++ staleNums count earlier))
  min := least (earlier.flatten ++ block)
  max := greatest (maxSeed earlier ++ block)

/-- The lines printed for some blocks. -/
def printedLines (count : Nat) (done : List (List ℚ)) : List MedianLine :=
  (List.range done.length).map fun k => printedLine count (done.take k) (done.getD k [])

theorem sortedNums_concat (count : Nat) (earlier : List (List ℚ)) (block : List ℚ) :
    sortedNums count (earlier ++ [block]) = sort (block ++ staleNums count earlier) := by
  rw [sortedNums, List.foldl_append, List.foldl_cons, List.foldl_nil, staleNums, sortedNums]

theorem printedLines_concat (count : Nat) (done : List (List ℚ)) (block : List ℚ) :
    printedLines count (done ++ [block]) =
      printedLines count done ++ [printedLine count done block] := by
  have hbefore : (List.range done.length).map (fun k =>
      printedLine count ((done ++ [block]).take k) ((done ++ [block]).getD k [])) =
        printedLines count done := by
    refine List.map_congr_left fun k hk => ?_
    have hlt := List.mem_range.mp hk
    rw [List.take_append_of_le_length hlt.le, List.getD_append _ _ _ _ hlt]
  rw [printedLines, List.length_append, List.length_singleton, List.range_succ, List.map_append,
    hbefore, List.map_singleton, List.take_left, List.getD_append_right _ _ _ _ le_rfl,
    Nat.sub_self, List.getD_cons_zero]

/-! ## The invariant -/

/-- What the variables hold when the blocks `done` are complete and the values `cur` of the next one
have been read. -/
structure Reading (count : Nat) (done : List (List ℚ)) (cur : List ℚ) (st : Sampling) : Prop where
  nr : st.nr = done.length * count + cur.length
  filled : ∀ block ∈ done, block.length = count
  min : st.min = least (done.flatten ++ cur)
  max : st.max = greatest (maxSeed done ++ cur)
  nums_zero : st.nums.lookup 0 = none
  nums_succ : ∀ i, st.nums.lookup (i + 1) = (cur ++ (sortedNums count done).drop cur.length)[i]?
  printed : st.printed = printedLines count done

theorem reading_start (count : Nat) : Reading count [] [] {} where
  nr := by simp
  filled := by simp
  min := rfl
  max := rfl
  nums_zero := rfl
  nums_succ := fun i => by simp [sortedNums]
  printed := rfl

theorem getElem?_overwrite (cur old : List ℚ) (x : ℚ) (i : Nat) :
    ((cur ++ [x]) ++ old.drop (cur ++ [x]).length)[i]? =
      if i = cur.length then some x else (cur ++ old.drop cur.length)[i]? := by
  have hlen : (cur ++ [x]).length = cur.length + 1 := by simp
  rcases Nat.lt_trichotomy i cur.length with hlt | rfl | hgt
  · rw [if_neg hlt.ne, List.append_assoc, List.getElem?_append_left hlt,
      List.getElem?_append_left hlt]
  · rw [if_pos rfl, List.append_assoc, List.getElem?_append_right le_rfl, Nat.sub_self]
    rfl
  · have hold : cur.length + 1 + (i - (cur.length + 1)) = cur.length + (i - cur.length) := by omega
    rw [if_neg hgt.ne', List.getElem?_append_right (by omega), hlen, List.getElem?_drop, hold,
      List.getElem?_append_right hgt.le, List.getElem?_drop]

theorem recordRow_eq (count : Nat) (st : Sampling) (x : ℚ) :
    recordRow count st x = {
      nr := st.nr + 1
      min := if (if st.nr + 1 = 1 then x else st.min) > x then x
        else if st.nr + 1 = 1 then x else st.min
      max := if (if st.nr + 1 = 1 then x else st.max) < x then x
        else if st.nr + 1 = 1 then x else st.max
      nums := st.nums.insert ((st.nr + 1) % count) x
      printed := st.printed } := by
  have hfirst : firstRow { st with nr := st.nr + 1 } x = { st with
      nr := st.nr + 1
      min := if st.nr + 1 = 1 then x else st.min
      max := if st.nr + 1 = 1 then x else st.max } := by
    rw [firstRow]
    split <;> rfl
  rw [recordRow, hfirst]
  rfl

theorem recordRow_nr (count : Nat) (st : Sampling) (x : ℚ) :
    (recordRow count st x).nr = st.nr + 1 := by rw [recordRow_eq]

theorem recordRow_nums (count : Nat) (st : Sampling) (x : ℚ) :
    (recordRow count st x).nums = st.nums.insert ((st.nr + 1) % count) x := by rw [recordRow_eq]

theorem recordRow_printed (count : Nat) (st : Sampling) (x : ℚ) :
    (recordRow count st x).printed = st.printed := by rw [recordRow_eq]

/-- An extreme value that the first row sets and every row may replace stays the extreme of the
values seen. -/
theorem extreme_concat {R : ℚ → ℚ → Prop} [DecidableRel R] {extreme : List ℚ → ℚ}
    (hirrefl : ∀ x, ¬R x x) (hsingle : ∀ x, extreme [x] = x)
    (hconcat : ∀ seen ≠ [], ∀ x,
      extreme (seen ++ [x]) = if R (extreme seen) x then x else extreme seen)
    {first : Prop} [Decidable first] {seen : List ℚ} (hfirst : first ↔ seen = []) (x : ℚ) :
    (if R (if first then x else extreme seen) x then x
      else if first then x else extreme seen) = extreme (seen ++ [x]) := by
  by_cases hnil : seen = []
  · simp only [if_pos (hfirst.mpr hnil), if_neg (hirrefl x), hnil, List.nil_append, hsingle]
  · simp only [if_neg (mt hfirst.mp hnil), hconcat seen hnil]

section Invariant

variable {count : Nat} {done : List (List ℚ)} {cur : List ℚ} {st : Sampling}

theorem Reading.first_iff (h : Reading count done cur st) (hcount : 1 ≤ count) :
    st.nr + 1 = 1 ↔ done = [] ∧ cur = [] := by
  rw [Nat.add_eq_right, h.nr, Nat.add_eq_zero_iff, Nat.mul_eq_zero, List.length_eq_zero_iff,
    List.length_eq_zero_iff, or_iff_left (by omega)]

theorem Reading.flatten_append_eq_nil_iff (h : Reading count done cur st) (hcount : 1 ≤ count) :
    done.flatten ++ cur = [] ↔ done = [] ∧ cur = [] := by
  rw [List.append_eq_nil_iff, List.flatten_eq_nil_iff]
  refine and_congr_left fun _ => ⟨fun hempty => ?_, fun hnil => by simp [hnil]⟩
  refine List.eq_nil_iff_forall_not_mem.mpr fun block hblock => ?_
  have hlen := h.filled block hblock
  rw [hempty block hblock, List.length_nil] at hlen
  omega

theorem maxSeed_append_eq_nil_iff (done : List (List ℚ)) (cur : List ℚ) :
    maxSeed done ++ cur = [] ↔ done = [] ∧ cur = [] := by
  cases done <;> simp [maxSeed]

theorem recordRow_min (h : Reading count done cur st) (hcount : 1 ≤ count) (x : ℚ) :
    (recordRow count st x).min = least (done.flatten ++ (cur ++ [x])) := by
  have hfirst := (h.first_iff hcount).trans (h.flatten_append_eq_nil_iff hcount).symm
  rw [recordRow_eq, ← List.append_assoc, h.min]
  exact extreme_concat (R := (· > ·)) lt_irrefl (fun _ => rfl) (fun _ => least_concat) hfirst x

theorem recordRow_max (h : Reading count done cur st) (hcount : 1 ≤ count) (x : ℚ) :
    (recordRow count st x).max = greatest (maxSeed done ++ (cur ++ [x])) := by
  have hfirst := (h.first_iff hcount).trans (maxSeed_append_eq_nil_iff done cur).symm
  rw [recordRow_eq, ← List.append_assoc, h.max]
  exact extreme_concat lt_irrefl (fun _ => rfl) (fun _ => greatest_concat) hfirst x

theorem reading_inside (h : Reading count done cur st) (hlt : cur.length + 1 < count) (row : Row) :
    Reading count done (cur ++ [field row 1]) (medianRule count st row) := by
  have hcount : 1 ≤ count := by omega
  have hnr : st.nr + 1 = done.length * count + (cur.length + 1) := by rw [h.nr, Nat.add_assoc]
  have hmod : (st.nr + 1) % count = cur.length + 1 := by
    rw [hnr, Nat.mul_add_mod_self_right, Nat.mod_eq_of_lt hlt]
  have hinside : (recordRow count st (field row 1)).nr % count ≠ 0 := by
    rw [recordRow_nr, hmod]
    exact Nat.succ_ne_zero _
  rw [medianRule, if_neg hinside]
  refine ⟨?_, h.filled, recordRow_min h hcount _, recordRow_max h hcount _, ?_, fun i => ?_, ?_⟩
  · rw [recordRow_nr, hnr, List.length_append, List.length_singleton]
  · rw [recordRow_nums, hmod, AList.lookup_insert_ne (Nat.succ_ne_zero _).symm]
    exact h.nums_zero
  · rw [recordRow_nums, hmod, getElem?_overwrite, ← h.nums_succ]
    split
    case isTrue heq => rw [heq, AList.lookup_insert]
    case isFalse hne => exact AList.lookup_insert_ne (by omega)
  · rw [recordRow_printed, h.printed]

/-- What `asort` leaves is the sorted array, numbered from 1. -/
theorem asort_eq {nums : Dictionary Nat ℚ} {cells : List ℚ}
    (h : ∀ i, nums.lookup i = cells[i]?) : asort nums = Dictionary.enumerate 1 (sort cells) := by
  rw [asort, sort_eq_of_perm (Dictionary.values_perm_of_lookup h)]

theorem read_enumerate_one (xs : List ℚ) {i : Nat} (hi : 1 ≤ i) :
    Dictionary.read (Dictionary.enumerate 1 xs) i = xs.getD (i - 1) 0 := by
  rw [Dictionary.read, Dictionary.lookup_enumerate, if_neg (by omega), List.getD_eq_getElem?_getD]

theorem printedMedian_eq {count : Nat} (hcount : 1 ≤ count) (xs : List ℚ) :
    printedMedian count (Dictionary.enumerate 1 (sort xs)) = printedMiddle count (nth xs) := by
  have hodd : count % 2 ≠ 0 ↔ count % 2 = 1 := by omega
  rw [printedMedian, printedMiddle]
  simp only [hodd]
  split
  case isTrue h =>
    have hindex : (count + 1) / 2 - 1 = count / 2 := by omega
    rw [read_enumerate_one _ (by omega), hindex, nth]
  case isFalse h =>
    rw [read_enumerate_one _ (by omega), read_enumerate_one _ (by omega), Nat.add_sub_cancel, nth,
      nth]

/-- The value that completes a block goes to `nums[0]`, and sorting leaves the block's values with
those that were not overwritten. -/
theorem asort_insert_zero (h : Reading count done cur st) (heq : cur.length + 1 = count) (x : ℚ) :
    asort (st.nums.insert 0 x) =
      Dictionary.enumerate 1 (sortedNums count (done ++ [cur ++ [x]])) := by
  have hcells : ∀ i, (st.nums.insert 0 x).lookup i =
      (x :: (cur ++ (sortedNums count done).drop cur.length))[i]? := by
    intro i
    cases i with
    | zero => exact AList.lookup_insert _
    | succ i => exact (AList.lookup_insert_ne (Nat.succ_ne_zero i)).trans (h.nums_succ i)
  have hstale : (sortedNums count done).drop cur.length = staleNums count done := by
    rw [staleNums, ← heq, Nat.add_sub_cancel]
  have hperm : (x :: (cur ++ (sortedNums count done).drop cur.length)).Perm
      ((cur ++ [x]) ++ staleNums count done) := by
    rw [hstale, List.append_assoc, List.singleton_append]
    exact List.perm_middle.symm
  rw [asort_eq hcells, sort_eq_of_perm hperm, sortedNums_concat]

/-- The row that completes a block is read, and the block's line printed. -/
theorem reading_last (h : Reading count done cur st) (heq : cur.length + 1 = count) (row : Row) :
    Reading count (done ++ [cur ++ [field row 1]]) [] (medianRule count st row) := by
  have hcount : 1 ≤ count := by omega
  have hnr : st.nr + 1 = (done.length + 1) * count := by
    rw [h.nr, Nat.succ_mul]
    omega
  have hmod : (st.nr + 1) % count = 0 := by rw [hnr, Nat.mul_mod_left]
  have hlast : (recordRow count st (field row 1)).nr % count = 0 := by rw [recordRow_nr, hmod]
  have hnums : asort (recordRow count st (field row 1)).nums =
      Dictionary.enumerate 1 (sortedNums count (done ++ [cur ++ [field row 1]])) := by
    rw [recordRow_nums, hmod, asort_insert_zero h heq]
  rw [medianRule, if_pos hlast]
  refine ⟨?_, ?_, ?_, ?_, ?_, fun i => ?_, ?_⟩
  · rw [printBlock, recordRow_nr, hnr, List.length_append, List.length_singleton]
    rfl
  · intro block hblock
    rcases List.mem_append.mp hblock with hblock | hblock
    · exact h.filled block hblock
    · rw [List.mem_singleton.mp hblock, List.length_append, List.length_singleton, heq]
  · rw [List.flatten_append, List.flatten_singleton, List.append_nil]
    exact recordRow_min h hcount _
  · have hseed : maxSeed (done ++ [cur ++ [field row 1]]) = [0] := by
      rw [maxSeed, if_neg (by simp)]
    rw [hseed]
    rfl
  · rw [printBlock, hnums, Dictionary.lookup_enumerate, if_pos Nat.zero_lt_one]
  · rw [printBlock, hnums, Dictionary.lookup_enumerate, if_neg (by omega), Nat.add_sub_cancel]
    rfl
  · rw [printBlock, hnums, sortedNums_concat, printedMedian_eq hcount, recordRow_min h hcount,
      recordRow_max h hcount, printedLines_concat, recordRow_printed, h.printed]
    rfl

end Invariant

/-- The lines the script prints, in closed form. -/
theorem medianAwk_eq {count : Nat} (hcount : 1 ≤ count) (rows : List Row) :
    medianAwk count rows = .ok (printedLines count ((blocks count rows).map (column 1))) := by
  rw [medianAwk, runScript_of_pos hcount]
  have h : Reading count ((blocks count rows).map (column 1)) (column 1 (remainder count rows))
      (rows.foldl (medianRule count) {}) := by
    refine foldl_blocks hcount
      (fun done cur st => Reading count (done.map (column 1)) (column 1 cur) st)
      (reading_start count) ?_ ?_
    · intro done cur st row _ hlt h
      rw [column_concat]
      exact reading_inside h (by rwa [column, List.length_map]) row
    · intro done cur st row _ heq h
      rw [List.map_append, List.map_singleton, column_concat]
      exact reading_last h (by rwa [column, List.length_map]) row
  rw [h.printed]

/-! ## When the lines are right -/

/-- Of the values below `v` in a block and before it, sorting leaves out the first `count - 1`. -/
theorem below_staleNums_concat (count : Nat) (v : ℚ) (earlier : List (List ℚ)) (block : List ℚ) :
    below v (staleNums count (earlier ++ [block])) =
      below v block + below v (staleNums count earlier) - (count - 1) := by
  rw [staleNums, sortedNums_concat, below_drop v (sort_pairwise _), below_sort, below_append]

/-- **How many stale values lie below a value.** The blocks before one leave at most `t` values
below `v` exactly when no run of them, up to the block, has more than `t` and `count - 1` for each
of its blocks. The number `c` of values counted besides makes the induction over the blocks go
through. -/
theorem add_below_staleNums_le_iff (count : Nat) (v : ℚ) (earlier : List (List ℚ)) (c t : Nat) :
    c + below v (staleNums count earlier) ≤ t ↔
      ∀ m ≤ earlier.length,
        c + below v (earlier.drop (earlier.length - m)).flatten ≤ t + m * (count - 1) := by
  induction earlier using List.reverseRecOn generalizing c t with
  | nil => simp [staleNums, sortedNums]
  | append_singleton earlier block ih =>
    have hsuffix : ∀ m, below v
        ((earlier ++ [block]).drop ((earlier ++ [block]).length - (m + 1))).flatten =
          below v (earlier.drop (earlier.length - m)).flatten + below v block := by
      intro m
      have hlen : (earlier ++ [block]).length - (m + 1) = earlier.length - m := by simp
      rw [hlen, List.drop_append_of_le_length (Nat.sub_le _ _), List.flatten_append,
        List.flatten_singleton, below_append]
    have hprevious := ih (c + below v block) (t + (count - 1))
    rw [below_staleNums_concat]
    constructor
    · intro hle m hm
      cases m with
      | zero => simp only [Nat.sub_zero, List.drop_length, List.flatten_nil, below_nil]; omega
      | succ m =>
        have hle' := hprevious.mp (by omega) m (by simpa using hm)
        rw [hsuffix, Nat.succ_mul]
        omega
    · intro hall
      have hzero := hall 0 (Nat.zero_le _)
      simp only [Nat.sub_zero, List.drop_length, List.flatten_nil, below_nil] at hzero
      have hle := hprevious.mpr fun m hm => by
        have hsucc := hall (m + 1) (by simpa using hm)
        rw [hsuffix, Nat.succ_mul] at hsucc
        omega
      omega

theorem mem_flatten_of_mem_sortedNums {count : Nat} {earlier : List (List ℚ)} {v : ℚ}
    (h : v ∈ sortedNums count earlier) : v ∈ earlier.flatten := by
  induction earlier using List.reverseRecOn with
  | nil => exact h
  | append_singleton earlier block ih =>
    rw [sortedNums_concat] at h
    rw [List.flatten_append, List.flatten_singleton]
    rcases List.mem_append.mp ((sort_perm _).subset h) with hblock | hstale
    · exact List.mem_append_right _ hblock
    · exact List.mem_append_left _ (ih (List.mem_of_mem_drop hstale))

/-- At most `i` values of a block are less than `v`, and with the `m` blocks before it at most
`m * (count - 1)` more, for every `m`. -/
def Few (count : Nat) (earlier : List (List ℚ)) (block : List ℚ) (i : Nat) (v : ℚ) : Prop :=
  ∀ m ≤ earlier.length,
    below v (block ++ (earlier.drop (earlier.length - m)).flatten) ≤ i + m * (count - 1)

instance (count : Nat) (earlier : List (List ℚ)) (block : List ℚ) (i : Nat) (v : ℚ) :
    Decidable (Few count earlier block i v) :=
  inferInstanceAs (Decidable (∀ m ≤ earlier.length, _))

/-- The greatest value of a block and those before it that few enough are less than. -/
def middleValue (count : Nat) (earlier : List (List ℚ)) (block : List ℚ) (i : Nat) : ℚ :=
  greatest ((block ++ earlier.flatten).filter fun v => Few count earlier block i v)

/-- When a block after some earlier ones gets the line meant for it: it has a value that no earlier
one is less than and, unless it is the first one, a value that is not negative; for an odd `count`
few enough values are less than its own middle one, and for an even `count` the greatest values that
few enough are less than (its own middle ones, or lower ones) have a mean that is written as the
median of the block. -/
structure Undisturbed (count : Nat) (earlier : List (List ℚ)) (block : List ℚ) : Prop where
  odd : count % 2 = 1 → Few count earlier block (count / 2) (nth block (count / 2))
  even : count % 2 = 0 →
    printedMean (middleValue count earlier block (count / 2 - 1))
      (middleValue count earlier block (count / 2)) = median block
  min : ∃ v ∈ block, ∀ u ∈ earlier.flatten, v ≤ u
  max : earlier ≠ [] → ∃ v ∈ block, 0 ≤ v

section Line

variable {count : Nat} {earlier : List (List ℚ)} {block : List ℚ} {i : Nat}

theorem below_staleNums_le_iff {v : ℚ} :
    below v (block ++ staleNums count earlier) ≤ i ↔ Few count earlier block i v := by
  simp only [Few, below_append]
  exact add_below_staleNums_le_iff count v earlier _ i

/-- The order statistics of a block with the stale values, told from the values read. -/
theorem nth_staleNums (hi : i < block.length) :
    nth (block ++ staleNums count earlier) i = middleValue count earlier block i := by
  have hi' : i < (block ++ staleNums count earlier).length := Nat.lt_of_lt_of_le hi (by simp)
  obtain ⟨⟨hmem, hfew⟩, hgreatest⟩ := isGreatest_nth hi'
  have hread : nth (block ++ staleNums count earlier) i ∈
      (block ++ earlier.flatten).filter fun v => Few count earlier block i v := by
    refine List.mem_filter.mpr ⟨?_, decide_eq_true (below_staleNums_le_iff.mp hfew)⟩
    exact (List.mem_append.mp hmem).elim (List.mem_append_left _) fun hstale =>
      List.mem_append_right _ (mem_flatten_of_mem_sortedNums (List.mem_of_mem_drop hstale))
  refine IsGreatest.unique ⟨hread, fun v hv => ?_⟩
    (isGreatest_greatest (List.ne_nil_of_mem hread))
  obtain ⟨-, hv⟩ := List.mem_filter.mp hv
  have hbelow := below_staleNums_le_iff.mpr (of_decide_eq_true hv)
  rw [← not_lt, nth_lt_iff hi']
  exact not_lt.mpr hbelow

/-- A middle value is the block's own one exactly when few enough values are less than that. -/
theorem middleValue_eq_iff (hi : i < block.length) :
    middleValue count earlier block i = nth block i ↔ Few count earlier block i (nth block i) := by
  rw [← nth_staleNums hi, nth_append_eq_iff hi, below_staleNums_le_iff]

theorem printedMiddle_eq_iff (hcount : 1 ≤ count) (hblock : block.length = count) :
    printedMiddle count (nth (block ++ staleNums count earlier)) = median block ↔
      (count % 2 = 1 → Few count earlier block (count / 2) (nth block (count / 2))) ∧
        (count % 2 = 0 → printedMean (middleValue count earlier block (count / 2 - 1))
          (middleValue count earlier block (count / 2)) = median block) := by
  rw [printedMiddle]
  split
  case isTrue hodd =>
    have hmiddle : median block = nth block (count / 2) := by rw [median, hblock, if_pos hodd]
    have heven : ¬count % 2 = 0 := by omega
    rw [hmiddle, nth_staleNums (by omega), middleValue_eq_iff (by omega)]
    simp [hodd]
  case isFalse hodd =>
    have heven : count % 2 = 0 := by omega
    rw [nth_staleNums (by omega), nth_staleNums (by omega)]
    simp [heven]

theorem greatest_maxSeed_iff (hne : block ≠ []) :
    greatest (maxSeed earlier ++ block) = greatest block ↔
      (earlier ≠ [] → ∃ v ∈ block, 0 ≤ v) := by
  cases earlier with
  | nil => simp [maxSeed]
  | cons first rest =>
    rw [greatest_append_eq_iff _ hne]
    simp [maxSeed]

theorem printedLine_eq_iff (hcount : 1 ≤ count) (hblock : block.length = count) :
    printedLine count earlier block = medianLine block ↔ Undisturbed count earlier block := by
  have hne : block ≠ [] := List.length_pos_iff.mp (by omega)
  rw [printedLine, medianLine, MedianLine.mk.injEq, printedMiddle_eq_iff hcount hblock,
    least_append_eq_iff _ hne, greatest_maxSeed_iff hne]
  exact ⟨fun ⟨⟨hodd, heven⟩, hmin, hmax⟩ => ⟨hodd, heven, hmin, hmax⟩,
    fun h => ⟨⟨h.odd, h.even⟩, h.min, h.max⟩⟩

end Line

theorem printedLines_eq_iff {count : Nat} (hcount : 1 ≤ count) {done : List (List ℚ)}
    (hfilled : ∀ block ∈ done, block.length = count) :
    printedLines count done = done.map medianLine ↔
      ∀ k block, done[k]? = some block → Undisturbed count (done.take k) block := by
  have hmeant : done.map medianLine =
      (List.range done.length).map fun k => medianLine (done.getD k []) := by
    refine List.ext_getElem (by simp) fun k hk _ => ?_
    rw [List.length_map] at hk
    rw [List.getElem_map, List.getElem_map, List.getElem_range, List.getD_eq_getElem _ _ hk]
  rw [hmeant, printedLines, List.map_inj_left]
  have hline : ∀ k block, done[k]? = some block →
      (printedLine count (done.take k) block = medianLine block ↔
        Undisturbed count (done.take k) block) :=
    fun k block hblock => printedLine_eq_iff hcount (hfilled block (List.mem_of_getElem? hblock))
  constructor
  · intro h k block hblock
    have hlt := (List.getElem?_eq_some_iff.mp hblock).1
    have hsame := h k (List.mem_range.mpr hlt)
    rw [List.getD_eq_getElem?_getD, hblock, Option.getD_some] at hsame
    exact (hline k block hblock).mp hsame
  · intro h k hk
    have hlt := List.mem_range.mp hk
    have hblock : done[k]? = some (done.getD k []) := by
      rw [List.getD_eq_getElem _ _ hlt, List.getElem?_eq_getElem hlt]
    exact (hline k _ hblock).mpr (h k _ hblock)

example : medianAwk 3 [[1], [2], [3], [0], [1], [2]] = .ok [⟨2, 1, 3⟩, ⟨1, 0, 2⟩] := by
  decide +kernel

/-- Negative values: `max` starts again from 0. -/
example : medianAwk 2 [[-1], [-2], [-4], [-6]] = .ok [⟨-3 / 2, -2, -1⟩, ⟨-5, -6, 0⟩] := by
  decide +kernel

/-- A mean of eight digits: the script prints `1e+06`. -/
example : medianAwk 2 [[1000001], [1000002]] = .ok [⟨1000000, 1000001, 1000002⟩] := by
  decide +kernel

end Cachetest
