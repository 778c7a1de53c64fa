import Cachetest.AwkScript
import Cachetest.Dictionary
import Cachetest.Moments
import Mathlib.Analysis.Real.Sqrt
import Mathlib.Data.Rat.Sqrt

/-!
# avg.awk

The script adds up every column and the squares of every column, and after `count` rows prints the
mean and the deviation of each column and starts again. The invariant `Averages` says what its
variables hold inside a block; a row inside a block keeps it, the row that completes the block
prints the statistics of exactly these rows and leaves the sums of an empty block.
-/

namespace Cachetest

open Blocks Moments

/-! ## The script -/

/-- The variables of the script, with the columns of the line being printed and the lines printed.
`R` is where `sqrt` takes its values. -/
structure Averaging (R : Type) where
  sum : Dictionary Nat ℚ := ∅
  sqsum : Dictionary Nat ℚ := ∅
  maxf : Nat := 0
  line : Nat := 0
  printing : List (ℚ × R) := []
  printed : List (List (ℚ × R)) := []

variable {R : Type}

/-- The first loop: `sum[i] += $i; sqsum[i] += $i * $i;`. -/
def accumulate (row : Row) (st : Averaging R) (i : Nat) : Averaging R :=
  { st with
    sum := Dictionary.add st.sum i (field row i)
    sqsum := Dictionary.add st.sqsum i (field row i * field row i) }

/-- The mean and the deviation printed for column `i`. -/
def columnResult [Zero R] (sqrt : ℚ → R) (count : Nat) (st : Averaging R) (i : Nat) : ℚ × R :=
  let avg := Dictionary.read st.sum i / count
  let var := Dictionary.read st.sqsum i / count - avg ^ 2
  (avg, if var > 0 then sqrt var else 0)

/-- The second loop: print column `i` and clear its sums. -/
def finishColumn [Zero R] (sqrt : ℚ → R) (count : Nat) (st : Averaging R) (i : Nat) : Averaging R :=
  { st with
    sum := st.sum.insert i 0
    sqsum := st.sqsum.insert i 0
    printing := st.printing ++ [columnResult sqrt count st i] }

/-- The end of a line: `printf("\n"); line = 0;`. -/
def finishLine (st : Averaging R) : Averaging R :=
  { st with printing := [], printed := st.printed ++ [st.printing], line := 0 }

/-- What the rule does with every row, before it looks whether the block is complete. -/
def countRow (st : Averaging R) (row : Row) : Averaging R :=
  let st := (List.range' 1 row.length).foldl (accumulate row) st
  { st with
    maxf := if row.length > st.maxf then row.length else st.maxf
    line := st.line + 1 }

/-- The rule of the script. -/
def avgRule [Zero R] (sqrt : ℚ → R) (count : Nat) (st : Averaging R) (row : Row) : Averaging R :=
  let st := countRow st row
  if st.line ≥ count then
    finishLine ((List.range' 1 st.maxf).foldl (finishColumn sqrt count) st)
  else st

/-- `avg.awk`: the means and deviations of each line it prints. -/
def avgAwk [Zero R] (sqrt : ℚ → R) (count : Nat) (rows : List Row) :
    Outcome (List (List (ℚ × R))) :=
  runScript count (avgRule sqrt count) Averaging.printed {} rows

theorem foldl_accumulate (row : Row) (st : Averaging R) (l : List Nat) :
    l.foldl (accumulate row) st =
      { st with
        sum := Dictionary.addAll st.sum (l.map fun i => (i, field row i))
        sqsum := Dictionary.addAll st.sqsum (l.map fun i => (i, field row i * field row i)) } := by
  induction l generalizing st with
  | nil => rfl
  | cons i l ih =>
    rw [List.foldl_cons, ih]
    rfl

/-! ## The invariant -/

/-- The line a block of rows of `n` fields deserves: the mean and the deviation of every column. -/
def averageLine (sqrt : ℚ → R) (n : Nat) (block : List Row) : List (ℚ × R) :=
  (List.range' 1 n).map fun i => (mean (column i block), sqrt (variance (column i block)))

/-- What the variables hold when the blocks `done` are complete and the rows `cur` of the next one
have been read, all of `n` fields. -/
structure Averages (sqrt : ℚ → R) (n : Nat) (done : List (List Row)) (cur : List Row)
    (st : Averaging R) : Prop where
  sum : ∀ i ∈ List.range' 1 n, Dictionary.read st.sum i = (column i cur).sum
  sqsum : ∀ i ∈ List.range' 1 n,
    Dictionary.read st.sqsum i = ((column i cur).map fun x => x * x).sum
  maxf : st.maxf = n ∨ st.maxf = 0
  line : st.line = cur.length
  printing : st.printing = []
  printed : st.printed = done.map (averageLine sqrt n)

theorem averages_start (sqrt : ℚ → R) (n : Nat) : Averages sqrt n [] [] {} where
  sum := fun _ _ => rfl
  sqsum := fun _ _ => rfl
  maxf := Or.inr rfl
  line := rfl
  printing := rfl
  printed := rfl

variable {sqrt : ℚ → R} {n : Nat} {done : List (List Row)} {cur : List Row} {st : Averaging R}

theorem averages_countRow {row : Row} (h : Averages sqrt n done cur st) (hrow : row.length = n) :
    Averages sqrt n done (cur ++ [row]) (countRow st row) ∧ (countRow st row).maxf = n := by
  have hmaxf : (if row.length > st.maxf then row.length else st.maxf) = n := by
    rw [hrow]
    rcases h.maxf with hm | hm
    · rw [hm, if_neg (Nat.lt_irrefl n)]
    · rw [hm]
      split <;> omega
  rw [countRow, foldl_accumulate, hrow]
  rw [hrow] at hmaxf
  refine ⟨⟨fun i hi => ?_, fun i hi => ?_, Or.inl hmaxf, ?_, h.printing, h.printed⟩, hmaxf⟩
  · rw [Dictionary.read_addAll List.nodup_range' (field row), if_pos hi, h.sum i hi, column_concat,
      List.sum_append, List.sum_singleton]
  · rw [Dictionary.read_addAll List.nodup_range' (fun i => field row i * field row i), if_pos hi,
      h.sqsum i hi, column_concat, List.map_append, List.sum_append, List.map_singleton,
      List.sum_singleton]
  · rw [List.length_append, List.length_singleton, ← h.line]

/-! ## The end of a block -/

variable [Zero R]

/-- What is printed for a column does not depend on the columns cleared before. -/
theorem columnResult_finishColumn (sqrt : ℚ → R) (count : Nat) (st : Averaging R) {i j : Nat}
    (h : j ≠ i) :
    columnResult sqrt count (finishColumn sqrt count st i) j = columnResult sqrt count st j := by
  simp only [columnResult, finishColumn, Dictionary.read_insert_of_ne _ _ h]

theorem foldl_finishColumn (sqrt : ℚ → R) (count : Nat) (st : Averaging R) {l : List Nat}
    (hl : l.Nodup) :
    l.foldl (finishColumn sqrt count) st =
      { st with
        sum := Dictionary.clearAll st.sum l
        sqsum := Dictionary.clearAll st.sqsum l
        printing := st.printing ++ l.map (columnResult sqrt count st) } := by
  induction l generalizing st with
  | nil => simp [Dictionary.clearAll]
  | cons i l ih =>
    obtain ⟨hi, hl⟩ := List.nodup_cons.mp hl
    have hresults : l.map (columnResult sqrt count (finishColumn sqrt count st i)) =
        l.map (columnResult sqrt count st) :=
      List.map_congr_left fun j hj =>
        columnResult_finishColumn sqrt count st (ne_of_mem_of_not_mem hj hi)
    rw [List.foldl_cons, ih _ hl, hresults, List.map_cons, List.append_cons]
    rfl

/-- **The deviation is the root of the variance.** From the sums of a complete block the script
computes its mean and, under the root, its variance. -/
theorem columnResult_eq (hsqrt : sqrt 0 = 0) (h : Averages sqrt n done cur st) {i : Nat}
    (hi : i ∈ List.range' 1 n) :
    columnResult sqrt cur.length st i =
      (mean (column i cur), sqrt (variance (column i cur))) := by
  have hlen : (column i cur).length = cur.length := List.length_map _
  have havg : Dictionary.read st.sum i / cur.length = mean (column i cur) := by
    rw [h.sum i hi, mean, hlen]
  have hvar : Dictionary.read st.sqsum i / cur.length - mean (column i cur) ^ 2 =
      variance (column i cur) := by
    rw [h.sqsum i hi, variance_eq]
    congr 1
    rw [mean, List.length_map, hlen]
  simp only [columnResult, havg, hvar]
  split
  case isTrue => rfl
  case isFalse hneg =>
    rw [le_antisymm (not_lt.mp hneg) (variance_nonneg _), hsqrt]

/-- The row that completes a block prints its line and leaves the sums of an empty block. -/
theorem averages_finish (hsqrt : sqrt 0 = 0) (h : Averages sqrt n done cur st) :
    Averages sqrt n (done ++ [cur]) []
      (finishLine ((List.range' 1 n).foldl (finishColumn sqrt cur.length) st)) := by
  have hline : (List.range' 1 n).map (columnResult sqrt cur.length st) = averageLine sqrt n cur :=
    List.map_congr_left fun i hi => columnResult_eq hsqrt h hi
  rw [foldl_finishColumn _ _ _ List.nodup_range', hline, h.printing, List.nil_append]
  refine ⟨fun i hi => ?_, fun i hi => ?_, h.maxf, rfl, rfl, ?_⟩
  · exact (Dictionary.read_clearAll _ _ _).trans (if_pos hi)
  · exact (Dictionary.read_clearAll _ _ _).trans (if_pos hi)
  · rw [finishLine, List.map_append, List.map_singleton, h.printed]

/-! ## Whole runs -/

/-- **The script's lines.** One line per complete block, from the rows of that block only. -/
theorem avgAwk_eq (hsqrt : sqrt 0 = 0) {count : Nat} (hcount : 1 ≤ count) {rows : List Row}
    (hrows : ∀ row ∈ rows, row.length = n) :
    avgAwk sqrt count rows = .ok ((blocks count rows).map (averageLine sqrt n)) := by
  rw [avgAwk, runScript_of_pos hcount]
  have h : Averages sqrt n (blocks count rows) (remainder count rows)
      (rows.foldl (avgRule sqrt count) {}) := by
    refine foldl_blocks hcount (Averages sqrt n) (averages_start sqrt n) ?_ ?_
    · intro done cur st row hmem hlt h
      have hcounted := averages_countRow h (hrows row hmem)
      have hline : (countRow st row).line = cur.length + 1 := by
        rw [hcounted.1.line, List.length_append, List.length_singleton]
      rw [avgRule, if_neg (by omega)]
      exact hcounted.1
    · intro done cur st row hmem heq h
      have hcounted := averages_countRow h (hrows row hmem)
      have hlen : (cur ++ [row]).length = count := by simpa using heq
      rw [avgRule, if_pos (by rw [hcounted.1.line, hlen]), hcounted.2, ← hlen]
      exact averages_finish hsqrt hcounted.1
  rw [h.printed]

/-- **Means and deviations, block by block.** For rows of `n` fields the script prints one line per
complete block of `count` rows: for every column the mean over the block and the square root of the
block's variance, which is not negative. -/
theorem avgAwk_blocks (count n : Nat) (rows : List Row) (hcount : 1 ≤ count)
    (hrows : ∀ row ∈ rows, row.length = n) :
    avgAwk (fun v : ℚ => √(v : ℝ)) count rows =
        .ok ((blocks count rows).map fun block => (List.range' 1 n).map fun i =>
          (mean (column i block), √((variance (column i block) : ℚ) : ℝ))) ∧
      ∀ block ∈ blocks count rows, ∀ i, 0 ≤ variance (column i block) :=
  ⟨avgAwk_eq (by rw [Rat.cast_zero, Real.sqrt_zero]) hcount hrows,
    fun _ _ _ => variance_nonneg _⟩

/-- Two blocks of two rows, and a row that is left over. -/
theorem avgAwk_blocks_pairs :
    avgAwk (fun v : ℚ => √(v : ℝ)) 2 [[1, 2], [3, 2], [5, 7], [5, 1], [8, 8]] =
        .ok ((blocks 2 [[1, 2], [3, 2], [5, 7], [5, 1], [8, 8]]).map fun block =>
          (List.range' 1 2).map fun i =>
            (mean (column i block), √((variance (column i block) : ℚ) : ℝ))) ∧
      ∀ block ∈ blocks 2 [[1, 2], [3, 2], [5, 7], [5, 1], [8, 8]],
        ∀ i, 0 ≤ variance (column i block) :=
  avgAwk_blocks 2 2 _ (by decide) (by decide)

example : avgAwk Rat.sqrt 2 [[1, 2], [3, 2], [5, 7], [5, 1], [8, 8]] =
    .ok [[(2, 1), (2, 0)], [(5, 0), (4, 3)]] := by decide +kernel

end Cachetest
