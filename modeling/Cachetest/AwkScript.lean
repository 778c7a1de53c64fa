import Cachetest.Binary64
import Cachetest.Blocks
import Cachetest.Machine

/-!
# The awk scripts

The results of repeated runs go through two scripts that print a line for every `count` rows. Both
start with the same `BEGIN` block, which insists on a `count`, and then apply one rule to each row.
A row is the list of its fields; numbers are exact, except that `print` does not write all digits of
a number that has been computed.
-/

namespace Cachetest

/-- The numeric fields of an input line. -/
abbrev Row := List ℚ

/-- `$i`, for the fields from `$1` to `$NF`. -/
def field (row : Row) (i : Nat) : ℚ := row.getD (i - 1) 0

/-- Column `i` of some rows. -/
def column (i : Nat) (rows : List Row) : List ℚ := rows.map (field · i)

theorem column_concat (i : Nat) (rows : List Row) (row : Row) :
    column i (rows ++ [row]) = column i rows ++ [field row i] := by simp [column]

/-- The `BEGIN` block of both scripts. -/
def beginBlock (count : Nat) : Outcome Unit :=
  if count = 0 then .error (.exited "use option -v count=<rowcount>\n" 1) else .ok ()

/-- A run of a script whose rule keeps the variables `σ`: the lines that `printed` finds in them. -/
def runScript {σ γ : Type} (count : Nat) (rule : σ → Row → σ) (printed : σ → List γ) (start : σ)
    (rows : List Row) : Outcome (List γ) := do
  beginBlock count
  return printed (rows.foldl rule start)

theorem runScript_of_pos {σ γ : Type} {count : Nat} (hcount : 1 ≤ count) (rule : σ → Row → σ)
    (printed : σ → List γ) (start : σ) (rows : List Row) :
    runScript count rule printed start rows = .ok (printed (rows.foldl rule start)) := by
  rw [runScript, beginBlock, if_neg (by omega)]
  rfl

/-! ## What `print` writes -/

/-- The number of `n` significant decimal digits that `%.ng` writes for `q`: the nearest one, the
even one of two. -/
def significant (n : Nat) (q : ℚ) : ℚ :=
  let unit := (10 : ℚ) ^ (Int.log 10 |q| - (n - 1))
  Binary64.roundEven (q / unit) * unit

/-- The number that `print` writes for a computed one: an integer as it is, any other by `OFMT`,
which is `%.6g`. A field is written as it was read. -/
def printNumber (q : ℚ) : ℚ := if q.den = 1 then q else significant 6 q

end Cachetest
