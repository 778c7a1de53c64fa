import Mathlib.Data.List.Induction

/-!
# Complete blocks of a list

A program that summarises its input every `n` items reads it block by block: the `k`-th block is
the items from `k * n` on, `n` of them, and what does not fill a block is left over. The invariant
rule `foldl_blocks` reduces a fold over all items to what it does with an item inside a block and
with the item that completes one.
-/

namespace Blocks

variable {α σ : Type*} {n : Nat}

/-- The complete blocks of `n` items, in order. -/
def blocks (n : Nat) (xs : List α) : List (List α) :=
  (List.range (xs.length / n)).map fun k => (xs.drop (k * n)).take n

/-- The items after the last complete block. -/
def remainder (n : Nat) (xs : List α) : List α := xs.drop (xs.length / n * n)

@[simp] theorem blocks_nil : blocks n ([] : List α) = [] := by simp [blocks]

@[simp] theorem remainder_nil : remainder n ([] : List α) = [] := by simp [remainder]

theorem length_remainder (n : Nat) (xs : List α) : (remainder n xs).length = xs.length % n := by
  rw [remainder, List.length_drop, Nat.mod_def, Nat.mul_comm]

theorem block_fits {xs : List α} {k : Nat} (hk : k < xs.length / n) : k * n + n ≤ xs.length := by
  rw [← Nat.succ_mul]
  exact Nat.le_trans (Nat.mul_le_mul_right n hk) (Nat.div_mul_le_self _ _)

theorem length_of_mem_blocks {b : List α} {xs : List α} (h : b ∈ blocks n xs) : b.length = n := by
  obtain ⟨k, hk, rfl⟩ := List.mem_map.mp h
  have hfits := block_fits (List.mem_range.mp hk)
  rw [List.length_take, List.length_drop]
  omega

theorem map_take_concat (xs : List α) (x : α) :
    ((List.range (xs.length / n)).map fun k => ((xs ++ [x]).drop (k * n)).take n) =
      blocks n xs := by
  refine List.map_congr_left fun k hk => ?_
  have hfits := block_fits (List.mem_range.mp hk)
  rw [List.drop_append_of_le_length (by omega), List.take_append_of_le_length]
  rw [List.length_drop]
  omega

theorem remainder_append (xs : List α) (x : α) :
    (xs ++ [x]).drop (xs.length / n * n) = remainder n xs ++ [x] :=
  List.drop_append_of_le_length (Nat.div_mul_le_self _ _)

/-- An item that leaves the last block incomplete joins it. -/
theorem blocks_concat_of_lt {xs : List α} {x : α} (h : (remainder n xs).length + 1 < n) :
    blocks n (xs ++ [x]) = blocks n xs ∧ remainder n (xs ++ [x]) = remainder n xs ++ [x] := by
  rw [length_remainder] at h
  have hdiv : (xs ++ [x]).length / n = xs.length / n := by
    rw [List.length_append, List.length_singleton, Nat.div_eq_iff (by omega)]
    have := Nat.div_add_mod' xs.length n
    constructor <;> omega
  exact ⟨by rw [blocks, hdiv, map_take_concat], by rw [remainder, hdiv, remainder_append]⟩

/-- The item that fills the last block completes it. -/
theorem blocks_concat_of_eq {xs : List α} {x : α} (h : (remainder n xs).length + 1 = n) :
    blocks n (xs ++ [x]) = blocks n xs ++ [remainder n xs ++ [x]] ∧
      remainder n (xs ++ [x]) = [] := by
  have hblock : (remainder n xs ++ [x]).length = n := by simpa using h
  rw [length_remainder] at h
  have hlen : (xs ++ [x]).length = (xs.length / n + 1) * n := by
    have := Nat.div_add_mod' xs.length n
    rw [List.length_append, List.length_singleton, Nat.succ_mul]
    omega
  have hdiv : (xs ++ [x]).length / n = xs.length / n + 1 := by
    rw [hlen, Nat.mul_div_cancel _ (by omega)]
  constructor
  · rw [blocks, hdiv, List.range_succ, List.map_append, map_take_concat, List.map_singleton,
      remainder_append, List.take_of_length_le (Nat.le_of_eq hblock)]
  · rw [remainder, hdiv]
    exact List.drop_eq_nil_of_le (Nat.le_of_eq hlen)

/-- **The invariant rule for blocks.** An invariant over the complete blocks and the items of the
block begun, kept by an item inside a block and by the item that completes one, holds after a fold
over all items. -/
theorem foldl_blocks {step : σ → α → σ} (hn : 0 < n) (I : List (List α) → List α → σ → Prop)
    {xs : List α} {s : σ} (hs : I [] [] s)
    (hinside : ∀ done cur s, ∀ x ∈ xs, cur.length + 1 < n → I done cur s →
      I done (cur ++ [x]) (step s x))
    (hlast : ∀ done cur s, ∀ x ∈ xs, cur.length + 1 = n → I done cur s →
      I (done ++ [cur ++ [x]]) [] (step s x)) :
    I (blocks n xs) (remainder n xs) (xs.foldl step s) := by
  induction xs using List.reverseRecOn with
  | nil => simpa using hs
  | append_singleton xs x ih =>
    have hprevious := ih
      (fun done cur s y hy => hinside done cur s y (List.mem_append_left _ hy))
      (fun done cur s y hy => hlast done cur s y (List.mem_append_left _ hy))
    have hx : x ∈ xs ++ [x] := by simp
    have hlt : (remainder n xs).length < n := by
      rw [length_remainder]
      exact Nat.mod_lt _ hn
    rw [List.foldl_append, List.foldl_cons, List.foldl_nil]
    rcases Nat.lt_or_ge ((remainder n xs).length + 1) n with h | h
    · rw [(blocks_concat_of_lt h).1, (blocks_concat_of_lt h).2]
      exact hinside _ _ _ x hx h hprevious
    · have heq : (remainder n xs).length + 1 = n := by omega
      rw [(blocks_concat_of_eq heq).1, (blocks_concat_of_eq heq).2]
      exact hlast _ _ _ x hx heq hprevious

end Blocks
