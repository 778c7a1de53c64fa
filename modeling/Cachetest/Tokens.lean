import Cachetest.CommandLine

/-!
# The tokens of a split string

Every list among the options goes through `split`, the CPU lists at three levels with a different
delimiter each. `occurrences` counts a delimiter the way one reads: from the left, going on after
its end. The loop of `split` finds exactly these occurrences, so it returns, its tokens joined by
the delimiter are the string, none of them contains the delimiter, and there is one more of them
than there are occurrences.
-/

namespace Cachetest

open Text

/-! ## Counting a delimiter -/

/-- The occurrences of `del` that do not overlap, from the left, after the first `skip`
characters. -/
def occurrencesFrom (del : Text) : Nat → Text → Nat
  | _, [] => 0
  | skip + 1, _ :: rest => occurrencesFrom del skip rest
  | 0, c :: rest =>
    if del.isPrefixOf (c :: rest) then occurrencesFrom del (del.length - 1) rest + 1
    else occurrencesFrom del 0 rest

/-- The number of left-to-right occurrences of `del` in `str` that do not overlap. -/
def occurrences (del str : Text) : Nat := occurrencesFrom del 0 str

theorem occurrencesFrom_eq_drop (del : Text) (skip : Nat) (str : Text) :
    occurrencesFrom del skip str = occurrences del (str.drop skip) := by
  induction skip generalizing str with
  | zero => rfl
  | succ skip ih =>
    cases str with
    | nil => rfl
    | cons c rest => exact ih rest

theorem occurrences_eq_zero {del str : Text} (h : ∀ i ≤ str.length, ¬del <+: str.drop i) :
    occurrences del str = 0 := by
  induction str with
  | nil => rfl
  | cons c rest ih =>
    have hhead : ¬del.isPrefixOf (c :: rest) := fun hp =>
      h 0 (Nat.zero_le _) (List.isPrefixOf_iff_prefix.mp hp)
    rw [occurrences, occurrencesFrom, if_neg hhead]
    exact ih fun i hi => h (i + 1) (Nat.succ_le_succ hi)

/-- The count goes on after the end of the first occurrence. -/
theorem occurrences_of_first {del str : Text} {it : Nat} (hdel : del ≠ [])
    (hstart : del <+: str.drop it) (hbefore : ∀ j < it, ¬del <+: str.drop j) :
    occurrences del str = occurrences del (str.drop (it + del.length)) + 1 := by
  induction it generalizing str with
  | zero =>
    cases str with
    | nil => exact absurd (List.prefix_nil.mp hstart) hdel
    | cons c rest =>
      have hhead : del.isPrefixOf (c :: rest) := List.isPrefixOf_iff_prefix.mpr hstart
      have hrest : (c :: rest).drop del.length = rest.drop (del.length - 1) := by
        rw [← Nat.succ_pred_eq_of_pos (List.length_pos_iff.mpr hdel)]
        rfl
      rw [occurrences, occurrencesFrom, if_pos hhead, occurrencesFrom_eq_drop, Nat.zero_add, hrest]
  | succ it ih =>
    cases str with
    | nil => exact absurd (List.prefix_nil.mp hstart) hdel
    | cons c rest =>
      have hhead : ¬del.isPrefixOf (c :: rest) := fun hp =>
        hbefore 0 (Nat.succ_pos _) (List.isPrefixOf_iff_prefix.mp hp)
      have hrest := ih hstart fun j hj => hbefore (j + 1) (Nat.succ_lt_succ hj)
      rw [occurrences, occurrencesFrom, if_neg hhead, Nat.succ_add, List.drop_succ_cons]
      exact hrest

/-! ## The pieces between two occurrences -/

theorem not_infix_take {del str : Text} {n : Nat} (hdel : del ≠ [])
    (hbefore : ∀ j < n, ¬del <+: str.drop j) : ¬del <:+: str.take n := by
  rintro ⟨front, back, heq⟩
  have hlength := congrArg List.length heq
  have hpos := List.length_pos_iff.mpr hdel
  simp only [List.length_append, List.length_take] at hlength
  refine hbefore front.length (by omega) ⟨back ++ str.drop n, ?_⟩
  calc del ++ (back ++ str.drop n)
      = (front ++ (del ++ (back ++ str.drop n))).drop front.length := by rw [List.drop_left]
    _ = (str.take n ++ str.drop n).drop front.length := by rw [← heq]; simp only [List.append_assoc]
    _ = str.drop front.length := by rw [List.take_append_drop]

theorem intercalate_cons {del token : Text} {tokens : List Text} (h : tokens ≠ []) :
    del.intercalate (token :: tokens) = token ++ del ++ del.intercalate tokens := by
  obtain ⟨next, rest, rfl⟩ := List.exists_cons_of_ne_nil h
  exact List.intercalate_cons_cons

/-! ## The loop -/

/-- What `split` owes for `str`: the pieces of `str` between the occurrences of `del`. -/
structure IsSplit (str del : Text) (tokens : List Text) : Prop where
  joined : del.intercalate tokens = str
  free : ∀ t ∈ tokens, ¬del <:+: t
  length : tokens.length = occurrences del str + 1

theorem IsSplit.ne_nil {str del : Text} {tokens : List Text} (h : IsSplit str del tokens) :
    tokens ≠ [] := by
  rintro rfl
  exact absurd h.length (Nat.succ_ne_zero _).symm

theorem isSplit_singleton {str del : Text} (hdel : del ≠ [])
    (h : ∀ i ≤ str.length, ¬del <+: str.drop i) : IsSplit str del [str] where
  joined := List.intercalate_singleton
  free := by
    have hpiece := not_infix_take hdel fun j (hj : j < str.length) => h j hj.le
    rw [List.take_length] at hpiece
    exact fun t ht => List.mem_singleton.mp ht ▸ hpiece
  length := by rw [occurrences_eq_zero h, List.length_singleton]

/-- A round cuts off the token before the first occurrence. -/
theorem isSplit_cons {str del : Text} {it : Nat} {tokens : List Text} (hdel : del ≠ [])
    (hstart : del <+: str.drop it) (hbefore : ∀ j < it, ¬del <+: str.drop j)
    (h : IsSplit (str.drop (it + del.length)) del tokens) :
    IsSplit str del (str.take it :: tokens) where
  joined := by
    obtain ⟨rest, hrest⟩ := hstart
    have hdrop : str.drop (it + del.length) = rest := by
      rw [← List.drop_drop, ← hrest, List.drop_left]
    calc del.intercalate (str.take it :: tokens)
        = str.take it ++ del ++ rest := by rw [intercalate_cons h.ne_nil, h.joined, hdrop]
      _ = str.take it ++ str.drop it := by rw [List.append_assoc, hrest]
      _ = str := List.take_append_drop it str
  free := by
    intro t ht
    rcases List.mem_cons.mp ht with rfl | ht
    · exact not_infix_take hdel hbefore
    · exact h.free t ht
  length := by rw [List.length_cons, h.length, ← occurrences_of_first hdel hstart hbefore]

/-- The loop of `split` from `offset` on: every round gets past the delimiter it found. -/
theorem splitLoop_isSplit {str del : Text} (hdel : del ≠ []) {rounds offset : Nat}
    (hoffset : offset ≤ str.length) (hrounds : str.length - offset < rounds) :
    ∃ tokens, splitLoop str del rounds offset = .ok tokens ∧
      IsSplit (str.drop offset) del tokens := by
  induction rounds generalizing offset with
  | zero => omega
  | succ rounds ih =>
    unfold splitLoop
    cases hfind : find str del offset with
    | none =>
      refine ⟨_, rfl, isSplit_singleton hdel fun i hi => ?_⟩
      rw [List.length_drop] at hi
      rw [List.drop_drop]
      exact find_eq_none.mp hfind (offset + i) (by omega) (Nat.le_add_right ..)
    | some it =>
      obtain ⟨hit, hle, hstart, hbefore⟩ := find_eq_some.mp hfind
      have hpos := List.length_pos_iff.mpr hdel
      have hfits := hstart.length_le
      rw [List.length_drop] at hfits
      have htoken : ((str.drop offset).take (it - offset)).length = it - offset := by
        rw [List.length_take, List.length_drop]
        omega
      -- The position the source tracks through the length of the last token is the end of `del`.
      have hnext : offset + (it - offset) + del.length = it + del.length := by omega
      obtain ⟨tokens, hrun, htokens⟩ := @ih (it + del.length) (by omega) (by omega)
      refine ⟨(str.drop offset).take (it - offset) :: tokens, ?_, ?_⟩
      · simp only [htoken, hnext, hrun]
        rfl
      · refine isSplit_cons hdel ?_ (fun j hj => ?_) ?_
        · rwa [List.drop_drop, Nat.add_sub_cancel' hle]
        · rw [List.drop_drop]
          exact hbefore (offset + j) (by omega) (Nat.le_add_right ..)
        · rwa [List.drop_drop, ← Nat.add_assoc, Nat.add_sub_cancel' hle]

/-- **Splitting at a non-empty delimiter.** `split` returns, its tokens joined by the delimiter are
the string, no token contains the delimiter, and there is one more token than there are
left-to-right occurrences that do not overlap. -/
theorem split_isSplit (str del : Text) (hdel : del ≠ []) :
    ∃ tokens, split str del = .ok tokens ∧ del.intercalate tokens = str ∧
      (∀ t ∈ tokens, ¬del <:+: t) ∧ tokens.length = occurrences del str + 1 := by
  obtain ⟨tokens, hrun, h⟩ := splitLoop_isSplit hdel (Nat.zero_le str.length) (Nat.lt_succ_self _)
  exact ⟨tokens, hrun, h.joined, h.free, h.length⟩

/-- A delimiter of two characters at both ends and twice in a row. -/
theorem split_isSplit_doubled :
    "--".toList ≠ [] ∧ ∃ tokens, split "--a----b--".toList "--".toList = .ok tokens ∧
      "--".toList.intercalate tokens = "--a----b--".toList ∧
      (∀ t ∈ tokens, ¬"--".toList <:+: t) ∧
      tokens.length = occurrences "--".toList "--a----b--".toList + 1 :=
  ⟨by decide, split_isSplit _ _ (by decide)⟩

example : split "--a----b--".toList "--".toList = .ok ([[], ['a'], [], ['b'], []]) := by decide

example : occurrences "aa".toList "aaaaa".toList = 2 ∧ occurrences "aa".toList [] = 0 := by decide

end Cachetest
