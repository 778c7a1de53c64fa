import Mathlib.Data.List.FinRange
import Cachetest.Contiguity
import Cachetest.Distribute

/-!
# Uniform mode

`uniformSubpath` keeps the indices it shuffles in the second word of every line and the path in the
first word, and turns one into the other in a single pass. The pass is followed with the order in
which the lines are visited (`lineOrder`): after `i` rounds the first `i` lines of that order are
linked, and no other line has been written yet (`Chained`).

The fill at the beginning stores a word at *every byte* of the chunk, so it reaches three bytes
past the end (`uniformSubpath_frame_iff`).
-/

namespace Cachetest

open ByteMemory Circuit

namespace SubpathDistribution

variable {d : SubpathDistribution} {rand : Randomness}

/-! ## Preparing the chunk -/

theorem writeShuffleIndices_byte (m : Memory) (base n b : Nat)
    (h : b < base + 4 ∨ base + n * 64 ≤ b ∨
      ∃ i, i < n ∧ base + i * 64 ≤ b ∧ b < base + i * 64 + 4) :
    (writeShuffleIndices m base n).byte b = m.byte b := by
  have key : ∀ k, k ≤ n - 1 → ((List.range k).foldl
      (fun m i => m.store (base + i * cacheLineStructSize + elementSize) (i + 1)) m).byte b =
        m.byte b := by
    intro k
    induction k with
    | zero => intro _; rfl
    | succ k ih =>
      intro hk
      rw [List.range_succ, List.foldl_append, List.foldl_cons, List.foldl_nil, ← ih (by omega)]
      simp only [cacheLineStructSize, elementSize]
      refine Memory.byte_store_of_outside _ _ ?_
      rcases h with h | h | ⟨i, hi, h₁, h₂⟩
      · omega
      · omega
      · omega
  exact key (n - 1) le_rfl

theorem writeShuffleIndices_load (m : Memory) (base : Nat) {n i : Nat} (hi : i < n - 1) :
    (writeShuffleIndices m base n).load (base + i * 64 + 4) = asUnsigned (i + 1) := by
  have key : ∀ k, k ≤ n - 1 → i < k → ((List.range k).foldl
      (fun m i => m.store (base + i * cacheLineStructSize + elementSize) (i + 1)) m).load
        (base + i * 64 + 4) = asUnsigned (i + 1) := by
    intro k
    induction k with
    | zero => intro _ h; omega
    | succ k ih =>
      intro hk hik
      rw [List.range_succ, List.foldl_append, List.foldl_cons, List.foldl_nil]
      simp only [cacheLineStructSize, elementSize] at ih ⊢
      by_cases hlast : i = k
      · subst hlast
        exact Memory.load_store_self _ _ _
      · rw [Memory.load_store_of_apart _ _ (by unfold Apart; omega)]
        exact ih (by omega) (by omega)
  exact key (n - 1) le_rfl hi

theorem shuffleLines_byte (m : Memory) {base count b : Nat} (σ : Equiv.Perm (Fin count))
    (h : b < base ∨ base + count * 64 ≤ b) : (shuffleLines m base count σ).byte b = m.byte b := by
  simp only [shuffleLines, cacheLineStructSize]
  rw [dif_neg (by omega)]

theorem shuffleLines_load (m : Memory) (base : Nat) {count r : Nat} (σ : Equiv.Perm (Fin count))
    (i : Fin count) (hr : r ≤ 60) :
    (shuffleLines m base count σ).load (base + i * 64 + r) =
      m.load (base + (σ i : Nat) * 64 + r) := by
  have hbyte : ∀ t < 64, (shuffleLines m base count σ).byte (base + i * 64 + t) =
      m.byte (base + (σ i : Nat) * 64 + t) := by
    intro t ht
    have hi := i.isLt
    have hdiv : (base + i * 64 + t - base) / 64 = i := by omega
    have hmod : (base + i * 64 + t - base) % 64 = t := by omega
    simp only [shuffleLines, cacheLineStructSize, hdiv, hmod]
    rw [dif_pos ⟨by omega, hi⟩]
  simp only [Memory.load]
  rw [hbyte r (by omega), Nat.add_assoc _ r 1, hbyte (r + 1) (by omega), Nat.add_assoc _ r 2,
    hbyte (r + 2) (by omega), Nat.add_assoc _ r 3, hbyte (r + 3) (by omega)]
  simp only [Nat.add_assoc]

/-- The memory `uniformSubpath` builds its path from: filled, indexed and shuffled. -/
def prepared (m : Memory) (base n : Nat) (σ : Equiv.Perm (Fin (n - 1))) : Memory :=
  shuffleLines (writeShuffleIndices (m.fillWords base (n * 64) invalidIndex) base n) base (n - 1) σ

theorem prepared_path (m : Memory) (base : Nat) {n l : Nat} (σ : Equiv.Perm (Fin (n - 1)))
    (hl : l < n) : (prepared m base n σ).load (base + l * 64) = invalidIndex := by
  have hinvalid : ∀ i < n,
      (writeShuffleIndices (m.fillWords base (n * 64) invalidIndex) base n).load (base + i * 64) =
        invalidIndex := by
    intro i hi
    have hbyte : ∀ t < 4, (writeShuffleIndices (m.fillWords base (n * 64) invalidIndex) base n).byte
        (base + i * 64 + t) = 255 := by
      intro t ht
      rw [writeShuffleIndices_byte _ _ _ _ (Or.inr (Or.inr ⟨i, hi, by omega, by omega⟩)),
        show invalidIndex = wordRange - 1 from rfl, Memory.byte_fillWords_ones, if_pos (by omega)]
    simp only [Memory.load]
    rw [← Nat.add_zero (base + i * 64), hbyte 0 (by omega), Nat.add_zero, hbyte 1 (by omega),
      hbyte 2 (by omega), hbyte 3 (by omega)]
    rfl
  by_cases hlast : l < n - 1
  · have hload := shuffleLines_load
      (writeShuffleIndices (m.fillWords base (n * 64) invalidIndex) base n) base σ ⟨l, hlast⟩
      (Nat.zero_le 60)
    rw [prepared, ← Nat.add_zero (base + l * 64), hload, Nat.add_zero]
    exact hinvalid _ (by have := (σ ⟨l, hlast⟩).isLt; omega)
  · rw [← hinvalid l hl]
    exact Memory.load_congr fun b hb _ => shuffleLines_byte _ _ (Or.inr (by omega))

theorem prepared_index (m : Memory) (base : Nat) {n : Nat} (σ : Equiv.Perm (Fin (n - 1)))
    (i : Fin (n - 1)) :
    (prepared m base n σ).load (base + i * 64 + 4) = asUnsigned ((σ i : Nat) + 1) := by
  rw [prepared, shuffleLines_load _ _ _ _ (by omega), writeShuffleIndices_load _ _ (σ i).isLt]

/-- The preparation reaches three bytes past the end of the chunk and no further. -/
theorem prepared_byte_outside (m : Memory) {base n b : Nat} (σ : Equiv.Perm (Fin (n - 1)))
    (hn : 0 < n) (h : b < base ∨ base + n * 64 ≤ b) :
    (prepared m base n σ).byte b = if base ≤ b ∧ b < base + n * 64 + 3 then 255 else m.byte b := by
  rw [prepared, shuffleLines_byte _ _ (by omega), writeShuffleIndices_byte _ _ _ _ (by omega),
    show invalidIndex = wordRange - 1 from rfl, Memory.byte_fillWords_ones]
  by_cases hb : base ≤ b ∧ b < base + n * 64 + 3
  · rw [if_pos hb, if_pos (by omega)]
  · rw [if_neg hb, if_neg (by omega)]

/-! ## The order of the lines -/

/-- The lines of a chunk in the order of its path: line 0, then the shuffled indices. -/
def lineOrder {n : Nat} (σ : Equiv.Perm (Fin n)) : List Nat :=
  0 :: List.ofFn fun i : Fin n => (σ i : Nat) + 1

section LineOrder

variable {n : Nat} (σ : Equiv.Perm (Fin n))

@[simp] theorem length_lineOrder : (lineOrder σ).length = n + 1 := by
  simp [lineOrder]

theorem lineOrder_getElem?_succ (i : Fin n) :
    (lineOrder σ)[(i : Nat) + 1]? = some ((σ i : Nat) + 1) := by
  rw [lineOrder, List.getElem?_cons_succ, List.getElem?_ofFn, dif_pos i.isLt]

theorem nodup_lineOrder : (lineOrder σ).Nodup := by
  rw [lineOrder, List.nodup_cons]
  constructor
  · simp [List.mem_ofFn]
  · rw [List.nodup_ofFn]
    intro i j hij
    exact σ.injective (Fin.ext (by simpa using hij))

theorem mem_lineOrder {l : Nat} : l ∈ lineOrder σ ↔ l < n + 1 := by
  rw [lineOrder, List.mem_cons, List.mem_ofFn]
  constructor
  · rintro (rfl | ⟨i, rfl⟩)
    · omega
    · have := (σ i).isLt
      omega
  · intro hl
    by_cases h0 : l = 0
    · exact Or.inl h0
    · refine Or.inr ⟨σ.symm ⟨l - 1, by omega⟩, ?_⟩
      rw [Equiv.apply_symm_apply]
      exact Nat.sub_add_cancel (Nat.pos_of_ne_zero h0)

/-- Every line is visited exactly once. -/
theorem lineOrder_perm : (lineOrder σ).Perm (List.range (n + 1)) := by
  rw [List.perm_ext_iff_of_nodup (nodup_lineOrder σ) List.nodup_range]
  intro l
  rw [mem_lineOrder, List.mem_range]

end LineOrder

/-! ## The pass -/

/-- After `i` rounds over a chunk of `n` lines at `base`: the first `i` lines of `order` are linked,
the other lines have no path word yet, and the indices of the rounds to come are in place. -/
structure Chained (base n offsetDatalines : Nat) (order : List Nat) (before : PathState) (i : Nat)
    (s : ChainState) : Prop where
  tail : order[i]? = some s.prevIdx
  leads : Leads s.path.mem.load ((order.take i).map fun l => base + l * 64) (base + s.prevIdx * 64)
  unwritten : ∀ l < n, l ∉ order.take i → s.path.mem.load (base + l * 64) = invalidIndex
  indices : ∀ j, i ≤ j → j < n - 1 → order[j + 1]? = some (s.path.mem.load (base + j * 64 + 4))
  sequence : s.path.sequence =
    before.sequence ++ (order.take (i + 1)).map fun l => asUnsigned (offsetDatalines + l)
  entries : s.path.entries = before.entries + (i + 1)

variable {base offsetBytes offsetDatalines n : Nat} {order : List Nat} {before : PathState}

/-- One round links one more line; neither of its assertions fails. -/
theorem chainStep_chained (hline : d.lineSize = 64) (hbase : base = d.bufferOffset + offsetBytes)
    (hfit : base + (n - 1) * 64 < unsignedRange) (hnodup : order.Nodup) (hzero : order[0]? = some 0)
    (hmem : ∀ l ∈ order, l < n) {i : Nat} (hi : i < n - 1) {s : ChainState}
    (h : Chained base n offsetDatalines order before i s) :
    ∃ s', d.chainStep base offsetBytes offsetDatalines n s i = .ok s' ∧
      Chained base n offsetDatalines order before (i + 1) s' := by
  simp only [unsignedRange] at hfit
  set next := s.path.mem.load (base + i * 64 + 4) with hnext_def
  have hnext : order[i + 1]? = some next := h.indices i le_rfl hi
  have hlt : i < order.length := (List.getElem?_eq_some_iff.mp h.tail).1
  have hlt' : i + 1 < order.length := (List.getElem?_eq_some_iff.mp hnext).1
  have hprev_mem : s.prevIdx ∈ order := List.mem_of_getElem? h.tail
  have hnext_lt : next < n := hmem _ (List.mem_of_getElem? hnext)
  have hprev_lt : s.prevIdx < n := hmem _ hprev_mem
  have hnext_pos : 0 < next := by
    apply Nat.pos_of_ne_zero
    intro h0
    rw [h0, ← hzero] at hnext
    have := (List.getElem?_inj hlt' hnodup).mp hnext
    omega
  have htake : order.take (i + 1) = order.take i ++ [s.prevIdx] := by
    rw [List.take_add_one, h.tail, Option.toList_some]
  have hprev_new : s.prevIdx ∉ order.take i := by
    have hnodup' := (List.take_sublist (i + 1) order).nodup hnodup
    rw [htake] at hnodup'
    exact fun hin => List.disjoint_of_nodup_append hnodup' hin (List.mem_singleton_self _)
  -- The index word of line `i` is cleared before the path word of the previous line is written.
  set mid := s.path.mem.store (base + i * 64 + 4) invalidIndex with hmid
  have hmid_load : ∀ l, mid.load (base + l * 64) = s.path.mem.load (base + l * 64) := fun l =>
    Memory.load_store_of_apart _ _ (by unfold Apart; omega)
  have hvalue : d.lineIndex offsetBytes next = base + next * 64 := by
    rw [lineIndex, hline, ← hbase]
    exact asUnsigned_of_lt (by simp only [unsignedRange]; omega)
  have hassert : (mid.load (base + s.prevIdx * 64) == invalidIndex) = true := by
    rw [hmid_load, h.unwritten _ hprev_lt hprev_new]
    rfl
  have hbounds : (0 < next && next < n : Bool) = true := by simp [hnext_pos, hnext_lt]
  refine ⟨⟨next, ⟨mid.store (base + s.prevIdx * 64) (base + next * 64),
    s.path.sequence ++ [asUnsigned (offsetDatalines + next)], s.path.entries + 1⟩⟩, ?_, ?_⟩
  · simp only [chainStep, cacheLineStructSize, elementSize]
    rw [← hnext_def, hbounds, assertThat_true, ok_bind, ← hmid, hassert, assertThat_true, ok_bind,
      hvalue]
    rfl
  constructor
  case tail => exact hnext
  case leads =>
    rw [htake, List.map_append, List.map_cons, List.map_nil]
    refine h.leads.extend (fun b hb => ?_) ?_
    · obtain ⟨l, hl, rfl⟩ := List.mem_map.mp hb
      have hne : l ≠ s.prevIdx := fun heq => hprev_new (heq ▸ hl)
      rw [Memory.load_store_of_apart _ _ (by unfold Apart; omega), hmid_load]
    · exact Memory.load_store_of_lt _ _ (by simp only [wordRange]; omega)
  case unwritten =>
    intro l hl hout
    rw [htake, List.mem_append, not_or, List.mem_singleton] at hout
    have hne := hout.2
    rw [Memory.load_store_of_apart _ _ (by unfold Apart; omega), hmid_load]
    exact h.unwritten l hl hout.1
  case indices =>
    intro j hij hj
    rw [h.indices j (by omega) hj, Memory.load_store_of_apart _ _ (by unfold Apart; omega), hmid,
      Memory.load_store_of_apart _ _ (by unfold Apart; omega)]
  case sequence =>
    rw [h.sequence, List.take_add_one (i := i + 1), hnext, Option.toList_some, List.map_append,
      List.map_cons, List.map_nil, List.append_assoc]
  case entries => exact congrArg (· + 1) h.entries

theorem chained_start (base offsetDatalines : Nat) (hfit : n ≤ unsignedRange)
    (σ : Equiv.Perm (Fin (n - 1))) (before : PathState) :
    Chained base n offsetDatalines (lineOrder σ) before 0
      ⟨0, ⟨prepared before.mem base n σ, before.sequence ++ [asUnsigned offsetDatalines],
        before.entries + 1⟩⟩ where
  tail := rfl
  leads := by simp
  unwritten l hl _ := prepared_path _ _ σ hl
  indices j _ hj := by
    have hlt := (σ ⟨j, hj⟩).isLt
    rw [lineOrder_getElem?_succ σ ⟨j, hj⟩, prepared_index before.mem base σ ⟨j, hj⟩,
      asUnsigned_of_lt (by omega)]
  sequence := by simp [lineOrder]
  entries := rfl

/-! ## The whole function -/

theorem lineSize_of_cacheline (h : d.cacheline.toInt = 64) : d.lineSize = 64 :=
  asSizeT_of_toInt h

theorem cacheline_of_uniformSubpath {k : Nat} {st : PathState} {r : Nat × PathState}
    (hrun : d.uniformSubpath rand k offsetDatalines n st = .ok r) : d.cacheline.toInt = 64 := by
  by_contra hcache
  simp [uniformSubpath, hcache] at hrun

theorem lines_pos_of_uniformSubpath {k : Nat} {st : PathState} {r : Nat × PathState}
    (hrun : d.uniformSubpath rand k offsetDatalines n st = .ok r) : 0 < n := by
  by_contra hn
  have hcache := cacheline_of_uniformSubpath hrun
  simp [uniformSubpath, hcache, Nat.eq_zero_of_not_pos hn] at hrun

theorem uniformSubpath_eq (hcache : d.cacheline.toInt = 64) (hn : n ≠ 0) (k : Nat)
    (st : PathState) :
    d.uniformSubpath rand k offsetDatalines n st =
      ((List.range (n - 1)).foldlM
        (d.chainStep (d.bufferOffset + asUnsigned (offsetDatalines * 64))
          (asUnsigned (offsetDatalines * 64)) offsetDatalines n)
        ⟨0, ⟨prepared st.mem (d.bufferOffset + asUnsigned (offsetDatalines * 64)) n
            (rand.shuffle k (n - 1)),
          st.sequence ++ [asUnsigned offsetDatalines], st.entries + 1⟩⟩ >>= fun last =>
        .ok (d.lineIndex (asUnsigned (offsetDatalines * 64)) last.prevIdx, last.path)) := by
  simp only [uniformSubpath, hcache, lineSize_of_cacheline hcache, ne_eq, not_true_eq_false,
    if_false, hn]
  rfl

/-- On a chunk whose lines have 32-bit indices, `uniformSubpath` completes and links all lines but
the last one of the shuffled order, whose index it returns. -/
theorem uniformSubpath_spec (hcache : d.cacheline.toInt = 64) (hn : 0 < n) (rand : Randomness)
    (k offsetDatalines : Nat)
    (hfit : d.bufferOffset + asUnsigned (offsetDatalines * 64) + (n - 1) * 64 < unsignedRange)
    (st : PathState) :
    ∃ s, d.uniformSubpath rand k offsetDatalines n st =
        .ok (d.bufferOffset + asUnsigned (offsetDatalines * 64) + s.prevIdx * 64, s.path) ∧
      Chained (d.bufferOffset + asUnsigned (offsetDatalines * 64)) n offsetDatalines
        (lineOrder (rand.shuffle k (n - 1))) st (n - 1) s := by
  have hmem : ∀ l ∈ lineOrder (rand.shuffle k (n - 1)), l < n := fun l hl => by
    have := (mem_lineOrder _).mp hl
    omega
  have hfit' : n ≤ unsignedRange := by simp only [unsignedRange] at hfit ⊢; omega
  obtain ⟨s, hloop, hs⟩ := foldlM_range_total
    (Chained (d.bufferOffset + asUnsigned (offsetDatalines * 64)) n offsetDatalines
      (lineOrder (rand.shuffle k (n - 1))) st)
    (fun i hi s hs => chainStep_chained (lineSize_of_cacheline hcache) rfl hfit
      (nodup_lineOrder _) rfl hmem hi hs)
    (chained_start _ offsetDatalines hfit' _ st)
  refine ⟨s, ?_, hs⟩
  have hlast : s.prevIdx < n := hmem _ (List.mem_of_getElem? hs.tail)
  rw [uniformSubpath_eq hcache hn.ne', hloop, ok_bind, lineIndex, lineSize_of_cacheline hcache,
    asUnsigned_of_lt (by simp only [unsignedRange] at hfit ⊢; omega)]

theorem chainStep_ok {s s' : ChainState} {i : Nat}
    (hrun : d.chainStep base offsetBytes offsetDatalines n s i = .ok s') :
    s'.prevIdx = s.path.mem.load (base + i * 64 + 4) ∧ s'.prevIdx < n ∧
      s'.path.sequence = s.path.sequence ++ [asUnsigned (offsetDatalines + s'.prevIdx)] ∧
      s'.path.mem = (s.path.mem.store (base + i * 64 + 4) invalidIndex).store
        (base + s.prevIdx * 64) (d.lineIndex offsetBytes s'.prevIdx) := by
  simp only [chainStep, cacheLineStructSize, elementSize] at hrun
  obtain ⟨_, hbounds, hrest⟩ := bind_eq_ok.mp hrun
  obtain ⟨_, _, hlast⟩ := bind_eq_ok.mp hrest
  obtain rfl := Except.ok.inj hlast
  rw [assertThat_ok, Bool.and_eq_true, decide_eq_true_eq, decide_eq_true_eq] at hbounds
  exact ⟨rfl, hbounds.2, rfl, rfl⟩

theorem chainStep_frame {s s' : ChainState} {i : Nat} (hi : i < n) (hprev : s.prevIdx < n)
    (hrun : d.chainStep base offsetBytes offsetDatalines n s i = .ok s') :
    s'.prevIdx < n ∧
      ∀ b, b < base ∨ base + n * 64 ≤ b → s'.path.mem.byte b = s.path.mem.byte b := by
  obtain ⟨-, hlt, -, hmem⟩ := chainStep_ok hrun
  refine ⟨hlt, fun b hb => ?_⟩
  rw [hmem, Memory.byte_store_of_outside _ _ (by omega),
    Memory.byte_store_of_outside _ _ (by omega)]

theorem pass_of_uniformSubpath {k last : Nat} {st st' : PathState}
    (hrun : d.uniformSubpath rand k offsetDatalines n st = .ok (last, st')) :
    0 < n ∧ ∃ s, (List.range (n - 1)).foldlM
        (d.chainStep (d.bufferOffset + asUnsigned (offsetDatalines * 64))
          (asUnsigned (offsetDatalines * 64)) offsetDatalines n)
        ⟨0, ⟨prepared st.mem (d.bufferOffset + asUnsigned (offsetDatalines * 64)) n
            (rand.shuffle k (n - 1)),
          st.sequence ++ [asUnsigned offsetDatalines], st.entries + 1⟩⟩ = .ok s ∧
      s.path = st' := by
  have hn := lines_pos_of_uniformSubpath hrun
  rw [uniformSubpath_eq (cacheline_of_uniformSubpath hrun) hn.ne'] at hrun
  obtain ⟨s, hloop, hlast⟩ := bind_eq_ok.mp hrun
  exact ⟨hn, s, hloop, (Prod.mk.inj (Except.ok.inj hlast)).2⟩

/-- A completed `uniformSubpath` leaves every byte outside its chunk alone, except that the three
bytes following the chunk have become `0xFF`. -/
theorem uniformSubpath_frame {k last : Nat} {st st' : PathState}
    (hrun : d.uniformSubpath rand k offsetDatalines n st = .ok (last, st')) (b : Nat)
    (hb : b < d.bufferOffset + asUnsigned (offsetDatalines * 64) ∨
      d.bufferOffset + asUnsigned (offsetDatalines * 64) + n * 64 ≤ b) :
    st'.mem.byte b =
      if d.bufferOffset + asUnsigned (offsetDatalines * 64) + n * 64 ≤ b ∧
          b < d.bufferOffset + asUnsigned (offsetDatalines * 64) + n * 64 + 3 then 255
      else st.mem.byte b := by
  obtain ⟨hn, s, hloop, rfl⟩ := pass_of_uniformSubpath hrun
  set base := d.bufferOffset + asUnsigned (offsetDatalines * 64) with hbase
  have hinv := foldlM_range_invariant
    (fun _ s => s.prevIdx < n ∧ ∀ b, b < base ∨ base + n * 64 ≤ b →
      s.path.mem.byte b = (prepared st.mem base n (rand.shuffle k (n - 1))).byte b)
    (fun i hi s s' hs hstep => by
      obtain ⟨hprev, hframe⟩ := chainStep_frame (by omega) hs.1 hstep
      exact ⟨hprev, fun b hb => (hframe b hb).trans (hs.2 b hb)⟩)
    ⟨hn, fun _ _ => rfl⟩ hloop
  rw [hinv.2 b hb, prepared_byte_outside _ _ hn hb]
  by_cases hlow : base + n * 64 ≤ b
  · simp only [hlow, true_and, show base ≤ b by omega]
  · rw [if_neg (by omega), if_neg (by omega)]

/-- What a completed `uniformSubpath` leaves: a walk through the first words of all lines of the
chunk, each of them recorded and counted. -/
theorem uniformSubpath_built {k last : Nat} {st st' : PathState}
    (hrun : d.uniformSubpath rand k offsetDatalines n st = .ok (last, st'))
    (hbase : d.bufferOffset + asUnsigned (offsetDatalines * 64) = base)
    (hfit : base + (n - 1) * 64 < unsignedRange) :
    ∃ xs, ChunkBuilt base (base + n * 64) st.mem st'.mem xs last ∧
      xs ++ [last] = (lineOrder (rand.shuffle k (n - 1))).map (fun l => base + l * 64) ∧
      st'.sequence = st.sequence ++ (lineOrder (rand.shuffle k (n - 1))).map
        (fun l => asUnsigned (offsetDatalines + l)) ∧
      st'.entries = st.entries + n := by
  have hn := lines_pos_of_uniformSubpath hrun
  obtain ⟨s, hrun', hs⟩ := uniformSubpath_spec (cacheline_of_uniformSubpath hrun) hn rand k
    offsetDatalines (hbase.symm ▸ hfit) st
  have houtside := fun b hb => uniformSubpath_frame hrun b hb
  rw [hrun] at hrun'
  obtain ⟨rfl, rfl⟩ := Prod.mk.inj (Except.ok.inj hrun')
  rw [hbase] at hs houtside ⊢
  set order := lineOrder (rand.shuffle k (n - 1)) with horder
  have hwhole : (order.take (n - 1)).map (fun l => base + l * 64) ++ [base + s.prevIdx * 64] =
      order.map fun l => base + l * 64 := by
    have htake := List.take_add_one (l := order) (i := n - 1)
    rw [hs.tail, List.take_of_length_le (by simp [horder]), Option.toList_some] at htake
    conv_rhs => rw [htake, List.map_append]
    rfl
  refine ⟨_, ⟨?_, hs.leads, ?_, ?_, ?_⟩, hwhole, ?_, ?_⟩
  · rw [hwhole]
    simp [horder, lineOrder]
  · rw [hwhole, List.pairwise_map]
    exact (nodup_lineOrder _).imp fun hne => by unfold Apart; omega
  · rw [hwhole]
    intro a ha
    obtain ⟨l, hl, rfl⟩ := List.mem_map.mp ha
    have hlt := (mem_lineOrder _).mp hl
    omega
  · intro b hb
    rw [houtside b (Or.inl hb), if_neg (by omega)]
  · rw [hs.sequence, List.take_of_length_le (by simp [horder])]
  · rw [hs.entries, Nat.sub_add_cancel hn]

/-- The bytes outside the chunk keep their contents exactly when the three bytes behind it were
already `0xFF`. -/
theorem uniformSubpath_frame_iff {k last : Nat} {st st' : PathState}
    (hrun : d.uniformSubpath rand k offsetDatalines n st = .ok (last, st')) :
    (∀ b, b < d.bufferOffset + asUnsigned (offsetDatalines * 64) ∨
        d.bufferOffset + asUnsigned (offsetDatalines * 64) + n * 64 ≤ b →
          st'.mem.byte b = st.mem.byte b) ↔
      ∀ t < 3, st.mem.byte
        (d.bufferOffset + asUnsigned (offsetDatalines * 64) + n * 64 + t) = 255 := by
  constructor
  · intro h t ht
    rw [← h _ (by omega), uniformSubpath_frame hrun _ (by omega), if_pos (by omega)]
  · intro h b hb
    rw [uniformSubpath_frame hrun b hb]
    split
    case isTrue hin =>
      rw [← h (b - (d.bufferOffset + asUnsigned (offsetDatalines * 64) + n * 64)) (by omega),
        Nat.add_sub_cancel' hin.1]
    case isFalse => rfl

/-! ## The contract -/

/-- After `k` chunks, everything outside them is as it was, except for the three bytes behind the
last of them. -/
def UniformFrame (d : SubpathDistribution) (before : Memory) (k : Nat) (m : Memory) : Prop :=
  ∀ b, b < d.bufferOffset ∨ d.bufferOffset + k * d.chunkSize ≤ b →
    m.byte b = if 0 < k ∧ d.bufferOffset ≤ b ∧ b < d.bufferOffset + k * d.chunkSize + 3 then 255
      else before.byte b

/-- The first words of the lines of chunk `k`, in the order of its path. -/
def uniformChunk (d : SubpathDistribution) (rand : Randomness) (k : Nat) : List Nat :=
  (lineOrder (rand.shuffle k (d.numDatalinesPerSubpath - 1))).map fun l => d.chunkStart k + l * 64

theorem Fits.chunkStart_eq_base (hfit : d.Fits) (hcache : d.cacheline.toInt = 64) {k : Nat}
    (hk : k < d.numSubpaths) :
    d.bufferOffset + asUnsigned (k * d.numDatalinesPerSubpath * 64) = d.chunkStart k := by
  have hlt := hfit.chunkStart_add_lt hk
  have hsize : d.chunkSize = d.numDatalinesPerSubpath * 64 := by
    rw [chunkSize, lineSize_of_cacheline hcache]
  rw [hfit.chunkStart_eq hk.le] at hlt ⊢
  rw [Nat.mul_assoc, ← hsize, asUnsigned_of_lt (by omega)]

theorem UniformFrame.succ (hfit : d.Fits) {m mem mem' : Memory} {k last : Nat}
    (hk : k < d.numSubpaths) (hframe : d.UniformFrame m k mem)
    (houtside : ∀ b, b < d.chunkStart k ∨ d.chunkStart k + d.chunkSize ≤ b → mem'.byte b =
      if d.chunkStart k + d.chunkSize ≤ b ∧ b < d.chunkStart k + d.chunkSize + 3 then 255
      else mem.byte b)
    (hlast : d.chunkStart k ≤ last ∧ last + 4 ≤ d.chunkStart k + d.chunkSize) (v : Nat) :
    d.UniformFrame m (k + 1) (mem'.store last v) := by
  intro b hb
  have hstart := hfit.chunkStart_eq hk.le
  have hmul : (k + 1) * d.chunkSize = k * d.chunkSize + d.chunkSize := Nat.succ_mul _ _
  have hout : b < d.chunkStart k ∨ d.chunkStart k + d.chunkSize ≤ b := by omega
  have hlink : (mem'.store last v).byte b = mem'.byte b :=
    Memory.byte_store_of_outside _ _ (by omega)
  rw [hlink, houtside b hout, hframe b (by omega)]
  by_cases hnear : d.chunkStart k + d.chunkSize ≤ b ∧ b < d.chunkStart k + d.chunkSize + 3
  · rw [if_pos hnear, if_pos (by omega)]
  · rw [if_neg hnear, if_neg (by omega), if_neg (by omega)]

/-- In uniform mode chunk `k` becomes `uniformChunk k`. -/
theorem uniform_meetsContract (hfit : d.Fits) (halpha : d.zipfAlpha ≤ 0) (m : Memory) :
    d.MeetsContract rand (d.UniformFrame m) fun k xs => xs = d.uniformChunk rand k := by
  intro k hk st last st' hframe hrun
  simp only [buildSubpath, halpha, if_true] at hrun
  have hcache := cacheline_of_uniformSubpath hrun
  have hlt := hfit.chunkStart_add_lt hk
  have hsize : d.chunkSize = d.numDatalinesPerSubpath * 64 := by
    rw [chunkSize, lineSize_of_cacheline hcache]
  have hbase := hfit.chunkStart_eq_base hcache hk
  have houtside := fun b hb => uniformSubpath_frame hrun b hb
  obtain ⟨xs, hbuilt, hchunk, -, hentries⟩ := uniformSubpath_built hrun hbase (by omega)
  rw [hbase] at houtside
  rw [← hsize] at hbuilt houtside
  refine ⟨xs, hbuilt, ?_, hchunk, hframe.succ hfit hk houtside (hbuilt.inside last (by simp)) _⟩
  have hlength := congrArg List.length hchunk
  have hpos := hfit.lines_pos
  rw [List.length_append, List.length_singleton, List.length_map, length_lineOrder] at hlength
  omega

/-! ## The path of uniform mode -/

theorem mem_uniformChunk {k a : Nat} (hpos : 0 < d.numDatalinesPerSubpath) :
    a ∈ d.uniformChunk rand k ↔ ∃ l < d.numDatalinesPerSubpath, a = d.chunkStart k + l * 64 := by
  simp only [uniformChunk, List.mem_map, mem_lineOrder]
  constructor
  · rintro ⟨l, hl, rfl⟩
    exact ⟨l, by omega, rfl⟩
  · rintro ⟨l, hl, rfl⟩
    exact ⟨l, by omega, rfl⟩

theorem uniformChunk_perm (rand : Randomness) (k : Nat) (hpos : 0 < d.numDatalinesPerSubpath) :
    (d.uniformChunk rand k).Perm
      ((List.range d.numDatalinesPerSubpath).map fun l => d.chunkStart k + l * 64) := by
  have hperm := lineOrder_perm (rand.shuffle k (d.numDatalinesPerSubpath - 1))
  rw [Nat.sub_add_cancel hpos] at hperm
  exact hperm.map _

theorem elements_perm (hfit : d.Fits) (hline : d.lineSize = 64) {L : SubpathLayout}
    (hnum : L.numSubpaths = d.numSubpaths)
    (hchunks : ∀ k < d.numSubpaths, L.chunk k = d.uniformChunk rand k) :
    L.elements.Perm ((List.range (d.numSubpaths * d.numDatalinesPerSubpath)).map
      fun l => d.bufferOffset + l * 64) := by
  have hpos := hfit.lines_pos
  have hnodup : ((List.range (d.numSubpaths * d.numDatalinesPerSubpath)).map
      fun l => d.bufferOffset + l * 64).Nodup :=
    List.nodup_range.map fun l l' h => by omega
  have haddr : ∀ k < d.numSubpaths, ∀ l, d.chunkStart k + l * 64 =
      d.bufferOffset + (k * d.numDatalinesPerSubpath + l) * 64 := by
    intro k hk l
    rw [hfit.chunkStart_eq hk.le, chunkSize, hline, Nat.add_mul, Nat.mul_assoc, Nat.add_assoc]
  rw [List.perm_ext_iff_of_nodup SubpathLayout.nodup_elements hnodup]
  intro a
  rw [SubpathLayout.mem_elements, hnum, List.mem_map]
  constructor
  · rintro ⟨k, hk, ha⟩
    rw [hchunks k hk, mem_uniformChunk hpos] at ha
    obtain ⟨l, hl, rfl⟩ := ha
    refine ⟨k * d.numDatalinesPerSubpath + l, List.mem_range.mpr ?_, (haddr k hk l).symm⟩
    calc k * d.numDatalinesPerSubpath + l
        < (k + 1) * d.numDatalinesPerSubpath := by rw [Nat.succ_mul]; omega
      _ ≤ d.numSubpaths * d.numDatalinesPerSubpath := Nat.mul_le_mul_right _ hk
  · rintro ⟨l, hl, rfl⟩
    have hk : l / d.numDatalinesPerSubpath < d.numSubpaths :=
      Nat.div_lt_of_lt_mul (by rw [Nat.mul_comm]; exact List.mem_range.mp hl)
    refine ⟨l / d.numDatalinesPerSubpath, hk, ?_⟩
    rw [hchunks _ hk, mem_uniformChunk hpos]
    refine ⟨l % d.numDatalinesPerSubpath, Nat.mod_lt _ hpos, ?_⟩
    rw [haddr _ hk, Nat.div_add_mod']

theorem uniform_total (hfit : d.Fits) (hcache : d.cacheline.toInt = 64) (halpha : d.zipfAlpha ≤ 0)
    (hslabs : ¬(d.buffer.isLargeBuffer = true ∧ d.buffer.getSlabs ≠ []))
    (hdvd : d.numDatalines % d.numSubpaths = 0) (rand : Randomness) (m : Memory) :
    ∃ st, d.doDistribute rand m = .ok st := by
  refine doDistribute_total hfit (uniform_meetsContract hfit halpha m) (fun k hk st _ => ?_) hslabs
    hdvd (fun b _ => by simp)
  have hlt := hfit.chunkStart_add_lt hk
  have hbase := hfit.chunkStart_eq_base hcache hk
  rw [chunkSize, lineSize_of_cacheline hcache] at hlt
  obtain ⟨s, hrun, -⟩ := uniformSubpath_spec hcache hfit.lines_pos rand k
    (k * d.numDatalinesPerSubpath) (by omega) st
  simp only [buildSubpath, halpha, if_true]
  exact ⟨_, hrun⟩

theorem uniform_lines (halpha : d.zipfAlpha ≤ 0) {m : Memory} {st : PathState}
    (hrun : d.doDistribute rand m = .ok st) :
    d.cacheline.toInt = 64 ∧ 0 < d.numDatalinesPerSubpath := by
  obtain ⟨-, ⟨-, hsubpaths⟩, -, hloop⟩ := doDistribute_ok.mp hrun
  have hfirst := foldlM_range_invariant
    (fun k _ => 0 < k → d.cacheline.toInt = 64 ∧ 0 < d.numDatalinesPerSubpath)
    (fun k _ s s' _ hround _ => by
      obtain ⟨⟨last, built⟩, hbuild, -⟩ := bind_eq_ok.mp hround
      rw [buildSubpath, if_pos halpha] at hbuild
      exact ⟨cacheline_of_uniformSubpath hbuild, lines_pos_of_uniformSubpath hbuild⟩)
    (fun h => absurd h (lt_irrefl 0)) hloop
  exact hfirst (Nat.pos_of_ne_zero hsubpaths)

theorem uniform_fits (halpha : d.zipfAlpha ≤ 0)
    (hwindow : d.bufferOffset + d.buffer.getSize < unsignedRange) {m : Memory} {st : PathState}
    (hrun : d.doDistribute rand m = .ok st) : d.Fits ∧ d.cacheline.toInt = 64 := by
  obtain ⟨-, ⟨-, hsubpaths⟩, -, -⟩ := doDistribute_ok.mp hrun
  obtain ⟨hcache, hlines⟩ := uniform_lines halpha hrun
  have hline : 8 ≤ d.lineSize := by
    rw [lineSize_of_cacheline hcache]
    decide
  refine ⟨fits_of_window hline (Nat.pos_of_ne_zero hsubpaths) ?_ hwindow, hcache⟩
  rw [numDatalinesPerSubpath_eq hline (by omega)] at hlines
  by_contra hlt
  exact hlines.ne' (Nat.div_eq_of_lt (by omega))

theorem uniform_builds (hfit : d.Fits) (halpha : d.zipfAlpha ≤ 0) {m : Memory} {st : PathState}
    (hrun : d.doDistribute rand m = .ok st) :
    ∃ L : SubpathLayout, d.Builds st L ∧
      (∀ k < d.numSubpaths, L.chunk k = d.uniformChunk rand k) ∧
        d.UniformFrame m d.numSubpaths st.mem :=
  doDistribute_builds hfit (uniform_meetsContract hfit halpha m) (fun b _ => by simp) hrun

/-- In uniform mode `doDistribute` completes, whatever the buffer held, and leaves one cycle: it
runs through every data line of the window once, chunk after chunk, each from its first line on. -/
theorem uniform_single_cycle {b : Buffer} {n offset : Nat} {zipfAlpha : ℚ} (hn : 1 ≤ n)
    (hlines : 0 < b.getSize / 64) (hdvd : n ∣ b.getSize / 64)
    (hstart : b.getStartAddress = b.getBufferPointer + offset)
    (hwindow : offset + b.getSize < unsignedRange) (halpha : zipfAlpha ≤ 0)
    (hslabs : ¬(b.isLargeBuffer = true ∧ b.getSlabs ≠ [])) (rand : Randomness) (m : Memory) :
    ∃ (st : PathState) (L : SubpathLayout),
      (create b 64 n zipfAlpha).doDistribute rand m = .ok st ∧
      st.entries = b.getSize / 64 ∧
      L.numSubpaths = n ∧
      (∀ k < n, L.start k = offset + k * (b.getSize / 64 / n) * 64 ∧
        (L.chunk k).Perm ((List.range (b.getSize / 64 / n)).map
          fun l => offset + (k * (b.getSize / 64 / n) + l) * 64)) ∧
      L.elements.Perm ((List.range (b.getSize / 64)).map fun l => offset + l * 64) ∧
      IsCircuit st.mem.load offset L.elements ∧
      ∀ a ∈ L.elements, st.mem.load a ≠ invalidIndex := by
  have hcache : (create b 64 n zipfAlpha).cacheline.toInt = 64 := rfl
  have hline : (create b 64 n zipfAlpha).lineSize = 64 := lineSize_of_cacheline hcache
  have hoffset : (create b 64 n zipfAlpha).bufferOffset = offset :=
    bufferOffset_eq hstart (by omega)
  have hsize : b.getSize < unsignedRange := by omega
  have hnum : (create b 64 n zipfAlpha).numDatalines = b.getSize / 64 := by
    rw [numDatalines_eq (hline ▸ (by decide)) hsize, hline]
    rfl
  have hper : (create b 64 n zipfAlpha).numDatalinesPerSubpath = b.getSize / 64 / n := by
    rw [numDatalinesPerSubpath_eq (hline ▸ (by decide)) hsize, hline]
    rfl
  have hfit : (create b 64 n zipfAlpha).Fits :=
    fits_of_window (hline ▸ (by decide)) hn (hline ▸ Nat.le_of_dvd hlines hdvd)
      (hoffset ▸ hwindow)
  have hchunkStart : ∀ k < n, (create b 64 n zipfAlpha).chunkStart k =
      offset + k * (b.getSize / 64 / n) * 64 := by
    intro k hk
    rw [hfit.chunkStart_eq hk.le, chunkSize, hoffset, hper, hline, Nat.mul_assoc]
  obtain ⟨st, hrun⟩ := uniform_total hfit hcache halpha hslabs
    (hnum ▸ Nat.mod_eq_zero_of_dvd hdvd) rand m
  obtain ⟨L, hL, hchunks, -⟩ := uniform_builds hfit halpha hrun
  have helements := elements_perm hfit hline hL.numSubpaths hchunks
  rw [hper, hoffset, show (create b 64 n zipfAlpha).numSubpaths = n from rfl,
    Nat.mul_div_cancel' hdvd] at helements
  have hcircuit := hL.unsplit.isCircuit
  rw [hL.start 0 hn, hchunkStart 0 hn, Nat.zero_mul, Nat.zero_mul, Nat.add_zero] at hcircuit
  refine ⟨st, L, hrun, ?_, hL.numSubpaths, fun k hk => ⟨?_, ?_⟩, helements, hcircuit,
    fun a ha => ?_⟩
  · rw [hL.entries, helements.length_eq, List.length_map, List.length_range]
  · rw [hL.start k hk, hchunkStart k hk]
  · have hperm := uniformChunk_perm rand k hfit.lines_pos
    rw [← hchunks k hk, hper, hchunkStart k hk] at hperm
    simpa only [Nat.add_mul, Nat.add_assoc] using hperm
  · exact SubpathLayout.ne_invalidIndex (hL.unsplit.load_mem ha)

theorem uniform_single_cycle_two_chunks :
    ∃ (st : PathState) (L : SubpathLayout),
      (create (Buffer.hugePool 256) 64 2 0).doDistribute Randomness.identity zeros = .ok st ∧
      st.entries = 4 ∧
      L.numSubpaths = 2 ∧
      (∀ k < 2, L.start k = 0 + k * 2 * 64 ∧
        (L.chunk k).Perm ((List.range 2).map fun l => 0 + (k * 2 + l) * 64)) ∧
      L.elements.Perm ((List.range 4).map fun l => 0 + l * 64) ∧
      IsCircuit st.mem.load 0 L.elements ∧
      ∀ a ∈ L.elements, st.mem.load a ≠ invalidIndex :=
  uniform_single_cycle (by decide) (by decide) (by decide) rfl (by decide) le_rfl (by decide)
    Randomness.identity zeros

/-- `-a -h 1` is one chunk of 16 lines, but its buffer has a slab: no path is built. -/
theorem uniform_slabs_exits :
    ∃ (b : Buffer) (m : Memory),
      setupBuffer Host.identity
          { Options.default with cont := true, huge := true, dataset := 1024 } zeros = .ok (b, m) ∧
        b.getSize / 64 = 16 ∧ b.getStartAddress = b.getBufferPointer + 0 ∧
        0 + b.getSize < unsignedRange ∧
        ∀ rand : Randomness, (create b 64 1 0).doDistribute rand (b.view m) =
          .error (.exited "ERROR: doHugeDistribution() not implemtned\n" (-1)) := by
  obtain ⟨b, m, hbuffer, hsize, hstart, hlarge, hslabs⟩ := Buffer.setupBuffer_identity zeros
  refine ⟨b, m, hbuffer, by rw [hsize], hstart, by rw [hsize]; decide, fun rand => ?_⟩
  have hne : b.getSlabs ≠ [] := by
    rw [hslabs]
    exact List.cons_ne_nil _ _
  exact doDistribute_of_slabs hlarge hne rand _

/-! ## What uniform mode writes outside its chunks -/

/-- `uniformSubpath` leaves the bytes outside its chunk alone exactly when the three bytes behind
the chunk were already `0xFF`; `doDistribute` leaves the bytes outside the window alone exactly when
those of the three bytes behind the last data line that are outside were. -/
theorem uniform_frame_iff (d : SubpathDistribution) (rand : Randomness) :
    (∀ (k offsetDatalines n last : Nat) (st st' : PathState),
      1 ≤ n → d.uniformSubpath rand k offsetDatalines n st = .ok (last, st') →
        ((∀ b, b < d.bufferOffset + asUnsigned (offsetDatalines * 64) ∨
            d.bufferOffset + asUnsigned (offsetDatalines * 64) + n * 64 ≤ b →
              st'.mem.byte b = st.mem.byte b) ↔
          ∀ t < 3, st.mem.byte
            (d.bufferOffset + asUnsigned (offsetDatalines * 64) + n * 64 + t) = 255)) ∧
    ∀ (offset : Nat) (m : Memory) (st : PathState),
      d.zipfAlpha ≤ 0 → d.buffer.getStartAddress = d.buffer.getBufferPointer + offset →
        offset + d.buffer.getSize < unsignedRange → d.doDistribute rand m = .ok st →
          ((∀ b, b < offset ∨ offset + d.buffer.getSize ≤ b → st.mem.byte b = m.byte b) ↔
            ∀ t < 3, d.buffer.getSize % 64 ≤ t →
              m.byte (offset + d.buffer.getSize / 64 * 64 + t) = 255) := by
  refine ⟨fun k offsetDatalines n last st st' _ hrun => uniformSubpath_frame_iff hrun, ?_⟩
  intro offset m st halpha hstart hwindow hrun
  have hoffset : d.bufferOffset = offset := bufferOffset_eq hstart (by omega)
  obtain ⟨hfit, hcache⟩ := uniform_fits halpha (hoffset ▸ hwindow) hrun
  obtain ⟨L, hL, hchunks, hframe⟩ := uniform_builds hfit halpha hrun
  have hline := lineSize_of_cacheline hcache
  have hpos := hfit.subpaths_pos
  have hend : d.numSubpaths * d.chunkSize = d.buffer.getSize / 64 * 64 := by
    obtain ⟨-, -, hdvd, -⟩ := doDistribute_ok.mp hrun
    rw [numDatalines_eq hfit.eight_le (by omega), hline] at hdvd
    rw [chunkSize, numDatalinesPerSubpath_eq hfit.eight_le (by omega), hline, ← Nat.mul_assoc,
      Nat.mul_div_cancel' (Nat.dvd_of_mod_eq_zero hdvd)]
  have hlines := hfit.lines_pos
  have hsize : 0 < d.numSubpaths * d.chunkSize :=
    Nat.mul_pos hpos (Nat.mul_pos hlines (by omega))
  have hdiv := Nat.div_add_mod' d.buffer.getSize 64
  rw [UniformFrame, hoffset] at hframe
  rw [hend] at hframe hsize
  constructor
  · intro h t ht hout
    rw [← h _ (by omega), hframe _ (by omega), if_pos (by omega)]
  · intro h b hb
    rw [hframe b (by omega)]
    split
    case isTrue hin =>
      rw [← h (b - (offset + d.buffer.getSize / 64 * 64)) (by omega) (by omega),
        Nat.add_sub_cancel' (by omega)]
    case isFalse => rfl

/-- Both parts apply to the two chunks of a buffer of 256 bytes of zeros. -/
theorem uniform_frame_iff_two_chunks :
    (∃ (last : Nat) (st' : PathState),
      (create (Buffer.hugePool 256) 64 2 0).uniformSubpath Randomness.identity 0 0 2
          { mem := zeros, sequence := [], entries := 0 } = .ok (last, st') ∧
        ((∀ b, b < 0 ∨ 128 ≤ b → st'.mem.byte b = zeros.byte b) ↔
          ∀ t < 3, zeros.byte (128 + t) = 255)) ∧
    ∃ st, (create (Buffer.hugePool 256) 64 2 0).doDistribute Randomness.identity zeros = .ok st ∧
      ((∀ b, b < 0 ∨ 0 + 256 ≤ b → st.mem.byte b = zeros.byte b) ↔
        ∀ t < 3, 256 % 64 ≤ t → zeros.byte (0 + 256 / 64 * 64 + t) = 255) := by
  constructor
  · obtain ⟨s, hrun, -⟩ := uniformSubpath_spec (d := create (Buffer.hugePool 256) 64 2 0)
      (n := 2) rfl (by decide) Randomness.identity 0 0 (by decide)
      { mem := zeros, sequence := [], entries := 0 }
    exact ⟨_, _, hrun, (uniform_frame_iff _ _).1 _ _ _ _ _ _ (by decide) hrun⟩
  · obtain ⟨st, hrun⟩ := uniform_total (d := create (Buffer.hugePool 256) 64 2 0)
      (fits_of_window (by decide) (by decide) (by decide) (by decide)) rfl le_rfl (by decide)
      (by decide) Randomness.identity zeros
    exact ⟨st, hrun, (uniform_frame_iff _ _).2 0 _ _ le_rfl rfl (by decide) hrun⟩

/-- A huge page pool of exactly the 1GB dataset: the byte after the pool changes. -/
theorem uniform_writes_past_pool :
    ∃ (b : Buffer) (m : Memory) (st : PathState),
      Buffer.large Host.simple page1GB false zeros = .ok (b, m) ∧
        b.getAllocatedSize = b.getSize ∧
        (create b 64 1 0).doDistribute Randomness.identity (b.view m) = .ok st ∧
          (b.view m).byte b.getAllocatedSize = 0 ∧ st.mem.byte b.getAllocatedSize = 255 := by
  refine ⟨Buffer.hugePool page1GB, (Buffer.hugePool page1GB).zeroPool zeros, ?_⟩
  have hfit : (create (Buffer.hugePool page1GB) 64 1 0).Fits :=
    fits_of_window (by decide) (by decide) (by decide) (by decide)
  obtain ⟨st, hrun⟩ := uniform_total hfit rfl le_rfl (by decide) (by decide) Randomness.identity
    ((Buffer.hugePool page1GB).view ((Buffer.hugePool page1GB).zeroPool zeros))
  obtain ⟨L, -, -, hframe⟩ := uniform_builds hfit le_rfl hrun
  refine ⟨st, rfl, by decide, hrun, ?_, ?_⟩
  · simp [Buffer.view, Buffer.zeroPool, zeros]
  · rw [hframe _ (by decide), if_pos (by decide)]

end SubpathDistribution

end Cachetest
