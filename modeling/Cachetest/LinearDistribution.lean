import Cachetest.UniformDistribution

/-!
# The linear distribution

`LinearDistribution::doDistribute`: the first word of every line points to the first word of the
next one, and that of the last line to the start. Nothing is drawn, and nothing has to be empty.
The link of the last line is the only one that a remainder makes, so up to it the loop grows a
linked list of words at its tail.
-/

namespace Cachetest

open ByteMemory Circuit UniformDistribution

namespace LinearDistribution

variable {d : Distribution} {m : Memory}

/-- `datalines`, an `int`. -/
def datalines (d : Distribution) : Int32 := asInt (d.buffer.getSize / d.lineSize)

/-- A round of the `for` loop. -/
def distributeRound (d : Distribution) (st : PathState) (i : Nat) : PathState :=
  let next := (i + 1) % asSizeT (datalines d)
  { mem := st.mem.store (d.startOffset + asSizeT (asInt (i * d.lineSize)))
      (asUnsigned (next * d.lineSize + d.startOffset))
    sequence := st.sequence ++ [asUnsigned next]
    entries := st.entries + 1 }

/-- `doDistribute`, with `entries` as `setup` leaves it. -/
def doDistribute (d : Distribution) (m : Memory) : Outcome PathState := do
  if d.lineSize = 0 then throw (.undefined "division by zero")
  -- A negative number of lines makes no round.
  return (List.range (datalines d).toInt.toNat).foldl (distributeRound d)
    { mem := m, sequence := [], entries := 0 }

/-! ## The rounds -/

/-- The first words of the lines before line `i`. -/
def firstWords (d : Distribution) (i : Nat) : List Nat := (List.range i).map fun l => slot d l 0

theorem firstWords_succ (d : Distribution) (i : Nat) :
    firstWords d (i + 1) = firstWords d i ++ [slot d i 0] := by
  rw [firstWords, List.range_succ, List.map_append]
  rfl

theorem isSlot_first (hfit : Fits d) {l : Nat} (hl : l < d.buffer.getSize / d.lineSize) :
    IsSlot d l 0 :=
  ⟨hl, hfit.isSlot_zero.2⟩

theorem toInt_datalines (hfit : Fits d) :
    (datalines d).toInt.toNat = d.buffer.getSize / d.lineSize := by
  have hle := Nat.div_le_self d.buffer.getSize d.lineSize
  have hwindow := hfit.window
  rw [datalines, asInt, Int32.toInt_ofNat_of_lt (by omega), Int.toNat_natCast]

theorem distributeRound_eq (hfit : Fits d) (st : PathState) {i : Nat}
    (hi : i < d.buffer.getSize / d.lineSize) :
    distributeRound d st i = {
      mem := st.mem.store (slot d i 0) (slot d ((i + 1) % (d.buffer.getSize / d.lineSize)) 0)
      sequence := st.sequence ++ [(i + 1) % (d.buffer.getSize / d.lineSize)]
      entries := st.entries + 1 } := by
  have hle := Nat.div_le_self d.buffer.getSize d.lineSize
  have hwindow := hfit.window
  have hlines : asSizeT (datalines d) = d.buffer.getSize / d.lineSize := asSizeT_asInt (by omega)
  have hnext := Nat.mod_lt (i + 1) hfit.lines_pos
  have hline := (isSlot_first hfit hi).bounds
  have hlink := hfit.slot_lt_wordRange (isSlot_first hfit hnext)
  simp only [slot, lineWord, wordRange] at hline hlink
  have hplace : d.startOffset + asSizeT (asInt (i * d.lineSize)) = slot d i 0 := by
    rw [asSizeT_asInt (by omega), slot, lineWord, Nat.zero_mul, Nat.add_zero]
  have hvalue :
      asUnsigned ((i + 1) % (d.buffer.getSize / d.lineSize) * d.lineSize + d.startOffset) =
        slot d ((i + 1) % (d.buffer.getSize / d.lineSize)) 0 := by
    rw [slot, lineWord, Nat.zero_mul, Nat.add_zero, Nat.add_comm]
    exact asUnsigned_of_lt (by simp only [unsignedRange]; omega)
  have hsequence : asUnsigned ((i + 1) % (d.buffer.getSize / d.lineSize)) =
      (i + 1) % (d.buffer.getSize / d.lineSize) :=
    asUnsigned_of_lt (by simp only [unsignedRange]; omega)
  simp only [distributeRound, hlines, hplace, hvalue, hsequence]

/-- Before the last round the links make a list that has come to line `i`. -/
theorem foldl_round (hfit : Fits d) {i : Nat} (hi : i < d.buffer.getSize / d.lineSize) :
    ∃ mem, (List.range i).foldl (distributeRound d) { mem := m, sequence := [], entries := 0 } =
        { mem := mem, sequence := (List.range i).map (· + 1), entries := i } ∧
      LinkedWords m mem (firstWords d i) (slot d i 0) := by
  induction i with
  | zero => exact ⟨m, rfl, LinkedWords.single m _⟩
  | succ i ih =>
    obtain ⟨mem, hfold, hwords⟩ := ih (by omega)
    refine ⟨mem.store (slot d i 0) (slot d (i + 1) 0), ?_, ?_⟩
    · rw [List.range_succ, List.foldl_concat, hfold, distributeRound_eq hfit _ (by omega),
        Nat.mod_eq_of_lt hi, List.map_append]
      rfl
    · rw [firstWords_succ]
      refine hwords.extend (hfit.slot_lt_wordRange (isSlot_first hfit hi)) fun a ha => ?_
      rw [← firstWords_succ] at ha
      obtain ⟨l, hl, rfl⟩ := List.mem_map.mp ha
      have hlt := List.mem_range.mp hl
      exact Or.inl (lineWord_add_four_le _ _ (isSlot_first hfit (by omega)).fits_line hlt)

theorem doDistribute_eq (hfit : Fits d) (m : Memory) :
    ∃ st : PathState, doDistribute d m = .ok st ∧
      IsCircuit st.mem.load d.startOffset (firstWords d (d.buffer.getSize / d.lineSize)) ∧
      st.entries = d.buffer.getSize / d.lineSize ∧
      st.sequence = (List.range (d.buffer.getSize / d.lineSize)).map
        (fun l => (l + 1) % (d.buffer.getSize / d.lineSize)) ∧
      ∀ a, (∀ e ∈ firstWords d (d.buffer.getSize / d.lineSize), a < e ∨ e + 4 ≤ a) →
        st.mem.byte a = m.byte a := by
  have hline := hfit.eight_le
  have hrounds := toInt_datalines hfit
  obtain ⟨k, hk⟩ := Nat.exists_eq_succ_of_ne_zero hfit.lines_pos.ne'
  obtain ⟨mem, hfold, hwords⟩ := foldl_round (m := m) hfit (i := k) (by omega)
  have hlast := distributeRound_eq hfit
    { mem := mem, sequence := (List.range k).map (· + 1), entries := k } (by omega : k < _)
  have hsequence : (List.range k).map (· + 1) = (List.range k).map fun l => (l + 1) % (k + 1) :=
    List.map_congr_left fun l hl => by
      rw [Nat.mod_eq_of_lt (Nat.succ_lt_succ (List.mem_range.mp hl))]
  rw [hk, Nat.succ_eq_add_one] at hrounds hlast ⊢
  rw [Nat.mod_self, hsequence] at hlast
  refine ⟨{
    mem := mem.store (slot d k 0) (slot d 0 0)
    sequence := (List.range (k + 1)).map fun l => (l + 1) % (k + 1)
    entries := k + 1 }, ?_, ?_, rfl, rfl, fun a ha => ?_⟩
  · rw [doDistribute, if_neg (by omega), hrounds, List.range_succ, List.foldl_concat, hfold,
      hsequence, hlast, List.map_append, List.map_singleton, Nat.mod_self]
    rfl
  · rw [firstWords_succ, ← slot_zero]
    refine hwords.close (hfit.slot_lt_wordRange hfit.isSlot_zero) ?_
    rw [← firstWords_succ, firstWords, List.range_succ_eq_map]
    rfl
  · rw [firstWords_succ] at ha
    exact (hwords.store_tail _).untouched a ha

/-- **The linear path visits the lines in order.** For every buffer that has a line: `doDistribute`
leaves one circuit through the first words of all lines, each one once and in the order of the
lines, counts as many entries, records line `i + 1` for line `i` and the first one for the last, and
leaves all other bytes of the memory alone, whatever they are. -/
theorem linear_distribution_in_order {b : Buffer} {cacheline : Int32} {offset line : Nat}
    (hcache : cacheline.toInt = line) (hline : 8 ≤ line) (hsize : line ≤ b.getSize)
    (hstart : b.getStartAddress = b.getBufferPointer + offset)
    (hwindow : offset + b.getSize < 2147483648) (m : Memory) :
    let elements := (List.range (b.getSize / line)).map fun l => offset + l * line
    ∃ st : PathState, doDistribute (Distribution.setup b cacheline) m = .ok st ∧
      IsCircuit st.mem.load offset elements ∧
      st.entries = elements.length ∧
      st.sequence = (List.range (b.getSize / line)).map (fun l => (l + 1) % (b.getSize / line)) ∧
      ∀ a, (∀ e ∈ elements, a < e ∨ e + 4 ≤ a) → st.mem.byte a = m.byte a := by
  intro elements
  set d := Distribution.setup b cacheline
  have hlineSize : d.lineSize = line := asSizeT_of_toInt hcache
  have hoffset : d.startOffset = offset := startOffset_setup cacheline hstart
  have hfit : Fits d := ⟨hlineSize ▸ hline, hlineSize ▸ hsize, hoffset ▸ hwindow⟩
  have helements : firstWords d (b.getSize / line) = elements := by
    refine List.map_congr_left fun l _ => ?_
    rw [slot, lineWord, hoffset, hlineSize, Nat.zero_mul, Nat.add_zero]
  obtain ⟨st, hrun, hcircuit, hentries, hsequence, huntouched⟩ := doDistribute_eq hfit m
  rw [hlineSize] at hcircuit hentries hsequence huntouched
  rw [show d.buffer = b from rfl] at hcircuit hentries hsequence huntouched
  rw [helements] at hcircuit huntouched
  refine ⟨st, hrun, hoffset ▸ hcircuit, ?_, hsequence, huntouched⟩
  rw [hentries, List.length_map, List.length_range]

/-- Three lines of 16 bytes, 128 bytes into the pool. -/
theorem linear_distribution_in_order_three_lines :
    ∃ st : PathState,
      doDistribute (Distribution.setup ((Buffer.smallPool 48).setBufferOffset 128) 16) zeros =
        .ok st ∧
      IsCircuit st.mem.load 128 ((List.range 3).map fun l => 128 + l * 16) ∧
      st.entries = 3 ∧ st.sequence = [1, 2, 0] ∧
      ∀ a, (∀ e ∈ (List.range 3).map fun l => 128 + l * 16, a < e ∨ e + 4 ≤ a) →
        st.mem.byte a = zeros.byte a :=
  linear_distribution_in_order (by decide : (16 : Int32).toInt = (16 : Nat)) (by decide)
    (by decide) rfl (by decide) zeros

end LinearDistribution

end Cachetest
