import Cachetest.LinkedWords
import Cachetest.WeightedUniform

/-!
# The path of the weighted distribution

`WeightedUniform::doDistribute` is the loop of `UniformDistribution::doDistribute` less two lines:
the tail is not marked before a line is drawn, and the start is not counted. So the tail, whose word
is still zero, is found again when its own line is drawn next, and is linked to itself. The link is
overwritten later, but the round has been counted.

The path depends on the drawn lines only. `filled` and `again` say how, and `Grown` ties them to the
state of the loop.
-/

namespace Cachetest

open ByteMemory Circuit Bisection UniformDistribution

namespace WeightedUniform

/-! ## The routine -/

/-- `bufferlines`, an `int`, as the comparison with an `unsigned int` sees it. -/
def bufferlines (d : Distribution) : Nat := asUnsigned (d.buffer.getSize / d.lineSize)

/-- `element`, an `int`, as a distance from the buffer pointer; `idx` is an `unsigned int`. -/
def elementIndex (d : Distribution) (idx offset : Nat) : Nat :=
  asSizeT (asInt (asUnsigned (idx * d.lineSize) + offset * elementSize + d.startOffset))

/-- The `for` loop of `doDistribute` with the number of rounds left and the loop counter `i`;
`draw i` is what `getNextIDX` returns. -/
def distributeLoop (d : Distribution) (draw : Nat → Nat) :
    Nat → Nat → Nat × PathState → Outcome (Nat × PathState)
  | 0, _, s => .ok s
  | rounds + 1, i, (previdx, st) => do
    assertThat (draw i < bufferlines d) "idx < bufferlines"
    match findEmpty st.mem (elementIndex d (draw i)) (d.numLineElements - 1) 0 with
    | none => .ok (previdx, st)
    | some element =>
      distributeLoop d draw rounds (i + 1) (element, {
        mem := st.mem.store previdx element
        sequence := st.sequence ++ [draw i]
        entries := st.entries + 1 })

/-- `doDistribute`, from the draws on. -/
def doDistribute (d : Distribution) (draw : Nat → Nat) (m : Memory) : Outcome PathState := do
  if d.lineSize = 0 then throw (.undefined "division by zero")
  assertThat (!(d.buffer.isLargeBuffer && !d.buffer.getSlabs.isEmpty)) "false"
  let (previdx, st) ← distributeLoop d draw d.numElements 0
    (asSizeT (asInt d.startOffset), { mem := m, sequence := [], entries := 0 })
  return { st with mem := st.mem.store previdx d.startOffset }

/-- The draws, from the keys on. -/
def drawnLine (d : Distribution) (key : Nat → Nat) (i : Nat) : Nat :=
  getNextIDX (calculateCDF (d.buffer.getSize / d.lineSize)) (key i)

/-! ## What the draws determine -/

/-- The line of the tail when round `i` begins. -/
def tailLine (draw : Nat → Nat) : Nat → Nat
  | 0 => 0
  | i + 1 => draw i

/-- The word of the tail is still zero when round `i` begins: the round before did not link the tail
to itself, or did so with index 0. -/
def unmarked (draw : Nat → Nat) (start : Nat) : Nat → Bool
  | 0 => true
  | i + 1 => !(draw i == tailLine draw i && unmarked draw start i) ||
      (start == 0 && (List.range (i + 1)).all fun j => draw j == 0)

/-- Round `i` finds the tail again. -/
def again (draw : Nat → Nat) (start i : Nat) : Bool :=
  draw i == tailLine draw i && unmarked draw start i

/-- The number of rounds before round `i` that found the tail again. -/
def repeats (draw : Nat → Nat) (start i : Nat) : Nat := (List.range i).countP (again draw start)

/-- The number of words of a line that are on the path when round `i` begins. -/
def filled (draw : Nat → Nat) (start line i : Nat) : Nat :=
  (if line = 0 then 1 else 0) +
    (List.range i).countP fun j => draw j == line && !again draw start j

/-- The number of rounds run, from round `i` on with `rounds` to go: until the words of a drawn line
that are looked at, `words` of them, are all taken. -/
def roundsRun (draw : Nat → Nat) (start words : Nat) (rounds i : Nat) : Nat :=
  match rounds with
  | 0 => i
  | rounds + 1 =>
    if again draw start i || filled draw start (draw i) i < words then
      roundsRun draw start words rounds (i + 1)
    else i

variable {draw : Nat → Nat} {start i : Nat}

theorem unmarked_succ : unmarked draw start (i + 1) =
    (!again draw start i || (start == 0 && (List.range (i + 1)).all fun j => draw j == 0)) := rfl

theorem repeats_succ : repeats draw start (i + 1) =
    repeats draw start i + if again draw start i then 1 else 0 := by
  rw [repeats, List.range_succ, List.countP_append, List.countP_singleton]
  rfl

theorem filled_succ (line : Nat) : filled draw start line (i + 1) =
    filled draw start line i + if draw i = line ∧ again draw start i = false then 1 else 0 := by
  rw [filled, List.range_succ, List.countP_append, List.countP_singleton, ← Nat.add_assoc]
  simp [filled]

theorem filled_of_again (hagain : again draw start i = true) (line : Nat) :
    filled draw start line (i + 1) = filled draw start line i := by
  rw [filled_succ, if_neg fun h => Bool.false_ne_true (h.2.symm.trans hagain), Nat.add_zero]

theorem filled_of_not_again (hagain : again draw start i = false) (line : Nat) :
    filled draw start line (i + 1) = filled draw start line i + if draw i = line then 1 else 0 := by
  rw [filled_succ]
  simp only [hagain, and_true]

theorem unmarked_of_zero (hstart : start = 0) (hzero : ∀ j < i, draw j = 0) :
    unmarked draw start i = true := by
  cases i with
  | zero => rfl
  | succ i =>
    have hall : ((List.range (i + 1)).all fun j => draw j == 0) = true := by
      simpa using hzero
    rw [unmarked_succ, hstart, hall]
    simp

theorem tailLine_of_zero (hzero : ∀ j < i, draw j = 0) : tailLine draw i = 0 := by
  cases i with
  | zero => rfl
  | succ i => exact hzero i (Nat.lt_succ_self i)

theorem roundsRun_succ (words rounds i : Nat) : roundsRun draw start words (rounds + 1) i =
    if again draw start i || filled draw start (draw i) i < words then
      roundsRun draw start words rounds (i + 1)
    else i := rfl

theorem le_roundsRun (words rounds i : Nat) : i ≤ roundsRun draw start words rounds i := by
  induction rounds generalizing i with
  | zero => exact le_rfl
  | succ rounds ih =>
    rw [roundsRun_succ]
    split
    case isTrue => exact (Nat.le_succ i).trans (ih (i + 1))
    case isFalse => exact le_rfl

theorem roundsRun_mono {words rounds rounds' : Nat} (hle : rounds ≤ rounds') (i : Nat) :
    roundsRun draw start words rounds i ≤ roundsRun draw start words rounds' i := by
  induction rounds generalizing rounds' i with
  | zero => exact le_roundsRun _ _ _
  | succ rounds ih =>
    cases rounds' with
    | zero => exact absurd hle (Nat.not_succ_le_zero rounds)
    | succ rounds' =>
      rw [roundsRun_succ, roundsRun_succ]
      split
      case isTrue => exact ih (Nat.le_of_succ_le_succ hle) (i + 1)
      case isFalse => exact le_rfl

theorem filled_mono (line : Nat) : Monotone (filled draw start line) :=
  monotone_nat_of_le_succ fun i => by
    rw [filled_succ]
    exact Nat.le_add_right _ _

/-! ## The loop -/

/-- The state of the loop when round `i` begins, over a window that held `m`: the path runs through
`xs` to its tail `prev`. -/
structure Grown (d : Distribution) (draw : Nat → Nat) (m : Memory) (i : Nat) (xs : List Nat)
    (prev : Nat) (st : PathState) : Prop where
  path : IsPath d (xs ++ [prev])
  words : LinkedWords m st.mem xs prev
  linked : ∀ a ∈ xs, st.mem.load a ≠ 0
  marked : st.mem.load prev = 0 ↔ unmarked draw d.startOffset i
  tail : prev = slot d (tailLine draw i) (filled draw d.startOffset (tailLine draw i) i - 1)
  mem_iff : ∀ l s, IsSlot d l s →
    (slot d l s ∈ xs ++ [prev] ↔ s < filled draw d.startOffset l i)
  room : ∀ l, filled draw d.startOffset l i ≤ d.lineSize / elementSize - 1
  still : xs = [] → ∀ j < i, draw j = 0
  rest : d.startOffset = 0 → (∀ j < i, draw j = 0) → xs = []
  entries : st.entries = i
  length : xs.length + repeats draw d.startOffset i = i

variable {d : Distribution} {m : Memory} {xs : List Nat} {prev : Nat} {st : PathState}

theorem slot_inj {l l' s s' : Nat} (h : IsSlot d l s) (h' : IsSlot d l' s')
    (heq : slot d l s = slot d l' s') : l = l' ∧ s = s' :=
  lineWord_inj h.fits_line h'.fits_line heq

theorem two_le_words (hfit : Fits d) : 2 ≤ d.lineSize / elementSize :=
  (Nat.le_div_iff_mul_le (by decide)).mpr hfit.eight_le

theorem tailLine_lt (hfit : Fits d) (hdraw : ∀ i, draw i < d.buffer.getSize / d.lineSize) :
    tailLine draw i < d.buffer.getSize / d.lineSize := by
  cases i with
  | zero => exact hfit.lines_pos
  | succ i => exact hdraw i

theorem Grown.isSlot (hfit : Fits d) (h : Grown d draw m i xs prev st) {l s : Nat}
    (hl : l < d.buffer.getSize / d.lineSize) (hs : s ≤ filled draw d.startOffset l i) :
    IsSlot d l s := by
  have htwo := two_le_words hfit
  have hroom := h.room l
  exact ⟨hl, by omega⟩

/-- The tail is the last word of its line that is on the path. -/
theorem Grown.isSlot_tail (hfit : Fits d) (hdraw : ∀ i, draw i < d.buffer.getSize / d.lineSize)
    (h : Grown d draw m i xs prev st) :
    IsSlot d (tailLine draw i) (filled draw d.startOffset (tailLine draw i) i - 1) ∧
      0 < filled draw d.startOffset (tailLine draw i) i := by
  have hslot := h.isSlot hfit (tailLine_lt hfit hdraw (i := i)) (Nat.sub_le _ 1)
  have hmem := (h.mem_iff _ _ hslot).mp (h.tail ▸ by simp)
  exact ⟨hslot, by omega⟩

/-- A word is empty if it is not on the path, or is the word of a tail that is not marked. -/
theorem Grown.load_eq_zero_iff (hzero : ∀ l s, IsSlot d l s → m.load (slot d l s) = 0)
    (h : Grown d draw m i xs prev st) {l s : Nat} (hslot : IsSlot d l s) :
    st.mem.load (slot d l s) = 0 ↔ filled draw d.startOffset l i ≤ s ∨
      (slot d l s = prev ∧ unmarked draw d.startOffset i) := by
  by_cases hs : s < filled draw d.startOffset l i
  · rcases List.mem_append.mp ((h.mem_iff l s hslot).mpr hs) with hin | hlast
    · have hne : slot d l s ≠ prev := fun heq =>
        (List.nodup_append.mp h.path.nodup).2.2 _ hin _ (List.mem_singleton_self _) heq
      exact iff_of_false (h.linked _ hin) (by omega)
    · rw [List.mem_singleton.mp hlast, h.marked]
      constructor
      · exact fun hun => Or.inr ⟨rfl, hun⟩
      · exact fun hor => (hor.resolve_left (by omega)).2
  · refine iff_of_true ?_ (Or.inl (by omega))
    have hnew : slot d l s ∉ xs ++ [prev] := fun hin => hs ((h.mem_iff l s hslot).mp hin)
    rw [h.words.load_eq (h.path.apart_of_not_mem hslot hnew), hzero l s hslot]

/-! ## The search -/

theorem elementIndex_eq (hfit : Fits d) {l s : Nat} (h : IsSlot d l s) :
    elementIndex d l s = slot d l s := by
  have hbounds := h.bounds
  have hwindow := hfit.window
  have haddr : slot d l s = l * d.lineSize + s * elementSize + d.startOffset := by
    simp only [slot, lineWord, elementSize]
    omega
  rw [elementIndex, asUnsigned_of_lt (by simp only [unsignedRange]; omega), ← haddr]
  exact asSizeT_asInt (by omega)

theorem findEmpty_line (hfit : Fits d) {l : Nat} (hl : l < d.buffer.getSize / d.lineSize)
    (m : Memory) : findEmpty m (elementIndex d l) (d.numLineElements - 1) 0 =
      ((List.range (d.lineSize / elementSize - 1)).find? fun s => m.load (slot d l s) = 0).map
        (slot d l) := by
  have hmap : (List.range (d.lineSize / elementSize - 1)).map (elementIndex d l) =
      (List.range (d.lineSize / elementSize - 1)).map (slot d l) := by
    refine List.map_congr_left fun s hs => elementIndex_eq hfit ⟨hl, ?_⟩
    have hs' := List.mem_range.mp hs
    omega
  rw [findEmpty_eq_find?, hfit.numLineElements_eq, ← List.range_eq_range', hmap, List.find?_map]
  rfl

/-- The round that finds the tail again. -/
theorem Grown.findEmpty_again (hfit : Fits d)
    (hdraw : ∀ i, draw i < d.buffer.getSize / d.lineSize)
    (hzero : ∀ l s, IsSlot d l s → m.load (slot d l s) = 0) (h : Grown d draw m i xs prev st)
    (hagain : again draw d.startOffset i = true) :
    findEmpty st.mem (elementIndex d (draw i)) (d.numLineElements - 1) 0 = some prev := by
  obtain ⟨hline, hun⟩ := Bool.and_eq_true_iff.mp hagain
  have hline : draw i = tailLine draw i := beq_iff_eq.mp hline
  obtain ⟨hslot, hpos⟩ := h.isSlot_tail hfit hdraw
  have hroom := h.room (tailLine draw i)
  rw [findEmpty_line hfit (hdraw i), hline, Option.map_eq_some_iff]
  refine ⟨_, List.find?_range_eq_some.mpr ⟨?_, List.mem_range.mpr (by omega), fun s hs => ?_⟩,
    h.tail.symm⟩
  · rw [decide_eq_true_iff, h.load_eq_zero_iff hzero hslot]
    exact Or.inr ⟨h.tail.symm, hun⟩
  · have hslot' : IsSlot d (tailLine draw i) s :=
      ⟨hslot.1, by have := hslot.2; omega⟩
    rw [Bool.not_eq_true', decide_eq_false_iff_not, h.load_eq_zero_iff hzero hslot']
    rintro (hle | ⟨heq, -⟩)
    · omega
    · have := (slot_inj hslot' hslot (heq.trans h.tail)).2
      omega

theorem Grown.load_ne_zero (hfit : Fits d)
    (hdraw : ∀ i, draw i < d.buffer.getSize / d.lineSize)
    (hzero : ∀ l s, IsSlot d l s → m.load (slot d l s) = 0) (h : Grown d draw m i xs prev st)
    (hagain : again draw d.startOffset i = false) {s : Nat}
    (hs : s < filled draw d.startOffset (draw i) i) : st.mem.load (slot d (draw i) s) ≠ 0 := by
  have hslot := h.isSlot hfit (hdraw i) hs.le
  rw [ne_eq, h.load_eq_zero_iff hzero hslot]
  rintro (hle | ⟨heq, hun⟩)
  · omega
  · have hline := (slot_inj hslot (h.isSlot_tail hfit hdraw).1 (heq.trans h.tail)).1
    rw [again, hline, beq_self_eq_true, hun] at hagain
    cases hagain

theorem Grown.findEmpty_new (hfit : Fits d)
    (hdraw : ∀ i, draw i < d.buffer.getSize / d.lineSize)
    (hzero : ∀ l s, IsSlot d l s → m.load (slot d l s) = 0) (h : Grown d draw m i xs prev st)
    (hagain : again draw d.startOffset i = false)
    (hroom : filled draw d.startOffset (draw i) i < d.lineSize / elementSize - 1) :
    findEmpty st.mem (elementIndex d (draw i)) (d.numLineElements - 1) 0 =
      some (slot d (draw i) (filled draw d.startOffset (draw i) i)) := by
  have hslot := h.isSlot hfit (hdraw i) le_rfl
  rw [findEmpty_line hfit (hdraw i), Option.map_eq_some_iff]
  refine ⟨_, List.find?_range_eq_some.mpr ⟨?_, List.mem_range.mpr hroom, fun s hs => ?_⟩, rfl⟩
  · rw [decide_eq_true_iff, h.load_eq_zero_iff hzero hslot]
    exact Or.inl le_rfl
  · rw [Bool.not_eq_true', decide_eq_false_iff_not]
    exact h.load_ne_zero hfit hdraw hzero hagain hs

theorem Grown.findEmpty_full (hfit : Fits d)
    (hdraw : ∀ i, draw i < d.buffer.getSize / d.lineSize)
    (hzero : ∀ l s, IsSlot d l s → m.load (slot d l s) = 0) (h : Grown d draw m i xs prev st)
    (hagain : again draw d.startOffset i = false)
    (hfull : d.lineSize / elementSize - 1 ≤ filled draw d.startOffset (draw i) i) :
    findEmpty st.mem (elementIndex d (draw i)) (d.numLineElements - 1) 0 = none := by
  rw [findEmpty_line hfit (hdraw i), Option.map_eq_none_iff, List.find?_eq_none]
  intro s hs
  rw [decide_eq_true_iff]
  exact h.load_ne_zero hfit hdraw hzero hagain ((List.mem_range.mp hs).trans_le hfull)

/-! ## One round -/

theorem Grown.eq_start (h : Grown d draw m i xs prev st) (hnil : xs = []) :
    prev = d.startOffset := by
  have hhead := h.path.head
  rw [hnil] at hhead
  exact Option.some.inj hhead

theorem Grown.nil_of_eq_start (h : Grown d draw m i xs prev st) (hprev : prev = d.startOffset) :
    xs = [] := by
  have hhead := h.path.head
  have hnodup := h.path.nodup
  cases xs with
  | nil => rfl
  | cons a ys =>
    obtain rfl : a = d.startOffset := Option.some.inj hhead
    exact absurd (by simp [hprev]) (List.nodup_cons.mp hnodup).1

theorem Grown.start_le (h : Grown d draw m i xs prev st) : d.startOffset ≤ prev := by
  obtain ⟨l, s, hslot, rfl⟩ := h.path.slots prev (by simp)
  exact hslot.bounds.1

theorem Grown.lt_wordRange (hfit : Fits d) (h : Grown d draw m i xs prev st) :
    prev < wordRange := by
  obtain ⟨l, s, hslot, rfl⟩ := h.path.slots prev (by simp)
  exact hfit.slot_lt_wordRange hslot

/-- Finding the tail again links it to itself. -/
theorem Grown.stepAgain (hfit : Fits d) (h : Grown d draw m i xs prev st)
    (hagain : again draw d.startOffset i = true) (sequence : List Nat) :
    Grown d draw m (i + 1) xs prev {
      mem := st.mem.store prev prev, sequence := sequence, entries := st.entries + 1 } := by
  obtain ⟨hline, -⟩ := Bool.and_eq_true_iff.mp hagain
  have hline : draw i = tailLine draw i := beq_iff_eq.mp hline
  have hzeros : xs = [] → ∀ j < i + 1, draw j = 0 := by
    intro hnil j hj
    have hbefore := h.still hnil
    rcases Nat.lt_succ_iff_lt_or_eq.mp hj with hlt | rfl
    · exact hbefore j hlt
    · exact hline.trans (tailLine_of_zero hbefore)
  have hfilled := filled_of_again hagain
  constructor
  case path => exact h.path
  case words => exact h.words.store_tail prev
  case linked =>
    intro a ha
    rw [h.words.load_store_tail prev ha]
    exact h.linked a ha
  case marked =>
    rw [Memory.load_store_of_lt _ _ (h.lt_wordRange hfit), unmarked_succ, hagain]
    have hstart := h.start_le
    simp only [Bool.not_true, Bool.false_or, Bool.and_eq_true, beq_iff_eq, List.all_eq_true,
      List.mem_range]
    constructor
    · intro hprev
      exact ⟨by omega, hzeros (h.nil_of_eq_start (by omega))⟩
    · rintro ⟨hzero, hall⟩
      rw [h.eq_start (h.rest hzero fun j hj => hall j (by omega)), hzero]
  case tail =>
    change prev = slot d (draw i) (filled draw d.startOffset (draw i) (i + 1) - 1)
    rw [hfilled, hline]
    exact h.tail
  case mem_iff =>
    intro l s hslot
    rw [hfilled]
    exact h.mem_iff l s hslot
  case room =>
    intro l
    rw [hfilled]
    exact h.room l
  case still => exact hzeros
  case rest => exact fun hstart hall => h.rest hstart fun j hj => hall j (by omega)
  case entries => rw [h.entries]
  case length =>
    have hlength := h.length
    rw [repeats_succ, hagain, if_pos rfl]
    omega

theorem Grown.mem_concat_iff (h : Grown d draw m i xs prev st) {line l s : Nat}
    (hslot : IsSlot d line (filled draw d.startOffset line i)) (hslot' : IsSlot d l s) :
    slot d l s ∈ (xs ++ [prev]) ++ [slot d line (filled draw d.startOffset line i)] ↔
      s < filled draw d.startOffset l i + if line = l then 1 else 0 := by
  rw [List.mem_append, h.mem_iff l s hslot', List.mem_singleton]
  by_cases hline : line = l
  · subst hline
    rw [if_pos rfl]
    constructor
    · rintro (hlt | heq)
      · omega
      · have := (slot_inj hslot' hslot heq).2
        omega
    · intro hs
      rcases Nat.lt_succ_iff_lt_or_eq.mp hs with hlt | rfl
      · exact Or.inl hlt
      · exact Or.inr rfl
  · rw [if_neg hline, Nat.add_zero, or_iff_left]
    exact fun heq => hline (slot_inj hslot' hslot heq).1.symm

/-- Any other round makes the next word of the drawn line the tail. -/
theorem Grown.stepNew (hfit : Fits d) (hdraw : ∀ i, draw i < d.buffer.getSize / d.lineSize)
    (hzero : ∀ l s, IsSlot d l s → m.load (slot d l s) = 0) (h : Grown d draw m i xs prev st)
    (hagain : again draw d.startOffset i = false)
    (hroom : filled draw d.startOffset (draw i) i < d.lineSize / elementSize - 1)
    (sequence : List Nat) :
    let new := slot d (draw i) (filled draw d.startOffset (draw i) i)
    Grown d draw m (i + 1) (xs ++ [prev]) new {
      mem := st.mem.store prev new, sequence := sequence, entries := st.entries + 1 } := by
  intro new
  have hslot : IsSlot d (draw i) (filled draw d.startOffset (draw i) i) :=
    h.isSlot hfit (hdraw i) le_rfl
  have hnew : new ∉ xs ++ [prev] := fun hin =>
    Nat.lt_irrefl _ ((h.mem_iff _ _ hslot).mp hin)
  have hapart : ∀ a ∈ xs ++ [prev], Apart a new := fun a ha =>
    (h.path.apart_of_not_mem hslot hnew a ha).symm
  have hlt : new < wordRange := hfit.slot_lt_wordRange hslot
  have hfilled := filled_of_not_again hagain
  constructor
  case path => exact h.path.concat hslot hnew
  case words => exact h.words.extend hlt hapart
  case linked =>
    intro a ha
    rcases List.mem_append.mp ha with hold | hlast
    · rw [h.words.load_store_tail new hold]
      exact h.linked a hold
    · rw [List.mem_singleton.mp hlast, Memory.load_store_of_lt _ _ hlt]
      exact h.path.ne_zero_of_not_mem hslot hnew
  case marked =>
    rw [Memory.load_store_of_apart _ _ (hapart prev (by simp)), unmarked_succ, hagain]
    exact iff_of_true ((h.load_eq_zero_iff hzero hslot).mpr (Or.inl le_rfl)) rfl
  case tail =>
    change new = slot d (draw i) (filled draw d.startOffset (draw i) (i + 1) - 1)
    rw [hfilled, if_pos rfl, Nat.add_sub_cancel]
  case mem_iff =>
    intro l s hslot'
    rw [hfilled]
    exact h.mem_concat_iff hslot hslot'
  case room =>
    intro l
    have hold := h.room l
    rw [hfilled]
    split <;> rename_i hline
    · subst hline
      omega
    · exact hold
  case still => simp
  case rest =>
    intro hstart hall
    have hbefore : ∀ j < i, draw j = 0 := fun j hj => hall j (by omega)
    rw [again, hall i (Nat.lt_succ_self i), tailLine_of_zero hbefore,
      unmarked_of_zero hstart hbefore] at hagain
    cases hagain
  case entries => rw [h.entries]
  case length =>
    have hlength := h.length
    rw [repeats_succ, hagain, List.length_append, List.length_singleton]
    simp only [Bool.false_eq_true, if_false]
    omega

/-! ## All rounds -/

theorem grown_start (hfit : Fits d) (draw : Nat → Nat)
    (hzero : ∀ l s, IsSlot d l s → m.load (slot d l s) = 0) :
    Grown d draw m 0 [] d.startOffset { mem := m, sequence := [], entries := 0 } where
  path := ⟨rfl, List.nodup_singleton _, fun a ha =>
    ⟨0, 0, hfit.isSlot_zero, by rw [slot_zero, List.mem_singleton.mp ha]⟩⟩
  words := LinkedWords.single m _
  linked a ha := absurd ha List.not_mem_nil
  marked := iff_of_true (slot_zero d ▸ hzero 0 0 hfit.isSlot_zero) rfl
  tail := (slot_zero d).symm
  mem_iff l s hslot := by
    rw [List.nil_append, List.mem_singleton, ← slot_zero]
    constructor
    · intro heq
      obtain ⟨rfl, rfl⟩ := slot_inj hslot hfit.isSlot_zero heq
      exact Nat.one_pos
    · intro hs
      by_cases hl : l = 0
      · obtain rfl : s = 0 := by
          rw [hl] at hs
          exact Nat.lt_one_iff.mp hs
        rw [hl]
      · rw [filled, if_neg hl] at hs
        exact absurd hs (Nat.not_lt_zero s)
  room l := by
    have htwo := two_le_words hfit
    have hle : filled draw d.startOffset l 0 ≤ 1 := by
      rw [filled]
      split <;> simp
    omega
  still _ j hj := absurd hj (Nat.not_lt_zero j)
  rest _ _ := rfl
  entries := rfl
  length := rfl

/-- The loop, from any of its rounds on, by induction on the number of rounds left. -/
theorem distributeLoop_grown (hfit : Fits d)
    (hdraw : ∀ i, draw i < d.buffer.getSize / d.lineSize)
    (hzero : ∀ l s, IsSlot d l s → m.load (slot d l s) = 0) (rounds : Nat)
    (h : Grown d draw m i xs prev st) :
    ∃ ys last st', distributeLoop d draw rounds i (prev, st) = .ok (last, st') ∧
      Grown d draw m
        (roundsRun draw d.startOffset (d.lineSize / elementSize - 1) rounds i) ys last st' := by
  induction rounds generalizing i xs prev st with
  | zero => exact ⟨xs, prev, st, rfl, h⟩
  | succ rounds ih =>
    have hlines : bufferlines d = d.buffer.getSize / d.lineSize := by
      have hle := Nat.div_le_self d.buffer.getSize d.lineSize
      have hwindow := hfit.window
      exact asUnsigned_of_lt (by simp only [unsignedRange]; omega)
    have hassert : decide (draw i < bufferlines d) = true := by
      rw [decide_eq_true_iff, hlines]
      exact hdraw i
    rw [distributeLoop, hassert, assertThat_true, ok_bind, roundsRun_succ]
    cases hagain : again draw d.startOffset i with
    | true =>
      rw [h.findEmpty_again hfit hdraw hzero hagain, Bool.true_or, if_pos rfl]
      exact ih (h.stepAgain hfit hagain _)
    | false =>
      rw [Bool.false_or]
      by_cases hroom : filled draw d.startOffset (draw i) i < d.lineSize / elementSize - 1
      · rw [h.findEmpty_new hfit hdraw hzero hagain hroom, if_pos (decide_eq_true hroom)]
        exact ih (h.stepNew hfit hdraw hzero hagain hroom _)
      · rw [h.findEmpty_full hfit hdraw hzero hagain (Nat.le_of_not_lt hroom),
          if_neg (by simpa using hroom)]
        exact ⟨xs, prev, st, rfl, h⟩

theorem Grown.mem_of_le {j : Nat} {ys : List Nat} {last : Nat} {st' : PathState}
    (h : Grown d draw m i xs prev st) (h' : Grown d draw m j ys last st') (hle : j ≤ i) :
    last ∈ xs ++ [prev] := by
  obtain ⟨l, s, hslot, hlast⟩ := h'.path.slots last (by simp)
  have hs := (h'.mem_iff l s hslot).mp (by simp [hlast])
  rw [hlast]
  exact (h.mem_iff l s hslot).mpr (hs.trans_le (filled_mono l hle))

/-! ## The cycle and its count -/

/-- `doDistribute` completes and leaves one cycle through the start, on which every element placed
in some round occurs once, and `entries` is the number of elements on it. -/
def BuildsCounted (d : Distribution) (draw : Nat → Nat) (m : Memory) : Prop :=
  ∃ (st : PathState) (elements : List Nat), doDistribute d draw m = .ok st ∧
    IsCircuit st.mem.load d.startOffset elements ∧
    (∀ rounds ≤ d.numElements, ∀ previdx st', distributeLoop d draw rounds 0
        (d.startOffset, { mem := m, sequence := [], entries := 0 }) = .ok (previdx, st') →
      previdx ∈ elements) ∧
    st.entries = elements.length

/-- The rounds that `doDistribute` runs. -/
def totalRounds (d : Distribution) (draw : Nat → Nat) : Nat :=
  roundsRun draw d.startOffset (d.lineSize / elementSize - 1) d.numElements 0

/-- There always is one simple cycle; a round that finds the tail again is counted without adding an
element, and the start is an element without being counted. -/
theorem doDistribute_circuit (hfit : Fits d)
    (hdraw : ∀ i, draw i < d.buffer.getSize / d.lineSize)
    (hzero : ∀ l s, IsSlot d l s → m.load (slot d l s) = 0)
    (hslabs : ¬(d.buffer.isLargeBuffer = true ∧ d.buffer.getSlabs ≠ [])) :
    ∃ (st : PathState) (elements : List Nat), doDistribute d draw m = .ok st ∧
      IsCircuit st.mem.load d.startOffset elements ∧
      (∀ rounds ≤ d.numElements, ∀ previdx st', distributeLoop d draw rounds 0
          (d.startOffset, { mem := m, sequence := [], entries := 0 }) = .ok (previdx, st') →
        previdx ∈ elements) ∧
      st.entries + 1 = elements.length + repeats draw d.startOffset (totalRounds d draw) := by
  have hwindow := hfit.window
  have hline := hfit.eight_le
  have hstart := grown_start hfit draw hzero
  obtain ⟨xs, last, st, hloop, hst⟩ :=
    distributeLoop_grown hfit hdraw hzero d.numElements hstart
  have hcheck : (!(d.buffer.isLargeBuffer && !d.buffer.getSlabs.isEmpty)) = true := by
    rw [Bool.not_eq_true', Bool.eq_false_iff]
    simpa using hslabs
  refine ⟨{ st with mem := st.mem.store last d.startOffset }, xs ++ [last], ?_,
    hst.words.close (slot_zero d ▸ hfit.slot_lt_wordRange hfit.isSlot_zero) hst.path.head, ?_, ?_⟩
  · rw [doDistribute, if_neg (by omega), hcheck, assertThat_true, ok_bind,
      asSizeT_asInt (by omega)]
    change (distributeLoop d draw _ 0 _ >>= _) = _
    rw [hloop]
    rfl
  · intro rounds hle previdx st' hloop'
    obtain ⟨ys, last', st'', hloop'', hst'⟩ := distributeLoop_grown hfit hdraw hzero rounds hstart
    obtain ⟨rfl, -⟩ := Prod.mk.inj (Except.ok.inj (hloop'.symm.trans hloop''))
    exact hst.mem_of_le hst' (roundsRun_mono hle 0)
  · have hlength := hst.length
    change st.entries + 1 = _
    rw [hst.entries, List.length_append, List.length_singleton]
    unfold totalRounds
    omega

theorem drawnLine_lt (hpos : 0 < d.buffer.getSize / d.lineSize) (key : Nat → Nat) (i : Nat) :
    drawnLine d key i < d.buffer.getSize / d.lineSize := getNextIDX_lt hpos (key i)

/-- For every zero-filled small buffer and every sequence of lines: the entries are the elements of
one simple cycle through the start if and only if exactly one round finds the tail again. -/
theorem buildsCounted_iff {b : Buffer} {cacheline : Int32} {offset line : Nat}
    (hcache : cacheline.toInt = line) (hline : 8 ≤ line)
    (hstart : b.getStartAddress = b.getBufferPointer + offset)
    (hwindow : offset + b.getSize < 2147483648) (hsmall : b.isLargeBuffer = false)
    (hdraw : ∀ i, draw i < b.getSize / line) {m : Memory}
    (hzero : ∀ a, offset ≤ a → a < offset + b.getSize → m.byte a = 0) :
    BuildsCounted (Distribution.setup b cacheline) draw m ↔
      repeats draw offset (totalRounds (Distribution.setup b cacheline) draw) = 1 := by
  set d := Distribution.setup b cacheline
  have hlineSize : d.lineSize = line := asSizeT_of_toInt hcache
  have hoffset : d.startOffset = offset := startOffset_setup cacheline hstart
  have hle : line ≤ b.getSize := by
    by_contra hlt
    have hnone := hdraw 0
    rw [Nat.div_eq_of_lt (Nat.lt_of_not_le hlt)] at hnone
    exact Nat.not_lt_zero _ hnone
  have hfit : Fits d := ⟨hlineSize ▸ hline, hlineSize ▸ hle, hoffset ▸ hwindow⟩
  have hdraw' : ∀ i, draw i < d.buffer.getSize / d.lineSize := hlineSize ▸ hdraw
  have hempty : ∀ l s, IsSlot d l s → m.load (slot d l s) = 0 :=
    fun _ _ h => h.load_eq_zero (hoffset.symm ▸ hzero)
  obtain ⟨st, elements, hrun, hcircuit, hplaced, hcount⟩ :=
    doDistribute_circuit hfit hdraw' hempty fun h =>
      Bool.false_ne_true (hsmall.symm.trans h.1)
  rw [hoffset] at hcount
  constructor
  · rintro ⟨st', elements', hrun', hcircuit', -, hentries⟩
    obtain rfl := Except.ok.inj (hrun.symm.trans hrun')
    rw [hcircuit.unique hcircuit', ← hentries] at hcount
    omega
  · intro hone
    exact ⟨st, elements, hrun, hcircuit, hplaced, by omega⟩

/-- Of two lines line 0 is drawn all the time: there is one key, and the search ends before its
line. -/
theorem drawnLine_two_lines (hlines : d.buffer.getSize / d.lineSize = 2) :
    (drawnLine d fun _ => 0) = fun _ => 0 := by
  funext i
  rw [drawnLine, hlines, getNextIDX_eq (i := 1) (by decide) (by decide),
    show IsLeaf 2 1 = false from not_isLeaf_half le_rfl]
  rfl

/-- Two lines of 8 bytes, 128 bytes into the pool. -/
theorem buildsCounted_iff_two_lines :
    let d := Distribution.setup ((Buffer.smallPool 16).setBufferOffset 128) 8
    BuildsCounted d (drawnLine d fun _ => 0) zeros := by
  intro d
  have hdraws := drawnLine_two_lines (d := d) (by decide)
  have hiff := buildsCounted_iff (by decide : (8 : Int32).toInt = (8 : Nat)) (by decide)
    (show ((Buffer.smallPool 16).setBufferOffset 128).getStartAddress = _ + 128 from rfl)
    (by decide) rfl (drawnLine_lt (d := d) (by decide) fun _ => 0) (m := zeros) fun _ _ _ => rfl
  exact hiff.mpr (by rw [hdraws]; decide)

/-- At the start of the pool the only link is 0, so that the start stays empty: it is placed in each
of the four rounds, and the cycle has one element. -/
theorem buildsCounted_fails_two_lines :
    let d := Distribution.setup (Buffer.smallPool 16) 8
    ¬BuildsCounted d (drawnLine d fun _ => 0) zeros := by
  intro d
  rw [drawnLine_two_lines (by decide)]
  rintro ⟨st, elements, hrun, hcircuit, -, hentries⟩
  have hmem : (doDistribute d (fun _ => 0) zeros).map (fun st => (st.entries, st.mem.load 0)) =
    .ok (4, 0) := by decide
  rw [hrun] at hmem
  obtain ⟨hfour, hload⟩ := Prod.mk.inj (Except.ok.inj hmem)
  have hstart : d.startOffset = 0 := by decide
  have hcycle : IsCircuit st.mem.load 0 [0] :=
    ⟨rfl, List.nodup_singleton 0, (leads_singleton _ _).mpr hload⟩
  rw [hstart] at hcircuit
  rw [hcircuit.unique hcycle, hfour] at hentries
  cases hentries

end WeightedUniform

end Cachetest
