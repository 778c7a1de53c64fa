import Cachetest.Dictionary
import Cachetest.Machine
import Cachetest.WordRecords
import Mathlib.Algebra.Order.Field.Basic
import Mathlib.Data.List.Sort
import Mathlib.Data.Rat.Defs
import Mathlib.Tactic.FieldSimp

/-!
# loadFramesDump.py

The script reads a dump of page frames, record by record, folds the frames onto the pages of the
last-level cache and these onto its page colours, and adds up by how much each colour is
over-committed and how many of its slots are unused. It only visits the colours that a frame was
counted under. So the two sums differ by the frames less the slots of the colours that occur, and
balance over the whole cache exactly when every colour occurs. Sizes are in kB but for the line
size, which is in bytes.

The floats are taken to be exact, which those of the geometry are when the line size is a power of
two. With another one `PAGES_PER_TRIP` can come out just below an integer, and a colour less is
used.
-/

namespace Cachetest

open WordRecords

namespace LoadFramesDump

/-! ## Python's arithmetic -/

/-- `a / b` for integers. -/
def floorDiv (a b : Int) : Outcome Int :=
  if b = 0 then .error (.thrown "ZeroDivisionError: integer division or modulo by zero")
  else .ok (a.fdiv b)

/-- `a % b` for integers. -/
def floorMod (a b : Int) : Outcome Int :=
  if b = 0 then .error (.thrown "ZeroDivisionError: integer division or modulo by zero")
  else .ok (a.fmod b)

/-- `a / b` for floats. -/
def floatDiv (a b : ℚ) : Outcome ℚ :=
  if b = 0 then .error (.thrown "ZeroDivisionError: float division by zero") else .ok (a / b)

/-- `int(q)`. -/
def truncate (q : ℚ) : Int := q.num.tdiv q.den

/-- `struct.unpack("<I",a[s:s+4])[0]`. -/
def unpack (a : List UInt8) (s : Nat) : Outcome Nat :=
  match wordAt a s with
  | some v => .ok v
  | none => .error (.thrown "struct.error: unpack requires a string argument of length 4")

/-! ## The script -/

/-- What is computed and printed from the sizes before the dump is read. -/
structure Geometry where
  lineSize : ℚ
  numPagesPerLLC : Int
  setSize : ℚ
  numSets : ℚ
  tripSize : ℚ
  pagesPerTrip : ℚ
  pagesPerSet : ℚ
  setsPerPage : ℚ

def geometry (pageSize llcSize assosc lineSize : Int) : Outcome Geometry := do
  let lineSize : ℚ := lineSize / 1024
  let numPagesPerLLC ← floorDiv llcSize pageSize
  let setSize : ℚ := assosc * lineSize
  let numSets ← floatDiv llcSize setSize
  let tripSize := lineSize * numSets
  let pagesPerTrip ← floatDiv tripSize pageSize
  let pagesPerSet ← floatDiv setSize pageSize
  let setsPerPage ← floatDiv 1 pagesPerSet
  return ⟨lineSize, numPagesPerLLC, setSize, numSets, tripSize, pagesPerTrip, pagesPerSet,
    setsPerPage⟩

/-- What the loop over the frames of a record counts. -/
structure FrameCount where
  hist : Dictionary Int Int := ∅
  totalFrames : Nat := 0

/-- A round of that loop, for the `k`-th word from `s` on. -/
def countFrame (g : Geometry) (a : List UInt8) (s : Nat) (st : FrameCount) (k : Nat) :
    Outcome FrameCount := do
  let b ← unpack a (s + 4 * k)
  let page ← floorMod b g.numPagesPerLLC
  return { hist := Dictionary.add st.hist page 1, totalFrames := st.totalFrames + 1 }

/-- `sorted(self.hist.iteritems(),key=operator.itemgetter(1))`. -/
def sortHist (hist : Dictionary Int Int) : List (Int × Int) :=
  (Dictionary.items hist).insertionSort fun i j => i.2 ≤ j.2

/-- The loop that adds up the pages of each colour. -/
def overCommit (g : Geometry) (pages : List (Int × Int)) : Outcome (Dictionary Int Int) :=
  pages.foldlM (fun colours i => do
    let colour ← floorMod i.1 (truncate g.pagesPerTrip)
    return Dictionary.add colours colour i.2) ∅

/-- What the loop over the colours adds up. -/
structure Totals where
  probMiss : ℚ := 0
  pageOverCommit : Int := 0
  unusedSlots : Int := 0

/-- A round of that loop, for a colour that `n` frames were counted under. -/
def countColour (assosc : Int) (totalFrames : Nat) (t : Totals) (n : Int) : Outcome Totals := do
  let excess := max (n - assosc) 0
  let pmiss ← floatDiv excess (excess + assosc)
  let share ← floatDiv n totalFrames
  return {
    probMiss := t.probMiss + pmiss * share
    pageOverCommit := t.pageOverCommit + excess
    unusedSlots := t.unusedSlots + max (assosc - n) 0 }

/-- What is printed for a record. The cover of the used pages comes last but one, and ends the run
when there is none. -/
structure Statistics where
  totalFrames : Nat
  pageOverCommit : Int
  overCommit : Dictionary Int Int
  unusedSlots : Int
  maxUsed : Int
  percentCover : ℚ
  percentCoverMaxUsed : Outcome ℚ
  probMiss : ℚ

def recordStatistics (g : Geometry) (assosc : Int) (st : FrameCount) : Outcome Statistics := do
  let pages := sortHist st.hist
  let colours ← overCommit g pages
  let totals ← (Dictionary.items colours).foldlM
    (fun t i => countColour assosc st.totalFrames t i.2) {}
  let percentCover ← floatDiv pages.length g.numPagesPerLLC
  return {
    totalFrames := st.totalFrames
    pageOverCommit := totals.pageOverCommit
    overCommit := colours
    unusedSlots := totals.unusedSlots
    maxUsed := min (st.totalFrames : Int) g.numPagesPerLLC - pages.length
    percentCover := percentCover
    percentCoverMaxUsed :=
      floatDiv pages.length (min g.numPagesPerLLC (st.totalFrames : Int) : Int)
    probMiss := totals.probMiss }

/-- A record that starts at `s`: its statistics and where the next one starts. -/
def loadRecord (g : Geometry) (assosc : Int) (a : List UInt8) (s : Nat) :
    Outcome (Statistics × Nat) := do
  let seg ← unpack a s
  let st ← (List.range seg).foldlM (countFrame g a (s + 4)) {}
  let statistics ← recordStatistics g assosc st
  return (statistics, s + 4 + 4 * seg)

/-- The statistics printed, and how the run ended. -/
structure Report where
  statistics : List Statistics
  ended : Outcome Unit

/-- `while s < len(a)`, for at most as many rounds as given. -/
def loadLoop (g : Geometry) (assosc : Int) (a : List UInt8) : Nat → Nat → Report
  | 0, _ => ⟨[], .error (.undefined "loadFramesDump does not end")⟩
  | rounds + 1, s =>
    if s < a.length then
      match loadRecord g assosc a s with
      | .error stop => ⟨[], .error stop⟩
      | .ok (st, s') =>
        match st.percentCoverMaxUsed with
        | .error stop => ⟨[st], .error stop⟩
        | .ok _ =>
          let rest := loadLoop g assosc a rounds s'
          ⟨st :: rest.statistics, rest.ended⟩
    else ⟨[], .ok ()⟩

/-- `LoadFramesDump.__init__` on the contents of a dump. Every round reads at least four bytes. -/
def loadFramesDump (a : List UInt8) (pageSize llcSize assosc lineSize : Int) :
    Outcome Report := do
  let g ← geometry pageSize llcSize assosc lineSize
  return loadLoop g assosc a (a.length + 1) 0

/-! ## The cache -/

/-- The sizes of a cache with `colours` page colours. -/
structure IsGeometry (pageSize llcSize assosc lineSize : Int) (colours : Nat) : Prop where
  pageSize_pos : 0 < pageSize
  assosc_pos : 0 < assosc
  lineSize_pos : 0 < lineSize
  colours_pos : 0 < colours
  colours_eq : (colours : ℚ) = llcSize / (assosc * pageSize)

theorem floorDiv_of_ne {a b : Int} (h : b ≠ 0) : floorDiv a b = .ok (a.fdiv b) := if_neg h

theorem floorMod_of_ne {a b : Int} (h : b ≠ 0) : floorMod a b = .ok (a.fmod b) := if_neg h

theorem floatDiv_of_ne {a b : ℚ} (h : b ≠ 0) : floatDiv a b = .ok (a / b) := if_neg h

@[simp] theorem truncate_natCast (n : Nat) : truncate n = n := by simp [truncate]

theorem IsGeometry.llcSize_eq {pageSize llcSize assosc lineSize : Int} {colours : Nat}
    (h : IsGeometry pageSize llcSize assosc lineSize colours) :
    llcSize = colours * assosc * pageSize := by
  have hassosc : (assosc : ℚ) ≠ 0 := Int.cast_ne_zero.mpr h.assosc_pos.ne'
  have hpageSize : (pageSize : ℚ) ≠ 0 := Int.cast_ne_zero.mpr h.pageSize_pos.ne'
  have hcolours := (eq_div_iff (mul_ne_zero hassosc hpageSize)).mp h.colours_eq
  have hcast : (llcSize : ℚ) = ((colours * assosc * pageSize : Int) : ℚ) := by
    push_cast
    rw [← hcolours, mul_assoc]
  exact_mod_cast hcast

/-- The cache has as many pages as slots of all colours, and a trip through its sets passes every
colour once. -/
theorem geometry_eq {pageSize llcSize assosc lineSize : Int} {colours : Nat}
    (h : IsGeometry pageSize llcSize assosc lineSize colours) :
    ∃ g, geometry pageSize llcSize assosc lineSize = .ok g ∧
      g.numPagesPerLLC = colours * assosc ∧ truncate g.pagesPerTrip = colours := by
  have hassosc : (assosc : ℚ) ≠ 0 := Int.cast_ne_zero.mpr h.assosc_pos.ne'
  have hpageSize : (pageSize : ℚ) ≠ 0 := Int.cast_ne_zero.mpr h.pageSize_pos.ne'
  have hline : (lineSize : ℚ) / 1024 ≠ 0 :=
    div_ne_zero (Int.cast_ne_zero.mpr h.lineSize_pos.ne') (by norm_num)
  have hset : (assosc : ℚ) * (lineSize / 1024) ≠ 0 := mul_ne_zero hassosc hline
  have hpages : llcSize.fdiv pageSize = colours * assosc := by
    rw [h.llcSize_eq, Int.mul_fdiv_cancel _ h.pageSize_pos.ne']
  have htrip : (lineSize : ℚ) / 1024 * (llcSize / (assosc * (lineSize / 1024))) / pageSize =
      colours := by
    have hlineSize : (lineSize : ℚ) ≠ 0 := Int.cast_ne_zero.mpr h.lineSize_pos.ne'
    rw [h.colours_eq]
    field_simp
  have hrun : ∃ g, geometry pageSize llcSize assosc lineSize = .ok g ∧
      g.numPagesPerLLC = llcSize.fdiv pageSize ∧ g.pagesPerTrip =
        (lineSize : ℚ) / 1024 * (llcSize / (assosc * (lineSize / 1024))) / pageSize := by
    simp only [geometry, floorDiv_of_ne h.pageSize_pos.ne', floatDiv_of_ne hset,
      floatDiv_of_ne hpageSize, floatDiv_of_ne (div_ne_zero hset hpageSize), ok_bind]
    exact ⟨_, rfl, rfl, rfl⟩
  obtain ⟨g, hg, hpages', htrip'⟩ := hrun
  exact ⟨g, hg, by rw [hpages', hpages], by rw [htrip', htrip, truncate_natCast]⟩

/-! ## Counting frames -/

/-- A cache's own numbers: its pages, and its colours as the script has them. -/
structure FitsCache (g : Geometry) (assosc : Int) (colours : Nat) : Prop where
  assosc_pos : 0 < assosc
  colours_pos : 0 < colours
  numPagesPerLLC : g.numPagesPerLLC = colours * assosc
  pagesPerTrip : truncate g.pagesPerTrip = colours

/-- The page of the cache that a frame is counted under. -/
def pageOf (colours : Nat) (assosc : Int) (b : Nat) : Int := (b : Int).fmod (colours * assosc)

section Record

variable {g : Geometry} {assosc : Int} {colours : Nat}

theorem FitsCache.numPagesPerLLC_pos (h : FitsCache g assosc colours) : 0 < g.numPagesPerLLC := by
  rw [h.numPagesPerLLC]
  exact mul_pos (Int.natCast_pos.mpr h.colours_pos) h.assosc_pos

/-- A frame is counted under its page. -/
def countPage (colours : Nat) (assosc : Int) (st : FrameCount) (b : Nat) : FrameCount :=
  ⟨Dictionary.add st.hist (pageOf colours assosc b) 1, st.totalFrames + 1⟩

/-- What has been counted after all frames of a record. -/
def framesOf (colours : Nat) (assosc : Int) (words : List Nat) : FrameCount where
  hist := Dictionary.addAll ∅ (words.map fun b => (pageOf colours assosc b, 1))
  totalFrames := words.length

theorem foldl_countPage (st : FrameCount) (words : List Nat) :
    words.foldl (countPage colours assosc) st =
      ⟨Dictionary.addAll st.hist (words.map fun b => (pageOf colours assosc b, 1)),
        st.totalFrames + words.length⟩ := by
  induction words generalizing st with
  | nil => rfl
  | cons b words ih =>
    rw [List.foldl_cons, ih, countPage, List.length_cons, Nat.add_assoc, Nat.add_comm 1]
    rfl

theorem foldlM_countFrame (h : FitsCache g assosc colours) {a : List UInt8} {s : Nat}
    {words : List Nat}
    (hwords : ∀ k, ∀ hk : k < words.length, wordAt a (s + 4 * k) = some words[k]) :
    (List.range words.length).foldlM (countFrame g a s) {} =
      .ok (framesOf colours assosc words) := by
  have hround : ∀ (st : FrameCount) (k : Nat) (hk : k < words.length),
      countFrame g a s st k = .ok (countPage colours assosc st words[k]) := by
    intro st k hk
    have hunpack : unpack a (s + 4 * k) = .ok words[k] := by rw [unpack, hwords k hk]
    rw [countFrame, hunpack, ok_bind, floorMod_of_ne h.numPagesPerLLC_pos.ne', ok_bind, countPage,
      pageOf, ← h.numPagesPerLLC]
    rfl
  rw [foldlM_range_eq_ok hround, foldl_countPage, Nat.zero_add]
  rfl

theorem overCommit_eq (h : FitsCache g assosc colours) (pages : List (Int × Int)) :
    overCommit g pages =
      .ok (Dictionary.addAll ∅ (pages.map fun i => (i.1.fmod colours, i.2))) := by
  have hne : truncate g.pagesPerTrip ≠ 0 := by
    rw [h.pagesPerTrip]
    exact (Int.natCast_pos.mpr h.colours_pos).ne'
  rw [overCommit, foldlM_eq_ok (g := fun d i => Dictionary.add d (i.1.fmod colours) i.2)]
  · rw [Dictionary.addAll, List.foldl_map]
  · intro d i _
    rw [floorMod_of_ne hne, ok_bind, h.pagesPerTrip]
    rfl

theorem sortHist_perm (hist : Dictionary Int Int) :
    (sortHist hist).Perm (Dictionary.items hist) := List.perm_insertionSort _ _

/-! ## The two sums -/

/-- The over-committed and the unused slots of some colours differ by their frames less their
slots. -/
theorem sum_excess_sub_unused (assosc : Int) (ns : List Int) :
    (ns.map fun n => max (n - assosc) 0).sum - (ns.map fun n => max (assosc - n) 0).sum =
      ns.sum - assosc * ns.length := by
  induction ns with
  | nil => simp
  | cons n ns ih =>
    have hone : max (n - assosc) 0 - max (assosc - n) 0 = n - assosc := by omega
    simp only [List.map_cons, List.sum_cons, List.length_cons, Nat.cast_succ, mul_add, mul_one]
    omega

theorem foldlM_countColour (hassosc : 0 < assosc) {totalFrames : Nat} {ns : List Int}
    (htotal : ns ≠ [] → totalFrames ≠ 0) (t : Totals) :
    ∃ t', ns.foldlM (countColour assosc totalFrames) t = .ok t' ∧
      t'.pageOverCommit = t.pageOverCommit + (ns.map fun n => max (n - assosc) 0).sum ∧
      t'.unusedSlots = t.unusedSlots + (ns.map fun n => max (assosc - n) 0).sum := by
  induction ns generalizing t with
  | nil => exact ⟨t, rfl, by simp, by simp⟩
  | cons n ns ih =>
    have htotal' : (totalFrames : ℚ) ≠ 0 := Nat.cast_ne_zero.mpr (htotal (List.cons_ne_nil _ _))
    have hslots : ((max (n - assosc) 0 : Int) : ℚ) + assosc ≠ 0 := by
      have hpos : 0 < max (n - assosc) 0 + assosc := by omega
      exact_mod_cast hpos.ne'
    obtain ⟨t', ht', hover, hunused⟩ := ih (fun _ => htotal (List.cons_ne_nil _ _))
      { probMiss := t.probMiss +
          ((max (n - assosc) 0 : Int) : ℚ) / (((max (n - assosc) 0 : Int) : ℚ) + assosc) *
            (n / totalFrames)
        pageOverCommit := t.pageOverCommit + max (n - assosc) 0
        unusedSlots := t.unusedSlots + max (assosc - n) 0 }
    refine ⟨t', ?_, ?_, ?_⟩
    · rw [List.foldlM_cons, countColour, floatDiv_of_ne hslots, ok_bind, floatDiv_of_ne htotal',
        ok_bind]
      exact ht'
    · rw [hover, List.map_cons, List.sum_cons, add_assoc]
    · rw [hunused, List.map_cons, List.sum_cons, add_assoc]

/-! ## The statistics of a record -/

/-- The colours that some frames are counted under are those of the frames. -/
theorem fmod_pageOf (colours : Nat) {assosc : Int} (hassosc : 0 < assosc) (b : Nat) :
    (pageOf colours assosc b).fmod colours = (b % colours : Nat) := by
  have hpos : (0 : Int) ≤ colours := Int.natCast_nonneg _
  rw [pageOf, Int.fmod_eq_emod_of_nonneg _ (mul_nonneg hpos hassosc.le),
    Int.fmod_eq_emod_of_nonneg _ hpos, Int.emod_emod_of_dvd _ (Dvd.intro _ rfl), Int.natCast_emod]

/-- What the statistics of a record amount to: the colours that occur, with all its frames; the
difference of the two sums; and a cover of the used pages, unless the record is empty. -/
structure Summarises (colours : Nat) (assosc : Int) (words : List Nat) (st : Statistics) :
    Prop where
  totalFrames : st.totalFrames = words.length
  total : Dictionary.total st.overCommit = words.length
  mem : ∀ c : Int, c ∈ st.overCommit ↔ ∃ b ∈ words, ((b % colours : Nat) : Int) = c
  difference : st.pageOverCommit - st.unusedSlots =
    words.length - assosc * st.overCommit.keys.length
  cover : words ≠ [] → ∃ q, st.percentCoverMaxUsed = .ok q
  empty : words = [] → st.percentCoverMaxUsed =
    .error (.thrown "ZeroDivisionError: float division by zero")

/-- The dictionary of colours for the frames of a record. -/
def coloursOf (colours : Nat) (assosc : Int) (words : List Nat) : Dictionary Int Int :=
  Dictionary.addAll ∅
    ((sortHist (framesOf colours assosc words).hist).map fun i => (i.1.fmod colours, i.2))

theorem total_coloursOf (colours : Nat) (assosc : Int) (words : List Nat) :
    Dictionary.total (coloursOf colours assosc words) = words.length := by
  rw [coloursOf, Dictionary.total_addAll, Dictionary.total_empty, zero_add, List.map_map,
    Function.comp_def, ((sortHist_perm _).map Prod.snd).sum_eq, Dictionary.map_snd_items]
  have htotal := Dictionary.total_addAll ∅
    (words.map fun b => (pageOf colours assosc b, (1 : Int)))
  rw [Dictionary.total_empty, zero_add, List.map_map, Function.comp_def] at htotal
  exact htotal.trans (by simp)

theorem mem_coloursOf (h : FitsCache g assosc colours) {words : List Nat} {c : Int} :
    c ∈ coloursOf colours assosc words ↔ ∃ b ∈ words, ((b % colours : Nat) : Int) = c := by
  have hpages : ∀ page : Int, page ∈ (sortHist (framesOf colours assosc words).hist).map Prod.fst ↔
      ∃ b ∈ words, pageOf colours assosc b = page := by
    intro page
    rw [((sortHist_perm _).map Prod.fst).mem_iff, Dictionary.map_fst_items, ← AList.mem_keys,
      framesOf, Dictionary.mem_addAll, List.map_map]
    simp
  rw [coloursOf, Dictionary.mem_addAll, List.map_map]
  simp only [AList.notMem_empty, or_false]
  constructor
  · intro hc
    obtain ⟨i, hi, rfl⟩ := List.mem_map.mp hc
    obtain ⟨b, hb, hpage⟩ := (hpages i.1).mp (List.mem_map_of_mem hi)
    refine ⟨b, hb, ?_⟩
    rw [← fmod_pageOf colours h.assosc_pos, hpage]
    rfl
  · rintro ⟨b, hb, rfl⟩
    obtain ⟨i, hi, hpage⟩ := List.mem_map.mp ((hpages _).mpr ⟨b, hb, rfl⟩)
    refine List.mem_map.mpr ⟨i, hi, ?_⟩
    rw [← fmod_pageOf colours h.assosc_pos, ← hpage]
    rfl

theorem recordStatistics_eq (h : FitsCache g assosc colours) (words : List Nat) :
    ∃ st, recordStatistics g assosc (framesOf colours assosc words) = .ok st ∧
      Summarises colours assosc words st := by
  have hcolours : overCommit g (sortHist (framesOf colours assosc words).hist) =
      .ok (coloursOf colours assosc words) := overCommit_eq h _
  have hvalues : Dictionary.values (coloursOf colours assosc words) ≠ [] →
      (framesOf colours assosc words).totalFrames ≠ 0 := by
    intro hne hzero
    obtain rfl := List.length_eq_zero_iff.mp hzero
    have hkeys := List.length_pos_iff.mpr hne
    rw [Dictionary.length_values] at hkeys
    obtain ⟨c, hc⟩ := List.exists_mem_of_length_pos hkeys
    obtain ⟨b, hb, -⟩ := (mem_coloursOf h).mp (AList.mem_keys.mpr hc)
    cases hb
  obtain ⟨totals, htotals, hover, hunused⟩ := foldlM_countColour h.assosc_pos hvalues {}
  rw [← Dictionary.map_snd_items, List.foldlM_map] at htotals
  have hpages : (g.numPagesPerLLC : ℚ) ≠ 0 := Int.cast_ne_zero.mpr h.numPagesPerLLC_pos.ne'
  have hmin : min g.numPagesPerLLC (words.length : Int) = 0 ↔ words = [] := by
    have := h.numPagesPerLLC_pos
    rw [← List.length_eq_zero_iff]
    omega
  rw [recordStatistics, hcolours, ok_bind, htotals, ok_bind, floatDiv_of_ne hpages, ok_bind]
  refine ⟨_, rfl, rfl, total_coloursOf colours assosc words, fun c => mem_coloursOf h, ?_,
    fun hne => ?_, fun hnil => ?_⟩
  · have hsum := sum_excess_sub_unused assosc (Dictionary.values (coloursOf colours assosc words))
    have htotal := total_coloursOf colours assosc words
    rw [Dictionary.total] at htotal
    rw [htotal, Dictionary.length_values] at hsum
    rw [hover, hunused, zero_add, zero_add]
    exact hsum
  · exact ⟨_, floatDiv_of_ne (Int.cast_ne_zero.mpr fun hzero => hne (hmin.mp hzero))⟩
  · exact if_pos (Int.cast_eq_zero.mpr (hmin.mpr hnil))

/-! ## The balance -/

/-- The statistics balance over a cache: every frame is counted under a colour, and every slot is
used, over-committed or unused. -/
structure Balanced (colours : Nat) (assosc : Int) (st : Statistics) : Prop where
  total : Dictionary.total st.overCommit = st.totalFrames
  slots : st.pageOverCommit - st.unusedSlots = st.totalFrames - assosc * colours

theorem length_eq_iff_forall_mem {ks : List Int} {n : Nat} (hks : ks.Nodup)
    (hlt : ∀ c ∈ ks, ∃ i < n, ((i : Nat) : Int) = c) :
    ks.length = n ↔ ∀ i < n, ((i : Nat) : Int) ∈ ks := by
  have hall : (List.map (Nat.cast : Nat → Int) (List.range n)).Nodup :=
    List.nodup_range.map Nat.cast_injective
  have hlen : (List.map (Nat.cast : Nat → Int) (List.range n)).length = n := by simp
  have hsubset : ks ⊆ List.map (Nat.cast : Nat → Int) (List.range n) := fun c hc => by
    obtain ⟨i, hi, rfl⟩ := hlt c hc
    exact List.mem_map_of_mem (List.mem_range.mpr hi)
  constructor
  · intro heq i hi
    have hperm := (List.subperm_of_subset hks hsubset).perm_of_length_le (by rw [hlen, heq])
    exact hperm.mem_iff.mpr (List.mem_map_of_mem (List.mem_range.mpr hi))
  · intro hmem
    have hsuperset : List.map (Nat.cast : Nat → Int) (List.range n) ⊆ ks := fun c hc => by
      obtain ⟨i, hi, rfl⟩ := List.mem_map.mp hc
      exact hmem i (List.mem_range.mp hi)
    have hle := (List.subperm_of_subset hks hsubset).length_le
    have hge := (List.subperm_of_subset hall hsuperset).length_le
    omega

/-- **The statistics of a record balance exactly when every colour occurs in it.** -/
theorem balanced_iff (h : FitsCache g assosc colours) {words : List Nat} {st : Statistics}
    (hst : Summarises colours assosc words st) :
    Balanced colours assosc st ↔ ∀ c < colours, ∃ b ∈ words, b % colours = c := by
  have hlength : st.overCommit.keys.length = colours ↔
      ∀ c < colours, ∃ b ∈ words, b % colours = c := by
    rw [length_eq_iff_forall_mem st.overCommit.keys_nodup]
    · simp only [← AList.mem_keys, hst.mem, Int.natCast_inj]
    · intro c hc
      obtain ⟨b, -, rfl⟩ := (hst.mem c).mp (AList.mem_keys.mpr hc)
      exact ⟨b % colours, Nat.mod_lt _ h.colours_pos, rfl⟩
  rw [← hlength]
  constructor
  · intro hbalanced
    have hslots := hbalanced.slots
    rw [hst.difference, hst.totalFrames, sub_right_inj] at hslots
    exact_mod_cast mul_left_cancel₀ h.assosc_pos.ne' hslots
  · intro hcolours
    refine ⟨by rw [hst.total, hst.totalFrames], ?_⟩
    rw [hst.difference, hst.totalFrames, hcolours]

/-! ## Whole dumps -/

/-- The records of a dump that are processed: an empty one ends the run. -/
def processed : List (List Nat) → List (List Nat)
  | [] => []
  | [] :: _ => [[]]
  | (b :: words) :: records => (b :: words) :: processed records

theorem processed_eq_self {records : List (List Nat)} (h : [] ∉ records) :
    processed records = records := by
  induction records with
  | nil => rfl
  | cons words records ih =>
    cases words with
    | nil => exact absurd List.mem_cons_self h
    | cons b words => rw [processed, ih (List.not_mem_of_not_mem_cons h)]

theorem loadRecord_eq (h : FitsCache g assosc colours) {words : List Nat}
    (hwords : WellFormed words) (front back : List UInt8) :
    ∃ st, loadRecord g assosc (front ++ (recordBytes words ++ back)) front.length =
        .ok (st, (front ++ recordBytes words).length) ∧ Summarises colours assosc words st := by
  obtain ⟨st, hrun, hst⟩ := recordStatistics_eq h words
  have hseg : unpack (front ++ (recordBytes words ++ back)) front.length = .ok words.length := by
    rw [unpack, wordAt_record hwords]
  have hframes := foldlM_countFrame h
    (fun k hk => wordAt_record_word hwords front back (k := k) hk)
  refine ⟨st, ?_, hst⟩
  rw [loadRecord, hseg, ok_bind, hframes, ok_bind, hrun, ok_bind, List.length_append,
    length_recordBytes, ← Nat.add_assoc]
  rfl

/-- The loop of the script: it processes the records one after the other, and an empty one ends the
run. -/
theorem loadLoop_dump (h : FitsCache g assosc colours) {records : List (List Nat)}
    (hrecords : ∀ words ∈ records, WellFormed words) (front : List UInt8) {rounds : Nat}
    (hrounds : records.length < rounds) :
    ∃ report,
      loadLoop g assosc (front ++ records.flatMap recordBytes) rounds front.length = report ∧
      List.Forall₂ (Summarises colours assosc) (processed records) report.statistics ∧
      report.ended = if [] ∈ records
        then .error (.thrown "ZeroDivisionError: float division by zero") else .ok () := by
  induction records generalizing front rounds with
  | nil =>
    obtain ⟨rounds, rfl⟩ := Nat.exists_eq_succ_of_ne_zero (Nat.ne_of_gt hrounds)
    exact ⟨⟨[], .ok ()⟩, by simp [loadLoop], List.Forall₂.nil, rfl⟩
  | cons words records ih =>
    obtain ⟨rounds, rfl⟩ := Nat.exists_eq_succ_of_ne_zero (Nat.ne_of_gt (Nat.zero_lt_of_lt hrounds))
    obtain ⟨st, hrun, hst⟩ := loadRecord_eq h (hrecords words List.mem_cons_self) front
      (records.flatMap recordBytes)
    have hlt : front.length <
        (front ++ (recordBytes words ++ records.flatMap recordBytes)).length := by
      rw [List.length_append, List.length_append, length_recordBytes]
      omega
    rw [List.flatMap_cons, loadLoop, if_pos hlt, hrun]
    cases words with
    | nil =>
      refine ⟨⟨[st], _⟩, ?_, List.Forall₂.cons hst List.Forall₂.nil,
        (if_pos List.mem_cons_self).symm⟩
      simp only [hst.empty rfl]
    | cons b words =>
      obtain ⟨q, hq⟩ := hst.cover (List.cons_ne_nil b words)
      obtain ⟨report, hreport, hstatistics, hended⟩ :=
        ih (fun words hwords => hrecords words (List.mem_cons_of_mem _ hwords))
          (front ++ recordBytes (b :: words)) (Nat.lt_of_succ_lt_succ hrounds)
      rw [List.append_assoc] at hreport
      refine ⟨⟨st :: report.statistics, report.ended⟩, ?_, List.Forall₂.cons hst hstatistics, ?_⟩
      · simp only [hq, hreport]
      · simpa using hended

theorem length_le_length_dump (records : List (List Nat)) :
    records.length ≤ (records.flatMap recordBytes).length := by
  induction records with
  | nil => exact le_rfl
  | cons words records ih =>
    rw [List.flatMap_cons, List.length_append, length_recordBytes, List.length_cons]
    omega

end Record

/-- A run on a dump of records: statistics for the records up to the first empty one, which ends the
run. -/
theorem loadFramesDump_eq {pageSize llcSize assosc lineSize : Int} {colours : Nat}
    (hgeometry : IsGeometry pageSize llcSize assosc lineSize colours) {records : List (List Nat)}
    (hrecords : ∀ words ∈ records, WellFormed words) :
    ∃ g report, FitsCache g assosc colours ∧
      loadFramesDump (records.flatMap recordBytes) pageSize llcSize assosc lineSize = .ok report ∧
      List.Forall₂ (Summarises colours assosc) (processed records) report.statistics ∧
      report.ended = if [] ∈ records
        then .error (.thrown "ZeroDivisionError: float division by zero") else .ok () := by
  obtain ⟨g, hg, hpages, htrip⟩ := geometry_eq hgeometry
  have hfits : FitsCache g assosc colours :=
    ⟨hgeometry.assosc_pos, hgeometry.colours_pos, hpages, htrip⟩
  obtain ⟨report, hreport, hstatistics, hended⟩ := loadLoop_dump hfits hrecords []
    (Nat.lt_succ_of_le (length_le_length_dump records))
  refine ⟨g, report, hfits, ?_, hstatistics, hended⟩
  rw [loadFramesDump, hg, ok_bind, ← hreport]
  rfl

/-- A dump without empty records is read to its end, and every record gets its statistics. -/
theorem loadFramesDump_completes {pageSize llcSize assosc lineSize : Int} {colours : Nat}
    (hgeometry : IsGeometry pageSize llcSize assosc lineSize colours) {records : List (List Nat)}
    (hrecords : ∀ words ∈ records, WellFormed words) (hempty : [] ∉ records) :
    ∃ report,
      loadFramesDump (records.flatMap recordBytes) pageSize llcSize assosc lineSize = .ok report ∧
      List.Forall₂ (Summarises colours assosc) records report.statistics ∧
      report.ended = .ok () := by
  obtain ⟨_, report, -, hrun, hstatistics, hended⟩ := loadFramesDump_eq hgeometry hrecords
  rw [processed_eq_self hempty] at hstatistics
  exact ⟨report, hrun, hstatistics, hended.trans (if_neg hempty)⟩

/-- **Which statistics balance.** For every cache geometry and every dump of records the script
prints statistics for the records up to the first empty one, and those of a record balance exactly
when each colour of the cache has a frame in the record. -/
theorem loadFramesDump_balanced (pageSize llcSize assosc lineSize : Int) (colours : Nat)
    (hgeometry : IsGeometry pageSize llcSize assosc lineSize colours) (records : List (List Nat))
    (hrecords : ∀ words ∈ records, WellFormed words) :
    ∃ report, loadFramesDump (records.flatMap recordBytes) pageSize llcSize assosc lineSize =
        .ok report ∧
      List.Forall₂ (fun words st => st.totalFrames = words.length ∧
          (Balanced colours assosc st ↔ ∀ c < colours, ∃ b ∈ words, b % colours = c))
        (processed records) report.statistics := by
  obtain ⟨_, report, hfits, hrun, hstatistics, -⟩ := loadFramesDump_eq hgeometry hrecords
  exact ⟨report, hrun, hstatistics.imp fun _ _ hst => ⟨hst.totalFrames, balanced_iff hfits hst⟩⟩

/-- A cache of two colours with one slot each, and a dump with two records. -/
theorem loadFramesDump_balanced_two :
    ∃ report, loadFramesDump ([[0, 3, 5], [2, 4]].flatMap recordBytes) 4 8 1 64 = .ok report ∧
      List.Forall₂ (fun words st => st.totalFrames = words.length ∧
          (Balanced 2 1 st ↔ ∀ c < 2, ∃ b ∈ words, b % 2 = c))
        (processed [[0, 3, 5], [2, 4]]) report.statistics :=
  loadFramesDump_balanced 4 8 1 64 2
    ⟨by decide, by decide, by decide, by decide, by norm_num⟩ [[0, 3, 5], [2, 4]] (by
      intro words hwords
      constructor
      · revert words
        decide
      · revert words
        decide)

/-- In the same cache, two frames of one colour: one frame too many for its slot, and no slot that
is counted as unused, although the whole cache has a slot for each. -/
theorem loadFramesDump_unseen_colour :
    IsGeometry 4 8 1 64 2 ∧
      (loadFramesDump ([[0, 2]].flatMap recordBytes) 4 8 1 64).map (fun report =>
        report.statistics.map fun st => (st.totalFrames, st.pageOverCommit, st.unusedSlots)) =
          .ok [(2, 1, 0)] ∧
      ∀ st : Statistics, (st.totalFrames, st.pageOverCommit, st.unusedSlots) = (2, 1, 0) →
        ¬Balanced 2 1 st := by
  refine ⟨⟨by decide, by decide, by decide, by decide, by norm_num⟩, by decide +kernel, ?_⟩
  intro st hst hbalanced
  simp only [Prod.mk.injEq] at hst
  have hslots := hbalanced.slots
  rw [hst.1, hst.2.1, hst.2.2] at hslots
  exact absurd hslots (by decide)

end LoadFramesDump

end Cachetest
