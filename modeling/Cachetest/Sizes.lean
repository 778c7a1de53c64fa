import Cachetest.ParseOptions

/-!
# Sizes and indices

The dataset is given in KB. On its way to the size of the buffer it goes through a `long`, an `int`
that is shifted, an `unsigned int` product, an `int` and a `size_t`, and the indices of the path are
`unsigned int`s. `sizes_exact_iff` says when nothing is lost on the way.
-/

namespace Cachetest

open Text

/-! ## The dataset -/

/-- What `strtol` makes of an integer: the nearest `long`. -/
def clampLong (v : Int) : Int := max (-9223372036854775808) (min 9223372036854775807 v)

/-- For a request of `kb` KB on huge pages, the guard of `main` rejects it exactly when it is larger
than 1GB. -/
def GuardExact (opt : Options) (kb : Int) : Prop :=
  opt.huge = true → (checkHugeDataset opt ≠ .ok () ↔ 2 ^ 30 < kb * 1024)

/-- The sizes that survive: those of an `int`, and those a negative `int` becomes. -/
def SizeFits (size : Int) : Prop :=
  (0 ≤ size ∧ size < 2 ^ 31) ∨ (2 ^ 64 - 2 ^ 31 ≤ size ∧ size < 2 ^ 64)

theorem toNat_shiftLeft_ten (v : Int) :
    (((Int32.ofInt v <<< 10).toUInt32.toNat : Nat) : Int) = 1024 * (v % 4194304) := by
  have hshift : (Int32.ofInt v <<< 10).toUInt32.toNat =
      ((v % 4294967296).toNat * 2 ^ 10) % 4294967296 := by
    rw [← Int32.toNat_toBitVec, Int32.toBitVec_shiftLeft, BitVec.shiftLeft_eq',
      show ((10 : Int32).toBitVec.smod 32).toNat = 10 from by decide, BitVec.toNat_shiftLeft,
      Nat.shiftLeft_eq]
    rfl
  omega

variable {ε : Type} {env : Environment ε} {program dataset : Text} {args files : List Text}
  {p : Parsed ε} {kb : Int}

theorem parseOptions_dataset (hoperands : (getopt optArgString args).2 = dataset :: files)
    (hkb : scanInteger dataset = some kb) (hparse : parseOptions env program args = .ok p) :
    (p.opt.dataset.toNat : Int) = 1024 * (clampLong kb % 4194304) := by
  obtain ⟨⟨v, files'⟩, hscan, -⟩ := bind_eq_ok.mp hparse
  rw [(parseOptions_ok hscan hparse).1]
  obtain ⟨w, -, h⟩ := bind_eq_ok.mp hscan
  rw [hoperands] at h
  obtain ⟨rfl, -⟩ := Prod.mk.inj (Except.ok.inj h)
  have hatoi : atoi dataset = Int32.ofInt (clampLong kb) := by
    rw [atoi, hkb]
    rfl
  rw [← toNat_shiftLeft_ten, ← hatoi]

theorem checkHugeDataset_ok {opt : Options} :
    checkHugeDataset opt = .ok () ↔ ¬(opt.huge = true ∧ 2 ^ 30 < opt.dataset.toNat) := by
  have hlt : opt.dataset > 1073741824 ↔ 2 ^ 30 < opt.dataset.toNat := UInt32.lt_iff_toNat_lt
  rw [← hlt]
  by_cases h : opt.huge = true ∧ opt.dataset > 1073741824
  · simp [checkHugeDataset, h]
  · simp only [h, not_false_eq_true, iff_true]
    rw [checkHugeDataset, if_neg (by simpa using h)]
    rfl

/-- The guard sees the low 22 bits of the number of KB. -/
theorem guardExact_iff {opt : Options}
    (hdataset : (opt.dataset.toNat : Int) = 1024 * (clampLong kb % 4194304)) :
    GuardExact opt kb ↔
      (opt.huge = true → (2 ^ 20 < clampLong kb % 2 ^ 22 ↔ 2 ^ 20 < kb)) := by
  unfold GuardExact
  apply imp_congr_right
  intro hhuge
  rw [ne_eq, checkHugeDataset_ok, not_not]
  simp only [hhuge, true_and]
  omega

/-! ## The size -/

theorem asSizeT_buffersize (opt : Options) :
    asSizeT opt.buffersize =
      if opt.dataset.toNat * opt.bufferfactor.toNat % 4294967296 < 2147483648 then
        opt.dataset.toNat * opt.bufferfactor.toNat % 4294967296
      else opt.dataset.toNat * opt.bufferfactor.toNat % 4294967296 + 18446744069414584320 := by
  have hproduct : (opt.dataset * opt.bufferfactor).toNat =
      opt.dataset.toNat * opt.bufferfactor.toNat % 4294967296 := UInt32.toNat_mul _ _
  have hlt := Nat.mod_lt (opt.dataset.toNat * opt.bufferfactor.toNat)
    (show 4294967296 > 0 by decide)
  rw [asSizeT, Options.buffersize, toInt_toInt32, hproduct]
  generalize opt.dataset.toNat * opt.bufferfactor.toNat % 4294967296 = w at hlt ⊢
  simp only [sizeRange]
  split
  · rw [if_pos (by omega)]
    omega
  · rw [if_neg (by omega)]
    omega

theorem SizeFits.clampLong_eq {factor : Nat} (h : SizeFits (kb * 1024 * factor)) :
    clampLong kb = kb ∨ factor = 0 := by
  rcases Nat.eq_zero_or_pos factor with hzero | hpos
  · exact Or.inr hzero
  · left
    have hfactor : (1 : Int) ≤ factor := by exact_mod_cast hpos
    have hsize : 0 ≤ kb * 1024 * factor ∧ kb * 1024 * factor < 2 ^ 64 := by
      unfold SizeFits at h
      omega
    have hkb : 0 ≤ kb := by
      by_contra hneg
      have := mul_neg_of_neg_of_pos (show kb * 1024 < 0 by omega) (show (0 : Int) < factor by omega)
      omega
    have hle : kb * 1024 ≤ kb * 1024 * factor :=
      le_mul_of_one_le_right (by omega) hfactor
    unfold clampLong
    omega

theorem getSize_eq_iff {opt : Options}
    (hdataset : (opt.dataset.toNat : Int) = 1024 * (clampLong kb % 4194304)) :
    (asSizeT opt.buffersize : Int) = kb * 1024 * opt.bufferfactor.toNat ↔
      SizeFits (kb * 1024 * opt.bufferfactor.toNat) := by
  have hproduct : ((opt.dataset.toNat * opt.bufferfactor.toNat % 4294967296 : Nat) : Int) =
      clampLong kb * 1024 * opt.bufferfactor.toNat % 4294967296 := by
    have hlow : (opt.dataset.toNat : Int) = clampLong kb * 1024 % 4294967296 := by omega
    rw [Int.natCast_mod, Int.natCast_mul, hlow, Int.mul_emod, Nat.cast_ofNat,
      Int.emod_emod_of_dvd _ dvd_rfl, ← Int.mul_emod]
  rw [asSizeT_buffersize]
  generalize hw : opt.dataset.toNat * opt.bufferfactor.toNat % 4294967296 = w at hproduct ⊢
  constructor
  · intro h
    rw [← h]
    unfold SizeFits
    split <;> omega
  · intro h
    have hkb : (w : Int) = kb * 1024 * opt.bufferfactor.toNat % 4294967296 := by
      rcases h.clampLong_eq with heq | hzero
      · rw [hproduct, heq]
      · rw [hproduct, hzero]
        simp
    unfold SizeFits at h
    split <;> omega

/-! ## The indices -/

theorem asUnsigned_eq_iff {x : Nat} : asUnsigned x = x ↔ x < unsignedRange :=
  Nat.mod_eq_iff_lt (by decide)

/-- The number of data lines of a chunk that `doDistribute` derives from the size. -/
def linesPerSubpath (size line numSubpaths : Nat) : Nat :=
  asSizeT (asInt (asSizeT (asInt (size / line)) / numSubpaths))

/-- There is no data line, or `unsigned int` can hold the index of the last element of the last one:
its first word in uniform mode, its last word in Zipf mode. -/
def LastIndexFits (opt : Options) (numSubpaths : Nat) (zipfAlpha : ℚ) (size : Nat) : Prop :=
  let line := asSizeT opt.cacheline.toInt32
  let lines := numSubpaths * linesPerSubpath size line numSubpaths
  let words := if zipfAlpha ≤ 0 then 1 else line / 4
  lines = 0 ∨
    opt.bufferoffset.toNat + (lines - 1) * line + (words - 1) * 4 < unsignedRange

namespace SubpathDistribution

/-- How many words of a data line can be elements. -/
def wordsPerLine (d : SubpathDistribution) : Nat :=
  if d.zipfAlpha ≤ 0 then 1 else d.numEntriesPerDataline

/-- The index of word `s` of line `l` of chunk `k`, as the builder of the mode computes it. -/
def pathIndex (d : SubpathDistribution) (k l s : Nat) : Nat :=
  if d.zipfAlpha ≤ 0 then d.lineIndex (asUnsigned (k * d.numDatalinesPerSubpath * d.lineSize)) l
  else d.slotIndex (l + k * d.numDatalinesPerSubpath) s

/-- Offset plus position, unbounded. -/
def exactIndex (d : SubpathDistribution) (k l s : Nat) : Nat :=
  d.buffer.getStartAddress - d.buffer.getBufferPointer +
    ((k * d.numDatalinesPerSubpath + l) * d.lineSize + s * elementSize)

/-- `doDistribute` gets past its checks, so that there are indices to compute. -/
def BuildsPath (d : SubpathDistribution) : Prop :=
  ¬(d.buffer.isLargeBuffer = true ∧ d.buffer.getSlabs ≠ []) ∧
    d.numDatalines % d.numSubpaths = 0 ∧ (d.zipfAlpha ≤ 0 → d.cacheline.toInt = 64)

/-- Every index of the path is computed without loss. -/
def IndicesExact (d : SubpathDistribution) : Prop :=
  d.BuildsPath → ∀ k < d.numSubpaths, ∀ l < d.numDatalinesPerSubpath, ∀ s < d.wordsPerLine,
    d.pathIndex k l s = d.exactIndex k l s

variable {d : SubpathDistribution}

theorem pathIndex_eq {k l s : Nat} (hs : s < d.wordsPerLine) :
    d.pathIndex k l s = asUnsigned (d.exactIndex k l s) := by
  have hline : (k * d.numDatalinesPerSubpath + l) * d.lineSize =
      k * d.numDatalinesPerSubpath * d.lineSize + l * d.lineSize := Nat.add_mul _ _ _
  unfold pathIndex exactIndex
  rw [hline]
  split
  case isTrue huniform =>
    rw [wordsPerLine, if_pos huniform] at hs
    rw [lineIndex, bufferOffset, Buffer.bufferOffset]
    simp only [asUnsigned, unsignedRange, elementSize]
    omega
  case isFalse =>
    rw [slotIndex, bufferOffset, Buffer.bufferOffset, Nat.add_comm l, hline]
    simp only [asUnsigned, unsignedRange]
    omega

theorem exactIndex_le {k l s : Nat} (hk : k < d.numSubpaths) (hl : l < d.numDatalinesPerSubpath)
    (hs : s < d.wordsPerLine) : d.exactIndex k l s ≤
      d.exactIndex (d.numSubpaths - 1) (d.numDatalinesPerSubpath - 1) (d.wordsPerLine - 1) := by
  have hchunk : k * d.numDatalinesPerSubpath ≤ (d.numSubpaths - 1) * d.numDatalinesPerSubpath :=
    Nat.mul_le_mul_right _ (by omega)
  have hline := Nat.mul_le_mul_right d.lineSize
    (show k * d.numDatalinesPerSubpath + l ≤
      (d.numSubpaths - 1) * d.numDatalinesPerSubpath + (d.numDatalinesPerSubpath - 1) by omega)
  simp only [exactIndex, elementSize]
  omega

/-- The indices are exact if and only if the last one fits. -/
theorem pathIndex_exact_iff (hwords : 0 < d.wordsPerLine) :
    (∀ k < d.numSubpaths, ∀ l < d.numDatalinesPerSubpath, ∀ s < d.wordsPerLine,
        d.pathIndex k l s = d.exactIndex k l s) ↔
      d.numSubpaths * d.numDatalinesPerSubpath = 0 ∨
        d.exactIndex (d.numSubpaths - 1) (d.numDatalinesPerSubpath - 1) (d.wordsPerLine - 1) <
          unsignedRange := by
  constructor
  · intro h
    by_cases hlines : d.numSubpaths * d.numDatalinesPerSubpath = 0
    · exact Or.inl hlines
    · have hsubpaths := Nat.pos_of_ne_zero (left_ne_zero_of_mul hlines)
      have hper := Nat.pos_of_ne_zero (right_ne_zero_of_mul hlines)
      have hlast := h (d.numSubpaths - 1) (by omega) (d.numDatalinesPerSubpath - 1) (by omega)
        (d.wordsPerLine - 1) (by omega)
      rw [pathIndex_eq (by omega)] at hlast
      exact Or.inr (asUnsigned_eq_iff.mp hlast)
  · intro h k hk l hl s hs
    have hlines := Nat.mul_pos (Nat.zero_lt_of_lt hk) (Nat.zero_lt_of_lt hl)
    have hlast := h.resolve_left hlines.ne'
    rw [pathIndex_eq hs]
    exact asUnsigned_eq_iff.mpr (lt_of_le_of_lt (exactIndex_le hk hl hs) hlast)

end SubpathDistribution

theorem zipfAlpha_setupDistribution (opt : Options) (numSubpaths : Nat) (zipfAlpha : ℚ)
    (buffer : Buffer) :
    (setupDistribution opt numSubpaths zipfAlpha buffer).zipfAlpha ≤ 0 ↔ zipfAlpha ≤ 0 := by
  unfold setupDistribution
  split
  case isTrue h => exact iff_of_true le_rfl h
  case isFalse => rfl

theorem indicesExact_iff {host : Host} {opt : Options} {numSubpaths : Nat} {zipfAlpha : ℚ}
    {m m' : ByteMemory.Memory} {buffer : Buffer} (hconfigure : configureExperiment opt = .ok ())
    (hbuffer : setupBuffer host opt m = .ok (buffer, m')) :
    (setupDistribution opt numSubpaths zipfAlpha buffer).IndicesExact ↔
      ((setupDistribution opt numSubpaths zipfAlpha buffer).BuildsPath →
        LastIndexFits opt numSubpaths zipfAlpha (asSizeT opt.buffersize)) := by
  obtain ⟨hsize, hstart⟩ := setupBuffer_spec hbuffer
  have height := eight_le_lineSize hconfigure numSubpaths zipfAlpha buffer
  have hlineSize := lineSize_setupDistribution opt numSubpaths zipfAlpha buffer
  have hmode := zipfAlpha_setupDistribution opt numSubpaths zipfAlpha buffer
  have hnum := numSubpaths_setupDistribution opt numSubpaths zipfAlpha buffer
  have hbuffer' := buffer_setupDistribution opt numSubpaths zipfAlpha buffer
  set d := setupDistribution opt numSubpaths zipfAlpha buffer
  have hlines : d.numDatalinesPerSubpath = linesPerSubpath (asSizeT opt.buffersize)
      (asSizeT opt.cacheline.toInt32) numSubpaths := by
    rw [← hsize, ← hlineSize, ← hnum, ← hbuffer']
    rfl
  have hwords : d.wordsPerLine =
      if zipfAlpha ≤ 0 then 1 else asSizeT opt.cacheline.toInt32 / 4 := by
    simp only [SubpathDistribution.wordsPerLine, hmode,
      SubpathDistribution.numEntriesPerDataline, hlineSize]
  have hpos : 0 < d.wordsPerLine := by
    rw [hwords]
    split <;> omega
  rw [hlineSize] at height
  refine imp_congr_right fun _ => ?_
  rw [SubpathDistribution.pathIndex_exact_iff hpos, LastIndexFits]
  simp only [SubpathDistribution.exactIndex, hlines, hwords, hlineSize, hnum, hbuffer', hstart,
    Nat.add_sub_cancel_left, elementSize]
  refine or_congr_right' fun hne => ?_
  have hlast : (numSubpaths - 1) * linesPerSubpath (asSizeT opt.buffersize)
      (asSizeT opt.cacheline.toInt32) numSubpaths + (linesPerSubpath (asSizeT opt.buffersize)
        (asSizeT opt.cacheline.toInt32) numSubpaths - 1) =
      numSubpaths * linesPerSubpath (asSizeT opt.buffersize)
        (asSizeT opt.cacheline.toInt32) numSubpaths - 1 := by
    have hper := Nat.pos_of_ne_zero (right_ne_zero_of_mul hne)
    rw [← Nat.add_sub_assoc hper, ← Nat.succ_mul, Nat.succ_eq_add_one,
      Nat.sub_add_cancel (Nat.pos_of_ne_zero (left_ne_zero_of_mul hne))]
  rw [hlast, Nat.add_assoc]

/-- For every request that `Parse_options` accepts, of `kb` KB: the guard is exact if and only if
the low 22 bits of `kb` are above 1GB exactly when `kb` is. Once there is a buffer, its size and the
indices of the path are exact if and only if `int` can hold the size, or its sign extension, and
`unsigned int` the last index. -/
theorem sizes_exact_iff (hoperands : (getopt optArgString args).2 = dataset :: files)
    (hkb : scanInteger dataset = some kb) (hparse : parseOptions env program args = .ok p) :
    (GuardExact p.opt kb ↔
      (p.opt.huge = true → (2 ^ 20 < clampLong kb % 2 ^ 22 ↔ 2 ^ 20 < kb))) ∧
    ∀ host m buffer m', configureExperiment p.opt = .ok () →
      setupBuffer host p.opt m = .ok (buffer, m') →
        let size := kb * 1024 * p.opt.bufferfactor.toNat
        let d := setupDistribution p.opt p.numSubpaths p.zipfAlpha buffer
        ((buffer.getSize : Int) = size ∧ d.IndicesExact ↔
          SizeFits size ∧
            (d.BuildsPath → LastIndexFits p.opt p.numSubpaths p.zipfAlpha size.toNat)) := by
  have hdataset := parseOptions_dataset hoperands hkb hparse
  refine ⟨guardExact_iff hdataset, fun host m buffer m' hconfigure hbuffer => ?_⟩
  intro size d
  have hsize : (buffer.getSize : Int) = size ↔ SizeFits size := by
    rw [(setupBuffer_spec hbuffer).1]
    exact getSize_eq_iff hdataset
  rw [hsize]
  refine and_congr_right fun hfits => ?_
  have hnat : size.toNat = asSizeT p.opt.buffersize := by
    rw [← (setupBuffer_spec hbuffer).1]
    have := hsize.mpr hfits
    omega
  rw [hnat]
  exact indicesExact_iff hconfigure hbuffer

/-- A dataset of 1 KB with all defaults. -/
theorem sizes_exact_iff_one_kb :
    ∃ (p : Parsed Unit) (buffer : Buffer) (m' : ByteMemory.Memory),
      parseOptions .simple [] [['1']] = .ok p ∧ configureExperiment p.opt = .ok () ∧
      setupBuffer Host.simple p.opt ByteMemory.zeros = .ok (buffer, m') ∧
      GuardExact p.opt 1 ∧ (buffer.getSize : Int) = 1 * 1024 * p.opt.bufferfactor.toNat ∧
      (setupDistribution p.opt p.numSubpaths p.zipfAlpha buffer).IndicesExact := by
  obtain ⟨p, hparse, hopt, hnum, halpha⟩ : ∃ p : Parsed Unit,
      parseOptions .simple [] [['1']] = .ok p ∧ p.opt = { Options.default with dataset := 1024 } ∧
        p.numSubpaths = 1 ∧ p.zipfAlpha = 0 := ⟨_, rfl, rfl, rfl, rfl⟩
  have hconfigure : configureExperiment p.opt = .ok () := by
    rw [hopt]
    rfl
  have hsize : asSizeT p.opt.buffersize = 1024 := by
    rw [hopt]
    decide
  have hbuffer := setupBuffer_small (by rw [hopt]; rfl) (by rw [hopt]; rfl) hsize ByteMemory.zeros
  have hoperands : (getopt optArgString [['1']]).2 = [['1']] := rfl
  have hkb : scanInteger ['1'] = some 1 := rfl
  obtain ⟨hguard, hsizes⟩ := sizes_exact_iff hoperands hkb hparse
  have hfits : SizeFits (1 * 1024 * p.opt.bufferfactor.toNat) := by
    rw [hopt]
    exact Or.inl (by decide)
  have hlast : LastIndexFits p.opt p.numSubpaths p.zipfAlpha
      (1 * 1024 * (p.opt.bufferfactor.toNat : Int)).toNat := by
    rw [hopt, hnum, halpha]
    exact Or.inr (by decide)
  obtain ⟨hsize, hindices⟩ := (hsizes _ _ _ _ hconfigure hbuffer).mpr ⟨hfits, fun _ => hlast⟩
  exact ⟨p, _, _, hparse, hconfigure, hbuffer, hguard.mpr fun _ => by decide, hsize, hindices⟩

/-- `-h 4194305` asks for 4GB and 1KB. Of the dataset only the 1KB is left: the guard lets it pass,
and the buffer is built with that size. -/
theorem four_gigabytes_pass_guard :
    ∃ (p : Parsed Unit) (buffer : Buffer) (m' : ByteMemory.Memory),
      parseOptions .simple [] (["-h", "4194305"].map String.toList) = .ok p ∧
      scanInteger "4194305".toList = some 4194305 ∧ checkHugeDataset p.opt = .ok () ∧
      ¬GuardExact p.opt 4194305 ∧ configureExperiment p.opt = .ok () ∧
      setupBuffer Host.simple p.opt ByteMemory.zeros = .ok (buffer, m') ∧
      buffer.getSize = 1024 ∧
      (buffer.getSize : Int) ≠ 4194305 * 1024 * p.opt.bufferfactor.toNat := by
  obtain ⟨p, hparse, hopt⟩ : ∃ p : Parsed Unit,
      parseOptions .simple [] (["-h", "4194305"].map String.toList) = .ok p ∧
        p.opt = { Options.default with huge := true, dataset := 1024 } := ⟨_, rfl, rfl⟩
  have hguard : checkHugeDataset p.opt = .ok () := by
    rw [hopt]
    rfl
  obtain ⟨buffer, m', hbuffer, hsize⟩ : ∃ buffer m',
      setupBuffer Host.simple p.opt ByteMemory.zeros = .ok (buffer, m') ∧
        buffer.getSize = 1024 := by
    rw [hopt]
    exact ⟨_, _, rfl, rfl⟩
  refine ⟨p, buffer, m', hparse, rfl, hguard, fun h => ?_, by rw [hopt]; rfl, hbuffer, hsize, ?_⟩
  · exact (h (by rw [hopt])).mpr (by decide) hguard
  · rw [hsize, hopt]
    decide

end Cachetest
