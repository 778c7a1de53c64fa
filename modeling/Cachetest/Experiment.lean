import Cachetest.Distribution

/-!
# Setting up the experiment

The part of `main` between the command line and the measurement: the checks of the options, the
buffer, and the path in it. `Options` has the types of `Options.hpp`, so products and conversions
wrap as they do in the program.
-/

namespace Cachetest

open ByteMemory

/-- `Options`. -/
structure Options where
  bufferfactor : UInt32
  /-- In seconds. -/
  duration : UInt32
  loopfactor : UInt32
  cacheline : UInt32
  bufferoffset : UInt32
  /-- In bytes. -/
  dataset : UInt32
  seed : Int32
  cpu : Int32
  /-- Contiguous memory allocation. -/
  cont : Bool
  huge : Bool
  append : Bool
  wait : Bool
  dumpSeq : Bool
  deriving DecidableEq, Repr

/-- The constructor of `Options`. It leaves `bufferoffset` and `dataset` alone, which are zero
because the only instance is a global variable. -/
def Options.default : Options where
  bufferfactor := 1
  duration := 1
  loopfactor := 1
  cacheline := 64
  bufferoffset := 0
  dataset := 0
  seed := -1
  cpu := -1
  cont := false
  huge := false
  append := false
  wait := false
  dumpSeq := false

/-- The guard of `main` against working sets that do not fit a huge page. -/
def checkHugeDataset (opt : Options) : Outcome Unit := do
  if opt.huge && opt.dataset > 1073741824 then
    throw (.exited "ERROR: Dataset size > 1GB not supported for use with hugepages.\n" (-1))

/-- `Configure_experiment`. -/
def configureExperiment (opt : Options) : Outcome Unit := do
  if opt.duration < 1 then
    throw (.exited "ERROR: duration must be at least 1\n" 1)
  if opt.loopfactor < 0 then
    throw (.exited "ERROR: loop factor must be at least 0\n" 1)
  if opt.cacheline.toNat < 2 * 4 then
    throw (.exited "ERROR: cacheline must be at least 8\n" 1)

/-- `buffersize` of `Setup_buffer`: an `unsigned int` product, stored in an `int`. -/
def Options.buffersize (opt : Options) : Int32 := (opt.dataset * opt.bufferfactor).toInt32

/-- The buffer that `Setup_buffer` allocates. -/
def createBuffer (host : Host) (opt : Options) (m : Memory) : Outcome (Buffer × Memory) :=
  if opt.huge then Buffer.large host (asSizeT opt.buffersize) opt.cont m
  else Buffer.small host (asSizeT opt.buffersize) opt.cont m

/-- `Setup_buffer`. -/
def setupBuffer (host : Host) (opt : Options) (m : Memory) : Outcome (Buffer × Memory) := do
  let (buffer, m) ← createBuffer host opt m
  return (buffer.setBufferOffset opt.bufferoffset.toNat, m)

/-- The distribution that `Setup_distribution` creates. The default of the Zipf alpha is 0. -/
def setupDistribution (opt : Options) (numSubpaths : Nat) (zipfAlpha : ℚ) (buffer : Buffer) :
    SubpathDistribution :=
  if zipfAlpha ≤ 0 then .create buffer opt.cacheline.toInt32 numSubpaths 0
  else .create buffer opt.cacheline.toInt32 numSubpaths zipfAlpha

/-! ## What the checks guarantee -/

theorem toInt_toInt32 (x : UInt32) :
    x.toInt32.toInt = if 2 * x.toNat < 4294967296 then (x.toNat : Int) else x.toNat - 4294967296 :=
  BitVec.toInt_eq_toNat_cond x.toBitVec

theorem eight_le_cacheline {opt : Options} (h : configureExperiment opt = .ok ()) :
    8 ≤ opt.cacheline.toNat := by
  by_contra hlt
  have hlt' : opt.cacheline.toNat < 2 * 4 := by omega
  simp only [configureExperiment, hlt', if_true] at h
  revert h
  split <;> simp

theorem lineSize_setupDistribution (opt : Options) (numSubpaths : Nat) (zipfAlpha : ℚ)
    (buffer : Buffer) : (setupDistribution opt numSubpaths zipfAlpha buffer).lineSize =
      asSizeT opt.cacheline.toInt32 := by
  unfold setupDistribution
  split <;> rfl

/-- A `cacheline` that does not fit an `int` passes the check, as a negative number, and is a large
`size_t`. -/
theorem eight_le_lineSize {opt : Options} (h : configureExperiment opt = .ok ())
    (numSubpaths : Nat) (zipfAlpha : ℚ) (buffer : Buffer) :
    8 ≤ (setupDistribution opt numSubpaths zipfAlpha buffer).lineSize := by
  have hline := eight_le_cacheline h
  have hlt := opt.cacheline.toNat_lt
  rw [lineSize_setupDistribution, asSizeT, toInt_toInt32]
  simp only [sizeRange]
  split <;> omega

@[simp] theorem buffer_setupDistribution (opt : Options) (numSubpaths : Nat) (zipfAlpha : ℚ)
    (buffer : Buffer) : (setupDistribution opt numSubpaths zipfAlpha buffer).buffer = buffer := by
  unfold setupDistribution
  split <;> rfl

@[simp] theorem numSubpaths_setupDistribution (opt : Options) (numSubpaths : Nat) (zipfAlpha : ℚ)
    (buffer : Buffer) :
    (setupDistribution opt numSubpaths zipfAlpha buffer).numSubpaths = numSubpaths := by
  unfold setupDistribution
  split <;> rfl

/-- `Setup_buffer` gives a buffer of the requested size whose path starts at the offset. -/
theorem setupBuffer_spec {host : Host} {opt : Options} {b : Buffer} {m m' : Memory}
    (h : setupBuffer host opt m = .ok (b, m')) :
    b.getSize = asSizeT opt.buffersize ∧
      b.getStartAddress = b.getBufferPointer + opt.bufferoffset.toNat := by
  obtain ⟨⟨built, m₁⟩, hbuild, hoffset⟩ := bind_eq_ok.mp h
  obtain ⟨rfl, rfl⟩ := Prod.mk.inj (Except.ok.inj hoffset)
  have hspec : built.bufferSize = asSizeT opt.buffersize ∧ built.startAddress = built.pointer := by
    unfold createBuffer at hbuild
    split at hbuild
    · exact Buffer.large_spec hbuild
    · exact Buffer.small_spec hbuild
  exact ⟨hspec.1, congrArg (· + opt.bufferoffset.toNat) hspec.2⟩

theorem setupBuffer_small {opt : Options} {size : Nat} (hhuge : opt.huge = false)
    (hcont : opt.cont = false) (hsize : asSizeT opt.buffersize = size) (m : Memory) :
    setupBuffer Host.simple opt m =
      .ok ((Buffer.smallPool size).setBufferOffset opt.bufferoffset.toNat,
        (Buffer.smallPool size).zeroPool m) := by
  simp only [setupBuffer, createBuffer, hhuge, hcont, hsize, Bool.false_eq_true, if_false,
    Buffer.small_simple, ok_bind]
  rfl

end Cachetest
