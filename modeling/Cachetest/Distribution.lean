import Mathlib.Algebra.Group.End
import Mathlib.Data.Rat.Defs
import Mathlib.Data.List.OfFn
import Cachetest.Buffer

/-!
# The subpath distribution

`SubpathDistribution` of `Distribution.cc`: it lays a pointer-chasing path into the buffer, one
chunk of data lines per subpath, and links the chunks in a ring. In uniform mode a chunk's path
visits every line once, in an order obtained by shuffling indices that are kept inside the lines
themselves; in Zipf mode it keeps drawing lines and takes their first free word until a drawn line
is full.

The random number generators only appear through what they return (`Randomness`).
-/

namespace Cachetest

open ByteMemory

/-- `sizeof(CacheLine)` of `uniformSubpath`. -/
abbrev cacheLineStructSize : Nat := 64

/-- What `MTRandURBG`, `std::shuffle` and `zipf` return while subpath `k` is built. -/
structure Randomness where
  /-- `rand.randInt(INT_MAX - 1)`, an integer in `[0, INT_MAX - 1]`. -/
  randInt : (k : Nat) → Fin intMax
  /-- The permutation `std::shuffle` applies to a range of `m` items. -/
  shuffle : (k m : Nat) → Equiv.Perm (Fin m)
  /-- The rank returned by call `i` of `zipf`, counted from 1. -/
  zipf : (k i : Nat) → Nat

/-- Shuffles that change nothing, and a `zipf` that always returns the first rank. -/
def Randomness.identity : Randomness where
  randInt _ := ⟨0, by decide⟩
  shuffle _ _ := 1
  zipf _ _ := 1

/-- The members of `SubpathDistribution` and its base class that are set before `distribute`. -/
structure SubpathDistribution where
  buffer : Buffer
  cacheline : Int32
  numElements : Nat
  numSubpaths : Nat
  zipfAlpha : ℚ

/-- What `doDistribute` changes: the memory, seen from the buffer pointer, the recorded sequence
of data lines and the number of entries. -/
structure PathState where
  mem : Memory
  sequence : List Nat
  entries : Nat

namespace SubpathDistribution

/-- `createDistribution(SUBPATH, ...)` with the `setup` it ends in. -/
def create (buffer : Buffer) (cacheline : Int32) (numSubpaths : Nat) (zipfAlpha : ℚ) :
    SubpathDistribution where
  buffer := buffer
  cacheline := cacheline
  numElements := asUnsigned (buffer.getSize / elementSize)
  numSubpaths := numSubpaths
  zipfAlpha := zipfAlpha

/-- `cacheline`, converted for arithmetic with a `size_t`. -/
def lineSize (d : SubpathDistribution) : Nat := asSizeT d.cacheline

/-- `bufferOffset`, the index of the start address. -/
def bufferOffset (d : SubpathDistribution) : Nat := d.buffer.bufferOffset

/-! ## Uniform mode -/

/-- Write index `i + 1` into line `i`, except into the last line. -/
def writeShuffleIndices (m : Memory) (base sizeDatalines : Nat) : Memory :=
  (List.range (sizeDatalines - 1)).foldl
    (fun m i => m.store (base + i * cacheLineStructSize + elementSize) (i + 1)) m

/-- `std::shuffle` on the `CacheLine` array: item `i` of the first `count` lines becomes the former
item `σ i`, all 64 bytes of it. -/
def shuffleLines (m : Memory) (base count : Nat) (σ : Equiv.Perm (Fin count)) : Memory where
  byte a :=
    if h : base ≤ a ∧ (a - base) / cacheLineStructSize < count then
      m.byte (base + (σ ⟨(a - base) / cacheLineStructSize, h.2⟩ : Nat) * cacheLineStructSize +
        (a - base) % cacheLineStructSize)
    else m.byte a

/-- The buffer index of the first word of line `l` of a chunk, `offsetBytes` behind the start. -/
def lineIndex (d : SubpathDistribution) (offsetBytes l : Nat) : Nat :=
  asUnsigned (d.bufferOffset + offsetBytes + l * d.lineSize)

/-- The variables of the loop that turns shuffled indices into a path. -/
structure ChainState where
  prevIdx : Nat
  path : PathState

/-- One round of that loop: take the index found in line `i` and make the previous line point to
the line with that index. -/
def chainStep (d : SubpathDistribution) (base offsetBytes offsetDatalines sizeDatalines : Nat)
    (s : ChainState) (i : Nat) : Outcome ChainState := do
  let nextIdx := s.path.mem.load (base + i * cacheLineStructSize + elementSize)
  assertThat (0 < nextIdx && nextIdx < sizeDatalines) "0 < nextIdx && nextIdx < sizeDatalines"
  let mem := s.path.mem.store (base + i * cacheLineStructSize + elementSize) invalidIndex
  assertThat (mem.load (base + s.prevIdx * cacheLineStructSize) == invalidIndex)
    "(element_size_t)-1 == cachelineArray[prevIdx].pathIndex"
  let mem := mem.store (base + s.prevIdx * cacheLineStructSize) (d.lineIndex offsetBytes nextIdx)
  return {
    prevIdx := nextIdx
    path := {
      mem := mem
      sequence := s.path.sequence ++ [asUnsigned (offsetDatalines + nextIdx)]
      entries := s.path.entries + 1 } }

/-- `uniformSubpath`, building subpath `k`; returns the index of the last, unwritten entry. -/
def uniformSubpath (d : SubpathDistribution) (rand : Randomness)
    (k offsetDatalines sizeDatalines : Nat) (st : PathState) : Outcome (Nat × PathState) := do
  let offsetBytes := asUnsigned (offsetDatalines * d.lineSize)
  let base := d.bufferOffset + offsetBytes
  let mem := st.mem.fillWords base (sizeDatalines * d.lineSize) invalidIndex
  if d.cacheline.toInt ≠ 64 then
    throw (.exited ("Unexpected cacheline size: " ++ toString d.cacheline.toInt ++ "\n") (-1))
  -- With no data line, `sizeDatalines - 1` is the largest `size_t` and the next loop runs away.
  if sizeDatalines = 0 then
    throw (.undefined "indexToShuffle is written outside the buffer")
  let mem := writeShuffleIndices mem base sizeDatalines
  let mem := shuffleLines mem base (sizeDatalines - 1) (rand.shuffle k (sizeDatalines - 1))
  let first : ChainState := {
    prevIdx := 0
    path := {
      mem := mem
      sequence := st.sequence ++ [asUnsigned offsetDatalines]
      entries := st.entries + 1 } }
  let last ← (List.range (sizeDatalines - 1)).foldlM
    (chainStep d base offsetBytes offsetDatalines sizeDatalines) first
  return (d.lineIndex offsetBytes last.prevIdx, last.path)

/-! ## Zipf mode -/

/-- `init_zipf`: non-zero on failure. -/
def initZipf (seed : Int) : Int := if seed ≤ 0 then -1 else 0

/-- The buffer index of a word of a data line. -/
def slotIndex (d : SubpathDistribution) (line offset : Nat) : Nat :=
  asUnsigned (d.bufferOffset + line * d.lineSize + offset * elementSize)

/-- `numEntriesPerDataline`. -/
def numEntriesPerDataline (d : SubpathDistribution) : Nat := d.lineSize / elementSize

/-- The loop looking for the first empty word of `line`, from word `offset` on, with `remaining`
words left to look at; `none` when they are all taken (`done`). -/
def findEmpty (d : SubpathDistribution) (m : Memory) (line : Nat) : Nat → Nat → Option Nat
  | 0, _ => none
  | remaining + 1, offset =>
    if m.load (d.slotIndex line offset) ≠ 0 then d.findEmpty m line remaining (offset + 1)
    else some (d.slotIndex line offset)

/-- `rankToDatalineMap[rank - 1]`, `none` when that reads out of bounds. -/
def rankedLine (rankToDatalineMap : List Nat) : Nat → Option Nat
  | 0 => none
  | rank + 1 => rankToDatalineMap[rank]?

/-- The `for` loop of `zipfSubpath` with the number of rounds left and the loop counter `i`, which
is also the number of the next draw. -/
def zipfLoop (d : SubpathDistribution) (rand : Randomness) (k offsetDatalines sizeDatalines : Nat)
    (rankToDatalineMap : List Nat) : Nat → Nat → Nat × PathState → Outcome (Nat × PathState)
  | 0, _, s => .ok s
  | rounds + 1, i, (previdx, st) =>
    -- Mark the tail as taken, in case its line is drawn again.
    let mem := st.mem.store previdx 1
    match rankedLine rankToDatalineMap (rand.zipf k i) with
    | none => .error (.undefined "rankToDatalineMap is read out of bounds")
    | some idx => do
      assertThat (idx < sizeDatalines) "0 <= idx && idx < sizeDatalines"
      match d.findEmpty mem (idx + offsetDatalines) d.numEntriesPerDataline 0 with
      | none => .ok (previdx, { st with mem := mem })
      | some element =>
        d.zipfLoop rand k offsetDatalines sizeDatalines rankToDatalineMap rounds (i + 1)
          (element, {
            mem := mem.store previdx element
            sequence := st.sequence ++ [asUnsigned (idx + offsetDatalines)]
            entries := st.entries + 1 })

/-- The data line of every rank: `0, 1, ...` after `std::shuffle`. -/
def rankToDatalineMap (rand : Randomness) (k sizeDatalines : Nat) : List Nat :=
  List.ofFn fun i : Fin sizeDatalines => (rand.shuffle k sizeDatalines i : Nat)

/-- `zipfSubpath`, building subpath `k`; returns the index of the last entry. -/
def zipfSubpath (d : SubpathDistribution) (rand : Randomness)
    (k offsetDatalines sizeDatalines : Nat) (st : PathState) : Outcome (Nat × PathState) := do
  let seed : Int := (rand.randInt k : Nat) + 1
  assertThat (1 ≤ seed && seed ≤ intMax) "1 <= seed && seed <= INT_MAX"
  if initZipf seed ≠ 0 then throw (.exited "ERROR: zipf initialization failed\n" (-1))
  let previdx := asUnsigned (d.bufferOffset + offsetDatalines * d.lineSize)
  d.zipfLoop rand k offsetDatalines sizeDatalines (rankToDatalineMap rand k sizeDatalines)
    (d.numElements - 1) 1 (previdx, { st with entries := st.entries + 1 })

/-! ## The ring of subpaths -/

/-- `numDatalines`, an `int`, as the arithmetic with `size_t` sees it. -/
def numDatalines (d : SubpathDistribution) : Nat := asSizeT (asInt (d.buffer.getSize / d.lineSize))

/-- `numDatalinesPerSubpath`. -/
def numDatalinesPerSubpath (d : SubpathDistribution) : Nat :=
  asSizeT (asInt (d.numDatalines / d.numSubpaths))

/-- The index of the first entry of chunk `k`: what the link into the chunk is set to. -/
def chunkStart (d : SubpathDistribution) (k : Nat) : Nat :=
  asUnsigned (d.bufferOffset + k * d.numDatalinesPerSubpath * d.lineSize)

/-- Build the path of chunk `k`, in the mode the Zipf alpha selects. -/
def buildSubpath (d : SubpathDistribution) (rand : Randomness) (st : PathState) (k : Nat) :
    Outcome (Nat × PathState) :=
  let chunkOffsetDatalines := k * d.numDatalinesPerSubpath
  if d.zipfAlpha ≤ 0 then
    d.uniformSubpath rand k chunkOffsetDatalines d.numDatalinesPerSubpath st
  else d.zipfSubpath rand k chunkOffsetDatalines d.numDatalinesPerSubpath st

/-- Connect the last entry of chunk `k` to the first entry of the next chunk. -/
def linkSubpath (d : SubpathDistribution) (k lastEntryIndex : Nat) (st : PathState) : PathState :=
  { st with mem := st.mem.store lastEntryIndex (d.chunkStart ((k + 1) % d.numSubpaths)) }

/-- The body of the loop over the subpaths. -/
def distributeSubpath (d : SubpathDistribution) (rand : Randomness) (st : PathState) (k : Nat) :
    Outcome PathState := do
  let (lastEntryIndex, st) ← d.buildSubpath rand st k
  return d.linkSubpath k lastEntryIndex st

/-- `doDistribute`. -/
def doDistribute (d : SubpathDistribution) (rand : Randomness) (m : Memory) :
    Outcome PathState := do
  if d.buffer.isLargeBuffer && !d.buffer.getSlabs.isEmpty then
    throw (.exited "ERROR: doHugeDistribution() not implemtned\n" (-1))
  if d.lineSize = 0 ∨ d.numSubpaths = 0 then throw (.undefined "division by zero")
  assertThat (d.numDatalines % d.numSubpaths == 0) "numDatalines % this->numSubpaths == 0"
  (List.range d.numSubpaths).foldlM (d.distributeSubpath rand)
    { mem := m, sequence := [], entries := 0 }

end SubpathDistribution

end Cachetest
