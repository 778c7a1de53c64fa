import Mathlib.Tactic.Ring
import Cachetest.Experiment

/-!
# The pool and the window of the path

The constructors ask for a pool of memory, a whole number of pages, and may move the buffer pointer
up to the next page afterwards; `Set_buffer_offset` moves the start of the path. The recorded pool
stays inside the block that was allocated, and the window of the path inside the pool, exactly when
the block was aligned to begin with and the offset leaves room for the buffer.
-/

namespace Cachetest

open ByteMemory

/-! ## Rounding to an alignment -/

theorem and_highBits {x s : Nat} (hx : x < sizeRange) (hs : s ≤ 64) :
    x &&& (sizeRange - 2 ^ s) = x / 2 ^ s * 2 ^ s := by
  have hmask : sizeRange - 2 ^ s = 2 ^ s * (2 ^ (64 - s) - 1) := by
    rw [Nat.mul_sub_one, ← pow_add, Nat.add_sub_cancel' hs]
    rfl
  apply Nat.eq_of_testBit_eq
  intro i
  rw [hmask, Nat.testBit_and, Nat.testBit_two_pow_mul, Nat.testBit_two_pow_sub_one,
    Nat.testBit_mul_two_pow, Nat.testBit_div_two_pow]
  by_cases hi : s ≤ i
  · by_cases hi' : i < 64
    · simp [hi, Nat.sub_add_cancel hi, show i - s < 64 - s by omega]
    · have hpow : 2 ^ 64 ≤ 2 ^ i := Nat.pow_le_pow_right (by decide) (Nat.le_of_not_lt hi')
      have hzero : x.testBit i = false := Nat.testBit_lt_two_pow (lt_of_lt_of_le hx hpow)
      simp [hzero, Nat.sub_add_cancel hi]
  · simp [hi]

theorem roundToAlignment_eq (a : Nat) {s : Nat} (hs : s ≤ 64) :
    roundToAlignment a (2 ^ s) = (a + (2 ^ s - 1)) % sizeRange / 2 ^ s * 2 ^ s :=
  and_highBits (Nat.mod_lt _ (by decide)) hs

theorem dvd_roundToAlignment (a : Nat) {s : Nat} (hs : s ≤ 64) :
    2 ^ s ∣ roundToAlignment a (2 ^ s) := by
  rw [roundToAlignment_eq a hs]
  exact Nat.dvd_mul_left _ _

theorem roundToAlignment_of_lt {a s : Nat} (hs : s ≤ 64) (ha : a + (2 ^ s - 1) < sizeRange) :
    roundToAlignment a (2 ^ s) = (a + (2 ^ s - 1)) / 2 ^ s * 2 ^ s := by
  rw [roundToAlignment_eq a hs, Nat.mod_eq_of_lt ha]

theorem le_roundToAlignment {a s : Nat} (hs : s ≤ 64) (ha : a + (2 ^ s - 1) < sizeRange) :
    a ≤ roundToAlignment a (2 ^ s) := by
  have hpos := Nat.two_pow_pos s
  have hmod := Nat.mod_lt (a + (2 ^ s - 1)) hpos
  have hdiv := Nat.div_add_mod' (a + (2 ^ s - 1)) (2 ^ s)
  rw [roundToAlignment_of_lt hs ha]
  omega

/-- When the sum overflows nothing is left. -/
theorem roundToAlignment_of_ge {a s : Nat} (hs : s ≤ 64) (ha : a < sizeRange)
    (hge : sizeRange ≤ a + (2 ^ s - 1)) : roundToAlignment a (2 ^ s) = 0 := by
  have hpow : 2 ^ s ≤ sizeRange := Nat.pow_le_pow_right (show 0 < 2 by decide) hs
  have hmod : (a + (2 ^ s - 1)) % sizeRange = a + (2 ^ s - 1) - sizeRange := by
    rw [Nat.mod_eq_sub_mod hge, Nat.mod_eq_of_lt (by omega)]
  rw [roundToAlignment_eq a hs, hmod, Nat.div_eq_of_lt (by omega), Nat.zero_mul]

/-! ## The host -/

/-- The page size is a power of two, from 4KB on and below 1GB. -/
def Host.PageSizes (host : Host) : Prop := ∃ s, 12 ≤ s ∧ s < 30 ∧ host.pageSize = 2 ^ s

theorem Host.PageSizes.pos {host : Host} (h : host.PageSizes) : 0 < host.pageSize := by
  obtain ⟨s, -, -, hsize⟩ := h
  rw [hsize]
  exact Nat.two_pow_pos s

/-- `mmap` returns page aligned addresses. -/
def Host.MapsPages (host : Host) : Prop :=
  ∀ size address, host.mmap size = some address → host.pageSize ∣ address

theorem Host.simple_pageSizes : Host.simple.PageSizes := ⟨12, by decide, by decide, rfl⟩

theorem Host.simple_mapsPages : Host.simple.MapsPages := by
  intro size address h
  obtain ⟨-, hsome⟩ := Option.ite_none_left_eq_some.mp h
  obtain rfl := Option.some.inj hsome
  decide

namespace Buffer

/-! ## What the constructors do to the pointers -/

theorem alignPointer_of_dvd {b : Buffer} (h : b.pageSize ∣ b.pointer) : b.alignPointer = b :=
  if_neg (not_not.mpr (Nat.mod_eq_zero_of_dvd h))

theorem initializeBuffer_of_not_contiguous (host : Host) {b : Buffer} (hpointer : b.pointer ≠ 0)
    (hcontiguous : b.contiguous = false) (m : Memory) :
    b.initializeBuffer host m =
      .ok (.ok, { b.alignPointer with startAddress := b.alignPointer.pointer }, b.zeroPool m) := by
  have hcontiguous' : b.alignPointer.contiguous = false := by
    unfold alignPointer
    split <;> exact hcontiguous
  simp only [initializeBuffer, hpointer, if_false, hcontiguous', Bool.false_eq_true]

/-- Except for a failed search, `Initialize` changes the pointer by aligning it and nothing else of
what describes the pool. -/
theorem initializeBuffer_pool {host : Host} {b b' : Buffer} {m m' : Memory}
    (h : b.initializeBuffer host m = .ok (.ok, b', m')) :
    b.pointer ≠ 0 ∧ b'.pointer = b.alignPointer.pointer ∧ b'.startAddress = b'.pointer ∧
      b'.poolSize = b.poolSize ∧ b'.bufferSize = b.bufferSize := by
  have hpool : b.alignPointer.poolSize = b.poolSize := by
    unfold alignPointer
    split <;> rfl
  unfold initializeBuffer at h
  split at h
  · simp at h
  case isFalse hpointer =>
    simp only at h
    split at h
    · split at h
      · simp at h
      · simp only [Except.ok.injEq, Prod.mk.injEq, true_and] at h
        obtain ⟨rfl, -⟩ := h
        exact ⟨hpointer, rfl, rfl, hpool, bufferSize_alignPointer b⟩
      · simp at h
    · simp only [Except.ok.injEq, Prod.mk.injEq, true_and] at h
      obtain ⟨rfl, -⟩ := h
      exact ⟨hpointer, rfl, rfl, hpool, bufferSize_alignPointer b⟩

theorem finish_eq_ok {host : Host} {b b' : Buffer} {m m' : Memory} :
    b.finish host m = .ok (b', m') ↔ b.initializeBuffer host m = .ok (.ok, b', m') := by
  unfold finish
  split
  case h_1 stop heq => simp [heq]
  case h_2 b₁ m₁ heq => simp [heq]
  case h_3 status b₁ m₁ hne heq =>
    simp only [heq, reduceCtorEq, Except.ok.injEq, Prod.mk.injEq, false_iff, not_and]
    exact fun hok => absurd hok hne

end Buffer

/-! ## The block behind a buffer -/

/-- The pool a constructor asks for: what may be needed to find contiguous pages is added for small
buffers, and the sum is rounded up to whole pages. -/
def poolSizeFor (host : Host) (isLarge : Bool) (size : Nat) : Nat :=
  if isLarge then roundToAlignment ((poolSize1GB + size) % sizeRange) page1GB
  else roundToAlignment ((poolSize4KB + size) % sizeRange) host.pageSize

/-- The address the allocator returns for that pool; 0 when it fails. -/
def blockFor (host : Host) (isLarge : Bool) (size : Nat) : Nat :=
  if isLarge then (host.mmap (poolSizeFor host true size)).getD 0
  else host.malloc (poolSizeFor host false size)

theorem poolSizeFor_small (host : Host) (size : Nat) : poolSizeFor host false size =
    roundToAlignment ((poolSize4KB + size) % sizeRange) host.pageSize :=
  if_neg Bool.false_ne_true

theorem poolSizeFor_large (host : Host) (size : Nat) : poolSizeFor host true size =
    roundToAlignment ((poolSize1GB + size) % sizeRange) page1GB :=
  if_pos rfl

theorem blockFor_small (host : Host) (size : Nat) :
    blockFor host false size = host.malloc (poolSizeFor host false size) :=
  if_neg Bool.false_ne_true

theorem blockFor_large (host : Host) (size : Nat) :
    blockFor host true size = (host.mmap (poolSizeFor host true size)).getD 0 :=
  if_pos rfl

namespace Buffer

/-- A buffer after `Allocate_memory`, as `Initialize` finds it. -/
def allocated (host : Host) (isLarge : Bool) (size : Nat) (contiguous : Bool) : Buffer :=
  if isLarge then
    { construct host size poolSize1GB page1GB contiguous true with
      pointer := blockFor host true size }
  else
    { construct host size poolSize4KB host.pageSize contiguous false with
      pointer := blockFor host false size }

/-- The two constructors. -/
def build (host : Host) (isLarge : Bool) (size : Nat) (contiguous : Bool) (m : Memory) :
    Outcome (Buffer × Memory) :=
  if isLarge then large host size contiguous m else small host size contiguous m

section Allocated

variable (host : Host) (isLarge : Bool) (size : Nat) (contiguous : Bool)

@[simp] theorem allocated_bufferSize :
    (allocated host isLarge size contiguous).bufferSize = size := by
  cases isLarge <;> rfl

@[simp] theorem allocated_contiguous :
    (allocated host isLarge size contiguous).contiguous = contiguous := by
  cases isLarge <;> rfl

@[simp] theorem allocated_pageSize :
    (allocated host isLarge size contiguous).pageSize = host.pageSize := by
  cases isLarge <;> rfl

@[simp] theorem allocated_logicalPageSize :
    (allocated host isLarge size contiguous).logicalPageSize =
      if isLarge then page1GB else host.pageSize := by
  cases isLarge <;> rfl

@[simp] theorem allocated_isLargeBuffer :
    (allocated host isLarge size contiguous).isLargeBuffer = isLarge := by
  cases isLarge <;> rfl

@[simp] theorem allocated_pointer :
    (allocated host isLarge size contiguous).pointer = blockFor host isLarge size := by
  cases isLarge <;> rfl

@[simp] theorem allocated_poolSize :
    (allocated host isLarge size contiguous).poolSize = poolSizeFor host isLarge size := by
  cases isLarge with
  | false => exact (poolSizeFor_small host size).symm
  | true => exact (poolSizeFor_large host size).symm

end Allocated

theorem small_eq (host : Host) (size : Nat) (contiguous : Bool) (m : Memory) :
    small host size contiguous m = finish host (allocated host false size contiguous) m := by
  rw [allocated, if_neg Bool.false_ne_true, blockFor_small, poolSizeFor_small]
  rfl

theorem getAllocatedSize_construct (host : Host) (size pool page : Nat)
    (contiguous isLarge : Bool) :
    (construct host size pool page contiguous isLarge).getAllocatedSize =
      roundToAlignment ((pool + size) % sizeRange) page := rfl

theorem large_eq (host : Host) (size : Nat) (contiguous : Bool) (m : Memory) :
    large host size contiguous m =
      match host.mmap (poolSizeFor host true size) with
      | none => .error (.exited "Failed to mmap hugepage" ErrorCode.failedGetMemoryFromOs.value)
      | some _ => finish host (allocated host true size contiguous) m := by
  rw [allocated, if_pos rfl, blockFor_large, poolSizeFor_large,
    ← getAllocatedSize_construct host size poolSize1GB page1GB contiguous true]
  unfold large
  dsimp only
  cases host.mmap (construct host size poolSize1GB page1GB contiguous true).getAllocatedSize <;> rfl

/-- A constructor completes exactly when `Initialize` succeeds with what was allocated. -/
theorem build_eq_ok {host : Host} {isLarge : Bool} {size : Nat} {contiguous : Bool}
    {b : Buffer} {m m' : Memory} :
    build host isLarge size contiguous m = .ok (b, m') ↔
      (allocated host isLarge size contiguous).initializeBuffer host m = .ok (.ok, b, m') := by
  cases isLarge with
  | false => rw [build, if_neg Bool.false_ne_true, small_eq, finish_eq_ok]
  | true =>
    rw [build, if_pos rfl, large_eq]
    split
    case h_1 hmmap =>
      have hblock : (allocated host true size contiguous).pointer = 0 := by
        rw [allocated_pointer, blockFor_large, hmmap, Option.getD_none]
      simp only [initializeBuffer, hblock, if_true, reduceCtorEq, Except.ok.injEq, Prod.mk.injEq,
        false_and]
    case h_2 => exact finish_eq_ok

theorem build_pool {host : Host} {isLarge : Bool} {size : Nat} {contiguous : Bool}
    {b : Buffer} {m m' : Memory} (h : build host isLarge size contiguous m = .ok (b, m')) :
    b.poolSize = poolSizeFor host isLarge size ∧ b.bufferSize = size ∧
      b.pointer = (allocated host isLarge size contiguous).alignPointer.pointer ∧
        b.startAddress = b.pointer := by
  obtain ⟨-, hpointer, hstart, hpool, hsize⟩ := initializeBuffer_pool (build_eq_ok.mp h)
  exact ⟨by rw [hpool, allocated_poolSize], by rw [hsize, allocated_bufferSize], hpointer, hstart⟩

/-- The pointer stays where the allocator put it exactly when that was a page boundary. -/
theorem alignPointer_allocated_iff {host : Host} (hpage : host.PageSizes)
    (hmap : host.MapsPages) (isLarge : Bool) (size : Nat) (contiguous : Bool) :
    (allocated host isLarge size contiguous).alignPointer.pointer = blockFor host isLarge size ↔
      host.pageSize ∣ blockFor host isLarge size := by
  constructor
  · intro h
    by_contra hndvd
    cases isLarge with
    | true =>
      cases hmmap : host.mmap (poolSizeFor host true size) with
      | none => exact hndvd (by simp [blockFor, hmmap])
      | some address =>
        exact hndvd (by simpa [blockFor, hmmap] using hmap _ _ hmmap)
    | false =>
      obtain ⟨s, -, hs, hsize⟩ := hpage
      have hmod : (allocated host false size contiguous).pointer %
          (allocated host false size contiguous).pageSize ≠ 0 :=
        fun hzero => hndvd (Nat.dvd_of_mod_eq_zero hzero)
      rw [alignPointer, if_pos hmod] at h
      have hdvd := dvd_roundToAlignment (blockFor host false size) (show s ≤ 64 by omega)
      rw [← hsize] at hdvd
      exact hndvd (h ▸ hdvd)
  · intro h
    rw [alignPointer_of_dvd (by simpa using h), allocated_pointer]

end Buffer

theorem setupBuffer_eq_ok {host : Host} {opt : Options} {b : Buffer} {m m' : Memory} :
    setupBuffer host opt m = .ok (b, m') ↔
      ∃ built, Buffer.build host opt.huge (asSizeT opt.buffersize) opt.cont m = .ok (built, m') ∧
        b = built.setBufferOffset opt.bufferoffset.toNat := by
  constructor
  · intro h
    obtain ⟨⟨built, m₁⟩, hbuild, hoffset⟩ := bind_eq_ok.mp h
    obtain ⟨rfl, rfl⟩ := Prod.mk.inj (Except.ok.inj hoffset)
    exact ⟨built, hbuild, rfl⟩
  · rintro ⟨built, hbuild, rfl⟩
    exact bind_eq_ok.mpr ⟨(built, m'), hbuild, rfl⟩

/-! ## The bounds -/

/-- For every completed construction and every offset: the recorded pool lies in the allocated
block, and the window of the path in the recorded pool, exactly when the block starts at a page
boundary and the pool has room for the offset and the buffer. -/
theorem pool_bounds_iff {host : Host} (hpage : host.PageSizes) (hmap : host.MapsPages)
    {opt : Options} {b : Buffer} {m m' : Memory} (h : setupBuffer host opt m = .ok (b, m')) :
    let size := asSizeT opt.buffersize
    let pool := poolSizeFor host opt.huge size
    let block := blockFor host opt.huge size
    b.getAllocatedSize = pool ∧
      ((block ≤ b.getBufferPointer ∧ b.getBufferPointer + b.getAllocatedSize ≤ block + pool ∧
          b.getBufferPointer ≤ b.getStartAddress ∧
            b.getStartAddress + b.getSize ≤ b.getBufferPointer + b.getAllocatedSize) ↔
        host.pageSize ∣ block ∧ opt.bufferoffset.toNat + size ≤ pool) := by
  intro size pool block
  obtain ⟨built, hbuild, rfl⟩ := setupBuffer_eq_ok.mp h
  obtain ⟨hpool, hsize, hpointer, hstart⟩ := Buffer.build_pool hbuild
  have haligned := Buffer.alignPointer_allocated_iff hpage hmap opt.huge size opt.cont
  rw [← hpointer] at haligned
  change built.poolSize = pool at hpool
  change built.bufferSize = size at hsize
  change built.pointer = block ↔ host.pageSize ∣ block at haligned
  simp only [Buffer.setBufferOffset, Buffer.getAllocatedSize, Buffer.getBufferPointer,
    Buffer.getStartAddress, Buffer.getSize, hpool, hsize, hstart]
  refine ⟨trivial, ?_⟩
  rw [← haligned]
  omega

/-- A buffer of 1KB in a pool that starts at a page boundary, with the path 128 bytes into it. -/
theorem pool_bounds_iff_aligned :
    let opt := { Options.default with dataset := 1024, bufferoffset := 128 }
    ∃ b m', setupBuffer Host.simple opt zeros = .ok (b, m') ∧
      page1GB ≤ b.getBufferPointer ∧
        b.getBufferPointer + b.getAllocatedSize ≤ page1GB + poolSizeFor Host.simple false 1024 ∧
          b.getBufferPointer ≤ b.getStartAddress ∧
            b.getStartAddress + b.getSize ≤ b.getBufferPointer + b.getAllocatedSize :=
  have hsize : asSizeT
      { Options.default with dataset := 1024, bufferoffset := 128 }.buffersize = 1024 := by decide
  have hsetup := setupBuffer_small rfl rfl hsize zeros
  ⟨_, _, hsetup, (pool_bounds_iff Host.simple_pageSizes Host.simple_mapsPages hsetup).2.mpr
    ⟨by decide, by decide⟩⟩

/-- A host whose `malloc` keeps 16 bytes for itself at the start of a page, as allocators do. -/
def Host.offPage : Host := { Host.simple with malloc := fun _ => page1GB + 16 }

/-- There the recorded pool reaches past the end of the block. -/
theorem pool_leaves_block :
    ∃ b m', setupBuffer Host.offPage { Options.default with dataset := 1024 } zeros = .ok (b, m') ∧
      ¬b.getBufferPointer + b.getAllocatedSize ≤
        blockFor Host.offPage false 1024 + poolSizeFor Host.offPage false 1024 := by
  have hbuild := Buffer.build_eq_ok.mpr (Buffer.initializeBuffer_of_not_contiguous Host.offPage
    (b := Buffer.allocated Host.offPage false 1024 false) (by decide) rfl zeros)
  exact ⟨_, _, setupBuffer_eq_ok.mpr ⟨_, hbuild, rfl⟩, by decide⟩

end Cachetest
