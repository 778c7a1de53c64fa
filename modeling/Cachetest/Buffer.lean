import Cachetest.ByteMemory
import Cachetest.Machine

/-!
# The buffer

`Buffer.cc`, `Small_buffer.cc` and `Large_buffer.cc`: the memory pool the experiment walks over,
where in it the path starts, and the search for physically contiguous pages. Everything the
operating system and the C library answer is collected in `Host`.
-/

namespace Cachetest

open ByteMemory

/-! ## Constants and error codes -/

/-- `Linux_attributes::PAGEMAP_PFN_MASK`. -/
def pagemapPfnMask : Nat := 2 ^ 55 - 1

/-- `Linux_attributes::POOL_SIZE_4KB`. -/
def poolSize4KB : Nat := 2 ^ 25

/-- `Linux_attributes::POOL_SIZE_1GB`: the working set is expected to be below 1GB. -/
def poolSize1GB : Nat := 0

/-- `PAGE_1GB`. -/
def page1GB : Nat := 2 ^ 30

/-- `KPF_COMPOUND_HEAD`. -/
def kpfCompoundHead : Nat := 15

/-- `Buffer::Error_code`. -/
inductive ErrorCode where
  | ok
  | failedGetMemoryFromOs
  | failedAllocateBuffer
  | failedContiguousLookup
  | bufferNotAllocated
  | failedToOpenPagemap
  | failedToOpenKpageflags
  | failedToSeekPagemap
  | failedToSeekKpageflags
  | notImplemented
  | noContiguousRangeFound
  deriving DecidableEq, Repr

/-- The integer value of an error code, as passed to `exit`. -/
def ErrorCode.value (e : ErrorCode) : Nat := e.ctorIdx

/-- How `Populate_frame_to_page_map` ends. `Open_proc_files` has no effect on that by itself: its
result is dropped, and a file that could not be opened shows in the first seek. -/
inductive PopulateEnd where
  /-- The seek in the page map fails, and the caller is told. -/
  | seekFailed
  /-- A later seek or a read fails: `perror(text)` and `exit(1)`. -/
  | failed (text : String)
  /-- All frames have been read. There is no return statement, and this is what the caller finds
  in place of a value; anything but `OK` means the same to it. -/
  | noReturn (status : ErrorCode)
  /-- Likewise, and control does not come back to the caller. -/
  | ranOn
  deriving DecidableEq, Repr

/-- The answers of the operating system and the C library. -/
structure Host where
  /-- `getpagesize()`. -/
  pageSize : Nat
  /-- The address `malloc` returns for a request, 0 when it fails. -/
  malloc : Nat → Nat
  /-- The address `mmap` returns for a request, `none` for `MAP_FAILED`. -/
  mmap : Nat → Option Nat
  /-- The `/proc/self/pagemap` entry of a virtual page. -/
  pagemap : Nat → Nat
  /-- The `/proc/kpageflags` entry of a physical frame. -/
  kpageflags : Nat → Nat
  /-- How reading these two files ends, in the compiled program. -/
  populateEnd : PopulateEnd

/-- An operating system that maps huge pages at 1GB, unless the length is 0, and grants `malloc` the
same address. The missing return value reads as `OK`. -/
def Host.simple : Host where
  pageSize := 4096
  malloc _ := page1GB
  mmap size := if size = 0 then none else some page1GB
  pagemap := id
  kpageflags _ := 0
  populateEnd := .noReturn .ok

/-- `Round_to_alignment`: `~(Alignment - 1)` is `2^64 - Alignment`. -/
def roundToAlignment (address alignment : Nat) : Nat :=
  ((address + (alignment - 1)) % sizeRange) &&& (sizeRange - alignment)

/-! ## The class -/

/-- The members of `Buffer`. Addresses are absolute. -/
structure Buffer where
  /-- `M_Buffer_size`. -/
  bufferSize : Nat
  /-- `M_Contiguous`. -/
  contiguous : Bool
  /-- `M_Logical_page_size`. -/
  logicalPageSize : Nat
  /-- `M_Page_size`. -/
  pageSize : Nat
  /-- `M_Pool_size`. -/
  poolSize : Nat
  /-- `M_Buffer`. -/
  pointer : Nat
  /-- `M_Start_address`. -/
  startAddress : Nat
  /-- `M_Buffer_slabs`. -/
  slabs : List Nat
  /-- Which of the two subclasses the object belongs to. -/
  isLargeBuffer : Bool
  deriving DecidableEq, Repr

namespace Buffer

def getSize (b : Buffer) : Nat := b.bufferSize

def getAllocatedSize (b : Buffer) : Nat := b.poolSize

def getBufferPointer (b : Buffer) : Nat := b.pointer

def getStartAddress (b : Buffer) : Nat := b.startAddress

def getSlabs (b : Buffer) : List Nat := b.slabs

def setBufferOffset (b : Buffer) (offset : Nat) : Buffer :=
  { b with startAddress := b.startAddress + offset }

/-- How far the start of the path lies behind the buffer pointer, as the `element_size_t` that
every distribution computes first. -/
def bufferOffset (b : Buffer) : Nat := asUnsigned (b.getStartAddress - b.getBufferPointer)

/-- The memory as the distributions and the loops address it, by the distance from the buffer
pointer. -/
def view (b : Buffer) (m : Memory) : Memory := ⟨fun a => m.byte (b.pointer + a)⟩

/-- The constructor of the base class. -/
def construct (host : Host) (bufferSize poolSize logicalPageSize : Nat)
    (contiguous isLarge : Bool) : Buffer where
  bufferSize := bufferSize
  contiguous := contiguous
  logicalPageSize := logicalPageSize
  pageSize := host.pageSize
  poolSize := roundToAlignment ((poolSize + bufferSize) % sizeRange) logicalPageSize
  pointer := 0
  startAddress := 0
  slabs := []
  isLargeBuffer := isLarge

/-! ## The search for contiguous pages -/

/-- `Frame_to_page_map`: pairs of a frame number and a virtual address, in ascending order of the
frame numbers. -/
abbrev FrameToPageMap := List (Nat × Nat)

/-- `Map[pfn] = page`. -/
def insertFrame (pfn page : Nat) : FrameToPageMap → FrameToPageMap
  | [] => [(pfn, page)]
  | (f, p) :: map =>
    if pfn < f then (pfn, page) :: (f, p) :: map
    else if pfn = f then (pfn, page) :: map
    else (f, p) :: insertFrame pfn page map

/-- The map that `Populate_frame_to_page_map` fills: every page of the pool whose frame counts (for
a large buffer only the heads of huge pages). -/
def populateFrameToPageMap (host : Host) (b : Buffer) : FrameToPageMap :=
  (List.range (b.getAllocatedSize / b.pageSize)).foldl (fun map idx =>
    let devData := host.pagemap (b.pointer / b.pageSize + idx)
    let pfn := devData &&& pagemapPfnMask
    let devFlags := host.kpageflags pfn
    if b.isLargeBuffer && !devFlags.testBit kpfCompoundHead then map
    else insertFrame pfn (b.pointer + idx * b.pageSize) map) []

/-- How many pages have to follow the first one. -/
def requiredPages (b : Buffer) : Nat :=
  (roundToAlignment b.bufferSize b.logicalPageSize / b.logicalPageSize + (sizeRange - 1)) %
    sizeRange

/-- The loop of `Find_contiguous_range`: the pages still required, the previous frame and the
slabs collected so far. -/
def findContiguousLoop (b : Buffer) :
    FrameToPageMap → Nat → Nat → List Nat → ErrorCode × List Nat
  | [], required, _, slabs =>
    (if required = 0 then .ok else .noContiguousRangeFound, slabs)
  | (pfn, vpn) :: map, required, lastPfn, slabs =>
    if required = 0 then (.ok, slabs)
    else if pfn = lastPfn + 1 then
      findContiguousLoop b map (required - 1) pfn (slabs ++ [vpn])
    else findContiguousLoop b map b.requiredPages pfn [vpn]

/-- `Find_contiguous_range`, from the map on. The first `push_back` dereferences the first entry. -/
def searchFrames (b : Buffer) (map : FrameToPageMap) : Outcome (ErrorCode × List Nat) :=
  match map with
  | [] => .error (.undefined "begin() of an empty map")
  | (pfn, vpn) :: map => .ok (findContiguousLoop b ((pfn, vpn) :: map) b.requiredPages 0 [vpn])

/-- `Find_contiguous_range`. It takes what `Populate_frame_to_page_map` leaves in place of a return
value for its status, and only goes on if that is `OK`. -/
def findContiguousRange (host : Host) (b : Buffer) : Outcome (ErrorCode × List Nat) :=
  match host.populateEnd with
  | .seekFailed => .ok (.failedToSeekPagemap, [])
  | .failed text => .error (.exited text 1)
  | .noReturn status =>
    if status = .ok then b.searchFrames (populateFrameToPageMap host b) else .ok (status, [])
  | .ranOn => .error (.undefined "the end of Populate_frame_to_page_map is reached")

/-! ## Construction -/

/-- `memset(M_Buffer, 0x0, Get_allocated_size())`. -/
def zeroPool (b : Buffer) (m : Memory) : Memory :=
  ⟨fun a => if b.pointer ≤ a ∧ a < b.pointer + b.getAllocatedSize then 0 else m.byte a⟩

/-- Ensure that the buffer is page aligned. The recorded pool size stays as it is. -/
def alignPointer (b : Buffer) : Buffer :=
  if b.pointer % b.pageSize ≠ 0 then
    { b with pointer := roundToAlignment b.pointer b.logicalPageSize }
  else b

/-- `Initialize`: clear the pool, align the buffer pointer, look for contiguous pages. -/
def initializeBuffer (host : Host) (b : Buffer) (m : Memory) :
    Outcome (ErrorCode × Buffer × Memory) :=
  if b.pointer = 0 then .ok (.bufferNotAllocated, b, m)
  else
    let aligned := b.alignPointer
    let start := { aligned with startAddress := aligned.pointer }
    if aligned.contiguous then
      match aligned.findContiguousRange host with
      | .error stop => .error stop
      | .ok (.ok, slabs) => .ok (.ok, { start with slabs := slabs }, b.zeroPool m)
      | .ok (_, slabs) =>
        .ok (.failedContiguousLookup, { aligned with slabs := slabs }, b.zeroPool m)
    else .ok (.ok, start, b.zeroPool m)

/-- The end of both constructors: `exit(status)` unless `Initialize` succeeded. -/
def finish (host : Host) (b : Buffer) (m : Memory) : Outcome (Buffer × Memory) :=
  match b.initializeBuffer host m with
  | .error stop => .error stop
  | .ok (.ok, b, m) => .ok (b, m)
  | .ok (status, _, _) => .error (.exited "" status.value)

/-- `Small_buffer`: the status of `Allocate_memory` is dropped, `Initialize` finds the null
pointer. -/
def small (host : Host) (bufferSize : Nat) (contiguous : Bool) (m : Memory) :
    Outcome (Buffer × Memory) :=
  let b := construct host bufferSize poolSize4KB host.pageSize contiguous false
  finish host { b with pointer := host.malloc b.getAllocatedSize } m

/-- `Large_buffer`. -/
def large (host : Host) (bufferSize : Nat) (contiguous : Bool) (m : Memory) :
    Outcome (Buffer × Memory) :=
  let b := construct host bufferSize poolSize1GB page1GB contiguous true
  match host.mmap b.getAllocatedSize with
  | none => .error (.exited "Failed to mmap hugepage" ErrorCode.failedGetMemoryFromOs.value)
  | some address => finish host { b with pointer := address } m

/-- The allocation behind a buffer of `size` bytes on the simple host. -/
def allocation (size : Nat) (isLarge : Bool) : Buffer :=
  { construct Host.simple size (if isLarge then poolSize1GB else poolSize4KB)
      (if isLarge then page1GB else 4096) false isLarge with
    pointer := page1GB }

/-- The buffers of `size` bytes that the two constructors make of it. -/
def hugePool (size : Nat) : Buffer := { allocation size true with startAddress := page1GB }

def smallPool (size : Nat) : Buffer := { allocation size false with startAddress := page1GB }

/-! ## What construction leaves behind -/

@[simp] theorem bufferSize_alignPointer (b : Buffer) :
    b.alignPointer.bufferSize = b.bufferSize := by
  unfold alignPointer
  split <;> rfl

theorem initializeBuffer_spec {host : Host} {b b' : Buffer} {m m' : Memory}
    (h : b.initializeBuffer host m = .ok (.ok, b', m')) :
    b'.bufferSize = b.bufferSize ∧ b'.startAddress = b'.pointer := by
  unfold initializeBuffer at h
  split at h
  · simp at h
  · simp only at h
    split at h
    · split at h
      · simp at h
      · simp only [Except.ok.injEq, Prod.mk.injEq, true_and] at h
        obtain ⟨rfl, -⟩ := h
        exact ⟨bufferSize_alignPointer b, rfl⟩
      · simp at h
    · simp only [Except.ok.injEq, Prod.mk.injEq, true_and] at h
      obtain ⟨rfl, -⟩ := h
      exact ⟨bufferSize_alignPointer b, rfl⟩

theorem finish_spec {host : Host} {b b' : Buffer} {m m' : Memory}
    (h : b.finish host m = .ok (b', m')) :
    b'.bufferSize = b.bufferSize ∧ b'.startAddress = b'.pointer := by
  unfold finish at h
  split at h
  · simp at h
  · rename_i b₁ m₁ hinit
    simp only [Except.ok.injEq, Prod.mk.injEq] at h
    obtain ⟨rfl, rfl⟩ := h
    exact initializeBuffer_spec hinit
  · simp at h

/-- Both kinds of buffer have the requested size, and the path starts at the buffer pointer. -/
theorem small_spec {host : Host} {size : Nat} {contiguous : Bool} {b : Buffer} {m m' : Memory}
    (h : small host size contiguous m = .ok (b, m')) :
    b.bufferSize = size ∧ b.startAddress = b.pointer :=
  finish_spec h

theorem large_spec {host : Host} {size : Nat} {contiguous : Bool} {b : Buffer} {m m' : Memory}
    (h : large host size contiguous m = .ok (b, m')) :
    b.bufferSize = size ∧ b.startAddress = b.pointer := by
  unfold large at h
  simp only at h
  split at h
  · simp at h
  · exact finish_spec h

@[simp] theorem zeroPool_startAddress (b : Buffer) (start : Nat) (m : Memory) :
    { b with startAddress := start }.zeroPool m = b.zeroPool m := rfl

theorem initializeBuffer_of_aligned (host : Host) {b : Buffer} (hpointer : b.pointer ≠ 0)
    (haligned : b.pointer % b.pageSize = 0) (hcontiguous : b.contiguous = false) (m : Memory) :
    b.initializeBuffer host m = .ok (.ok, { b with startAddress := b.pointer }, b.zeroPool m) := by
  simp [initializeBuffer, alignPointer, hpointer, haligned, hcontiguous]

theorem small_simple (size : Nat) (m : Memory) :
    small Host.simple size false m = .ok (smallPool size, (smallPool size).zeroPool m) := by
  have hinit := initializeBuffer_of_aligned Host.simple (b := allocation size false) (m := m)
    (show page1GB ≠ 0 by decide) (show page1GB % 4096 = 0 by decide) rfl
  have hsmall : small Host.simple size false m = finish Host.simple (allocation size false) m := rfl
  rw [hsmall, finish, hinit, smallPool, zeroPool_startAddress]
  rfl

end Buffer

end Cachetest
