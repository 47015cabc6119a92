import CrapOs.Foundation.Extents
import CrapOs.MemoryManager.Manager

/-! # Kernel heap allocator

The linked free-list allocator as the kernel runs it. Free blocks hold their
list node in their own first sixteen bytes, live blocks hold a header and a
copy of the data offset right before the data. `HeapState.mem` is the memory of
the heap's virtual range; unbounded loops carry a fuel that is larger than the
number of blocks the range can hold.
-/

namespace CrapOs

open Foundation

def freeBlockSize : Nat := 16

def allocHeaderSize : Nat := 16

structure KernelHeap where
  base : Nat
  maxSize : Nat
  committed : Nat
  freeList : Nat
deriving DecidableEq, Repr

structure HeapState where
  heap : KernelHeap
  mem : Mem
  manager : Option MemoryManager

structure Layout where
  size : Nat
  align : Nat
  isPowerOfTwo : ∃ k, align = 2 ^ k
  fits : size + align ≤ 2 ^ 63

def KernelHeap.new (base maxSize : Nat) : KernelHeap := ⟨base, maxSize, 0, 0⟩

def kernelHeap : KernelHeap := .new kernelHeapBase (64 * 1024 * 1024)

def KernelHeap.walkFuel (heap : KernelHeap) : Nat := heap.maxSize / freeBlockSize + 2

theorem KernelHeap.walkFuel_congr {heap heap' : KernelHeap} (h : heap'.maxSize = heap.maxSize) :
    heap'.walkFuel = heap.walkFuel := by
  unfold walkFuel
  rw [h]

def findPosition (m : Mem) (ptr : Nat) : Nat → Nat → Nat → Except Halt (Nat × Nat)
  | 0, _, _ => .error .outOfFuel
  | fuel + 1, prev, next =>
    if next ≠ 0 ∧ next < ptr then findPosition m ptr fuel next (m.read64 (next + 8))
    else .ok (prev, next)

def absorb (m : Mem) (first second : Nat) : Mem :=
  if wrap64 (first + m.read64 first) = second then
    let m := m.write64 first (wrap64 (m.read64 first + m.read64 second))
    m.write64 (first + 8) (m.read64 (second + 8))
  else m

/-- Writes the node for the region at `ptr` between `prev` and `next` and merges it
forward, then backward. -/
def spliceBlock (s : HeapState) (ptr totalSize prev next : Nat) : HeapState :=
  let m := (s.mem.write64 ptr totalSize).write64 (ptr + 8) next
  let s :=
    if prev = 0 then { s with heap := { s.heap with freeList := ptr }, mem := m }
    else { s with mem := m.write64 (prev + 8) ptr }
  let m := if next ≠ 0 then absorb s.mem ptr next else s.mem
  let m := if prev ≠ 0 then absorb m prev ptr else m
  { s with mem := m }

def insertFreeBlockSorted (s : HeapState) (ptr totalSize : Nat) : Except Halt HeapState := do
  if totalSize < freeBlockSize then
    .error (.panic "[KERNEL_HEAP] block is too small to hold FreeBlock header")
  let (prev, next) ← findPosition s.mem ptr s.heap.walkFuel 0 s.heap.freeList
  pure (spliceBlock s ptr totalSize prev next)

def commitPages (regionVirtualAddr : Nat) :
    Nat → Nat → MemoryManager → Except Halt MemoryManager
  | 0, _, mm => .ok mm
  | count + 1, i, mm => do
    let virtAddr := wrap64 (regionVirtualAddr + i * pageSize)
    match mm.allocPage with
    | (none, _) => .error (.panic "[KERNEL_HEAP] PMM out of memory during heap grow")
    | (some physAddr, mm) =>
      let flags := Flag.present ||| Flag.writable ||| Flag.nx
      let mm ← mm.mapPage kernelPml4 virtAddr physAddr flags
      commitPages regionVirtualAddr count (i + 1) mm

def grow (s : HeapState) (numPages : Nat) : Except Halt HeapState := do
  let numBytes := wrap64 (numPages * pageSize)
  if wrap64 (s.heap.committed + numBytes) ≤ s.heap.maxSize then
    let regionVirtualAddr := wrap64 (s.heap.base + s.heap.committed)
    match s.manager with
    | none => .error (.panic "[KERNEL_HEAP] MemoryManager is not initialized")
    | some mm =>
      let mm ← commitPages regionVirtualAddr numPages 0 mm
      let heap := { s.heap with committed := wrap64 (s.heap.committed + numBytes) }
      insertFreeBlockSorted { s with heap := heap, manager := some mm } regionVirtualAddr numBytes
  else .error (.panic "[KERNEL_HEAP] Out of heap memory: grow() would exceed max size")

def init (s : HeapState) (initialPages : Nat) : Except Halt HeapState := grow s initialPages

/-- `(total_size, data_offset)` -/
def allocationSizes (layout : Layout) : Nat × Nat :=
  let dataOffset := wrap64 (allocHeaderSize + layout.align - 1) &&& not64 (layout.align - 1)
  let totalSize := wrap64 (dataOffset + layout.size)
  (totalSize, dataOffset)

def unlinkBlock (s : HeapState) (previous next : Nat) : HeapState :=
  if previous = 0 then { s with heap := { s.heap with freeList := next } }
  else { s with mem := s.mem.write64 (previous + 8) next }

/-- Re-inserts the leftover behind an allocation if it can hold a node; a smaller
one is not tracked. -/
def returnLeftover (s : HeapState) (blockPtr totalSize remaining : Nat) : Except Halt HeapState :=
  if freeBlockSize ≤ remaining then insertFreeBlockSorted s (wrap64 (blockPtr + totalSize)) remaining
  else .ok s

def serveBlock (s : HeapState) (totalSize dataOffset previous current : Nat) :
    Except Halt (Nat × HeapState) := do
  let available := s.mem.read64 current
  let next := s.mem.read64 (current + 8)
  let s := unlinkBlock s previous next
  let blockPtr := current
  let remaining := available - totalSize
  let s ← returnLeftover s blockPtr totalSize remaining
  let m := (s.mem.write64 blockPtr totalSize).write64 (blockPtr + 8) dataOffset
  let dataPtr := wrap64 (blockPtr + dataOffset)
  pure (dataPtr, { s with mem := m.write64 (dataPtr - 8) dataOffset })

def pagesNeeded (totalSize : Nat) : Nat :=
  max (wrap64 (totalSize + pageSize - 1) / pageSize) 4

def allocateLoop (totalSize dataOffset : Nat) :
    Nat → HeapState → Nat → Nat → Except Halt (Nat × HeapState)
  | 0, _, _, _ => .error .outOfFuel
  | fuel + 1, s, previous, current =>
    if current = 0 then do
      let s ← grow s (pagesNeeded totalSize)
      allocateLoop totalSize dataOffset fuel s 0 s.heap.freeList
    else if totalSize ≤ s.mem.read64 current then
      serveBlock s totalSize dataOffset previous current
    else allocateLoop totalSize dataOffset fuel s current (s.mem.read64 (current + 8))

def allocate (s : HeapState) (layout : Layout) : Except Halt (Nat × HeapState) :=
  let (totalSize, dataOffset) := allocationSizes layout
  allocateLoop totalSize dataOffset (2 * s.heap.walkFuel) s 0 s.heap.freeList

def deallocate (s : HeapState) (ptr : Nat) : Except Halt HeapState :=
  let dataOffset := s.mem.read64 (ptr - 8)
  let blockPtr := ptr - dataOffset
  let totalSize := s.mem.read64 blockPtr
  insertFreeBlockSorted s blockPtr totalSize

theorem allocationSizes_spec (layout : Layout) :
    let total := (allocationSizes layout).1
    let offset := (allocationSizes layout).2
    layout.align ∣ offset ∧ allocHeaderSize ≤ offset ∧ total = offset + layout.size ∧
      total < 2 ^ 63 + allocHeaderSize := by
  obtain ⟨k, hk⟩ := layout.isPowerOfTwo
  have hfits := layout.fits
  have hpos : 0 < 2 ^ k := Nat.two_pow_pos k
  have hk64 : k ≤ 64 := by
    by_contra hlt
    have hbig : 2 ^ 64 ≤ 2 ^ k := Nat.pow_le_pow_right (by decide) (by omega)
    omega
  have hoffset : (allocationSizes layout).2 = 2 ^ k * ((15 + 2 ^ k) / 2 ^ k) := by
    simp only [allocationSizes, allocHeaderSize, hk]
    rw [wrap64_of_lt (by omega), and_not64_lowMask (by omega) hk64]
    congr 2
    omega
  have hmod := Nat.div_add_mod (15 + 2 ^ k) (2 ^ k)
  have htotal : (allocationSizes layout).1 = wrap64 ((allocationSizes layout).2 + layout.size) := rfl
  simp only [allocHeaderSize]
  rw [htotal, hoffset, hk]
  rw [wrap64_of_lt (by omega)]
  exact ⟨Nat.dvd_mul_right _ _, by omega, rfl, by omega⟩

end CrapOs
