import CrapOs.MemoryManager.Pmm

/-! # Seeding the free list from the UEFI memory map

`PhysicalMemoryManager.init` frees the conventional pages and
`reclaimBootMemory` later frees the loader and boot-services pages. Both walk
the descriptor array in memory while `freePage` writes into the pages they
free, so the descriptors read late are the original ones only because the
passes never free a page of the array itself. The two loops are one definition
here, with each pass's own type filter and its own list of withheld pages.
-/

namespace CrapOs

open Foundation

inductive EfiMemoryType
  | efiReservedMemoryType
  | efiLoaderCode
  | efiLoaderData
  | efiBootServicesCode
  | efiBootServicesData
  | efiRuntimeServicesCode
  | efiRuntimeServicesData
  | efiConventionalMemory
  | efiUnusableMemory
  | efiACPIReclaimMemory
  | efiACPIMemoryNVS
  | efiMemoryMappedIO
  | efiMemoryMappedIOPortSpace
  | efiPalCode
  | efiPersistentMemory
  | efiMaxMemoryType
deriving DecidableEq, Repr

def EfiMemoryType.ofCode (code : Nat) : Option EfiMemoryType :=
  [efiReservedMemoryType, efiLoaderCode, efiLoaderData, efiBootServicesCode,
    efiBootServicesData, efiRuntimeServicesCode, efiRuntimeServicesData,
    efiConventionalMemory, efiUnusableMemory, efiACPIReclaimMemory, efiACPIMemoryNVS,
    efiMemoryMappedIO, efiMemoryMappedIOPortSpace, efiPalCode, efiPersistentMemory,
    efiMaxMemoryType][code]?

structure EfiMemoryDescriptor where
  regionType : Option EfiMemoryType
  physicalStart : Nat
  numPages : Nat
deriving DecidableEq, Repr

structure MemoryMapInfo where
  memoryMapAddr : Nat
  memoryMapSize : Nat
  descriptorSize : Nat
  stackBaseAddr : Nat
  stackSize : Nat

structure FramebufferInfo where
  framebufferAddr : Nat
  framebufferWidth : Nat
  framebufferHeight : Nat
  framebufferBpp : Nat

namespace EfiMemoryDescriptor

/-- The descriptor stored at physical address `a`, in the layout of the C struct. -/
def ofBytes (m : Mem) (a : Nat) : EfiMemoryDescriptor where
  regionType := EfiMemoryType.ofCode (m.read32 a)
  physicalStart := m.read64 (a + 8)
  numPages := m.read64 (a + 24)

def new (m : Mem) (address : Nat) : EfiMemoryDescriptor := ofBytes m (physOf address)

def byteSize : Nat := 40

def stop (d : EfiMemoryDescriptor) : Nat := d.physicalStart + d.numPages * pageSize

def Apart (d e : EfiMemoryDescriptor) : Prop :=
  d.stop ≤ e.physicalStart ∨ e.stop ≤ d.physicalStart

instance : Std.Symm Apart := ⟨fun _ _ => Or.symm⟩

def pageAt (d : EfiMemoryDescriptor) (i : Nat) : Nat := d.physicalStart + i * pageSize

def pages (d : EfiMemoryDescriptor) : List Nat := (List.range d.numPages).map d.pageAt

def isConventional (d : EfiMemoryDescriptor) : Bool :=
  d.regionType = some .efiConventionalMemory

def isReclaimable (d : EfiMemoryDescriptor) : Bool :=
  match d.regionType with
  | some .efiLoaderCode | some .efiLoaderData | some .efiBootServicesCode
  | some .efiBootServicesData => true
  | _ => false

end EfiMemoryDescriptor

def pageOverlaps (pageStart pageEnd regionStart regionEnd : Nat) : Bool :=
  pageStart ≤ regionEnd && pageEnd ≥ regionStart

/-- The pages a pass leaves out, from the manager's fields and a page's bounds. -/
abbrev Withheld := PhysicalMemoryManager → Nat → Nat → Bool

def sweepPage (withheld : Withheld) (d : EfiMemoryDescriptor) (s : Phys) (i : Nat) : Phys :=
  let pageStart := wrap64 (d.physicalStart + wrap64 (i * pageSize))
  let pageEnd := wrap64 (pageStart + (pageSize - 1))
  if withheld s.pmm pageStart pageEnd then s else freePage s pageStart

def sweepDescriptor (withheld : Withheld) (s : Phys) (d : EfiMemoryDescriptor) : Phys :=
  (List.range d.numPages).foldl (sweepPage withheld d) s

def sweepSegments (wanted : EfiMemoryDescriptor → Bool) (withheld : Withheld)
    (descriptorSize : Nat) : Nat → Nat → Phys → Phys
  | 0, _, s => s
  | count + 1, descriptorAddr, s =>
    let d := EfiMemoryDescriptor.new s.mem descriptorAddr
    let s := if wanted d then sweepDescriptor withheld s d else s
    sweepSegments wanted withheld descriptorSize count
      (wrap64 (descriptorAddr + descriptorSize)) s

def initWithheld : Withheld := fun pmm pageStart pageEnd =>
  pageStart == 0 ||
  pageOverlaps pageStart pageEnd pmm.memoryMapAddr
    (wrap64 (pmm.memoryMapAddr + pmm.memoryMapSize)) ||
  pageOverlaps pageStart pageEnd pmm.kernelStart pmm.kernelEnd ||
  pageOverlaps pageStart pageEnd pmm.kernelStackBaseAddr
    (wrap64 (pmm.kernelStackBaseAddr + pmm.kernelStackSize)) ||
  pageOverlaps pageStart pageEnd pmm.framebufferAddr
    (wrap64 (pmm.framebufferAddr + pmm.framebufferSize))

def reclaimWithheld (memoryMap : MemoryMapInfo) : Withheld := fun pmm pageStart pageEnd =>
  pageStart == 0 ||
  pageOverlaps pageStart pageEnd memoryMap.memoryMapAddr
    (wrap64 (memoryMap.memoryMapAddr + memoryMap.memoryMapSize)) ||
  pageOverlaps pageStart pageEnd pmm.kernelStart pmm.kernelEnd ||
  pageOverlaps pageStart pageEnd pmm.kernelStackBaseAddr
    (wrap64 (pmm.kernelStackBaseAddr + pmm.kernelStackSize))

def FramebufferInfo.size (framebufferInfo : FramebufferInfo) : Nat :=
  wrap64 (wrap64 (framebufferInfo.framebufferHeight * framebufferInfo.framebufferWidth) *
    (framebufferInfo.framebufferBpp / 8))

def PhysicalMemoryManager.blank (framebufferInfo : FramebufferInfo) (memoryMap : MemoryMapInfo)
    (kernelStart kernelEnd : Nat) : PhysicalMemoryManager where
  framebufferAddr := framebufferInfo.framebufferAddr
  framebufferSize := framebufferInfo.size
  memoryMapAddr := memoryMap.memoryMapAddr
  memoryMapSize := memoryMap.memoryMapSize
  memoryMapDescSize := memoryMap.descriptorSize
  kernelStackBaseAddr := memoryMap.stackBaseAddr
  kernelStackSize := memoryMap.stackSize
  kernelStart := kernelStart
  kernelEnd := kernelEnd
  isHigherHalf := false
  freeListHead := none
  freePages := 0

/-- `memory_map_size / descriptor_size`, which panics on a zero divisor. -/
def MemoryMapInfo.numSegments (memoryMap : MemoryMapInfo) : Except Halt Nat :=
  if memoryMap.descriptorSize = 0 then .error (.panic "attempt to divide by zero")
  else .ok (memoryMap.memoryMapSize / memoryMap.descriptorSize)

def PhysicalMemoryManager.init (m : Mem) (framebufferInfo : FramebufferInfo)
    (memoryMap : MemoryMapInfo) (kernelStart kernelEnd : Nat) : Except Halt Phys := do
  let pmm := PhysicalMemoryManager.blank framebufferInfo memoryMap kernelStart kernelEnd
  let numSegments ← memoryMap.numSegments
  return sweepSegments EfiMemoryDescriptor.isConventional initWithheld pmm.memoryMapDescSize
    numSegments pmm.memoryMapAddr ⟨pmm, m⟩

def reclaimBootMemory (s : Phys) (memoryMap : MemoryMapInfo) : Except Halt Phys := do
  let descriptorAddr := wrap64 (memoryMap.memoryMapAddr + kernelPhysicalMapBase)
  let numSegments ← memoryMap.numSegments
  return sweepSegments EfiMemoryDescriptor.isReclaimable (reclaimWithheld memoryMap)
    memoryMap.descriptorSize numSegments descriptorAddr s

structure PhysicalMemoryManager.SameConfig (p q : PhysicalMemoryManager) : Prop where
  kernelStackBaseAddr : q.kernelStackBaseAddr = p.kernelStackBaseAddr
  kernelStackSize : q.kernelStackSize = p.kernelStackSize
  framebufferAddr : q.framebufferAddr = p.framebufferAddr
  framebufferSize : q.framebufferSize = p.framebufferSize
  memoryMapAddr : q.memoryMapAddr = p.memoryMapAddr
  memoryMapSize : q.memoryMapSize = p.memoryMapSize
  memoryMapDescSize : q.memoryMapDescSize = p.memoryMapDescSize
  kernelStart : q.kernelStart = p.kernelStart
  kernelEnd : q.kernelEnd = p.kernelEnd

namespace PhysicalMemoryManager.SameConfig

theorem refl (p : PhysicalMemoryManager) : p.SameConfig p :=
  ⟨rfl, rfl, rfl, rfl, rfl, rfl, rfl, rfl, rfl⟩

theorem trans {p q r : PhysicalMemoryManager} (h1 : p.SameConfig q) (h2 : q.SameConfig r) :
    p.SameConfig r where
  kernelStackBaseAddr := h2.kernelStackBaseAddr.trans h1.kernelStackBaseAddr
  kernelStackSize := h2.kernelStackSize.trans h1.kernelStackSize
  framebufferAddr := h2.framebufferAddr.trans h1.framebufferAddr
  framebufferSize := h2.framebufferSize.trans h1.framebufferSize
  memoryMapAddr := h2.memoryMapAddr.trans h1.memoryMapAddr
  memoryMapSize := h2.memoryMapSize.trans h1.memoryMapSize
  memoryMapDescSize := h2.memoryMapDescSize.trans h1.memoryMapDescSize
  kernelStart := h2.kernelStart.trans h1.kernelStart
  kernelEnd := h2.kernelEnd.trans h1.kernelEnd

end PhysicalMemoryManager.SameConfig

theorem freePage_sameConfig (s : Phys) (a : Nat) : s.pmm.SameConfig (freePage s a).pmm :=
  ⟨rfl, rfl, rfl, rfl, rfl, rfl, rfl, rfl, rfl⟩

theorem allocPage_sameConfig (s : Phys) : s.pmm.SameConfig (allocPage s).2.pmm := by
  unfold allocPage
  cases s.pmm.freeListHead with
  | none => exact .refl _
  | some head => exact ⟨rfl, rfl, rfl, rfl, rfl, rfl, rfl, rfl, rfl⟩

/-- The sweep took `s` to `s'` by pushing `pages`, in this order. -/
structure Swept (s s' : Phys) (pages stack : List Nat) : Prop where
  stack : FreeStack s' (pages.reverse ++ stack)
  config : s.pmm.SameConfig s'.pmm
  frame : ∀ b n, (∀ p ∈ pages, p + pageSize ≤ b ∨ b + n ≤ p) → Mem.AgreeOn s.mem s'.mem b n

variable {a i ptr : Nat} {s : Phys} {size : Nat} {stack : List Nat} {withheld : Withheld}

theorem Swept.refl (h : FreeStack s stack) : Swept s s [] stack where
  stack := h
  config := .refl _
  frame := fun b n _ => Mem.AgreeOn.refl _ b n

theorem Swept.trans {s1 s2 : Phys} {pages pages1 : List Nat} (h : Swept s s1 pages stack)
    (h1 : Swept s1 s2 pages1 (pages.reverse ++ stack)) : Swept s s2 (pages ++ pages1) stack where
  stack := by simpa [List.append_assoc] using h1.stack
  config := h.config.trans h1.config
  frame := by
    intro b n hb
    exact (h.frame b n (fun p hp => hb p (by simp [hp]))).trans
      (h1.frame b n (fun p hp => hb p (by simp [hp])))

theorem Swept.push {p : Nat} (h : FreeStack s stack) (hp : IsFrame p) (hfresh : p ∉ stack) :
    Swept s (freePage s p) [p] stack where
  stack := freePage_spec h hp hfresh
  config := freePage_sameConfig s p
  frame := fun b n hb => freePage_agreeOn hp (hb p (by simp))

def Withheld.Static (withheld : Withheld) : Prop :=
  ∀ p q : PhysicalMemoryManager, p.SameConfig q → withheld q = withheld p

theorem initWithheld_static : initWithheld.Static := by
  intro p q h
  funext pageStart pageEnd
  simp only [initWithheld, h.memoryMapAddr, h.memoryMapSize, h.kernelStart, h.kernelEnd,
    h.kernelStackBaseAddr, h.kernelStackSize, h.framebufferAddr, h.framebufferSize]

theorem reclaimWithheld_static (memoryMap : MemoryMapInfo) : (reclaimWithheld memoryMap).Static := by
  intro p q h
  funext pageStart pageEnd
  simp only [reclaimWithheld, h.kernelStart, h.kernelEnd, h.kernelStackBaseAddr,
    h.kernelStackSize]

def keptPages (withheld : Withheld) (pmm : PhysicalMemoryManager) (starts : List Nat) : List Nat :=
  starts.filter (fun p => !withheld pmm p (p + (pageSize - 1)))

theorem keptPages_cons (withheld : Withheld) (pmm : PhysicalMemoryManager) (p : Nat)
    (starts : List Nat) :
    keptPages withheld pmm (p :: starts) =
      if withheld pmm p (p + (pageSize - 1)) then keptPages withheld pmm starts
      else p :: keptPages withheld pmm starts := by
  by_cases h : withheld pmm p (p + (pageSize - 1)) = true <;> simp [keptPages, h]

theorem keptPages_append (withheld : Withheld) (pmm : PhysicalMemoryManager) (xs ys : List Nat) :
    keptPages withheld pmm (xs ++ ys) = keptPages withheld pmm xs ++ keptPages withheld pmm ys :=
  List.filter_append xs ys

theorem keptPages_congr (hstatic : withheld.Static) {p q : PhysicalMemoryManager}
    (h : p.SameConfig q) (starts : List Nat) :
    keptPages withheld q starts = keptPages withheld p starts := by
  simp [keptPages, hstatic p q h]

theorem EfiMemoryDescriptor.pageAt_le_stop {d : EfiMemoryDescriptor} (h : i < d.numPages) :
    d.pageAt i + pageSize ≤ d.stop := by
  simp only [stop, pageAt, pageSize]
  omega

theorem EfiMemoryDescriptor.wrap64_pageAt {d : EfiMemoryDescriptor}
    (h : d.pageAt i + pageSize ≤ 2 ^ 64) :
    wrap64 (d.physicalStart + wrap64 (i * pageSize)) = d.pageAt i := by
  simp only [pageAt, pageSize] at h ⊢
  rw [wrap64_of_lt (n := i * 4096) (by omega), wrap64_of_lt (by omega)]

theorem sweepPage_eq (withheld : Withheld) (d : EfiMemoryDescriptor) (s : Phys)
    (h : d.pageAt i + pageSize ≤ 2 ^ 64) :
    sweepPage withheld d s i =
      if withheld s.pmm (d.pageAt i) (d.pageAt i + (pageSize - 1)) then s
      else freePage s (d.pageAt i) := by
  have hstart := EfiMemoryDescriptor.wrap64_pageAt h
  have hstop : wrap64 (d.pageAt i + (pageSize - 1)) = d.pageAt i + (pageSize - 1) := by
    simp only [pageSize] at h ⊢
    exact wrap64_of_lt (by omega)
  simp only [sweepPage, hstart, hstop]

theorem sweepPage_foldl_spec (hstatic : withheld.Static) (d : EfiMemoryDescriptor) (is : List Nat)
    (hstack : FreeStack s stack) (hrange : ∀ i ∈ is, d.pageAt i + pageSize ≤ 2 ^ 64)
    (hframes : ∀ p ∈ keptPages withheld s.pmm (is.map d.pageAt), IsFrame p)
    (hnodup : (keptPages withheld s.pmm (is.map d.pageAt) ++ stack).Nodup) :
    Swept s (is.foldl (sweepPage withheld d) s) (keptPages withheld s.pmm (is.map d.pageAt))
      stack := by
  induction is generalizing s stack with
  | nil => exact Swept.refl hstack
  | cons i is ih =>
    have hrest : ∀ j ∈ is, d.pageAt j + pageSize ≤ 2 ^ 64 :=
      fun j hj => hrange j (List.mem_cons_of_mem i hj)
    rw [List.foldl_cons, sweepPage_eq withheld d s (hrange i List.mem_cons_self)]
    rw [List.map_cons, keptPages_cons] at hframes hnodup ⊢
    split at hframes
    · rename_i hw
      simp only [hw, if_true] at hnodup ⊢
      exact ih hstack hrest hframes hnodup
    · rename_i hw
      simp only [hw] at hnodup ⊢
      have hfresh : d.pageAt i ∉ stack :=
        fun h => (List.nodup_cons.mp hnodup).1 (List.mem_append_right _ h)
      have hpush := Swept.push hstack (hframes _ List.mem_cons_self) hfresh
      have hkept := keptPages_congr hstatic hpush.config (is.map d.pageAt)
      have hmiddle : (keptPages withheld s.pmm (is.map d.pageAt) ++ d.pageAt i :: stack).Nodup :=
        List.nodup_middle.mpr hnodup
      have hih := ih hpush.stack hrest
        (by rw [hkept]; exact fun q hq => hframes q (List.mem_cons_of_mem _ hq))
        (by rw [hkept]; exact hmiddle)
      rw [hkept] at hih
      exact hpush.trans hih

theorem sweepDescriptor_spec (hstatic : withheld.Static) (d : EfiMemoryDescriptor)
    (hstack : FreeStack s stack) (hstop : d.stop ≤ 2 ^ 64)
    (hframes : ∀ p ∈ keptPages withheld s.pmm d.pages, IsFrame p)
    (hnodup : (keptPages withheld s.pmm d.pages ++ stack).Nodup) :
    Swept s (sweepDescriptor withheld s d) (keptPages withheld s.pmm d.pages) stack := by
  apply sweepPage_foldl_spec hstatic d _ hstack _ hframes hnodup
  intro i hi
  have hpage := EfiMemoryDescriptor.pageAt_le_stop (List.mem_range.mp hi)
  omega

def descriptorsFrom (m : Mem) (size : Nat) : Nat → Nat → List EfiMemoryDescriptor
  | 0, _ => []
  | count + 1, a => EfiMemoryDescriptor.ofBytes m a :: descriptorsFrom m size count (a + size)

theorem EfiMemoryDescriptor.ofBytes_congr {m m' : Mem} (h : Mem.AgreeOn m m' a byteSize) :
    ofBytes m' a = ofBytes m a := by
  have hpart : ∀ k n, k + n ≤ byteSize → Mem.AgreeOn m m' (a + k) n :=
    fun k n hk => h.mono (by omega) (by omega)
  have hcode : m'.read32 a = m.read32 a := Mem.readLE_congr (hpart 0 4 (by decide))
  have hstart : m'.read64 (a + 8) = m.read64 (a + 8) := Mem.read64_congr (hpart 8 8 (by decide))
  have hcount : m'.read64 (a + 24) = m.read64 (a + 24) :=
    Mem.read64_congr (hpart 24 8 (by decide))
  simp only [ofBytes, hcode, hstart, hcount]

theorem descriptorsFrom_congr {m m' : Mem} {count : Nat}
    (hsize : EfiMemoryDescriptor.byteSize ≤ size) (h : Mem.AgreeOn m m' a (count * size)) :
    descriptorsFrom m' size count a = descriptorsFrom m size count a := by
  induction count generalizing a with
  | zero => rfl
  | succ count ih =>
    rw [Nat.succ_mul] at h
    rw [descriptorsFrom, descriptorsFrom,
      EfiMemoryDescriptor.ofBytes_congr (h.mono (Nat.le_refl a) (by omega)),
      ih (h.mono (by omega) (by omega))]

/-- `ptr` is a pointer to the `len` bytes at physical address `a`. -/
def PointsAt (ptr a len : Nat) : Prop := ∀ k, k < len → ptr + k < 2 ^ 64 ∧ physOf (ptr + k) = a + k

theorem PointsAt.new_eq {len : Nat} (h : PointsAt ptr a len) (hlen : 0 < len) {m : Mem} :
    EfiMemoryDescriptor.new m ptr = EfiMemoryDescriptor.ofBytes m a := by
  rw [EfiMemoryDescriptor.new, show physOf ptr = a from (h 0 hlen).2]

theorem PointsAt.advance {len : Nat} (h : PointsAt ptr a len) (hsize : size < len) :
    PointsAt (wrap64 (ptr + size)) (a + size) (len - size) := by
  intro k hk
  have hk' := h (size + k) (by omega)
  rw [wrap64_of_lt (h size hsize).1, Nat.add_assoc, Nat.add_assoc]
  exact hk'

theorem PointsAt.next {count : Nat} (h : PointsAt ptr a (count * size + size))
    (hsize : EfiMemoryDescriptor.byteSize ≤ size) :
    PointsAt (wrap64 (ptr + size)) (a + size) (count * size) := by
  rcases Nat.eq_zero_or_pos count with rfl | hpos
  · intro k hk
    simp at hk
  · have hlen := Nat.mul_pos hpos (Nat.lt_of_lt_of_le (by decide) hsize)
    have hrest : PointsAt (wrap64 (ptr + size)) (a + size) (count * size + size - size) :=
      h.advance (by omega)
    simpa using hrest

def handledPages (wanted : EfiMemoryDescriptor → Bool) (ds : List EfiMemoryDescriptor) : List Nat :=
  (ds.filter wanted).flatMap EfiMemoryDescriptor.pages

theorem handledPages_cons (wanted : EfiMemoryDescriptor → Bool) (d : EfiMemoryDescriptor)
    (ds : List EfiMemoryDescriptor) :
    handledPages wanted (d :: ds) =
      (if wanted d then d.pages else []) ++ handledPages wanted ds := by
  cases h : wanted d <;> simp [handledPages, h]

private theorem pushed_perm (xs ys stack : List Nat) :
    List.Perm (ys ++ (xs.reverse ++ stack)) ((xs ++ ys) ++ stack) :=
  calc
    List.Perm (ys ++ (xs.reverse ++ stack)) (ys ++ (xs ++ stack)) :=
      ((List.reverse_perm xs).append_right stack).append_left ys
    _ = (ys ++ xs) ++ stack := (List.append_assoc ys xs stack).symm
    List.Perm _ ((xs ++ ys) ++ stack) := List.perm_append_comm.append_right stack

theorem sweepSegments_spec (wanted : EfiMemoryDescriptor → Bool) (hstatic : withheld.Static)
    (hsize : EfiMemoryDescriptor.byteSize ≤ size) (count : Nat) {ds : List EfiMemoryDescriptor}
    (hds : descriptorsFrom s.mem size count a = ds) (hptr : PointsAt ptr a (count * size))
    (hstack : FreeStack s stack) (hstop : ∀ d ∈ ds, d.stop ≤ 2 ^ 64)
    (hframes : ∀ p ∈ keptPages withheld s.pmm (handledPages wanted ds), IsFrame p)
    (havoid : ∀ p ∈ keptPages withheld s.pmm (handledPages wanted ds),
      p + pageSize ≤ a ∨ a + count * size ≤ p)
    (hnodup : (keptPages withheld s.pmm (handledPages wanted ds) ++ stack).Nodup) :
    Swept s (sweepSegments wanted withheld size count ptr s)
      (keptPages withheld s.pmm (handledPages wanted ds)) stack := by
  induction count generalizing ptr a s stack ds with
  | zero =>
    subst hds
    exact Swept.refl hstack
  | succ count ih =>
    subst hds
    rw [Nat.succ_mul] at hptr havoid
    have hpos : 0 < size := Nat.lt_of_lt_of_le (by decide) hsize
    rw [descriptorsFrom, handledPages_cons, keptPages_append] at hframes havoid hnodup ⊢
    rw [descriptorsFrom] at hstop
    rw [sweepSegments, hptr.new_eq (Nat.add_pos_right _ hpos)]
    generalize hd : EfiMemoryDescriptor.ofBytes s.mem a = d at *
    have hfirst : Swept s (if wanted d then sweepDescriptor withheld s d else s)
        (keptPages withheld s.pmm (if wanted d then d.pages else [])) stack := by
      cases hw : wanted d with
      | false => exact Swept.refl hstack
      | true =>
        simp only [hw, if_true] at hframes hnodup ⊢
        apply sweepDescriptor_spec hstatic d hstack (hstop d List.mem_cons_self)
        · exact fun p hp => hframes p (List.mem_append_left _ hp)
        · rw [List.append_assoc] at hnodup
          exact hnodup.sublist
            (List.Sublist.append_left (List.sublist_append_right _ _) _)
    have hkept := keptPages_congr hstatic hfirst.config
      (handledPages wanted (descriptorsFrom s.mem size count (a + size)))
    have hagree := hfirst.frame (a + size) (count * size) (fun p hp => by
      have h := havoid p (List.mem_append_left _ hp)
      omega)
    have hdescs := descriptorsFrom_congr hsize hagree
    have hnext : PointsAt (wrap64 (ptr + size)) (a + size) (count * size) := hptr.next hsize
    have hrest := ih hdescs hnext hfirst.stack
      (fun e he => hstop e (List.mem_cons_of_mem d he))
      (by rw [hkept]; exact fun p hp => hframes p (List.mem_append_right _ hp))
      (by
        rw [hkept]
        intro p hp
        have h := havoid p (List.mem_append_right _ hp)
        omega)
      (by rw [hkept]; exact (pushed_perm _ _ _).nodup_iff.mpr hnodup)
    rw [hkept] at hrest
    exact hfirst.trans hrest

end CrapOs
