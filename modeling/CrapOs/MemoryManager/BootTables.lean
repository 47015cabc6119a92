import CrapOs.MemoryManager.BootReservation
import CrapOs.MemoryManager.MapRequests

/-! # The tables built at boot

`initPageTables` fills the first PML4 of the kernel with identity maps and the
kernel's own mappings, `buildDirectMap` adds the window onto all of memory and
`mapFramebufferHigherHalf` the one onto the framebuffer. They take their table
frames from the list they are mapping and read the descriptors from memory
while they write to it.
-/

namespace CrapOs

open Foundation

def mapDescriptor (pml4 : Nat) (virt : Nat → Nat) (flags : Nat) (d : EfiMemoryDescriptor)
    (s : Phys) : Except Halt Phys :=
  (List.range d.numPages).foldlM (fun s i =>
    let phys := wrap64 (d.physicalStart + wrap64 (i * pageSize))
    mapPage s pml4 (virt phys) phys flags false) s

def forSegments (body : EfiMemoryDescriptor → Phys → Except Halt Phys) (descriptorSize : Nat) :
    Nat → Nat → Phys → Except Halt Phys
  | 0, _, s => .ok s
  | count + 1, descriptorAddr, s => do
    let s ← body (EfiMemoryDescriptor.new s.mem descriptorAddr) s
    forSegments body descriptorSize count (wrap64 (descriptorAddr + descriptorSize)) s

/-- `while addr < stop { body; addr += PAGE_SIZE }` -/
def whilePages {σ : Type} (body : Nat → σ → Except Halt σ) (stop : Nat) :
    Nat → Nat → σ → Except Halt σ
  | 0, addr, s => if addr < stop then .error .outOfFuel else .ok s
  | fuel + 1, addr, s =>
    if addr < stop then do
      let s ← body addr s
      whilePages body stop fuel (wrap64 (addr + pageSize)) s
    else .ok s

/-- Enough turns for any such loop that does not wrap around. -/
def pageFuel (stop : Nat) : Nat := stop / pageSize + 1

def EfiMemoryDescriptor.shouldIdentityMap (d : EfiMemoryDescriptor) : Bool :=
  match d.regionType with
  | some .efiConventionalMemory | some .efiLoaderCode | some .efiLoaderData
  | some .efiBootServicesCode | some .efiBootServicesData => true
  | _ => false

def imageFlags : Nat := Flag.present ||| Flag.writable
def dataFlags : Nat := Flag.present ||| Flag.writable ||| Flag.nx

def identityMapPage (pml4 flags addr : Nat) (s : Phys) : Except Halt Phys :=
  mapPage s pml4 addr addr flags false

def mapBothHalves (pml4 flags addr : Nat) (s : Phys) : Except Halt Phys := do
  let s ← mapPage s pml4 addr addr flags false
  mapPage s pml4 (wrap64 (addr + kernelVirtualBase)) addr flags false

def initPageTables (s : Phys) (framebufferInfo : FramebufferInfo) (memoryMap : MemoryMapInfo) :
    Except Halt (Nat × Phys) := do
  match allocPage s with
  | (none, _) => .error (.panic "[CRITICAL] OOM allocating PML4!")
  | (some pml4, s) =>
    let s := zeroOutPage s pml4
    let numSegments ← memoryMap.numSegments
    let s ← forSegments (fun d s =>
        if d.shouldIdentityMap then mapDescriptor pml4 id imageFlags d s else .ok s)
      memoryMap.descriptorSize numSegments memoryMap.memoryMapAddr s
    let s ← whilePages (mapBothHalves pml4 imageFlags) s.pmm.kernelEnd
      (pageFuel s.pmm.kernelEnd) s.pmm.kernelStart s
    let stackEnd := wrap64 (memoryMap.stackBaseAddr + memoryMap.stackSize)
    let s ← whilePages (mapBothHalves pml4 dataFlags) stackEnd (pageFuel stackEnd)
      (memoryMap.stackBaseAddr &&& pageMask) s
    let fbEnd := wrap64 (framebufferInfo.framebufferAddr + framebufferInfo.size)
    let s ← whilePages (identityMapPage pml4 imageFlags) fbEnd (pageFuel fbEnd)
      (framebufferInfo.framebufferAddr &&& pageMask) s
    let mapEnd := wrap64 (memoryMap.memoryMapAddr + memoryMap.memoryMapSize)
    let s ← whilePages (identityMapPage pml4 imageFlags) mapEnd (pageFuel mapEnd)
      (memoryMap.memoryMapAddr &&& pageMask) s
    pure (pml4, s)

def EfiMemoryDescriptor.shouldDirectMap (d : EfiMemoryDescriptor) : Bool :=
  match d.regionType with
  | some .efiConventionalMemory | some .efiLoaderCode | some .efiLoaderData
  | some .efiBootServicesCode | some .efiBootServicesData | some .efiRuntimeServicesCode
  | some .efiRuntimeServicesData | some .efiACPIReclaimMemory | some .efiACPIMemoryNVS => true
  | _ => false

def EfiMemoryDescriptor.directMapFlags (d : EfiMemoryDescriptor) : Nat :=
  match d.regionType with
  | some .efiRuntimeServicesCode => imageFlags
  | _ => dataFlags

def deviceFlags : Nat := Flag.present ||| Flag.writable ||| Flag.pwt ||| Flag.pcd

def apicRegions : List (Nat × Nat) := [(0xFEE00000, 0x1000), (0xFEC00000, 0x1000)]

def hpetMmioAddr : Nat := 0xFED00000

def directMapPage (pml4 flags phys : Nat) (s : Phys) : Except Halt Phys :=
  mapPage s pml4 (wrap64 (kernelPhysicalMapBase + phys)) phys flags false

def buildDirectMap (s : Phys) (pml4 : Nat) (memoryMap : MemoryMapInfo) : Except Halt Phys := do
  let numSegments ← memoryMap.numSegments
  let s ← forSegments (fun d s =>
      if d.shouldDirectMap then
        mapDescriptor pml4 (fun phys => wrap64 (kernelPhysicalMapBase + phys)) d.directMapFlags d s
      else .ok s)
    memoryMap.descriptorSize numSegments memoryMap.memoryMapAddr s
  let s ← apicRegions.foldlM (fun s region =>
    whilePages (directMapPage pml4 deviceFlags) (region.1 + region.2)
      (pageFuel (region.1 + region.2)) region.1 s) s
  directMapPage pml4 deviceFlags hpetMmioAddr s

def mapFramebufferPages (pml4 fbPhysEnd : Nat) : Nat → Nat → Nat → Phys → Except Halt Phys
  | 0, phys, _, s => if phys < fbPhysEnd then .error .outOfFuel else .ok s
  | fuel + 1, phys, virt, s =>
    if phys < fbPhysEnd then do
      let s ← mapPage s pml4 virt phys imageFlags false
      mapFramebufferPages pml4 fbPhysEnd fuel (wrap64 (phys + pageSize)) (wrap64 (virt + pageSize)) s
    else .ok s

def FramebufferInfo.physEnd (framebufferInfo : FramebufferInfo) : Nat :=
  wrap64 (wrap64 (framebufferInfo.framebufferAddr + framebufferInfo.size) + 0xFFF) &&& pageMask

def mapFramebufferHigherHalf (s : Phys) (pml4 : Nat) (framebufferInfo : FramebufferInfo) :
    Except Halt Phys :=
  mapFramebufferPages pml4 framebufferInfo.physEnd (pageFuel framebufferInfo.physEnd)
    (framebufferInfo.framebufferAddr &&& pageMask) kernelFramebufferVirtualBase s

/-! ## The loops as lists of requests -/

def pagesFrom (start stop : Nat) : List Nat :=
  (List.range ((stop - start + (pageSize - 1)) / pageSize)).map fun i => start + i * pageSize

theorem mem_pagesFrom {start stop a : Nat} (h : a ∈ pagesFrom start stop) :
    start ≤ a ∧ a < stop ∧ a % pageSize = start % pageSize := by
  simp only [pagesFrom, List.mem_map, List.mem_range] at h
  obtain ⟨i, hi, rfl⟩ := h
  simp only [pageSize] at hi ⊢
  omega

theorem pagesFrom_mem {start stop i : Nat} (h : start + i * pageSize < stop) :
    start + i * pageSize ∈ pagesFrom start stop := by
  refine List.mem_map.mpr ⟨i, List.mem_range.mpr ?_, rfl⟩
  simp only [pageSize] at h ⊢
  omega

theorem pagesFrom_of_le {start stop : Nat} (h : stop ≤ start) : pagesFrom start stop = [] := by
  have hzero : (stop - start + (pageSize - 1)) / pageSize = 0 := by
    simp only [pageSize]
    omega
  rw [pagesFrom, hzero]
  rfl

theorem pagesFrom_of_lt {start stop : Nat} (h : start < stop) :
    pagesFrom start stop = start :: pagesFrom (start + pageSize) stop := by
  have hcount : (stop - start + (pageSize - 1)) / pageSize =
      (stop - (start + pageSize) + (pageSize - 1)) / pageSize + 1 := by
    simp only [pageSize]
    omega
  rw [pagesFrom, hcount, List.range_succ_eq_map, List.map_cons, List.map_map, Nat.zero_mul, Nat.add_zero]
  congr 1
  apply List.map_congr_left
  intro i _
  simp only [Function.comp, pageSize]
  omega

/-- The last page of the loop is not the last one of the address space. -/
def StaysBelow (start stop : Nat) : Prop := stop + pageSize ≤ 2 ^ 64 + start % pageSize

instance (start stop : Nat) : Decidable (StaysBelow start stop) := inferInstanceAs (Decidable (_ ≤ _))

theorem mapDescriptor_eq {pml4 flags : Nat} {virt : Nat → Nat} {d : EfiMemoryDescriptor} {s : Phys}
    (hstop : d.stop ≤ 2 ^ 64) : mapDescriptor pml4 virt flags d s =
      mapAll pml4 s (d.pages.map fun a => ⟨virt a, a, flags⟩) := by
  have hrange : ∀ i ∈ List.range d.numPages,
      wrap64 (d.physicalStart + wrap64 (i * pageSize)) = d.pageAt i := by
    intro i hi
    have hpage := EfiMemoryDescriptor.pageAt_le_stop (List.mem_range.mp hi)
    exact EfiMemoryDescriptor.wrap64_pageAt (by omega)
  rw [mapDescriptor, mapAll, EfiMemoryDescriptor.pages, List.map_map, List.foldlM_map]
  generalize List.range d.numPages = is at hrange
  induction is generalizing s with
  | nil => rfl
  | cons i is ih =>
    simp only [List.foldlM_cons, hrange i List.mem_cons_self]
    refine bind_congr fun s => ?_
    exact ih fun j hj => hrange j (List.mem_cons_of_mem i hj)

theorem whilePages_eq_foldlM {σ : Type} {body : Nat → σ → Except Halt σ} {stop start fuel : Nat}
    {s : σ} (hstop : StaysBelow start stop) (hfuel : stop ≤ start + fuel * pageSize) :
    whilePages body stop fuel start s = (pagesFrom start stop).foldlM (fun s a => body a s) s := by
  induction fuel generalizing start s with
  | zero =>
    rw [whilePages, if_neg (by omega), pagesFrom_of_le (by omega)]
    rfl
  | succ fuel ih =>
    rw [whilePages]
    by_cases hlt : start < stop
    · have hstop' := hstop
      simp only [StaysBelow, pageSize] at hstop' hfuel ih ⊢
      rw [if_pos hlt, pagesFrom_of_lt hlt, List.foldlM_cons, wrap64_of_lt (by omega)]
      exact bind_congr fun s => ih (by omega) (by omega)
    · rw [if_neg hlt, pagesFrom_of_le (by omega)]
      rfl

theorem whilePages_eq {pml4 stop start fuel : Nat} {body : Nat → Phys → Except Halt Phys}
    {g : Nat → List MapRequest} {s : Phys} (hbody : ∀ a s, body a s = mapAll pml4 s (g a))
    (hstop : StaysBelow start stop) (hfuel : stop ≤ start + fuel * pageSize) :
    whilePages body stop fuel start s = mapAll pml4 s ((pagesFrom start stop).flatMap g) := by
  rw [whilePages_eq_foldlM hstop hfuel]
  generalize pagesFrom start stop = pages
  induction pages generalizing s with
  | nil => rfl
  | cons a pages ih =>
    rw [List.foldlM_cons, List.flatMap_cons, mapAll_append, hbody]
    exact bind_congr fun s => ih

theorem whilePages_ne_ok {σ : Type} {body : Nat → σ → Except Halt σ} {stop start fuel : Nat}
    {s s' : σ} (hstart : start < 2 ^ 64) (hstop : ¬ StaysBelow start stop) :
    whilePages body stop fuel start s ≠ .ok s' := by
  have hmore : ∀ a, a < 2 ^ 64 → ¬ StaysBelow a stop → a < stop := by
    intro a ha hlast
    simp only [StaysBelow, pageSize] at hlast
    omega
  induction fuel generalizing start s with
  | zero =>
    rw [whilePages, if_pos (hmore start hstart hstop)]
    exact fun h => by cases h
  | succ fuel ih =>
    rw [whilePages, if_pos (hmore start hstart hstop)]
    intro hok
    obtain ⟨s1, -, hrest⟩ := bind_eq_ok.mp hok
    have hnext : ¬ StaysBelow (wrap64 (start + pageSize)) stop := by
      simp only [StaysBelow, wrap64, pageSize] at hstop ⊢
      omega
    exact ih (Nat.mod_lt _ (by decide)) hnext hrest

theorem mapFramebufferPages_eq {stop fuel : Nat} (pml4 phys i : Nat) (s : Phys)
    (hphys : phys % pageSize = 0) (hstop : stop % pageSize = 0) (hlt : stop < 2 ^ 64)
    (hfuel : stop ≤ phys + fuel * pageSize) :
    mapFramebufferPages pml4 stop fuel phys (wrap64 (kernelFramebufferVirtualBase + i * pageSize)) s =
      mapAll pml4 s ((List.range ((stop - phys) / pageSize)).map fun j =>
        ⟨wrap64 (kernelFramebufferVirtualBase + (i + j) * pageSize), phys + j * pageSize, imageFlags⟩) := by
  induction fuel generalizing phys i s with
  | zero =>
    have hzero : (stop - phys) / pageSize = 0 := by
      simp only [pageSize]
      omega
    rw [mapFramebufferPages, if_neg (by omega), hzero]
    rfl
  | succ fuel ih =>
    rw [mapFramebufferPages]
    by_cases hmore : phys < stop
    · have hcount : (stop - phys) / pageSize = (stop - (phys + pageSize)) / pageSize + 1 := by
        simp only [pageSize] at hphys hstop ⊢
        omega
      have hwrap : wrap64 (phys + pageSize) = phys + pageSize := by
        apply wrap64_of_lt
        simp only [pageSize] at hphys hstop ⊢
        omega
      have hvirt : wrap64 (wrap64 (kernelFramebufferVirtualBase + i * pageSize) + pageSize) =
          wrap64 (kernelFramebufferVirtualBase + (i + 1) * pageSize) := by
        simp only [wrap64, pageSize]
        omega
      rw [if_pos hmore, hcount, List.range_succ_eq_map, List.map_cons, mapAll_cons, hwrap, hvirt]
      simp only [Nat.zero_mul, Nat.add_zero]
      refine bind_congr fun s => ?_
      rw [ih (phys + pageSize) (i + 1) s (by simp only [pageSize] at hphys ⊢; omega)
        (by simp only [pageSize] at hfuel ⊢; omega), List.map_map]
      refine congrArg (mapAll pml4 s) (List.map_congr_left fun j _ => ?_)
      simp only [Function.comp, MapRequest.mk.injEq, and_true]
      refine ⟨congrArg wrap64 ?_, ?_⟩ <;> simp only [pageSize] <;> omega
    · have hzero : (stop - phys) / pageSize = 0 := by
        simp only [pageSize]
        omega
      rw [if_neg hmore, hzero]
      rfl

theorem forSegments_eq {root size : Nat} {hh : Bool} {body : EfiMemoryDescriptor → Phys → Except Halt Phys}
    {g : EfiMemoryDescriptor → List MapRequest} (hsize : EfiMemoryDescriptor.byteSize ≤ size)
    (count : Nat) {ptr a : Nat} {s : Phys} {stack : List Nat} {ds : List EfiMemoryDescriptor}
    (h : Paging s root stack) (hds : descriptorsFrom s.mem size count a = ds)
    (hptr : PointsAt ptr a (count * size))
    (havoid : ∀ t, Touches s root stack t → t + pageSize ≤ a ∨ a + count * size ≤ t)
    (hbody : ∀ d ∈ ds, ∀ s, body d s = mapAll (virtOf hh root) s (g d))
    (hrange : ∀ d ∈ ds, ∀ q ∈ g d, q.InRange) :
    forSegments body size count ptr s = mapAll (virtOf hh root) s (ds.flatMap g) := by
  induction count generalizing ptr a s stack ds with
  | zero =>
    subst hds
    rfl
  | succ count ih =>
    subst hds
    rw [Nat.succ_mul] at hptr havoid
    rw [descriptorsFrom] at hbody hrange ⊢
    have hpos : 0 < size := Nat.lt_of_lt_of_le (by decide) hsize
    rw [forSegments, hptr.new_eq (Nat.add_pos_right _ hpos), hbody _ List.mem_cons_self, List.flatMap_cons, mapAll_append]
    cases hfirst : mapAll (virtOf hh root) s (g (EfiMemoryDescriptor.ofBytes s.mem a)) with
    | error e => rfl
    | ok s1 =>
      obtain ⟨stack1, hreq⟩ := mapAll_requested h (hrange _ List.mem_cons_self) hfirst
      have hagree : Mem.AgreeOn s.mem s1.mem (a + size) (count * size) := by
        apply hreq.writes.agreeOn
        intro t ht
        have hout := havoid t ht
        omega
      have hnext : PointsAt (wrap64 (ptr + size)) (a + size) (count * size) :=
        hptr.next hsize
      refine ih hreq.paging (descriptorsFrom_congr hsize hagree) hnext (fun t ht => ?_)
        (fun d hd => hbody d (List.mem_cons_of_mem _ hd))
        (fun d hd => hrange d (List.mem_cons_of_mem _ hd))
      have hout := havoid t ((hreq.touches_iff t).mp ht)
      omega

namespace EfiMemoryDescriptor

def identityRequests (d : EfiMemoryDescriptor) : List MapRequest :=
  if d.shouldIdentityMap then d.pages.map fun a => ⟨a, a, imageFlags⟩ else []

def directRequests (d : EfiMemoryDescriptor) : List MapRequest :=
  if d.shouldDirectMap then
    d.pages.map fun a => ⟨wrap64 (kernelPhysicalMapBase + a), a, d.directMapFlags⟩
  else []

end EfiMemoryDescriptor

def identityRequest (flags a : Nat) : List MapRequest := [⟨a, a, flags⟩]

def bothHalves (flags a : Nat) : List MapRequest :=
  [⟨a, a, flags⟩, ⟨wrap64 (a + kernelVirtualBase), a, flags⟩]

def devicePages : List Nat := [0xFEE00000, 0xFEC00000, hpetMmioAddr]

def deviceRequests : List MapRequest :=
  devicePages.map fun a => ⟨wrap64 (kernelPhysicalMapBase + a), a, deviceFlags⟩

namespace BootMap

variable (b : BootMap)

def imagePages : List Nat := pagesFrom b.kernelStart b.kernelEnd

def stackPages : List Nat :=
  pagesFrom (b.memoryMap.stackBaseAddr &&& pageMask) (b.memoryMap.stackBaseAddr + b.memoryMap.stackSize)

def framebufferPages : List Nat :=
  pagesFrom (b.framebufferInfo.framebufferAddr &&& pageMask)
    (b.framebufferInfo.framebufferAddr + b.framebufferInfo.size)

def bufferPages : List Nat :=
  pagesFrom (b.memoryMap.memoryMapAddr &&& pageMask)
    (b.memoryMap.memoryMapAddr + b.memoryMap.memoryMapSize)

def tableRequests : List MapRequest :=
  b.descriptors.flatMap EfiMemoryDescriptor.identityRequests ++
    b.imagePages.flatMap (bothHalves imageFlags) ++ b.stackPages.flatMap (bothHalves dataFlags) ++
    b.framebufferPages.flatMap (identityRequest imageFlags) ++
    b.bufferPages.flatMap (identityRequest imageFlags)

def windowRequests : List MapRequest :=
  b.descriptors.flatMap EfiMemoryDescriptor.directRequests ++ deviceRequests

def framebufferRequests : List MapRequest :=
  (List.range ((b.framebufferInfo.physEnd - (b.framebufferInfo.framebufferAddr &&& pageMask)) /
    pageSize)).map fun j => ⟨wrap64 (kernelFramebufferVirtualBase + (0 + j) * pageSize),
      (b.framebufferInfo.framebufferAddr &&& pageMask) + j * pageSize, imageFlags⟩

end BootMap

theorem and_pageMask_le (a : Nat) : a &&& pageMask ≤ a := Nat.and_le_left

theorem mapAll_singleton (pml4 : Nat) (s : Phys) (q : MapRequest) :
    mapAll pml4 s [q] = mapPage s pml4 q.virtualAddr q.physicalAddr q.flags false := by
  exact bind_pure _

theorem identityMapPage_eq (pml4 flags a : Nat) (s : Phys) :
    identityMapPage pml4 flags a s = mapAll pml4 s (identityRequest flags a) := by
  rw [identityRequest, mapAll_singleton, identityMapPage]

theorem mapBothHalves_eq (pml4 flags a : Nat) (s : Phys) :
    mapBothHalves pml4 flags a s = mapAll pml4 s (bothHalves flags a) := by
  simp only [bothHalves, mapAll_cons pml4 s, mapAll_singleton, mapBothHalves]

theorem directMapPage_eq (pml4 flags a : Nat) (s : Phys) : directMapPage pml4 flags a s =
    mapAll pml4 s [⟨wrap64 (kernelPhysicalMapBase + a), a, flags⟩] := by
  rw [mapAll_singleton, directMapPage]

/-! ## Building the tables -/

namespace BootMap

/-- The tables below `root` hold what the requests `qs` say and nothing else, in frames
that `init` had put on the free list. -/
structure Built (b : BootMap) (root : Nat) (qs : List MapRequest) (s : Phys) (stack : List Nat) :
    Prop where
  paging : Paging s root stack
  config : b.blank.SameConfig s.pmm
  buffer : Mem.AgreeOn b.mem s.mem b.memoryMap.memoryMapAddr b.memoryMap.memoryMapSize
  owned : ∀ a, Touches s root stack a ↔ a ∈ b.seeded
  suffix : stack <:+ b.seeded.reverse
  leaf : ∀ p : TablePath, p.length = 4 → entryAt s.mem root p = lastLeaf qs p
  inner : ∀ (p : TablePath) (e : Nat), p.length ≤ 3 → entryAt s.mem root p = some e →
    ∃ f, IsFrame f ∧ e = f ||| intermediateFlags false

variable {b : BootMap} {root pml4 : Nat} {qs qs' : List MapRequest} {s s' : Phys} {stack : List Nat}

theorem seeded_clear {a : Nat} (h : a ∈ b.seeded) :
    a + pageSize ≤ b.memoryMap.memoryMapAddr ∨
      b.memoryMap.memoryMapAddr + b.memoryMap.memoryMapSize ≤ a := by
  have hmap := (b.clear_of_reclaimWithheld (b.clear_of_mem (List.mem_append_left _ h)).2).2.1
  simp only [mapRegion, Extent.stop] at hmap
  omega

theorem Built.requested {stack' : List Nat} (h : b.Built root qs s stack)
    (hreq : Requested root qs' s stack s' stack') : b.Built root (qs ++ qs') s' stack' where
  paging := hreq.paging
  config := h.config.trans hreq.config
  buffer := h.buffer.trans (hreq.writes.agreeOn fun a ha => seeded_clear ((h.owned a).mp ha))
  owned a := (hreq.touches_iff a).trans (h.owned a)
  suffix := hreq.suffix.trans h.suffix
  leaf p hp := by rw [hreq.leaf p hp, h.leaf p hp, lastLeaf_append]
  inner p e hp he := by
    rcases hreq.inner p e hp he with hold | ⟨f, hf, rfl⟩
    · exact h.inner p e hp hold
    · exact ⟨f, h.paging.free.frames f hf, rfl⟩

theorem Built.mapAll (h : b.Built root qs s stack) (hptr : ∃ hh, pml4 = virtOf hh root)
    (hqs : ∀ q ∈ qs', q.InRange) (hok : CrapOs.mapAll pml4 s qs' = .ok s') :
    ∃ stack', b.Built root (qs ++ qs') s' stack' := by
  obtain ⟨hh, rfl⟩ := hptr
  obtain ⟨stack', hreq⟩ := mapAll_requested h.paging hqs hok
  exact ⟨stack', h.requested hreq⟩

theorem Built.segments_eq (h : b.Built root qs s stack) (hptr : ∃ hh, pml4 = virtOf hh root)
    {body : EfiMemoryDescriptor → Phys → Except Halt Phys} {g : EfiMemoryDescriptor → List MapRequest}
    (hbody : ∀ d ∈ b.descriptors, ∀ s, body d s = CrapOs.mapAll pml4 s (g d))
    (hrange : ∀ d ∈ b.descriptors, ∀ q ∈ g d, q.InRange) :
    forSegments body b.memoryMap.descriptorSize b.numSegments b.memoryMap.memoryMapAddr s =
      CrapOs.mapAll pml4 s (b.descriptors.flatMap g) := by
  obtain ⟨hh, rfl⟩ := hptr
  have hbuf := b.buffer_in_window
  have hseg := b.segments_le
  have hbase := kernelPhysicalMapBase_eq
  rw [directMapWindow_eq] at hbuf
  have hdescs : descriptorsFrom s.mem b.memoryMap.descriptorSize b.numSegments
      b.memoryMap.memoryMapAddr = b.descriptors :=
    descriptorsFrom_congr b.descriptorSize_ge (h.buffer.mono (Nat.le_refl _) (by omega))
  refine forSegments_eq b.descriptorSize_ge b.numSegments h.paging hdescs ?_ (fun t ht => ?_) hbody
    hrange
  · intro k hk
    exact ⟨by omega, physOf_of_lt (by omega)⟩
  · have hout := seeded_clear ((h.owned t).mp ht)
    omega

theorem le_pageFuel (start stop : Nat) : stop ≤ start + pageFuel stop * pageSize := by
  simp only [pageFuel, pageSize]
  omega

theorem Built.whilePages {start stop : Nat} {body : Nat → Phys → Except Halt Phys}
    {g : Nat → List MapRequest} (h : b.Built root qs s stack) (hptr : ∃ hh, pml4 = virtOf hh root)
    (hbody : ∀ a s, body a s = CrapOs.mapAll pml4 s (g a)) (hstart : start < 2 ^ 64)
    (hrange : ∀ a ∈ pagesFrom start stop, ∀ q ∈ g a, q.InRange)
    (hok : CrapOs.whilePages body stop (pageFuel stop) start s = .ok s') :
    ∃ stack', b.Built root (qs ++ (pagesFrom start stop).flatMap g) s' stack' := by
  have hstays : StaysBelow start stop := by
    by_contra hlast
    exact whilePages_ne_ok hstart hlast hok
  rw [whilePages_eq hbody hstays (le_pageFuel start stop)] at hok
  refine h.mapAll hptr (fun q hq => ?_) hok
  obtain ⟨a, ha, hq⟩ := List.mem_flatMap.mp hq
  exact hrange a ha q hq

theorem stop_le {d : EfiMemoryDescriptor} (hd : d ∈ b.descriptors) : d.stop ≤ 2 ^ 47 :=
  directMapWindow_eq ▸ b.in_window d hd

theorem identitySegment_eq {d : EfiMemoryDescriptor} (hd : d ∈ b.descriptors) (s : Phys) :
    (if d.shouldIdentityMap then mapDescriptor pml4 id imageFlags d s else .ok s) =
      CrapOs.mapAll pml4 s d.identityRequests := by
  have hstop := stop_le hd
  rw [EfiMemoryDescriptor.identityRequests]
  split
  · exact mapDescriptor_eq (by omega)
  · rfl

theorem directSegment_eq {d : EfiMemoryDescriptor} (hd : d ∈ b.descriptors) (s : Phys) :
    (if d.shouldDirectMap then
        mapDescriptor pml4 (fun phys => wrap64 (kernelPhysicalMapBase + phys)) d.directMapFlags d s
      else .ok s) = CrapOs.mapAll pml4 s d.directRequests := by
  have hstop := stop_le hd
  rw [EfiMemoryDescriptor.directRequests]
  split
  · exact mapDescriptor_eq (by omega)
  · rfl

theorem imageFlags_lt : imageFlags < 2 ^ 64 := by decide

theorem dataFlags_lt : dataFlags < 2 ^ 64 := by decide

theorem page_lt {d : EfiMemoryDescriptor} (hd : d ∈ b.descriptors) {a : Nat} (ha : a ∈ d.pages) :
    a < 2 ^ 47 := by
  have hpage := (mem_pages ha).2.1
  have hstop := stop_le hd
  simp only [pageSize] at hpage
  omega

theorem identityRequests_inRange {d : EfiMemoryDescriptor} (hd : d ∈ b.descriptors) :
    ∀ q ∈ d.identityRequests, q.InRange := by
  intro q hq
  rw [EfiMemoryDescriptor.identityRequests] at hq
  split at hq
  · obtain ⟨a, ha, rfl⟩ := List.mem_map.mp hq
    have hlt := page_lt hd ha
    exact ⟨by simp only; omega, imageFlags_lt⟩
  · cases hq

theorem directRequests_inRange {d : EfiMemoryDescriptor} (hd : d ∈ b.descriptors) :
    ∀ q ∈ d.directRequests, q.InRange := by
  intro q hq
  rw [EfiMemoryDescriptor.directRequests] at hq
  split at hq
  · obtain ⟨a, ha, rfl⟩ := List.mem_map.mp hq
    have hlt := page_lt hd ha
    refine ⟨by simp only; omega, ?_⟩
    unfold EfiMemoryDescriptor.directMapFlags
    split
    · exact imageFlags_lt
    · exact dataFlags_lt
  · cases hq

theorem bothHalves_inRange {flags start stop : Nat} (hflags : flags < 2 ^ 64) (hstop : stop < 2 ^ 64) :
    ∀ a ∈ pagesFrom start stop, ∀ q ∈ bothHalves flags a, q.InRange := by
  intro a ha q hq
  have hlt := (mem_pagesFrom ha).2.1
  have hpa : q.physicalAddr = a ∧ q.flags = flags := by
    simp only [bothHalves, List.mem_cons, List.not_mem_nil, or_false] at hq
    rcases hq with rfl | rfl <;> exact ⟨rfl, rfl⟩
  exact ⟨by omega, by omega⟩

theorem identityRequest_inRange {flags start stop : Nat} (hflags : flags < 2 ^ 64)
    (hstop : stop < 2 ^ 64) :
    ∀ a ∈ pagesFrom start stop, ∀ q ∈ identityRequest flags a, q.InRange := by
  intro a ha q hq
  have hlt := (mem_pagesFrom ha).2.1
  obtain rfl : q = ⟨a, a, flags⟩ := by simpa [identityRequest] using hq
  exact ⟨by simp only; omega, hflags⟩

theorem Built.start {rest : List Nat} (hinit : b.init = .ok s)
    (hseed : b.seeded.reverse = root :: rest) :
    ∃ s1 s2, allocPage s = (some root, s1) ∧ zeroOutPage s1 root = s2 ∧ b.Built root [] s2 rest := by
  have hbetween := b.between_init hinit
  have hstack := hbetween.stack
  rw [hseed] at hstack
  obtain ⟨htop, hfree⟩ := allocPage_spec hstack
  have hroot := hstack.frames root List.mem_cons_self
  have hoff := (List.nodup_cons.mp hstack.nodup).1
  have hconfig := hbetween.config.trans (allocPage_sameConfig s)
  have hmem := allocPage_mem s
  obtain ⟨s1, halloc⟩ : ∃ s1, allocPage s = (some root, s1) := ⟨_, Prod.ext htop rfl⟩
  rw [halloc] at hfree hconfig hmem
  have hptr : virtOf false root = root := rfl
  have hpmm := zeroOutPage_pmm (s := s1) hroot false
  have hchange := zeroOutPage_changesOnly (B := fun a => a = root) s1 hroot rfl false
  have hzero := zeroOutPage_mem (s := s1) hroot false
  obtain ⟨s2, hs2⟩ : ∃ s2, zeroOutPage s1 root = s2 := ⟨_, rfl⟩
  simp only [hptr, hs2] at hpmm hchange hzero
  refine ⟨s1, s2, halloc, hs2, ?_⟩
  have hentry : ∀ i, tableEntry s2.mem root i = 0 := by
    intro i
    apply Mem.read64_of_zero
    intro x hl hu
    rw [hzero, if_pos (by simp only [pageSize]; omega)]
  have hempty : ∀ i, tableEntry s2.mem root i &&& Flag.present = 0 := fun i => by
    rw [hentry i]
    rfl
  have hnone := entryAt_of_empty hempty
  have hseeded : ∀ a, a ∈ b.seeded ↔ a = root ∨ a ∈ rest := by
    intro a
    rw [← List.mem_reverse, hseed, List.mem_cons]
  refine ⟨⟨?_, pageTree_of_empty hroot hoff hempty⟩, ?_, ?_, ?_, ?_, fun p _ => hnone p, ?_⟩
  · refine hfree.congr (congrArg _ hpmm) (congrArg _ hpmm) fun a ha => ?_
    have hagree := agreeOn_of_changesOnly hchange (hfree.frames a ha) (by
      rintro c rfl
      exact ⟨hroot, fun heq => hoff (heq ▸ ha)⟩)
    exact hagree.mono (Nat.le_refl a) (by simp [pageSize])
  · rw [hpmm]
    exact hconfig
  · refine (hmem ▸ hbetween.buffer).trans (hchange.agreeOn ?_)
    rintro a rfl
    exact seeded_clear ((hseeded a).mpr (.inl rfl))
  · intro a
    rw [hseeded]
    refine or_congr_right ⟨?_, .inl⟩
    rintro (hin | ⟨p, hnil, -, ht⟩)
    · exact hin
    · exact absurd (tableAt_of_empty hempty ht).1 hnil
  · rw [hseed]
    exact List.suffix_cons root rest
  · intro p e _ he
    rw [hnone p] at he
    cases he

/-- `initPageTables` leaves what its requests say. -/
theorem initPageTables_built {s0 : Phys} (hinit : b.init = .ok s0)
    (hkernel : b.kernelEnd < 2 ^ 64)
    (hok : initPageTables s0 b.framebufferInfo b.memoryMap = .ok (pml4, s)) :
    ∃ stack, b.Built pml4 b.tableRequests s stack := by
  cases hseed : b.seeded.reverse with
  | nil =>
    have hstack := (b.between_init hinit).stack
    rw [hseed] at hstack
    simp only [initPageTables, allocPage_empty hstack] at hok
    cases hok
  | cons root rest =>
    obtain ⟨s1, s2, halloc, hzero, h2⟩ := Built.start hinit hseed
    simp only [initPageTables, halloc, hzero] at hok
    obtain ⟨n, hn, hok⟩ := bind_eq_ok.mp hok
    rw [b.numSegments_ok] at hn
    cases hn
    obtain ⟨s3, hsegs, hok⟩ := bind_eq_ok.mp hok
    obtain ⟨s4, himage, hok⟩ := bind_eq_ok.mp hok
    obtain ⟨s5, hstk, hok⟩ := bind_eq_ok.mp hok
    obtain ⟨s6, hfb, hok⟩ := bind_eq_ok.mp hok
    obtain ⟨s7, hmap, hok⟩ := bind_eq_ok.mp hok
    cases hok
    have hbuf := b.buffer_in_window
    have hkr := b.kernel_range
    have hsr := b.stack_range
    have hfr := b.framebuffer_range
    rw [directMapWindow_eq] at hbuf
    have hptr : ∃ hh, pml4 = virtOf hh pml4 := ⟨false, rfl⟩
    rw [h2.segments_eq hptr (fun d hd s => identitySegment_eq hd s)
      (fun d hd => identityRequests_inRange hd)] at hsegs
    obtain ⟨stack3, h3⟩ := h2.mapAll hptr (fun q hq => by
      obtain ⟨d, hd, hq⟩ := List.mem_flatMap.mp hq
      exact identityRequests_inRange hd q hq) hsegs
    rw [h3.config.kernelEnd, h3.config.kernelStart] at himage
    obtain ⟨stack4, h4⟩ := h3.whilePages hptr (mapBothHalves_eq _ _)
      (show b.kernelStart < 2 ^ 64 by omega) (bothHalves_inRange imageFlags_lt hkernel) himage
    rw [wrap64_of_lt hsr] at hstk
    have hlt : ∀ x y, x + y < 2 ^ 64 → x &&& pageMask < 2 ^ 64 := by
      intro x y hxy
      have hle := and_pageMask_le x
      omega
    obtain ⟨stack5, h5⟩ := h4.whilePages hptr (mapBothHalves_eq _ _) (hlt _ _ hsr)
      (bothHalves_inRange dataFlags_lt hsr) hstk
    rw [wrap64_of_lt hfr] at hfb
    obtain ⟨stack6, h6⟩ := h5.whilePages hptr (identityMapPage_eq _ _) (hlt _ _ hfr)
      (identityRequest_inRange imageFlags_lt hfr) hfb
    have hmr : b.memoryMap.memoryMapAddr + b.memoryMap.memoryMapSize < 2 ^ 64 := by omega
    rw [wrap64_of_lt hmr] at hmap
    obtain ⟨stack7, h7⟩ := h6.whilePages hptr (identityMapPage_eq _ _) (hlt _ _ hmr)
      (identityRequest_inRange imageFlags_lt hmr) hmap
    exact ⟨stack7, h7⟩

theorem pagesFrom_single {start : Nat} : pagesFrom start (start + 0x1000) = [start] := by
  rw [pagesFrom_of_lt (by omega), pagesFrom_of_le (by simp [pageSize])]

theorem mapDevices_eq (pml4 : Nat) (s : Phys) :
    (apicRegions.foldlM (fun s region =>
      CrapOs.whilePages (directMapPage pml4 deviceFlags) (region.1 + region.2)
        (pageFuel (region.1 + region.2)) region.1 s) s >>= directMapPage pml4 deviceFlags hpetMmioAddr) =
      CrapOs.mapAll pml4 s deviceRequests := by
  have hregion : ∀ a s, a < 2 ^ 63 → CrapOs.whilePages (directMapPage pml4 deviceFlags) (a + 0x1000)
      (pageFuel (a + 0x1000)) a s =
        CrapOs.mapAll pml4 s [⟨wrap64 (kernelPhysicalMapBase + a), a, deviceFlags⟩] := by
    intro a s ha
    have hstays : StaysBelow a (a + 0x1000) := by
      simp only [StaysBelow, pageSize]
      omega
    rw [whilePages_eq (directMapPage_eq pml4 deviceFlags) hstays (le_pageFuel _ _), pagesFrom_single,
      List.flatMap_singleton]
  have hlist : deviceRequests = [⟨wrap64 (kernelPhysicalMapBase + 0xFEE00000), 0xFEE00000, deviceFlags⟩] ++
      ([⟨wrap64 (kernelPhysicalMapBase + 0xFEC00000), 0xFEC00000, deviceFlags⟩] ++
        [⟨wrap64 (kernelPhysicalMapBase + hpetMmioAddr), hpetMmioAddr, deviceFlags⟩]) := rfl
  rw [hlist, mapAll_append, apicRegions, List.foldlM_cons, bind_assoc, hregion _ _ (by decide)]
  refine bind_congr fun s => ?_
  rw [mapAll_append, List.foldlM_cons, bind_assoc, hregion _ _ (by decide)]
  refine bind_congr fun s => ?_
  rw [List.foldlM_nil, pure_bind, directMapPage_eq]

theorem deviceRequests_inRange : ∀ q ∈ deviceRequests, q.InRange := by
  intro q hq
  obtain ⟨a, ha, rfl⟩ := List.mem_map.mp hq
  exact ⟨(by decide : ∀ a ∈ devicePages, a < 2 ^ 64) a ha, (by decide : deviceFlags < 2 ^ 64)⟩

theorem Built.buildDirectMap_eq (h : b.Built root qs s stack) (hptr : ∃ hh, pml4 = virtOf hh root) :
    buildDirectMap s pml4 b.memoryMap = CrapOs.mapAll pml4 s b.windowRequests := by
  rw [windowRequests, mapAll_append, ← h.segments_eq hptr (fun d hd s => directSegment_eq hd s)
    (fun d hd => directRequests_inRange hd), ← funext (mapDevices_eq pml4), buildDirectMap,
    b.numSegments_ok]
  rfl

theorem windowRequests_inRange : ∀ q ∈ b.windowRequests, q.InRange := by
  intro q hq
  rcases List.mem_append.mp hq with hq | hq
  · obtain ⟨d, hd, hq⟩ := List.mem_flatMap.mp hq
    exact directRequests_inRange hd q hq
  · exact deviceRequests_inRange q hq

theorem buildDirectMap_built (h : b.Built root qs s stack) (hptr : ∃ hh, pml4 = virtOf hh root)
    (hok : buildDirectMap s pml4 b.memoryMap = .ok s') :
    ∃ stack', b.Built root (qs ++ b.windowRequests) s' stack' := by
  rw [h.buildDirectMap_eq hptr] at hok
  exact h.mapAll hptr windowRequests_inRange hok

theorem FramebufferInfo.physEnd_aligned (framebufferInfo : FramebufferInfo) :
    framebufferInfo.physEnd % pageSize = 0 ∧ framebufferInfo.physEnd < 2 ^ 64 := by
  have hlt : wrap64 (wrap64 (framebufferInfo.framebufferAddr + framebufferInfo.size) + 0xFFF) <
      2 ^ 64 := Nat.mod_lt _ (by decide)
  rw [FramebufferInfo.physEnd, and_pageMask hlt]
  simp only [pageSize]
  omega

theorem mapFramebufferHigherHalf_eq (b : BootMap) (s : Phys) :
    mapFramebufferHigherHalf s pml4 b.framebufferInfo =
      CrapOs.mapAll pml4 s b.framebufferRequests := by
  have hfr := b.framebuffer_range
  obtain ⟨hend, hlt⟩ := FramebufferInfo.physEnd_aligned b.framebufferInfo
  have hstart : (b.framebufferInfo.framebufferAddr &&& pageMask) % pageSize = 0 := by
    rw [and_pageMask (by omega)]
    exact Nat.mul_mod_right _ _
  have heq := mapFramebufferPages_eq pml4 _ 0 s hstart hend hlt (le_pageFuel _ _)
  exact heq

theorem mapFramebufferHigherHalf_built (h : b.Built root qs s stack)
    (hptr : ∃ hh, pml4 = virtOf hh root)
    (hok : mapFramebufferHigherHalf s pml4 b.framebufferInfo = .ok s') :
    ∃ stack', b.Built root (qs ++ b.framebufferRequests) s' stack' := by
  have hend := (FramebufferInfo.physEnd_aligned b.framebufferInfo).2
  rw [mapFramebufferHigherHalf_eq] at hok
  refine h.mapAll hptr (fun q hq => ?_) hok
  obtain ⟨j, hj, rfl⟩ := List.mem_map.mp hq
  have hj' := List.mem_range.mp hj
  refine ⟨?_, imageFlags_lt⟩
  simp only [pageSize] at hj' ⊢
  omega

end BootMap

end CrapOs
