import CrapOs.Loader.Build
import CrapOs.MemoryManager.AfterBoot

/-! # The boot stack

The loader enters the kernel on a stack that lies wherever the firmware put it,
at its physical address plus `kernelVirtualBase`. The loader's tables and the
kernel's both map it there, next to the identity maps. The sum stays in the
upper half for stacks below 2 GiB and wraps around to the lower one otherwise.
-/

namespace CrapOs

open Foundation

/-- The hardware reads `v` as `a`, through a page of 4 KiB. -/
def MapsTo (m : Mem) (root v a : Nat) : Prop :=
  ∃ w, walk m root v = some w ∧ w.pdpte &&& Flag.huge = 0 ∧ w.pde &&& Flag.huge = 0 ∧
    frameOf w.pte + v % pageSize = a

/-- The two places where the boot shows an address. -/
def Shows (v a : Nat) : Prop := v = a ∧ a < 2 ^ 47 ∨ v = kernelVirtualBase + a ∧ a < 2 ^ 31

theorem kernelVirtualBase_eq : kernelVirtualBase = 2 ^ 64 - 2 ^ 31 := by decide

variable {a base : Nat} {m : Mem} {root v : Nat}

theorem Shows.canonical (h : Shows v a) : IsCanonical v := by
  have hbase := kernelVirtualBase_eq
  rcases h with ⟨rfl, ha⟩ | ⟨rfl, ha⟩
  · exact .inl (by omega)
  · exact .inr ⟨by omega, by omega⟩

theorem Shows.page_eq {v' a' : Nat} (h : Shows v a) (h' : Shows v' a')
    (hpath : pagePath v = pagePath v') : a / pageSize = a' / pageSize := by
  have hbase := kernelVirtualBase_eq
  have hpage := page_eq_of_pagePath h.canonical h'.canonical hpath
  simp only [pageSize] at hpage ⊢
  rcases h with ⟨rfl, ha⟩ | ⟨rfl, ha⟩ <;> rcases h' with ⟨rfl, ha'⟩ | ⟨rfl, ha'⟩ <;> omega

theorem pagePath_of_page {w : Nat} (h : v / pageSize = w / pageSize) : pagePath v = pagePath w := by
  simp only [pageSize] at h
  simp only [pagePath, tablePath, List.cons_append, List.nil_append, List.cons.injEq, tableSlot,
    Fin.mk.injEq, tableIndex_eq, and_true]
  omega

theorem IsFrame.huge_clear {f : Nat} (hf : IsFrame f) :
    (f ||| intermediateFlags false) &&& Flag.huge = 0 := by
  have hbit : f &&& Flag.huge = (f.testBit 7).toNat * 2 ^ 7 := Nat.and_two_pow f 7
  have hal := hf.aligned
  have htest : f.testBit 7 = false := by
    rw [Nat.testBit_eq_decide_div_mod_eq, decide_eq_false_iff_not]
    simp only [pageSize] at hal
    omega
  rw [Nat.and_or_distrib_right, hbit, htest]
  rfl

theorem leafEntry_page (ha : a < 2 ^ 64) (flags : Nat) :
    leafEntry a flags = leafEntry (a / pageSize * pageSize) flags := by
  have hdown : a / pageSize * pageSize < 2 ^ 64 := by
    simp only [pageSize]
    omega
  rw [leafEntry, leafEntry, and_pageMask ha, and_pageMask hdown]
  simp only [pageSize]
  congr 2
  omega

structure MapRequest.Straight (q : MapRequest) : Prop where
  flags : IsKernelFlags q.flags
  placed : Shows q.virtualAddr q.physicalAddr

theorem MapRequest.Usual.straight {q : MapRequest} {top : Nat} (h : q.Usual top)
    (htop : top ≤ 2 ^ 31) : q.Straight := by
  have hbase := kernelVirtualBase_eq
  obtain ⟨hlow, hflags, hplace⟩ := h
  constructor
  · unfold IsKernelFlags
    rcases hflags with h | h | h <;> rw [h] <;> decide
  · rcases hplace with heq | ⟨heq, hlt⟩
    · exact .inl ⟨heq, hlow⟩
    · refine .inr ⟨?_, by omega⟩
      rw [heq, wrap64_of_lt (by omega), Nat.add_comm]

theorem mapsTo_of_straight {qs : List MapRequest}
    (hleaf : entryAt m root (pagePath v) = lastLeaf qs (pagePath v))
    (hinner : ∀ p e, (tableSlot 39 v :: p).length ≤ 3 → entryAt m root (tableSlot 39 v :: p) = some e →
      ∃ f, IsFrame f ∧ e = f ||| intermediateFlags false) (hqs : ∀ q ∈ qs, q.Straight)
    (hv : Shows v a) {q : MapRequest} (hq : q ∈ qs) (hpath : q.path = pagePath v) :
    MapsTo m root v a := by
  cases hlast : lastLeaf qs (pagePath v) with
  | none => exact absurd hpath (lastLeaf_eq_none.mp hlast q hq)
  | some e =>
    obtain ⟨r, hr, hrpath, rfl⟩ := lastLeaf_mem hlast
    obtain ⟨hflags, hshows⟩ := hqs r hr
    have hpage := hshows.page_eq hv hrpath
    have hlow : r.physicalAddr < 2 ^ 47 := by
      rcases hshows with ⟨-, h⟩ | ⟨-, h⟩ <;> omega
    obtain ⟨w, hw, hpte, -, h2, h3⟩ := walk_of_entries (hleaf.trans hlast)
    have hhuge : ∀ p e, (tableSlot 39 v :: p).length ≤ 3 →
        entryAt m root (tableSlot 39 v :: p) = some e → e &&& Flag.huge = 0 := by
      intro p e hp he
      obtain ⟨f, hf, rfl⟩ := hinner p e hp he
      exact hf.huge_clear
    refine ⟨w, hw, hhuge _ _ (by simp) h2, hhuge _ _ (by simp) h3, ?_⟩
    have hframe : frameOf w.pte = a / pageSize * pageSize := by
      rw [hpte, MapRequest.leaf, leafEntry_page (by omega), hpage]
      refine (frameOf_leafEntry (Nat.mul_mod_left _ _) ?_ hflags).1
      rw [← hpage]
      simp only [pageSize]
      omega
    have hoffset : v % pageSize = a % pageSize := by
      have hbase := kernelVirtualBase_eq
      simp only [pageSize]
      rcases hv with ⟨rfl, -⟩ | ⟨rfl, -⟩
      · rfl
      · omega
    rw [hframe, hoffset]
    simp only [pageSize]
    omega

def IdentityKept (qs : List MapRequest) (m : Mem) (root : Nat) : Prop :=
  ∀ q ∈ qs, q.virtualAddr = q.physicalAddr →
    ∀ v, v / pageSize = q.virtualAddr / pageSize → MapsTo m root v v

theorem identityKept_of_straight {qs : List MapRequest}
    (hleaf : ∀ v, v < 2 ^ 47 → entryAt m root (pagePath v) = lastLeaf qs (pagePath v))
    (hinner : ∀ v, v < 2 ^ 47 → ∀ p e, (tableSlot 39 v :: p).length ≤ 3 →
      entryAt m root (tableSlot 39 v :: p) = some e → ∃ f, IsFrame f ∧ e = f ||| intermediateFlags false)
    (hqs : ∀ q ∈ qs, q.Straight) : IdentityKept qs m root := by
  intro q hq hid v hpage
  have hbase := kernelVirtualBase_eq
  have hlow : v < 2 ^ 47 := by
    simp only [pageSize] at hpage
    rcases (hqs q hq).placed with ⟨heq, hlt⟩ | ⟨heq, hlt⟩ <;> omega
  exact mapsTo_of_straight (hleaf v hlow) (hinner v hlow) hqs (.inl ⟨rfl, hlow⟩) hq
    (pagePath_of_page hpage.symm)

/-! ## The stack -/

def stackAddr (base k : Nat) : Nat := wrap64 (base + k + kernelVirtualBase)

def StackMapped (m : Mem) (root base : Nat) : Prop :=
  ∀ k < Loader.kernelStackSize, MapsTo m root (stackAddr base k) (base + k)

theorem stackAddr_eq {k : Nat} (h : base + k < 2 ^ 31) :
    stackAddr base k = kernelVirtualBase + (base + k) := by
  have hbase := kernelVirtualBase_eq
  rw [stackAddr, wrap64_of_lt (by omega), Nat.add_comm]

theorem stack_request {k : Nat} (hal : base % pageSize = 0) (hk : k < Loader.kernelStackSize)
    (hlow : base + Loader.kernelStackSize ≤ 2 ^ 31) :
    ∃ q ∈ (pagesFrom (base &&& pageMask) (base + Loader.kernelStackSize)).flatMap (bothHalves dataFlags),
      q.path = pagePath (stackAddr base k) := by
  have hbase := kernelVirtualBase_eq
  have hmask : base &&& pageMask = base := by
    rw [and_pageMask (by omega)]
    exact Nat.mul_div_cancel' (Nat.dvd_of_mod_eq_zero hal)
  have hpage : base + k / pageSize * pageSize ≤ base + k := by
    simp only [pageSize]
    omega
  have hmem : base + k / pageSize * pageSize ∈ pagesFrom base (base + Loader.kernelStackSize) :=
    pagesFrom_mem (by omega)
  rw [hmask]
  refine ⟨⟨wrap64 (base + k / pageSize * pageSize + kernelVirtualBase), base + k / pageSize * pageSize,
    dataFlags⟩, List.mem_flatMap.mpr ⟨_, hmem, by simp [bothHalves]⟩, ?_⟩
  apply pagePath_of_page
  rw [stackAddr_eq (by omega), wrap64_of_lt (by omega)]
  simp only [pageSize] at hal ⊢
  omega

theorem stackMapped_of_straight {qs : List MapRequest}
    (hleaf : ∀ a, a < 2 ^ 31 → entryAt m root (pagePath (kernelVirtualBase + a)) =
      lastLeaf qs (pagePath (kernelVirtualBase + a)))
    (hinner : ∀ a, a < 2 ^ 31 → ∀ p e, (tableSlot 39 (kernelVirtualBase + a) :: p).length ≤ 3 →
      entryAt m root (tableSlot 39 (kernelVirtualBase + a) :: p) = some e →
        ∃ f, IsFrame f ∧ e = f ||| intermediateFlags false) (hqs : ∀ q ∈ qs, q.Straight)
    (hal : base % pageSize = 0) (hlow : base + Loader.kernelStackSize ≤ 2 ^ 31)
    (hstack : ∀ q ∈ (pagesFrom (base &&& pageMask) (base + Loader.kernelStackSize)).flatMap
      (bothHalves dataFlags), q ∈ qs) : StackMapped m root base := by
  intro k hk
  obtain ⟨q, hq, hpath⟩ := stack_request hal hk hlow
  have haddr : stackAddr base k = kernelVirtualBase + (base + k) := stackAddr_eq (by omega)
  rw [haddr] at hpath ⊢
  exact mapsTo_of_straight (hleaf _ (by omega)) (hinner _ (by omega)) hqs (.inr ⟨rfl, by omega⟩)
    (hstack q hq) hpath

/-- What the loader and the kernel have in common, and where the rest of the machine lies:
the image in the first 2 GiB, the framebuffer in the lower half with its window below the
kernel's, and memory not so large that the direct map reaches the kernel's half. -/
structure Handoff (l : LoadPlan) (b : BootMap) : Prop where
  stackBase : b.memoryMap.stackBaseAddr = l.kernelStackBase
  stackSize : b.memoryMap.stackSize = Loader.kernelStackSize
  image_low : b.kernelEnd ≤ 2 ^ 31
  memory_low : ∀ d ∈ b.descriptors, d.stop ≤ 2 ^ 47 - 2 ^ 31
  framebuffer_low : b.framebufferInfo.framebufferAddr + b.framebufferInfo.size ≤ 2 ^ 47
  framebuffer_fits : kernelFramebufferVirtualBase +
    (b.framebufferInfo.physEnd - (b.framebufferInfo.framebufferAddr &&& pageMask)) ≤ kernelVirtualBase

namespace BootMap

variable {b : BootMap} {l : LoadPlan}

theorem tableRequests_usual {top : Nat} (htop : top ≤ 2 ^ 47) (himage : b.kernelEnd ≤ top)
    (hstack : b.memoryMap.stackBaseAddr + b.memoryMap.stackSize ≤ top)
    (hfb : b.framebufferInfo.framebufferAddr + b.framebufferInfo.size ≤ 2 ^ 47) :
    ∀ q ∈ b.tableRequests, q.Usual top := by
  have hbuf := b.buffer_in_window
  intro q hq
  simp only [tableRequests, List.mem_append] at hq
  rcases hq with (((hq | hq) | hq) | hq) | hq
  · obtain ⟨d, hd, hq⟩ := List.mem_flatMap.mp hq
    exact usual_identityRequests top (stop_le hd) q hq
  · exact usual_bothHalves (.inl rfl) (by omega) himage q hq
  · exact usual_bothHalves (.inr (.inl rfl)) (by omega) hstack q hq
  · exact usual_identityRequest top (.inl rfl) hfb q hq
  · exact usual_identityRequest top (.inl rfl) hbuf q hq

/-- The direct map and the framebuffer's window stay out of the kernel's half. -/
theorem lastLeaf_kernelHalf (h : Handoff l b) {a : Nat} (ha : a < 2 ^ 31) :
    lastLeaf b.requests (pagePath (kernelVirtualBase + a)) =
      lastLeaf b.tableRequests (pagePath (kernelVirtualBase + a)) := by
  have hbase := kernelVirtualBase_eq
  have hplace : IsCanonical (kernelVirtualBase + a) := .inr ⟨by omega, by omega⟩
  have hout : ∀ v, 2 ^ 64 - 2 ^ 47 ≤ v → v + pageSize ≤ kernelVirtualBase →
      pagePath v ≠ pagePath (kernelVirtualBase + a) := by
    intro v hl hu hpath
    simp only [pageSize] at hu
    have hpage := page_eq_of_pagePath (.inr ⟨hl, by omega⟩) hplace hpath
    simp only [pageSize] at hpage
    omega
  have hfb : lastLeaf b.framebufferRequests (pagePath (kernelVirtualBase + a)) = none := by
    rw [lastLeaf_eq_none]
    intro q hq
    obtain ⟨j, hj, rfl⟩ := List.mem_map.mp hq
    have hj' := List.mem_range.mp hj
    have hfits := h.framebuffer_fits
    have hfbase : kernelFramebufferVirtualBase = 2 ^ 64 - 2 ^ 47 + 2 ^ 44 := by decide
    simp only [pageSize] at hj'
    refine hout _ ?_ ?_ <;> simp only [pageSize] <;> rw [wrap64_of_lt (by omega)] <;> omega
  have hwindow : lastLeaf b.windowRequests (pagePath (kernelVirtualBase + a)) = none := by
    have hat : ∀ c, c + pageSize ≤ 2 ^ 47 - 2 ^ 31 →
        pagePath (wrap64 (kernelPhysicalMapBase + c)) ≠ pagePath (kernelVirtualBase + a) := by
      intro c hc
      rw [wrap64_window (by omega)]
      exact hout _ (by omega) (by omega)
    rw [lastLeaf_eq_none]
    intro q hq
    rcases List.mem_append.mp hq with hq | hq
    · obtain ⟨d, hd, hq⟩ := List.mem_flatMap.mp hq
      rw [EfiMemoryDescriptor.directRequests] at hq
      split at hq
      · obtain ⟨c, hc, rfl⟩ := List.mem_map.mp hq
        exact hat c (Nat.le_trans (mem_pages hc).2.1 (h.memory_low d hd))
      · cases hq
    · obtain ⟨c, hc, rfl⟩ := List.mem_map.mp hq
      exact hat c ((by decide : ∀ c ∈ devicePages, c + pageSize ≤ 2 ^ 47 - 2 ^ 31) c hc)
  rw [requests, lastLeaf_append, lastLeaf_append, hfb, hwindow]
  rfl

end BootMap

/-- The boot stack as the kernel is meant to see it: in the upper half, mapped to its frames by
the loader's tables and by the kernel's from `initPageTables` on, next to intact identity maps. -/
structure StackInPlace (l : LoadPlan) (b : BootMap) (pml4 : Nat) (m : Mem) (root : Nat) (s : Phys)
    (mm : MemoryManager) : Prop where
  upper : ∀ k < Loader.kernelStackSize, 0xFFFF800000000000 ≤ stackAddr l.kernelStackBase k
  loader : StackMapped m pml4 l.kernelStackBase
  kernel : StackMapped s.mem root l.kernelStackBase
  booted : StackMapped mm.phys.mem mm.root l.kernelStackBase
  loader_identity : IdentityKept l.requests m pml4
  kernel_identity : IdentityKept b.tableRequests s.mem root

variable {l : LoadPlan} {b : BootMap} {pml4 root : Nat} {m : Mem} {s₀ s : Phys} {mm : MemoryManager}

variable {base : Nat}

theorem low_of_upper (hlow : base + Loader.kernelStackSize ≤ 2 ^ 47)
    (hupper : ∀ k < Loader.kernelStackSize, 0xFFFF800000000000 ≤ stackAddr base k) :
    base + Loader.kernelStackSize ≤ 2 ^ 31 := by
  have hbase := kernelVirtualBase_eq
  have hsize : Loader.kernelStackSize = 0x20000 := rfl
  have hlast := hupper (Loader.kernelStackSize - 1) (by omega)
  rw [stackAddr, wrap64, hsize] at hlast
  omega

theorem Shows.slot_ne {v a : Nat} (h : Shows v a) : tableSlot 39 v ≠ LoadPlan.windowSlot := by
  have hbase := kernelVirtualBase_eq
  have hwindow : LoadPlan.windowSlot.val = 256 := by decide
  intro heq
  have hval := congrArg Fin.val heq
  simp only [tableSlot, tableIndex_eq] at hval
  rcases h with ⟨rfl, ha⟩ | ⟨rfl, ha⟩ <;> omega

theorem LoadPlan.requests_straight (hlow : l.kernelStackBase + Loader.kernelStackSize ≤ 2 ^ 31) :
    ∀ q ∈ l.requests, q.Straight :=
  fun q hq => (LoadPlan.requests_usual l.kernel_low hlow q hq).straight (Nat.le_refl _)

theorem LoadPlan.Loaded.stackInPlace (h : l.Loaded pml4 m)
    (hlow : l.kernelStackBase + Loader.kernelStackSize ≤ 2 ^ 31) :
    StackMapped m pml4 l.kernelStackBase ∧ IdentityKept l.requests m pml4 := by
  have hupper : ∀ a, a < 2 ^ 31 → tableSlot 39 (kernelVirtualBase + a) ≠ LoadPlan.windowSlot :=
    fun a ha => Shows.slot_ne (.inr ⟨rfl, ha⟩)
  have hlower : ∀ v, v < 2 ^ 47 → tableSlot 39 v ≠ LoadPlan.windowSlot :=
    fun v hv => Shows.slot_ne (.inl ⟨rfl, hv⟩)
  have hqs := LoadPlan.requests_straight hlow
  constructor
  · refine stackMapped_of_straight (fun a ha => h.leaf _ _ (hupper a ha) rfl)
      (fun a ha p e hp he => h.inner _ p e (hupper a ha) hp he) hqs l.stack_aligned hlow fun q hq => ?_
    simp only [LoadPlan.requests, LoadPlan.laterRequests, List.mem_append]
    exact .inr (.inl (.inl (.inl (.inr hq))))
  · exact identityKept_of_straight (fun v hv => h.leaf _ _ (hlower v hv) rfl)
      (fun v hv p e hp he => h.inner _ p e (hlower v hv) hp he) hqs

def bootWithStack (base : Nat) (h : base + 0x20000 < 2 ^ 64) : BootMap where
  mem := tinyMemory
  framebufferInfo := ⟨0x90000, 32, 32, 32⟩
  memoryMap := ⟨0x10000, 96, 48, base, 0x20000⟩
  kernelStart := 0x100000
  kernelEnd := 0x102000
  descriptorSize_ge := tinyBoot.descriptorSize_ge
  aligned := tinyBoot.aligned
  in_window := tinyBoot.in_window
  disjoint := tinyBoot.disjoint
  buffer_in_window := tinyBoot.buffer_in_window
  kernel_range := by decide
  stack_range := h
  framebuffer_range := tinyBoot.framebuffer_range

def loadWithStack (base : Nat) (hal : base % pageSize = 0) (h : base + 0x20000 ≤ 2 ^ 47) :
    LoadPlan where
  memoryMap := 0x10000
  memoryMapSize := 96
  descriptorSize := 48
  kernelBuffer := 0x100000
  kernelSize := 0x2000
  kernelStackBase := base
  framebufferBase := 0x90000
  framebufferSize := 0x1000
  poolPages := 24
  rsdpAddr := 0xE0000
  mem := tinyMemory
  poolBase := 0x200000
  pool_aligned := by decide
  pool_low := by decide
  descriptorSize_ge := by decide
  buffer_low := by decide
  buffer_apart := by decide
  descriptors_low := by
    show ∀ d ∈ descriptorsFrom tinyMemory 48 2 0x10000, _
    rw [tinyMemory_descriptors]
    decide
  kernel_low := by decide
  stack_aligned := hal
  stack_low := h
  framebuffer_low := by decide
  rsdp_low := by decide

theorem bootWithStack_descriptors (h : base + 0x20000 < 2 ^ 64) :
    (bootWithStack base h).descriptors = tinyBoot.descriptors := rfl

theorem handoff_withStack (h : base + 0x20000 < 2 ^ 64) (hal : base % pageSize = 0)
    (hlow : base + 0x20000 ≤ 2 ^ 47) :
    Handoff (loadWithStack base hal hlow) (bootWithStack base h) where
  stackBase := rfl
  stackSize := rfl
  image_low := (by decide : (0x102000 : Nat) ≤ 2 ^ 31)
  memory_low := by
    rw [bootWithStack_descriptors, tinyBoot_descriptors]
    decide
  framebuffer_low := (by decide : tinyBoot.framebufferInfo.framebufferAddr + tinyBoot.framebufferInfo.size ≤ 2 ^ 47)
  framebuffer_fits := (by decide : kernelFramebufferVirtualBase + (tinyBoot.framebufferInfo.physEnd -
    (tinyBoot.framebufferInfo.framebufferAddr &&& pageMask)) ≤ kernelVirtualBase)

def lowBoot : BootMap := bootWithStack 0x60000 (by decide)
def lowLoad : LoadPlan := loadWithStack 0x60000 (by decide) (by decide)
def highBoot : BootMap := bootWithStack 0x80000000 (by decide)
def highLoad : LoadPlan := loadWithStack 0x80000000 (by decide) (by decide)

theorem LoadPlan.build_ok_of_regions (l : LoadPlan) (regions : List Nat) (hne : l.poolBase ≠ 0)
    (hin : ∀ q ∈ l.requests, q.virtualAddr / 2 ^ 21 ∈ regions)
    (henough : 3 * regions.length + 6 ≤ l.poolPages) :
    ∃ m, l.build = .ok (some (l.poolBase, m)) := by
  have hcard := card_bootTablePaths_le regions
  exact l.build_ok hne bootTablePaths_short
    (fun q hq => prefixSet_subset_bootTablePaths (hin q hq)) (by omega)

theorem loadWithStack_descriptors (hal : base % pageSize = 0) (h : base + 0x20000 ≤ 2 ^ 47) :
    (loadWithStack base hal h).descriptors = tinyBoot.descriptors := rfl

theorem lowLoad_ok : ∃ m, lowLoad.build = .ok (some (lowLoad.poolBase, m)) := by
  refine lowLoad.build_ok_of_regions [0, 1, kernelVirtualBase / 2 ^ 21] (by decide) ?_ (by decide)
  rw [LoadPlan.requests, lowLoad, loadWithStack_descriptors, tinyBoot_descriptors]
  decide +kernel

theorem highLoad_ok : ∃ m, highLoad.build = .ok (some (highLoad.poolBase, m)) := by
  refine highLoad.build_ok_of_regions [0, 1, 0x80000000 / 2 ^ 21, kernelVirtualBase / 2 ^ 21]
    (by decide) ?_ (by decide)
  rw [LoadPlan.requests, highLoad, loadWithStack_descriptors, tinyBoot_descriptors]
  decide +kernel

theorem lowBoot_ok : ∃ mm, lowBoot.boot = .ok mm := by
  refine BootMap.boot_ok (BootMap.bootable_of_regions
    ([0, kernelVirtualBase, kernelPhysicalMapBase, kernelPhysicalMapBase + 0xFEE00000,
      kernelPhysicalMapBase + 0xFEC00000, kernelFramebufferVirtualBase].map (· / 2 ^ 21))
    (by decide) (by decide) (by decide) (by decide) ?_ ?_)
  · rw [BootMap.requests, BootMap.tableRequests, BootMap.windowRequests, lowBoot,
      bootWithStack_descriptors, tinyBoot_descriptors]
    decide +kernel
  · rw [BootMap.seeded, lowBoot, bootWithStack_descriptors, tinyBoot_descriptors]
    decide +kernel

theorem highBoot_ok : ∃ mm, highBoot.boot = .ok mm := by
  refine BootMap.boot_ok (BootMap.bootable_of_regions
    ([0, 0x80000000, kernelVirtualBase, kernelPhysicalMapBase, kernelPhysicalMapBase + 0xFEE00000,
      kernelPhysicalMapBase + 0xFEC00000, kernelFramebufferVirtualBase].map (· / 2 ^ 21))
    (by decide) (by decide) (by decide) (by decide) ?_ ?_)
  · rw [BootMap.requests, BootMap.tableRequests, BootMap.windowRequests, highBoot,
      bootWithStack_descriptors, tinyBoot_descriptors]
    decide +kernel
  · rw [BootMap.seeded, highBoot, bootWithStack_descriptors, tinyBoot_descriptors]
    decide +kernel

/-- The boot stack is in place exactly if it ends at or below 2 GiB. -/
theorem boot_stack_in_place_iff (hb : Handoff l b) (hload : l.build = .ok (some (pml4, m)))
    (hinit : b.init = .ok s₀)
    (htables : initPageTables s₀ b.framebufferInfo b.memoryMap = .ok (root, s))
    (hboot : b.boot = .ok mm) :
    StackInPlace l b pml4 m root s mm ↔ l.kernelStackBase + Loader.kernelStackSize ≤ 2 ^ 31 := by
  have hbase := kernelVirtualBase_eq
  have himage := hb.image_low
  refine ⟨fun h => low_of_upper l.stack_low h.upper, fun hlow => ?_⟩
  obtain ⟨hloader, hidentity⟩ := (LoadPlan.build_loaded hload).stackInPlace hlow
  obtain ⟨stack, hbuilt⟩ := BootMap.initPageTables_built hinit (by omega) htables
  obtain ⟨rest, hfinished⟩ := BootMap.boot_finished (by omega) hboot
  have hqs : ∀ q ∈ b.tableRequests, q.Straight := fun q hq =>
    (BootMap.tableRequests_usual (by decide) himage (by rw [hb.stackBase, hb.stackSize]; exact hlow)
      hb.framebuffer_low q hq).straight (Nat.le_refl _)
  have hstack : ∀ q ∈ (pagesFrom (l.kernelStackBase &&& pageMask)
      (l.kernelStackBase + Loader.kernelStackSize)).flatMap (bothHalves dataFlags),
      q ∈ b.tableRequests := by
    intro q hq
    simp only [BootMap.tableRequests, BootMap.stackPages, List.mem_append, hb.stackBase, hb.stackSize]
    exact .inl (.inl (.inr hq))
  have hhigh : ∀ a, a < 2 ^ 31 → 256 ≤ (tableSlot 39 (kernelVirtualBase + a)).val := by
    intro a ha
    simp only [tableSlot, tableIndex_eq]
    omega
  refine ⟨fun k hk => ?_, hloader, ?_, ?_, hidentity, ?_⟩
  · rw [stackAddr_eq (by omega)]
    omega
  · exact stackMapped_of_straight (fun a _ => hbuilt.leaf _ rfl)
      (fun a _ p e hp he => hbuilt.inner _ e hp he) hqs l.stack_aligned hlow hstack
  · exact stackMapped_of_straight
      (fun a ha => (hfinished.leaf _ _ (hhigh a ha) rfl).trans (BootMap.lastLeaf_kernelHalf hb ha))
      (fun a _ p e hp he => hfinished.inner _ e hp he) hqs l.stack_aligned hlow hstack
  · exact identityKept_of_straight (fun v _ => hbuilt.leaf _ rfl)
      (fun v _ p e hp he => hbuilt.inner _ e hp he) hqs

theorem boot_stack_in_place_of_lowBoot : ∃ m s₀ root s mm,
    lowLoad.build = .ok (some (lowLoad.poolBase, m)) ∧ lowBoot.init = .ok s₀ ∧
    initPageTables s₀ lowBoot.framebufferInfo lowBoot.memoryMap = .ok (root, s) ∧
    lowBoot.boot = .ok mm ∧ StackInPlace lowLoad lowBoot lowLoad.poolBase m root s mm := by
  obtain ⟨m, hload⟩ := lowLoad_ok
  obtain ⟨mm, hboot⟩ := lowBoot_ok
  obtain ⟨s₀, hinit, hrest⟩ := bind_eq_ok.mp hboot
  obtain ⟨⟨root, s⟩, htables, -⟩ := bind_eq_ok.mp hrest
  exact ⟨m, s₀, root, s, mm, hload, hinit, htables, hboot,
    (boot_stack_in_place_iff (handoff_withStack _ _ _) hload hinit htables hboot).mpr (by decide)⟩

/-- With the stack at 2 GiB the loader enters the kernel on a stack at the bottom of the lower
half. -/
theorem highBoot_stack_low : Loader.kernelStackTopVirt highLoad.kernelStackBase = 0x1FFF8 ∧
    ∃ m s₀ root s mm, highLoad.build = .ok (some (highLoad.poolBase, m)) ∧ highBoot.init = .ok s₀ ∧
      initPageTables s₀ highBoot.framebufferInfo highBoot.memoryMap = .ok (root, s) ∧
      highBoot.boot = .ok mm ∧ ¬ StackInPlace highLoad highBoot highLoad.poolBase m root s mm := by
  refine ⟨by decide, ?_⟩
  obtain ⟨m, hload⟩ := highLoad_ok
  obtain ⟨mm, hboot⟩ := highBoot_ok
  obtain ⟨s₀, hinit, hrest⟩ := bind_eq_ok.mp hboot
  obtain ⟨⟨root, s⟩, htables, -⟩ := bind_eq_ok.mp hrest
  refine ⟨m, s₀, root, s, mm, hload, hinit, htables, hboot, fun h => ?_⟩
  exact absurd (low_of_upper highLoad.stack_low h.upper) (by decide)

end CrapOs
