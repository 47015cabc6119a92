import CrapOs.Foundation.Extents
import CrapOs.MemoryManager.BootMap

/-! # What the boot passes free and what they withhold

`BootMap` is everything the two passes read, with what the firmware guarantees
about it. Between the passes the kernel may allocate pages, write to memory it
owns and switch to the higher half.
-/

namespace CrapOs

open Foundation

structure BootMap where
  mem : Mem
  framebufferInfo : FramebufferInfo
  memoryMap : MemoryMapInfo
  kernelStart : Nat
  kernelEnd : Nat
  descriptorSize_ge : EfiMemoryDescriptor.byteSize ≤ memoryMap.descriptorSize
  aligned : ∀ d ∈ descriptorsFrom mem memoryMap.descriptorSize
    (memoryMap.memoryMapSize / memoryMap.descriptorSize) memoryMap.memoryMapAddr,
    d.physicalStart % pageSize = 0
  in_window : ∀ d ∈ descriptorsFrom mem memoryMap.descriptorSize
    (memoryMap.memoryMapSize / memoryMap.descriptorSize) memoryMap.memoryMapAddr,
    d.stop ≤ directMapWindow
  disjoint : (descriptorsFrom mem memoryMap.descriptorSize
    (memoryMap.memoryMapSize / memoryMap.descriptorSize) memoryMap.memoryMapAddr).Pairwise
    EfiMemoryDescriptor.Apart
  buffer_in_window : memoryMap.memoryMapAddr + memoryMap.memoryMapSize ≤ directMapWindow
  kernel_range : kernelStart ≤ kernelEnd
  stack_range : memoryMap.stackBaseAddr + memoryMap.stackSize < 2 ^ 64
  framebuffer_range : framebufferInfo.framebufferAddr + framebufferInfo.size < 2 ^ 64

namespace BootMap

variable (b : BootMap)

def numSegments : Nat := b.memoryMap.memoryMapSize / b.memoryMap.descriptorSize

def descriptors : List EfiMemoryDescriptor :=
  descriptorsFrom b.mem b.memoryMap.descriptorSize b.numSegments b.memoryMap.memoryMapAddr

def blank : PhysicalMemoryManager :=
  PhysicalMemoryManager.blank b.framebufferInfo b.memoryMap b.kernelStart b.kernelEnd

def init : Except Halt Phys :=
  PhysicalMemoryManager.init b.mem b.framebufferInfo b.memoryMap b.kernelStart b.kernelEnd

def mapRegion : Extent := ⟨b.memoryMap.memoryMapAddr, b.memoryMap.memoryMapSize⟩
def kernelRegion : Extent := ⟨b.kernelStart, b.kernelEnd - b.kernelStart⟩
def stackRegion : Extent := ⟨b.memoryMap.stackBaseAddr, b.memoryMap.stackSize⟩
def framebufferRegion : Extent := ⟨b.framebufferInfo.framebufferAddr, b.framebufferInfo.size⟩

def seeded : List Nat :=
  keptPages initWithheld b.blank (handledPages EfiMemoryDescriptor.isConventional b.descriptors)

def reclaimed : List Nat :=
  keptPages (reclaimWithheld b.memoryMap) b.blank
    (handledPages EfiMemoryDescriptor.isReclaimable b.descriptors)

end BootMap

/-! ## A boot with a page right behind the kernel image

Descriptors at `0x10000`: three conventional pages from `0x2000`, where the
kernel image ends, and one loader page at `0x8000`, which the framebuffer covers.
-/

def flushMemory : Mem :=
  let zero : Mem := fun _ => 0
  ((((((zero.write64 0x10000 7).write64 0x10008 0x2000).write64 0x10018 3).write64
    0x10030 1).write64 0x10038 0x8000).write64 0x10048 1)

theorem flushMemory_descriptors : descriptorsFrom flushMemory 48 2 0x10000 =
    [⟨some .efiConventionalMemory, 0x2000, 3⟩, ⟨some .efiLoaderCode, 0x8000, 1⟩] := by
  decide +kernel

def flushBoot : BootMap where
  mem := flushMemory
  framebufferInfo := ⟨0x8000, 32, 32, 32⟩
  memoryMap := ⟨0x10000, 96, 48, 0x20000, 0x1000⟩
  kernelStart := 0x1000
  kernelEnd := 0x2000
  descriptorSize_ge := by decide
  aligned := by
    show ∀ d ∈ descriptorsFrom flushMemory 48 2 0x10000, _
    rw [flushMemory_descriptors]
    decide
  in_window := by
    show ∀ d ∈ descriptorsFrom flushMemory 48 2 0x10000, _
    rw [flushMemory_descriptors]
    decide
  disjoint := by
    show (descriptorsFrom flushMemory 48 2 0x10000).Pairwise _
    rw [flushMemory_descriptors]
    simp [EfiMemoryDescriptor.Apart, EfiMemoryDescriptor.stop, pageSize]
  buffer_in_window := by decide
  kernel_range := by decide
  stack_range := by decide
  framebuffer_range := by decide

theorem flushBoot_descriptors : flushBoot.descriptors =
    [⟨some .efiConventionalMemory, 0x2000, 3⟩, ⟨some .efiLoaderCode, 0x8000, 1⟩] :=
  flushMemory_descriptors

def SharesByte (p : Nat) (r : Extent) : Prop := ∃ x, p ≤ x ∧ x < p + pageSize ∧ r.Has x

theorem sharesByte_iff {p : Nat} {r : Extent} :
    SharesByte p r ↔ 0 < r.size ∧ p < r.stop ∧ r.start < p + pageSize := by
  simp only [SharesByte, Extent.Has, Extent.stop, pageSize]
  constructor
  · rintro ⟨x, h⟩
    omega
  · intro h
    exact ⟨max p r.start, by omega⟩

theorem pageOverlaps_eq_false {p q start stop : Nat} :
    pageOverlaps p q start stop = false ↔ stop < p ∨ q < start := by
  simp only [pageOverlaps, Bool.and_eq_false_iff, decide_eq_false_iff_not]
  omega

theorem mem_pages {d : EfiMemoryDescriptor} {p : Nat} (h : p ∈ d.pages) :
    d.physicalStart ≤ p ∧ p + pageSize ≤ d.stop ∧ p % pageSize = d.physicalStart % pageSize := by
  simp only [EfiMemoryDescriptor.pages, List.mem_map, List.mem_range] at h
  obtain ⟨i, hi, rfl⟩ := h
  simp only [EfiMemoryDescriptor.pageAt, EfiMemoryDescriptor.stop, pageSize]
  omega

theorem pages_nodup (d : EfiMemoryDescriptor) : d.pages.Nodup := by
  apply List.Nodup.map _ List.nodup_range
  intro i j h
  simp only [EfiMemoryDescriptor.pageAt, pageSize] at h
  omega

theorem mem_handledPages {wanted : EfiMemoryDescriptor → Bool} {ds : List EfiMemoryDescriptor}
    {p : Nat} : p ∈ handledPages wanted ds ↔ ∃ d ∈ ds, wanted d = true ∧ p ∈ d.pages := by
  simp only [handledPages, List.mem_flatMap, List.mem_filter]
  constructor
  · rintro ⟨d, ⟨hd, hw⟩, hp⟩
    exact ⟨d, hd, hw, hp⟩
  · rintro ⟨d, hd, hw, hp⟩
    exact ⟨d, ⟨hd, hw⟩, hp⟩

theorem mem_keptPages {withheld : Withheld} {pmm : PhysicalMemoryManager} {starts : List Nat}
    {p : Nat} : p ∈ keptPages withheld pmm starts ↔
      p ∈ starts ∧ withheld pmm p (p + (pageSize - 1)) = false := by
  simp [keptPages]

namespace BootMap

variable (b : BootMap)

variable {p : Nat} {s s' : Phys}

theorem descriptor_unique {d e : EfiMemoryDescriptor} (hd : d ∈ b.descriptors)
    (he : e ∈ b.descriptors) (hpd : p ∈ d.pages) (hpe : p ∈ e.pages) : d = e := by
  by_contra hne
  have h1 := mem_pages hpd
  have h2 := mem_pages hpe
  have h3 := b.disjoint.forall hd he hne
  simp only [EfiMemoryDescriptor.Apart, pageSize] at h1 h2 h3
  omega

theorem handledPages_nodup (wanted : EfiMemoryDescriptor → Bool) :
    (handledPages wanted b.descriptors).Nodup := by
  apply List.nodup_flatMap.mpr
  refine ⟨fun d _ => pages_nodup d, ?_⟩
  have hpair := b.disjoint.filter wanted
  apply hpair.imp
  intro d e hde p hpd hpe
  have h1 := mem_pages hpd
  have h2 := mem_pages hpe
  simp only [EfiMemoryDescriptor.Apart, pageSize] at hde h1 h2
  omega

theorem isReclaimable_of_isConventional {d : EfiMemoryDescriptor} (h : d.isConventional = true) :
    d.isReclaimable = false := by
  simp only [EfiMemoryDescriptor.isConventional, decide_eq_true_eq] at h
  simp [EfiMemoryDescriptor.isReclaimable, h]

theorem handledPages_disjoint
    (hc : p ∈ handledPages EfiMemoryDescriptor.isConventional b.descriptors)
    (hr : p ∈ handledPages EfiMemoryDescriptor.isReclaimable b.descriptors) : False := by
  obtain ⟨d, hd, hdc, hpd⟩ := mem_handledPages.mp hc
  obtain ⟨e, he, hre, hpe⟩ := mem_handledPages.mp hr
  have heq := b.descriptor_unique hd he hpd hpe
  subst heq
  rw [isReclaimable_of_isConventional hdc] at hre
  exact Bool.noConfusion hre

theorem seeded_append_reclaimed_nodup : (b.seeded ++ b.reclaimed).Nodup := by
  refine List.nodup_append.mpr ⟨(b.handledPages_nodup _).filter _,
    (b.handledPages_nodup _).filter _, ?_⟩
  intro p hp q hq heq
  subst heq
  exact b.handledPages_disjoint (mem_keptPages.mp hp).1 (mem_keptPages.mp hq).1

theorem isFrame_of_handled {wanted : EfiMemoryDescriptor → Bool}
    (h : p ∈ handledPages wanted b.descriptors) (hp : p ≠ 0) : IsFrame p := by
  obtain ⟨d, hd, -, hpd⟩ := mem_handledPages.mp h
  obtain ⟨-, hstop, hmod⟩ := mem_pages hpd
  have hwindow := b.in_window d hd
  refine ⟨hmod.trans (b.aligned d hd), hp, ?_⟩
  simp only [pageSize] at hstop
  omega

theorem clear_of_reclaimWithheld
    (h : reclaimWithheld b.memoryMap b.blank p (p + (pageSize - 1)) = false) :
    p ≠ 0 ∧ (b.mapRegion.stop < p ∨ p + pageSize ≤ b.mapRegion.start) ∧
      (b.kernelEnd < p ∨ p + pageSize ≤ b.kernelStart) ∧
      (b.stackRegion.stop < p ∨ p + pageSize ≤ b.stackRegion.start) := by
  have hbuf := b.buffer_in_window
  have hstk := b.stack_range
  rw [directMapWindow_eq] at hbuf
  simp only [reclaimWithheld, blank, PhysicalMemoryManager.blank, Bool.or_eq_false_iff,
    beq_eq_false_iff_ne, pageOverlaps_eq_false] at h
  rw [wrap64_of_lt (n := b.memoryMap.memoryMapAddr + b.memoryMap.memoryMapSize) (by omega),
    wrap64_of_lt hstk] at h
  simp only [mapRegion, stackRegion, Extent.stop, pageSize] at h ⊢
  omega

theorem reclaimWithheld_of_initWithheld {q : Nat} (h : initWithheld b.blank p q = false) :
    reclaimWithheld b.memoryMap b.blank p q = false := by
  simp only [initWithheld, reclaimWithheld, blank, PhysicalMemoryManager.blank,
    Bool.or_eq_false_iff] at h ⊢
  exact h.1

theorem not_sharesByte_of_clear {r : Extent} (h : r.stop < p ∨ p + pageSize ≤ r.start) :
    ¬ SharesByte p r := by
  rw [sharesByte_iff]
  omega

theorem clear_of_mem (h : p ∈ b.seeded ++ b.reclaimed) :
    IsFrame p ∧ reclaimWithheld b.memoryMap b.blank p (p + (pageSize - 1)) = false := by
  rcases List.mem_append.mp h with h | h
  · obtain ⟨hp, hw⟩ := mem_keptPages.mp h
    have hw' := b.reclaimWithheld_of_initWithheld hw
    exact ⟨b.isFrame_of_handled hp (b.clear_of_reclaimWithheld hw').1, hw'⟩
  · obtain ⟨hp, hw⟩ := mem_keptPages.mp h
    exact ⟨b.isFrame_of_handled hp (b.clear_of_reclaimWithheld hw).1, hw⟩

/-! ## The two passes -/

theorem numSegments_ok : b.memoryMap.numSegments = .ok b.numSegments := by
  have hsize := b.descriptorSize_ge
  simp only [EfiMemoryDescriptor.byteSize] at hsize
  rw [MemoryMapInfo.numSegments, if_neg (by omega)]
  rfl

theorem segments_le : b.numSegments * b.memoryMap.descriptorSize ≤ b.memoryMap.memoryMapSize :=
  Nat.div_mul_le_self _ _

theorem init_eq : b.init = .ok (sweepSegments EfiMemoryDescriptor.isConventional initWithheld
    b.memoryMap.descriptorSize b.numSegments b.memoryMap.memoryMapAddr ⟨b.blank, b.mem⟩) := by
  simp only [init, PhysicalMemoryManager.init, b.numSegments_ok]
  rfl

theorem reclaim_eq (s : Phys) : reclaimBootMemory s b.memoryMap = .ok (sweepSegments
    EfiMemoryDescriptor.isReclaimable (reclaimWithheld b.memoryMap) b.memoryMap.descriptorSize
    b.numSegments (wrap64 (b.memoryMap.memoryMapAddr + kernelPhysicalMapBase)) s) := by
  simp only [reclaimBootMemory, b.numSegments_ok]
  rfl

theorem init_swept (h : b.init = .ok s) : Swept ⟨b.blank, b.mem⟩ s b.seeded [] := by
  rw [b.init_eq] at h
  cases h
  have hbuf := b.buffer_in_window
  have hseg := b.segments_le
  have hbase := kernelPhysicalMapBase_eq
  rw [directMapWindow_eq] at hbuf
  have hclear : ∀ p ∈ b.seeded, IsFrame p ∧
      reclaimWithheld b.memoryMap b.blank p (p + (pageSize - 1)) = false :=
    fun p hp => b.clear_of_mem (List.mem_append_left _ hp)
  apply sweepSegments_spec _ initWithheld_static b.descriptorSize_ge b.numSegments rfl
  · intro k hk
    exact ⟨by omega, physOf_of_lt (by omega)⟩
  · exact ⟨rfl, rfl, by simp, by simp, rfl⟩
  · intro d hd
    have hstop := b.in_window d hd
    rw [directMapWindow_eq] at hstop
    omega
  · exact fun p hp => (hclear p hp).1
  · intro p hp
    have hmap := (b.clear_of_reclaimWithheld (hclear p hp).2).2.1
    simp only [mapRegion, Extent.stop] at hmap
    omega
  · rw [List.append_nil]
    exact (b.handledPages_nodup _).filter _

structure Between (s : Phys) (rest : List Nat) : Prop where
  stack : FreeStack s rest
  suffix : rest <:+ b.seeded.reverse
  buffer : Mem.AgreeOn b.mem s.mem b.memoryMap.memoryMapAddr b.memoryMap.memoryMapSize
  config : b.blank.SameConfig s.pmm

theorem between_init (h : b.init = .ok s) : b.Between s b.seeded.reverse := by
  have hswept := b.init_swept h
  refine ⟨by simpa using hswept.stack, List.suffix_refl _, ?_, hswept.config⟩
  apply hswept.frame
  intro p hp
  have hw := (b.clear_of_mem (List.mem_append_left _ hp)).2
  have hmap := (b.clear_of_reclaimWithheld hw).2.1
  simp only [mapRegion, Extent.stop] at hmap
  omega

/-- One step between the passes: an allocation, the switch to the higher half,
or writes that miss the free pages and the memory map. -/
inductive Step : Phys → Phys → Prop
  | alloc {s : Phys} : Step s (allocPage s).2
  | flip {s : Phys} : Step s { s with pmm := { s.pmm with isHigherHalf := true } }
  | write {s : Phys} (m : Mem) :
      (∀ stack, FreeStack s stack → ∀ a ∈ stack, Mem.AgreeOn s.mem m a pageSize) →
      Mem.AgreeOn s.mem m b.memoryMap.memoryMapAddr b.memoryMap.memoryMapSize →
      Step s { s with mem := m }

theorem between_step (h : ∃ rest, b.Between s rest) (hs : b.Step s s') :
    ∃ rest, b.Between s' rest := by
  obtain ⟨rest, hb⟩ := h
  cases hs with
  | alloc =>
    have hconfig := hb.config.trans (allocPage_sameConfig s)
    have hbuffer : Mem.AgreeOn b.mem (allocPage s).2.mem b.memoryMap.memoryMapAddr
        b.memoryMap.memoryMapSize := by
      rw [allocPage_mem]
      exact hb.buffer
    cases rest with
    | nil =>
      refine ⟨[], ?_, hb.suffix, hbuffer, hconfig⟩
      rw [allocPage_empty hb.stack]
      exact hb.stack
    | cons a rest =>
      exact ⟨rest, (allocPage_spec hb.stack).2, (List.suffix_cons a rest).trans hb.suffix,
        hbuffer, hconfig⟩
  | flip =>
    exact ⟨rest, hb.stack.congr rfl rfl (fun a _ => Mem.AgreeOn.refl _ a 8), hb.suffix,
      hb.buffer, hb.config.trans ⟨rfl, rfl, rfl, rfl, rfl, rfl, rfl, rfl, rfl⟩⟩
  | write m hfree hbuf =>
    refine ⟨rest, hb.stack.congr rfl rfl (fun a ha => ?_), hb.suffix, hb.buffer.trans hbuf,
      hb.config⟩
    exact (hfree rest hb.stack a ha).mono (Nat.le_refl a) (by simp [pageSize])

theorem between_run (hinit : b.init = .ok s) (hrun : Reach (· = s) b.Step s') :
    ∃ rest, b.Between s' rest := by
  apply hrun.invariant (fun s => ∃ rest, b.Between s rest)
  · rintro _ rfl
    exact ⟨_, b.between_init hinit⟩
  · exact fun _ _ => b.between_step

theorem reclaim_swept {rest : List Nat} (hb : b.Between s rest)
    (h : reclaimBootMemory s b.memoryMap = .ok s') : Swept s s' b.reclaimed rest := by
  rw [b.reclaim_eq] at h
  cases h
  have hbuf := b.buffer_in_window
  have hseg := b.segments_le
  have hbase := kernelPhysicalMapBase_eq
  rw [directMapWindow_eq] at hbuf
  have hfilter : ∀ starts, keptPages (reclaimWithheld b.memoryMap) s.pmm starts =
      keptPages (reclaimWithheld b.memoryMap) b.blank starts :=
    keptPages_congr (reclaimWithheld_static b.memoryMap) hb.config
  have hdescs : descriptorsFrom s.mem b.memoryMap.descriptorSize b.numSegments
      b.memoryMap.memoryMapAddr = b.descriptors :=
    descriptorsFrom_congr b.descriptorSize_ge (hb.buffer.mono (Nat.le_refl _) (by omega))
  have hclear : ∀ p ∈ b.reclaimed, IsFrame p ∧
      reclaimWithheld b.memoryMap b.blank p (p + (pageSize - 1)) = false :=
    fun p hp => b.clear_of_mem (List.mem_append_right _ hp)
  have hnodup : (b.reclaimed ++ rest).Nodup := by
    have hall := b.seeded_append_reclaimed_nodup
    rw [List.nodup_append] at hall
    refine List.nodup_append.mpr ⟨hall.2.1, hb.stack.nodup, ?_⟩
    intro p hp q hq heq
    exact hall.2.2 q (List.mem_reverse.mp (hb.suffix.subset hq)) p hp heq.symm
  have hptr : PointsAt (wrap64 (b.memoryMap.memoryMapAddr + kernelPhysicalMapBase))
      b.memoryMap.memoryMapAddr (b.numSegments * b.memoryMap.descriptorSize) := by
    intro k hk
    rw [wrap64_of_lt (by omega), physOf_of_ge (by omega)]
    omega
  have hswept := sweepSegments_spec EfiMemoryDescriptor.isReclaimable
    (reclaimWithheld_static b.memoryMap) b.descriptorSize_ge b.numSegments hdescs hptr hb.stack
    ?_ (by rw [hfilter]; exact fun p hp => (hclear p hp).1) ?_ (by rw [hfilter]; exact hnodup)
  · rw [hfilter] at hswept
    exact hswept
  · intro d hd
    have hstop := b.in_window d hd
    rw [directMapWindow_eq] at hstop
    omega
  · rw [hfilter]
    intro p hp
    have hmap := (b.clear_of_reclaimWithheld (hclear p hp).2).2.1
    simp only [mapRegion, Extent.stop] at hmap
    omega

theorem boot_stacks {s1 s2 s3 : Phys} (hinit : b.init = .ok s1)
    (hrun : Reach (· = s1) b.Step s2) (hreclaim : reclaimBootMemory s2 b.memoryMap = .ok s3) :
    ∃ rest, FreeStack s1 b.seeded.reverse ∧ rest <:+ b.seeded.reverse ∧ FreeStack s2 rest ∧
      FreeStack s3 (b.reclaimed.reverse ++ rest) := by
  obtain ⟨rest, hb⟩ := b.between_run hinit hrun
  exact ⟨rest, (b.between_init hinit).stack, hb.suffix, hb.stack,
    (b.reclaim_swept hb hreclaim).stack⟩

/-- Whatever is allocated between the passes, the pages the two passes put on the
free list are distinct, not page zero, and clear of the memory map, the kernel
image and the boot stack. -/
theorem boot_pages_distinct_and_clear {s₁ s₂ s₃ : Phys} (hinit : b.init = .ok s₁)
    (hrun : Reach (· = s₁) b.Step s₂) (hreclaim : reclaimBootMemory s₂ b.memoryMap = .ok s₃) :
    (∃ rest, FreeStack s₁ b.seeded.reverse ∧ rest <:+ b.seeded.reverse ∧ FreeStack s₂ rest ∧
      FreeStack s₃ (b.reclaimed.reverse ++ rest)) ∧
    (b.seeded ++ b.reclaimed).Nodup ∧
    ∀ p ∈ b.seeded ++ b.reclaimed, p ≠ 0 ∧ ¬ SharesByte p b.mapRegion ∧
      ¬ SharesByte p b.kernelRegion ∧ ¬ SharesByte p b.stackRegion := by
  refine ⟨b.boot_stacks hinit hrun hreclaim, b.seeded_append_reclaimed_nodup, ?_⟩
  intro p hp
  obtain ⟨hnz, hmap, hkernel, hstack⟩ := b.clear_of_reclaimWithheld (b.clear_of_mem hp).2
  have hke : b.kernelRegion.stop = b.kernelEnd := Nat.add_sub_cancel' b.kernel_range
  exact ⟨hnz, not_sharesByte_of_clear hmap, not_sharesByte_of_clear (hke ▸ hkernel),
    not_sharesByte_of_clear hstack⟩

theorem boot_pages_of_flushBoot : flushBoot.seeded = [0x3000, 0x4000] ∧
    flushBoot.reclaimed = [0x8000] ∧ ∃ s₁ s₃, flushBoot.init = .ok s₁ ∧
      reclaimBootMemory s₁ flushBoot.memoryMap = .ok s₃ ∧
      ((∃ rest, FreeStack s₁ flushBoot.seeded.reverse ∧ rest <:+ flushBoot.seeded.reverse ∧
        FreeStack s₁ rest ∧ FreeStack s₃ (flushBoot.reclaimed.reverse ++ rest)) ∧
      (flushBoot.seeded ++ flushBoot.reclaimed).Nodup ∧
      ∀ p ∈ flushBoot.seeded ++ flushBoot.reclaimed, p ≠ 0 ∧
        ¬ SharesByte p flushBoot.mapRegion ∧ ¬ SharesByte p flushBoot.kernelRegion ∧
        ¬ SharesByte p flushBoot.stackRegion) := by
  refine ⟨?_, ?_, _, _, flushBoot.init_eq, flushBoot.reclaim_eq _,
    flushBoot.boot_pages_distinct_and_clear flushBoot.init_eq (.start rfl) (flushBoot.reclaim_eq _)⟩
  · rw [seeded, flushBoot_descriptors]
    decide
  · rw [reclaimed, flushBoot_descriptors]
    decide

def reserved : List Extent :=
  [b.mapRegion, b.kernelRegion, b.stackRegion, b.framebufferRegion]

def SharesReserved (p : Nat) : Prop := ∃ r ∈ b.reserved, SharesByte p r

end BootMap

/-- The region ends exactly where the page starts, or is empty inside the page:
the test of `pageOverlaps` succeeds although no byte is shared. -/
def Grazes (p : Nat) (r : Extent) : Prop :=
  (0 < r.size ∧ r.stop = p) ∨ (r.size = 0 ∧ p ≤ r.start ∧ r.start < p + pageSize)

theorem pageOverlaps_iff {p : Nat} {r : Extent} :
    pageOverlaps p (p + (pageSize - 1)) r.start r.stop = true ↔ SharesByte p r ∨ Grazes p r := by
  simp only [pageOverlaps, Bool.and_eq_true, decide_eq_true_eq, sharesByte_iff, Grazes]
  simp only [Extent.stop, pageSize]
  omega

namespace BootMap

variable (b : BootMap)

def handled : List Nat :=
  handledPages EfiMemoryDescriptor.isConventional b.descriptors ++
    handledPages EfiMemoryDescriptor.isReclaimable b.descriptors

/-- Seeding and reclaiming withhold a page exactly when it shares a byte with a
reserved region, and test every page alike. -/
def WithholdsExactly (s1 s3 : Phys) : Prop :=
  (∀ p ∈ handledPages EfiMemoryDescriptor.isConventional b.descriptors, p ≠ 0 →
    (¬ OnFreeList s1 p ↔ b.SharesReserved p)) ∧
  (∀ p ∈ handledPages EfiMemoryDescriptor.isReclaimable b.descriptors, p ≠ 0 →
    (¬ OnFreeList s3 p ↔ b.SharesReserved p)) ∧
  (∀ p ∈ b.handled, p ≠ 0 → initWithheld b.blank p (p + (pageSize - 1)) =
    reclaimWithheld b.memoryMap b.blank p (p + (pageSize - 1)))

/-- No handled page grazes a reserved region without sharing a byte, and the
framebuffer reaches no handled page that the other three regions leave alone. -/
def NothingFlush : Prop :=
  ∀ p ∈ b.handled, p ≠ 0 →
    (¬ b.SharesReserved p → ∀ r ∈ b.reserved, ¬ Grazes p r) ∧
    (SharesByte p b.framebufferRegion ∨ Grazes p b.framebufferRegion →
      ∃ r ∈ [b.mapRegion, b.kernelRegion, b.stackRegion], SharesByte p r ∨ Grazes p r)

variable {p : Nat}

theorem reclaimWithheld_iff (hp : p ≠ 0) :
    reclaimWithheld b.memoryMap b.blank p (p + (pageSize - 1)) = true ↔
      ∃ r ∈ [b.mapRegion, b.kernelRegion, b.stackRegion], SharesByte p r ∨ Grazes p r := by
  have hbuf := b.buffer_in_window
  have hke : b.kernelRegion.stop = b.kernelEnd := Nat.add_sub_cancel' b.kernel_range
  rw [directMapWindow_eq] at hbuf
  simp only [← pageOverlaps_iff, List.mem_cons, List.not_mem_nil, or_false, exists_eq_or_imp,
    exists_eq_left, hke]
  simp only [reclaimWithheld, blank, PhysicalMemoryManager.blank, Bool.or_eq_true, beq_iff_eq, hp,
    false_or, or_assoc]
  rw [wrap64_of_lt (n := b.memoryMap.memoryMapAddr + b.memoryMap.memoryMapSize) (by omega),
    wrap64_of_lt b.stack_range]
  rfl

theorem initWithheld_iff (hp : p ≠ 0) :
    initWithheld b.blank p (p + (pageSize - 1)) = true ↔
      reclaimWithheld b.memoryMap b.blank p (p + (pageSize - 1)) = true ∨
        SharesByte p b.framebufferRegion ∨ Grazes p b.framebufferRegion := by
  rw [← pageOverlaps_iff]
  simp only [initWithheld, reclaimWithheld, blank, PhysicalMemoryManager.blank, Bool.or_eq_true,
    beq_iff_eq, hp, false_or, wrap64_of_lt b.framebuffer_range]
  rfl

theorem onFreeList_seeded {s1 : Phys} (hinit : b.init = .ok s1)
    (hp : p ∈ handledPages EfiMemoryDescriptor.isConventional b.descriptors) :
    ¬ OnFreeList s1 p ↔ initWithheld b.blank p (p + (pageSize - 1)) = true := by
  rw [(b.between_init hinit).stack.onFreeList_iff, List.mem_reverse, seeded, mem_keptPages]
  simp [hp]

theorem onFreeList_reclaimed {s1 s2 s3 : Phys} (hinit : b.init = .ok s1)
    (hrun : Reach (· = s1) b.Step s2) (hreclaim : reclaimBootMemory s2 b.memoryMap = .ok s3)
    (hp : p ∈ handledPages EfiMemoryDescriptor.isReclaimable b.descriptors) :
    ¬ OnFreeList s3 p ↔
      reclaimWithheld b.memoryMap b.blank p (p + (pageSize - 1)) = true := by
  obtain ⟨rest, -, hsuffix, -, hstack⟩ := b.boot_stacks hinit hrun hreclaim
  have hrest : p ∉ rest := by
    intro h
    have hseeded := List.mem_reverse.mp (hsuffix.subset h)
    exact b.handledPages_disjoint (mem_keptPages.mp hseeded).1 hp
  rw [hstack.onFreeList_iff, List.mem_append, List.mem_reverse, reclaimed, mem_keptPages]
  simp [hp, hrest]

theorem initWithheld_iff_reserved (hp : p ≠ 0) :
    initWithheld b.blank p (p + (pageSize - 1)) = true ↔
      ∃ r ∈ b.reserved, SharesByte p r ∨ Grazes p r := by
  rw [b.initWithheld_iff hp, b.reclaimWithheld_iff hp]
  simp [reserved, or_assoc]

/-- The two passes withhold exactly the pages that share a byte with a reserved
region if and only if no handled page lies flush against one. -/
theorem withholdsExactly_iff {s₁ s₂ s₃ : Phys} (hinit : b.init = .ok s₁)
    (hrun : Reach (· = s₁) b.Step s₂) (hreclaim : reclaimBootMemory s₂ b.memoryMap = .ok s₃) :
    b.WithholdsExactly s₁ s₃ ↔ b.NothingFlush := by
  constructor
  · rintro ⟨hconv, hrec, hsame⟩ p hp hnz
    have hsame := hsame p hp hnz
    have htest : initWithheld b.blank p (p + (pageSize - 1)) = true → b.SharesReserved p := by
      intro hw
      rcases List.mem_append.mp hp with hp | hp
      · exact (hconv p hp hnz).mp ((b.onFreeList_seeded hinit hp).mpr hw)
      · exact (hrec p hp hnz).mp
          ((b.onFreeList_reclaimed hinit hrun hreclaim hp).mpr (hsame ▸ hw))
    refine ⟨fun hns r hr hg => hns (htest ((b.initWithheld_iff_reserved hnz).mpr
      ⟨r, hr, Or.inr hg⟩)), ?_⟩
    intro hfb
    rw [← b.reclaimWithheld_iff hnz, ← hsame]
    exact (b.initWithheld_iff hnz).mpr (Or.inr hfb)
  · intro hflush
    have hsame : ∀ p ∈ b.handled, p ≠ 0 → initWithheld b.blank p (p + (pageSize - 1)) =
        reclaimWithheld b.memoryMap b.blank p (p + (pageSize - 1)) := by
      intro p hp hnz
      rw [Bool.eq_iff_iff, b.initWithheld_iff hnz]
      constructor
      · rintro (h | hfb)
        · exact h
        · exact (b.reclaimWithheld_iff hnz).mpr ((hflush p hp hnz).2 hfb)
      · exact Or.inl
    have htest : ∀ p ∈ b.handled, p ≠ 0 →
        (initWithheld b.blank p (p + (pageSize - 1)) = true ↔ b.SharesReserved p) := by
      intro p hp hnz
      rw [b.initWithheld_iff_reserved hnz]
      constructor
      · rintro ⟨r, hr, hs | hg⟩
        · exact ⟨r, hr, hs⟩
        · by_contra hns
          exact (hflush p hp hnz).1 hns r hr hg
      · rintro ⟨r, hr, hs⟩
        exact ⟨r, hr, Or.inl hs⟩
    refine ⟨fun p hp hnz => ?_, fun p hp hnz => ?_, hsame⟩
    · rw [b.onFreeList_seeded hinit hp]
      exact htest p (List.mem_append_left _ hp) hnz
    · have hp' := List.mem_append_right
        (handledPages EfiMemoryDescriptor.isConventional b.descriptors) hp
      rw [b.onFreeList_reclaimed hinit hrun hreclaim hp, ← hsame p hp' hnz]
      exact htest p hp' hnz

theorem withholdsExactly_iff_of_flushBoot : ∃ s₁ s₃, flushBoot.init = .ok s₁ ∧
    reclaimBootMemory s₁ flushBoot.memoryMap = .ok s₃ ∧
    (flushBoot.WithholdsExactly s₁ s₃ ↔ flushBoot.NothingFlush) :=
  ⟨_, _, flushBoot.init_eq, flushBoot.reclaim_eq _,
    flushBoot.withholdsExactly_iff flushBoot.init_eq (.start rfl) (flushBoot.reclaim_eq _)⟩

/-- The page at `0x2000` starts where the kernel image ends: it shares no byte
with a reserved region and is withheld. -/
theorem flushBoot_not_withholdsExactly : ∃ s₁ s₃, flushBoot.init = .ok s₁ ∧
    reclaimBootMemory s₁ flushBoot.memoryMap = .ok s₃ ∧
    ¬ flushBoot.WithholdsExactly s₁ s₃ := by
  refine ⟨_, _, flushBoot.init_eq, flushBoot.reclaim_eq _, ?_⟩
  rintro ⟨hconv, -, -⟩
  have hmem : 0x2000 ∈ handledPages EfiMemoryDescriptor.isConventional flushBoot.descriptors := by
    rw [flushBoot_descriptors]
    decide
  have hheld : initWithheld flushBoot.blank 0x2000 (0x2000 + (pageSize - 1)) = true := by decide
  obtain ⟨r, hr, hshare⟩ := (hconv 0x2000 hmem (by decide)).mp
    ((flushBoot.onFreeList_seeded flushBoot.init_eq hmem).mpr hheld)
  rw [sharesByte_iff] at hshare
  have hnone : ∀ r ∈ flushBoot.reserved,
      ¬ (0 < r.size ∧ 0x2000 < r.stop ∧ r.start < 0x2000 + pageSize) := by decide
  exact hnone r hr hshare

end BootMap

end CrapOs
