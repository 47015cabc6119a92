import CrapOs.MemoryManager.HigherHalf

/-! # The memory manager after the boot

Which frames are accounted for, what the direct map shows and what ring 3 can
reach once `initHigherHalf` has returned.
-/

namespace CrapOs

open Foundation

def MemoryManager.IsTable (mm : MemoryManager) (a : Nat) : Prop :=
  a = mm.root ∨ IsInner mm.phys.mem mm.root a

namespace BootMap

variable {b : BootMap} {mm : MemoryManager} {rest : List Nat}

def Withholds (b : BootMap) (a : Nat) : Prop :=
  (a ∈ handledPages EfiMemoryDescriptor.isConventional b.descriptors ∧
    initWithheld b.blank a (a + (pageSize - 1)) = true) ∨
  (a ∈ handledPages EfiMemoryDescriptor.isReclaimable b.descriptors ∧
    reclaimWithheld b.memoryMap b.blank a (a + (pageSize - 1)) = true)

/-- The frame is on the free list, a table of the kernel or withheld, and not two of these. -/
def Accounts (b : BootMap) (mm : MemoryManager) (a : Nat) : Prop :=
  (OnFreeList mm.phys a ∧ ¬ mm.IsTable a ∧ ¬ b.Withholds a) ∨
  (¬ OnFreeList mm.phys a ∧ mm.IsTable a ∧ ¬ b.Withholds a) ∨
  (¬ OnFreeList mm.phys a ∧ ¬ mm.IsTable a ∧ b.Withholds a)

theorem Finished.lost_frame {rest : List Nat} (h : b.Finished mm rest) :
    ∃ a ∈ b.handled, a ≠ 0 ∧ ¬ b.Accounts mm a := by
  obtain ⟨a, ha, hrest, hroot, hinner⟩ := h.lost
  have hnone : ¬ OnFreeList mm.phys a := by
    rw [h.paging.free.onFreeList_iff, List.mem_append, List.mem_reverse, not_or]
    exact ⟨not_reclaimed_of_seeded ha, hrest⟩
  have htable : ¬ mm.IsTable a := not_or.mpr ⟨hroot, hinner⟩
  have hwithheld : ¬ b.Withholds a := by
    obtain ⟨hconv, hfree⟩ := mem_keptPages.mp ha
    rintro (⟨-, hw⟩ | ⟨hr, -⟩)
    · rw [hw] at hfree
      cases hfree
    · exact b.handledPages_disjoint hconv hr
  refine ⟨a, handled_of_seeded ha, ?_, ?_⟩
  · exact (b.clear_of_mem (List.mem_append_left _ ha)).1.nonzero
  · rintro (⟨hf, -⟩ | ⟨-, ht, -⟩ | ⟨-, -, hw⟩)
    · exact hnone hf
    · exact htable ht
    · exact hwithheld hw

/-- Every boot loses a frame: the tables of the identity maps are cut off and not freed. -/
theorem boot_loses_frames (hkernel : b.kernelEnd < 2 ^ 64) (hok : b.boot = .ok mm) :
    ¬ ∀ a ∈ b.handled, a ≠ 0 → b.Accounts mm a := by
  obtain ⟨rest, h⟩ := boot_finished hkernel hok
  obtain ⟨a, ha, hne, hlost⟩ := h.lost_frame
  exact fun hall => hlost (hall a ha hne)

theorem boot_loses_frames_of_tinyBoot : ∃ mm, tinyBoot.boot = .ok mm ∧
    ¬ ∀ a ∈ tinyBoot.handled, a ≠ 0 → tinyBoot.Accounts mm a := by
  obtain ⟨mm, hok⟩ := tinyBoot_ok
  exact ⟨mm, hok, boot_loses_frames (by decide) hok⟩

/-- In the small boot a conventional frame ends up nowhere. -/
theorem tinyBoot_lost_frame : ∃ mm, tinyBoot.boot = .ok mm ∧
    ∃ a ∈ tinyBoot.handled, a ≠ 0 ∧ ¬ tinyBoot.Accounts mm a := by
  obtain ⟨mm, hok⟩ := tinyBoot_ok
  obtain ⟨rest, h⟩ := boot_finished (by decide) hok
  exact ⟨mm, hok, h.lost_frame⟩

structure Layout (b : BootMap) : Prop where
  below : ∀ d ∈ b.descriptors, d.stop ≤ 2 ^ 44
  image_low : b.kernelEnd ≤ 2 ^ 31
  stack_low : b.memoryMap.stackBaseAddr + b.memoryMap.stackSize ≤ 2 ^ 31
  devices_outside : ∀ a ∈ devicePages, a ∉ b.handled
  framebuffer_fits : kernelFramebufferVirtualBase +
    (b.framebufferInfo.physEnd - (b.framebufferInfo.framebufferAddr &&& pageMask)) ≤ 2 ^ 64

theorem wrap64_window {a : Nat} (h : a < 2 ^ 47) :
    wrap64 (kernelPhysicalMapBase + a) = 2 ^ 64 - 2 ^ 47 + a := by
  rw [kernelPhysicalMapBase_eq, wrap64_of_lt (by omega)]

theorem window_inj {a c : Nat} (ha : a < 2 ^ 47) (hc : c < 2 ^ 47) (hpa : a % pageSize = 0)
    (hpc : c % pageSize = 0)
    (h : pagePath (wrap64 (kernelPhysicalMapBase + a)) = pagePath (wrap64 (kernelPhysicalMapBase + c))) :
    a = c := by
  rw [wrap64_window ha, wrap64_window hc] at h
  have hpage := page_eq_of_pagePath (.inr ⟨by omega, by omega⟩) (.inr ⟨by omega, by omega⟩) h
  simp only [pageSize] at hpa hpc hpage
  omega

theorem handled_spec {a : Nat} (h : a ∈ b.handled) : ∃ d ∈ b.descriptors, a ∈ d.pages ∧
    d.shouldDirectMap = true ∧ d.directMapFlags = dataFlags ∧ a % pageSize = 0 := by
  obtain ⟨d, hd, htype, ha⟩ := mem_handled.mp h
  refine ⟨d, hd, ha, ?_, ?_, (mem_pages ha).2.2.trans (b.aligned d hd)⟩
  all_goals
    obtain ⟨t, start, n⟩ := d
    cases t with
    | none => cases htype
    | some t => cases t <;> first | rfl | cases htype

theorem devicePages_spec : ∀ c ∈ devicePages, c < 2 ^ 47 ∧ c % pageSize = 0 := by decide

/-- The direct map of a frame is what its descriptor asked for. -/
theorem lastLeaf_window (hb : b.Layout) {a : Nat} (h : a ∈ b.handled) :
    lastLeaf b.requests (pagePath (wrap64 (kernelPhysicalMapBase + a))) =
      some (leafEntry a dataFlags) := by
  obtain ⟨d, hd, ha, hmap, hflags, hal⟩ := handled_spec h
  have hlow : a < 2 ^ 44 := by
    have hpage := (mem_pages ha).2.1
    have hstop := hb.below d hd
    simp only [pageSize] at hpage
    omega
  have hfb : lastLeaf b.framebufferRequests (pagePath (wrap64 (kernelPhysicalMapBase + a))) = none := by
    rw [lastLeaf_eq_none]
    intro q hq hpath
    obtain ⟨j, hj, rfl⟩ := List.mem_map.mp hq
    have hj' := List.mem_range.mp hj
    have hfits := hb.framebuffer_fits
    have hbase : kernelFramebufferVirtualBase = 2 ^ 64 - 2 ^ 47 + 2 ^ 44 := by decide
    simp only [MapRequest.path, pageSize] at hpath hj'
    rw [wrap64_window (by omega), wrap64_of_lt (by omega)] at hpath
    have hpage := page_eq_of_pagePath (.inr ⟨by omega, by omega⟩) (.inr ⟨by omega, by omega⟩) hpath
    simp only [pageSize] at hpage
    omega
  have hwindow : lastLeaf b.windowRequests (pagePath (wrap64 (kernelPhysicalMapBase + a))) =
      some (leafEntry a dataFlags) := by
    refine lastLeaf_eq (q := ⟨wrap64 (kernelPhysicalMapBase + a), a, dataFlags⟩) ?_ ?_
    · refine List.mem_append_left _ (List.mem_flatMap.mpr ⟨d, hd, ?_⟩)
      rw [EfiMemoryDescriptor.directRequests, if_pos hmap, hflags]
      exact List.mem_map_of_mem ha
    · intro r hr hpath
      rcases List.mem_append.mp hr with hr | hr
      · obtain ⟨e, he, hr⟩ := List.mem_flatMap.mp hr
        rw [EfiMemoryDescriptor.directRequests] at hr
        split at hr
        · obtain ⟨c, hc, rfl⟩ := List.mem_map.mp hr
          have hcal := (mem_pages hc).2.2.trans (b.aligned e he)
          obtain rfl := window_inj (page_lt he hc) (by omega) hcal hal hpath
          obtain rfl := b.descriptor_unique he hd hc ha
          rw [hflags]
        · cases hr
      · obtain ⟨c, hc, rfl⟩ := List.mem_map.mp hr
        exfalso
        have hdev := devicePages_spec c hc
        obtain rfl := window_inj hdev.1 (by omega) hdev.2 hal hpath
        exact hb.devices_outside c hc h
  rw [requests, lastLeaf_append, lastLeaf_append, hfb, hwindow]
  rfl

end BootMap

def translate (m : Mem) (root v : Nat) : Option Nat :=
  (walk m root v).map fun w => frameOf w.pte + v % pageSize

def Walk.Writable (w : Walk) : Prop :=
  w.pml4e &&& Flag.writable ≠ 0 ∧ w.pdpte &&& Flag.writable ≠ 0 ∧ w.pde &&& Flag.writable ≠ 0 ∧
    w.pte &&& Flag.writable ≠ 0

def Walk.User (w : Walk) : Prop :=
  w.pml4e &&& Flag.user ≠ 0 ∧ w.pdpte &&& Flag.user ≠ 0 ∧ w.pde &&& Flag.user ≠ 0 ∧
    w.pte &&& Flag.user ≠ 0

theorem walk_of_entries {m : Mem} {root v e : Nat} (h : entryAt m root (pagePath v) = some e) :
    ∃ w, walk m root v = some w ∧ w.pte = e ∧
      entryAt m root ((pagePath v).take 1) = some w.pml4e ∧
      entryAt m root ((pagePath v).take 2) = some w.pdpte ∧
      entryAt m root ((pagePath v).take 3) = some w.pde := by
  cases hw : walk m root v with
  | none =>
    rw [walk_eq_none, h] at hw
    cases hw
  | some w =>
    refine ⟨w, rfl, ?_⟩
    unfold walk at hw
    simp only [Option.bind_eq_bind, Option.bind_eq_some_iff] at hw
    obtain ⟨e1, h1, e2, h2, e3, h3, e4, h4, hw⟩ := hw
    cases hw
    rw [h] at h4
    exact ⟨(Option.some.inj h4).symm, h1, h2, h3⟩

theorem or_and_ne_zero {f flags bit : Nat} (h : flags &&& bit ≠ 0) : (f ||| flags) &&& bit ≠ 0 := by
  rw [Nat.and_or_distrib_right]
  exact fun hzero => h (Nat.or_eq_zero_iff.mp hzero).2

namespace BootMap

variable {b : BootMap} {mm : MemoryManager} {rest : List Nat}

theorem Finished.translates (hb : b.Layout) (h : b.Finished mm rest) {a : Nat} (ha : a ∈ b.handled) :
    translate mm.phys.mem mm.root (wrap64 (kernelPhysicalMapBase + a)) = some a ∧
      ∃ w, walk mm.phys.mem mm.root (wrap64 (kernelPhysicalMapBase + a)) = some w ∧ w.Writable ∧
        w.pte &&& Flag.nx ≠ 0 := by
  obtain ⟨d, hd, had, -, -, hal⟩ := handled_spec ha
  have hlt := page_lt hd had
  obtain ⟨v, hv⟩ : ∃ v, wrap64 (kernelPhysicalMapBase + a) = v := ⟨_, rfl⟩
  have hvalue := wrap64_window hlt
  have hleaf := lastLeaf_window hb ha
  rw [hv] at hvalue hleaf ⊢
  have hslot : 256 ≤ (tableSlot 39 v).val := by
    simp only [tableSlot, tableIndex_eq]
    omega
  have hentry : entryAt mm.phys.mem mm.root (pagePath v) = some (leafEntry a dataFlags) :=
    (h.leaf _ _ hslot rfl).trans hleaf
  obtain ⟨w, hw, hpte, h1, h2, h3⟩ := walk_of_entries hentry
  have hkernel : IsKernelFlags dataFlags := by
    unfold IsKernelFlags
    decide
  have hinner : ∀ p e, p.length ≤ 3 → entryAt mm.phys.mem mm.root p = some e →
      e &&& Flag.writable ≠ 0 := by
    intro p e hp he
    obtain ⟨f, -, rfl⟩ := h.inner p e hp he
    exact or_and_ne_zero (by decide)
  have hflag : ∀ bit, dataFlags &&& bit ≠ 0 → w.pte &&& bit ≠ 0 := by
    intro bit hbit
    rw [hpte, leafEntry, Nat.or_assoc, Nat.or_comm dataFlags, ← Nat.or_assoc]
    exact or_and_ne_zero hbit
  refine ⟨?_, w, hw, ⟨hinner _ _ (by simp) h1, hinner _ _ (by simp) h2, hinner _ _ (by simp) h3,
    hflag _ (by decide)⟩, hflag _ (by decide)⟩
  rw [translate, hw, Option.map_some, hpte, (frameOf_leafEntry hal (by omega) hkernel).1, hvalue]
  simp only [pageSize] at hal ⊢
  congr 1
  omega

theorem Finished.window_found (hb : b.Layout) (h : b.Finished mm rest) {a : Nat} (ha : a ∈ b.handled) :
    missing mm.phys.mem mm.root (tablePath (wrap64 (kernelPhysicalMapBase + a))) = 0 := by
  obtain ⟨-, w, hw, -⟩ := h.translates hb ha
  rw [missing_eq_zero_iff]
  intro p hp hnone
  obtain ⟨hne, q, hq⟩ := mem_prefixSet.mp hp
  refine RadixTree.present_of_append (q := q ++ [tableSlot 12 (wrap64 (kernelPhysicalMapBase + a))]) hne ?_ hnone
  rw [← List.append_assoc, hq]
  intro hleaf
  rw [walk_eq_none.mpr hleaf] at hw
  cases hw

/-- After the boot the direct map shows every frame the manager can hand out, writable and
not executable, and the lower half is empty. -/
theorem direct_map_translates {s₀ : Phys} (hb : b.Layout) (hinit : b.init = .ok s₀)
    (hok : b.boot = .ok mm) :
    (∀ a, OnFreeList s₀ a ∨ OnFreeList mm.phys a →
      translate mm.phys.mem mm.root (wrap64 (kernelPhysicalMapBase + a)) = some a ∧
        ∃ w, walk mm.phys.mem mm.root (wrap64 (kernelPhysicalMapBase + a)) = some w ∧ w.Writable ∧
          w.pte &&& Flag.nx ≠ 0) ∧
    ∀ v, v < 0x0000800000000000 → walk mm.phys.mem mm.root v = none := by
  have hkernel := hb.image_low
  obtain ⟨rest, h⟩ := boot_finished (by omega) hok
  refine ⟨fun a ha => h.translates hb ?_, fun v hv => ?_⟩
  · rw [(b.between_init hinit).stack.onFreeList_iff, h.paging.free.onFreeList_iff, List.mem_append,
      List.mem_reverse, List.mem_reverse] at ha
    rcases ha with ha | ha | ha
    · exact handled_of_seeded ha
    · exact List.mem_append_right _ (mem_keptPages.mp ha).1
    · exact handled_of_seeded (List.mem_reverse.mp (h.suffix.subset ha))
  · rw [walk_eq_none]
    refine h.lower (tableSlot 39 v) _ ?_
    simp only [tableSlot, tableIndex_eq]
    omega

theorem tinyBoot_layout : tinyBoot.Layout where
  below := by
    rw [tinyBoot_descriptors]
    decide
  image_low := by decide
  stack_low := by decide
  devices_outside := by
    rw [handled, tinyBoot_descriptors]
    decide +kernel
  framebuffer_fits := by decide

theorem direct_map_translates_of_tinyBoot : ∃ s₀ mm, tinyBoot.init = .ok s₀ ∧
    tinyBoot.boot = .ok mm ∧
    (∀ a, OnFreeList s₀ a ∨ OnFreeList mm.phys a →
      translate mm.phys.mem mm.root (wrap64 (kernelPhysicalMapBase + a)) = some a ∧
        ∃ w, walk mm.phys.mem mm.root (wrap64 (kernelPhysicalMapBase + a)) = some w ∧ w.Writable ∧
          w.pte &&& Flag.nx ≠ 0) ∧
    ∀ v, v < 0x0000800000000000 → walk mm.phys.mem mm.root v = none := by
  obtain ⟨mm, hok⟩ := tinyBoot_ok
  exact ⟨_, mm, tinyBoot.init_eq, hok, direct_map_translates tinyBoot_layout tinyBoot.init_eq hok⟩

theorem bothHalves_flags {flags a : Nat} {q : MapRequest} (h : q ∈ bothHalves flags a) :
    q.flags = flags := by
  simp only [bothHalves, List.mem_cons, List.not_mem_nil, or_false] at h
  rcases h with rfl | rfl <;> rfl

theorem identityRequest_flags {flags a : Nat} {q : MapRequest} (h : q ∈ identityRequest flags a) :
    q.flags = flags := by
  rw [List.mem_singleton.mp h]

theorem requests_supervisor : ∀ q ∈ b.requests, q.flags &&& Flag.user = 0 := by
  have himage : imageFlags &&& Flag.user = 0 := by decide
  have hdata : dataFlags &&& Flag.user = 0 := by decide
  intro q hq
  simp only [requests, tableRequests, windowRequests, List.mem_append, List.mem_flatMap] at hq
  rcases hq with (((((⟨d, -, hq⟩ | ⟨a, -, hq⟩) | ⟨a, -, hq⟩) | ⟨a, -, hq⟩) | ⟨a, -, hq⟩) |
    ⟨d, -, hq⟩ | hq) | hq
  · rw [EfiMemoryDescriptor.identityRequests] at hq
    split at hq
    · obtain ⟨a, -, rfl⟩ := List.mem_map.mp hq
      exact himage
    · cases hq
  · rw [bothHalves_flags hq, himage]
  · rw [bothHalves_flags hq, hdata]
  · rw [identityRequest_flags hq, himage]
  · rw [identityRequest_flags hq, himage]
  · rw [EfiMemoryDescriptor.directRequests] at hq
    split at hq
    · obtain ⟨a, -, rfl⟩ := List.mem_map.mp hq
      show d.directMapFlags &&& Flag.user = 0
      unfold EfiMemoryDescriptor.directMapFlags
      split
      · exact himage
      · exact hdata
    · cases hq
  · obtain ⟨a, -, rfl⟩ := List.mem_map.mp hq
    show deviceFlags &&& Flag.user = 0
    decide
  · obtain ⟨j, -, rfl⟩ := List.mem_map.mp hq
    exact himage

theorem Finished.noUserPage (h : b.Finished mm rest) :
    NoUserPage (mm.view [mm.root] (b.reclaimed.reverse ++ rest)) := by
  intro r hr i q e hi hq he
  obtain rfl := List.mem_singleton.mp hr
  change entryAt mm.phys.mem mm.root (i :: q) = some e at he
  rw [h.leaf i q hi (by rw [List.length_cons, hq])] at he
  obtain ⟨m, hm, -, rfl⟩ := lastLeaf_mem he
  rw [MapRequest.leaf, leafEntry_user]
  exact requests_supervisor m hm

end BootMap

/-- The system right after `initHigherHalf`. -/
def System.Booted (σ : System) : Prop :=
  ∃ b : BootMap, b.kernelEnd < 2 ^ 64 ∧ b.boot = .ok σ.manager ∧ σ.heap = kernelHeap ∧ σ.spaces = []

theorem System.Booted.finished {σ : System} (h : σ.Booted) :
    ∃ b rest, BootMap.Finished b σ.manager rest ∧ σ.roots = [σ.manager.root] ∧
      σ.Live (b.reclaimed.reverse ++ rest) := by
  obtain ⟨b, hkernel, hok, -, hspaces⟩ := h
  obtain ⟨rest, h⟩ := BootMap.boot_finished hkernel hok
  have hroots : σ.roots = [σ.manager.root] := by
    rw [System.roots, hspaces]
    rfl
  refine ⟨b, rest, h, hroots, ?_⟩
  rw [System.Live, hroots]
  exact h.live

theorem System.Booted.noUserPage {σ : System} (h : σ.Booted) :
    ∃ stack, σ.Live stack ∧ NoUserPage (σ.view stack) := by
  obtain ⟨b, rest, h, hroots, hlive⟩ := h.finished
  refine ⟨_, hlive, ?_⟩
  rw [System.view, hroots]
  exact h.noUserPage

theorem System.Booted.tablesClear {σ : System} (h : σ.Booted) :
    (∃ stack, σ.Live stack) ∧ σ.KernelTablesClear := by
  obtain ⟨b, rest, h, hroots, hlive⟩ := h.finished
  refine ⟨⟨_, hlive⟩, fun r hr i p e _ hp he => ?_⟩
  rw [hroots, List.mem_singleton] at hr
  rw [hr] at he
  obtain ⟨f, hf, rfl⟩ := h.inner _ e hp he
  have hmask := frame_or_and_pageMask hf (show 0 < pageSize by decide)
  rw [Nat.and_or_distrib_right, ← hmask, pageMask_user]
  decide

/-- Whatever is mapped after the boot, as long as the user flag is asked for in the lower half
only, no address of the upper half is open to ring 3 in any address space. -/
theorem upper_half_closed_to_user {σ : System}
    (h : Reach System.Booted (System.Step fun _ c => c.UserBelow) σ) :
    ∀ r ∈ σ.roots, ∀ v, 256 ≤ (tableSlot 39 v).val →
      ∀ w, walk σ.manager.phys.mem r v = some w → ¬ w.User := by
  have hinv : ∃ stack, σ.Live stack ∧ NoUserPage (σ.view stack) := by
    refine System.run_invariant (fun σ hσ => hσ.noUserPage) ?_ ?_ h
    · intro σ stack c _ _ _ hbelow
      cases c with
      | unmapPage | unmapAndFreePage => exact hbelow.elim
      | _ => exact ⟨trivial, trivial⟩
    · intro σ σ' stack c calls y hlive hpages _ hbelow hexp hrun
      exact hpages.run hlive.spaces (hexp.userBelow hbelow) hrun
  obtain ⟨stack, -, hpages⟩ := hinv
  intro r hr v hslot w hw huser
  cases he : entryAt σ.manager.phys.mem r (pagePath v) with
  | none =>
    rw [walk_eq_none.mpr he] at hw
    cases hw
  | some e =>
    obtain ⟨w', hw', hpte, -⟩ := walk_of_entries he
    rw [hw] at hw'
    cases hw'
    have hclear := hpages r hr (tableSlot 39 v)
      [tableSlot 30 v, tableSlot 21 v, tableSlot 12 v] e hslot rfl he
    rw [← hpte] at hclear
    exact huser.2.2.2 hclear

/-- The window's page table has room for a page of a device. -/
theorem tinyBoot_mapped : ∃ mm σ, tinyBoot.boot = .ok mm ∧
    (⟨mm, kernelHeap, fun _ => 0, []⟩ : System).Booted ∧
    missing mm.phys.mem mm.root (tablePath 0xFFFF8000000A0000) = 0 ∧
    (⟨mm, kernelHeap, fun _ => 0, []⟩ : System).exec
      (.mapPage kernelPml4 0xFFFF8000000A0000 0xFD000000 deviceFlags) = .ok σ := by
  obtain ⟨mm, hok⟩ := tinyBoot_ok
  obtain ⟨rest, hfinished⟩ := BootMap.boot_finished (b := tinyBoot) (by decide) hok
  have hhandled : 0x20000 ∈ tinyBoot.handled := by
    rw [BootMap.handled, tinyBoot_descriptors]
    decide +kernel
  have hpath : tablePath (wrap64 (kernelPhysicalMapBase + 0x20000)) = tablePath 0xFFFF8000000A0000 := by
    decide
  have hnone := hfinished.window_found BootMap.tinyBoot_layout hhandled
  have hbooted : (⟨mm, kernelHeap, fun _ => 0, []⟩ : System).Booted :=
    ⟨tinyBoot, by decide, hok, rfl, rfl⟩
  obtain ⟨b, rest, -, -, hlive⟩ := hbooted.finished
  obtain ⟨σ, -, hmap, -⟩ := hlive.mapPage_ok (System.inRange_kernel _ 0xFFFF8000000A0000
    (by decide : 0xFD000000 < 2 ^ 64) (by decide : deviceFlags < 2 ^ 64))
    (Nat.le_trans (Nat.le_of_eq hnone) (Nat.zero_le _))
  exact ⟨mm, σ, hok, hbooted, hnone, hmap⟩

theorem upper_half_closed_to_user_of_tinyBoot : ∃ mm σ, tinyBoot.boot = .ok mm ∧
    (⟨mm, kernelHeap, fun _ => 0, []⟩ : System).exec
      (.mapPage kernelPml4 0xFFFF8000000A0000 0xFD000000 deviceFlags) = .ok σ ∧
    ∀ r ∈ σ.roots, ∀ v, 256 ≤ (tableSlot 39 v).val →
      ∀ w, walk σ.manager.phys.mem r v = some w → ¬ w.User := by
  obtain ⟨mm, σ, hok, hbooted, -, hmap⟩ := tinyBoot_mapped
  refine ⟨mm, σ, hok, hmap, upper_half_closed_to_user (.step (.start hbooted)
    ⟨_, System.inRange_kernel _ _ (by decide) (by decide), .inl (by decide), hmap⟩)⟩

/-- The entries that lead to the kernel's tables stay clear of the user flag as long as
heap growth and mappings of kernel addresses find their tables, and a mapping of a kernel
address keeps them clear only then. -/
theorem kernel_tables_clear_iff {σ : System}
    (h : Reach (fun σ => (∃ stack, σ.Live stack) ∧ σ.KernelTablesClear)
      (System.Step fun σ c => c.FindsTables σ) σ) :
    σ.KernelTablesClear ∧
    ∀ pml4Phys v pa flags σ', KernelCall.InRange σ (.mapPage pml4Phys v pa flags) →
      256 ≤ (tableSlot 39 v).val → σ.exec (.mapPage pml4Phys v pa flags) = .ok σ' →
      (σ'.KernelTablesClear ↔
        missing σ.manager.phys.mem (σ.manager.rootOf pml4Phys) (tablePath v) = 0) := by
  have hinv : ∃ stack, σ.Live stack ∧ NoUserTable (σ.view stack) := by
    refine System.run_invariant ?_ ?_ ?_ h
    · rintro σ ⟨⟨stack, hlive⟩, hclear⟩
      exact ⟨stack, hlive, hclear⟩
    · rintro σ stack c - - - hfinds
      cases c with
      | unmapPage | unmapAndFreePage => exact hfinds.elim
      | _ => exact ⟨trivial, trivial⟩
    · rintro σ σ' stack c calls y hlive hclear - hfinds hexp hrun
      exact hexp.noUserTable hlive hclear hfinds hrun
  obtain ⟨stack, hlive, hclear⟩ := hinv
  refine ⟨hclear, fun pml4Phys v pa flags σ' hrange hhigh hok => ?_⟩
  obtain ⟨calls, stack', hexp, -, hlive', hrun⟩ :=
    System.exec_run hlive hrange trivial trivial hok
  refine ⟨fun hclear' => ?_, fun hzero => ?_⟩
  · by_contra hmiss
    cases hexp with
    | mapPage =>
      cases hrun with
      | cons hstep _ hnil =>
        cases hnil
        obtain ⟨p, e, hp, he, huser⟩ := hstep.grows_user hmiss
        exact huser (hclear' _ (hstep.roots_mono hrange.1) _ p e hhigh hp he)
  · exact hexp.noUserTable hlive hclear (fun _ => hzero) hrun

/-- A page of a device, mapped next to the direct map of the memory. -/
theorem kernel_tables_clear_iff_of_tinyBoot : ∃ mm σ, tinyBoot.boot = .ok mm ∧
    missing mm.phys.mem mm.root (tablePath 0xFFFF8000000A0000) = 0 ∧
    (⟨mm, kernelHeap, fun _ => 0, []⟩ : System).exec
      (.mapPage kernelPml4 0xFFFF8000000A0000 0xFD000000 deviceFlags) = .ok σ ∧ σ.KernelTablesClear := by
  obtain ⟨mm, σ, hok, hbooted, hfound, hmap⟩ := tinyBoot_mapped
  refine ⟨mm, σ, hok, hfound, hmap, (kernel_tables_clear_iff (.step (.start hbooted.tablesClear)
    ⟨_, System.inRange_kernel _ _ (by decide) (by decide), fun _ => hfound, hmap⟩)).1⟩

end CrapOs
