import CrapOs.MemoryManager.BootTables
import CrapOs.MemoryManager.FrameOwnership
import CrapOs.MemoryManager.KernelHalf
import Mathlib.Algebra.Order.BigOperators.Group.Finset

/-! # The switch to the higher half

`initHigherHalf` completes the tables of `initPageTables`, cuts off the identity
maps and reclaims the memory of the boot. What the kernel's tables hold from
then on is read off the requests of the boot.
-/

namespace CrapOs

open Foundation

/-- Clears the lower 256 entries. The reload of CR3 flushes the TLB only. -/
def removeIdentityMaps (s : Phys) (pml4Phys : Nat) : Phys := zeroWords s (virtOf true pml4Phys) 256

/-- `reload_gdt_and_idt` changes two registers and is left out. -/
def MemoryManager.initHigherHalf (mm : MemoryManager) (framebufferInfo : FramebufferInfo)
    (memoryMap : MemoryMapInfo) : Except Halt MemoryManager := do
  let s ← buildDirectMap mm.phys mm.pml4 memoryMap
  let s := { s with pmm := { s.pmm with isHigherHalf := true } }
  let s ← mapFramebufferHigherHalf s mm.pml4 framebufferInfo
  let pml4 := virtOf true mm.root
  let s := removeIdentityMaps s mm.root
  let s ← reclaimBootMemory s memoryMap
  pure ⟨s, pml4⟩

/-- What `_start` does until the memory manager is complete. -/
def BootMap.boot (b : BootMap) : Except Halt MemoryManager := do
  let s ← b.init
  let (pml4, s) ← initPageTables s b.framebufferInfo b.memoryMap
  MemoryManager.initHigherHalf ⟨s, pml4⟩ b.framebufferInfo b.memoryMap

theorem IsFrame.root_identity {root : Nat} (h : IsFrame root) (s : Phys) :
    (⟨s, root⟩ : MemoryManager).root = root := by
  have hlt : root < kernelPhysicalMapBase := by
    have hw := h.window
    rw [directMapWindow_eq] at hw
    rw [kernelPhysicalMapBase_eq]
    omega
  exact physOf_of_lt hlt

theorem IsFrame.root_direct {root : Nat} (h : IsFrame root) (s : Phys) :
    (⟨s, virtOf true root⟩ : MemoryManager).root = root := by
  have hphys := h.physOf_virtOf true (k := 0) (by decide)
  rwa [Nat.add_zero, Nat.add_zero] at hphys

namespace BootMap

variable {b : BootMap} {root : Nat} {qs : List MapRequest} {s s' : Phys} {stack : List Nat}
  {mm : MemoryManager}

def requests (b : BootMap) : List MapRequest :=
  b.tableRequests ++ b.windowRequests ++ b.framebufferRequests

theorem Built.flip (h : b.Built root qs s stack) :
    b.Built root qs { s with pmm := { s.pmm with isHigherHalf := true } } stack where
  paging := ⟨h.paging.free.congr rfl rfl fun a _ => Mem.AgreeOn.refl _ a 8, h.paging.tree⟩
  config := h.config.trans ⟨rfl, rfl, rfl, rfl, rfl, rfl, rfl, rfl, rfl⟩
  buffer := h.buffer
  owned := h.owned
  suffix := h.suffix
  leaf := h.leaf
  inner := h.inner

theorem removeIdentityMaps_entry (hroot : IsFrame root) (s : Phys) (i : Fin 512) :
    tableEntry (removeIdentityMaps s root).mem root i =
      if i.val < 256 then 0 else tableEntry s.mem root i := by
  have hmem := (zeroWords_spec (s := s) hroot true (n := 256) (by omega)).2
  by_cases hi : i.val < 256
  · rw [if_pos hi]
    apply Mem.read64_of_zero
    intro x hl hu
    rw [removeIdentityMaps, hmem, if_pos (by omega)]
  · rw [if_neg hi]
    apply Mem.read64_congr
    intro x hl hu
    rw [removeIdentityMaps, hmem, if_neg (by omega)]

theorem removeIdentityMaps_changesOnly (hroot : IsFrame root) (s : Phys) :
    Mem.ChangesOnly s.mem (removeIdentityMaps s root).mem pageSize (fun a => a = root) := by
  intro x hx
  have hout := hx root rfl
  have hmem := (zeroWords_spec (s := s) hroot true (n := 256) (by omega)).2 x
  simp only [pageSize] at hout
  rw [removeIdentityMaps, hmem, if_neg (by omega)]

/-- The lower half is empty and the upper half what it was. -/
structure Halved (root : Nat) (m m' : Mem) : Prop where
  lower : ∀ (i : Fin 512) (p : TablePath), i.val < 256 → entryAt m' root (i :: p) = none
  upper : ∀ (i : Fin 512) (p : TablePath), 256 ≤ i.val → (i :: p).length ≤ 4 →
    entryAt m' root (i :: p) = entryAt m root (i :: p)

theorem Halved.tableAt {m m' : Mem} (h : Halved root m m') {p : TablePath} {t : Nat}
    (hp : p.length ≤ 3) (ht : tableAt m' root p = some t) :
    CrapOs.tableAt m root p = some t ∧ ∀ i q, p = i :: q → 256 ≤ i.val := by
  cases p with
  | nil => exact ⟨ht, by simp⟩
  | cons i p =>
    have hi : 256 ≤ i.val := by
      by_contra hlow
      have hnone := (RadixTree.present_eq_none_iff (by simp)).mp (h.lower i p (by omega))
      cases hnone.symm.trans ht
    refine ⟨?_, by rintro _ _ ⟨⟩; exact hi⟩
    rw [← tableAt_congr (h.upper i p hi (by omega))]
    exact ht

theorem removeIdentityMaps_halved (h : PageTree s.mem root stack) :
    Halved root s.mem (removeIdentityMaps s root).mem := by
  have hroot := h.frames [] root (by simp) rfl
  have hentry := removeIdentityMaps_entry hroot s
  have hchange := removeIdentityMaps_changesOnly hroot s
  obtain ⟨m', hm'⟩ : ∃ m', (removeIdentityMaps s root).mem = m' := ⟨_, rfl⟩
  rw [hm'] at hchange ⊢
  simp only [hm'] at hentry
  constructor
  · intro i p hi
    have hslot : RadixTree.table decodeEntry (tableEntry m') root [i] = none := by
      refine (tableAt_slot m' root i).trans ?_
      rw [hentry, if_pos hi]
      rfl
    rw [RadixTree.present_eq_none_iff (by simp), ← List.singleton_append, RadixTree.table_append, hslot]
    rfl
  · intro i p hi hp
    have hsame : tableEntry m' root i = tableEntry s.mem root i := by
      rw [hentry, if_neg (by omega)]
    refine entryAt_congr_slot hsame (fun q u j hlen hpath => ?_) hp
    -- the tables further down are other frames than the PML4
    refine tableEntry_congr (agreeOn_of_changesOnly hchange (h.frames _ u hlen hpath) ?_) j
    rintro _ rfl
    exact ⟨hroot, h.ne_of_length (p := []) (by simp) hlen rfl hpath (by simp)⟩

/-- What remains once the identity maps are gone. -/
theorem Built.removeIdentityMaps (h : b.Built root qs s stack) :
    ∃ s', removeIdentityMaps s root = s' ∧ Halved root s.mem s'.mem ∧ Paging s' root stack ∧
      b.Between s' stack := by
  have hroot := h.paging.tree.frames [] root (by simp) rfl
  have hhalf := removeIdentityMaps_halved (s := s) h.paging.tree
  have hchange := removeIdentityMaps_changesOnly hroot s
  have hpmm : (CrapOs.removeIdentityMaps s root).pmm = s.pmm := zeroWords_pmm _ _ _
  have hoff := h.paging.tree.off [] root (by simp) rfl
  obtain ⟨s', hs'⟩ : ∃ s', CrapOs.removeIdentityMaps s root = s' := ⟨_, rfl⟩
  rw [hs'] at hhalf hchange hpmm
  have hfree : FreeStack s' stack := by
    refine h.paging.free.congr (by rw [hpmm]) (by rw [hpmm]) fun a ha => ?_
    have hagree := agreeOn_of_changesOnly hchange (h.paging.free.frames a ha) (by
      rintro c rfl
      exact ⟨hroot, fun heq => hoff (heq ▸ ha)⟩)
    exact hagree.mono (Nat.le_refl a) (by simp [pageSize])
  refine ⟨s', hs', hhalf, ⟨hfree, ?_⟩, hfree, h.suffix, h.buffer.trans (hchange.agreeOn ?_), ?_⟩
  · refine h.paging.tree.shrink (fun p t hp ht => (hhalf.tableAt hp ht).1) fun p t hp ht => ?_
    exact h.paging.tree.off p t hp (hhalf.tableAt hp ht).1
  · rintro a rfl
    exact seeded_clear ((h.owned a).mp (.inl rfl))
  · rw [hpmm]
    exact h.config

structure Finished (b : BootMap) (mm : MemoryManager) (rest : List Nat) : Prop where
  pml4 : mm.pml4 = virtOf true mm.root
  paging : Paging mm.phys mm.root (b.reclaimed.reverse ++ rest)
  suffix : rest <:+ b.seeded.reverse
  lower : ∀ (i : Fin 512) (p : TablePath), i.val < 256 → entryAt mm.phys.mem mm.root (i :: p) = none
  leaf : ∀ (i : Fin 512) (p : TablePath), 256 ≤ i.val → (i :: p).length = 4 →
    entryAt mm.phys.mem mm.root (i :: p) = lastLeaf b.requests (i :: p)
  inner : ∀ (p : TablePath) (e : Nat), p.length ≤ 3 → entryAt mm.phys.mem mm.root p = some e →
    ∃ f, IsFrame f ∧ e = f ||| intermediateFlags false
  lost : ∃ a ∈ b.seeded, a ∉ rest ∧ a ≠ mm.root ∧ ¬ IsInner mm.phys.mem mm.root a

theorem shouldIdentityMap_eq (d : EfiMemoryDescriptor) :
    d.shouldIdentityMap = (d.isConventional || d.isReclaimable) := by
  obtain ⟨t, start, n⟩ := d
  cases t with
  | none => rfl
  | some t => cases t <;> rfl

theorem mem_handled {a : Nat} : a ∈ b.handled ↔
    ∃ d ∈ b.descriptors, (d.isConventional || d.isReclaimable) = true ∧ a ∈ d.pages := by
  simp only [handled, List.mem_append, mem_handledPages, Bool.or_eq_true]
  constructor
  · rintro (⟨d, hd, hc, ha⟩ | ⟨d, hd, hr, ha⟩)
    · exact ⟨d, hd, .inl hc, ha⟩
    · exact ⟨d, hd, .inr hr, ha⟩
  · rintro ⟨d, hd, hc | hr, ha⟩
    · exact .inl ⟨d, hd, hc, ha⟩
    · exact .inr ⟨d, hd, hr, ha⟩

theorem handled_of_seeded {a : Nat} (h : a ∈ b.seeded) : a ∈ b.handled :=
  List.mem_append_left _ (mem_keptPages.mp h).1

theorem identityRequest_mem {a : Nat} (h : a ∈ b.handled) :
    (⟨a, a, imageFlags⟩ : MapRequest) ∈ b.tableRequests := by
  obtain ⟨d, hd, htype, ha⟩ := mem_handled.mp h
  simp only [tableRequests, List.mem_append, List.mem_flatMap]
  refine .inl (.inl (.inl (.inl ⟨d, hd, ?_⟩)))
  rw [EfiMemoryDescriptor.identityRequests, shouldIdentityMap_eq, if_pos htype]
  exact List.mem_map_of_mem ha

theorem Built.lowTable (h : b.Built root qs s stack)
    (hq : (⟨root, root, imageFlags⟩ : MapRequest) ∈ qs) :
    ∃ (i : Fin 512) (t : Nat), i.val < 256 ∧ CrapOs.tableAt s.mem root [i] = some t := by
  have hroot := (h.paging.tree.frames [] root (by simp) rfl).window
  rw [directMapWindow_eq] at hroot
  have hleaf : entryAt s.mem root (pagePath root) ≠ none := by
    rw [h.leaf _ (length_pagePath root)]
    exact fun hnone => lastLeaf_eq_none.mp hnone _ hq rfl
  have hslot : entryAt s.mem root [tableSlot 39 root] ≠ none :=
    RadixTree.present_of_append (q := [tableSlot 30 root, tableSlot 21 root, tableSlot 12 root])
      (by simp) hleaf
  obtain ⟨t, ht⟩ := Option.ne_none_iff_exists'.mp
    fun hnone => hslot ((RadixTree.present_eq_none_iff (by simp)).mpr hnone)
  refine ⟨tableSlot 39 root, t, ?_, ht⟩
  simp only [tableSlot, tableIndex_eq]
  omega

theorem not_reclaimed_of_seeded {a : Nat} (h : a ∈ b.seeded) : a ∉ b.reclaimed :=
  fun hr => b.handledPages_disjoint (mem_keptPages.mp h).1 (mem_keptPages.mp hr).1

theorem reclaim_entries {m : Mem} {s1 s2 : Phys} (htree : PageTree s1.mem root stack)
    (hswept : Swept s1 s2 b.reclaimed stack)
    (hseeded : ∀ p t, p.length ≤ 3 → tableAt s1.mem root p = some t → t ∈ b.seeded)
    (hm : s2.mem = m) (p : TablePath) (hp : p.length ≤ 4) :
    entryAt m root p = entryAt s1.mem root p := by
  subst hm
  refine RadixTree.present_congr (n := 4) (fun q t i hq ht => ?_) p hp
  apply tableEntry_congr (hswept.frame t pageSize fun a ha => ?_)
  have hne : a ≠ t := by
    rintro rfl
    exact not_reclaimed_of_seeded (hseeded q a (by omega) ht) ha
  have hframe := (b.clear_of_mem (List.mem_append_right _ ha)).1
  exact hframe.apart (htree.frames q t (by omega) ht) hne

theorem boot_finished (hkernel : b.kernelEnd < 2 ^ 64) (hok : b.boot = .ok mm) :
    ∃ rest, b.Finished mm rest := by
  obtain ⟨s0, hinit, hok⟩ := bind_eq_ok.mp hok
  obtain ⟨⟨root, s1⟩, htables, hok⟩ := bind_eq_ok.mp hok
  obtain ⟨stack1, h1⟩ := initPageTables_built hinit hkernel htables
  have hframe := h1.paging.tree.frames [] root (by simp) rfl
  have hptr : ∃ hh, root = virtOf hh root := ⟨false, rfl⟩
  have hphys : (⟨s1, root⟩ : MemoryManager).root = root := hframe.root_identity s1
  obtain ⟨s2, hwindow, hok⟩ := bind_eq_ok.mp hok
  obtain ⟨stack2, h2⟩ := buildDirectMap_built h1 hptr hwindow
  obtain ⟨s3, hfb, hok⟩ := bind_eq_ok.mp hok
  obtain ⟨stack3, h3⟩ := mapFramebufferHigherHalf_built h2.flip hptr hfb
  obtain ⟨s4, hs4, hhalf, hpaging, hbetween⟩ := h3.removeIdentityMaps
  rw [hphys, hs4] at hok
  obtain ⟨s5, hreclaim, hret⟩ := bind_eq_ok.mp hok
  cases hret
  have hswept := b.reclaim_swept hbetween hreclaim
  have hroot : (⟨s5, virtOf true root⟩ : MemoryManager).root = root := hframe.root_direct s5
  have hseeded : ∀ p t, p.length ≤ 3 → tableAt s4.mem root p = some t → t ∈ b.seeded := by
    intro p t hp ht
    exact (h3.owned t).mp (touches_of_tableAt (hhalf.tableAt hp ht).1 hp)
  have hsame := reclaim_entries hpaging.tree hswept hseeded rfl
  have htable : ∀ p t, p.length ≤ 3 → tableAt s5.mem root p = some t → tableAt s4.mem root p = some t := by
    intro p t hp ht
    rw [← tableAt_congr (hsame p (by omega))]
    exact ht
  refine ⟨stack3, ?_⟩
  have hfin : b.requests = b.tableRequests ++ b.windowRequests ++ b.framebufferRequests := rfl
  constructor
  · rw [hroot]
  · rw [hroot]
    refine ⟨hswept.stack, hpaging.tree.shrink htable fun p t hp ht hin => ?_⟩
    rcases List.mem_append.mp hin with hin | hin
    · exact not_reclaimed_of_seeded (hseeded p t hp (htable p t hp ht)) (List.mem_reverse.mp hin)
    · exact hpaging.tree.off p t hp (htable p t hp ht) hin
  · exact h3.suffix
  · intro i p hi
    rw [hroot]
    by_contra hsome
    obtain ⟨e, he⟩ := Option.ne_none_iff_exists'.mp hsome
    refine slot_of_entry he ?_
    rw [hsame [i] (by simp)]
    exact hhalf.lower i [] hi
  · intro i p hi hp
    rw [hroot, hsame _ hp.le, hhalf.upper i p hi hp.le, h3.leaf _ hp, hfin]
  · intro p e hp he
    rw [hroot, hsame p (by omega)] at he
    refine h3.inner p e hp ?_
    cases p with
    | nil => cases he
    | cons i p =>
      by_cases hi : i.val < 256
      · rw [hhalf.lower i p hi] at he
        cases he
      · rw [← hhalf.upper i p (by omega) (by omega)]
        exact he
  · obtain ⟨i, t, hi, ht⟩ := h3.lowTable (by
      refine List.mem_append_left _ (List.mem_append_left _ (identityRequest_mem ?_))
      exact handled_of_seeded ((h3.owned root).mp (.inl rfl)))
    have htouch : Touches s3 root stack3 t := touches_of_tableAt ht (by simp)
    refine ⟨t, (h3.owned t).mp htouch, h3.paging.tree.off [i] t (by simp) ht, ?_, ?_⟩
    · rw [hroot]
      exact h3.paging.tree.ne_of_length (q := []) (by simp) (by simp) ht rfl (by simp)
    · rintro ⟨p, hnil, hp, hin⟩
      rw [hroot] at hin
      obtain ⟨hold, hhigh⟩ := hhalf.tableAt hp (htable p t hp hin)
      have heq := h3.paging.tree.unshared p [i] t hp (by simp) hold ht
      have hge := hhigh i [] heq
      omega

theorem Finished.live {rest : List Nat} (h : b.Finished mm rest) :
    mm.Live [mm.root] (b.reclaimed.reverse ++ rest) :=
  ⟨h.paging.spaces, List.mem_singleton_self _, true, h.pml4⟩

end BootMap

namespace BootMap

variable {b : BootMap} {root pml4 : Nat} {qs qs' : List MapRequest} {s s' : Phys} {stack : List Nat}
  {mm : MemoryManager} {T : Finset TablePath}

/-- The boot needs the tables of `T` only, and there are frames for all of them. -/
structure Bootable (b : BootMap) (T : Finset TablePath) : Prop where
  image_lt : b.kernelEnd < 2 ^ 64
  image_stays : StaysBelow b.kernelStart b.kernelEnd
  stack_stays : StaysBelow (b.memoryMap.stackBaseAddr &&& pageMask)
    (b.memoryMap.stackBaseAddr + b.memoryMap.stackSize)
  framebuffer_stays : StaysBelow (b.framebufferInfo.framebufferAddr &&& pageMask)
    (b.framebufferInfo.framebufferAddr + b.framebufferInfo.size)
  short : ∀ p ∈ T, p.length ≤ 3
  covered : ∀ q ∈ b.requests, q.InRange ∧ prefixSet (tablePath q.virtualAddr) ⊆ T
  enough : T.card < b.seeded.length

/-- A state of the boot with frames left for the tables of `T` that are still missing. -/
structure Supplied (b : BootMap) (T : Finset TablePath) (root : Nat) (qs : List MapRequest)
    (s : Phys) (stack : List Nat) : Prop where
  built : b.Built root qs s stack
  enough : (absentIn s.mem root T).card ≤ stack.length

theorem Supplied.mapAll_ok (hb : b.Bootable T) (h : b.Supplied T root qs s stack)
    (hptr : ∃ hh, pml4 = virtOf hh root) (hsub : ∀ q ∈ qs', q ∈ b.requests) :
    ∃ s' stack', CrapOs.mapAll pml4 s qs' = .ok s' ∧ b.Supplied T root (qs ++ qs') s' stack' := by
  obtain ⟨hh, rfl⟩ := hptr
  obtain ⟨s', stack', hok, hreq, hleft⟩ := CrapOs.mapAll_ok h.built.paging hb.short
    (fun q hq => hb.covered q (hsub q hq)) h.enough
  exact ⟨s', stack', hok, h.built.requested hreq, hleft⟩

theorem Supplied.whilePages_ok {start stop : Nat} {body : Nat → Phys → Except Halt Phys}
    {g : Nat → List MapRequest} (hb : b.Bootable T) (h : b.Supplied T root qs s stack)
    (hptr : ∃ hh, pml4 = virtOf hh root) (hbody : ∀ a s, body a s = CrapOs.mapAll pml4 s (g a))
    (hstays : StaysBelow start stop)
    (hsub : ∀ q ∈ (pagesFrom start stop).flatMap g, q ∈ b.requests) :
    ∃ s' stack', CrapOs.whilePages body stop (pageFuel stop) start s = .ok s' ∧
      b.Supplied T root (qs ++ (pagesFrom start stop).flatMap g) s' stack' := by
  rw [whilePages_eq hbody hstays (le_pageFuel start stop)]
  exact h.mapAll_ok hb hptr hsub

theorem initPageTables_ok {rest : List Nat} {s0 : Phys} (hb : b.Bootable T)
    (hinit : b.init = .ok s0) (hseed : b.seeded.reverse = root :: rest) :
    ∃ s stack, initPageTables s0 b.framebufferInfo b.memoryMap = .ok (root, s) ∧
      b.Supplied T root b.tableRequests s stack := by
  have hptr : ∃ hh, root = virtOf hh root := ⟨false, rfl⟩
  have hbuf := b.buffer_in_window
  rw [directMapWindow_eq] at hbuf
  have hmr : b.memoryMap.memoryMapAddr + b.memoryMap.memoryMapSize < 2 ^ 64 := by omega
  have hsub : ∀ q ∈ b.tableRequests, q ∈ b.requests :=
    fun q hq => List.mem_append_left _ (List.mem_append_left _ hq)
  obtain ⟨s1, s2, halloc, hzero, h2⟩ := Built.start hinit hseed
  have hsupplied : b.Supplied T root [] s2 rest := by
    refine ⟨h2, ?_⟩
    have hle : (absentIn s2.mem root T).card ≤ T.card := Finset.card_filter_le _ _
    have hlen := congrArg List.length hseed
    have henough := hb.enough
    rw [List.length_reverse, List.length_cons] at hlen
    omega
  simp only [tableRequests, List.mem_append, or_assoc] at hsub
  have hsegs := h2.segments_eq hptr (fun d hd s => identitySegment_eq hd s)
    (fun d hd => identityRequests_inRange hd)
  obtain ⟨s3, stack3, hok3, h3⟩ := hsupplied.mapAll_ok hb hptr fun q hq => hsub q (.inl hq)
  rw [← hsegs] at hok3
  obtain ⟨s4, stack4, hok4, h4⟩ := h3.whilePages_ok hb hptr (mapBothHalves_eq _ imageFlags)
    hb.image_stays fun q hq => hsub q (.inr (.inl hq))
  obtain ⟨s5, stack5, hok5, h5⟩ := h4.whilePages_ok hb hptr (mapBothHalves_eq _ dataFlags)
    hb.stack_stays fun q hq => hsub q (.inr (.inr (.inl hq)))
  obtain ⟨s6, stack6, hok6, h6⟩ := h5.whilePages_ok hb hptr (identityMapPage_eq _ imageFlags)
    hb.framebuffer_stays fun q hq => hsub q (.inr (.inr (.inr (.inl hq))))
  have hstays : StaysBelow (b.memoryMap.memoryMapAddr &&& pageMask)
      (b.memoryMap.memoryMapAddr + b.memoryMap.memoryMapSize) := by
    simp only [StaysBelow, pageSize]
    omega
  obtain ⟨s7, stack7, hok7, h7⟩ := h6.whilePages_ok hb hptr (identityMapPage_eq _ imageFlags)
    hstays fun q hq => hsub q (.inr (.inr (.inr (.inr hq))))
  refine ⟨s7, stack7, ?_, h7⟩
  simp only [initPageTables, halloc, hzero]
  refine bind_eq_ok.mpr ⟨b.numSegments, b.numSegments_ok, bind_eq_ok.mpr ⟨s3, hok3, ?_⟩⟩
  rw [h3.built.config.kernelEnd, h3.built.config.kernelStart, wrap64_of_lt b.stack_range,
    wrap64_of_lt b.framebuffer_range, wrap64_of_lt hmr]
  exact bind_eq_ok.mpr ⟨s4, hok4, bind_eq_ok.mpr ⟨s5, hok5, bind_eq_ok.mpr ⟨s6, hok6,
    bind_eq_ok.mpr ⟨s7, hok7, rfl⟩⟩⟩⟩

/-- Enough frames for the tables are enough for the boot. -/
theorem boot_ok (hb : b.Bootable T) : ∃ mm, b.boot = .ok mm := by
  have hinit := b.init_eq
  generalize sweepSegments _ _ _ _ _ _ = s0 at hinit
  cases hseed : b.seeded.reverse with
  | nil =>
    have hlen := congrArg List.length hseed
    have henough := hb.enough
    rw [List.length_reverse, List.length_nil] at hlen
    omega
  | cons root rest =>
    have hptr : ∃ hh, root = virtOf hh root := ⟨false, rfl⟩
    obtain ⟨s1, stack1, hok1, h1⟩ := initPageTables_ok hb hinit hseed
    have hframe := h1.built.paging.tree.frames [] root (by simp) rfl
    have hwindow : ∀ q ∈ b.windowRequests, q ∈ b.requests :=
      fun q hq => List.mem_append_left _ (List.mem_append_right _ hq)
    obtain ⟨s2, stack2, hok2, h2⟩ := h1.mapAll_ok hb hptr hwindow
    rw [← h1.built.buildDirectMap_eq hptr] at hok2
    have hflip : b.Supplied T root (b.tableRequests ++ b.windowRequests)
        { s2 with pmm := { s2.pmm with isHigherHalf := true } } stack2 := ⟨h2.built.flip, h2.enough⟩
    have hfb : ∀ q ∈ b.framebufferRequests, q ∈ b.requests := fun q hq => List.mem_append_right _ hq
    obtain ⟨s3, stack3, hok3, h3⟩ := hflip.mapAll_ok hb hptr hfb
    rw [← mapFramebufferHigherHalf_eq] at hok3
    obtain ⟨s4, hs4, -, -, -⟩ := h3.built.removeIdentityMaps
    have hreclaim := b.reclaim_eq s4
    generalize sweepSegments _ _ _ _ _ _ = s5 at hreclaim
    refine ⟨⟨s5, virtOf true root⟩, bind_eq_ok.mpr ⟨s0, hinit,
      bind_eq_ok.mpr ⟨(root, s1), hok1, bind_eq_ok.mpr ⟨s2, hok2, bind_eq_ok.mpr ⟨s3, hok3, ?_⟩⟩⟩⟩⟩
    rw [hframe.root_identity, hs4]
    exact bind_eq_ok.mpr ⟨s5, hreclaim, rfl⟩

end BootMap

theorem tablePath_region (v : Nat) : tablePath v = tablePath (v / 2 ^ 21 * 2 ^ 21) := by
  simp only [tablePath, List.cons.injEq, tableSlot, Fin.mk.injEq, tableIndex_eq, and_true]
  omega

def bootTablePaths (regions : List Nat) : Finset TablePath :=
  regions.toFinset.biUnion fun k => prefixSet (tablePath (k * 2 ^ 21))

theorem bootTablePaths_short {regions : List Nat} : ∀ p ∈ bootTablePaths regions, p.length ≤ 3 := by
  intro p hp
  obtain ⟨k, -, hp⟩ := Finset.mem_biUnion.mp hp
  exact (mem_prefixSet.mp hp).2.length_le

theorem prefixSet_subset_bootTablePaths {regions : List Nat} {v : Nat} (h : v / 2 ^ 21 ∈ regions) :
    prefixSet (tablePath v) ⊆ bootTablePaths regions := by
  rw [tablePath_region]
  exact Finset.subset_biUnion_of_mem (fun k => prefixSet (tablePath (k * 2 ^ 21)))
    (List.mem_toFinset.mpr h)

theorem card_bootTablePaths_le (regions : List Nat) :
    (bootTablePaths regions).card ≤ 3 * regions.length := by
  have hcard : (bootTablePaths regions).card ≤ regions.toFinset.card * 3 := by
    refine Finset.card_biUnion_le_card_mul _ _ 3 fun k _ => ?_
    exact Nat.le_trans (List.toFinset_card_le _) (Nat.le_refl 3)
  have hle := List.toFinset_card_le regions
  omega

theorem BootMap.bootable_of_regions {b : BootMap} (regions : List Nat)
    (himage : b.kernelEnd < 2 ^ 64) (himage' : StaysBelow b.kernelStart b.kernelEnd)
    (hstack : StaysBelow (b.memoryMap.stackBaseAddr &&& pageMask)
      (b.memoryMap.stackBaseAddr + b.memoryMap.stackSize))
    (hfb : StaysBelow (b.framebufferInfo.framebufferAddr &&& pageMask)
      (b.framebufferInfo.framebufferAddr + b.framebufferInfo.size))
    (hin : ∀ q ∈ b.requests, q.InRange ∧ q.virtualAddr / 2 ^ 21 ∈ regions)
    (henough : 3 * regions.length < b.seeded.length) : b.Bootable (bootTablePaths regions) where
  image_lt := himage
  image_stays := himage'
  stack_stays := hstack
  framebuffer_stays := hfb
  short := bootTablePaths_short
  covered q hq := ⟨(hin q hq).1, prefixSet_subset_bootTablePaths (hin q hq).2⟩
  enough := Nat.lt_of_le_of_lt (card_bootTablePaths_le regions) henough

/-- Descriptors at `0x10000`: 48 conventional pages from `0x20000` on and two loader pages. -/
def tinyMemory : Mem :=
  let zero : Mem := fun _ => 0
  ((((((zero.write64 0x10000 7).write64 0x10008 0x20000).write64 0x10018 48).write64
    0x10030 1).write64 0x10038 0x50000).write64 0x10048 2)

theorem tinyMemory_descriptors : descriptorsFrom tinyMemory 48 2 0x10000 =
    [⟨some .efiConventionalMemory, 0x20000, 48⟩, ⟨some .efiLoaderCode, 0x50000, 2⟩] := by
  decide +kernel

def tinyBoot : BootMap where
  mem := tinyMemory
  framebufferInfo := ⟨0x90000, 32, 32, 32⟩
  memoryMap := ⟨0x10000, 96, 48, 0x60000, 0x20000⟩
  kernelStart := 0x1000
  kernelEnd := 0x3000
  descriptorSize_ge := by decide
  aligned := by
    show ∀ d ∈ descriptorsFrom tinyMemory 48 2 0x10000, _
    rw [tinyMemory_descriptors]
    decide
  in_window := by
    show ∀ d ∈ descriptorsFrom tinyMemory 48 2 0x10000, _
    rw [tinyMemory_descriptors]
    decide
  disjoint := by
    show (descriptorsFrom tinyMemory 48 2 0x10000).Pairwise _
    rw [tinyMemory_descriptors]
    simp [EfiMemoryDescriptor.Apart, EfiMemoryDescriptor.stop, pageSize]
  buffer_in_window := by decide
  kernel_range := by decide
  stack_range := by decide
  framebuffer_range := by decide

theorem tinyBoot_descriptors : tinyBoot.descriptors =
    [⟨some .efiConventionalMemory, 0x20000, 48⟩, ⟨some .efiLoaderCode, 0x50000, 2⟩] :=
  tinyMemory_descriptors

theorem tinyBoot_seeded : tinyBoot.seeded.length = 48 := by
  rw [BootMap.seeded, tinyBoot_descriptors]
  decide +kernel

theorem tinyBoot_ok : ∃ mm, tinyBoot.boot = .ok mm := by
  refine BootMap.boot_ok (BootMap.bootable_of_regions
    ([0, kernelVirtualBase, kernelPhysicalMapBase, kernelPhysicalMapBase + 0xFEE00000,
      kernelPhysicalMapBase + 0xFEC00000, kernelFramebufferVirtualBase].map (· / 2 ^ 21))
    (by decide) (by decide) (by decide) (by decide) ?_ ?_)
  · rw [BootMap.requests, BootMap.tableRequests, BootMap.windowRequests, tinyBoot_descriptors]
    decide +kernel
  · rw [tinyBoot_seeded]
    decide

end CrapOs
