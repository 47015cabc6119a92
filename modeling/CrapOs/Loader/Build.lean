import CrapOs.Loader.PageTables

/-! # The tables the loader returns

The loops of `build_page_tables` are one list of requests, followed by the
window of huge pages, which has a slot of the PML4 to itself. Outside that slot
the returned tables hold what the requests say.
-/

namespace CrapOs

open Foundation

namespace Loader

theorem whilePages_layAll {pml4 stop start : Nat} {s : LoaderState}
    {body : Nat → LoaderState → Except Halt LoaderState} {g : Nat → List MapRequest}
    (hbody : ∀ a s, body a s = .ok (layAll pml4 s (g a))) (hstop : stop ≤ 2 ^ 47) :
    whilePages body stop (pageFuel stop) start s =
      .ok (layAll pml4 s ((pagesFrom start stop).flatMap g)) := by
  have hstays : StaysBelow start stop := by
    simp only [StaysBelow, pageSize]
    omega
  rw [whilePages_eq_foldlM hstays (BootMap.le_pageFuel start stop)]
  generalize pagesFrom start stop = pages
  induction pages generalizing s with
  | nil => rfl
  | cons a pages ih =>
    rw [List.foldlM_cons, hbody, List.flatMap_cons, layAll_append]
    exact ih

theorem identityMap_eq (pml4 flags a : Nat) (s : LoaderState) :
    identityMap pml4 flags a s = .ok (layAll pml4 s (identityRequest flags a)) := by
  simp only [identityMap, identityRequest, layAll, List.foldl_cons, List.foldl_nil]

theorem mapTwice_eq (pml4 flags a : Nat) (s : LoaderState) :
    mapTwice pml4 flags a s = .ok (layAll pml4 s (bothHalves flags a)) := by
  simp only [mapTwice, bothHalves, layAll, List.foldl_cons, List.foldl_nil]

theorem mapDescriptor_eq {pml4 : Nat} {d : EfiMemoryDescriptor} {s : LoaderState}
    (hstop : d.stop ≤ 2 ^ 64) : mapDescriptor pml4 d s = layAll pml4 s d.identityRequests := by
  rw [mapDescriptor, EfiMemoryDescriptor.identityRequests]
  split
  · rw [layAll, EfiMemoryDescriptor.pages, List.map_map, List.foldl_map]
    have hrange : ∀ i ∈ List.range d.numPages,
        wrap64 (d.physicalStart + wrap64 (i * pageSize)) = d.pageAt i := by
      intro i hi
      have hpage := EfiMemoryDescriptor.pageAt_le_stop (List.mem_range.mp hi)
      exact EfiMemoryDescriptor.wrap64_pageAt (by omega)
    generalize List.range d.numPages = is at hrange
    induction is generalizing s with
    | nil => rfl
    | cons i is ih =>
      simp only [List.foldl_cons, hrange i List.mem_cons_self]
      exact ih fun j hj => hrange j (List.mem_cons_of_mem i hj)
  · rfl

end Loader

/-- A page of the first 128 TiB mapped one to one, or a page below `top` in the kernel's half. -/
structure MapRequest.Usual (top : Nat) (q : MapRequest) : Prop where
  low : q.physicalAddr < 2 ^ 47
  flags : q.flags = imageFlags ∨ q.flags = dataFlags ∨ q.flags = Flag.present
  place : q.virtualAddr = q.physicalAddr ∨
    q.virtualAddr = wrap64 (q.physicalAddr + kernelVirtualBase) ∧ q.physicalAddr < top

theorem usual_identityRequest {flags start stop : Nat} (top : Nat)
    (hflags : flags = imageFlags ∨ flags = dataFlags ∨ flags = Flag.present) (hstop : stop ≤ 2 ^ 47) :
    ∀ q ∈ (pagesFrom start stop).flatMap (identityRequest flags), q.Usual top := by
  intro q hq
  obtain ⟨a, ha, hq⟩ := List.mem_flatMap.mp hq
  have hlt := (mem_pagesFrom ha).2.1
  obtain rfl := List.mem_singleton.mp hq
  exact ⟨by simp only; omega, hflags, .inl rfl⟩

theorem usual_bothHalves {flags start stop top : Nat}
    (hflags : flags = imageFlags ∨ flags = dataFlags ∨ flags = Flag.present) (hstop : stop ≤ 2 ^ 47)
    (htop : stop ≤ top) : ∀ q ∈ (pagesFrom start stop).flatMap (bothHalves flags), q.Usual top := by
  intro q hq
  obtain ⟨a, ha, hq⟩ := List.mem_flatMap.mp hq
  have hlt := (mem_pagesFrom ha).2.1
  simp only [bothHalves, List.mem_cons, List.not_mem_nil, or_false] at hq
  rcases hq with rfl | rfl
  · exact ⟨by simp only; omega, hflags, .inl rfl⟩
  · exact ⟨by simp only; omega, hflags, .inr ⟨rfl, by simp only; omega⟩⟩

theorem usual_identityRequests {d : EfiMemoryDescriptor} (top : Nat) (hstop : d.stop ≤ 2 ^ 47) :
    ∀ q ∈ d.identityRequests, q.Usual top := by
  intro q hq
  rw [EfiMemoryDescriptor.identityRequests] at hq
  split at hq
  · obtain ⟨a, ha, rfl⟩ := List.mem_map.mp hq
    have hpage := (mem_pages ha).2.1
    refine ⟨?_, .inl rfl, .inl rfl⟩
    simp only [pageSize] at hpage ⊢
    omega
  · cases hq

theorem MapRequest.Usual.plain {top : Nat} {q : MapRequest} (h : q.Usual top) : q.Plain := by
  obtain ⟨hlow, hflags, -⟩ := h
  refine ⟨⟨by omega, ?_⟩, ?_⟩
  · rcases hflags with h | h | h <;> rw [h] <;> decide
  · rcases hflags with h | h | h <;> rw [h] <;> decide

namespace LoadPlan

open Loader

variable {l : LoadPlan} {root a : Nat} {qs qs' : List MapRequest} {s s' : LoaderState} {m : Mem}

def tablePages (l : LoadPlan) : List Nat :=
  pagesFrom l.poolBase (l.poolBase + l.poolPages * pageSize)

def imagePages (l : LoadPlan) : List Nat := pagesFrom l.kernelBuffer (l.kernelBuffer + l.kernelSize)

def stackPages (l : LoadPlan) : List Nat :=
  pagesFrom (l.kernelStackBase &&& pageMask) (l.kernelStackBase + kernelStackSize)

def framebufferPages (l : LoadPlan) : List Nat :=
  pagesFrom (l.framebufferBase &&& pageMask) (l.framebufferBase + l.framebufferSize)

def bufferPages (l : LoadPlan) : List Nat :=
  pagesFrom (l.memoryMap &&& pageMask) (l.memoryMap + l.memoryMapSize)

def rsdpPages (l : LoadPlan) : List Nat :=
  if l.rsdpAddr = 0 then [] else [l.rsdpAddr &&& pageMask]

def tableRequests (l : LoadPlan) : List MapRequest := l.tablePages.flatMap (identityRequest imageFlags)

def laterRequests (l : LoadPlan) : List MapRequest :=
  l.imagePages.flatMap (bothHalves imageFlags) ++ l.stackPages.flatMap (bothHalves dataFlags) ++
    l.framebufferPages.flatMap (identityRequest imageFlags) ++
    l.bufferPages.flatMap (identityRequest imageFlags) ++
    l.rsdpPages.flatMap (identityRequest Flag.present)

def requests (l : LoadPlan) : List MapRequest :=
  l.tableRequests ++ l.descriptors.flatMap EfiMemoryDescriptor.identityRequests ++ l.laterRequests

theorem requests_usual {top : Nat} (himage : l.kernelBuffer + l.kernelSize ≤ top)
    (hstack : l.kernelStackBase + kernelStackSize ≤ top) : ∀ q ∈ l.requests, q.Usual top := by
  have hkernel := l.kernel_low
  intro q hq
  simp only [requests, tableRequests, laterRequests, List.mem_append] at hq
  rcases hq with (hq | hq) | ((((hq | hq) | hq) | hq) | hq)
  · exact usual_identityRequest top (.inl rfl) l.pool_low q hq
  · obtain ⟨d, hd, hq⟩ := List.mem_flatMap.mp hq
    exact usual_identityRequests top (l.descriptors_low d hd) q hq
  · exact usual_bothHalves (.inl rfl) (by omega) himage q hq
  · exact usual_bothHalves (.inr (.inl rfl)) l.stack_low hstack q hq
  · exact usual_identityRequest top (.inl rfl) l.framebuffer_low q hq
  · exact usual_identityRequest top (.inl rfl) l.buffer_low q hq
  · rw [rsdpPages] at hq
    split at hq
    · cases hq
    · have hlow := l.rsdp_low
      have hle := and_pageMask_le l.rsdpAddr
      obtain rfl : q = ⟨l.rsdpAddr &&& pageMask, l.rsdpAddr &&& pageMask, Flag.present⟩ := by
        simpa [identityRequest] using hq
      exact ⟨by simp only; omega, .inr (.inr rfl), .inl rfl⟩

theorem requests_plain : ∀ q ∈ l.requests, q.Plain :=
  fun q hq => (requests_usual (Nat.le_max_left _ _) (Nat.le_max_right _ _) q hq).plain

theorem Laid.agreeOn (h : l.Laid root qs s) {n : Nat}
    (hout : a + n ≤ l.poolBase ∨ l.poolBase + l.poolPages * pageSize ≤ a) :
    Mem.AgreeOn l.mem s.mem a n := by
  apply h.writes.agreeOn
  rintro _ ⟨i, hi, rfl⟩
  simp only [pageSize] at hout ⊢
  omega

theorem Laid.mapDescriptors_eq (h : l.Laid root qs s) (count : Nat) {desc : Nat}
    {ds : List EfiMemoryDescriptor} (hds : descriptorsFrom l.mem l.descriptorSize count desc = ds)
    (hlow : ∀ d ∈ ds, d.stop ≤ 2 ^ 47) (hend : desc + count * l.descriptorSize ≤ 2 ^ 47)
    (hout : desc + count * l.descriptorSize ≤ l.poolBase ∨
      l.poolBase + l.poolPages * pageSize ≤ desc)
    (hroom : (mapDescriptors root l.descriptorSize count desc s).pool.Room ∨
      (Loader.layAll root s (ds.flatMap EfiMemoryDescriptor.identityRequests)).pool.Room) :
    mapDescriptors root l.descriptorSize count desc s =
      Loader.layAll root s (ds.flatMap EfiMemoryDescriptor.identityRequests) := by
  have hsize := l.descriptorSize_ge
  induction count generalizing desc s qs ds with
  | zero =>
    subst hds
    rfl
  | succ count ih =>
    subst hds
    rw [descriptorsFrom] at hlow hroom ⊢
    rw [Nat.succ_mul] at hend hout
    have hread : EfiMemoryDescriptor.ofBytes s.mem desc = EfiMemoryDescriptor.ofBytes l.mem desc :=
      EfiMemoryDescriptor.ofBytes_congr (h.agreeOn (by omega))
    have hfirst := hlow _ List.mem_cons_self
    obtain ⟨s1, hs1⟩ : ∃ s1, Loader.layAll root s
      (EfiMemoryDescriptor.ofBytes l.mem desc).identityRequests = s1 := ⟨_, rfl⟩
    have hwrap : wrap64 (desc + l.descriptorSize) = desc + l.descriptorSize :=
      wrap64_of_lt (by omega)
    rw [List.flatMap_cons, layAll_append, hs1] at hroom ⊢
    rw [mapDescriptors, hread, Loader.mapDescriptor_eq (by omega), hs1, hwrap] at hroom ⊢
    have hroom1 : s1.pool.Room := by
      rcases hroom with hroom | hroom
      · exact hroom.before (mapDescriptors_before _ _ _ _ _)
      · exact hroom.before (layAll_before _ _ _)
    have hlaid := h.layAll (fun q hq => (usual_identityRequests 0 hfirst q hq).plain)
      (hs1 ▸ hroom1)
    rw [hs1] at hlaid
    exact ih hlaid rfl (fun d hd => hlow d (List.mem_cons_of_mem _ hd)) (by omega) (by omega) hroom

def windowSlot : Fin 512 := tableSlot 39 kernelPhysicalMapBase

/-- `s` differs from `s0` in pages the pool still had and in the window's slot only. -/
structure Kept (l : LoadPlan) (root : Nat) (s0 s : LoaderState) : Prop where
  base : s.pool.base = l.poolBase
  cap : s.pool.cap = l.poolPages
  free : ∀ f ∈ s.pool.free, f ∈ s0.pool.free
  entry : ∀ t i, IsFrame t → t ∉ s0.pool.free → ¬ (t = root ∧ i = windowSlot) →
    tableEntry s.mem t i = tableEntry s0.mem t i

variable {s0 : LoaderState} {f : Nat}

theorem isFrame_of_free (hbase : s.pool.base = l.poolBase) (hcap : s.pool.cap = l.poolPages)
    (hne : l.poolBase ≠ 0) (hf : f ∈ s.pool.free) : IsFrame f := by
  obtain ⟨i, -, hi, rfl⟩ := PagePool.mem_free hf
  exact IsPoolPage.isFrame ⟨i, hcap ▸ hi, by rw [hbase]⟩ hne

theorem poolAlloc_of_ne_zero (hbase : s.pool.base = l.poolBase) (hcap : s.pool.cap = l.poolPages)
    (hrun : poolAlloc s = (f, s')) (hf : f ≠ 0) :
    s.pool.Room ∧ s.pool.free = f :: s'.pool.free ∧
      s'.pool = { s.pool with used := s.pool.used + 1 } ∧ s'.mem = clearWords s.mem f 512 := by
  by_cases hroom : s.pool.used < s.pool.cap
  · rw [poolAlloc_of_room hbase hcap hroom] at hrun
    obtain ⟨hpage, hstate⟩ := Prod.mk.inj hrun
    rw [← hpage, ← hstate]
    refine ⟨hroom, PagePool.free_cons hroom, rfl, ?_⟩
    dsimp only
  · rw [poolAlloc_of_full (Nat.le_of_not_lt hroom)] at hrun
    cases hrun
    exact absurd rfl hf

theorem Kept.alloc (h : Kept l root s0 s) (hne : l.poolBase ≠ 0) (hrun : poolAlloc s = (f, s'))
    (hf : f ≠ 0) : IsFrame f ∧ f ∈ s0.pool.free ∧ Kept l root s0 s' := by
  obtain ⟨-, hfree, hpool, hmem⟩ := poolAlloc_of_ne_zero h.base h.cap hrun hf
  have hin : f ∈ s.pool.free := hfree ▸ List.mem_cons_self
  have hframe := isFrame_of_free h.base h.cap hne hin
  refine ⟨hframe, h.free f hin, by rw [hpool]; exact h.base, by rw [hpool]; exact h.cap, ?_, ?_⟩
  · intro a ha
    exact h.free a (hfree ▸ List.mem_cons_of_mem f ha)
  · intro t i ht hout hslot
    have htf : t ≠ f := fun heq => hout (heq ▸ h.free f hin)
    rw [hmem, tableEntry_clearWords_other _ ht hframe htf, h.entry t i ht hout hslot]

theorem Kept.write (h : Kept l root s0 s) (hframe : IsFrame f) (hf : f ∈ s0.pool.free)
    {j : Nat} (hj : j < 512) (v : Nat) :
    Kept l root s0 ⟨s.pool, s.mem.write64 (f + j * 8) v⟩ := by
  refine ⟨h.base, h.cap, h.free, fun t i ht hout hslot => ?_⟩
  have hne : ¬ (t = f ∧ i = ⟨j, hj⟩) := fun heq => hout (heq.1 ▸ hf)
  rw [Nat.mul_comm j 8]
  exact (tableEntry_write_other s.mem v ht hframe hne).trans (h.entry t i ht hout hslot)

theorem ptIndex_four (v : Nat) : Loader.ptIndex v 4 = (tableSlot 39 v).val := rfl

theorem Kept.write_slot (h : Kept l root s0 s) (hroot : IsFrame root) (v : Nat) :
    Kept l root s0 ⟨s.pool, s.mem.write64 (root + Loader.ptIndex kernelPhysicalMapBase 4 * 8) v⟩ := by
  refine ⟨h.base, h.cap, h.free, fun t i ht hout hslot => ?_⟩
  exact (tableEntry_write_other s.mem v ht hroot hslot).trans (h.entry t i ht hout hslot)

theorem Kept.writes (h : Kept l root s0 s) (hframe : IsFrame f) (hf : f ∈ s0.pool.free)
    (g : Nat → Nat) {is : List Nat} (his : ∀ i ∈ is, i < 512) :
    Kept l root s0 ⟨s.pool, is.foldl (fun m i => m.write64 (f + i * 8) (g i)) s.mem⟩ := by
  induction is generalizing s with
  | nil => exact h
  | cons i is ih =>
    exact ih (h.write hframe hf (his i List.mem_cons_self) (g i))
      fun j hj => his j (List.mem_cons_of_mem i hj)

theorem Kept.mapGigabyte (h : Kept l root s0 s) (hne : l.poolBase ≠ 0) (hframe : IsFrame f)
    (hf : f ∈ s0.pool.free) {i : Nat} (hi : i < 512) (hok : mapGigabyte f s i = some s') :
    Kept l root s0 s' := by
  obtain ⟨⟨pd, s1⟩, halloc⟩ : ∃ r, poolAlloc s = r := ⟨_, rfl⟩
  simp only [Loader.mapGigabyte, halloc] at hok
  split at hok
  · cases hok
  · rename_i hpd
    cases hok
    obtain ⟨hpdframe, hpdfree, h1⟩ := h.alloc hne halloc hpd
    exact (h1.write hframe hf hi _).writes hpdframe hpdfree _ fun j hj => List.mem_range.mp hj

theorem Kept.mapGigabytes (h : Kept l root s0 s) (hne : l.poolBase ≠ 0) (hframe : IsFrame f)
    (hf : f ∈ s0.pool.free) {is : List Nat} (his : ∀ i ∈ is, i < 512)
    (hok : is.foldlM (Loader.mapGigabyte f) s = some s') : Kept l root s0 s' := by
  induction is generalizing s with
  | nil =>
    cases hok
    exact h
  | cons i is ih =>
    obtain ⟨s1, hfirst, hrest⟩ := Option.bind_eq_some_iff.mp hok
    exact ih (h.mapGigabyte hne hframe hf (his i List.mem_cons_self) hfirst)
      (fun j hj => his j (List.mem_cons_of_mem i hj)) hrest

theorem mapWindow_room (hok : mapWindow s root = some s') : s.pool.Room := by
  by_contra hfull
  simp only [mapWindow, poolAlloc_of_full (Nat.le_of_not_lt hfull), if_true] at hok
  cases hok

theorem Laid.mapWindow (h : l.Laid root qs s) (hok : mapWindow s root = some s') (i : Fin 512)
    (p : TablePath) (hi : i ≠ windowSlot) (hp : (i :: p).length ≤ 4) :
    entryAt s'.mem root (i :: p) = entryAt s.mem root (i :: p) := by
  have hroot := h.tree.frames [] root (by simp) rfl
  have hoff := h.tree.off [] root (by simp) rfl
  obtain ⟨⟨pdpt, s1⟩, halloc⟩ : ∃ r, poolAlloc s = r := ⟨_, rfl⟩
  simp only [Loader.mapWindow, halloc] at hok
  split at hok
  · cases hok
  rename_i hpdpt
  have hstart : Kept l root s s := ⟨h.base, h.cap, fun _ hf => hf, fun _ _ _ _ _ => rfl⟩
  obtain ⟨hframe, hfree, h1⟩ := hstart.alloc h.nonzero halloc hpdpt
  have hkept := (h1.write_slot hroot _).mapGigabytes h.nonzero hframe hfree
    (fun i hi => by have hlt := List.mem_range.mp hi; omega) hok
  refine entryAt_congr_slot (hkept.entry root i hroot hoff fun heq => hi heq.2)
    (fun q t j hq ht => ?_) hp
  refine hkept.entry t j (h.tree.frames _ t hq ht) (h.tree.off _ t hq ht) fun heq => ?_
  exact h.tree.ne_of_length (q := []) hq (by simp) ht rfl (by simp) heq.1

/-- The cleared PML4, which is the first page of the pool. -/
theorem Laid.start (hne : l.poolBase ≠ 0) (hpages : 0 < l.poolPages) :
    ∃ s, poolAlloc ⟨⟨l.poolBase, 0, l.poolPages⟩,
        clearWords l.mem l.poolBase (wrap64 (l.poolPages * 512))⟩ = (l.poolBase, s) ∧
      s.pool.used = 1 ∧ l.Laid l.poolBase [] s := by
  have hlow := l.pool_low
  have hwrap : wrap64 (l.poolPages * 512) = l.poolPages * 512 := by
    apply wrap64_of_lt
    simp only [pageSize] at hlow
    omega
  obtain ⟨m0, hm0⟩ : ∃ m0, clearWords l.mem l.poolBase (l.poolPages * 512) = m0 := ⟨_, rfl⟩
  have hroom : (⟨⟨l.poolBase, 0, l.poolPages⟩, m0⟩ : LoaderState).pool.used <
    (⟨⟨l.poolBase, 0, l.poolPages⟩, m0⟩ : LoaderState).pool.cap := hpages
  have halloc := poolAlloc_of_room (l := l) (s := ⟨⟨l.poolBase, 0, l.poolPages⟩, m0⟩) rfl rfl hroom
  have hfree := PagePool.free_cons hroom
  simp only [Nat.zero_mul, Nat.add_zero, Nat.zero_add] at halloc hfree
  have hpage : l.IsPoolPage l.poolBase := ⟨0, hpages, by rw [Nat.zero_mul, Nat.add_zero]⟩
  have hroot := hpage.isFrame hne
  obtain ⟨m1, hm1⟩ : ∃ m1, clearWords m0 l.poolBase 512 = m1 := ⟨_, rfl⟩
  rw [hm1] at halloc
  rw [hwrap, hm0]
  refine ⟨_, halloc, rfl, ?_⟩
  have hempty : ∀ i, tableEntry m1 l.poolBase i &&& Flag.present = 0 := fun i => by
    rw [← hm1, tableEntry_clearWords]
    rfl
  have hoff : l.poolBase ∉ (⟨l.poolBase, 1, l.poolPages⟩ : PagePool).free := by
    intro hin
    obtain ⟨i, hi, -, heq⟩ := PagePool.mem_free hin
    simp only [pageSize] at hi heq
    omega
  refine ⟨hne, rfl, rfl, pageTree_of_empty hroot hoff hempty, ?_, fun p _ => entryAt_of_empty hempty p,
    ?_, ?_⟩
  · intro p t _ ht
    rw [(tableAt_of_empty hempty ht).2]
    exact hpage
  · intro p e _ he
    rw [entryAt_of_empty hempty p] at he
    cases he
  · intro x hx
    have hlast := hx (l.poolBase + (x - l.poolBase) / pageSize * pageSize)
    have hout : x < l.poolBase ∨ l.poolBase + l.poolPages * pageSize ≤ x := by
      by_contra hin
      have hpool : l.IsPoolPage (l.poolBase + (x - l.poolBase) / pageSize * pageSize) := by
        refine ⟨(x - l.poolBase) / pageSize, ?_, rfl⟩
        simp only [pageSize] at hin ⊢
        omega
      have hfar := hlast hpool
      simp only [pageSize] at hin hfar
      omega
    simp only [pageSize] at hout
    show m1 x = l.mem x
    rw [← hm1, clearWords_apply, if_neg (by omega), ← hm0, clearWords_apply, if_neg (by omega)]

def mapped (l : LoadPlan) (s : LoaderState) : LoaderState :=
  layAll l.poolBase (mapDescriptors l.poolBase l.descriptorSize (l.memoryMapSize / l.descriptorSize)
    l.memoryMap (layAll l.poolBase s l.tableRequests)) l.laterRequests

theorem build_eq (hne : l.poolBase ≠ 0) (hpages : 0 < l.poolPages) :
    ∃ s, s.pool.used = 1 ∧ l.Laid l.poolBase [] s ∧
      l.build = .ok ((mapWindow (l.mapped s) l.poolBase).map fun s => (l.poolBase, s.mem)) := by
  obtain ⟨s, halloc, hused, hlaid⟩ := Laid.start hne hpages
  refine ⟨s, hused, hlaid, ?_⟩
  have hpool := l.pool_low
  have hkernel := l.kernel_low
  have hstack := l.stack_low
  have hfb := l.framebuffer_low
  have hbuf := l.buffer_low
  have hwrap : wrap64 (l.poolPages * pageSize) = l.poolPages * pageSize := wrap64_of_lt (by omega)
  have hrsdp : ∀ s, (if l.rsdpAddr = 0 then s
      else mapPagePool s l.poolBase (l.rsdpAddr &&& pageMask) (l.rsdpAddr &&& pageMask) Flag.present) =
        layAll l.poolBase s (l.rsdpPages.flatMap (identityRequest Flag.present)) := by
    intro s
    rw [rsdpPages]
    split <;> rfl
  rw [mapped, laterRequests, layAll_append, layAll_append, layAll_append, layAll_append, build,
    buildPageTables]
  simp only [halloc, if_neg hne, hwrap, wrap64_of_lt (Nat.lt_of_le_of_lt hpool (by decide)),
    wrap64_of_lt (Nat.lt_of_le_of_lt hkernel (by decide)),
    wrap64_of_lt (Nat.lt_of_le_of_lt hstack (by decide)),
    wrap64_of_lt (Nat.lt_of_le_of_lt hfb (by decide)),
    wrap64_of_lt (Nat.lt_of_le_of_lt hbuf (by decide)), whilePages_layAll (identityMap_eq _ _) hpool,
    whilePages_layAll (mapTwice_eq _ _) (Nat.le_trans hkernel (by decide)),
    whilePages_layAll (mapTwice_eq _ _) hstack, whilePages_layAll (identityMap_eq _ _) hfb,
    whilePages_layAll (identityMap_eq _ _) hbuf, hrsdp]
  rfl

theorem Laid.mapped_eq (h : l.Laid l.poolBase [] s)
    (hroom : (l.mapped s).pool.Room ∨ (Loader.layAll l.poolBase s l.requests).pool.Room) :
    l.mapped s = Loader.layAll l.poolBase s l.requests := by
  have hlow := l.buffer_low
  have hapart := l.buffer_apart
  have hdiv := Nat.div_mul_le_self l.memoryMapSize l.descriptorSize
  rw [mapped, requests, layAll_append, layAll_append] at hroom ⊢
  obtain ⟨s1, hs1⟩ : ∃ s1, Loader.layAll l.poolBase s l.tableRequests = s1 := ⟨_, rfl⟩
  rw [hs1] at hroom ⊢
  have hroom' := hroom.imp (fun h => h.before (layAll_before _ _ _)) fun h =>
    h.before (layAll_before _ _ _)
  have hroom1 : s1.pool.Room := by
    rcases hroom' with hroom | hroom
    · exact hroom.before (mapDescriptors_before _ _ _ _ _)
    · exact hroom.before (layAll_before _ _ _)
  have hplain : ∀ q ∈ l.tableRequests, q.Plain := by
    intro q hq
    apply requests_plain
    simp only [requests, List.mem_append]
    exact .inl (.inl hq)
  have hlaid := h.layAll hplain (hs1 ▸ hroom1)
  rw [hs1] at hlaid
  rw [hlaid.mapDescriptors_eq _ rfl l.descriptors_low (by omega) (by omega) hroom']
  rfl

/-- What the returned tables hold outside the window's slot. -/
structure Loaded (l : LoadPlan) (root : Nat) (m : Mem) : Prop where
  leaf : ∀ (i : Fin 512) (p : TablePath), i ≠ windowSlot → (i :: p).length = 4 →
    entryAt m root (i :: p) = lastLeaf l.requests (i :: p)
  inner : ∀ (i : Fin 512) (p : TablePath) (e : Nat), i ≠ windowSlot → (i :: p).length ≤ 3 →
    entryAt m root (i :: p) = some e → ∃ f, IsFrame f ∧ e = f ||| intermediateFlags false

theorem build_eq_none (h : l.poolBase = 0 ∨ l.poolPages = 0) : l.build = .ok none := by
  have hzero : ∀ m, (poolAlloc ⟨⟨l.poolBase, 0, l.poolPages⟩, m⟩).1 = 0 := by
    intro m
    unfold poolAlloc
    split
    · rfl
    · rename_i hroom
      rcases h with h | h
      · simp only [h, Nat.zero_mul, Nat.add_zero]
        rfl
      · simp only [h] at hroom
        omega
  obtain ⟨r, hr⟩ : ∃ r, poolAlloc ⟨⟨l.poolBase, 0, l.poolPages⟩,
    clearWords l.mem l.poolBase (wrap64 (l.poolPages * 512))⟩ = r := ⟨_, rfl⟩
  have hr1 : r.1 = 0 := hr ▸ hzero _
  rw [build, buildPageTables]
  simp only [hr, if_pos hr1]
  rfl

theorem build_laid (hok : l.build = .ok (some (root, m))) :
    ∃ s s', l.Laid root l.requests s ∧ Loader.mapWindow s root = some s' ∧ s'.mem = m := by
  by_cases hpool : l.poolBase = 0 ∨ l.poolPages = 0
  · rw [build_eq_none hpool] at hok
    cases hok
  rw [not_or] at hpool
  obtain ⟨s, -, hstart, hbuild⟩ := build_eq hpool.1 (Nat.pos_of_ne_zero hpool.2)
  rw [hbuild] at hok
  obtain ⟨s', hwindow, hresult⟩ := Option.map_eq_some_iff.mp (Except.ok.inj hok)
  cases hresult
  have hroom := mapWindow_room hwindow
  have hmapped := hstart.mapped_eq (.inl hroom)
  have hlaid := hstart.layAll requests_plain (hmapped ▸ hroom)
  rw [hmapped] at hwindow
  rw [List.nil_append] at hlaid
  exact ⟨_, s', hlaid, hwindow, rfl⟩

theorem build_loaded (hok : l.build = .ok (some (root, m))) : l.Loaded root m := by
  obtain ⟨s, s', hlaid, hwindow, rfl⟩ := build_laid hok
  have hsame := hlaid.mapWindow hwindow
  refine ⟨fun i p hi hp => ?_, fun i p e hi hp he => ?_⟩
  · rw [hsame i p hi hp.le, hlaid.leaf _ hp]
  · rw [hsame i p hi (by omega)] at he
    exact hlaid.inner _ e hp he

variable {T : Finset TablePath} {n t : Nat} {p : TablePath}

/-- The pages taken so far and those the tables of `T` still need. -/
def demand (T : Finset TablePath) (root : Nat) (s : LoaderState) : Nat :=
  s.pool.used + (absentIn s.mem root T).card

/-- No allocation has failed or will fail for the tables of `T`. -/
structure Supplied (l : LoadPlan) (T : Finset TablePath) (n root : Nat) (qs : List MapRequest)
    (s : LoaderState) : Prop where
  laid : l.Laid root qs s
  demand : demand T root s ≤ n

theorem Supplied.room (h : l.Supplied T n root qs s) (hn : n < l.poolPages) : s.pool.Room := by
  have hdemand := h.demand
  have hcap := h.laid.cap
  rw [LoadPlan.demand] at hdemand
  rw [PagePool.Room]
  omega

theorem Supplied.openTable (h : l.Supplied T n root qs s) (hn : n < l.poolPages)
    (hT : ∀ q ∈ T, q.length ≤ 3) (hp : p.length < 3) (ht : tableAt s.mem root p = some t)
    {i : Fin 512} (hin : p ++ [i] ∈ T) :
    ∃ u s', openTable s (t + i.val * 8) = (u, s') ∧ tableAt s'.mem root (p ++ [i]) = some u ∧
      l.Supplied T n root qs s' := by
  rcases h.laid.openTable_cases hp ht i with ⟨u, hopen, htable⟩ | ⟨hfull, -⟩ |
    ⟨u, s', hopen, htable, habs, hhung, hlaid⟩
  · exact ⟨u, s, hopen, htable, h⟩
  · have hroom := h.room hn
    rw [PagePool.Room] at hroom
    omega
  · refine ⟨u, s', hopen, htable, hlaid, ?_⟩
    obtain ⟨f, -, hedit⟩ := hhung.entry
    -- the new table is one of those that were missing
    have herase : absentIn s'.mem root T = (absentIn s.mem root T).erase (p ++ [i]) := by
      ext q
      simp only [absentIn, Finset.mem_filter, Finset.mem_erase]
      constructor
      · rintro ⟨hq, hnone⟩
        rw [hedit q (by have := hT q hq; omega)] at hnone
        split at hnone
        · cases hnone
        · rename_i hne
          exact ⟨hne, hq, hnone⟩
      · rintro ⟨hne, hq, hnone⟩
        rw [hedit q (by have := hT q hq; omega), if_neg hne]
        exact ⟨hq, hnone⟩
    have hmem : p ++ [i] ∈ absentIn s.mem root T := Finset.mem_filter.mpr ⟨hin, habs⟩
    have hpos := Finset.card_pos.mpr ⟨_, hmem⟩
    have hdemand := h.demand
    rw [LoadPlan.demand] at hdemand ⊢
    rw [herase, Finset.card_erase_of_mem hmem, hhung.pool]
    show s.pool.used + 1 + _ ≤ n
    omega

theorem Supplied.mapPagePool (h : l.Supplied T n root qs s) (hn : n < l.poolPages)
    (hT : ∀ q ∈ T, q.length ≤ 3) {q : MapRequest} (hq : q.Plain)
    (hsub : prefixSet (tablePath q.virtualAddr) ⊆ T) :
    l.Supplied T n root (qs ++ [q]) (mapPagePool s root q.virtualAddr q.physicalAddr q.flags) := by
  have hin : ∀ p : TablePath, p ≠ [] → p <+: tablePath q.virtualAddr → p ∈ T :=
    fun p hne hpre => hsub (mem_prefixSet.mpr ⟨hne, hpre⟩)
  obtain ⟨pdpt, s1, h1, ht1, hs1⟩ := h.openTable hn hT (p := []) (by simp) rfl
    (hin _ (by simp) ⟨[tableSlot 30 q.virtualAddr, tableSlot 21 q.virtualAddr], rfl⟩)
  obtain ⟨pd, s2, h2, ht2, hs2⟩ := hs1.openTable hn hT (by simp) ht1
    (hin _ (by simp) ⟨[tableSlot 21 q.virtualAddr], rfl⟩)
  obtain ⟨pt, s3, h3, ht3, hs3⟩ := hs2.openTable hn hT (by simp) ht2
    (hin _ (by simp) ⟨[], rfl⟩)
  obtain ⟨m', hm', hinner, hlaid⟩ := hs3.laid.setLeaf hq ht3
  rw [mapPagePool_eq h1 h2 h3, hm']
  refine ⟨hlaid, ?_⟩
  have hsame : absentIn m' root T = absentIn s3.mem root T := by
    refine Finset.filter_congr fun p hp => ?_
    rw [hinner p (hT p hp)]
  have hdemand := hs3.demand
  rw [LoadPlan.demand] at hdemand ⊢
  rw [hsame]
  exact hdemand

theorem Supplied.layAll (h : l.Supplied T n root qs s) (hn : n < l.poolPages)
    (hT : ∀ q ∈ T, q.length ≤ 3)
    (hqs : ∀ q ∈ qs', q.Plain ∧ prefixSet (tablePath q.virtualAddr) ⊆ T) :
    l.Supplied T n root (qs ++ qs') (layAll root s qs') := by
  induction qs' generalizing qs s with
  | nil =>
    rw [List.append_nil]
    exact h
  | cons q qs' ih =>
    obtain ⟨hplain, hsub⟩ := hqs q List.mem_cons_self
    have hrest := ih (h.mapPagePool hn hT hplain hsub) fun r hr => hqs r (List.mem_cons_of_mem q hr)
    rwa [List.append_assoc] at hrest

theorem mapGigabytes_ok (hne : l.poolBase ≠ 0) {is : List Nat} (hbase : s.pool.base = l.poolBase)
    (hcap : s.pool.cap = l.poolPages) (henough : s.pool.used + is.length ≤ s.pool.cap) :
    ∃ s', is.foldlM (mapGigabyte t) s = some s' := by
  induction is generalizing s with
  | nil => exact ⟨s, rfl⟩
  | cons i is ih =>
    rw [List.length_cons] at henough
    have halloc := poolAlloc_of_room hbase hcap (by omega)
    rw [List.foldlM_cons]
    simp only [mapGigabyte, halloc, hbase]
    rw [if_neg (by omega)]
    exact ih rfl hcap (by simp only; omega)

theorem mapWindow_ok (root : Nat) (hne : l.poolBase ≠ 0) (hbase : s.pool.base = l.poolBase)
    (hcap : s.pool.cap = l.poolPages) (henough : s.pool.used + 5 ≤ s.pool.cap) :
    ∃ s', mapWindow s root = some s' := by
  have halloc := poolAlloc_of_room hbase hcap (by omega)
  simp only [mapWindow, halloc, hbase]
  rw [if_neg (by omega)]
  exact mapGigabytes_ok hne rfl hcap (by simp only [List.length_range]; omega)

theorem build_ok (hne : l.poolBase ≠ 0) (hT : ∀ q ∈ T, q.length ≤ 3)
    (hcovered : ∀ q ∈ l.requests, prefixSet (tablePath q.virtualAddr) ⊆ T)
    (henough : T.card + 6 ≤ l.poolPages) : ∃ m, l.build = .ok (some (l.poolBase, m)) := by
  obtain ⟨s, hused, hstart, hbuild⟩ := build_eq hne (by omega)
  have hsupplied : l.Supplied T (T.card + 1) l.poolBase [] s := by
    refine ⟨hstart, ?_⟩
    have hle : (absentIn s.mem l.poolBase T).card ≤ T.card := Finset.card_filter_le _ _
    rw [demand]
    omega
  have hn : T.card + 1 < l.poolPages := by omega
  have hall := hsupplied.layAll hn hT fun q hq => ⟨requests_plain q hq, hcovered q hq⟩
  have hmapped := hstart.mapped_eq (.inr (hall.room hn))
  have hdemand := hall.demand
  have hcap := hall.laid.cap
  rw [demand] at hdemand
  obtain ⟨s', hwindow⟩ := mapWindow_ok l.poolBase hne hall.laid.base hall.laid.cap (by omega)
  refine ⟨s'.mem, ?_⟩
  rw [hbuild, hmapped, hwindow]
  rfl

end LoadPlan

end CrapOs
