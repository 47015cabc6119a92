import CrapOs.Loader.Exhaustion

/-! # What the returned tables translate

The requests and the window make one tree. A walk through it that stops at huge pages
comes to the address itself in the lower half, to the physical address in the two windows
of the upper half, for all that `build_page_tables` is asked to map.
-/

namespace CrapOs

open Foundation

/-- The address the hardware comes to, through a page of 1 GiB, 2 MiB or 4 KiB. -/
def resolve (m : Mem) (root v : Nat) : Option Nat := do
  let pdpte ← entryAt m root [tableSlot 39 v, tableSlot 30 v]
  if pdpte &&& Flag.huge ≠ 0 then return pdpte % 2 ^ 52 / 2 ^ 30 * 2 ^ 30 + v % 2 ^ 30
  let pde ← entryAt m root [tableSlot 39 v, tableSlot 30 v, tableSlot 21 v]
  if pde &&& Flag.huge ≠ 0 then return pde % 2 ^ 52 / 2 ^ 21 * 2 ^ 21 + v % 2 ^ 21
  let pte ← entryAt m root (pagePath v)
  return frameOf pte + v % pageSize

theorem MapsTo.resolve_eq {m : Mem} {root v a : Nat} (h : MapsTo m root v a) : resolve m root v = some a := by
  obtain ⟨w, hw, hpdpte, hpde, ha⟩ := h
  unfold walk at hw
  simp only [Option.bind_eq_bind, Option.bind_eq_some_iff] at hw
  obtain ⟨pml4e, -, pdpte, h2, pde, h3, pte, h4, hw⟩ := hw
  cases hw
  have h2' : entryAt m root [tableSlot 39 v, tableSlot 30 v] = some pdpte := h2
  have h3' : entryAt m root [tableSlot 39 v, tableSlot 30 v, tableSlot 21 v] = some pde := h3
  simp [resolve, h2', h3', h4, hpdpte, hpde, ha]

theorem resolve_huge {m : Mem} {root v pdpte pde : Nat}
    (hpdpte : entryAt m root [tableSlot 39 v, tableSlot 30 v] = some pdpte) (hsmall : pdpte &&& Flag.huge = 0)
    (hpde : entryAt m root [tableSlot 39 v, tableSlot 30 v, tableSlot 21 v] = some pde)
    (hhuge : pde &&& Flag.huge ≠ 0) :
    resolve m root v = some (pde % 2 ^ 52 / 2 ^ 21 * 2 ^ 21 + v % 2 ^ 21) := by
  simp [resolve, hpdpte, hsmall, hpde, hhuge]

/-- The `size` bytes from the beginning of the page of `start`. As the firmware gives out whole pages
these are the bytes from `start` on. -/
def InPages (start size a : Nat) : Prop :=
  start / pageSize * pageSize ≤ a ∧ a < start / pageSize * pageSize + size

theorem inPages_iff {start size a : Nat} (hal : start % pageSize = 0) :
    InPages start size a ↔ start ≤ a ∧ a < start + size := by
  unfold InPages
  rw [Nat.div_mul_cancel (Nat.dvd_of_mod_eq_zero hal)]

theorem exists_pageFrom {start stop a : Nat} (hlow : start / pageSize * pageSize ≤ a)
    (hhigh : a + start % pageSize < stop) : ∃ p ∈ pagesFrom start stop, p / pageSize = a / pageSize := by
  refine ⟨start + (a / pageSize - start / pageSize) * pageSize, pagesFrom_mem ?_, ?_⟩
  · simp only [pageSize] at *
    omega
  · simp only [pageSize] at *
    omega

theorem InPages.exists_pageFrom {start size a : Nat} (h : InPages start size a) :
    ∃ p ∈ pagesFrom start (start + size), p / pageSize = a / pageSize := by
  have hsplit := Nat.div_add_mod' start pageSize
  have hhigh := h.2
  exact CrapOs.exists_pageFrom h.1 (by omega)

theorem exists_pageFrom_masked {start stop a : Nat} (hword : start < 2 ^ 64) (hlow : start ≤ a)
    (hhigh : a < stop) : ∃ p ∈ pagesFrom (start &&& pageMask) stop, p / pageSize = a / pageSize := by
  have hmask := and_pageMask hword
  apply exists_pageFrom
  · rw [hmask]
    simp only [pageSize]
    omega
  · rw [hmask]
    simp only [pageSize]
    omega

theorem InPages.exists_descriptorPage {d : EfiMemoryDescriptor} {a : Nat}
    (h : InPages d.physicalStart (d.numPages * pageSize) a) : ∃ p ∈ d.pages, p / pageSize = a / pageSize := by
  obtain ⟨hlow, hhigh⟩ := h
  refine ⟨d.pageAt (a / pageSize - d.physicalStart / pageSize),
    List.mem_map.mpr ⟨_, List.mem_range.mpr ?_, rfl⟩, ?_⟩
  · simp only [pageSize] at *
    omega
  · simp only [EfiMemoryDescriptor.pageAt, pageSize] at *
    omega

namespace LoadPlan

open Loader

variable {l : LoadPlan} {root pdpt : Nat} {m : Mem} {qs : List MapRequest} {s s' : LoaderState}

theorem Loaded.resolve_eq (h : l.Loaded root m) (hlow : l.kernelStackBase + kernelStackSize ≤ 2 ^ 31)
    {v a : Nat} (hv : Shows v a) {q : MapRequest} (hq : q ∈ l.requests)
    (hpage : q.virtualAddr / pageSize = v / pageSize) : resolve m root v = some a :=
  (mapsTo_of_straight (h.leaf _ _ hv.slot_ne rfl) (fun p e hp he => h.inner _ p e hv.slot_ne hp he)
    (requests_straight hlow) hv hq (pagePath_of_page hpage)).resolve_eq

def hugeEntry (phys : Nat) : Nat := phys ||| Flag.present ||| Flag.writable ||| Flag.huge

theorem hugeEntry_and (phys : Nat) {flag : Nat}
    (h : (Flag.present ||| (Flag.writable ||| Flag.huge)) &&& flag ≠ 0) : hugeEntry phys &&& flag ≠ 0 := by
  unfold hugeEntry
  rw [Nat.or_assoc, Nat.or_assoc]
  exact or_and_ne_zero h

theorem hugeEntry_eq (n : Nat) : hugeEntry (n * 0x200000) = n * 0x200000 + 131 := by
  have haligned : 2 ^ 21 ∣ n * 0x200000 := Nat.dvd_mul_left_of_dvd (by decide) n
  unfold hugeEntry
  rw [Nat.or_assoc, Nat.or_assoc]
  exact or_eq_add_of_dvd haligned (by decide)

theorem hugeEntry_offset {p v : Nat} (hp : p < 2 ^ 32) (hv : v % 2 ^ 21 = p % 2 ^ 21) :
    hugeEntry (p / 2 ^ 21 * 0x200000) % 2 ^ 52 / 2 ^ 21 * 2 ^ 21 + v % 2 ^ 21 = p := by
  rw [hugeEntry_eq, hv, Nat.mod_eq_of_lt (by omega)]
  omega

structure ShowsGigabyte (m : Mem) (fs : List Nat) (pdpt : Nat) (i : Fin 512) (pd : Nat) : Prop where
  ne : pd ≠ pdpt
  frame : IsFrame pd
  used : pd ∉ fs
  entry : tableEntry m pdpt i = pd ||| intermediateFlags false
  pages : ∀ j, tableEntry m pd j = hugeEntry ((i.val * 512 + j.val) * 0x200000)

structure WindowShows (l : LoadPlan) (root pdpt : Nat) (done : List Nat) (s : LoaderState) : Prop where
  windowed : l.Windowed root pdpt s
  gigabyte : ∀ i : Fin 512, i.val ∈ done → ∃ pd, ShowsGigabyte s.mem s.pool.free pdpt i pd

theorem WindowShows.add {done : List Nat} {i : Fin 512} {pd : Nat} (h : l.WindowShows root pdpt done s)
    (hroot : IsFrame root) (hadd : l.Gigabyte pdpt i s s' pd) :
    l.WindowShows root pdpt (done ++ [i.val]) s' := by
  have hpdpt : pdpt ≠ pd := fun heq => h.windowed.used (heq ▸ hadd.fresh)
  refine ⟨h.windowed.add hroot hadd, fun j hj => ?_⟩
  by_cases hnew : j = i
  · subst hnew
    exact ⟨pd, hpdpt.symm, hadd.frame, hadd.used, hadd.entry, hadd.pages⟩
  · have hold : j.val ∈ done := by
      rcases List.mem_append.mp hj with hj | hj
      · exact hj
      · exact absurd (Fin.ext (List.mem_singleton.mp hj)) hnew
    obtain ⟨u, hu⟩ := h.gigabyte j hold
    have hupd : u ≠ pd := fun heq => hu.used (heq ▸ hadd.fresh)
    refine ⟨u, hu.ne, hu.frame, fun hin => hu.used (hadd.free _ hin), ?_, fun k => ?_⟩
    · rw [hadd.kept pdpt j h.windowed.frame hpdpt fun heq => hnew heq.2]
      exact hu.entry
    · rw [hadd.kept u k hu.frame hupd fun heq => hu.ne heq.1]
      exact hu.pages k

theorem WindowShows.mapGigabytes {done is : List Nat} (h : l.WindowShows root pdpt done s)
    (hne : l.poolBase ≠ 0) (hroot : IsFrame root) (his : ∀ i ∈ is, i < 512)
    (hok : is.foldlM (Loader.mapGigabyte pdpt) s = some s') : l.WindowShows root pdpt (done ++ is) s' := by
  induction is generalizing s done with
  | nil =>
    cases hok
    rw [List.append_nil]
    exact h
  | cons i is ih =>
    obtain ⟨s1, hfirst, hrest⟩ := Option.bind_eq_some_iff.mp hok
    obtain ⟨pd, hadd⟩ := mapGigabyte_added h.windowed.base h.windowed.cap hne h.windowed.frame
      h.windowed.used (his i List.mem_cons_self) hfirst
    have hmore := ih (h.add hroot hadd) (fun j hj => his j (List.mem_cons_of_mem i hj)) hrest
    rwa [List.append_assoc] at hmore

theorem Laid.windowShows (h : l.Laid root qs s) (hok : Loader.mapWindow s root = some s') :
    ∃ pdpt, l.WindowShows root pdpt (List.range 4) s' := by
  have hroot := h.tree.frames [] root (by simp) rfl
  obtain ⟨pdpt, s1, hfirst, hrest⟩ := h.windowStart hok
  have hnone : l.WindowShows root pdpt [] s1 := ⟨hfirst, fun i hi => absurd hi List.not_mem_nil⟩
  exact ⟨pdpt, hnone.mapGigabytes h.nonzero hroot (by decide) hrest⟩

theorem WindowShows.resolve_eq (h : l.WindowShows root pdpt (List.range 4) s) {p : Nat} (hp : p < 2 ^ 32) :
    resolve s.mem root (kernelPhysicalMapBase + p) = some p := by
  obtain ⟨v, hv⟩ : ∃ v, kernelPhysicalMapBase + p = v := ⟨_, rfl⟩
  have hvalue : v = 2 ^ 64 - 2 ^ 47 + p := by rw [← hv, kernelPhysicalMapBase_eq]
  have hwindow : windowSlot.val = 256 := by decide
  have hslot : tableSlot 39 v = windowSlot := by
    apply Fin.ext
    simp only [tableSlot, tableIndex_eq]
    omega
  have hgigabyte : (tableSlot 30 v).val = p / 2 ^ 30 := by
    simp only [tableSlot, tableIndex_eq]
    omega
  have hpage : (tableSlot 21 v).val = p / 2 ^ 21 % 512 := by
    simp only [tableSlot, tableIndex_eq]
    omega
  have hin : (tableSlot 30 v).val ∈ List.range 4 := by
    rw [hgigabyte, List.mem_range]
    omega
  obtain ⟨pd, hpd⟩ := h.gigabyte (tableSlot 30 v) hin
  have hroot : tableAt s.mem root [] = some root := rfl
  have hpdpt : tableAt s.mem root [windowSlot] = some pdpt := by
    refine (tableAt_concat hroot windowSlot).trans ?_
    rw [h.windowed.slot]
    exact decodeEntry_frame h.windowed.frame (by decide) (by decide)
  have hdecode : decodeEntry (pd ||| intermediateFlags false) = some pd :=
    decodeEntry_frame hpd.frame (by decide) (by decide)
  have htable : tableAt s.mem root [windowSlot, tableSlot 30 v] = some pd := by
    refine (tableAt_concat hpdpt (tableSlot 30 v)).trans ?_
    rw [hpd.entry]
    exact hdecode
  have hpdpte : entryAt s.mem root [tableSlot 39 v, tableSlot 30 v] =
      some (pd ||| intermediateFlags false) := by
    rw [hslot]
    refine (entryAt_concat hpdpt (tableSlot 30 v)).trans ?_
    rw [hpd.entry]
    exact RadixTree.found_of_decode hdecode
  have hnumber : (tableSlot 30 v).val * 512 + (tableSlot 21 v).val = p / 2 ^ 21 := by
    omega
  have hoffset := @hugeEntry_offset p v hp (by omega)
  have hpresent : hugeEntry (p / 2 ^ 21 * 0x200000) &&& Flag.present ≠ 0 := hugeEntry_and _ (by decide)
  have hhuge : hugeEntry (p / 2 ^ 21 * 0x200000) &&& Flag.huge ≠ 0 := hugeEntry_and _ (by decide)
  have hentry := hpd.pages (tableSlot 21 v)
  rw [hnumber] at hentry
  generalize hugeEntry (p / 2 ^ 21 * 0x200000) = pde at *
  have hpde : entryAt s.mem root [tableSlot 39 v, tableSlot 30 v, tableSlot 21 v] = some pde := by
    rw [hslot]
    refine (entryAt_concat htable (tableSlot 21 v)).trans ?_
    rw [hentry]
    exact RadixTree.found_of_decode (decodeEntry_of_present hpresent)
  rw [hv, resolve_huge hpdpte hpd.frame.huge_clear hpde hhuge, hoffset]

theorem mem_requests_of_later {q : MapRequest} (h : q ∈ l.laterRequests) : q ∈ l.requests :=
  List.mem_append_right _ h

theorem mem_flatMap_identityRequest {pages : List Nat} {flags a : Nat} (h : a ∈ pages) :
    ⟨a, a, flags⟩ ∈ pages.flatMap (identityRequest flags) :=
  List.mem_flatMap.mpr ⟨a, h, List.mem_singleton.mpr rfl⟩

theorem mem_flatMap_bothHalves {pages : List Nat} {flags a : Nat} (h : a ∈ pages) :
    ⟨a, a, flags⟩ ∈ pages.flatMap (bothHalves flags) ∧
      ⟨wrap64 (a + kernelVirtualBase), a, flags⟩ ∈ pages.flatMap (bothHalves flags) := by
  refine ⟨List.mem_flatMap.mpr ⟨a, h, ?_⟩, List.mem_flatMap.mpr ⟨a, h, ?_⟩⟩
  · simp [bothHalves]
  · simp [bothHalves]

theorem Loaded.resolve_identity (h : l.Loaded root m) (hlow : l.kernelStackBase + kernelStackSize ≤ 2 ^ 31)
    {flags p a : Nat} (hq : ⟨p, p, flags⟩ ∈ l.requests) (hpage : p / pageSize = a / pageSize)
    (ha : a < 2 ^ 47) : resolve m root a = some a := h.resolve_eq hlow (.inl ⟨rfl, ha⟩) hq hpage

theorem Loaded.resolve_both (h : l.Loaded root m) (hlow : l.kernelStackBase + kernelStackSize ≤ 2 ^ 31)
    {pages : List Nat} {flags p a : Nat} (hp : p ∈ pages) (hpage : p / pageSize = a / pageSize)
    (ha : a < 2 ^ 31) (hmem : ∀ q ∈ pages.flatMap (bothHalves flags), q ∈ l.laterRequests) :
    resolve m root a = some a ∧ resolve m root (kernelVirtualBase + a) = some a := by
  have hbase := kernelVirtualBase_eq
  obtain ⟨hid, hupper⟩ := @mem_flatMap_bothHalves pages flags p hp
  constructor
  · exact h.resolve_identity hlow (mem_requests_of_later (hmem _ hid)) hpage (by omega)
  · refine h.resolve_eq hlow (.inr ⟨rfl, ha⟩) (mem_requests_of_later (hmem _ hupper)) ?_
    simp only [pageSize] at *
    rw [wrap64_of_lt (by omega)]
    omega

/-- All that the loader maps is where it belongs. -/
structure Covered (l : LoadPlan) (root : Nat) (m : Mem) : Prop where
  descriptors : ∀ d ∈ l.descriptors, d.shouldIdentityMap → ∀ a,
    InPages d.physicalStart (d.numPages * pageSize) a → resolve m root a = some a
  image : ∀ a, InPages l.kernelBuffer l.kernelSize a →
    resolve m root a = some a ∧ resolve m root (kernelVirtualBase + a) = some a
  stack : ∀ a, l.kernelStackBase ≤ a → a < l.kernelStackBase + kernelStackSize →
    resolve m root a = some a ∧ resolve m root (kernelVirtualBase + a) = some a
  framebuffer : ∀ a, l.framebufferBase ≤ a → a < l.framebufferBase + l.framebufferSize →
    resolve m root a = some a
  window : ∀ p, p < 2 ^ 32 → resolve m root (kernelPhysicalMapBase + p) = some p

/-- The tables that are returned translate every address as they should, if the image and the stack
are below 2 GiB. -/
theorem build_covered (hlow : l.kernelStackBase + kernelStackSize ≤ 2 ^ 31)
    (hok : l.build = .ok (some (root, m))) : l.Covered root m := by
  have hloaded := build_loaded hok
  have hkernel := l.kernel_low
  constructor
  case descriptors =>
    intro d hd hmapped a ha
    obtain ⟨p, hp, hpage⟩ := ha.exists_descriptorPage
    have hstop : d.stop ≤ 2 ^ 47 := l.descriptors_low d hd
    have hlt : a < 2 ^ 47 := by
      have hfits := (mem_pages hp).2.1
      simp only [pageSize] at *
      omega
    have hq : ⟨p, p, imageFlags⟩ ∈ d.identityRequests := by
      rw [EfiMemoryDescriptor.identityRequests, if_pos hmapped]
      exact List.mem_map.mpr ⟨p, hp, rfl⟩
    have hrequest : ⟨p, p, imageFlags⟩ ∈ l.requests :=
      List.mem_append_left _ (List.mem_append_right _ (List.mem_flatMap.mpr ⟨d, hd, hq⟩))
    exact hloaded.resolve_identity hlow hrequest hpage hlt
  case image =>
    intro a ha
    obtain ⟨p, hp, hpage⟩ := ha.exists_pageFrom
    have hend : l.kernelBuffer / pageSize * pageSize ≤ l.kernelBuffer := Nat.div_mul_le_self _ _
    have hlt := ha.2
    have hmem : ∀ q ∈ l.imagePages.flatMap (bothHalves imageFlags), q ∈ l.laterRequests := by
      intro q hq
      simp only [laterRequests, List.mem_append]
      exact .inl (.inl (.inl (.inl hq)))
    exact hloaded.resolve_both hlow hp hpage (by omega) hmem
  case stack =>
    intro a hle hlt
    obtain ⟨p, hp, hpage⟩ := exists_pageFrom_masked (by omega) hle hlt
    have hmem : ∀ q ∈ l.stackPages.flatMap (bothHalves dataFlags), q ∈ l.laterRequests := by
      intro q hq
      simp only [laterRequests, List.mem_append]
      exact .inl (.inl (.inl (.inr hq)))
    exact hloaded.resolve_both hlow hp hpage (by omega) hmem
  case framebuffer =>
    intro a hle hlt
    have hfb := l.framebuffer_low
    obtain ⟨p, hp, hpage⟩ := exists_pageFrom_masked (by omega) hle hlt
    have hmem : ⟨p, p, imageFlags⟩ ∈ l.laterRequests := by
      simp only [laterRequests, List.mem_append]
      exact .inl (.inl (.inr (mem_flatMap_identityRequest hp)))
    exact hloaded.resolve_identity hlow (mem_requests_of_later hmem) hpage (by omega)
  case window =>
    intro p hp
    obtain ⟨s, s', hlaid, hwindow, rfl⟩ := build_laid hok
    obtain ⟨pdpt, hshows⟩ := hlaid.windowShows hwindow
    exact hshows.resolve_eq hp

/-- The small boot, with a stack below 1 MiB and an image of two pages above it. -/
theorem build_covered_low :
    ∃ m, lowLoad.build = .ok (some (lowLoad.poolBase, m)) ∧ lowLoad.Covered lowLoad.poolBase m ∧
      ∀ a, 0x100000 ≤ a → a < 0x100000 + 0x2000 →
        resolve m lowLoad.poolBase (kernelVirtualBase + a) = some a := by
  obtain ⟨m, hok⟩ := lowLoad_ok
  have hcovered := build_covered (by decide) hok
  refine ⟨m, hok, hcovered, fun a hle hlt => ?_⟩
  exact (hcovered.image a ((inPages_iff (by decide)).mpr ⟨hle, hlt⟩)).2

end LoadPlan

end CrapOs
