import CrapOs.Loader.BootStack

/-! # An exhausted pool

`efi_main` sizes the pool by a guess from the memory map, and `map_page_pool`
never looks whether a page was left for it. The builder with a check in that
place says what it should have noticed: tables that are returned come from a run
in which the check never fires, so none of their entries leads to page zero.
Nothing is assumed of the arguments but where the firmware puts the pool.
-/

namespace CrapOs

open Foundation

namespace Loader

def totalPagesToMap (m : Mem) (descriptorSize : Nat) : Nat → Nat → Nat → Nat
  | 0, _, total => total
  | count + 1, desc, total =>
    let d := EfiMemoryDescriptor.ofBytes m desc
    let total := if d.shouldIdentityMap then wrap64 (total + d.numPages) else total
    totalPagesToMap m descriptorSize count (wrap64 (desc + descriptorSize)) total

def poolPagesFor (args : BuildArgs) (m : Mem) : Nat :=
  totalPagesToMap m args.descriptorSize (args.memoryMapSize / args.descriptorSize) args.memoryMap 0
    / 512 + 256

def sized (args : BuildArgs) (m : Mem) : BuildArgs := { args with poolPages := poolPagesFor args m }

/-- A level of `map_page_pool` needs a table and the pool has none. -/
def Starved (s : LoaderState) (entry : Nat) : Prop :=
  s.mem.read64 entry &&& Flag.present = 0 ∧ s.pool.cap ≤ s.pool.used

instance (s : LoaderState) (entry : Nat) : Decidable (Starved s entry) :=
  inferInstanceAs (Decidable (_ ∧ _))

def openTableChecked (s : LoaderState) (entry : Nat) : Except Halt (Nat × LoaderState) :=
  if Starved s entry then .error (.panic "pool exhausted") else .ok (openTable s entry)

/-- `map_page_pool`, stopping where its pool is exhausted. -/
def mapPageChecked (s : LoaderState) (pml4 virtualAddr physicalAddr flags : Nat) :
    Except Halt LoaderState := do
  let (pdptAddr, s) ← openTableChecked s (pml4 + ptIndex virtualAddr 4 * 8)
  let (pdAddr, s) ← openTableChecked s (pdptAddr + ptIndex virtualAddr 3 * 8)
  let (ptAddr, s) ← openTableChecked s (pdAddr + ptIndex virtualAddr 2 * 8)
  let pte := ptAddr + ptIndex virtualAddr 1 * 8
  return { s with mem := s.mem.write64 pte ((physicalAddr &&& pageMask) ||| flags) }

def identityMapChecked (pml4 flags addr : Nat) (s : LoaderState) : Except Halt LoaderState :=
  mapPageChecked s pml4 addr addr flags

def mapTwiceChecked (pml4 flags addr : Nat) (s : LoaderState) : Except Halt LoaderState := do
  let s ← mapPageChecked s pml4 addr addr flags
  mapPageChecked s pml4 (wrap64 (addr + kernelVirtualBase)) addr flags

def mapDescriptorChecked (pml4 : Nat) (d : EfiMemoryDescriptor) (s : LoaderState) :
    Except Halt LoaderState :=
  if d.shouldIdentityMap then
    (List.range d.numPages).foldlM (fun s pg =>
      let phys := wrap64 (d.physicalStart + wrap64 (pg * pageSize))
      mapPageChecked s pml4 phys phys imageFlags) s
  else .ok s

def mapDescriptorsChecked (pml4 descriptorSize : Nat) : Nat → Nat → LoaderState →
    Except Halt LoaderState
  | 0, _, s => .ok s
  | count + 1, desc, s => do
    let s ← mapDescriptorChecked pml4 (EfiMemoryDescriptor.ofBytes s.mem desc) s
    mapDescriptorsChecked pml4 descriptorSize count (wrap64 (desc + descriptorSize)) s

def mapRsdpChecked (pml4 rsdpAddr : Nat) (s : LoaderState) : Except Halt LoaderState :=
  if rsdpAddr = 0 then .ok s
  else
    let rsdpPage := rsdpAddr &&& pageMask
    mapPageChecked s pml4 rsdpPage rsdpPage Flag.present

def buildPageTablesChecked (args : BuildArgs) (poolBase : Option Nat) (m : Mem) :
    Except Halt (Option (Nat × Mem)) := do
  let some poolBase := poolBase | return none
  let m := clearWords m poolBase (wrap64 (args.poolPages * 512))
  let (pml4, s) := poolAlloc ⟨⟨poolBase, 0, args.poolPages⟩, m⟩
  if pml4 = 0 then return none
  let poolEnd := wrap64 (poolBase + wrap64 (args.poolPages * pageSize))
  let s ← whilePages (identityMapChecked pml4 imageFlags) poolEnd (pageFuel poolEnd) poolBase s
  let s ← mapDescriptorsChecked pml4 args.descriptorSize (args.memoryMapSize / args.descriptorSize)
    args.memoryMap s
  let kernelEnd := wrap64 (args.kernelBuffer + args.kernelSize)
  let s ← whilePages (mapTwiceChecked pml4 imageFlags) kernelEnd (pageFuel kernelEnd)
    args.kernelBuffer s
  let stackEnd := wrap64 (args.kernelStackBase + kernelStackSize)
  let s ← whilePages (mapTwiceChecked pml4 dataFlags) stackEnd (pageFuel stackEnd)
    (args.kernelStackBase &&& pageMask) s
  let fbEnd := wrap64 (args.framebufferBase + args.framebufferSize)
  let s ← whilePages (identityMapChecked pml4 imageFlags) fbEnd (pageFuel fbEnd)
    (args.framebufferBase &&& pageMask) s
  let mapEnd := wrap64 (args.memoryMap + args.memoryMapSize)
  let s ← whilePages (identityMapChecked pml4 imageFlags) mapEnd (pageFuel mapEnd)
    (args.memoryMap &&& pageMask) s
  let s ← mapRsdpChecked pml4 args.rsdpAddr s
  return (mapWindow s pml4).map fun s => (pml4, s.mem)

end Loader

/-- Where `AllocatePages` puts the pool: on page boundaries, in the half of the address space
that the firmware maps one to one. -/
structure PoolGranted (poolBase poolPages : Nat) : Prop where
  aligned : poolBase % pageSize = 0
  low : poolBase + poolPages * pageSize ≤ 2 ^ 47

def LoadPlan.ofPool {poolBase poolPages : Nat} (h : PoolGranted poolBase poolPages) (m : Mem) :
    LoadPlan where
  memoryMap := 0
  memoryMapSize := 0
  descriptorSize := EfiMemoryDescriptor.byteSize
  kernelBuffer := 0
  kernelSize := 0
  kernelStackBase := 0
  framebufferBase := 0
  framebufferSize := 0
  poolPages := poolPages
  rsdpAddr := 0
  mem := m
  poolBase := poolBase
  pool_aligned := h.aligned
  pool_low := h.low
  descriptorSize_ge := Nat.le_refl _
  buffer_low := by decide
  buffer_apart := .inl (Nat.zero_le _)
  descriptors_low := nofun
  kernel_low := by decide
  stack_aligned := rfl
  stack_low := by decide
  framebuffer_low := by decide
  rsdp_low := by decide

namespace LoadPlan

open Loader

variable {l : LoadPlan} {root f : Nat} {qs : List MapRequest} {s s' s'' : LoaderState}

def InOrder (l : LoadPlan) (root : Nat) (s : LoaderState) : Prop := ∃ qs, l.Laid root qs s

/-- A part of the builder that takes `s` to `s'`, and its checked form `c`: unless the pool is
exhausted at the end, the check passes and the tables stay in order. -/
structure Lays (l : LoadPlan) (root : Nat) (c : Except Halt LoaderState) (s s' : LoaderState) :
    Prop where
  before : s.pool.Before s'.pool
  checked : s'.pool.Room → c = .ok s'
  inOrder : s'.pool.Room → l.InOrder root s → l.InOrder root s'

theorem Lays.refl (s : LoaderState) : l.Lays root (.ok s) s s :=
  ⟨.refl _, fun _ => rfl, fun _ h => h⟩

theorem Lays.bind {c : Except Halt LoaderState} {k : LoaderState → Except Halt LoaderState}
    (h1 : l.Lays root c s s') (h2 : l.Lays root (k s') s' s'') : l.Lays root (c >>= k) s s'' := by
  refine ⟨h1.before.trans h2.before, fun hroom => ?_, fun hroom horder => ?_⟩
  · rw [h1.checked (hroom.before h2.before)]
    exact h2.checked hroom
  · exact h2.inOrder hroom (h1.inOrder (hroom.before h2.before) horder)

theorem openTableChecked_of_room {entry : Nat} (hroom : (openTable s entry).2.pool.Room) :
    openTableChecked s entry = .ok (openTable s entry) := by
  have hleft := hroom.before (openTable_before s entry)
  refine if_neg fun hstarved => ?_
  exact absurd hleft (Nat.not_lt.mpr hstarved.2)

theorem mapPageChecked_of_room {v pa flags : Nat}
    (hroom : (mapPagePool s root v pa flags).pool.Room) :
    mapPageChecked s root v pa flags = .ok (mapPagePool s root v pa flags) := by
  obtain ⟨⟨pdpt, s1⟩, h1⟩ : ∃ r, openTable s (root + Loader.ptIndex v 4 * 8) = r := ⟨_, rfl⟩
  obtain ⟨⟨pd, s2⟩, h2⟩ : ∃ r, openTable s1 (pdpt + Loader.ptIndex v 3 * 8) = r := ⟨_, rfl⟩
  obtain ⟨⟨pt, s3⟩, h3⟩ : ∃ r, openTable s2 (pd + Loader.ptIndex v 2 * 8) = r := ⟨_, rfl⟩
  rw [mapPagePool_eq h1 h2 h3] at hroom ⊢
  have hroom3 : (openTable s2 (pd + Loader.ptIndex v 2 * 8)).2.pool.Room := h3 ▸ hroom
  have hroom2 : (openTable s1 (pdpt + Loader.ptIndex v 3 * 8)).2.pool.Room :=
    h2 ▸ hroom3.before (openTable_before _ _)
  have hroom1 : (openTable s (root + Loader.ptIndex v 4 * 8)).2.pool.Room :=
    h1 ▸ hroom2.before (openTable_before _ _)
  refine bind_eq_ok.mpr ⟨(pdpt, s1), h1 ▸ openTableChecked_of_room hroom1, ?_⟩
  refine bind_eq_ok.mpr ⟨(pd, s2), h2 ▸ openTableChecked_of_room hroom2, ?_⟩
  exact bind_eq_ok.mpr ⟨(pt, s3), h3 ▸ openTableChecked_of_room hroom3, rfl⟩

theorem lays_mapPagePool (q : MapRequest) (hq : q.Plain) (s : LoaderState) :
    l.Lays root (mapPageChecked s root q.virtualAddr q.physicalAddr q.flags) s
      (mapPagePool s root q.virtualAddr q.physicalAddr q.flags) :=
  ⟨mapPagePool_before _ _ _ _ _, mapPageChecked_of_room,
    fun hroom ⟨_, hlaid⟩ => ⟨_, hlaid.mapPagePool hq hroom⟩⟩

theorem plain_imageFlags {v a : Nat} (ha : a < 2 ^ 64) : (⟨v, a, imageFlags⟩ : MapRequest).Plain :=
  ⟨⟨ha, (by decide : imageFlags < 2 ^ 64)⟩,
    (by decide : imageFlags ||| Flag.present = imageFlags)⟩

theorem plain_dataFlags {v a : Nat} (ha : a < 2 ^ 64) : (⟨v, a, dataFlags⟩ : MapRequest).Plain :=
  ⟨⟨ha, (by decide : dataFlags < 2 ^ 64)⟩,
    (by decide : dataFlags ||| Flag.present = dataFlags)⟩

theorem lays_identityMap {flags a : Nat} (hplain : (⟨a, a, flags⟩ : MapRequest).Plain)
    (hok : identityMap root flags a s = .ok s') :
    l.Lays root (identityMapChecked root flags a s) s s' := by
  cases hok
  exact lays_mapPagePool _ hplain s

theorem lays_mapTwice {flags a : Nat} (hplain : ∀ v, (⟨v, a, flags⟩ : MapRequest).Plain)
    (hok : mapTwice root flags a s = .ok s') :
    l.Lays root (mapTwiceChecked root flags a s) s s' := by
  cases hok
  exact (lays_mapPagePool _ (hplain a) s).bind (lays_mapPagePool _ (hplain _) _)

theorem lays_whilePages {body checked : Nat → LoaderState → Except Halt LoaderState}
    {stop fuel start : Nat}
    (hbody : ∀ a s s', a < stop → body a s = .ok s' → l.Lays root (checked a s) s s')
    (hok : whilePages body stop fuel start s = .ok s') :
    l.Lays root (whilePages checked stop fuel start s) s s' := by
  induction fuel generalizing start s with
  | zero =>
    rw [whilePages] at hok ⊢
    split at hok
    · cases hok
    · rename_i hdone
      cases hok
      rw [if_neg hdone]
      exact .refl _
  | succ fuel ih =>
    rw [whilePages] at hok ⊢
    split at hok
    · rename_i hmore
      obtain ⟨s1, hfirst, hrest⟩ := bind_eq_ok.mp hok
      rw [if_pos hmore]
      exact (hbody start s s1 hmore hfirst).bind (ih hrest)
    · rename_i hdone
      cases hok
      rw [if_neg hdone]
      exact .refl _

theorem lays_mapDescriptor (d : EfiMemoryDescriptor) (s : LoaderState) :
    l.Lays root (mapDescriptorChecked root d s) s (Loader.mapDescriptor root d s) := by
  rw [mapDescriptorChecked, Loader.mapDescriptor]
  split
  · generalize List.range d.numPages = pages
    induction pages generalizing s with
    | nil => exact .refl s
    | cons pg pages ih =>
      rw [List.foldlM_cons, List.foldl_cons]
      exact (lays_mapPagePool _ (plain_imageFlags (Nat.mod_lt _ (by decide))) s).bind (ih _)
  · exact .refl s

theorem lays_mapDescriptors (size count desc : Nat) (s : LoaderState) :
    l.Lays root (mapDescriptorsChecked root size count desc s) s
      (mapDescriptors root size count desc s) := by
  induction count generalizing desc s with
  | zero => exact .refl s
  | succ count ih => exact (lays_mapDescriptor _ s).bind (ih _ _)

theorem lays_rsdp (rsdpAddr : Nat) (s : LoaderState) :
    l.Lays root (mapRsdpChecked root rsdpAddr s) s
      (if rsdpAddr = 0 then s
        else mapPagePool s root (rsdpAddr &&& pageMask) (rsdpAddr &&& pageMask) Flag.present) := by
  rw [mapRsdpChecked]
  split
  · exact .refl s
  · have hword : rsdpAddr &&& pageMask < 2 ^ 64 :=
      Nat.lt_of_le_of_lt Nat.and_le_right (by decide : pageMask < 2 ^ 64)
    exact lays_mapPagePool ⟨_, _, Flag.present⟩ ⟨⟨hword,
      (by decide : Flag.present < 2 ^ 64)⟩, (by decide : Flag.present ||| Flag.present = Flag.present)⟩ s

/-! ## The window's slot -/

def fillTable (m : Mem) (t : Nat) (g : Nat → Nat) (n : Nat) : Mem :=
  (List.range n).foldl (fun m i => m.write64 (t + i * 8) (g i)) m

theorem fillTable_succ (m : Mem) (t : Nat) (g : Nat → Nat) (n : Nat) :
    fillTable m t g (n + 1) = (fillTable m t g n).write64 (t + n * 8) (g n) := by
  rw [fillTable, List.range_succ, List.foldl_append]
  rfl

theorem tableEntry_fillTable (m : Mem) {t : Nat} (ht : IsFrame t) {g : Nat → Nat}
    (hg : ∀ i, i < 512 → g i < 2 ^ 64) {n : Nat} (hn : n ≤ 512) (i : Fin 512) (hi : i.val < n) :
    tableEntry (fillTable m t g n) t i = g i := by
  induction n with
  | zero => omega
  | succ n ih =>
    rw [fillTable_succ, Nat.mul_comm]
    by_cases heq : i.val = n
    · subst heq
      exact tableEntry_write_same _ t i (hg i i.isLt)
    · have hne : ¬ (t = t ∧ i = ⟨n, by omega⟩) := fun h => heq (congrArg Fin.val h.2)
      exact (tableEntry_write_other _ (g n) ht ht hne).trans (ih (by omega) (by omega))

theorem tableEntry_fillTable_other (m : Mem) {t f : Nat} (ht : IsFrame t) (hf : IsFrame f)
    (hne : t ≠ f) (g : Nat → Nat) {n : Nat} (hn : n ≤ 512) (i : Fin 512) :
    tableEntry (fillTable m f g n) t i = tableEntry m t i := by
  induction n with
  | zero => rfl
  | succ n ih =>
    have hslot : ¬ (t = f ∧ i = ⟨n, by omega⟩) := fun h => hne h.1
    rw [fillTable_succ, Nat.mul_comm]
    exact (tableEntry_write_other _ (g n) ht hf hslot).trans (ih (by omega))

/-- A table of huge pages, not one of the frames in `fs`. -/
structure HugeTable (m : Mem) (fs : List Nat) (t : Nat) : Prop where
  frame : IsFrame t
  used : t ∉ fs
  huge : ∀ i, tableEntry m t i &&& Flag.huge ≠ 0

/-- The window's slot as far as it is built: a table of absent entries and of tables of huge
pages, all taken from the pool. -/
structure Windowed (l : LoadPlan) (root pdpt : Nat) (s : LoaderState) : Prop where
  base : s.pool.base = l.poolBase
  cap : s.pool.cap = l.poolPages
  frame : IsFrame pdpt
  used : pdpt ∉ s.pool.free
  rootUsed : root ∉ s.pool.free
  ne : root ≠ pdpt
  slot : tableEntry s.mem root windowSlot = pdpt ||| intermediateFlags false
  entry : ∀ i, tableEntry s.mem pdpt i &&& Flag.present = 0 ∨
    ∃ pd, pd ≠ pdpt ∧ tableEntry s.mem pdpt i = pd ||| intermediateFlags false ∧
      HugeTable s.mem s.pool.free pd

theorem free_nodup (pool : PagePool) : pool.free.Nodup := by
  refine List.nodup_range.map fun i j heq => ?_
  simp only [pageSize] at heq
  omega

theorem poolAlloc_fresh (hbase : s.pool.base = l.poolBase) (hcap : s.pool.cap = l.poolPages)
    (hne : l.poolBase ≠ 0) (hrun : poolAlloc s = (f, s')) (hf : f ≠ 0) :
    IsFrame f ∧ f ∈ s.pool.free ∧ f ∉ s'.pool.free ∧ (∀ a ∈ s'.pool.free, a ∈ s.pool.free) ∧
      s'.pool.base = l.poolBase ∧ s'.pool.cap = l.poolPages ∧ s'.mem = clearWords s.mem f 512 := by
  obtain ⟨-, hfree, hpool, hmem⟩ := poolAlloc_of_ne_zero hbase hcap hrun hf
  have hin : f ∈ s.pool.free := hfree ▸ List.mem_cons_self
  have hnodup := hfree ▸ free_nodup s.pool
  refine ⟨isFrame_of_free hbase hcap hne hin, hin, (List.nodup_cons.mp hnodup).1,
    fun a ha => hfree ▸ List.mem_cons_of_mem f ha, ?_, ?_, hmem⟩
  · rw [hpool]
    exact hbase
  · rw [hpool]
    exact hcap

theorem hugePage_lt {i j : Nat} (hi : i < 512) (hj : j < 512) :
    (i * 512 + j) * 0x200000 ||| Flag.present ||| Flag.writable ||| Flag.huge < 2 ^ 64 :=
  or_lt_two_pow_64 (or_lt_two_pow_64 (or_lt_two_pow_64 (by omega) (by decide)) (by decide))
    (by decide)

theorem or_huge_and_huge (x : Nat) : (x ||| Flag.huge) &&& Flag.huge ≠ 0 := by
  rw [Nat.and_or_distrib_right]
  intro h
  exact absurd (Nat.or_eq_zero_iff.mp h).2 (by decide)

/-- What one gigabyte of the window adds: a page of the pool as a table of huge pages, and its
entry. -/
structure Gigabyte (l : LoadPlan) (pdpt : Nat) (i : Fin 512) (s s' : LoaderState) (pd : Nat) : Prop where
  frame : IsFrame pd
  fresh : pd ∈ s.pool.free
  used : pd ∉ s'.pool.free
  free : ∀ a ∈ s'.pool.free, a ∈ s.pool.free
  base : s'.pool.base = l.poolBase
  cap : s'.pool.cap = l.poolPages
  entry : tableEntry s'.mem pdpt i = pd ||| intermediateFlags false
  pages : ∀ j, tableEntry s'.mem pd j =
    (i.val * 512 + j.val) * 0x200000 ||| Flag.present ||| Flag.writable ||| Flag.huge
  kept : ∀ t j, IsFrame t → t ≠ pd → ¬ (t = pdpt ∧ j = i) → tableEntry s'.mem t j = tableEntry s.mem t j

theorem mapGigabyte_added {pdpt : Nat} (hbase : s.pool.base = l.poolBase) (hcap : s.pool.cap = l.poolPages)
    (hne : l.poolBase ≠ 0) (hpdpt : IsFrame pdpt) (hused : pdpt ∉ s.pool.free) {i : Nat} (hi : i < 512)
    (hok : mapGigabyte pdpt s i = some s') : ∃ pd, l.Gigabyte pdpt ⟨i, hi⟩ s s' pd := by
  obtain ⟨⟨pd, s1⟩, halloc⟩ : ∃ r, poolAlloc s = r := ⟨_, rfl⟩
  simp only [Loader.mapGigabyte, halloc] at hok
  split at hok
  · cases hok
  rename_i hpd
  obtain ⟨hframe, hin, hout, hsub, hbase, hcap, hmem⟩ := poolAlloc_fresh hbase hcap hne halloc hpd
  have hflags : pd ||| Flag.present ||| Flag.writable = pd ||| intermediateFlags false := by
    rw [Nat.or_assoc]
    rfl
  have hother : pdpt ≠ pd := fun heq => hused (heq ▸ hin)
  obtain ⟨m', hm'⟩ : ∃ m', fillTable (s1.mem.write64 (pdpt + i * 8) (pd ||| intermediateFlags false)) pd
    (fun j => (i * 512 + j) * 0x200000 ||| Flag.present ||| Flag.writable ||| Flag.huge) 512 = m' :=
    ⟨_, rfl⟩
  rw [hflags] at hok
  obtain rfl : ⟨s1.pool, m'⟩ = s' := by
    rw [← hm']
    exact Option.some.inj hok
  rw [Nat.mul_comm i 8] at hm'
  refine ⟨pd, hframe, hin, hout, hsub, hbase, hcap, ?_, fun j => ?_, fun t j ht htpd hslot => ?_⟩
  · rw [← hm', tableEntry_fillTable_other _ hpdpt hframe hother _ (Nat.le_refl _)]
    exact tableEntry_write_same s1.mem pdpt ⟨i, hi⟩ (or_lt_two_pow_64 hframe.lt (by decide))
  · rw [← hm', tableEntry_fillTable _ hframe (fun j hj => hugePage_lt hi hj) (Nat.le_refl _) j j.isLt]
  · rw [← hm', tableEntry_fillTable_other _ ht hframe htpd _ (Nat.le_refl _)]
    refine (@tableEntry_write_other s1.mem t pdpt j ⟨i, hi⟩ _ ht hpdpt hslot).trans ?_
    rw [hmem, tableEntry_clearWords_other _ ht hframe htpd]

theorem Windowed.add {pdpt pd : Nat} {i : Fin 512} (h : l.Windowed root pdpt s) (hroot : IsFrame root)
    (hadd : l.Gigabyte pdpt i s s' pd) : l.Windowed root pdpt s' := by
  have hpdpt : pdpt ≠ pd := fun heq => h.used (heq ▸ hadd.fresh)
  have hrootpd : root ≠ pd := fun heq => h.rootUsed (heq ▸ hadd.fresh)
  refine ⟨hadd.base, hadd.cap, h.frame, fun hin => h.used (hadd.free _ hin),
    fun hin => h.rootUsed (hadd.free _ hin), h.ne, ?_, fun j => ?_⟩
  · exact (hadd.kept root windowSlot hroot hrootpd fun heq => h.ne heq.1).trans h.slot
  by_cases hj : j = i
  · subst hj
    refine .inr ⟨pd, hpdpt.symm, hadd.entry, hadd.frame, hadd.used, fun k => ?_⟩
    rw [hadd.pages]
    exact or_huge_and_huge _
  · rw [hadd.kept pdpt j h.frame hpdpt fun heq => hj heq.2]
    refine (h.entry j).imp id ?_
    rintro ⟨u, hu, hentry, hold⟩
    have hupd : u ≠ pd := fun heq => hold.used (heq ▸ hadd.fresh)
    refine ⟨u, hu, hentry, hold.frame, fun hin => hold.used (hadd.free _ hin), fun k => ?_⟩
    rw [hadd.kept u k hold.frame hupd fun heq => hu heq.1]
    exact hold.huge k

theorem Windowed.mapGigabyte {pdpt : Nat} (h : l.Windowed root pdpt s) (hne : l.poolBase ≠ 0)
    (hroot : IsFrame root) {i : Nat} (hi : i < 512) (hok : mapGigabyte pdpt s i = some s') :
    l.Windowed root pdpt s' := by
  obtain ⟨pd, hadd⟩ := mapGigabyte_added h.base h.cap hne h.frame h.used hi hok
  exact h.add hroot hadd

theorem Windowed.mapGigabytes {pdpt : Nat} (h : l.Windowed root pdpt s) (hne : l.poolBase ≠ 0)
    (hroot : IsFrame root) {is : List Nat} (his : ∀ i ∈ is, i < 512)
    (hok : is.foldlM (Loader.mapGigabyte pdpt) s = some s') : l.Windowed root pdpt s' := by
  induction is generalizing s with
  | nil =>
    cases hok
    exact h
  | cons i is ih =>
    obtain ⟨s1, hfirst, hrest⟩ := Option.bind_eq_some_iff.mp hok
    exact ih (h.mapGigabyte hne hroot (his i List.mem_cons_self) hfirst)
      (fun j hj => his j (List.mem_cons_of_mem i hj)) hrest

theorem Laid.windowStart (h : l.Laid root qs s) (hok : Loader.mapWindow s root = some s') :
    ∃ pdpt s1, l.Windowed root pdpt s1 ∧
      (List.range 4).foldlM (Loader.mapGigabyte pdpt) s1 = some s' := by
  have hroot := h.tree.frames [] root (by simp) rfl
  have hoff := h.tree.off [] root (by simp) rfl
  obtain ⟨⟨pdpt, s1⟩, halloc⟩ : ∃ r, poolAlloc s = r := ⟨_, rfl⟩
  simp only [Loader.mapWindow, halloc] at hok
  split at hok
  · cases hok
  rename_i hpdpt
  obtain ⟨hframe, hin, hout, hsub, hbase, hcap, hmem⟩ :=
    poolAlloc_fresh h.base h.cap h.nonzero halloc hpdpt
  have hne : root ≠ pdpt := fun heq => hoff (heq ▸ hin)
  have hflags : pdpt ||| Flag.present ||| Flag.writable = pdpt ||| intermediateFlags false := by
    rw [Nat.or_assoc]
    rfl
  rw [hflags, ptIndex_four, Nat.mul_comm] at hok
  refine ⟨pdpt, ⟨s1.pool, s1.mem.write64 (root + 8 * windowSlot.val) (pdpt ||| intermediateFlags false)⟩,
    ⟨hbase, hcap, hframe, hout, fun hin => hoff (hsub _ hin), hne, ?_, fun i => .inl ?_⟩, hok⟩
  · exact tableEntry_write_same _ root windowSlot (or_lt_two_pow_64 hframe.lt (by decide))
  · have hother : ¬ (pdpt = root ∧ i = windowSlot) := fun heq => hne heq.1.symm
    show tableEntry _ pdpt i &&& _ = 0
    rw [tableEntry_write_other _ _ hframe hroot hother, hmem, tableEntry_clearWords]
    rfl

theorem Laid.windowed (h : l.Laid root qs s) (hok : Loader.mapWindow s root = some s') :
    ∃ pdpt, l.Windowed root pdpt s' := by
  have hroot := h.tree.frames [] root (by simp) rfl
  obtain ⟨pdpt, s1, hfirst, hrest⟩ := h.windowStart hok
  refine ⟨pdpt, hfirst.mapGigabytes h.nonzero hroot (fun i hi => ?_) hrest⟩
  have hlt := List.mem_range.mp hi
  omega

def LeadsOn (e : Nat) : Prop :=
  (∃ f, IsFrame f ∧ e = f ||| intermediateFlags false) ∨ e &&& Flag.huge ≠ 0

theorem LeadsOn.not_zero {e : Nat} (h : LeadsOn e) (hleaf : e &&& Flag.huge = 0) :
    e &&& pageMask ≠ 0 := by
  rcases h with ⟨f, hf, rfl⟩ | h
  · rw [frame_or_and_pageMask hf (by decide)]
    exact hf.nonzero
  · exact absurd hleaf h

theorem found_eq_some {e e' : Nat} (h : RadixTree.found decodeEntry e = some e') :
    e' = e ∧ e &&& Flag.present ≠ 0 := by
  have hdecode : decodeEntry e ≠ none := fun hnone => by
    rw [RadixTree.found_eq_none.mpr hnone] at h
    cases h
  obtain ⟨t, ht⟩ := Option.ne_none_iff_exists'.mp hdecode
  rw [RadixTree.found_of_decode ht] at h
  exact ⟨(Option.some.inj h).symm, fun hbit => hdecode (decodeEntry_eq_none.mpr hbit)⟩

theorem Windowed.leadsOn {pdpt e : Nat} (h : l.Windowed root pdpt s) {p : TablePath}
    (hp : (windowSlot :: p).length ≤ 3) (he : entryAt s.mem root (windowSlot :: p) = some e) :
    LeadsOn e := by
  have hroot : tableAt s.mem root [] = some root := rfl
  have hpdpt : tableAt s.mem root [windowSlot] = some pdpt := by
    refine (tableAt_concat hroot windowSlot).trans ?_
    rw [h.slot]
    exact decodeEntry_frame h.frame (by decide) (by decide)
  match p, hp, he with
  | [], _, he =>
    obtain ⟨rfl, -⟩ := found_eq_some ((entryAt_concat hroot windowSlot).symm.trans he)
    exact .inl ⟨pdpt, h.frame, h.slot⟩
  | [i], _, he =>
    obtain ⟨rfl, hbit⟩ := found_eq_some ((entryAt_concat hpdpt i).symm.trans he)
    obtain ⟨pd, -, hentry, hhuge⟩ := (h.entry i).resolve_left hbit
    exact .inl ⟨pd, hhuge.frame, hentry⟩
  | [i, j], _, he =>
    have htable := tableAt_concat hpdpt i
    rcases h.entry i with habs | ⟨pd, -, hentry, hhuge⟩
    · rw [decodeEntry_eq_none.mpr habs] at htable
      rw [show windowSlot :: [i, j] = ([windowSlot] ++ [i]) ++ [j] from rfl, entryAt,
        RadixTree.present_concat, show RadixTree.table _ _ _ _ = _ from htable] at he
      cases he
    · rw [hentry, decodeEntry_frame hhuge.frame (by decide) (by decide)] at htable
      obtain ⟨rfl, -⟩ := found_eq_some ((entryAt_concat htable j).symm.trans he)
      exact .inr (hhuge.huge j)
  | _ :: _ :: _ :: _, hp, _ =>
    simp only [List.length_cons] at hp
    omega

theorem InOrder.leadsOn (h : l.InOrder root s) (hok : mapWindow s root = some s') {p : TablePath}
    {e : Nat} (hp : p.length ≤ 3) (he : entryAt s'.mem root p = some e) : LeadsOn e := by
  obtain ⟨qs, hlaid⟩ := h
  match p, hp, he with
  | [], _, he => cases he
  | i :: p, hp, he =>
    by_cases hi : i = windowSlot
    · subst hi
      obtain ⟨pdpt, hwindow⟩ := hlaid.windowed hok
      exact hwindow.leadsOn hp he
    · rw [hlaid.mapWindow hok i p hi (by omega)] at he
      exact .inl (hlaid.inner _ e hp he)

variable {args : BuildArgs} {poolBase : Nat} {m m' : Mem}

theorem nonzero_of_build (hok : buildPageTables args (some poolBase) m = .ok (some (root, m'))) :
    poolBase ≠ 0 ∧ 0 < args.poolPages := by
  by_contra hbad
  have hzero : ∀ m, (poolAlloc ⟨⟨poolBase, 0, args.poolPages⟩, m⟩).1 = 0 := by
    intro m
    unfold poolAlloc
    split
    · rfl
    · rename_i hroom
      obtain rfl : poolBase = 0 := by
        simp only at hroom
        omega
      simp only [Nat.zero_mul, Nat.add_zero]
      rfl
  simp only [buildPageTables, if_pos (hzero _)] at hok
  cases hok

/-- A run that returns tables never finds the check of the checked builder failing. -/
theorem build_lays (hpool : PoolGranted poolBase args.poolPages)
    (hok : buildPageTables args (some poolBase) m = .ok (some (root, m'))) :
    (∃ s s', (ofPool hpool m).InOrder root s ∧ mapWindow s root = some s' ∧ s'.mem = m') ∧
      buildPageTablesChecked args (some poolBase) m = .ok (some (root, m')) := by
  obtain ⟨hne, hpages⟩ := nonzero_of_build hok
  obtain ⟨s0, halloc, -, hstart⟩ := Laid.start (l := ofPool hpool m) hne hpages
  change poolAlloc ⟨⟨poolBase, 0, args.poolPages⟩,
    clearWords m poolBase (wrap64 (args.poolPages * 512))⟩ = (poolBase, s0) at halloc
  have hword : ∀ {a stop : Nat}, a < wrap64 stop → a < 2 ^ 64 := fun h =>
    Nat.lt_trans h (Nat.mod_lt _ (by decide))
  simp only [buildPageTables, halloc, if_neg hne] at hok
  obtain ⟨s1, h1, hok⟩ := bind_eq_ok.mp hok
  obtain ⟨s2, h2⟩ : ∃ s2, mapDescriptors poolBase args.descriptorSize
    (args.memoryMapSize / args.descriptorSize) args.memoryMap s1 = s2 := ⟨_, rfl⟩
  rw [h2] at hok
  obtain ⟨s3, h3, hok⟩ := bind_eq_ok.mp hok
  obtain ⟨s4, h4, hok⟩ := bind_eq_ok.mp hok
  obtain ⟨s5, h5, hok⟩ := bind_eq_ok.mp hok
  obtain ⟨s6, h6, hok⟩ := bind_eq_ok.mp hok
  obtain ⟨s7, h7⟩ : ∃ s7, (if args.rsdpAddr = 0 then s6
    else mapPagePool s6 poolBase (args.rsdpAddr &&& pageMask) (args.rsdpAddr &&& pageMask)
      Flag.present) = s7 := ⟨_, rfl⟩
  rw [h7] at hok
  obtain ⟨s', hwindow, hresult⟩ := Option.map_eq_some_iff.mp (Except.ok.inj hok)
  cases hresult
  have l1 : (ofPool hpool m).Lays root _ s0 s1 := lays_whilePages
    (fun a s s' ha h => lays_identityMap (plain_imageFlags (hword ha)) h) h1
  have l2 : (ofPool hpool m).Lays root _ s1 s2 := h2 ▸ lays_mapDescriptors _ _ _ s1
  have l3 : (ofPool hpool m).Lays root _ s2 s3 := lays_whilePages
    (fun a s s' ha h => lays_mapTwice (fun _ => plain_imageFlags (hword ha)) h) h3
  have l4 : (ofPool hpool m).Lays root _ s3 s4 := lays_whilePages
    (fun a s s' ha h => lays_mapTwice (fun _ => plain_dataFlags (hword ha)) h) h4
  have l5 : (ofPool hpool m).Lays root _ s4 s5 := lays_whilePages
    (fun a s s' ha h => lays_identityMap (plain_imageFlags (hword ha)) h) h5
  have l6 : (ofPool hpool m).Lays root _ s5 s6 := lays_whilePages
    (fun a s s' ha h => lays_identityMap (plain_imageFlags (hword ha)) h) h6
  have l7 : (ofPool hpool m).Lays root _ s6 s7 := h7 ▸ lays_rsdp args.rsdpAddr s6
  -- the window is built last, so the pool had a page left after every step before it
  have r7 := mapWindow_room hwindow
  have r6 := r7.before l7.before
  have r5 := r6.before l6.before
  have r4 := r5.before l5.before
  have r3 := r4.before l4.before
  have r2 := r3.before l3.before
  have r1 := r2.before l2.before
  refine ⟨⟨s7, s', ?_, hwindow, rfl⟩, ?_⟩
  · have o3 := l3.inOrder r3 (l2.inOrder r2 (l1.inOrder r1 ⟨[], hstart⟩))
    exact l7.inOrder r7 (l6.inOrder r6 (l5.inOrder r5 (l4.inOrder r4 o3)))
  · simp only [buildPageTablesChecked, halloc, if_neg hne]
    refine bind_eq_ok.mpr ⟨s1, l1.checked r1, bind_eq_ok.mpr ⟨s2, l2.checked r2, ?_⟩⟩
    refine bind_eq_ok.mpr ⟨s3, l3.checked r3, bind_eq_ok.mpr ⟨s4, l4.checked r4, ?_⟩⟩
    refine bind_eq_ok.mpr ⟨s5, l5.checked r5, bind_eq_ok.mpr ⟨s6, l6.checked r6, ?_⟩⟩
    refine bind_eq_ok.mpr ⟨s7, l7.checked r7, ?_⟩
    rw [hwindow]
    rfl

end LoadPlan

def sizedLoad : LoadPlan :=
  { lowLoad with
    poolPages := 256
    pool_low := by decide
    buffer_apart := by decide }

theorem sizedLoad_pages : Loader.poolPagesFor sizedLoad.toBuildArgs tinyMemory = 256 := by
  decide +kernel

theorem sizedLoad_sized : Loader.sized sizedLoad.toBuildArgs tinyMemory = sizedLoad.toBuildArgs := by
  rw [Loader.sized, sizedLoad_pages]
  rfl

theorem sizedLoad_ok : ∃ m, sizedLoad.build = .ok (some (sizedLoad.poolBase, m)) := by
  refine sizedLoad.build_ok_of_regions [0, 1, kernelVirtualBase / 2 ^ 21] (by decide) ?_ (by decide)
  rw [LoadPlan.requests, show sizedLoad.descriptors = tinyBoot.descriptors from rfl,
    tinyBoot_descriptors]
  decide +kernel

open Loader in
/-- Tables that are returned come from a run in which `map_page_pool` always got its pages, and
no entry of theirs that leads to a further table leads to page zero. -/
theorem build_never_starved {args : BuildArgs} {poolBase root : Nat} {m m' : Mem}
    (hpool : PoolGranted poolBase (poolPagesFor args m))
    (hok : buildPageTables (sized args m) (some poolBase) m = .ok (some (root, m'))) :
    buildPageTablesChecked (sized args m) (some poolBase) m = .ok (some (root, m')) ∧
      ∀ (p : TablePath) (e : Nat), p.length ≤ 3 → entryAt m' root p = some e →
        e &&& Flag.huge = 0 → e &&& pageMask ≠ 0 := by
  obtain ⟨⟨s, s', horder, hwindow, rfl⟩, hchecked⟩ := LoadPlan.build_lays hpool hok
  exact ⟨hchecked, fun p e hp he hleaf => (horder.leadsOn hwindow hp he).not_zero hleaf⟩

open Loader in
theorem build_never_starved_sizedLoad : ∃ m',
    PoolGranted 0x200000 (poolPagesFor sizedLoad.toBuildArgs tinyMemory) ∧
    buildPageTables (sized sizedLoad.toBuildArgs tinyMemory) (some 0x200000) tinyMemory =
      .ok (some (0x200000, m')) ∧
    buildPageTablesChecked (sized sizedLoad.toBuildArgs tinyMemory) (some 0x200000) tinyMemory =
      .ok (some (0x200000, m')) ∧
    ∀ (p : TablePath) (e : Nat), p.length ≤ 3 → entryAt m' 0x200000 p = some e →
      e &&& Flag.huge = 0 → e &&& pageMask ≠ 0 := by
  obtain ⟨m', hok⟩ := sizedLoad_ok
  have hpool : PoolGranted 0x200000 (poolPagesFor sizedLoad.toBuildArgs tinyMemory) := by
    rw [sizedLoad_pages]
    exact ⟨by decide, by decide⟩
  have hsized : buildPageTables (sized sizedLoad.toBuildArgs tinyMemory) (some 0x200000) tinyMemory =
      .ok (some (0x200000, m')) := by
    rw [sizedLoad_sized]
    exact hok
  exact ⟨m', hpool, hsized, build_never_starved hpool hsized⟩

end CrapOs
