import CrapOs.MemoryManager.BootTables
import CrapOs.MemoryManager.TableForest

/-! # The page tables of the boot loader

`build_page_tables` runs before the kernel, on memory the firmware maps one to
one, and takes its tables from a pool by a bump pointer. An exhausted pool hands
out page zero. `map_page_pool` does not look, but the last step of the builder
allocates from the same pool and gives up, so tables that are returned were
never short of a page.
-/

namespace CrapOs

open Foundation

structure PagePool where
  base : Nat
  used : Nat
  cap : Nat

structure LoaderState where
  pool : PagePool
  mem : Mem

def Flag.huge : Nat := 1 <<< 7

namespace Loader

def kernelStackPages : Nat := 32
def kernelStackSize : Nat := kernelStackPages * pageSize

/-- `for (i = 0; i < n; i++) p[i] = 0` -/
def clearWords (m : Mem) (p n : Nat) : Mem :=
  (List.range n).foldl (fun m i => m.write64 (p + 8 * i) 0) m

def ptIndex (virt level : Nat) : Nat := virt >>> (12 + 9 * (level - 1)) &&& 0x1FF

def poolAlloc (s : LoaderState) : Nat × LoaderState :=
  if s.pool.cap ≤ s.pool.used then (0, s)
  else
    let page := wrap64 (s.pool.base + s.pool.used * pageSize)
    (page, ⟨{ s.pool with used := s.pool.used + 1 }, clearWords s.mem page 512⟩)

/-- What `map_page_pool` does at each of the three upper levels. -/
def openTable (s : LoaderState) (entry : Nat) : Nat × LoaderState :=
  let s :=
    if s.mem.read64 entry &&& Flag.present = 0 then
      let (table, s) := poolAlloc s
      { s with mem := s.mem.write64 entry (table ||| Flag.present ||| Flag.writable) }
    else s
  (s.mem.read64 entry &&& pageMask, s)

def mapPagePool (s : LoaderState) (pml4 virtualAddr physicalAddr flags : Nat) : LoaderState :=
  let (pdptAddr, s) := openTable s (pml4 + ptIndex virtualAddr 4 * 8)
  let (pdAddr, s) := openTable s (pdptAddr + ptIndex virtualAddr 3 * 8)
  let (ptAddr, s) := openTable s (pdAddr + ptIndex virtualAddr 2 * 8)
  let pte := ptAddr + ptIndex virtualAddr 1 * 8
  { s with mem := s.mem.write64 pte ((physicalAddr &&& pageMask) ||| flags) }

def identityMap (pml4 flags addr : Nat) (s : LoaderState) : Except Halt LoaderState :=
  .ok (mapPagePool s pml4 addr addr flags)

def mapTwice (pml4 flags addr : Nat) (s : LoaderState) : Except Halt LoaderState :=
  let s := mapPagePool s pml4 addr addr flags
  .ok (mapPagePool s pml4 (wrap64 (addr + kernelVirtualBase)) addr flags)

def mapDescriptor (pml4 : Nat) (d : EfiMemoryDescriptor) (s : LoaderState) : LoaderState :=
  if d.shouldIdentityMap then
    (List.range d.numPages).foldl (fun s pg =>
      let phys := wrap64 (d.physicalStart + wrap64 (pg * pageSize))
      mapPagePool s pml4 phys phys imageFlags) s
  else s

/-- Step 4, with the descriptors read from the memory the tables are built in. -/
def mapDescriptors (pml4 descriptorSize : Nat) : Nat → Nat → LoaderState → LoaderState
  | 0, _, s => s
  | count + 1, desc, s =>
    let s := mapDescriptor pml4 (EfiMemoryDescriptor.ofBytes s.mem desc) s
    mapDescriptors pml4 descriptorSize count (wrap64 (desc + descriptorSize)) s

def mapGigabyte (pdptPage : Nat) (s : LoaderState) (pdptI : Nat) : Option LoaderState :=
  let (pdPage, s) := poolAlloc s
  if pdPage = 0 then none
  else
    let m := s.mem.write64 (pdptPage + pdptI * 8) (pdPage ||| Flag.present ||| Flag.writable)
    let m := (List.range 512).foldl (fun m pdI =>
      let phys := (pdptI * 512 + pdI) * 0x200000
      m.write64 (pdPage + pdI * 8) (phys ||| Flag.present ||| Flag.writable ||| Flag.huge)) m
    some { s with mem := m }

def mapWindow (s : LoaderState) (pml4 : Nat) : Option LoaderState :=
  let (pdptPage, s) := poolAlloc s
  if pdptPage = 0 then none
  else
    let pml4e := pml4 + ptIndex kernelPhysicalMapBase 4 * 8
    let m := s.mem.write64 pml4e (pdptPage ||| Flag.present ||| Flag.writable)
    (List.range 4).foldlM (mapGigabyte pdptPage) { s with mem := m }

structure BuildArgs where
  memoryMap : Nat
  memoryMapSize : Nat
  descriptorSize : Nat
  kernelBuffer : Nat
  kernelSize : Nat
  kernelStackBase : Nat
  framebufferBase : Nat
  framebufferSize : Nat
  poolPages : Nat
  rsdpAddr : Nat

/-- `poolBase` is what `AllocatePages` returned for the pool, if it succeeded. The result
is `none` where the source returns 0. -/
def buildPageTables (args : BuildArgs) (poolBase : Option Nat) (m : Mem) :
    Except Halt (Option (Nat × Mem)) := do
  let some poolBase := poolBase | return none
  let m := clearWords m poolBase (wrap64 (args.poolPages * 512))
  let (pml4, s) := poolAlloc ⟨⟨poolBase, 0, args.poolPages⟩, m⟩
  if pml4 = 0 then return none
  let poolEnd := wrap64 (poolBase + wrap64 (args.poolPages * pageSize))
  let s ← whilePages (identityMap pml4 imageFlags) poolEnd (pageFuel poolEnd) poolBase s
  let s := mapDescriptors pml4 args.descriptorSize (args.memoryMapSize / args.descriptorSize)
    args.memoryMap s
  let kernelEnd := wrap64 (args.kernelBuffer + args.kernelSize)
  let s ← whilePages (mapTwice pml4 imageFlags) kernelEnd (pageFuel kernelEnd) args.kernelBuffer s
  let stackEnd := wrap64 (args.kernelStackBase + kernelStackSize)
  let s ← whilePages (mapTwice pml4 dataFlags) stackEnd (pageFuel stackEnd)
    (args.kernelStackBase &&& pageMask) s
  let fbEnd := wrap64 (args.framebufferBase + args.framebufferSize)
  let s ← whilePages (identityMap pml4 imageFlags) fbEnd (pageFuel fbEnd)
    (args.framebufferBase &&& pageMask) s
  let mapEnd := wrap64 (args.memoryMap + args.memoryMapSize)
  let s ← whilePages (identityMap pml4 imageFlags) mapEnd (pageFuel mapEnd)
    (args.memoryMap &&& pageMask) s
  let s :=
    if args.rsdpAddr = 0 then s
    else
      let rsdpPage := args.rsdpAddr &&& pageMask
      mapPagePool s pml4 rsdpPage rsdpPage Flag.present
  return (mapWindow s pml4).map fun s => (pml4, s.mem)

def kernelStackTopVirt (kernelStackBase : Nat) : Nat :=
  wrap64 (wrap64 (kernelStackBase + kernelStackSize - 8) + kernelVirtualBase)

theorem clearWords_succ (m : Mem) (p n : Nat) :
    clearWords m p (n + 1) = (clearWords m p n).write64 (p + 8 * n) 0 := by
  rw [clearWords, List.range_succ, List.foldl_append]
  rfl

theorem clearWords_apply (m : Mem) (p n x : Nat) :
    clearWords m p n x = if p ≤ x ∧ x < p + 8 * n then 0 else m x := by
  induction n with
  | zero =>
    rw [if_neg (by omega)]
    rfl
  | succ n ih =>
    rw [clearWords_succ]
    simp only [Mem.write64, Mem.writeLE, ih]
    by_cases hx : p + 8 * n ≤ x ∧ x < p + 8 * n + 8
    · rw [if_pos hx, if_pos (by omega), Nat.zero_div]
      rfl
    · rw [if_neg hx]
      by_cases hlow : p ≤ x ∧ x < p + 8 * n
      · rw [if_pos hlow, if_pos (by omega)]
      · rw [if_neg hlow, if_neg (by omega)]

theorem tableEntry_clearWords (m : Mem) (t : Nat) (i : Fin 512) :
    tableEntry (clearWords m t 512) t i = 0 := by
  apply Mem.read64_of_zero
  intro x hl hu
  rw [clearWords_apply, if_pos (by omega)]

theorem tableEntry_clearWords_other (m : Mem) {t f : Nat} (ht : IsFrame t) (hf : IsFrame f)
    (hne : t ≠ f) (i : Fin 512) : tableEntry (clearWords m f 512) t i = tableEntry m t i := by
  apply tableEntry_congr
  intro x hl hu
  have hapart := ht.apart hf hne
  simp only [pageSize] at hapart hu
  rw [clearWords_apply, if_neg (by omega)]

end Loader

/-! ## The pool -/

def PagePool.free (pool : PagePool) : List Nat :=
  (List.range (pool.cap - pool.used)).map fun i => pool.base + (pool.used + i) * pageSize

theorem PagePool.free_cons {pool : PagePool} (h : pool.used < pool.cap) :
    pool.free = (pool.base + pool.used * pageSize) :: ({ pool with used := pool.used + 1 } : PagePool).free := by
  have hcount : pool.cap - pool.used = pool.cap - (pool.used + 1) + 1 := by omega
  rw [free, hcount, List.range_succ_eq_map, List.map_cons, List.map_map]
  refine congrArg _ (List.map_congr_left fun i _ => ?_)
  simp only [Function.comp, pageSize]
  omega

theorem PagePool.mem_free {pool : PagePool} {a : Nat} (h : a ∈ pool.free) :
    ∃ i, pool.used ≤ i ∧ i < pool.cap ∧ a = pool.base + i * pageSize := by
  obtain ⟨i, hi, rfl⟩ := List.mem_map.mp h
  have hlt := List.mem_range.mp hi
  exact ⟨pool.used + i, by omega, by omega, rfl⟩

/-- The arguments of `build_page_tables` with what the firmware guarantees about them: memory
lies in the half of the address space it can map one to one, and allocations do not overlap. -/
structure LoadPlan extends Loader.BuildArgs where
  mem : Mem
  poolBase : Nat
  pool_aligned : poolBase % pageSize = 0
  pool_low : poolBase + poolPages * pageSize ≤ 2 ^ 47
  descriptorSize_ge : EfiMemoryDescriptor.byteSize ≤ descriptorSize
  buffer_low : memoryMap + memoryMapSize ≤ 2 ^ 47
  buffer_apart : memoryMap + memoryMapSize ≤ poolBase ∨ poolBase + poolPages * pageSize ≤ memoryMap
  descriptors_low : ∀ d ∈ descriptorsFrom mem descriptorSize (memoryMapSize / descriptorSize) memoryMap,
    d.stop ≤ 2 ^ 47
  kernel_low : kernelBuffer + kernelSize ≤ 2 ^ 31
  stack_aligned : kernelStackBase % pageSize = 0
  stack_low : kernelStackBase + Loader.kernelStackSize ≤ 2 ^ 47
  framebuffer_low : framebufferBase + framebufferSize ≤ 2 ^ 47
  rsdp_low : rsdpAddr < 2 ^ 47

namespace LoadPlan

open Loader

variable {l : LoadPlan} {root t a : Nat} {qs qs' : List MapRequest} {s s' : LoaderState}
  {p : TablePath} {i : Fin 512}

def descriptors (l : LoadPlan) : List EfiMemoryDescriptor :=
  descriptorsFrom l.mem l.descriptorSize (l.memoryMapSize / l.descriptorSize) l.memoryMap

def build (l : LoadPlan) : Except Halt (Option (Nat × Mem)) :=
  buildPageTables l.toBuildArgs (some l.poolBase) l.mem

def IsPoolPage (l : LoadPlan) (a : Nat) : Prop := ∃ i < l.poolPages, a = l.poolBase + i * pageSize

theorem IsPoolPage.isFrame (h : l.IsPoolPage a) (hbase : l.poolBase ≠ 0) : IsFrame a := by
  obtain ⟨i, hi, rfl⟩ := h
  have hal := l.pool_aligned
  have hlow := l.pool_low
  simp only [pageSize] at hal hlow
  refine ⟨?_, ?_, ?_⟩
  · simp only [pageSize]
    omega
  · simp only [pageSize]
    omega
  · rw [directMapWindow_eq]
    simp only [pageSize]
    omega

/-- The tables below `root` hold what the requests `qs` say and nothing else, in pages of
the pool. -/
structure Laid (l : LoadPlan) (root : Nat) (qs : List MapRequest) (s : LoaderState) : Prop where
  nonzero : l.poolBase ≠ 0
  base : s.pool.base = l.poolBase
  cap : s.pool.cap = l.poolPages
  tree : PageTree s.mem root s.pool.free
  inPool : ∀ p t, p.length ≤ 3 → tableAt s.mem root p = some t → l.IsPoolPage t
  leaf : ∀ p : TablePath, p.length = 4 → entryAt s.mem root p = lastLeaf qs p
  inner : ∀ (p : TablePath) (e : Nat), p.length ≤ 3 → entryAt s.mem root p = some e →
    ∃ f, IsFrame f ∧ e = f ||| intermediateFlags false
  writes : Mem.ChangesOnly l.mem s.mem pageSize l.IsPoolPage

/-- A step that hung the next page of the pool in at `p`. -/
structure Hung (root : Nat) (p : TablePath) (s s' : LoaderState) : Prop where
  room : s.pool.used < s.pool.cap
  pool : s'.pool = { s.pool with used := s.pool.used + 1 }
  entry : ∃ f, IsFrame f ∧ ∀ q : TablePath, q.length ≤ 4 → entryAt s'.mem root q =
    if q = p then some (f ||| intermediateFlags false) else entryAt s.mem root q

theorem poolAlloc_of_room (hbase : s.pool.base = l.poolBase) (hcap : s.pool.cap = l.poolPages)
    (h : s.pool.used < s.pool.cap) :
    poolAlloc s = (s.pool.base + s.pool.used * pageSize,
      ⟨{ s.pool with used := s.pool.used + 1 },
        clearWords s.mem (s.pool.base + s.pool.used * pageSize) 512⟩) := by
  have hlow := l.pool_low
  have hwrap : wrap64 (s.pool.base + s.pool.used * pageSize) = s.pool.base + s.pool.used * pageSize := by
    apply wrap64_of_lt
    simp only [pageSize] at hlow ⊢
    omega
  rw [poolAlloc, if_neg (by omega)]
  simp only [hwrap]

theorem poolAlloc_of_full (h : s.pool.cap ≤ s.pool.used) : poolAlloc s = (0, s) := by
  rw [poolAlloc, if_pos h]

theorem Laid.next (h : l.Laid root qs s) (hroom : s.pool.used < s.pool.cap) :
    l.IsPoolPage (s.pool.base + s.pool.used * pageSize) :=
  ⟨s.pool.used, h.cap ▸ hroom, by rw [h.base]⟩

/-- The next page of the pool, cleared and hung into an absent entry. -/
theorem Laid.hang (h : l.Laid root qs s) (hp : p.length < 3) (ht : tableAt s.mem root p = some t)
    (habs : entryAt s.mem root (p ++ [i]) = none) (hroom : s.pool.used < s.pool.cap) {f : Nat}
    (hf : s.pool.base + s.pool.used * pageSize = f) :
    ∃ m', (clearWords s.mem f 512).write64 (t + 8 * i.val) (f ||| intermediateFlags false) = m' ∧
      tableEntry m' t i &&& pageMask = f ∧ tableAt m' root (p ++ [i]) = some f ∧
      Hung root (p ++ [i]) s ⟨{ s.pool with used := s.pool.used + 1 }, m'⟩ ∧
      l.Laid root qs ⟨{ s.pool with used := s.pool.used + 1 }, m'⟩ := by
  have hpage := h.next hroom
  have hfree := PagePool.free_cons hroom
  rw [hf] at hpage hfree
  have hframe := hpage.isFrame h.nonzero
  have htree := h.tree
  rw [hfree] at htree
  have htframe := htree.frames p t (by omega) ht
  have htf : t ≠ f := fun heq => htree.off p t (by omega) ht (heq ▸ List.mem_cons_self)
  have hfresh : f ∉ ({ s.pool with used := s.pool.used + 1 } : PagePool).free := by
    intro hin
    obtain ⟨j, hj, -, heq⟩ := PagePool.mem_free hin
    simp only [← hf, pageSize] at hj heq
    omega
  have hlt : f ||| intermediateFlags false < 2 ^ 64 := or_lt_two_pow_64 hframe.lt (by decide)
  have hdecode : decodeEntry (f ||| intermediateFlags false) = some f :=
    decodeEntry_frame hframe (by decide) (by decide)
  obtain ⟨m', hm'⟩ : ∃ m', (clearWords s.mem f 512).write64 (t + 8 * i.val)
    (f ||| intermediateFlags false) = m' := ⟨_, rfl⟩
  have hentry : tableEntry m' t i = f ||| intermediateFlags false :=
    hm' ▸ tableEntry_write_same _ _ _ hlt
  obtain ⟨htree', hedit⟩ := htree.graft m' hframe hfresh hp ht habs
    (fun b j hb hne hslot => by
      rw [← hm', tableEntry_write_other _ _ hb htframe hslot, tableEntry_clearWords_other _ hb hframe hne])
    (fun j => by
      rw [← hm', tableEntry_write_other _ _ hframe htframe fun heq => htf heq.1.symm,
        tableEntry_clearWords])
    hentry hdecode
  have hlen : (p ++ [i]).length ≤ 3 := by
    rw [List.length_append, List.length_singleton]
    omega
  refine ⟨m', hm', ?_, ?_, ⟨hroom, rfl, f, hframe, hedit⟩, h.nonzero, h.base, h.cap, htree', ?_, ?_, ?_, ?_⟩
  · rw [hentry, frame_or_and_pageMask hframe (by decide)]
  · rw [tableAt_eq_entryAt (by simp), hedit _ (by omega), if_pos rfl]
    exact hdecode
  · intro q u hq hu
    by_cases hnil : q = []
    · subst hnil
      exact h.inPool [] u hq hu
    · rw [tableAt_eq_entryAt hnil, hedit q (by omega)] at hu
      by_cases heq : q = p ++ [i]
      · rw [if_pos heq, Option.bind_some, hdecode] at hu
        cases hu
        exact hpage
      · rw [if_neg heq, ← tableAt_eq_entryAt hnil] at hu
        exact h.inPool q u hq hu
  · intro q hq
    have hne : q ≠ p ++ [i] := fun heq => by
      rw [heq] at hq
      omega
    rw [hedit q hq.le, if_neg hne, h.leaf q hq]
  · intro q e hq he
    rw [hedit q (by omega)] at he
    by_cases heq : q = p ++ [i]
    · rw [if_pos heq] at he
      exact ⟨f, hframe, (Option.some.inj he).symm⟩
    · rw [if_neg heq] at he
      exact h.inner q e hq he
  · have hi := i.isLt
    have hclear : Mem.ChangesOnly s.mem (clearWords s.mem f 512) pageSize l.IsPoolPage := by
      intro x hx
      have hout := hx f hpage
      simp only [pageSize] at hout
      rw [clearWords_apply, if_neg (by omega)]
    rw [← hm']
    exact (h.writes.trans hclear).trans (Mem.changesOnly_write64 _ (h.inPool p t (by omega) ht)
      (by simp only [pageSize]; omega))

theorem Laid.openTable_cases (h : l.Laid root qs s) (hp : p.length < 3)
    (ht : tableAt s.mem root p = some t) (i : Fin 512) :
    (∃ u, openTable s (t + i.val * 8) = (u, s) ∧ tableAt s.mem root (p ++ [i]) = some u) ∨
    (s.pool.cap ≤ s.pool.used ∧ (openTable s (t + i.val * 8)).2.pool = s.pool) ∨
    ∃ u s', openTable s (t + i.val * 8) = (u, s') ∧ tableAt s'.mem root (p ++ [i]) = some u ∧
      entryAt s.mem root (p ++ [i]) = none ∧ Hung root (p ++ [i]) s s' ∧ l.Laid root qs s' := by
  rw [Nat.mul_comm i.val 8]
  by_cases hbit : s.mem.read64 (t + 8 * i.val) &&& Flag.present = 0
  · by_cases hroom : s.pool.used < s.pool.cap
    · have habs : entryAt s.mem root (p ++ [i]) = none := by
        rw [entryAt_concat ht i, RadixTree.found_eq_none, decodeEntry_eq_none]
        exact hbit
      have hpool := poolAlloc_of_room h.base h.cap hroom
      obtain ⟨f, hf⟩ : ∃ f, s.pool.base + s.pool.used * pageSize = f := ⟨_, rfl⟩
      obtain ⟨m', hm', hback, htable, hhung, hlaid⟩ := h.hang hp ht habs hroom hf
      have hflags : f ||| Flag.present ||| Flag.writable = f ||| intermediateFlags false := by
        rw [Nat.or_assoc]
        rfl
      rw [hf] at hpool
      refine .inr (.inr ⟨f, _, ?_, htable, habs, hhung, hlaid⟩)
      simp only [openTable, if_pos hbit, hpool, hflags, hm']
      exact Prod.ext hback rfl
    · refine .inr (.inl ⟨by omega, ?_⟩)
      simp only [openTable, if_pos hbit, poolAlloc_of_full (Nat.le_of_not_lt hroom)]
  · refine .inl ⟨s.mem.read64 (t + 8 * i.val) &&& pageMask, ?_, ?_⟩
    · simp only [openTable, if_neg hbit]
    · rw [tableAt_concat ht i]
      exact decodeEntry_of_present hbit

end LoadPlan

/-! ## Whole calls -/

namespace PagePool

def Before (pool pool' : PagePool) : Prop := pool'.cap = pool.cap ∧ pool.used ≤ pool'.used

def Room (pool : PagePool) : Prop := pool.used < pool.cap

variable {pool pool1 pool2 : PagePool}

theorem Before.refl (pool : PagePool) : pool.Before pool := ⟨rfl, Nat.le_refl _⟩

theorem Before.trans (h1 : pool.Before pool1) (h2 : pool1.Before pool2) : pool.Before pool2 :=
  ⟨h2.1.trans h1.1, Nat.le_trans h1.2 h2.2⟩

theorem Room.before (h : pool1.Room) (hb : pool.Before pool1) : pool.Room :=
  Nat.lt_of_le_of_lt hb.2 (hb.1 ▸ h)

end PagePool

namespace Loader

variable {s : LoaderState}

theorem poolAlloc_before (s : LoaderState) : s.pool.Before (poolAlloc s).2.pool := by
  unfold poolAlloc
  split
  · exact .refl _
  · exact ⟨rfl, Nat.le_succ _⟩

theorem openTable_before (s : LoaderState) (entry : Nat) :
    s.pool.Before (openTable s entry).2.pool := by
  unfold openTable
  by_cases hbit : s.mem.read64 entry &&& Flag.present = 0
  · simp only [if_pos hbit]
    exact poolAlloc_before s
  · simp only [if_neg hbit]
    exact .refl _

theorem mapPagePool_eq {root v pdpt pd pt : Nat} {s1 s2 s3 : LoaderState}
    (h1 : openTable s (root + (tableSlot 39 v).val * 8) = (pdpt, s1))
    (h2 : openTable s1 (pdpt + (tableSlot 30 v).val * 8) = (pd, s2))
    (h3 : openTable s2 (pd + (tableSlot 21 v).val * 8) = (pt, s3)) (pa flags : Nat) :
    mapPagePool s root v pa flags =
      ⟨s3.pool, s3.mem.write64 (pt + ptIndex v 1 * 8) ((pa &&& pageMask) ||| flags)⟩ := by
  change openTable s (root + ptIndex v 4 * 8) = _ at h1
  change openTable s1 (pdpt + ptIndex v 3 * 8) = _ at h2
  change openTable s2 (pd + ptIndex v 2 * 8) = _ at h3
  simp only [mapPagePool, h1, h2, h3]

def layAll (pml4 : Nat) (s : LoaderState) (qs : List MapRequest) : LoaderState :=
  qs.foldl (fun s q => mapPagePool s pml4 q.virtualAddr q.physicalAddr q.flags) s

theorem layAll_append (pml4 : Nat) (s : LoaderState) (xs ys : List MapRequest) :
    layAll pml4 s (xs ++ ys) = layAll pml4 (layAll pml4 s xs) ys := List.foldl_append

theorem layAll_cons (pml4 : Nat) (s : LoaderState) (q : MapRequest) (qs : List MapRequest) :
    layAll pml4 s (q :: qs) =
      layAll pml4 (mapPagePool s pml4 q.virtualAddr q.physicalAddr q.flags) qs := rfl

theorem mapPagePool_before (s : LoaderState) (pml4 v pa flags : Nat) :
    s.pool.Before (mapPagePool s pml4 v pa flags).pool :=
  ((openTable_before _ _).trans (openTable_before _ _)).trans (openTable_before _ _)

theorem mapDescriptor_before (pml4 : Nat) (d : EfiMemoryDescriptor) (s : LoaderState) :
    s.pool.Before (mapDescriptor pml4 d s).pool := by
  unfold mapDescriptor
  split
  · generalize List.range d.numPages = is
    induction is generalizing s with
    | nil => exact .refl _
    | cons i is ih => exact (mapPagePool_before s pml4 _ _ _).trans (ih _)
  · exact .refl _

theorem mapDescriptors_before (pml4 size count desc : Nat) (s : LoaderState) :
    s.pool.Before (mapDescriptors pml4 size count desc s).pool := by
  induction count generalizing desc s with
  | zero => exact .refl _
  | succ count ih => exact (mapDescriptor_before pml4 _ s).trans (ih _ _)

theorem layAll_before (pml4 : Nat) (s : LoaderState) (qs : List MapRequest) :
    s.pool.Before (layAll pml4 s qs).pool := by
  induction qs generalizing s with
  | nil => exact .refl _
  | cons q qs ih => exact (mapPagePool_before s pml4 _ _ _).trans (ih _)

end Loader

def MapRequest.Plain (q : MapRequest) : Prop := q.InRange ∧ q.flags ||| Flag.present = q.flags

namespace LoadPlan

open Loader

variable {l : LoadPlan} {root t a u n : Nat} {qs qs' : List MapRequest} {s s' : LoaderState}
  {p : TablePath} {i : Fin 512} {T : Finset TablePath}

theorem Laid.openTable (h : l.Laid root qs s) (hp : p.length < 3)
    (ht : tableAt s.mem root p = some t) (hrun : openTable s (t + i.val * 8) = (u, s'))
    (hroom : s'.pool.Room) : tableAt s'.mem root (p ++ [i]) = some u ∧ l.Laid root qs s' := by
  rcases h.openTable_cases hp ht i with ⟨u', hopen, htable⟩ | ⟨hfull, hpool⟩ |
    ⟨u', s1, hopen, htable, -, -, hlaid⟩
  · rw [hrun] at hopen
    cases hopen
    exact ⟨htable, h⟩
  · rw [hrun] at hpool
    change s'.pool = s.pool at hpool
    rw [PagePool.Room, hpool] at hroom
    omega
  · rw [hrun] at hopen
    cases hopen
    exact ⟨htable, hlaid⟩

/-- The leaf entry completes a request. -/
theorem Laid.setLeaf (h : l.Laid root qs s) {q : MapRequest} (hq : q.Plain)
    (ht : tableAt s.mem root (tablePath q.virtualAddr) = some t) :
    ∃ m', s.mem.write64 (t + Loader.ptIndex q.virtualAddr 1 * 8)
        ((q.physicalAddr &&& pageMask) ||| q.flags) = m' ∧
      (∀ p : TablePath, p.length ≤ 3 → entryAt m' root p = entryAt s.mem root p) ∧
      l.Laid root (qs ++ [q]) { s with mem := m' } := by
  obtain ⟨⟨hpa, hflags⟩, hpresent⟩ := hq
  have hlen := (length_tablePath q.virtualAddr).le
  have hframe := h.tree.frames _ t hlen ht
  have hvalue : (q.physicalAddr &&& pageMask) ||| q.flags = q.leaf := by
    rw [MapRequest.leaf, leafEntry, Nat.or_assoc, hpresent]
  have haddr : Loader.ptIndex q.virtualAddr 1 * 8 = 8 * (tableSlot 12 q.virtualAddr).val := Nat.mul_comm _ _
  rw [hvalue, haddr]
  obtain ⟨m', hm'⟩ : ∃ m', s.mem.write64 (t + 8 * (tableSlot 12 q.virtualAddr).val) q.leaf = m' :=
    ⟨_, rfl⟩
  have hlt : q.leaf < 2 ^ 64 := leafEntry_lt hpa hflags
  obtain ⟨htree, hedit⟩ := h.tree.setLeaf m' (tableSlot 12 q.virtualAddr) rfl ht
    (fun b j hb hslot => hm' ▸ tableEntry_write_other _ _ hb hframe hslot)
    (hm' ▸ tableEntry_write_same _ _ _ hlt)
  have hfound : RadixTree.found decodeEntry q.leaf = some q.leaf :=
    RadixTree.found_of_decode (decodeEntry_of_present (leafEntry_present _ _))
  have hpath : tablePath q.virtualAddr ++ [tableSlot 12 q.virtualAddr] = q.path := rfl
  rw [hfound, hpath] at hedit
  have hinner : ∀ p : TablePath, p.length ≤ 3 → entryAt m' root p = entryAt s.mem root p :=
    fun p hp => (hedit p (by omega)).trans (if_neg (ne_pagePath_of_length hp))
  refine ⟨m', hm', hinner, h.nonzero, h.base, h.cap, htree, ?_, ?_, ?_, ?_⟩
  · intro p b hp hb
    exact h.inPool p b hp ((tableAt_congr (hinner p hp)).symm.trans hb)
  · intro p hp
    rw [hedit p hp.le, lastLeaf_append, lastLeaf]
    by_cases heq : p = q.path
    · rw [if_pos heq, if_pos heq.symm]
      rfl
    · rw [if_neg heq, if_neg (Ne.symm heq), h.leaf p hp]
      rfl
  · intro p e hp he
    exact h.inner p e hp ((hinner p hp).symm.trans he)
  · rw [← hm']
    exact h.writes.trans (Mem.changesOnly_write64 _ (h.inPool _ t hlen ht)
      (by simp only [pageSize]; omega))

theorem Laid.mapPagePool (h : l.Laid root qs s) {q : MapRequest} (hq : q.Plain)
    (hroom : (mapPagePool s root q.virtualAddr q.physicalAddr q.flags).pool.Room) :
    l.Laid root (qs ++ [q]) (mapPagePool s root q.virtualAddr q.physicalAddr q.flags) := by
  obtain ⟨⟨pdpt, s1⟩, h1⟩ : ∃ r, Loader.openTable s
    (root + (tableSlot 39 q.virtualAddr).val * 8) = r := ⟨_, rfl⟩
  obtain ⟨⟨pd, s2⟩, h2⟩ : ∃ r, Loader.openTable s1
    (pdpt + (tableSlot 30 q.virtualAddr).val * 8) = r := ⟨_, rfl⟩
  obtain ⟨⟨pt, s3⟩, h3⟩ : ∃ r, Loader.openTable s2
    (pd + (tableSlot 21 q.virtualAddr).val * 8) = r := ⟨_, rfl⟩
  rw [mapPagePool_eq h1 h2 h3] at hroom ⊢
  have hroom3 : s3.pool.Room := hroom
  have hroom2 : s2.pool.Room := hroom3.before (by
    have hb := openTable_before s2 (pd + (tableSlot 21 q.virtualAddr).val * 8)
    rwa [h3] at hb)
  have hroom1 : s1.pool.Room := hroom2.before (by
    have hb := openTable_before s1 (pdpt + (tableSlot 30 q.virtualAddr).val * 8)
    rwa [h2] at hb)
  obtain ⟨ht1, hl1⟩ := h.openTable (p := []) (by simp) rfl h1 hroom1
  obtain ⟨ht2, hl2⟩ := hl1.openTable (by simp) ht1 h2 hroom2
  obtain ⟨ht3, hl3⟩ := hl2.openTable (by simp) ht2 h3 hroom3
  obtain ⟨m', hm', -, hlaid⟩ := hl3.setLeaf hq ht3
  rw [hm']
  exact hlaid

theorem Laid.layAll (h : l.Laid root qs s) (hqs : ∀ q ∈ qs', q.Plain)
    (hroom : (layAll root s qs').pool.Room) : l.Laid root (qs ++ qs') (layAll root s qs') := by
  induction qs' generalizing qs s with
  | nil =>
    rw [List.append_nil]
    exact h
  | cons q qs' ih =>
    have hfirst := h.mapPagePool (hqs q List.mem_cons_self) (hroom.before (layAll_before _ _ _))
    have hrest := ih hfirst (fun r hr => hqs r (List.mem_cons_of_mem q hr)) hroom
    rwa [List.append_assoc] at hrest

end LoadPlan

end CrapOs
