import CrapOs.MemoryManager.Heap.Runs

/-! # What the heap promises its clients

The contract of the allocator over every run: blocks never overlap, pointers are
aligned, freed memory comes back, and an exhausted heap fails cleanly. The first
holds as documented. For the others the exact condition is stated under which
the code keeps them, with a run of the booted heap that breaks it.
-/

namespace CrapOs

open Foundation Extents

variable {r : HeapRun}

theorem HeapRun.Reachable.allocate_fits (h : r.Reachable) (layout : Layout) {b : Extent}
    {rest : List Extent}
    (hfit : takeFit (allocationSizes layout).1 r.state.freeBlocks = some (b, rest)) :
    ∃ s', allocate r.state layout = .ok (b.start + (allocationSizes layout).2, s') ∧
      s'.freeBlocks = carve (allocationSizes layout).1 b rest ∧
      s'.heap.committed = r.state.heap.committed := by
  have hsome : (takeFit (allocationSizes layout).1 r.state.freeBlocks).isSome := by
    rw [hfit]
    rfl
  obtain ⟨c, rest', s', htake, hok, halloc⟩ := allocate_ok h.inv.shaped layout (.inl hsome)
  have hlist : servingList r.state r.state.freeBlocks (allocationSizes layout).1 =
      r.state.freeBlocks := if_pos hsome
  rw [hlist, hfit] at htake
  cases htake
  exact ⟨s', hok, halloc.shaped.freeBlocks_eq, by rw [halloc.committed, if_pos hsome]; rfl⟩

def bootManager : MemoryManager := ⟨stocked 64, virtOf true 0x1000⟩

theorem bootManager_sound : bootManager.Sound (stockedFrames 64) :=
  ⟨stocked_paging (by decide), true, rfl⟩

def bootHeap : HeapState := ⟨kernelHeap, fun _ => 0, some bootManager⟩

theorem bootHeap_start : (⟨bootHeap, [], 0⟩ : HeapRun).Start where
  isNew := rfl
  base_pos := by decide
  range := by decide
  half := by decide
  manager := by
    rintro mm ⟨⟩
    exact ⟨_, bootManager_sound⟩
  live := rfl
  lost := rfl

structure Booted (s : HeapState) : Prop where
  run : init bootHeap 16 = .ok s
  reachable : (⟨s, [], 0⟩ : HeapRun).Reachable
  blocks : s.freeBlocks = [⟨kernelHeapBase, 0x10000⟩]
  base : s.heap.base = kernelHeapBase
  maxSize : s.heap.maxSize = 64 * 1024 * 1024
  committed : s.heap.committed = 0x10000

theorem exists_booted : ∃ s, Booted s := by
  have hstart := bootHeap_start
  have hcan : CanGrow bootHeap 16 := by
    refine ⟨by decide, by decide, bootManager, rfl, ?_⟩
    rw [bootManager_sound.paging.free.count, length_stockedFrames]
    exact framesNeeded_le _ _ _ _ _
  obtain ⟨s, hrun, hgrew⟩ := grow_ok hstart.inv.shaped hcan
  exact ⟨s, hrun, .step (.start hstart) (.init hrun), hgrew.shaped.freeBlocks_eq, hgrew.base,
    hgrew.maxSize, hgrew.committed⟩

theorem Booted.allocate {s : HeapState} (h : Booted s) (layout : Layout)
    (hfits : (allocationSizes layout).1 ≤ 0x10000) :
    ∃ s', CrapOs.allocate s layout = .ok (kernelHeapBase + (allocationSizes layout).2, s') ∧
      s'.freeBlocks = carve (allocationSizes layout).1 ⟨kernelHeapBase, 0x10000⟩ [] ∧
      s'.heap.committed = 0x10000 := by
  have hfit : takeFit (allocationSizes layout).1 s.freeBlocks =
      some (⟨kernelHeapBase, 0x10000⟩, []) := by
    rw [h.blocks]
    exact if_pos hfits
  obtain ⟨s', hok, hblocks, hcom⟩ := h.reachable.allocate_fits layout hfit
  exact ⟨s', hok, hblocks, hcom.trans h.committed⟩

def oneByte : Layout := ⟨1, 1, ⟨0, rfl⟩, by decide⟩

def oneWord : Layout := ⟨8, 8, ⟨3, rfl⟩, by decide⟩

def almostAll : Layout := ⟨0xFFE8, 8, ⟨3, rfl⟩, by decide⟩

def allButNode : Layout := ⟨0xFFE0, 8, ⟨3, rfl⟩, by decide⟩

/-- In every reachable state the free list is increasing without touching blocks, free
and live blocks lie in the committed range, and no two of them overlap. -/
theorem heap_blocks_disjoint (h : r.Reachable) :
    let s := r.state
    Threaded s.mem s.heap.freeList s.freeBlocks 0 ∧
    s.freeBlocks.Pairwise (fun b c => b.start < c.start ∧ b.stop < c.start) ∧
    (∀ b ∈ s.freeBlocks, 16 ≤ b.size ∧ s.heap.base ≤ b.start ∧
      b.stop ≤ s.heap.base + s.heap.committed) ∧
    (∀ c ∈ r.live, s.heap.base ≤ c.block.start ∧ c.block.stop ≤ s.heap.base + s.heap.committed) ∧
    r.live.Pairwise (fun c d => c.block.Apart d.block) ∧
    ∀ b ∈ s.freeBlocks, ∀ c ∈ r.live, b.Apart c.block := by
  have hinv := h.inv
  have htidy := hinv.shaped.tidy
  refine ⟨hinv.shaped.threaded, ?_, ?_, ?_, hinv.apart, ?_⟩
  · refine htidy.separated.imp (fun hlt => ⟨?_, hlt⟩)
    simp only [Extent.stop] at hlt
    omega
  · exact fun b hb => ⟨htidy.size_ge b hb, htidy.start_ge b hb, htidy.stop_le b hb⟩
  · exact fun c hc => ⟨(hinv.held c hc).start_ge, (hinv.held c hc).stop_le⟩
  · exact fun b hb c hc => hinv.free_apart hc b hb

theorem heap_blocks_disjoint_of_booted : ∃ s, init bootHeap 16 = .ok s ∧
    ∃ s', allocate s oneByte = .ok (kernelHeapBase + 16, s') ∧
      ∀ b ∈ s'.freeBlocks, b.Apart ⟨kernelHeapBase, 17⟩ := by
  obtain ⟨s, hs⟩ := exists_booted
  obtain ⟨s', hok, -⟩ := hs.allocate oneByte (by decide)
  obtain ⟨-, -, -, -, -, hfree⟩ := heap_blocks_disjoint (.step hs.reachable (.allocate hok))
  exact ⟨s, hs.run, s', hok, fun b hb => hfree b hb _ List.mem_cons_self⟩

/-! ## Alignment -/

def OnGrid (A : Nat) (b : Extent) : Prop := A ∣ b.start ∧ A ∣ b.size

/-- A step after which every live block takes a multiple of `A` bytes. -/
def GridStep (A : Nat) (r r' : HeapRun) : Prop :=
  HeapStep r r' ∧ ∀ c ∈ r'.live, A ∣ c.block.size

structure GridInv (A : Nat) (r : HeapRun) (bs : List Extent) : Prop where
  heap : HeapInv r bs
  base : A ∣ r.state.heap.base
  committed : A ∣ r.state.heap.committed
  free : ∀ b ∈ bs, OnGrid A b
  live : ∀ c ∈ r.live, OnGrid A c.block

section Grid

variable {A : Nat} {bs : List Extent}

theorem GridStep.deallocate {c : LiveBlock} {s' : HeapState} (hlive : ∀ d ∈ r.live, A ∣ d.block.size)
    (hc : c ∈ r.live) (hok : CrapOs.deallocate r.state c.ptr = .ok s') :
    GridStep A r { r with state := s', live := r.live.erase c } :=
  ⟨.deallocate hc hok, fun d hd => hlive d (List.mem_of_mem_erase hd)⟩

theorem onGrid_insert {x : Extent} (hx : OnGrid A x) (hbs : ∀ b ∈ bs, OnGrid A b) :
    ∀ b ∈ Extents.insert x bs, OnGrid A b :=
  forall_insert (fun _ _ hb hc _ => ⟨hb.1, Nat.dvd_add hb.2 hc.2⟩) hx hbs

theorem GridInv.nextRegion (h : GridInv A r bs) (hA : A ∣ pageSize) (n : Nat) :
    OnGrid A (r.state.nextRegion n) :=
  ⟨Nat.dvd_add h.base h.committed, Nat.dvd_mul_left_of_dvd hA n⟩

theorem GridInv.servingList (h : GridInv A r bs) (hA : A ∣ pageSize) (total : Nat) :
    ∀ b ∈ CrapOs.servingList r.state bs total, OnGrid A b := by
  unfold CrapOs.servingList
  split
  · exact h.free
  · exact onGrid_insert (h.nextRegion hA _) h.free

theorem GridInv.init {n : Nat} {s' : HeapState} (h : GridInv A r bs) (hA : A ∣ pageSize)
    (hok : CrapOs.init r.state n = .ok s') :
    GridInv A { r with state := s' } (Extents.insert (r.state.nextRegion n) bs) := by
  have hgrew := grew_of_grow h.heap.shaped hok
  refine ⟨h.heap.init hok, ?_, ?_, onGrid_insert (h.nextRegion hA n) h.free, h.live⟩
  · rw [hgrew.base]
    exact h.base
  · rw [hgrew.committed]
    exact Nat.dvd_add h.committed (Nat.dvd_mul_left_of_dvd hA n)

theorem GridInv.allocate {layout : Layout} {ptr : Nat} {s' : HeapState} (h : GridInv A r bs)
    (hA : A ∣ pageSize) (hok : CrapOs.allocate r.state layout = .ok (ptr, s'))
    (htotal : A ∣ (allocationSizes layout).1) :
    ∃ bs', GridInv A ⟨s', handedOut layout ptr :: r.live,
      r.lost + r.state.stranded (allocationSizes layout).1⟩ bs' := by
  obtain ⟨b, rest, htake, hptr, halloc⟩ := allocated_of_allocate h.heap.shaped hok
  have hnew := h.heap.allocate htake hptr halloc
  have hserving := h.servingList hA (allocationSizes layout).1
  obtain ⟨pre, post, hlist, rfl, -⟩ := takeFit_eq_some htake
  rw [hlist] at hserving
  obtain ⟨hstart, hsize⟩ := hserving b (by simp)
  have hrest : ∀ c ∈ pre ++ post, OnGrid A c :=
    fun c hc => hserving c (remove_sublist.subset hc)
  refine ⟨_, hnew, ?_, ?_, ?_, ?_⟩
  · rw [halloc.base]
    exact h.base
  · rw [halloc.committed]
    refine Nat.dvd_add h.committed ?_
    split
    · exact Nat.dvd_zero A
    · exact Nat.dvd_mul_left_of_dvd hA _
  · -- what is left of the block starts where the request ends
    unfold carve
    split
    · exact onGrid_insert ⟨Nat.dvd_add hstart htotal, Nat.dvd_sub hsize htotal⟩ hrest
    · exact hrest
  · intro c hc
    rcases List.mem_cons.mp hc with rfl | hc
    · rw [hptr]
      simp only [handedOut, Nat.add_sub_cancel]
      exact ⟨hstart, htotal⟩
    · exact h.live c hc

theorem GridInv.step {r' : HeapRun} (h : GridInv A r bs) (hA : A ∣ pageSize)
    (hstep : GridStep A r r') : ∃ bs', GridInv A r' bs' := by
  obtain ⟨hstep, hlive⟩ := hstep
  cases hstep with
  | init hok => exact ⟨_, h.init hA hok⟩
  | allocate hok => exact h.allocate hA hok (hlive _ List.mem_cons_self)
  | deallocate hc hok =>
      obtain ⟨s', hok', hsame, hinv⟩ := h.heap.deallocate_ok hc
      rw [hok] at hok'
      cases hok'
      refine ⟨_, hinv, ?_, ?_, onGrid_insert (h.live _ hc) h.free,
        fun d hd => h.live d (List.mem_of_mem_erase hd)⟩
      · rw [hsame.base]
        exact h.base
      · rw [hsame.committed]
        exact h.committed
  | write hm => exact ⟨bs, h.heap.write hm, h.base, h.committed, h.free, h.live⟩
  | share hmm => exact ⟨bs, h.heap.share hmm, h.base, h.committed, h.free, h.live⟩

/-- In a run in which every block takes a multiple of `A` bytes, for an `A` that divides the
page size and the base of the heap, a request gets an aligned pointer if its alignment
divides `A`. -/
theorem allocate_aligned_on_grid (hA : A ∣ pageSize)
    (h : Reach (fun r => r.Start ∧ A ∣ r.state.heap.base) (GridStep A) r) {layout : Layout}
    {ptr : Nat} {s' : HeapState} (halign : layout.align ∣ A)
    (hok : allocate r.state layout = .ok (ptr, s')) : layout.align ∣ ptr := by
  obtain ⟨bs, hinv⟩ : ∃ bs, GridInv A r bs := by
    refine Reach.invariant (fun r => ∃ bs, GridInv A r bs) ?_ ?_ h
    · rintro r ⟨hstart, hbase⟩
      have hcom : A ∣ r.state.heap.committed := by
        rw [hstart.committed_eq]
        exact Nat.dvd_zero A
      exact ⟨[], hstart.inv, hbase, hcom, by simp, by simp [hstart.live]⟩
    · rintro r r' ⟨bs, hbs⟩ hstep
      exact hbs.step hA hstep
  obtain ⟨hoffset, -⟩ := allocationSizes_spec layout
  obtain ⟨b, rest, htake, rfl, -⟩ := allocated_of_allocate hinv.heap.shaped hok
  obtain ⟨pre, post, hlist, -⟩ := takeFit_eq_some htake
  have hb : b ∈ servingList r.state bs (allocationSizes layout).1 := by simp [hlist]
  exact Nat.dvd_add (halign.trans (hinv.servingList hA _ b hb).1) hoffset

end Grid

/-- Two words and the freed first one again, all on multiples of eight. -/
theorem allocate_aligned_on_grid_of_booted : ∃ s s₁ s₂ s₃ s₄, init bootHeap 16 = .ok s ∧
    allocate s oneWord = .ok (kernelHeapBase + 16, s₁) ∧
    allocate s₁ oneWord = .ok (kernelHeapBase + 40, s₂) ∧
    deallocate s₂ (kernelHeapBase + 16) = .ok s₃ ∧
    allocate s₃ oneWord = .ok (kernelHeapBase + 16, s₄) ∧
    oneWord.align ∣ kernelHeapBase + 40 ∧ oneWord.align ∣ kernelHeapBase + 16 := by
  obtain ⟨s, hs⟩ := exists_booted
  obtain ⟨s₁, hok₁, hblocks₁, -⟩ := hs.allocate oneWord (by decide)
  have hrun₁ : HeapRun.Reachable _ := .step hs.reachable (.allocate hok₁)
  have hfit₁ : takeFit (allocationSizes oneWord).1 s₁.freeBlocks =
      some (⟨kernelHeapBase + 24, 0x10000 - 24⟩, []) := by
    rw [hblocks₁]
    decide
  obtain ⟨s₂, hok₂, hblocks₂, -⟩ := hrun₁.allocate_fits oneWord hfit₁
  have hrun₂ : HeapRun.Reachable _ := .step hrun₁ (.allocate hok₂)
  obtain ⟨s₃, hok₃, -, hinv⟩ := hrun₂.inv.deallocate_ok (List.mem_cons_of_mem _ List.mem_cons_self)
  have hrun₃ : HeapRun.Reachable _ :=
    .step hrun₂ (.deallocate (List.mem_cons_of_mem _ List.mem_cons_self) hok₃)
  have hblocks₃ := hinv.shaped.freeBlocks_eq
  have hfit₃ : takeFit (allocationSizes oneWord).1 s₃.freeBlocks =
      some (⟨kernelHeapBase, 24⟩, [⟨kernelHeapBase + 48, 0x10000 - 48⟩]) := by
    rw [hblocks₃, hblocks₂]
    decide
  obtain ⟨s₄, hok₄, -⟩ := hrun₃.allocate_fits oneWord hfit₃
  have hgrid : Reach (fun r => r.Start ∧ 8 ∣ r.state.heap.base) (GridStep 8) ⟨s, [], 0⟩ :=
    .step (.start ⟨bootHeap_start, by decide⟩) ⟨.init hs.run, by simp⟩
  have hword : 8 ∣ (allocationSizes oneWord).1 := by decide
  have hgrid₁ := hgrid.step ⟨.allocate hok₁, List.forall_mem_singleton.mpr hword⟩
  have hstep₂ : GridStep 8 _ _ :=
    ⟨.allocate hok₂, List.forall_mem_cons.mpr ⟨hword, List.forall_mem_singleton.mpr hword⟩⟩
  have hgrid₃ := (hgrid₁.step hstep₂).step
    (.deallocate hstep₂.2 (List.mem_cons_of_mem _ List.mem_cons_self) hok₃)
  exact ⟨s, s₁, s₂, s₃, s₄, hs.run, hok₁, hok₂, hok₃, hok₄,
    allocate_aligned_on_grid (by decide) hgrid₁ (dvd_refl 8) hok₂,
    allocate_aligned_on_grid (by decide) hgrid₃ (dvd_refl 8) hok₄⟩

/-- After a one-byte allocation the next block starts at an odd address. -/
theorem allocate_misaligned : ∃ s, init bootHeap 16 = .ok s ∧
    ∃ s', allocate s oneByte = .ok (kernelHeapBase + 16, s') ∧
      ∃ s'', allocate s' oneWord = .ok (kernelHeapBase + 33, s'') ∧
        ¬ oneWord.align ∣ kernelHeapBase + 33 := by
  obtain ⟨s, hs⟩ := exists_booted
  obtain ⟨s', hok, hblocks, -⟩ := hs.allocate oneByte (by decide)
  have hfit' : takeFit (allocationSizes oneWord).1 s'.freeBlocks =
      some (⟨kernelHeapBase + 17, 0x10000 - 17⟩, []) := by
    rw [hblocks]
    decide
  obtain ⟨s'', hok', -⟩ :=
    HeapRun.Reachable.allocate_fits (.step hs.reachable (.allocate hok)) oneWord hfit'
  exact ⟨s, hs.run, s', hok, s'', hok', by decide⟩

/-- Free and live bytes make up the committed range exactly if no allocation so far has
stranded a leftover, and only then does freeing everything restore one block. -/
theorem heap_conserved_iff (h : r.Reachable) :
    (total r.state.freeBlocks + total (r.live.map LiveBlock.block) = r.state.heap.committed ↔
      r.lost = 0) ∧
    (r.live = [] → 0 < r.state.heap.committed →
      (r.state.freeBlocks = [⟨r.state.heap.base, r.state.heap.committed⟩] ↔ r.lost = 0)) := by
  have hinv := h.inv
  have hbalance := hinv.balance
  refine ⟨by omega, fun hlive hpos => ⟨fun hone => ?_, fun hlost => ?_⟩⟩
  · rw [hone, hlive] at hbalance
    simp only [List.map_nil, total_nil, total_cons] at hbalance
    omega
  · rw [hlive, hlost, List.map_nil, total_nil] at hbalance
    have htidy := hinv.shaped.tidy
    have hwhole := eq_singleton_of_total htidy.separated htidy.start_ge htidy.stop_le (by omega)
      (by omega)
    rw [hwhole, Nat.add_sub_cancel_left]

/-- What is left of the heap is one node, and comes back with the block. -/
theorem heap_conserved_iff_of_booted : ∃ s s' s'', init bootHeap 16 = .ok s ∧
    allocate s allButNode = .ok (kernelHeapBase + 16, s') ∧
    deallocate s' (kernelHeapBase + 16) = .ok s'' ∧
    total s'.freeBlocks + 0xFFF0 = s'.heap.committed ∧
    s''.freeBlocks = [⟨s''.heap.base, s''.heap.committed⟩] := by
  obtain ⟨s, hs⟩ := exists_booted
  obtain ⟨s', hok, -, hcom⟩ := hs.allocate allButNode (by decide)
  have hlost : s.stranded (allocationSizes allButNode).1 = 0 := by
    have htake : takeFit (allocationSizes allButNode).1 (servingList s s.freeBlocks
        (allocationSizes allButNode).1) = some (⟨kernelHeapBase, 0x10000⟩, []) := by
      rw [hs.blocks, servingList, if_pos (by decide)]
      decide
    exact (hs.reachable.inv.stranded_eq htake).trans (by decide)
  have hrun : HeapRun.Reachable _ := .step hs.reachable (.allocate hok)
  obtain ⟨s'', hok', hsame, -⟩ := hrun.inv.deallocate_ok List.mem_cons_self
  have hfreed : HeapRun.Reachable _ := .step hrun (.deallocate List.mem_cons_self hok')
  have hpos : 0 < s''.heap.committed := by
    rw [hsame.committed, hcom]
    decide
  exact ⟨s, s', s'', hs.run, hok, hok', (heap_conserved_iff hrun).1.mpr ((Nat.zero_add _).trans hlost),
    ((heap_conserved_iff hfreed).2 (by simp) hpos).mpr ((Nat.zero_add _).trans hlost)⟩

/-- An allocation that leaves eight bytes of the heap loses them for good. -/
theorem heap_not_conserved : ∃ s, init bootHeap 16 = .ok s ∧
    ∃ s', allocate s almostAll = .ok (kernelHeapBase + 16, s') ∧
      ∃ s'', deallocate s' (kernelHeapBase + 16) = .ok s'' ∧
        s''.freeBlocks = [⟨kernelHeapBase, 0xFFF8⟩] ∧ s''.heap.committed = 0x10000 ∧
        s''.freeBlocks ≠ [⟨s''.heap.base, s''.heap.committed⟩] := by
  obtain ⟨s, hs⟩ := exists_booted
  obtain ⟨s', hok, hblocks, hcom⟩ := hs.allocate almostAll (by decide)
  have hrun : HeapRun.Reachable _ := .step hs.reachable (.allocate hok)
  obtain ⟨s'', hok', hsame, hinv⟩ := hrun.inv.deallocate_ok List.mem_cons_self
  have hfree := hinv.shaped.freeBlocks_eq
  have hlist : s''.freeBlocks = [⟨kernelHeapBase, 0xFFF8⟩] := by
    change s''.freeBlocks = Extents.insert _ s'.freeBlocks at hfree
    rw [hfree, hblocks]
    decide
  have hcom' : s''.heap.committed = 0x10000 := hsame.committed.trans hcom
  refine ⟨s, hs.run, s', hok, s'', hok', hlist, hcom', fun hwhole => ?_⟩
  rw [hlist, hcom'] at hwhole
  simp at hwhole

/-- The free bytes right below the end of the committed range. -/
def HeapState.trailing (s : HeapState) : Nat :=
  match s.freeBlocks.getLast? with
  | some b => if b.stop = s.heap.base + s.heap.committed then b.size else 0
  | none => 0

/-- Some free block holds the request, or some number of further pages would extend the
trailing one far enough. -/
def Servable (s : HeapState) (total : Nat) : Prop :=
  (∃ b ∈ s.freeBlocks, total ≤ b.size) ∨ ∃ n, CanGrow s n ∧ total ≤ s.trailing + n * pageSize

/-- The documented behaviour of a request: a valid block if it can be served, else null
and an unchanged heap. -/
def Graceful (r : HeapRun) (layout : Layout) : Prop :=
  (Servable r.state (allocationSizes layout).1 →
    ∃ ptr s', allocate r.state layout = .ok (ptr, s') ∧ ptr ≠ 0 ∧
      (handedOut layout ptr).Held s' ∧
      (∀ b ∈ s'.freeBlocks, b.Apart (handedOut layout ptr).block) ∧
      ∀ c ∈ r.live, (handedOut layout ptr).block.Apart c.block) ∧
  (¬ Servable r.state (allocationSizes layout).1 →
    ∃ s', allocate r.state layout = .ok (0, s') ∧ s'.freeBlocks = r.state.freeBlocks ∧
      s'.heap.committed = r.state.heap.committed)

theorem not_graceful_of_error {layout : Layout} {e : Halt}
    (herr : allocate r.state layout = .error e) : ¬ Graceful r layout := by
  rintro ⟨hserve, hrefuse⟩
  by_cases hservable : Servable r.state (allocationSizes layout).1
  · obtain ⟨ptr, s', hok, -⟩ := hserve hservable
    rw [hok] at herr
    cases herr
  · obtain ⟨s', hok, -⟩ := hrefuse hservable
    rw [hok] at herr
    cases herr

theorem HeapRun.Reachable.handedOut_valid (h : r.Reachable) {layout : Layout} {ptr : Nat}
    {s' : HeapState} (hok : allocate r.state layout = .ok (ptr, s')) :
    ptr ≠ 0 ∧ (handedOut layout ptr).Held s' ∧
      (∀ b ∈ s'.freeBlocks, b.Apart (handedOut layout ptr).block) ∧
      ∀ c ∈ r.live, (handedOut layout ptr).block.Apart c.block := by
  have hrun : HeapRun.Reachable _ := .step h (.allocate hok)
  have hinv := hrun.inv
  have hheld := hinv.held _ List.mem_cons_self
  refine ⟨?_, hheld, hinv.free_apart List.mem_cons_self, (List.pairwise_cons.mp hinv.apart).1⟩
  rintro rfl
  have hge : s'.heap.base ≤ 0 - (allocationSizes layout).2 := hheld.start_ge
  have hpos : 0 < s'.heap.base := hinv.shaped.base_pos
  omega

/-- The request is handled as documented exactly if a block fits or the whole number of
pages asked for can be added; in every other state it panics. -/
theorem allocate_graceful_iff (h : r.Reachable) (layout : Layout) :
    Graceful r layout ↔ (∃ b ∈ r.state.freeBlocks, (allocationSizes layout).1 ≤ b.size) ∨
      CanGrow r.state (pagesNeeded (allocationSizes layout).1) := by
  have hshaped := h.inv.shaped
  constructor
  · intro hgraceful
    by_contra hcan
    rw [not_or, ← isSome_takeFit, Option.not_isSome_iff_eq_none] at hcan
    obtain ⟨message, herr⟩ := allocate_panic hshaped layout hcan.1 hcan.2
    exact not_graceful_of_error herr hgraceful
  · intro hcan
    have hservable : Servable r.state (allocationSizes layout).1 := by
      obtain ⟨-, -, -, hbound⟩ := allocationSizes_spec layout
      refine hcan.imp id (fun hgrow => ⟨_, hgrow, ?_⟩)
      exact Nat.le_trans (total_le_pagesNeeded hbound) (Nat.le_add_left _ _)
    rw [← isSome_takeFit] at hcan
    obtain ⟨b, rest, s', -, hok, -⟩ := allocate_ok hshaped layout hcan
    exact ⟨fun _ => ⟨_, s', hok, h.handedOut_valid hok⟩, fun hnot => absurd hservable hnot⟩

theorem allocate_graceful_iff_of_booted : ∃ s, init bootHeap 16 = .ok s ∧
    Graceful ⟨s, [], 0⟩ oneWord := by
  obtain ⟨s, hs⟩ := exists_booted
  refine ⟨s, hs.run, (allocate_graceful_iff hs.reachable oneWord).mpr (.inl ?_)⟩
  rw [hs.blocks]
  exact ⟨_, List.mem_cons_self, by decide⟩

def tooMuch : Layout := ⟨64 * 1024 * 1024, 8, ⟨3, rfl⟩, by decide⟩

/-- A request past the size limit panics instead of returning null. -/
theorem allocate_tooMuch_panics : ∃ s, init bootHeap 16 = .ok s ∧
    allocate s tooMuch =
      .error (.panic "[KERNEL_HEAP] Out of heap memory: grow() would exceed max size") ∧
    ¬ Graceful ⟨s, [], 0⟩ tooMuch := by
  obtain ⟨s, hs⟩ := exists_booted
  have hshaped : Shaped s s.freeBlocks := hs.reachable.inv.shaped
  have hsmall : ∀ b ∈ s.freeBlocks, b.size < (allocationSizes tooMuch).1 := by
    rw [hs.blocks]
    simp only [List.mem_singleton, forall_eq]
    decide
  have hgrow : grow s (pagesNeeded (allocationSizes tooMuch).1) =
      .error (.panic "[KERNEL_HEAP] Out of heap memory: grow() would exceed max size") := by
    unfold grow
    rw [hs.committed, hs.maxSize]
    exact if_neg (by decide)
  have hpanic : allocate s tooMuch =
      .error (.panic "[KERNEL_HEAP] Out of heap memory: grow() would exceed max size") := by
    have hlen := hshaped.length_lt
    unfold allocate
    simp only
    rw [allocateLoop_miss hshaped.threaded hshaped.start_ne_zero hsmall (by omega), hgrow]
    rfl
  exact ⟨s, hs.run, hpanic, not_graceful_of_error hpanic⟩

end CrapOs
