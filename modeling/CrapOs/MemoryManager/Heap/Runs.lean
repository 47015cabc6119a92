import CrapOs.MemoryManager.Heap.Operations

/-! # Runs of the kernel heap

A run interleaves `init`, `allocate` and `deallocate` calls with writes of the
clients to their data and with other users of the memory manager. `HeapInv` is
the invariant of all of them: the free list is in canonical form, the live
blocks are apart from it and from each other, their headers are intact, and
free, live and stranded bytes add up to the committed range.
-/

namespace CrapOs

open Foundation Extents

def readBlocks (m : Mem) : Nat → Nat → List Extent
  | 0, _ => []
  | fuel + 1, p =>
    if p = 0 then [] else ⟨p, m.read64 p⟩ :: readBlocks m fuel (m.read64 (p + 8))

def HeapState.freeBlocks (s : HeapState) : List Extent :=
  readBlocks s.mem s.heap.walkFuel s.heap.freeList

theorem readBlocks_threaded {m : Mem} {p fuel : Nat} {bs : List Extent} (h : Threaded m p bs 0)
    (hnz : ∀ b ∈ bs, b.start ≠ 0) (hfuel : bs.length < fuel) : readBlocks m fuel p = bs := by
  induction bs generalizing p fuel with
  | nil =>
    obtain rfl := threaded_nil.mp h
    cases fuel <;> rfl
  | cons b bs ih =>
    obtain ⟨rfl, hsize, htail⟩ := threaded_cons.mp h
    cases fuel with
    | zero => simp at hfuel
    | succ fuel =>
      rw [List.length_cons] at hfuel
      rw [readBlocks, if_neg (hnz b List.mem_cons_self), hsize,
        ih htail (fun c hc => hnz c (List.mem_cons_of_mem b hc)) (by omega)]

theorem Shaped.freeBlocks_eq {s : HeapState} {bs : List Extent} (h : Shaped s bs) :
    s.freeBlocks = bs :=
  readBlocks_threaded h.threaded h.start_ne_zero h.length_lt

def HeapState.servingBlock (s : HeapState) (total : Nat) : Option Extent :=
  (takeFit total (servingList s s.freeBlocks total)).map Prod.fst

/-- The bytes a request strands: what it leaves of its block if that is too small
to hold a node. -/
def HeapState.stranded (s : HeapState) (total : Nat) : Nat :=
  match s.servingBlock total with
  | some b => if freeBlockSize ≤ b.size - total then 0 else b.size - total
  | none => 0

/-- An allocation that has not been freed: its block and the offset of its data. -/
structure LiveBlock where
  block : Extent
  offset : Nat
deriving DecidableEq, Repr

namespace LiveBlock

def ptr (c : LiveBlock) : Nat := c.block.start + c.offset

def data (c : LiveBlock) : Extent := ⟨c.ptr, c.block.size - c.offset⟩

end LiveBlock

/-- The heap with the allocations its clients hold and the bytes stranded so far. -/
structure HeapRun where
  state : HeapState
  live : List LiveBlock
  lost : Nat

structure HeapRun.Start (r : HeapRun) : Prop where
  isNew : r.state.heap = .new r.state.heap.base r.state.heap.maxSize
  base_pos : 0 < r.state.heap.base
  range : r.state.heap.base + r.state.heap.maxSize < 2 ^ 64
  half : r.state.heap.maxSize ≤ 2 ^ 47
  manager : ∀ mm, r.state.manager = some mm → ∃ stack, mm.Sound stack
  live : r.live = []
  lost : r.lost = 0

def handedOut (layout : Layout) (ptr : Nat) : LiveBlock :=
  let (total, offset) := allocationSizes layout
  ⟨⟨ptr - offset, total⟩, offset⟩

inductive HeapStep : HeapRun → HeapRun → Prop
  | init {r : HeapRun} {n : Nat} {s' : HeapState} :
      init r.state n = .ok s' → HeapStep r { r with state := s' }
  | allocate {r : HeapRun} {layout : Layout} {ptr : Nat} {s' : HeapState} :
      allocate r.state layout = .ok (ptr, s') →
      HeapStep r ⟨s', handedOut layout ptr :: r.live,
        r.lost + r.state.stranded (allocationSizes layout).1⟩
  | deallocate {r : HeapRun} {c : LiveBlock} {s' : HeapState} :
      c ∈ r.live → deallocate r.state c.ptr = .ok s' →
      HeapStep r { r with state := s', live := r.live.erase c }
  /-- Clients write their data; bytes that are not committed are nobody's. -/
  | write {r : HeapRun} {m : Mem} :
      (∀ y, r.state.heap.base ≤ y → y < r.state.heap.base + r.state.heap.committed →
        (∀ c ∈ r.live, ¬ c.data.Has y) → m y = r.state.mem y) →
      HeapStep r { r with state := { r.state with mem := m } }
  /-- The rest of the kernel uses the memory manager. -/
  | share {r : HeapRun} {mm : MemoryManager} {stack : List Nat} :
      mm.Sound stack → HeapStep r { r with state := { r.state with manager := some mm } }

structure LiveBlock.Held (s : HeapState) (c : LiveBlock) : Prop where
  start_ge : s.heap.base ≤ c.block.start
  stop_le : c.block.stop ≤ s.heap.base + s.heap.committed
  offset_ge : allocHeaderSize ≤ c.offset
  offset_le : c.offset ≤ c.block.size
  header : s.mem.read64 c.block.start = c.block.size
  backPointer : s.mem.read64 (c.ptr - 8) = c.offset

structure HeapInv (r : HeapRun) (bs : List Extent) : Prop where
  shaped : Shaped r.state bs
  held : ∀ c ∈ r.live, c.Held r.state
  apart : r.live.Pairwise (fun c d => c.block.Apart d.block)
  clear : ∀ c ∈ r.live, ∀ y, c.block.Has y → ¬ Covers bs y
  balance : total bs + total (r.live.map LiveBlock.block) + r.lost = r.state.heap.committed

variable {s s' : HeapState} {c : LiveBlock} {r r' : HeapRun} {bs bs' : List Extent}

theorem LiveBlock.has_data {y : Nat} (hy : c.data.Has y) : c.block.Has y := by
  simp only [Extent.Has, Extent.stop, data, ptr] at hy ⊢
  omega

namespace LiveBlock.Held

theorem size_pos (h : c.Held s) : 0 < c.block.size := by
  have hge := h.offset_ge
  have hle := h.offset_le
  simp only [allocHeaderSize] at hge
  omega

theorem has_header (h : c.Held s) {y : Nat} (hlo : c.block.start ≤ y) (hhi : y < c.ptr) :
    c.block.Has y := by
  have hle := h.offset_le
  simp only [ptr] at hhi
  simp only [Extent.Has, Extent.stop]
  omega

theorem carry (h : c.Held s) (hbase : s'.heap.base = s.heap.base)
    (hcom : s.heap.committed ≤ s'.heap.committed)
    (hmem : ∀ y, c.block.start ≤ y → y < c.ptr → s'.mem y = s.mem y) : c.Held s' := by
  have hge := h.offset_ge
  have hstop := h.stop_le
  simp only [allocHeaderSize] at hge
  refine ⟨by rw [hbase]; exact h.start_ge, by rw [hbase]; omega, h.offset_ge, h.offset_le, ?_, ?_⟩
  · rw [Mem.read64_congr (fun y hlo hhi => hmem y hlo (by simp only [ptr]; omega)), h.header]
  · rw [Mem.read64_congr (fun y hlo hhi => hmem y ?_ (by simp only [ptr] at hhi ⊢; omega)),
      h.backPointer]
    simp only [ptr] at hlo
    omega

end LiveBlock.Held

theorem HeapInv.free_apart (h : HeapInv r bs) (hc : c ∈ r.live) : ∀ b ∈ bs, b.Apart c.block :=
  apart_of_not_covers (h.held c hc).size_pos h.shaped.tidy.size_pos (h.clear c hc)

/-! ## One step -/

theorem HeapInv.held_of_frame (h : HeapInv r bs) (hbase : s'.heap.base = r.state.heap.base)
    (hcom : r.state.heap.committed ≤ s'.heap.committed)
    (hmem : ∀ y, y < r.state.heap.base + r.state.heap.committed → ¬ Covers bs y →
      s'.mem y = r.state.mem y) : ∀ c ∈ r.live, c.Held s' := by
  intro c hc
  have hheld := h.held c hc
  refine hheld.carry hbase hcom (fun y hlo hhi => ?_)
  have hy := hheld.has_header hlo hhi
  exact hmem y (Nat.lt_of_lt_of_le hy.2 hheld.stop_le) (h.clear c hc y hy)

theorem HeapInv.init {n : Nat} (h : HeapInv r bs) (hok : CrapOs.init r.state n = .ok s') :
    HeapInv { r with state := s' } (Extents.insert (r.state.nextRegion n) bs) := by
  have hgrew := grew_of_grow h.shaped hok
  have hcom := hgrew.committed
  have hmono : r.state.heap.committed ≤ s'.heap.committed := by omega
  refine ⟨hgrew.shaped, h.held_of_frame hgrew.base hmono hgrew.mem, h.apart, ?_, ?_⟩
  · intro c hc y hy
    rw [covers_insert]
    rintro (hregion | hcov)
    · have hstop := (h.held c hc).stop_le
      have hlt := hy.2
      simp only [Extent.Has, HeapState.nextRegion] at hregion
      omega
    · exact h.clear c hc y hy hcov
  · have hbalance := h.balance
    rw [total_insert]
    simp only [HeapState.nextRegion] at hcom ⊢
    omega

theorem HeapInv.clear_servingList (h : HeapInv r bs) (hc : c ∈ r.live) {y : Nat}
    (hy : c.block.Has y) (total : Nat) : ¬ Covers (servingList r.state bs total) y := by
  intro hcov
  rcases covers_servingList hcov with hfree | hge
  · exact h.clear c hc y hy hfree
  · have hlt := hy.2
    have hstop := (h.held c hc).stop_le
    omega

theorem HeapInv.stranded_eq (h : HeapInv r bs) {total : Nat} {b : Extent} {rest : List Extent}
    (htake : takeFit total (servingList r.state bs total) = some (b, rest)) :
    r.state.stranded total = if freeBlockSize ≤ b.size - total then 0 else b.size - total := by
  rw [HeapState.stranded, HeapState.servingBlock, h.shaped.freeBlocks_eq, htake]
  rfl

theorem HeapInv.allocate {layout : Layout} {ptr : Nat} (h : HeapInv r bs)
    {b : Extent} {rest : List Extent}
    (htake : takeFit (allocationSizes layout).1
      (servingList r.state bs (allocationSizes layout).1) = some (b, rest))
    (hptr : ptr = b.start + (allocationSizes layout).2)
    (halloc : Allocated r.state bs (allocationSizes layout).1 (allocationSizes layout).2 b rest s') :
    HeapInv ⟨s', handedOut layout ptr :: r.live,
      r.lost + r.state.stranded (allocationSizes layout).1⟩
      (carve (allocationSizes layout).1 b rest) := by
  subst hptr
  obtain ⟨-, hoffset, hsum, -⟩ := allocationSizes_spec layout
  have hnew : handedOut layout (b.start + (allocationSizes layout).2) =
      ⟨⟨b.start, (allocationSizes layout).1⟩, (allocationSizes layout).2⟩ := by
    simp only [handedOut, Nat.add_sub_cancel]
  rw [hnew, h.stranded_eq htake]
  generalize allocationSizes layout = sizes at hoffset hsum htake halloc ⊢
  obtain ⟨total, offset⟩ := sizes
  simp only at hoffset hsum htake halloc ⊢
  obtain ⟨pre, post, hlist, rfl, hfit, -⟩ := takeFit_eq_some htake
  have hpos : 0 < total := by
    simp only [allocHeaderSize] at hoffset
    omega
  have hle : offset ≤ total := by omega
  have hcom := halloc.committed
  -- every byte handed out belongs to the list the request is served from
  have hapart : ∀ c ∈ r.live, (⟨b.start, total⟩ : Extent).Apart c.block := by
    intro c hc
    refine (Extent.apart_iff hpos (h.held c hc).size_pos).mpr (fun y hy hyc => ?_)
    refine h.clear_servingList hc hyc total ⟨b, by simp [hlist], hy.1, ?_⟩
    exact Nat.lt_of_lt_of_le hy.2 (Nat.add_le_add_left hfit b.start)
  refine ⟨halloc.shaped, ?_, List.pairwise_cons.mpr ⟨hapart, h.apart⟩, ?_, ?_⟩
  · intro c hc
    rcases List.mem_cons.mp hc with rfl | hc
    · refine ⟨?_, ?_, hoffset, hle, halloc.header, halloc.backPointer⟩
      · rw [halloc.base]
        exact halloc.inRange.1
      · rw [halloc.base]
        exact halloc.inRange.2
    · exact h.held_of_frame halloc.base (by omega) halloc.mem c hc
  · intro c hc y hy hcov
    rcases List.mem_cons.mp hc with rfl | hc
    · obtain ⟨d, hd, hyd⟩ := hcov
      have hap := halloc.apart d hd
      simp only [Extent.Apart, Extent.Has, Extent.stop] at hap hy hyd
      omega
    · have hfree := covers_of_carve hcov
      rw [← hlist] at hfree
      exact h.clear_servingList hc hy total hfree
  · have hbalance := h.balance
    have hcut := total_carve pre post hfit
    rw [← hlist, total_servingList] at hcut
    simp only [List.map_cons, total_cons] at hcut ⊢
    omega

/-- Freeing a live pointer always succeeds. -/
theorem HeapInv.deallocate_ok (h : HeapInv r bs) (hc : c ∈ r.live) :
    ∃ s', CrapOs.deallocate r.state c.ptr = .ok s' ∧ Relisted r.state s' ∧
      HeapInv { r with state := s', live := r.live.erase c } (Extents.insert c.block bs) := by
  have hheld := h.held c hc
  have hsize : freeBlockSize ≤ c.block.size := Nat.le_trans hheld.offset_ge hheld.offset_le
  obtain ⟨s', hok, hshaped, hsame, hmem⟩ := deallocate_spec h.shaped hheld.start_ge hheld.stop_le
    (h.free_apart hc) hsize hheld.header hheld.backPointer
  have hperm := List.perm_cons_erase hc
  obtain ⟨hothers, hrest⟩ := List.pairwise_cons.mp
    ((hperm.pairwise_iff (fun hcd => hcd.symm)).mp h.apart)
  -- the other live blocks are apart from the one that is freed
  have houtside : ∀ d ∈ r.live.erase c, ∀ y, d.block.Has y → ¬ c.block.Has y := fun d hd =>
    (Extent.apart_iff (h.held d (List.mem_of_mem_erase hd)).size_pos hheld.size_pos).mp
      (hothers d hd).symm
  refine ⟨s', hok, hsame, hshaped, ?_, hrest, ?_, ?_⟩
  · intro d hd
    have hdheld := h.held d (List.mem_of_mem_erase hd)
    refine hdheld.carry hsame.base (Nat.le_of_eq hsame.committed.symm) (fun y hlo hhi => ?_)
    have hy := hdheld.has_header hlo hhi
    exact hmem y (houtside d hd y hy) (h.clear d (List.mem_of_mem_erase hd) y hy)
  · intro d hd y hy
    rw [covers_insert]
    rintro (hx | hcov)
    · exact houtside d hd y hy hx
    · exact h.clear d (List.mem_of_mem_erase hd) y hy hcov
  · have hbalance := h.balance
    rw [total_perm (hperm.map LiveBlock.block), List.map_cons, total_cons] at hbalance
    rw [total_insert, hsame.committed]
    simp only
    omega

theorem HeapInv.deallocate (h : HeapInv r bs) (hc : c ∈ r.live)
    (hok : CrapOs.deallocate r.state c.ptr = .ok s') :
    HeapInv { r with state := s', live := r.live.erase c } (Extents.insert c.block bs) := by
  obtain ⟨s1, hok1, -, hinv⟩ := h.deallocate_ok hc
  rw [hok] at hok1
  cases hok1
  exact hinv

theorem HeapInv.data_off_header {d : LiveBlock} (h : HeapInv r bs) (hc : c ∈ r.live)
    (hd : d ∈ r.live) {y : Nat} (hlo : c.block.start ≤ y) (hhi : y < c.ptr) : ¬ d.data.Has y := by
  intro hy
  by_cases hcd : c = d
  · rw [← hcd] at hy
    exact Nat.not_le_of_lt hhi hy.1
  · have hheld := h.held c hc
    have hheld' := h.held d hd
    have hsymm : Std.Symm (fun c d : LiveBlock => c.block.Apart d.block) := ⟨fun _ _ hxy => hxy.symm⟩
    have hap := h.apart.forall hc hd hcd
    exact (Extent.apart_iff hheld.size_pos hheld'.size_pos).mp hap y (hheld.has_header hlo hhi)
      (LiveBlock.has_data hy)

theorem HeapInv.write {m : Mem} (h : HeapInv r bs)
    (hm : ∀ y, r.state.heap.base ≤ y → y < r.state.heap.base + r.state.heap.committed →
      (∀ c ∈ r.live, ¬ c.data.Has y) → m y = r.state.mem y) :
    HeapInv { r with state := { r.state with mem := m } } bs := by
  have hnode : ∀ b ∈ bs, Mem.AgreeOn r.state.mem m b.start freeBlockSize := by
    intro b hb y hlo hhi
    have hge := h.shaped.tidy.start_ge b hb
    have hle := h.shaped.tidy.stop_le b hb
    have hsize := h.shaped.tidy.size_ge b hb
    have hy : b.Has y := ⟨hlo, by simp only [Extent.stop]; omega⟩
    refine hm y (Nat.le_trans hge hlo) (Nat.lt_of_lt_of_le hy.2 hle) (fun c hc hyc => ?_)
    exact h.clear c hc y (LiveBlock.has_data hyc) ⟨b, hb, hy⟩
  refine ⟨h.shaped.relist ⟨rfl, rfl, rfl, rfl⟩ (h.shaped.threaded.congr hnode) h.shaped.tidy, ?_,
    h.apart, h.clear, h.balance⟩
  intro c hc
  have hheld := h.held c hc
  refine hheld.carry rfl (Nat.le_refl _) (fun y hlo hhi => ?_)
  have hy := hheld.has_header hlo hhi
  exact hm y (Nat.le_trans hheld.start_ge hlo) (Nat.lt_of_lt_of_le hy.2 hheld.stop_le)
    (fun d hd => h.data_off_header hc hd hlo hhi)

theorem HeapInv.share {mm : MemoryManager} {stack : List Nat} (h : HeapInv r bs)
    (hmm : mm.Sound stack) :
    HeapInv { r with state := { r.state with manager := some mm } } bs := by
  obtain ⟨hthread, htidy, hbase, hrange, hhalf, hcom, -⟩ := h.shaped
  refine ⟨⟨hthread, htidy, hbase, hrange, hhalf, hcom, ?_⟩, ?_, h.apart, h.clear, h.balance⟩
  · rintro mm' hmm'
    cases hmm'
    exact ⟨stack, hmm⟩
  · exact fun c hc => (h.held c hc).carry rfl (Nat.le_refl _) (fun _ _ _ => rfl)

theorem HeapInv.step (h : HeapInv r bs) (hstep : HeapStep r r') : ∃ bs', HeapInv r' bs' := by
  cases hstep with
  | init hok => exact ⟨_, h.init hok⟩
  | allocate hok =>
    obtain ⟨b, rest, htake, hptr, halloc⟩ := allocated_of_allocate h.shaped hok
    exact ⟨_, h.allocate htake hptr halloc⟩
  | deallocate hc hok => exact ⟨_, h.deallocate hc hok⟩
  | write hm => exact ⟨bs, h.write hm⟩
  | share hmm => exact ⟨bs, h.share hmm⟩

theorem HeapRun.Start.committed_eq (h : r.Start) : r.state.heap.committed = 0 := by
  rw [h.isNew]
  rfl

theorem HeapRun.Start.inv (h : r.Start) : HeapInv r [] := by
  have hlist : r.state.heap.freeList = 0 := by
    rw [h.isNew]
    rfl
  have hcom := h.committed_eq
  refine ⟨⟨threaded_nil.mpr hlist, ⟨List.Pairwise.nil, by simp, by simp, by simp⟩, h.base_pos,
    h.range, h.half, by omega, h.manager⟩, ?_, ?_, ?_, ?_⟩
  · simp [h.live]
  · simp [h.live]
  · simp [h.live]
  · simp [h.live, h.lost, hcom]

def HeapRun.Reachable (r : HeapRun) : Prop := Reach HeapRun.Start HeapStep r

theorem HeapRun.Reachable.inv (h : r.Reachable) : HeapInv r r.state.freeBlocks := by
  obtain ⟨bs, hinv⟩ := Reach.invariant (fun r => ∃ bs, HeapInv r bs) (fun r hr => ⟨[], hr.inv⟩)
    (fun r r' ⟨bs, hbs⟩ hstep => hbs.step hstep) h
  rw [hinv.shaped.freeBlocks_eq]
  exact hinv

end CrapOs
