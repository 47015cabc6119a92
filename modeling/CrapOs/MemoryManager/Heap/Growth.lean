import CrapOs.MemoryManager.Heap.FreeList

/-! # Growing the heap

`grow` takes one frame for each page and one for each page table the new region
still misses. `CanGrow` is that demand against the free list, and decides
whether `grow` returns or panics.
-/

namespace CrapOs

open Foundation Extents

def regionTables (region : Nat) : Nat → Nat → Finset TablePath
  | 0, _ => ∅
  | count + 1, i =>
    prefixSet (tablePath (wrap64 (region + i * pageSize))) ∪ regionTables region count (i + 1)

/-- The frames it takes to map those pages: their own and the missing tables. -/
def framesNeeded (m : Mem) (root region count i : Nat) : Nat :=
  count + ((regionTables region count i).filter (fun p => entryAt m root p = none)).card

theorem length_of_mem_regionTables {region count i : Nat} {p : TablePath}
    (h : p ∈ regionTables region count i) : p.length ≤ 3 := by
  induction count generalizing i with
  | zero => simp [regionTables] at h
  | succ count ih =>
    rw [regionTables, Finset.mem_union] at h
    rcases h with h | h
    · exact (mem_prefixSet.mp h).2.length_le
    · exact ih h

theorem framesNeeded_le (m : Mem) (root region count i : Nat) :
    framesNeeded m root region count i ≤ 4 * count := by
  have hpath : ∀ v, (prefixSet (tablePath v)).card ≤ 3 := fun v =>
    Nat.le_trans (List.toFinset_card_le _) (Nat.le_refl 3)
  have hregion : (regionTables region count i).card ≤ 3 * count := by
    induction count generalizing i with
    | zero => simp [regionTables]
    | succ count ih =>
      have hunion := Finset.card_union_le (prefixSet (tablePath (wrap64 (region + i * pageSize))))
        (regionTables region count (i + 1))
      have hfirst := hpath (wrap64 (region + i * pageSize))
      have hrest := ih (i + 1)
      rw [regionTables]
      omega
  have hfilter := Finset.card_filter_le (regionTables region count i)
    (fun p => entryAt m root p = none)
  unfold framesNeeded
  omega

/-- Mapping a page takes its own missing tables off those of any other set. -/
theorem Mapped.card_absent {s s' : Phys} {root flags leaf v : Nat} {stack stack' : List Nat}
    (h : Mapped root flags s stack v leaf s' stack') {rest : Finset TablePath}
    (hlen : ∀ p ∈ rest, p.length ≤ 3) :
    ((prefixSet (tablePath v) ∪ rest).filter (fun p => entryAt s.mem root p = none)).card =
      missing s.mem root (tablePath v) +
        (rest.filter (fun p => entryAt s'.mem root p = none)).card := by
  have hrest : rest.filter (fun p => entryAt s'.mem root p = none) =
      rest.filter (fun p => entryAt s.mem root p = none) \ prefixSet (tablePath v) := by
    ext p
    simp only [Finset.mem_filter, Finset.mem_sdiff]
    constructor
    · rintro ⟨hp, hnone⟩
      obtain ⟨hold, hout⟩ := (h.absent_iff (hlen p hp)).mp hnone
      exact ⟨⟨hp, hold⟩, hout⟩
    · rintro ⟨⟨hp, hold⟩, hout⟩
      exact ⟨hp, (h.absent_iff (hlen p hp)).mpr ⟨hold, hout⟩⟩
  have hunion : (prefixSet (tablePath v) ∪ rest).filter (fun p => entryAt s.mem root p = none) =
      (prefixSet (tablePath v)).filter (fun p => entryAt s.mem root p = none) ∪
        rest.filter (fun p => entryAt s'.mem root p = none) := by
    rw [hrest, Finset.filter_union]
    ext p
    simp only [Finset.mem_union, Finset.mem_filter, Finset.mem_sdiff]
    constructor
    · rintro (hpre | ⟨hp, hnone⟩)
      · exact .inl hpre
      · by_cases hin : p ∈ prefixSet (tablePath v)
        · exact .inl ⟨hin, hnone⟩
        · exact .inr ⟨⟨hp, hnone⟩, hin⟩
    · rintro (hpre | ⟨hold, -⟩)
      · exact .inl hpre
      · exact .inr hold
  rw [hunion, missing, Finset.card_union_of_disjoint]
  rw [hrest, Finset.disjoint_left]
  intro p hp hp'
  exact (Finset.mem_sdiff.mp hp').2 (Finset.mem_filter.mp hp).1

theorem framesNeeded_succ {s s' : Phys} {root flags leaf region i : Nat}
    {stack stack' : List Nat} (count : Nat)
    (h : Mapped root flags s stack (wrap64 (region + i * pageSize)) leaf s' stack') :
    framesNeeded s.mem root region (count + 1) i =
      1 + missing s.mem root (tablePath (wrap64 (region + i * pageSize))) +
        framesNeeded s'.mem root region count (i + 1) := by
  rw [framesNeeded, regionTables, h.card_absent (fun p hp => length_of_mem_regionTables hp),
    framesNeeded]
  omega

theorem missing_le_framesNeeded (m : Mem) (root region count i : Nat) :
    1 + missing m root (tablePath (wrap64 (region + i * pageSize))) ≤
      framesNeeded m root region (count + 1) i := by
  have hsub : missing m root (tablePath (wrap64 (region + i * pageSize))) ≤
      ((regionTables region (count + 1) i).filter (fun p => entryAt m root p = none)).card :=
    Finset.card_le_card (Finset.filter_subset_filter _ Finset.subset_union_left)
  unfold framesNeeded
  omega

/-- The mapping loop returns exactly if the free list covers its demand. -/
theorem commitPages_spec {mm : MemoryManager} {stack : List Nat} (h : mm.Sound stack)
    (region count i : Nat) :
    (stack.length < framesNeeded mm.phys.mem mm.root region count i ∧
      ∃ message, commitPages region count i mm = .error (.panic message)) ∨
    ∃ mm' stack', commitPages region count i mm = .ok mm' ∧ mm'.Sound stack' ∧
      stack.length = framesNeeded mm.phys.mem mm.root region count i + stack'.length := by
  induction count generalizing i mm stack with
  | zero => exact .inr ⟨mm, stack, rfl, h, by simp [framesNeeded, regionTables]⟩
  | succ count ih =>
    cases stack with
    | nil =>
      refine .inl ⟨?_, "[KERNEL_HEAP] PMM out of memory during heap grow", ?_⟩
      · have hle := missing_le_framesNeeded mm.phys.mem mm.root region count i
        rw [List.length_nil]
        omega
      · rw [commitPages, MemoryManager.allocPage_none h]
    | cons f rest =>
      obtain ⟨mm1, halloc, h1, hmem, hroot⟩ := MemoryManager.allocPage_some h
      have hf := (h.paging.free.frames f List.mem_cons_self).lt
      have hflags : Flag.present ||| Flag.writable ||| Flag.nx < 2 ^ 64 := by decide
      rcases MemoryManager.mapPage_kernel h1 (wrap64 (region + i * pageSize)) hf hflags with
        ⟨hshort, herr⟩ | ⟨mm2, rest2, hok, h2, hroot2, hmapped⟩
      · refine .inl ⟨?_, "[CRITICAL] OOM during page table walk!", ?_⟩
        · have hle := missing_le_framesNeeded mm.phys.mem mm.root region count i
          rw [hmem, hroot] at hshort
          rw [List.length_cons]
          omega
        · simp only [commitPages, halloc, herr]
          rfl
      · have hsum := framesNeeded_succ count hmapped
        have htaken := congrArg List.length hmapped.taken
        have henough := hmapped.enough
        rw [List.length_drop] at htaken
        rw [hmem, hroot] at hsum htaken henough
        rw [hroot] at hroot2
        have hrun : commitPages region (count + 1) i mm =
            commitPages region count (i + 1) mm2 := by
          simp only [commitPages, halloc, hok]
          rfl
        rw [hrun, hsum, List.length_cons]
        rcases ih h2 (i + 1) with ⟨hshort, herr⟩ | ⟨mm3, rest3, hok3, h3, hlen⟩
        · rw [hroot2] at hshort
          exact .inl ⟨by omega, herr⟩
        · rw [hroot2] at hlen
          exact .inr ⟨mm3, rest3, hok3, h3, by omega⟩

/-- The free list of a heap and what its callers rely on: the range is inside the
address space and one half of it, and the memory manager is in order. -/
structure Shaped (s : HeapState) (bs : List Extent) : Prop where
  threaded : Threaded s.mem s.heap.freeList bs 0
  tidy : Tidy s.heap.base (s.heap.base + s.heap.committed) bs
  base_pos : 0 < s.heap.base
  range : s.heap.base + s.heap.maxSize < 2 ^ 64
  half : s.heap.maxSize ≤ 2 ^ 47
  committed_le : s.heap.committed ≤ s.heap.maxSize
  manager : ∀ mm, s.manager = some mm → ∃ stack, mm.Sound stack

theorem Shaped.length_lt {s : HeapState} {bs : List Extent} (h : Shaped s bs) :
    bs.length < s.heap.walkFuel := by
  have hlen := h.tidy.length_le
  have hmono : s.heap.committed / freeBlockSize ≤ s.heap.maxSize / freeBlockSize :=
    Nat.div_le_div_right h.committed_le
  rw [Nat.add_sub_cancel_left] at hlen
  unfold KernelHeap.walkFuel
  omega

theorem Shaped.relist {s s' : HeapState} {bs bs' : List Extent} (h : Shaped s bs)
    (hsame : Relisted s s') (hthread : Threaded s'.mem s'.heap.freeList bs' 0)
    (htidy : Tidy s.heap.base (s.heap.base + s.heap.committed) bs') : Shaped s' bs' where
  threaded := hthread
  tidy := by
    rw [hsame.base, hsame.committed]
    exact htidy
  base_pos := by
    rw [hsame.base]
    exact h.base_pos
  range := by
    rw [hsame.base, hsame.maxSize]
    exact h.range
  half := by
    rw [hsame.maxSize]
    exact h.half
  committed_le := by
    rw [hsame.committed, hsame.maxSize]
    exact h.committed_le
  manager mm hmm := h.manager mm (hsame.manager ▸ hmm)

/-- The demand of `n` more pages is met: the range has room and the free list
has a frame for every page and every missing table. -/
def CanGrow (s : HeapState) (n : Nat) : Prop :=
  0 < n ∧ s.heap.committed + n * pageSize ≤ s.heap.maxSize ∧
    ∃ mm, s.manager = some mm ∧
      framesNeeded mm.phys.mem mm.root (s.heap.base + s.heap.committed) n 0 ≤ mm.phys.pmm.freePages

def HeapState.nextRegion (s : HeapState) (n : Nat) : Extent :=
  ⟨s.heap.base + s.heap.committed, n * pageSize⟩

structure Grew (s : HeapState) (bs : List Extent) (n : Nat) (s' : HeapState) : Prop where
  shaped : Shaped s' (Extents.insert (s.nextRegion n) bs)
  base : s'.heap.base = s.heap.base
  maxSize : s'.heap.maxSize = s.heap.maxSize
  committed : s'.heap.committed = s.heap.committed + n * pageSize
  mem : ∀ y, y < s.heap.base + s.heap.committed → ¬ Covers bs y → s'.mem y = s.mem y

variable {s : HeapState} {bs : List Extent}

private theorem grow_sizes (h : Shaped s bs) {n : Nat} (hn : n ≤ 2 ^ 35) :
    wrap64 (n * pageSize) = n * pageSize ∧
      wrap64 (s.heap.committed + n * pageSize) = s.heap.committed + n * pageSize ∧
      wrap64 (s.heap.base + s.heap.committed) = s.heap.base + s.heap.committed := by
  have hrange := h.range
  have hhalf := h.half
  have hle := h.committed_le
  simp only [pageSize]
  exact ⟨wrap64_of_lt (by omega), wrap64_of_lt (by omega), wrap64_of_lt (by omega)⟩

theorem Shaped.commit (h : Shaped s bs) {k : Nat} {mm : MemoryManager} {stack : List Nat}
    (hle : s.heap.committed ≤ k) (hroom : k ≤ s.heap.maxSize) (hmm : mm.Sound stack) :
    Shaped { s with heap := { s.heap with committed := k }, manager := some mm } bs where
  threaded := h.threaded
  tidy := h.tidy.mono (Nat.add_le_add_left hle _)
  base_pos := h.base_pos
  range := h.range
  half := h.half
  committed_le := hroom
  manager := by
    rintro _ ⟨⟩
    exact ⟨stack, hmm⟩

theorem grow_ok (h : Shaped s bs) {n : Nat} (hcan : CanGrow s n) :
    ∃ s', grow s n = .ok s' ∧ Grew s bs n s' := by
  obtain ⟨hpos, hroom, mm, hmm, hframes⟩ := hcan
  obtain ⟨stack, hsound⟩ := h.manager mm hmm
  rw [hsound.paging.free.count] at hframes
  have hfew := frames_length_le hsound.paging.free.frames hsound.paging.free.nodup
  have hn : n ≤ 2 ^ 35 := by
    have hle : n ≤ framesNeeded mm.phys.mem mm.root (s.heap.base + s.heap.committed) n 0 :=
      Nat.le_add_right _ _
    omega
  obtain ⟨hbytes, hsum, hregion⟩ := grow_sizes h hn
  rcases commitPages_spec hsound (s.heap.base + s.heap.committed) n 0 with
    ⟨hshort, -⟩ | ⟨mm', stack', hcommit, hsound', -⟩
  · omega
  have hrange := h.range
  have hpage : freeBlockSize ≤ n * pageSize := by
    simp only [freeBlockSize, pageSize]
    omega
  have hshaped := h.commit (Nat.le_add_right _ (n * pageSize)) hroom hsound'
  obtain ⟨s1, hs1⟩ : ∃ s1 : HeapState, { s with
    heap := { s.heap with committed := s.heap.committed + n * pageSize },
    manager := some mm' } = s1 := ⟨_, rfl⟩
  have hbase : s1.heap.base = s.heap.base := by rw [← hs1]
  have hcom : s1.heap.committed = s.heap.committed + n * pageSize := by rw [← hs1]
  have hmax : s1.heap.maxSize = s.heap.maxSize := by rw [← hs1]
  rw [hs1] at hshaped
  have hbelow : ∀ b ∈ bs, b.Apart (s.nextRegion n) := fun b hb => .inl (h.tidy.stop_le b hb)
  have hstop : (s.nextRegion n).stop ≤ s1.heap.base + s1.heap.committed := by
    rw [hbase, hcom, HeapState.nextRegion, Extent.stop, Nat.add_assoc]
  have hlo : s1.heap.base ≤ (s.nextRegion n).start := by
    rw [hbase]
    exact Nat.le_add_right _ _
  obtain ⟨s', hins, hnew, hsame, hmem⟩ := insertFreeBlockSorted_spec hshaped.threaded hshaped.tidy
    hshaped.base_pos (by omega) hshaped.length_lt hpage hstop hbelow
  refine ⟨s', ?_, hshaped.relist hsame hnew (hshaped.tidy.insert hpage hlo hstop hbelow),
    hsame.base.trans hbase, hsame.maxSize.trans hmax, hsame.committed.trans hcom, ?_⟩
  · rw [grow]
    simp only [hbytes, hsum, hregion, if_pos hroom, hmm, hcommit]
    show insertFreeBlockSorted _ (s.heap.base + s.heap.committed) (n * pageSize) = _
    rw [hs1]
    exact hins
  · intro y hy hcov
    rw [hmem y (by simp only [Extent.Has, HeapState.nextRegion]; omega) hcov, ← hs1]

theorem grow_panic (h : Shaped s bs) {n : Nat} (hcan : ¬ CanGrow s n) :
    ∃ message, grow s n = .error (.panic message) := by
  unfold grow
  by_cases hroom : wrap64 (s.heap.committed + wrap64 (n * pageSize)) ≤ s.heap.maxSize
  case neg =>
    simp only [if_neg hroom]
    exact ⟨_, rfl⟩
  simp only [if_pos hroom]
  cases hmm : s.manager with
  | none => exact ⟨_, rfl⟩
  | some mm =>
    obtain ⟨stack, hsound⟩ := h.manager mm hmm
    have hregion := (grow_sizes h (n := 0) (by decide)).2.2
    rcases commitPages_spec hsound (s.heap.base + s.heap.committed) n 0 with
      ⟨-, message, herr⟩ | ⟨mm', stack', hcommit, -, hlen⟩
    · simp only [hregion, herr]
      exact ⟨message, rfl⟩
    · have hfew := frames_length_le hsound.paging.free.frames hsound.paging.free.nodup
      have hn : n ≤ framesNeeded mm.phys.mem mm.root (s.heap.base + s.heap.committed) n 0 :=
        Nat.le_add_right _ _
      obtain ⟨hbytes, hsum, -⟩ := grow_sizes h (n := n) (by omega)
      rw [hbytes, hsum] at hroom
      obtain rfl : n = 0 := by
        by_contra hne
        refine hcan ⟨by omega, hroom, mm, hmm, ?_⟩
        rw [hsound.paging.free.count]
        omega
      simp only [hregion, hcommit]
      exact ⟨_, rfl⟩

theorem grew_of_grow {s' : HeapState} {n : Nat} (h : Shaped s bs) (hok : grow s n = .ok s') :
    Grew s bs n s' := by
  by_cases hcan : CanGrow s n
  · obtain ⟨s1, hok1, hgrew⟩ := grow_ok h hcan
    rw [hok] at hok1
    cases hok1
    exact hgrew
  · obtain ⟨message, herr⟩ := grow_panic h hcan
    rw [hok] at herr
    cases herr

end CrapOs
