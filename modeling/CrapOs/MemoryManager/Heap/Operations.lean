import CrapOs.MemoryManager.Heap.Growth

/-! # Allocating and freeing

`allocate` serves the first block that fits, after at most one `grow`, and
`deallocate` finds the block again from the header and the copy of the offset.
Both are operations on the list of free extents.
-/

namespace CrapOs

open Foundation Extents

variable {s : HeapState} {bs pre post : List Extent} {b : Extent} {total offset : Nat}

theorem Threaded.redirect {m : Mem} {p q r : Nat} {init : List Extent} {d : Extent}
    (h : Threaded m p (init ++ [d]) q) (hr : r < 2 ^ 64)
    (hbefore : ∀ c ∈ init, c.start + freeBlockSize ≤ d.start) :
    Threaded (m.write64 (d.start + 8) r) p (init ++ [d]) r := by
  obtain ⟨t, hinit, hlast⟩ := threaded_append.mp h
  obtain ⟨rfl, hsize, -⟩ := threaded_cons.mp hlast
  refine threaded_append.mpr ⟨d.start, hinit.congr (fun c hc => ?_), threaded_cons.mpr ⟨rfl, ?_, ?_⟩⟩
  · have hcd := hbefore c hc
    exact Mem.write64_agreeOn _ (by omega)
  · rw [Mem.read64_write64_disjoint _ (by omega), hsize]
  · exact threaded_nil.mpr (Mem.read64_write64_same _ _ hr)

theorem unlinkBlock_spec {lo hi : Nat} (h : Threaded s.mem s.heap.freeList (pre ++ b :: post) 0)
    (ht : Tidy lo hi (pre ++ b :: post)) (hlo : 0 < lo) :
    let s' := unlinkBlock s (lastStart pre 0) (s.mem.read64 (b.start + 8))
    Threaded s'.mem s'.heap.freeList (pre ++ post) 0 ∧ Relisted s s' ∧
      ∀ y, ¬ Covers pre y → s'.mem y = s.mem y := by
  obtain ⟨r, hpre, htail⟩ := threaded_append.mp h
  obtain ⟨rfl, -, hpost⟩ := threaded_cons.mp htail
  rcases List.eq_nil_or_concat' pre with rfl | ⟨init, d, rfl⟩
  · refine ⟨?_, ⟨rfl, rfl, rfl, rfl⟩, fun _ _ => rfl⟩
    exact hpost
  · have hd : d ∈ init ++ [d] ++ b :: post := by simp
    have hd0 : d.start ≠ 0 := by
      have hge := ht.start_ge d hd
      omega
    have hsep := List.pairwise_append.mp ht.separated
    have hbefore : ∀ c ∈ init, c.start + freeBlockSize ≤ d.start := by
      intro c hc
      have hcd := (List.pairwise_append.mp hsep.1).2.2 c hc d (by simp)
      have hsize := ht.size_ge c (by simp [hc])
      simp only [Extent.stop] at hcd
      omega
    have hafter : ∀ c ∈ post, d.start + freeBlockSize ≤ c.start := by
      intro c hc
      have hdc := hsep.2.2 d (by simp) c (by simp [hc])
      have hsize := ht.size_ge d hd
      simp only [Extent.stop] at hdc
      omega
    simp only [unlinkBlock, lastStart_concat, if_neg hd0]
    refine ⟨threaded_append.mpr ⟨_, hpre.redirect (s.mem.read64_lt _) hbefore, ?_⟩,
      ⟨rfl, rfl, rfl, rfl⟩, fun y hy => ?_⟩
    · refine hpost.congr (fun c hc => Mem.write64_agreeOn _ ?_)
      have hdc := hafter c hc
      simp only [freeBlockSize] at hdc ⊢
      omega
    · apply Mem.write64_of_outside
      have hsize := ht.size_ge d hd
      have hyd : ¬ d.Has y := fun hyd => hy ⟨d, by simp, hyd⟩
      simp only [Extent.Has, Extent.stop, freeBlockSize] at hyd hsize
      omega

/-! ## Serving a request from a block -/

/-- The free list after `total` bytes are cut from the front of `b`: the leftover
goes back if it can hold a node, and is lost otherwise. -/
def carve (total : Nat) (b : Extent) (rest : List Extent) : List Extent :=
  if freeBlockSize ≤ b.size - total then
    Extents.insert ⟨b.start + total, b.size - total⟩ rest
  else rest

structure Served (s : HeapState) (bs : List Extent) (total offset : Nat) (b : Extent)
    (rest : List Extent) (s' : HeapState) : Prop where
  shaped : Shaped s' (carve total b rest)
  same : Relisted s s'
  apart : ∀ c ∈ carve total b rest, c.Apart ⟨b.start, total⟩
  mem : ∀ y, ¬ Covers bs y → s'.mem y = s.mem y
  header : s'.mem.read64 b.start = total
  backPointer : s'.mem.read64 (b.start + offset - 8) = offset

variable {fuel : Nat} {rest : List Extent} {y : Nat}

theorem not_covers_carve (ht : Separated (pre ++ b :: post)) (htotal : total ≤ b.size)
    (hy : (⟨b.start, total⟩ : Extent).Has y) : ¬ Covers (carve total b (pre ++ post)) y := by
  simp only [Extent.Has, Extent.stop] at hy
  have hrest : ¬ Covers (pre ++ post) y := by
    rintro ⟨c, hc, hyc⟩
    obtain ⟨-, htail, hcross⟩ := List.pairwise_append.mp ht
    simp only [Extent.Has, Extent.stop] at hyc
    rcases List.mem_append.mp hc with hc | hc
    · have hcb := hcross c hc b (by simp)
      simp only [Extent.stop] at hcb
      omega
    · have hbc := (List.pairwise_cons.mp htail).1 c hc
      simp only [Extent.stop] at hbc
      omega
  unfold carve
  split
  · rw [covers_insert]
    rintro (hx | hcov)
    · simp only [Extent.Has] at hx
      omega
    · exact hrest hcov
  · exact hrest

theorem covers_of_carve (h : Covers (carve total b (pre ++ post)) y) :
    Covers (pre ++ b :: post) y := by
  unfold carve at h
  rw [covers_append, covers_cons]
  split at h
  · rw [covers_insert, covers_append] at h
    rcases h with hx | hpre | hpost
    · refine .inr (.inl ?_)
      simp only [Extent.Has, Extent.stop] at hx ⊢
      omega
    · exact .inl hpre
    · exact .inr (.inr hpost)
  · rw [covers_append] at h
    tauto

theorem total_carve (pre post : List Extent) (htotal : total ≤ b.size) :
    Extents.total (carve total b (pre ++ post)) + total +
        (if freeBlockSize ≤ b.size - total then 0 else b.size - total) =
      Extents.total (pre ++ b :: post) := by
  unfold carve
  split
  · rw [total_insert, total_append, total_append, total_cons]
    simp only
    omega
  · rw [total_append, total_append, total_cons]
    omega

theorem leftover_apart (ht : Separated (pre ++ b :: post)) (htotal : total ≤ b.size) :
    ∀ c ∈ pre ++ post, c.Apart ⟨b.start + total, b.size - total⟩ := by
  intro c hc
  obtain ⟨-, htail, hcross⟩ := List.pairwise_append.mp ht
  simp only [Extent.Apart, Extent.stop]
  rcases List.mem_append.mp hc with hc | hc
  · have hcb := hcross c hc b (by simp)
    simp only [Extent.stop] at hcb
    omega
  · have hbc := (List.pairwise_cons.mp htail).1 c hc
    simp only [Extent.stop] at hbc
    omega

theorem remove_sublist : (pre ++ post).Sublist (pre ++ b :: post) :=
  List.Sublist.append (List.Sublist.refl pre) (List.sublist_cons_self b post)

theorem Tidy.carve {lo hi : Nat} (ht : Tidy lo hi (pre ++ b :: post)) (htotal : total ≤ b.size) :
    Tidy lo hi (carve total b (pre ++ post)) := by
  have hb : b ∈ pre ++ b :: post := by simp
  have hlo := ht.start_ge b hb
  have hhi := ht.stop_le b hb
  unfold CrapOs.carve
  split
  · rename_i hleft
    refine (ht.sublist remove_sublist).insert hleft (Nat.le_trans hlo (Nat.le_add_right _ _)) ?_
      (leftover_apart ht.separated htotal)
    simp only [Extent.stop] at hhi ⊢
    omega
  · exact ht.sublist remove_sublist

/-- The list without `b` but with the leftover of the cut. -/
theorem returnLeftover_spec (h : Shaped s (pre ++ b :: post)) (htotal : total ≤ b.size) :
    ∃ s', returnLeftover (unlinkBlock s (lastStart pre 0)
        (s.mem.read64 (b.start + 8))) b.start total (b.size - total) = .ok s' ∧
      Threaded s'.mem s'.heap.freeList (CrapOs.carve total b (pre ++ post)) 0 ∧ Relisted s s' ∧
      ∀ y, ¬ Covers (pre ++ b :: post) y → s'.mem y = s.mem y := by
  have hrange := h.range
  have hcom := h.committed_le
  have hb : b ∈ pre ++ b :: post := by simp
  have hstop := h.tidy.stop_le b hb
  have hcover : ∀ y, ¬ Covers (pre ++ b :: post) y → ¬ Covers (pre ++ post) y ∧ ¬ b.Has y := by
    intro y hy
    rw [covers_append, covers_cons] at hy
    rw [covers_append]
    tauto
  obtain ⟨hthread, hsame, hmem⟩ := unlinkBlock_spec h.threaded h.tidy h.base_pos
  generalize unlinkBlock s (lastStart pre 0)
    (s.mem.read64 (b.start + 8)) = s1 at hthread hsame hmem ⊢
  have hkeep : ∀ y, ¬ Covers (pre ++ b :: post) y → s1.mem y = s.mem y :=
    fun y hy => hmem y (fun hpre => (hcover y hy).1 ((covers_append _ _ _).mpr (.inl hpre)))
  simp only [CrapOs.carve, returnLeftover]
  by_cases hleft : freeBlockSize ≤ b.size - total
  · have hwrap : wrap64 (b.start + total) = b.start + total := by
      simp only [Extent.stop] at hstop
      exact wrap64_of_lt (by omega)
    have hfuel : (pre ++ post).length < s1.heap.walkFuel := by
      have hlt := h.length_lt
      rw [KernelHeap.walkFuel_congr hsame.maxSize]
      rw [List.length_append, List.length_cons] at hlt
      rw [List.length_append]
      omega
    obtain ⟨s2, hins, hnew, hsame2, hmem2⟩ := insertFreeBlockSorted_spec
      (x := ⟨b.start + total, b.size - total⟩) hthread (h.tidy.sublist remove_sublist) h.base_pos
      (by omega) hfuel hleft (by simp only [Extent.stop] at hstop ⊢; omega)
      (leftover_apart h.tidy.separated htotal)
    rw [if_pos hleft, if_pos hleft, hwrap]
    refine ⟨s2, hins, hnew, hsame.trans hsame2, fun y hy => ?_⟩
    obtain ⟨hrest, hyb⟩ := hcover y hy
    rw [hmem2 y (fun hx => hyb ?_) hrest, hkeep y hy]
    simp only [Extent.Has, Extent.stop] at hx ⊢
    omega
  · rw [if_neg hleft, if_neg hleft]
    exact ⟨s1, rfl, hthread, hsame, hkeep⟩

theorem serveBlock_spec (h : Shaped s (pre ++ b :: post)) (htotal : total ≤ b.size)
    (hoffset : allocHeaderSize ≤ offset) (hle : offset ≤ total) :
    ∃ s', serveBlock s total offset (lastStart pre 0) b.start =
        .ok (b.start + offset, s') ∧
      Served s (pre ++ b :: post) total offset b (pre ++ post) s' := by
  have hrange := h.range
  have hcom := h.committed_le
  have hb : b ∈ pre ++ b :: post := by simp
  have hstop := h.tidy.stop_le b hb
  simp only [Extent.stop] at hstop
  simp only [allocHeaderSize] at hoffset
  have hwrap : wrap64 (b.start + offset) = b.start + offset := wrap64_of_lt (by omega)
  obtain ⟨s1, hrun, hthread, hsame, hmem⟩ := returnLeftover_spec h htotal
  have hapart : ∀ c ∈ CrapOs.carve total b (pre ++ post), c.Apart ⟨b.start, total⟩ :=
    apart_of_not_covers (by show 0 < total; omega)
      (h.tidy.carve htotal).size_pos
      (fun y hy => not_covers_carve h.tidy.separated htotal hy)
  -- the three header words lie in the first `offset` bytes of the block
  obtain ⟨m, hm⟩ : ∃ m, ((s1.mem.write64 b.start total).write64 (b.start + 8) offset).write64
    (b.start + offset - 8) offset = m := ⟨_, rfl⟩
  have hkeep : ∀ a n, a + n ≤ b.start ∨ b.start + offset ≤ a → Mem.AgreeOn s1.mem m a n := by
    intro a n han
    rw [← hm]
    exact ((Mem.write64_agreeOn _ (by omega)).trans (Mem.write64_agreeOn _ (by omega))).trans
      (Mem.write64_agreeOn _ (by omega))
  refine ⟨{ s1 with mem := m }, ?_, ?_, ⟨hsame.base, hsame.maxSize, hsame.committed, hsame.manager⟩,
    hapart, ?_, ?_, ?_⟩
  · simp only [serveBlock, h.threaded.sizes b hb, hrun, hwrap, ← hm]
    rfl
  · refine h.relist ⟨hsame.base, hsame.maxSize, hsame.committed, hsame.manager⟩
      (hthread.congr (fun c hc => hkeep _ _ ?_)) (h.tidy.carve htotal)
    have hcap := hapart c hc
    have hsize := (h.tidy.carve htotal).size_ge c hc
    simp only [Extent.Apart, Extent.stop] at hcap
    omega
  · intro y hy
    rw [← hmem y hy]
    have hyb : ¬ b.Has y := fun hyb => hy ⟨b, hb, hyb⟩
    simp only [Extent.Has, Extent.stop] at hyb
    exact hkeep y 1 (by omega) y (Nat.le_refl y) (by omega)
  · rw [← hm, Mem.read64_write64_disjoint _ (by omega), Mem.read64_write64_disjoint _ (by omega),
      Mem.read64_write64_same _ _ (by omega)]
  · rw [← hm, Mem.read64_write64_same _ _ (by omega)]

theorem allocateLoop_hit {previous current : Nat} (h : Threaded s.mem current (pre ++ b :: post) 0)
    (hnz : ∀ c ∈ pre ++ b :: post, c.start ≠ 0) (hsmall : ∀ c ∈ pre, c.size < total)
    (hfit : total ≤ b.size) (hfuel : pre.length < fuel) :
    allocateLoop total offset fuel s previous current =
      serveBlock s total offset (lastStart pre previous) b.start := by
  induction pre generalizing fuel previous current with
  | nil =>
    obtain ⟨rfl, hsize, -⟩ := threaded_cons.mp h
    cases fuel with
    | zero => simp at hfuel
    | succ fuel =>
      rw [allocateLoop, if_neg (hnz b (by simp)), if_pos (by omega)]
      rfl
  | cons c pre ih =>
    obtain ⟨rfl, hsize, htail⟩ := threaded_cons.mp h
    have hc := hsmall c List.mem_cons_self
    cases fuel with
    | zero => simp at hfuel
    | succ fuel =>
      rw [List.length_cons] at hfuel
      rw [allocateLoop, if_neg (hnz c (by simp)), if_neg (by omega),
        ih htail (fun d hd => hnz d (by simp at hd ⊢; tauto))
          (fun d hd => hsmall d (List.mem_cons_of_mem c hd)) (by omega), lastStart_cons]

theorem allocateLoop_miss {previous current : Nat} (h : Threaded s.mem current bs 0)
    (hnz : ∀ c ∈ bs, c.start ≠ 0) (hsmall : ∀ c ∈ bs, c.size < total) (hfuel : bs.length < fuel) :
    allocateLoop total offset fuel s previous current =
      grow s (pagesNeeded total) >>= fun s' =>
        allocateLoop total offset (fuel - bs.length - 1) s' 0 s'.heap.freeList := by
  induction bs generalizing fuel previous current with
  | nil =>
    obtain rfl := threaded_nil.mp h
    cases fuel with
    | zero => simp at hfuel
    | succ fuel =>
      rfl
  | cons c bs ih =>
    obtain ⟨rfl, hsize, htail⟩ := threaded_cons.mp h
    have hc := hsmall c List.mem_cons_self
    cases fuel with
    | zero => simp at hfuel
    | succ fuel =>
      rw [List.length_cons] at hfuel
      have hleft : fuel + 1 - (c :: bs).length - 1 = fuel - bs.length - 1 := by
        rw [List.length_cons]
        omega
      rw [allocateLoop, if_neg (hnz c (by simp)), if_neg (by omega), hleft]
      exact ih htail (fun d hd => hnz d (List.mem_cons_of_mem c hd))
        (fun d hd => hsmall d (List.mem_cons_of_mem c hd)) (by omega)

/-- The list a request is served from: the present one if a block fits, else the
one `grow` would leave. -/
def servingList (s : HeapState) (bs : List Extent) (total : Nat) : List Extent :=
  if (takeFit total bs).isSome then bs
  else Extents.insert (s.nextRegion (pagesNeeded total)) bs

theorem covers_servingList (h : Covers (servingList s bs total) y) :
    Covers bs y ∨ s.heap.base + s.heap.committed ≤ y := by
  unfold servingList at h
  split at h
  · exact .inl h
  · rw [covers_insert] at h
    rcases h with hregion | hcov
    · exact .inr hregion.1
    · exact .inl hcov

theorem total_servingList : Extents.total (servingList s bs total) =
    Extents.total bs + if (takeFit total bs).isSome then 0 else pagesNeeded total * pageSize := by
  unfold servingList
  split
  · rfl
  · rw [total_insert, Nat.add_comm]
    rfl

structure Allocated (s : HeapState) (bs : List Extent) (total offset : Nat) (b : Extent)
    (rest : List Extent) (s' : HeapState) : Prop where
  shaped : Shaped s' (carve total b rest)
  base : s'.heap.base = s.heap.base
  maxSize : s'.heap.maxSize = s.heap.maxSize
  committed : s'.heap.committed =
    s.heap.committed + if (takeFit total bs).isSome then 0 else pagesNeeded total * pageSize
  inRange : s.heap.base ≤ b.start ∧ b.start + total ≤ s.heap.base + s'.heap.committed
  apart : ∀ c ∈ carve total b rest, c.Apart ⟨b.start, total⟩
  mem : ∀ y, y < s.heap.base + s.heap.committed → ¬ Covers bs y → s'.mem y = s.mem y
  header : s'.mem.read64 b.start = total
  backPointer : s'.mem.read64 (b.start + offset - 8) = offset
  manager : (takeFit total bs).isSome → s'.manager = s.manager

theorem Shaped.start_ne_zero (h : Shaped s bs) : ∀ c ∈ bs, c.start ≠ 0 := fun c hc => by
  have hge := h.tidy.start_ge c hc
  have hpos := h.base_pos
  omega

theorem total_le_pagesNeeded (htotal : total < 2 ^ 63 + allocHeaderSize) :
    total ≤ pagesNeeded total * pageSize := by
  simp only [allocHeaderSize] at htotal
  simp only [pagesNeeded, pageSize]
  rw [wrap64_of_lt (by omega)]
  omega

theorem allocateLoop_serve (h : Shaped s bs) (hfit : takeFit total bs = some (b, rest))
    (hoffset : allocHeaderSize ≤ offset) (hle : offset ≤ total) (hfuel : s.heap.walkFuel ≤ fuel) :
    ∃ s', allocateLoop total offset fuel s 0 s.heap.freeList = .ok (b.start + offset, s') ∧
      Served s bs total offset b rest s' := by
  obtain ⟨pre, post, rfl, rfl, hb, hsmall⟩ := takeFit_eq_some hfit
  have hlen := h.length_lt
  rw [List.length_append, List.length_cons] at hlen
  rw [allocateLoop_hit h.threaded h.start_ne_zero hsmall hb (by omega)]
  exact serveBlock_spec h hb hoffset hle

theorem Shaped.takeFit_range (h : Shaped s bs) (hfit : takeFit total bs = some (b, rest)) :
    s.heap.base ≤ b.start ∧ b.start + total ≤ s.heap.base + s.heap.committed := by
  obtain ⟨pre, post, rfl, -, hb, -⟩ := takeFit_eq_some hfit
  have hlo := h.tidy.start_ge b (by simp)
  have hhi := h.tidy.stop_le b (by simp)
  simp only [Extent.stop] at hhi
  omega

theorem allocateLoop_fits (h : Shaped s bs) (hfit : takeFit total bs = some (b, rest))
    (hoffset : allocHeaderSize ≤ offset) (hle : offset ≤ total) :
    ∃ s', allocateLoop total offset (2 * s.heap.walkFuel) s 0 s.heap.freeList =
        .ok (b.start + offset, s') ∧ Allocated s bs total offset b rest s' := by
  obtain ⟨s', hrun, hserved⟩ := allocateLoop_serve h hfit hoffset hle
    (Nat.le_mul_of_pos_left s.heap.walkFuel Nat.two_pos)
  refine ⟨s', hrun, hserved.shaped, hserved.same.base, hserved.same.maxSize, ?_, ?_, hserved.apart,
    fun y _ hy => hserved.mem y hy, hserved.header, hserved.backPointer, fun _ => hserved.same.manager⟩
  · rw [hserved.same.committed, hfit]
    rfl
  · rw [hserved.same.committed]
    exact h.takeFit_range hfit

/-- The search with one grow: the second walk finds a block. -/
theorem allocateLoop_grows (h : Shaped s bs) (hnone : takeFit total bs = none)
    (hcan : CanGrow s (pagesNeeded total))
    (hfit : takeFit total (Extents.insert (s.nextRegion (pagesNeeded total)) bs) = some (b, rest))
    (hoffset : allocHeaderSize ≤ offset) (hle : offset ≤ total) :
    ∃ s', allocateLoop total offset (2 * s.heap.walkFuel) s 0 s.heap.freeList =
        .ok (b.start + offset, s') ∧ Allocated s bs total offset b rest s' := by
  obtain ⟨s1, hgrow, hgrew⟩ := grow_ok h hcan
  have hlen := h.length_lt
  have hfuel : s1.heap.walkFuel ≤ 2 * s.heap.walkFuel - bs.length - 1 := by
    have hsame := KernelHeap.walkFuel_congr hgrew.maxSize
    omega
  obtain ⟨s', hrun, hserved⟩ := allocateLoop_serve hgrew.shaped hfit hoffset hle hfuel
  refine ⟨s', ?_, hserved.shaped, hserved.same.base.trans hgrew.base,
    hserved.same.maxSize.trans hgrew.maxSize, ?_, ?_, hserved.apart, fun y hy hcov => ?_,
    hserved.header, hserved.backPointer, fun hsome => ?_⟩
  · rw [allocateLoop_miss h.threaded h.start_ne_zero (takeFit_eq_none.mp hnone) (by omega), hgrow]
    exact hrun
  · rw [hserved.same.committed, hgrew.committed, hnone]
    rfl
  · rw [hserved.same.committed, ← hgrew.base]
    exact hgrew.shaped.takeFit_range hfit
  · rw [hserved.mem y, hgrew.mem y hy hcov]
    rw [covers_insert]
    rintro (hregion | hcov')
    · simp only [Extent.Has, HeapState.nextRegion] at hregion
      omega
    · exact hcov hcov'
  · rw [hnone] at hsome
    cases hsome

theorem allocate_ok (h : Shaped s bs) (layout : Layout)
    (hcan : (takeFit (allocationSizes layout).1 bs).isSome ∨
      CanGrow s (pagesNeeded (allocationSizes layout).1)) :
    ∃ b rest s',
      takeFit (allocationSizes layout).1 (servingList s bs (allocationSizes layout).1) =
        some (b, rest) ∧
      allocate s layout = .ok (b.start + (allocationSizes layout).2, s') ∧
      Allocated s bs (allocationSizes layout).1 (allocationSizes layout).2 b rest s' := by
  obtain ⟨-, hoffset, hsum, hbound⟩ := allocationSizes_spec layout
  unfold allocate
  generalize allocationSizes layout = sizes at hcan hoffset hsum hbound ⊢
  obtain ⟨total, offset⟩ := sizes
  simp only at hcan hoffset hsum hbound ⊢
  have hle : offset ≤ total := by omega
  cases hfit : takeFit total bs with
  | some r =>
    obtain ⟨s', hrun, halloc⟩ := allocateLoop_fits h hfit hoffset hle
    exact ⟨r.1, r.2, s', by rw [servingList, hfit]; exact hfit, hrun, halloc⟩
  | none =>
    rw [hfit] at hcan
    have hgrow := hcan.resolve_left (by simp)
    -- the new region alone is large enough, and merging only enlarges it
    obtain ⟨c, hc, hsize⟩ :=
      exists_size_ge_insert (s.nextRegion (pagesNeeded total)) bs
    have hlarge := total_le_pagesNeeded hbound
    cases hfit' : takeFit total (Extents.insert (s.nextRegion (pagesNeeded total)) bs) with
    | none =>
      have hsmall := takeFit_eq_none.mp hfit' c hc
      simp only [HeapState.nextRegion] at hsize
      omega
    | some r =>
      obtain ⟨s', hrun, halloc⟩ := allocateLoop_grows h hfit hgrow hfit' hoffset hle
      exact ⟨r.1, r.2, s', by rw [servingList, hfit]; exact hfit', hrun, halloc⟩

theorem allocate_panic (h : Shaped s bs) (layout : Layout)
    (hfit : takeFit (allocationSizes layout).1 bs = none)
    (hcan : ¬ CanGrow s (pagesNeeded (allocationSizes layout).1)) :
    ∃ message, allocate s layout = .error (.panic message) := by
  obtain ⟨message, hgrow⟩ := grow_panic h hcan
  have hlen := h.length_lt
  refine ⟨message, ?_⟩
  unfold allocate
  simp only
  rw [allocateLoop_miss h.threaded h.start_ne_zero (takeFit_eq_none.mp hfit) (by omega), hgrow]
  rfl

theorem allocated_of_allocate {layout : Layout} {ptr : Nat} {s' : HeapState} (h : Shaped s bs)
    (hok : allocate s layout = .ok (ptr, s')) :
    ∃ b rest,
      takeFit (allocationSizes layout).1 (servingList s bs (allocationSizes layout).1) =
        some (b, rest) ∧
      ptr = b.start + (allocationSizes layout).2 ∧
      Allocated s bs (allocationSizes layout).1 (allocationSizes layout).2 b rest s' := by
  by_cases hcan : (takeFit (allocationSizes layout).1 bs).isSome ∨
      CanGrow s (pagesNeeded (allocationSizes layout).1)
  · obtain ⟨b, rest, s1, htake, hok1, halloc⟩ := allocate_ok h layout hcan
    rw [hok] at hok1
    cases hok1
    exact ⟨b, rest, htake, rfl, halloc⟩
  · rw [not_or, Option.not_isSome_iff_eq_none] at hcan
    obtain ⟨message, herr⟩ := allocate_panic h layout hcan.1 hcan.2
    rw [hok] at herr
    cases herr

theorem deallocate_spec {x : Extent} (h : Shaped s bs) (hlo : s.heap.base ≤ x.start)
    (hhi : x.stop ≤ s.heap.base + s.heap.committed) (hap : ∀ c ∈ bs, c.Apart x)
    (hsize : freeBlockSize ≤ x.size) (hheader : s.mem.read64 x.start = x.size)
    (hback : s.mem.read64 (x.start + offset - 8) = offset) :
    ∃ s', deallocate s (x.start + offset) = .ok s' ∧ Shaped s' (Extents.insert x bs) ∧
      Relisted s s' ∧ ∀ y, ¬ x.Has y → ¬ Covers bs y → s'.mem y = s.mem y := by
  have hrange := h.range
  have hcom := h.committed_le
  obtain ⟨s', hins, hthread, hsame, hmem⟩ := insertFreeBlockSorted_spec h.threaded h.tidy h.base_pos
    (by omega) h.length_lt hsize hhi hap
  refine ⟨s', ?_, h.relist hsame hthread (h.tidy.insert hsize hlo hhi hap), hsame, hmem⟩
  simp only [deallocate, hback, Nat.add_sub_cancel, hheader]
  exact hins

end CrapOs
