import CrapOs.MemoryManager.Heap.Contract

/-! # The search of `allocate`

The loop of `allocate` as it runs, without a bound on its turns and with its calls of
`grow` counted. In a reachable heap it ends after one call at most: what `grow` adds is
large enough by itself, and merging it with a neighbour only makes it larger.
-/

namespace CrapOs

open Foundation Extents

/-- The loop at `previous` and `current` ends with the result `r` after `n` calls of `grow`. -/
inductive Search (totalSize dataOffset : Nat) : HeapState → Nat → Nat → Nat → Nat × HeapState → Prop
  | grow {s s1 : HeapState} {previous n : Nat} {r : Nat × HeapState} :
      grow s (pagesNeeded totalSize) = .ok s1 →
      Search totalSize dataOffset s1 0 s1.heap.freeList n r →
      Search totalSize dataOffset s previous 0 (n + 1) r
  | serve {s : HeapState} {previous current : Nat} {r : Nat × HeapState} :
      current ≠ 0 → totalSize ≤ s.mem.read64 current →
      serveBlock s totalSize dataOffset previous current = .ok r →
      Search totalSize dataOffset s previous current 0 r
  | next {s : HeapState} {previous current n : Nat} {r : Nat × HeapState} :
      current ≠ 0 → ¬ totalSize ≤ s.mem.read64 current →
      Search totalSize dataOffset s current (s.mem.read64 (current + 8)) n r →
      Search totalSize dataOffset s previous current n r

variable {s : HeapState} {bs : List Extent} {total offset previous current n : Nat}
  {r : Nat × HeapState}

theorem search_of_allocateLoop {fuel : Nat}
    (h : allocateLoop total offset fuel s previous current = .ok r) :
    ∃ n, Search total offset s previous current n r := by
  induction fuel generalizing s previous current with
  | zero => cases h
  | succ fuel ih =>
    rw [allocateLoop] at h
    by_cases hnull : current = 0
    · subst hnull
      obtain ⟨s1, hgrow, hloop⟩ := bind_eq_ok.mp h
      obtain ⟨n, hsearch⟩ := ih hloop
      exact ⟨n + 1, .grow hgrow hsearch⟩
    · rw [if_neg hnull] at h
      by_cases hfit : total ≤ s.mem.read64 current
      · rw [if_pos hfit] at h
        exact ⟨0, .serve hnull hfit h⟩
      · rw [if_neg hfit] at h
        obtain ⟨n, hsearch⟩ := ih h
        exact ⟨n, .next hnull hfit hsearch⟩

theorem threaded_zero {m : Mem} (h : Threaded m 0 bs 0) (hnz : ∀ c ∈ bs, c.start ≠ 0) : bs = [] := by
  cases bs with
  | nil => rfl
  | cons c bs =>
    obtain ⟨hstart, -⟩ := threaded_cons.mp h
    exact absurd hstart.symm (hnz c List.mem_cons_self)

theorem Search.no_grow (hsearch : Search total offset s previous current n r)
    (h : Threaded s.mem current bs 0) (hnz : ∀ c ∈ bs, c.start ≠ 0)
    (hfit : ∃ b ∈ bs, total ≤ b.size) : n = 0 := by
  induction hsearch generalizing bs with
  | grow _ _ _ =>
    obtain ⟨b, hb, -⟩ := hfit
    rw [threaded_zero h hnz] at hb
    cases hb
  | serve _ _ _ => rfl
  | next hnull hsmall _ ih =>
    cases bs with
    | nil => exact absurd (threaded_nil.mp h) hnull
    | cons c bs =>
      obtain ⟨rfl, hsize, htail⟩ := threaded_cons.mp h
      refine ih htail (fun d hd => hnz d (List.mem_cons_of_mem c hd)) ?_
      obtain ⟨b, hb, hle⟩ := hfit
      rcases List.mem_cons.mp hb with rfl | hb
      · rw [hsize] at hsmall
        exact absurd hle hsmall
      · exact ⟨b, hb, hle⟩

theorem fits_after_grow {s1 : HeapState} (h : Shaped s bs) (htotal : total < 2 ^ 63 + allocHeaderSize)
    (hgrow : grow s (pagesNeeded total) = .ok s1) :
    ∃ bs1, Shaped s1 bs1 ∧ ∃ b ∈ bs1, total ≤ b.size := by
  have hgrew := grew_of_grow h hgrow
  obtain ⟨b, hb, hsize⟩ := exists_size_ge_insert (s.nextRegion (pagesNeeded total)) bs
  exact ⟨_, hgrew.shaped, b, hb, Nat.le_trans (total_le_pagesNeeded htotal) hsize⟩

theorem Search.grows_le_one (hsearch : Search total offset s previous current n r)
    (h : Shaped s bs) (htotal : total < 2 ^ 63 + allocHeaderSize) : n ≤ 1 := by
  induction hsearch with
  | grow hgrow hrest _ =>
    obtain ⟨bs1, hshaped, hfit⟩ := fits_after_grow h htotal hgrow
    rw [hrest.no_grow hshaped.threaded hshaped.start_ne_zero hfit]
  | serve _ _ _ => exact Nat.zero_le 1
  | next _ _ _ ih => exact ih h

/-- If `grow` succeeds where a request needs it, then `allocate` returns, its search calls `grow`
once at most, and after a `grow` some free block holds the request. -/
theorem allocate_grows_at_most_once {run : HeapRun} (h : run.Reachable) (layout : Layout)
    (hgrow : (∃ b ∈ run.state.freeBlocks, (allocationSizes layout).1 ≤ b.size) ∨
      ∃ s₁, grow run.state (pagesNeeded (allocationSizes layout).1) = .ok s₁) :
    (∃ n r, Search (allocationSizes layout).1 (allocationSizes layout).2
        run.state 0 run.state.heap.freeList n r ∧ allocate run.state layout = .ok r) ∧
    (∀ n r, Search (allocationSizes layout).1 (allocationSizes layout).2
        run.state 0 run.state.heap.freeList n r → n ≤ 1) ∧
    ∀ s₁, grow run.state (pagesNeeded (allocationSizes layout).1) = .ok s₁ →
      ∃ b ∈ s₁.freeBlocks, (allocationSizes layout).1 ≤ b.size := by
  have hshaped := h.inv.shaped
  obtain ⟨-, -, -, htotal⟩ := allocationSizes_spec layout
  refine ⟨?_, fun n r hsearch => hsearch.grows_le_one hshaped htotal, fun s₁ hs₁ => ?_⟩
  · have hcan : (takeFit (allocationSizes layout).1 run.state.freeBlocks).isSome ∨
        CanGrow run.state (pagesNeeded (allocationSizes layout).1) := by
      refine hgrow.imp isSome_takeFit.mpr ?_
      rintro ⟨s₁, hs₁⟩
      by_contra hcannot
      obtain ⟨message, herr⟩ := grow_panic hshaped hcannot
      rw [hs₁] at herr
      cases herr
    obtain ⟨b, rest, s', -, hok, -⟩ := allocate_ok hshaped layout hcan
    obtain ⟨n, hsearch⟩ := search_of_allocateLoop hok
    exact ⟨n, _, hsearch, hok⟩
  · obtain ⟨bs₁, hshaped₁, hfit⟩ := fits_after_grow hshaped htotal hs₁
    rw [hshaped₁.freeBlocks_eq]
    exact hfit

/-- The first request to a heap without any block. -/
theorem allocate_grows_at_most_once_boot : ∃ n r,
    Search (allocationSizes oneByte).1 (allocationSizes oneByte).2 bootHeap 0 0 n r ∧ n ≤ 1 ∧
      allocate bootHeap oneByte = .ok r := by
  have hcan : CanGrow bootHeap (pagesNeeded (allocationSizes oneByte).1) := by
    refine ⟨by decide, by decide, bootManager, rfl, ?_⟩
    rw [bootManager_sound.paging.free.count, length_stockedFrames]
    exact Nat.le_trans (framesNeeded_le _ _ _ _ _) (by decide)
  obtain ⟨s1, hgrow, -⟩ := grow_ok bootHeap_start.inv.shaped hcan
  obtain ⟨⟨n, r, hsearch, hok⟩, honce, -⟩ :=
    allocate_grows_at_most_once (.start bootHeap_start) oneByte (.inr ⟨s1, hgrow⟩)
  exact ⟨n, r, hsearch, honce n r hsearch, hok⟩

end CrapOs
