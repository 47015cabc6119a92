import CrapOs.MemoryManager.UserHalf

/-! # What frames contain

`alloc_page` hands out a frame as it is, and mapping a page writes to tables and to the
frames it takes for them. So a page that is claimed shows the bytes its frame had before,
as do the pages of a new user stack.
-/

namespace CrapOs

open Foundation

variable {mm mm' : MemoryManager} {roots stack stack' : List Nat} {f r k : Nat}

theorem Spaces.allocated {s s' : Phys} (h : Spaces s roots (f :: stack)) (hmem : s'.mem = s.mem) :
    ¬ (⟨s', roots, stack⟩ : TableView).Holds f := by
  rintro (hin | ⟨r, hr, rfl | ⟨p, -, hp, ht⟩⟩)
  · exact (List.nodup_cons.mp h.free.nodup).1 hin
  · exact h.forest.root_off hr List.mem_cons_self
  · rw [hmem] at ht
    exact (h.forest.tree r hr).off p f hp ht List.mem_cons_self

theorem TableRun.unheld {cs : List TableCall} {x y : TableView} (h : TableRun cs x y)
    (hcs : ∀ c ∈ cs, ∀ a, c ≠ .give a) (hf : ¬ x.Holds f) : ¬ y.Holds f := by
  induction h with
  | nil => exact hf
  | cons hstep _ _ ih =>
    refine ih (fun c hc => hcs c (List.mem_cons_of_mem _ hc)) fun hin => hf ?_
    exact hstep.holds (hcs _ List.mem_cons_self) hin

namespace MemoryManager

theorem Live.mapPage_agreeOn {pml4Phys v physicalAddr flags : Nat} (h : mm.Live roots stack)
    (hr : mm.rootOf pml4Phys ∈ roots) (hok : mm.mapPage pml4Phys v physicalAddr flags = .ok mm')
    (h' : mm'.Live roots stack') (hframe : IsFrame f)
    (hf : f ∈ stack' ∨ ¬ (mm.view roots stack).Holds f) :
    Mem.AgreeOn mm.phys.mem mm'.phys.mem f pageSize := by
  obtain ⟨hh, hsel⟩ := h.selectPml4 pml4Phys
  obtain ⟨s', hs', hmm⟩ := bind_eq_ok.mp hok
  cases hmm
  rw [hsel] at hs'
  obtain ⟨free, hfree, hchange⟩ := mapPage_changesOnly (h.spaces.paging hr) hs'
  obtain rfl := hfree.unique h'.spaces.free
  refine agreeOn_of_changesOnly hchange hframe fun a ha => ?_
  refine ⟨h.spaces.forest.isFrame_of_touches h.spaces.free hr ha.1, ?_⟩
  rintro rfl
  rcases hf with hin | hout
  · exact ha.2 hin
  · refine hout ?_
    rcases ha.1 with hroot | hin | hinner
    · exact .inr ⟨_, hr, .inl hroot⟩
    · exact .inl hin
    · exact .inr ⟨_, hr, .inr hinner⟩

end MemoryManager

open MemoryManager

/-! ## The loops that allocate and map -/

namespace AddressSpace

theorem fillPml4_agreeOn {s : Phys} (hf : IsFrame f) (hr : IsFrame r) (hne : r ≠ f) :
    Mem.AgreeOn s.mem (fillPml4 s k r).mem f pageSize := by
  have hcopy : ∀ n s1, n ≤ 256 →
      Mem.ChangesOnly s1.mem (copyWords s1 (virtOf true k) (virtOf true r) n).mem pageSize (· = r) := by
    intro n s1 hn
    induction n with
    | zero => exact .refl _ _ _
    | succ n ih =>
      rw [copyWords_succ]
      exact (ih (by omega)).trans (store_changesOnly (B := (· = r)) _ hr rfl true ⟨256 + n, by omega⟩ _)
  have hzero : Mem.ChangesOnly s.mem (zeroWords s (virtOf true r) 512).mem pageSize (· = r) := by
    intro x hx
    have hout := hx r rfl
    simp only [pageSize] at hout
    rw [(zeroWords_spec (s := s) hr true (Nat.le_refl 512)).2, if_neg (by omega)]
  refine agreeOn_of_changesOnly (hzero.trans (hcopy 256 _ (Nat.le_refl _))) hf ?_
  rintro a rfl
  exact ⟨hr, hne⟩

/-- What the stack loop leaves behind: it takes frames from the free list and maps them as they
are. -/
structure StackMapped (r i count : Nat) (mm : MemoryManager) (roots stack : List Nat)
    (mm' : MemoryManager) (stack' : List Nat) : Prop where
  live : mm'.Live roots stack'
  free : ∀ a ∈ stack', a ∈ stack ∧ Mem.AgreeOn mm.phys.mem mm'.phys.mem a pageSize
  data : ∀ f, IsFrame f → ¬ (mm.view roots stack).Holds f →
    Mem.AgreeOn mm.phys.mem mm'.phys.mem f pageSize
  other : ∀ p : TablePath, p.length ≤ 4 → entryAt mm.phys.mem r p ≠ none →
    (∀ j, i ≤ j → j < i + count → p ≠ pagePath (stackPage j)) →
      entryAt mm'.phys.mem r p = entryAt mm.phys.mem r p
  pages : ∀ j, i ≤ j → j < i + count → ∃ f ∈ stack, IsFrame f ∧ ¬ (mm'.view roots stack').Holds f ∧
    Mem.AgreeOn mm.phys.mem mm'.phys.mem f pageSize ∧
    entryAt mm'.phys.mem r (pagePath (stackPage j)) = some (leafEntry f stackFlags)

theorem mapStack_mapped {count i : Nat} (h : mm.Live roots stack) (hr : r ∈ roots)
    (hne : r ≠ kernelPml4) (hcount : i + count ≤ defaultStackPages)
    (hok : mapStack r count i mm = .ok mm') :
    ∃ stack', StackMapped r i count mm roots stack mm' stack' := by
  have hroot : ∀ mm : MemoryManager, mm.rootOf r = r := fun mm => if_neg hne
  induction count generalizing i mm stack with
  | zero =>
    cases hok
    exact ⟨stack, h, fun a ha => ⟨ha, .refl _ _ _⟩, fun _ _ _ => .refl _ _ _,
      fun _ _ _ _ => rfl, fun j hij hj => absurd hj (by omega)⟩
  | succ count ih =>
    rcases h.allocPage with ⟨-, hnone⟩ | ⟨g, stack1, mm1, rfl, hsome, hptr1, h1, htake⟩
    · simp only [mapStack, hnone] at hok
      cases hok
    simp only [mapStack, hsome] at hok
    obtain ⟨mm2, hmap, hrest⟩ := bind_eq_ok.mp hok
    have hg := h.spaces.free.frames g List.mem_cons_self
    have hr1 : mm1.rootOf r ∈ roots := by rwa [hroot]
    have hmem1 : mm1.phys.mem = mm.phys.mem := htake.take_mem
    obtain ⟨stack2, -, h2, hstep⟩ := h1.mapPage hr1 hg.lt (by decide) hmap
    rw [hroot] at hstep
    have hmapped := hstep.mapped
    have hsub : ∀ a ∈ stack2, a ∈ stack1 := by
      rw [show stack2 = stack1.drop _ from hmapped.taken]
      exact fun a => List.mem_of_mem_drop
    -- the bytes across the first iteration
    have hkept : ∀ f, IsFrame f → (f ∈ stack2 ∨ ¬ (mm1.view roots stack1).Holds f) →
        Mem.AgreeOn mm.phys.mem mm2.phys.mem f pageSize := fun f hf hcase =>
      hmem1 ▸ h1.mapPage_agreeOn hr1 hmap h2 hf hcase
    have hout1 : ¬ (mm1.view roots stack1).Holds g := h.spaces.allocated hmem1
    have hdata : ∀ f, ¬ (mm1.view roots stack1).Holds f → ¬ (mm2.view roots stack2).Holds f :=
      fun f hf hin => hf (hstep.holds (by simp) hin)
    obtain ⟨stack', hmore⟩ := ih h2 (by omega) hrest
    refine ⟨stack', hmore.live, ?_, ?_, ?_, ?_⟩
    · intro a ha
      obtain ⟨hin, hagree⟩ := hmore.free a ha
      exact ⟨List.mem_cons_of_mem g (hsub a hin),
        (hkept a (h2.spaces.free.frames a hin) (.inl hin)).trans hagree⟩
    · intro f hf hout
      have hunheld : ¬ (mm1.view roots stack1).Holds f := fun hin => hout (htake.holds (by simp) hin)
      exact (hkept f hf (.inr hunheld)).trans (hmore.data f hf (hdata f hunheld))
    · intro p hp hpresent hpages
      have hfirst : entryAt mm2.phys.mem r p = entryAt mm.phys.mem r p := by
        rw [← hmem1]
        refine hmapped.keep p hp (hpages i (Nat.le_refl _) (by omega)) ?_
        show entryAt mm1.phys.mem r p ≠ none
        rwa [hmem1]
      refine (hmore.other p hp (by rwa [hfirst]) fun j hij hj => ?_).trans hfirst
      exact hpages j (by omega) (by omega)
    · intro j hij hj
      by_cases hji : j = i
      · subst hji
        have hlast := hmore.other (pagePath (stackPage j)) (length_pagePath _).le
          (by rw [show entryAt mm2.phys.mem r _ = _ from hmapped.leaf]; exact Option.some_ne_none _)
          fun j' hj' hlt heq => by
            have := stackPath_inj (by omega) (by omega) heq
            omega
        have hlive := hmore.live
        refine ⟨g, List.mem_cons_self, hg, ?_, (hkept g hg (.inr hout1)).trans
          (hmore.data g hg (hdata g hout1)), hlast.trans hmapped.leaf⟩
        obtain ⟨stack'', -, hlive', hrun⟩ := mapStack_run h2 hr hne hrest
        obtain rfl := hlive.spaces.free.unique hlive'.spaces.free
        refine hrun.unheld (fun c hc a => ?_) (hdata g hout1)
        obtain ⟨_, -, rfl⟩ := List.mem_map.mp hc
        simp
      · obtain ⟨f, hf, hframe, hunheld, hagree, hentry⟩ := hmore.pages j (by omega) (by omega)
        exact ⟨f, List.mem_cons_of_mem g (hsub f hf), hframe, hunheld,
          (hkept f hframe (.inl hf)).trans hagree, hentry⟩

theorem init_pages {space : AddressSpace} (h : mm.Live roots stack) (hk : k ∈ roots)
    (hok : init mm k = .ok (space, mm')) (h' : mm'.Live (space.pml4Phys :: roots) stack') :
    ∀ j < defaultStackPages, ∃ f ∈ stack, IsFrame f ∧
      ¬ (mm'.view (space.pml4Phys :: roots) stack').Holds f ∧
      Mem.AgreeOn mm.phys.mem mm'.phys.mem f pageSize ∧
      entryAt mm'.phys.mem space.pml4Phys (pagePath (stackPage j)) = some (leafEntry f stackFlags) := by
  rcases h.allocPage with ⟨-, hnone⟩ | ⟨g, stack1, mm1, rfl, hsome, hptr1, h1, htake⟩
  · simp only [init, hnone] at hok
    cases hok
  obtain ⟨s, hfill, hlive, -⟩ := fillPml4_live h h1 htake hk
  simp only [init, hsome, hfill] at hok
  obtain ⟨mm2, hstack, hret⟩ := bind_eq_ok.mp hok
  cases hret
  have hg := h.spaces.free.frames g List.mem_cons_self
  have hmem1 : mm1.phys.mem = mm.phys.mem := htake.take_mem
  obtain ⟨stack2, hmapped⟩ := mapStack_mapped hlive List.mem_cons_self hg.nonzero
    (by simp [defaultStackPages]) hstack
  obtain rfl := hmapped.live.spaces.free.unique h'.spaces.free
  intro j hj
  obtain ⟨f, hf, hframe, hunheld, hagree, hentry⟩ := hmapped.pages j (Nat.zero_le _) (by omega)
  have hgf : g ≠ f := by
    rintro rfl
    exact (List.nodup_cons.mp h.spaces.free.nodup).1 hf
  have hfilled : Mem.AgreeOn mm.phys.mem s.mem f pageSize := by
    rw [← hmem1, ← hfill]
    exact fillPml4_agreeOn hframe hg hgf
  exact ⟨f, List.mem_cons_of_mem g hf, hframe, hunheld, hfilled.trans hagree, hentry⟩

end AddressSpace

theorem commitPages_agreeOn {region count i : Nat} (h : mm.Live roots stack)
    (hok : commitPages region count i mm = .ok mm') (hframe : IsFrame f)
    (hf : ¬ (mm.view roots stack).Holds f) : Mem.AgreeOn mm.phys.mem mm'.phys.mem f pageSize := by
  induction count generalizing i mm stack with
  | zero =>
    cases hok
    exact .refl _ _ _
  | succ count ih =>
    rcases h.allocPage with ⟨-, hnone⟩ | ⟨g, stack1, mm1, rfl, hsome, -, h1, htake⟩
    · simp only [commitPages, hnone] at hok
      cases hok
    simp only [commitPages, hsome] at hok
    obtain ⟨mm2, hmap, hrest⟩ := bind_eq_ok.mp hok
    have hkernel : mm1.rootOf kernelPml4 ∈ roots := h1.root_mem
    obtain ⟨stack2, -, h2, hstep⟩ := h1.mapPage hkernel
      (h.spaces.free.frames g List.mem_cons_self).lt (by decide) hmap
    have hf1 : ¬ (mm1.view roots stack1).Holds f := fun hin => hf (htake.holds (by simp) hin)
    have hfirst := h1.mapPage_agreeOn hkernel hmap h2 hframe (.inr hf1)
    rw [show mm1.phys.mem = mm.phys.mem from htake.take_mem] at hfirst
    exact hfirst.trans (ih h2 hrest fun hin => hf1 (hstep.holds (by simp) hin))

theorem System.growHeap_data {σ σ' : System} {n : Nat} (h : σ.Live stack)
    (hok : σ.exec (.growHeap n) = .ok σ') (h' : σ'.Live stack') (hframe : IsFrame f)
    (hf : ¬ (σ.view stack).Holds f) :
    ¬ (σ'.view stack').Holds f ∧ Mem.AgreeOn σ.manager.phys.mem σ'.manager.phys.mem f pageSize := by
  obtain ⟨s, hgrow, hret⟩ := bind_eq_ok.mp hok
  cases hret
  obtain ⟨manager, hcommit, hmanager, -⟩ := grow_eq rfl hgrow
  obtain ⟨stack1, -, hptr, hlive, hrun⟩ := commitPages_run h hcommit
  rw [hmanager, Option.getD_some] at h' ⊢
  obtain rfl := hlive.spaces.free.unique h'.spaces.free
  refine ⟨?_, commitPages_agreeOn h hcommit hframe hf⟩
  have hroots : System.roots ⟨manager, s.heap, s.mem, σ.spaces⟩ = σ.roots := roots_eq rfl hptr
  rw [System.view, hroots]
  refine hrun.unheld (fun c hc a => ?_) hf
  obtain ⟨_, -, rfl⟩ := List.mem_map.mp hc
  simp

end CrapOs
