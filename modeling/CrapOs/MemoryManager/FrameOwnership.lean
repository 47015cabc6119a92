import CrapOs.MemoryManager.KernelCalls

/-! # Who a frame belongs to

The memory manager holds the free frames and the page tables; the pages of the
address spaces are to be other frames, each mapped once. A set of exempt pages
is left out of this: the direct map, which reaches every frame on purpose.
-/

namespace CrapOs

open Foundation

/-- The frame an entry refers to: its bits 12 to 51. -/
def frameOf (e : Nat) : Nat := e % 2 ^ 52 / pageSize * pageSize

private theorem leafEntry_split {pa flags : Nat} (hflags : IsKernelFlags flags) :
    leafEntry pa flags = (flags &&& Flag.nx) ||| leafEntry pa (flags &&& 31) := by
  have hsplit : flags = (flags &&& Flag.nx) ||| (flags &&& 31) := by
    rw [← Nat.and_or_distrib_left]
    exact hflags.symm
  unfold leafEntry
  conv_lhs => rw [hsplit]
  rw [← Nat.or_assoc, ← Nat.or_assoc, Nat.or_comm (pa &&& pageMask), ← Nat.or_assoc]

theorem frameOf_leafEntry {pa flags : Nat} (hal : pa % pageSize = 0) (hpa : pa < 2 ^ 52)
    (hflags : IsKernelFlags flags) :
    frameOf (leafEntry pa flags) = pa ∧ leafEntry pa flags % 2 ^ 63 < 2 ^ 52 := by
  have hle : flags &&& 31 ≤ 31 := Nat.and_le_right
  have hbits : (flags &&& 31) ||| Flag.present < 2 ^ 5 := Nat.or_lt_two_pow (by omega) (by decide)
  have hlow : leafEntry pa (flags &&& 31) = pa + ((flags &&& 31) ||| Flag.present) := by
    rw [leafEntry, and_pageMask (by omega), Nat.mul_div_cancel' (Nat.dvd_of_mod_eq_zero hal),
      Nat.or_assoc, or_eq_add_of_dvd (k := 12) (Nat.dvd_of_mod_eq_zero hal) (by omega)]
  have hnx : flags &&& Flag.nx = (flags.testBit 63).toNat * 2 ^ 63 := Nat.and_two_pow flags 63
  have hdvd : 2 ^ 63 ∣ flags &&& Flag.nx := by
    rw [hnx]
    exact Nat.dvd_mul_left _ _
  simp only [pageSize] at hal
  rw [leafEntry_split hflags, hlow, or_eq_add_of_dvd hdvd (by omega)]
  simp only [frameOf, pageSize]
  omega

/-! ## Pages and their frames -/

/-- A page below a live PML4 that is not exempt, with its leaf entry. -/
structure Leaf (exempt : TablePath → Prop) (x : TableView) (r : Nat) (i : Fin 512) (q : TablePath)
    (e : Nat) : Prop where
  live : r ∈ x.roots
  length : q.length = 3
  counts : ¬ exempt (i :: q)
  entry : x.entry r (i :: q) = some e

/-- No page refers to a free frame or to a table. -/
def Clean (exempt : TablePath → Prop) (x : TableView) : Prop :=
  ∀ r i q e, Leaf exempt x r i q e → ¬ x.Holds (frameOf e)

/-- Besides, every page refers to a frame of its own. A page two PML4s share is one page. -/
structure Owned (exempt : TablePath → Prop) (x : TableView) : Prop where
  clean : Clean exempt x
  frame : ∀ r i q e, Leaf exempt x r i q e → IsFrame (frameOf e) ∧ e % 2 ^ 63 < 2 ^ 52
  once : ∀ r i q e r' i' q' e', Leaf exempt x r i q e → Leaf exempt x r' i' q' e' →
    frameOf e = frameOf e' → i :: q = i' :: q' ∧ x.slot r i = x.slot r' i'

variable {exempt : TablePath → Prop} {c : TableCall} {x y : TableView} {r r' a v : Nat}
  {i : Fin 512} {q : TablePath} {e : Nat}

theorem Leaf.origin (h : TableStep c x y) (hl : Leaf exempt y r i q e) :
    (∃ r0, Leaf exempt x r0 i q e ∧ x.slot r0 i = y.slot r i) ∨
    ∃ r0, c.Writes x r0 (i :: q) e ∧ y.slot r0 i = y.slot r i := by
  rcases h.leaf_origin hl.live hl.length hl.entry with ⟨r0, hr0, he, hslot⟩ | hnew
  · exact .inl ⟨r0, ⟨hr0, hl.length, hl.counts, he⟩, hslot⟩
  · exact .inr hnew

theorem TableCall.Writes.unique {q' : TablePath} {e' : Nat} (h : c.Writes x r q e)
    (h' : c.Writes x r' q' e') : r = r' ∧ q = q' ∧ e = e' := by
  cases c with
  | map =>
    obtain ⟨rfl, rfl, rfl⟩ := h
    obtain ⟨rfl, rfl, rfl⟩ := h'
    exact ⟨rfl, rfl, rfl⟩
  | claim =>
    obtain ⟨rfl, rfl, f, rest, hx, rfl⟩ := h
    obtain ⟨rfl, rfl, f', rest', hx', rfl⟩ := h'
    obtain ⟨rfl, -⟩ := List.cons.inj (hx.symm.trans hx')
    exact ⟨rfl, rfl, rfl⟩
  | take | unmap | give | adopt => cases h

theorem Clean.step (h : Clean exempt x) (hs : TableStep c x y) (hc : ∀ a, c ≠ .give a)
    (hnew : ∀ r q e, c.Writes x r q e → ¬ exempt q → ¬ y.Holds (frameOf e)) : Clean exempt y := by
  intro r i q e hl hin
  rcases hl.origin hs with ⟨r0, hold, -⟩ | ⟨r0, hw, -⟩
  · exact h r0 i q e hold (hs.holds hc hin)
  · exact hnew r0 _ e hw hl.counts hin

theorem Owned.step (h : Owned exempt x) (hs : TableStep c x y) (hc : ∀ a, c ≠ .give a)
    (hnew : ∀ r q e, c.Writes x r q e → ¬ exempt q → ¬ y.Holds (frameOf e) ∧
      (IsFrame (frameOf e) ∧ e % 2 ^ 63 < 2 ^ 52) ∧
      ∀ r' i' q' e', Leaf exempt x r' i' q' e' → frameOf e' ≠ frameOf e) : Owned exempt y where
  clean := h.clean.step hs hc fun r q e hw hq => (hnew r q e hw hq).1
  frame := by
    intro r i q e hl
    rcases hl.origin hs with ⟨r0, hold, -⟩ | ⟨r0, hw, -⟩
    · exact h.frame r0 i q e hold
    · exact (hnew r0 _ e hw hl.counts).2.1
  once := by
    intro r i q e r' i' q' e' hl hl' hsame
    rcases hl.origin hs with ⟨r0, hold, hslot⟩ | ⟨r0, hw, hslot⟩ <;>
      rcases hl'.origin hs with ⟨r0', hold', hslot'⟩ | ⟨r0', hw', hslot'⟩
    · obtain ⟨hpath, hshare⟩ := h.once _ _ _ _ _ _ _ _ hold hold' hsame
      exact ⟨hpath, hslot.symm.trans (hshare.trans hslot')⟩
    · exact absurd hsame ((hnew r0' _ e' hw' hl'.counts).2.2 _ _ _ _ hold)
    · exact absurd hsame.symm ((hnew r0 _ e hw hl.counts).2.2 _ _ _ _ hold')
    · obtain ⟨rfl, hpath, -⟩ := hw.unique hw'
      obtain ⟨rfl, -⟩ := List.cons.inj hpath
      exact ⟨hpath, hslot.symm.trans hslot'⟩

/-- Freeing a frame no page refers to. -/
theorem Owned.give (h : Owned exempt x) (hs : TableStep (.give a) x y)
    (hout : ∀ r i q e, Leaf exempt x r i q e → frameOf e ≠ a) : Owned exempt y := by
  cases hs with
  | @give s s' roots stack _ hsame =>
    have hleaf : ∀ r i q e, Leaf exempt ⟨s', roots, a :: stack⟩ r i q e →
        Leaf exempt ⟨s, roots, stack⟩ r i q e := by
      intro r i q e hl
      refine ⟨hl.live, hl.length, hl.counts, ?_⟩
      rw [← hl.entry]
      exact (hsame r hl.live _ (by rw [List.length_cons, hl.length])).symm
    have hslot : ∀ r ∈ roots, ∀ i, tableAt s'.mem r [i] = tableAt s.mem r [i] :=
      fun r hr i => tableAt_congr (hsame r hr [i] (by simp))
    have hheld : ∀ b, (⟨s', roots, a :: stack⟩ : TableView).Holds b →
        b = a ∨ (⟨s, roots, stack⟩ : TableView).Holds b := by
      rintro b (hin | ⟨r, hr, hin⟩)
      · rcases List.mem_cons.mp hin with rfl | hin
        · exact .inl rfl
        · exact .inr (.inl hin)
      · refine .inr (.inr ⟨r, hr, hin.imp id fun hin => ?_⟩)
        exact (isInner_congr fun p hp => tableAt_congr (hsame r hr p (by omega))).mp hin
    refine ⟨fun r i q e hl hin => ?_, fun r i q e hl => h.frame r i q e (hleaf r i q e hl), ?_⟩
    · rcases hheld _ hin with heq | hin
      · exact hout r i q e (hleaf r i q e hl) heq
      · exact h.clean r i q e (hleaf r i q e hl) hin
    · intro r i q e r' i' q' e' hl hl' hsame'
      obtain ⟨hpath, hshare⟩ := h.once _ _ _ _ _ _ _ _ (hleaf _ _ _ _ hl) (hleaf _ _ _ _ hl') hsame'
      exact ⟨hpath, (hslot r hl.live i).trans (hshare.trans (hslot r' hl'.live i').symm)⟩

theorem TableStep.claim_writes {flags : Nat} {r0 : Nat} (hs : TableStep (.claim r v flags) x y)
    (hx : x.Sound) (hflags : IsKernelFlags flags)
    (hw : (TableCall.claim r v flags).Writes x r0 q e) :
    x.Holds (frameOf e) ∧ ¬ y.Holds (frameOf e) ∧ IsFrame (frameOf e) ∧ e % 2 ^ 63 < 2 ^ 52 := by
  cases hs with
  | @claim s roots stack f _ _ _ x1 _ htake _ hmap =>
    obtain ⟨-, -, g, rest, hg, rfl⟩ := hw
    obtain ⟨rfl, -⟩ := List.cons.inj hg
    have hframe := hx.free.frames f List.mem_cons_self
    have hwindow := hframe.window
    rw [directMapWindow_eq] at hwindow
    obtain ⟨hf, hplain⟩ := frameOf_leafEntry hframe.aligned (by omega) hflags
    rw [hf]
    refine ⟨.inl List.mem_cons_self, fun hin => ?_, hframe, hplain⟩
    have hin1 := hmap.holds (by simp) hin
    cases htake with
    | take hmem =>
      rcases hin1 with hin | ⟨r', hr', rfl | ⟨p, -, hp, ht⟩⟩
      · exact (List.nodup_cons.mp hx.free.nodup).1 hin
      · exact hx.forest.root_off hr' List.mem_cons_self
      · rw [hmem] at ht
        exact (hx.forest.tree r' hr').off p f hp ht List.mem_cons_self

/-- The calls of the kernel's own loops: they map nothing but frames they allocate. -/
def TableCall.Orderly : TableCall → Prop
  | .map .. => False
  | .claim _ _ flags => IsKernelFlags flags
  | .give _ => False
  | _ => True

theorem TableCall.Orderly.ne_give (h : c.Orderly) (a : Nat) : c ≠ .give a := by
  rintro rfl
  exact h

theorem TableCall.Orderly.writes (h : c.Orderly) (hx : x.Sound) (hs : TableStep c x y)
    (hw : c.Writes x r q e) :
    x.Holds (frameOf e) ∧ ¬ y.Holds (frameOf e) ∧ IsFrame (frameOf e) ∧ e % 2 ^ 63 < 2 ^ 52 := by
  cases c with
  | claim r1 v flags => exact hs.claim_writes hx h hw
  | map => exact h.elim
  | take | unmap | give | adopt => cases hw

theorem Clean.run {calls : List TableCall} (h : Clean exempt x) (hx : x.Sound)
    (hrun : TableRun calls x y) (hcalls : ∀ c ∈ calls, c.Orderly) : Clean exempt y := by
  refine (hrun.invariant (Clean exempt) hx h fun c hc x y hx h hs _ => ?_).2
  have horder := hcalls c hc
  exact h.step hs horder.ne_give fun r q e hw _ => (horder.writes hx hs hw).2.1

theorem Owned.run {calls : List TableCall} (h : Owned exempt x) (hx : x.Sound)
    (hrun : TableRun calls x y) (hcalls : ∀ c ∈ calls, c.Orderly) : Owned exempt y := by
  refine (hrun.invariant (Owned exempt) hx h fun c hc x y hx h hs _ => ?_).2
  have horder := hcalls c hc
  refine h.step hs horder.ne_give fun r q e hw _ => ?_
  obtain ⟨hheld, hout, hframe⟩ := horder.writes hx hs hw
  refine ⟨hout, hframe, fun r' i' q' e' hl heq => h.clean r' i' q' e' hl ?_⟩
  rw [heq]
  exact hheld

def innerPath (v : Nat) : TablePath := [tableSlot 30 v, tableSlot 21 v, tableSlot 12 v]

theorem pagePath_eq (v : Nat) : pagePath v = tableSlot 39 v :: innerPath v := rfl

theorem Owned.unmapped (h : Owned exempt x) (hs : TableStep (.unmap r v) x y)
    (hl : Leaf exempt x r (tableSlot 39 v) (innerPath v) e) {e' : Nat}
    (hl' : Leaf exempt y r' i q e') : frameOf e' ≠ frameOf e := by
  intro hsame
  rcases hl'.origin hs with ⟨r0, hold, hslot⟩ | ⟨r0, hw, -⟩
  case inr => cases hw
  obtain ⟨hpath, hshare⟩ := h.once _ _ _ _ _ _ _ _ hold hl hsame
  obtain ⟨rfl, rfl⟩ := List.cons.inj hpath
  cases hs with
  | @unmap s s' roots stack stack' _ _ hr hun hecho =>
    have hgone : entryAt s'.mem r (tableSlot 39 v :: innerPath v) = none := hun.gone
    by_cases hrr : r' = r
    · subst hrr
      cases hgone.symm.trans hl'.entry
    · -- the other PML4 shares the slot, and with it the page that is gone
      have hecho' := hecho r' hl'.live hrr
      have hin : SharesSlot s.mem r r' (tableSlot 39 v) := by
        refine ⟨fun hnone => slot_of_entry hl.entry ?_, ?_⟩
        · exact (RadixTree.present_eq_none_iff (by simp)).mpr hnone
        · rw [← tableAt_congr (hecho'.entry_slot (tableSlot 39 v))]
          exact hslot.symm.trans hshare
      have hsee := hecho'.shared (tableSlot 39 v) (innerPath v) hin (by simp [innerPath])
      cases (hsee.trans hgone).symm.trans hl'.entry

/-! ## Runs of the kernel -/

def System.Holds (σ : System) (a : Nat) : Prop :=
  ∃ stack, FreeStack σ.manager.phys stack ∧ (σ.view stack).Holds a

theorem System.Live.holds_iff {σ : System} {stack : List Nat} (h : σ.Live stack) :
    σ.Holds a ↔ (σ.view stack).Holds a := by
  constructor
  · rintro ⟨stack', hfree, hin⟩
    rw [hfree.unique h.spaces.free] at hin
    exact hin
  · exact fun hin => ⟨stack, h.spaces.free, hin⟩

namespace KernelCall

/-- `mapPage` is given a frame that is neither free nor a table, and no call frees pages. -/
def MapsOutside (exempt : TablePath → Prop) (σ : System) : KernelCall → Prop
  | .mapPage _ v pa flags => ¬ exempt (pagePath v) → ¬ σ.Holds (frameOf (leafEntry pa flags))
  | .unmapAndFreePage _ _ => False
  | _ => True

/-- `mapPage` is given a frame that is not free, no table and not mapped yet. -/
def MapsUnused (exempt : TablePath → Prop) (σ : System) : KernelCall → Prop
  | .mapPage _ _ pa flags => IsKernelFlags flags ∧ IsFrame pa ∧ ¬ σ.Holds pa ∧
      ∀ r i q e, Leaf exempt (σ.view []) r i q e → frameOf e ≠ pa
  | _ => True

/-- `unmapAndFreePage` is given the start of a page that was mapped executable. -/
def FreesExecutable (exempt : TablePath → Prop) (σ : System) : KernelCall → Prop
  | .unmapAndFreePage pml4Phys v => ¬ exempt (pagePath v) ∧ v % pageSize = 0 ∧
      ∀ e, entryAt σ.manager.phys.mem (σ.manager.rootOf pml4Phys) (pagePath v) = some e →
        e &&& Flag.nx = 0
  | _ => True

variable {σ σ' : System} {call : KernelCall} {calls : List TableCall}

/-- All calls but two come down to orderly ones. -/
theorem Expands.cases (h : call.Expands σ σ' calls) :
    (∀ t ∈ calls, t.Orderly) ∨
    (∃ pml4Phys v pa flags, call = .mapPage pml4Phys v pa flags ∧
      calls = [.map (σ.manager.rootOf pml4Phys) v pa flags true]) ∨
    ∃ pml4Phys v a, call = .unmapAndFreePage pml4Phys v ∧
      σ.manager.getPhysicalAddr pml4Phys v = some a ∧
      calls = [.unmap (σ.manager.rootOf pml4Phys) v, .give a] := by
  have hheap : IsKernelFlags (Flag.present ||| Flag.writable ||| Flag.nx) := by
    unfold IsKernelFlags
    decide
  have hstack : IsKernelFlags AddressSpace.stackFlags := by
    unfold IsKernelFlags
    decide
  cases h with
  | exhausted | absent | absentFree | heapWork => exact .inl (by simp)
  | allocPage => exact .inl (by simp [TableCall.Orderly])
  | mapPage pml4Phys v pa flags => exact .inr (.inl ⟨pml4Phys, v, pa, flags, rfl, rfl⟩)
  | unmapPage => exact .inl (by simp [TableCall.Orderly])
  | unmapAndFreePage pml4Phys v a ha => exact .inr (.inr ⟨pml4Phys, v, a, rfl, ha, rfl⟩)
  | createAddressSpace space =>
    refine .inl fun t ht => ?_
    rcases List.mem_cons.mp ht with rfl | ht
    · trivial
    · obtain ⟨j, -, rfl⟩ := List.mem_map.mp ht
      exact hstack
  | growHeap n =>
    refine .inl fun t ht => ?_
    obtain ⟨j, -, rfl⟩ := List.mem_map.mp ht
    exact hheap

end KernelCall

theorem Spaces.tableAt_frameOf {s : Phys} {roots stack : List Nat} {p : TablePath}
    (h : Spaces s roots stack) (hr : r ∈ roots) (hp : p.length ≤ 3)
    (he : entryAt s.mem r p = some e) : tableAt s.mem r p = some (frameOf e) := by
  obtain ⟨hlt, t, ht⟩ := entryAt_spec he
  have hne : p ≠ [] := by
    rintro rfl
    cases he
  have htable : tableAt s.mem r p = some t := by
    rw [tableAt_eq_entryAt hne, he]
    exact ht
  have hwindow := ((h.forest.tree r hr).frames p t hp htable).window
  have hmask : e &&& pageMask = t := by
    unfold decodeEntry at ht
    by_cases hbit : e &&& Flag.present = 0
    · rw [if_pos hbit] at ht
      cases ht
    · rw [if_neg hbit] at ht
      exact Option.some.inj ht
  rw [and_pageMask hlt] at hmask
  rw [directMapWindow_eq] at hwindow
  rw [htable, frameOf]
  simp only [pageSize] at hmask ⊢
  congr 1
  omega

/-- As long as `mapPage` is not given frames of the memory manager and no page is
unmapped that is the last one below a slot another PML4 shares, no entry of a live
PML4 or of a table below it refers to a free frame. -/
theorem entries_avoid_free_list {σ : System}
    (h : Reach (fun σ => ∃ stack, σ.Live stack ∧ Clean exempt (σ.view stack))
      (System.Step fun σ c => c.MapsOutside exempt σ ∧ c.SparesShared σ) σ) :
    ∀ r ∈ σ.roots, ∀ p : TablePath, p.length ≤ 4 → (p.length = 4 → ¬ exempt p) →
      ∀ e, entryAt σ.manager.phys.mem r p = some e → ¬ OnFreeList σ.manager.phys (frameOf e) := by
  have hinv : ∃ stack, σ.Live stack ∧ Clean exempt (σ.view stack) := by
    refine System.run_invariant (fun σ hσ => hσ) ?_ ?_ h
    · rintro σ stack c - - - ⟨hmaps, hshared⟩
      refine ⟨hshared, ?_⟩
      cases c with
      | unmapAndFreePage => exact hmaps.elim
      | _ => trivial
    · rintro σ σ' stack c calls y hlive hclean - ⟨hmaps, -⟩ hexp hrun
      rcases hexp.cases with horder | ⟨pml4Phys, v, pa, flags, rfl, rfl⟩ | ⟨pml4Phys, v, a, rfl, -⟩
      · exact hclean.run hlive.spaces hrun horder
      · cases hrun with
        | cons hstep _ hnil =>
          cases hnil
          refine hclean.step hstep (by simp) ?_
          rintro r q e ⟨-, rfl, rfl⟩ hcounts hin
          exact hmaps hcounts (hlive.holds_iff.mpr (hstep.holds (by simp) hin))
      · exact hmaps.elim
  obtain ⟨stack, hlive, hclean⟩ := hinv
  intro r hr p hp hcounts e he hfree
  rw [hlive.spaces.free.onFreeList_iff] at hfree
  by_cases hleaf : p.length = 4
  · cases p with
    | nil => cases hleaf
    | cons i q =>
      rw [List.length_cons] at hleaf
      exact hclean r i q e ⟨hr, by omega, hcounts (by rw [List.length_cons]; omega), he⟩ (.inl hfree)
  · have htable := hlive.spaces.tableAt_frameOf hr (by omega) he
    exact (hlive.spaces.forest.tree r hr).off p _ (by omega) htable hfree

theorem Spaces.dangles {s s' : Phys} {roots stack stack' : List Nat} (h : Spaces s roots stack)
    (hr : r ∈ roots) (hr' : r' ∈ roots) (hne : r' ≠ r) (hshare : SharesSlot s.mem r r' i)
    (hun : Unmapped r s stack v s' stack')
    (hchange : Mem.ChangesOnly s.mem s'.mem pageSize (Touches s r stack))
    (hgone : entryAt s'.mem r [i] = none) :
    ∃ e, entryAt s'.mem r' [i] = some e ∧ frameOf e ∈ stack' := by
  obtain ⟨t, ht⟩ := Option.ne_none_iff_exists'.mp hshare.1
  have ht' : tableAt s.mem r' [i] = some t := hshare.2.trans ht
  -- the other PML4 is not written to
  have hslot : tableEntry s'.mem r' i = tableEntry s.mem r' i := by
    refine tableEntry_congr (agreeOn_of_changesOnly hchange (h.forest.frame hr') fun a ha => ?_) i
    refine ⟨h.forest.isFrame_of_touches h.free hr ha, fun heq => ?_⟩
    exact h.forest.not_touches hr hr' hne (p := []) (by simp) rfl (by simp) (heq ▸ ha)
  obtain ⟨e, he⟩ : ∃ e, entryAt s.mem r' [i] = some e := by
    refine Option.ne_none_iff_exists'.mp fun hnone => ?_
    cases ((RadixTree.present_eq_none_iff (by simp)).mp hnone).symm.trans ht'
  refine ⟨e, ?_, ?_⟩
  · rw [entryAt_slot, hslot, ← entryAt_slot]
    exact he
  · rw [← Option.some.inj (ht'.symm.trans (h.tableAt_frameOf hr' (by simp) he))]
    -- the table was below `r`, is not any more, and such tables are free
    refine ((hun.owned t).mpr (.inr ⟨[i], by simp, by simp, ht⟩)).resolve_right ?_
    rintro ⟨p, hnil, hp, hpt⟩
    have hsome : entryAt s'.mem r p ≠ none := by
      intro hnone
      cases ((RadixTree.present_eq_none_iff hnil).mp hnone).symm.trans hpt
    have hold : tableAt s.mem r p = some t := by
      rw [← tableAt_congr (hun.keep p (by omega) hsome)]
      exact hpt
    rw [(h.forest.tree r hr).unshared p [i] t hp (by simp) hold ht] at hsome
    exact hsome hgone

/-- If only one page stood below a slot, unmapping it empties the slot. -/
theorem Unmapped.slot_gone {s s' : Phys} {stack stack' : List Nat}
    (h : Unmapped r s stack v s' stack') (htrim : PathTrimmed s'.mem r v)
    (honly : ∀ p : TablePath, (i :: p).length ≤ 4 → entryAt s.mem r (i :: p) ≠ none →
      i :: p ∈ prefixSet (pagePath v)) (n : Nat) (p : TablePath) (hp : (i :: p).length + n = 4) :
    entryAt s'.mem r (i :: p) = none := by
  by_contra hsome
  have hkeep := h.keep (i :: p) (by omega) hsome
  have hin := honly p (by omega) (by rwa [← hkeep])
  -- downwards: a present entry has a present one below it, and the last one is gone
  induction n generalizing p with
  | zero =>
    have heq := (mem_prefixSet.mp hin).2.eq_of_length (by rw [length_pagePath]; omega)
    rw [heq] at hsome
    exact hsome h.gone
  | succ n ih =>
    have hpre : i :: p ∈ prefixSet (tablePath v) := by
      rw [pagePath, prefixSet_concat, Finset.mem_insert] at hin
      refine hin.resolve_left fun heq => ?_
      rw [heq, List.length_append, length_tablePath, List.length_singleton] at hp
      omega
    obtain ⟨j, hj⟩ := htrim _ hpre hsome
    have hlen : (i :: (p ++ [j])).length + n = 4 := by
      rw [List.length_cons, List.length_append, List.length_singleton]
      rw [List.length_cons] at hp
      omega
    have hkeep' := h.keep (i :: (p ++ [j])) (by omega) hj
    exact ih (p ++ [j]) hlen hj hkeep' (honly _ (by omega) (by rwa [← hkeep']))

theorem dangling_run {σ : System} {stack : List Nat} {pa flags : Nat} (h : σ.Live stack)
    (hlen : 20 ≤ stack.length) (hpa : pa < 2 ^ 64) (hflags : flags < 2 ^ 64)
    (hhigh : 256 ≤ (tableSlot 39 v).val)
    (hempty : ∀ p, entryAt σ.manager.phys.mem σ.root (tableSlot 39 v :: p) = none) :
    ∃ σ1 σ2 σ3, σ.exec (.mapPage kernelPml4 v pa flags) = .ok σ1 ∧
      σ1.exec .createAddressSpace = .ok σ2 ∧ σ2.exec (.unmapPage kernelPml4 v) = .ok σ3 ∧
      ∃ r ∈ σ3.roots, ∃ e, entryAt σ3.manager.phys.mem r [tableSlot 39 v] = some e ∧
        OnFreeList σ3.manager.phys (frameOf e) := by
  obtain ⟨σ1, stack1, hmap, hroot1, -, hlive1, hlen1, hstep1⟩ :=
    h.mapPage_ok (σ.inRange_kernel v hpa hflags) ((missing_le _ _ _).trans (by omega))
  obtain ⟨σ2, hcreate⟩ := hlive1.createAddressSpace_ok (by omega)
  obtain ⟨f, stack2, hne, hf, hroot2, hlive2, hupper⟩ := createAddressSpace_upper hlive1 hcreate
  rw [hroot1] at hne hroot2 hupper
  -- the kernel has one page below the slot
  have honly : ∀ p : TablePath, (tableSlot 39 v :: p).length ≤ 4 →
      entryAt σ2.manager.phys.mem σ.root (tableSlot 39 v :: p) ≠ none →
        tableSlot 39 v :: p ∈ prefixSet (pagePath v) := by
    intro p hp hsome
    rw [(hupper _ p hhigh hp).1] at hsome
    by_cases hpage : tableSlot 39 v :: p = pagePath v
    · rw [hpage]
      exact mem_prefixSet.mpr ⟨by simp [pagePath, tablePath], List.prefix_rfl⟩
    · obtain ⟨hnil, hpre⟩ := mem_prefixSet.mp (hstep1.mapped.fresh _ hp hpage (hempty p) hsome).1
      exact mem_prefixSet.mpr ⟨hnil, hpre.trans (List.prefix_append _ _)⟩
  have hpage : entryAt σ2.manager.phys.mem σ.root (pagePath v) ≠ none := by
    rw [pagePath_eq, (hupper _ _ hhigh (by simp [innerPath])).1]
    intro hnone
    cases hnone.symm.trans hstep1.mapped.leaf
  have hshare : SharesSlot σ2.manager.phys.mem σ.root f (tableSlot 39 v) := by
    obtain ⟨hkernel, huser⟩ := hupper (tableSlot 39 v) [] hhigh (by simp)
    refine ⟨fun hnone => ?_, tableAt_slot_of_entryAt_slot (huser.trans hkernel.symm)⟩
    obtain ⟨e, he⟩ := Option.ne_none_iff_exists'.mp hpage
    exact slot_of_entry he ((RadixTree.present_eq_none_iff (by simp)).mpr hnone)
  have hkernel : σ.root ∈ σ2.roots := by
    rw [← hroot2]
    exact σ2.root_mem
  have hpaging := hlive2.spaces.paging hkernel
  obtain ⟨hh, hsel⟩ := MemoryManager.Live.selectPml4 hlive2 kernelPml4
  rw [σ2.rootOf_kernel, hroot2] at hsel
  have hfoot := unmapPage_footprint hpaging v hh
  obtain ⟨-, s3, stack3, hrun, hun, htrim⟩ := (unmapPage_spec hpaging v hh).resolve_left
    fun hno => hpage hno.1
  rw [hrun] at hfoot
  have hgone := hun.slot_gone htrim honly 3 [] (by simp)
  obtain ⟨e, he, hin⟩ := hlive2.spaces.dangles hkernel hf hne hshare hun hfoot hgone
  have hman : (σ2.manager.unmapPage kernelPml4 v).2 = { σ2.manager with phys := s3 } := by
    rw [MemoryManager.unmapPage, hsel, hrun]
  refine ⟨σ1, σ2, { σ2 with manager := { σ2.manager with phys := s3 } }, hmap, hcreate, ?_, f, hf, e,
    he, stack3, hun.paging.free, hin⟩
  rw [System.exec, hman]

/-- The system after the kernel has unmapped its only page below a slot that a user PML4
has copied: the user PML4 refers to a free frame. -/
theorem unmapPage_dangles : ∃ σ₁ σ₂ σ₃,
    smallSystem.exec (.mapPage kernelPml4 0xFFFFC00000000000 0x50000000 Flag.writable) = .ok σ₁ ∧
    σ₁.exec .createAddressSpace = .ok σ₂ ∧
    σ₂.exec (.unmapPage kernelPml4 0xFFFFC00000000000) = .ok σ₃ ∧
    ∃ r ∈ σ₃.roots, ∃ e, entryAt σ₃.manager.phys.mem r [tableSlot 39 0xFFFFC00000000000] = some e ∧
      OnFreeList σ₃.manager.phys (frameOf e) := by
  refine dangling_run smallSystem_live (by rw [length_stockedFrames]; omega) (by decide) (by decide)
    (by decide) fun p => ?_
  exact smallSystem_entry _

section Empty

variable {σ : System} {stack : List Nat} (hroots : σ.roots = [0x1000])
  (hempty : ∀ p, entryAt σ.manager.phys.mem 0x1000 p = none)

include hroots hempty

theorem no_leaf_of_empty (hl : Leaf exempt (σ.view stack) r i q e) : False := by
  have hr : r ∈ σ.roots := hl.live
  rw [hroots, List.mem_singleton] at hr
  have he : entryAt σ.manager.phys.mem r (i :: q) = some e := hl.entry
  rw [hr, hempty] at he
  cases he

theorem owned_of_empty : Owned exempt (σ.view stack) where
  clean _ _ _ _ hl := (no_leaf_of_empty hroots hempty hl).elim
  frame _ _ _ _ hl := (no_leaf_of_empty hroots hempty hl).elim
  once _ _ _ _ _ _ _ _ hl := (no_leaf_of_empty hroots hempty hl).elim

theorem not_holds_of_empty (h : σ.Live stack) (hfree : a ∉ stack) (hne : a ≠ 0x1000) :
    ¬ σ.Holds a := by
  rw [h.holds_iff]
  rintro (hin | ⟨r, hr, hin⟩)
  · exact hfree hin
  · have hr' : r ∈ σ.roots := hr
    rw [hroots, List.mem_singleton] at hr'
    rw [hr'] at hin
    rcases hin with heq | ⟨p, hnil, -, ht⟩
    · exact hne heq
    · cases ((RadixTree.present_eq_none_iff hnil).mp (hempty p)).symm.trans ht

end Empty

/-- The kernel of the small machine maps a device page. -/
theorem entries_avoid_free_list_of_smallSystem : ∃ σ,
    smallSystem.exec (.mapPage kernelPml4 0xFFFFC00000000000 0x50000000 Flag.writable) = .ok σ ∧
    ∀ r ∈ σ.roots, ∀ p : TablePath, p.length ≤ 4 → (p.length = 4 → ¬ False) →
      ∀ e, entryAt σ.manager.phys.mem r p = some e → ¬ OnFreeList σ.manager.phys (frameOf e) := by
  have hrange := smallSystem.inRange_kernel 0xFFFFC00000000000 (by decide : 0x50000000 < 2 ^ 64)
    (by decide : Flag.writable < 2 ^ 64)
  obtain ⟨σ, stack, hok, -⟩ := smallSystem_live.mapPage_ok hrange
    ((missing_le _ _ _).trans (by rw [length_stockedFrames]; omega))
  have hclean : Clean (fun _ => False) (smallSystem.view (stockedFrames 128)) :=
    (owned_of_empty smallSystem_roots smallSystem_entry).clean
  have hout : ¬ smallSystem.Holds 0x50000000 := by
    refine not_holds_of_empty smallSystem_roots smallSystem_entry smallSystem_live (fun hin => ?_)
      (by decide)
    obtain ⟨k, hk, heq⟩ := mem_stockedFrames hin
    simp only [pageSize] at heq
    omega
  refine ⟨σ, hok, entries_avoid_free_list (.step (.start ⟨_, smallSystem_live, hclean⟩) ?_)⟩
  exact ⟨_, hrange, ⟨fun _ => hout, trivial⟩, hok⟩

theorem freed_eq_frameOf_iff (hlt : e < 2 ^ 64) (hplain : e % 2 ^ 63 < 2 ^ 52) :
    (e &&& pageMask) ||| (v &&& 0xFFF) = frameOf e ↔ v % pageSize = 0 ∧ e &&& Flag.nx = 0 := by
  have hoff : v &&& 0xFFF = v % pageSize := Nat.and_two_pow_sub_one_eq_mod v 12
  have hsmall : v % pageSize < 2 ^ 12 := Nat.mod_lt v (by decide)
  have hnx : e &&& Flag.nx = (e.testBit 63).toNat * 2 ^ 63 := Nat.and_two_pow e 63
  have hbit : e.testBit 63 = decide (e / 2 ^ 63 % 2 = 1) := Nat.testBit_eq_decide_div_mod_eq
  have hsum : pageSize * (e / pageSize) ||| v % pageSize = pageSize * (e / pageSize) + v % pageSize :=
    or_eq_add_of_dvd (k := 12) (Nat.dvd_mul_right _ _) hsmall
  rw [hoff, and_pageMask hlt, hsum, hnx, hbit, frameOf]
  by_cases hhigh : e / 2 ^ 63 % 2 = 1
  · simp only [pageSize, hhigh, decide_true, Bool.toNat_true]
    omega
  · simp only [pageSize, hhigh, decide_false, Bool.toNat_false]
    omega

theorem MemoryManager.Live.getPhysicalAddr_some {mm : MemoryManager} {roots stack : List Nat}
    {pml4Phys : Nat} (h : mm.Live roots stack) (hr : mm.rootOf pml4Phys ∈ roots)
    (ha : mm.getPhysicalAddr pml4Phys v = some a) :
    ∃ e, entryAt mm.phys.mem (mm.rootOf pml4Phys) (pagePath v) = some e ∧
      a = (e &&& pageMask) ||| (v &&& 0xFFF) := by
  rw [h.getPhysicalAddr hr, Option.map_eq_some_iff] at ha
  obtain ⟨e, he, ha⟩ := ha
  exact ⟨e, he, ha.symm⟩

theorem MemoryManager.Live.freeListHead {mm : MemoryManager} {roots stack : List Nat}
    {pml4Phys : Nat} (h : mm.Live roots stack) (hr : mm.rootOf pml4Phys ∈ roots)
    (he : entryAt mm.phys.mem (mm.rootOf pml4Phys) (pagePath v) = some e) :
    (mm.unmapAndFreePage pml4Phys v).phys.pmm.freeListHead =
      some ((e &&& pageMask) ||| (v &&& 0xFFF)) := by
  have ha : mm.getPhysicalAddr pml4Phys v = some ((e &&& pageMask) ||| (v &&& 0xFFF)) := by
    rw [h.getPhysicalAddr hr, he, Option.map_some]
  simp only [unmapAndFreePage, ha]
  rfl

theorem Owned.freesFrame {σ : System} {stack : List Nat} {call : KernelCall} (h : σ.Live stack)
    (howned : Owned exempt (σ.view stack)) (hrange : call.InRange σ)
    (hfrees : call.FreesExecutable exempt σ) : call.FreesFrame σ stack := by
  cases call with
  | unmapAndFreePage pml4Phys v =>
    intro a ha
    obtain ⟨hcounts, hv, hnx⟩ := hfrees
    obtain ⟨e, he, rfl⟩ := h.getPhysicalAddr_some hrange ha
    have hl : Leaf exempt (σ.view stack) (σ.manager.rootOf pml4Phys) (tableSlot 39 v)
      (innerPath v) e := ⟨hrange, rfl, hcounts, he⟩
    obtain ⟨hframe, hplain⟩ := howned.frame _ _ _ _ hl
    rw [(freed_eq_frameOf_iff (entryAt_spec he).1 hplain).mpr ⟨hv, hnx e he⟩]
    exact ⟨hframe, howned.clean _ _ _ _ hl⟩
  | _ => trivial

theorem Owned.call {σ σ' : System} {stack : List Nat} {call : KernelCall} {calls : List TableCall}
    (h : σ.Live stack) (howned : Owned exempt (σ.view stack)) (hrange : call.InRange σ)
    (hmaps : call.MapsUnused exempt σ) (hfrees : call.FreesExecutable exempt σ)
    (hexp : call.Expands σ σ' calls) (hrun : TableRun calls (σ.view stack) y) : Owned exempt y := by
  rcases hexp.cases with horder | ⟨pml4Phys, v, pa, flags, rfl, rfl⟩ | ⟨pml4Phys, v, a, rfl, ha, rfl⟩
  · exact howned.run h.spaces hrun horder
  · cases hrun with
    | cons hstep _ hnil =>
      cases hnil
      obtain ⟨hflags, hframe, hout, hunused⟩ := hmaps
      have hwindow := hframe.window
      rw [directMapWindow_eq] at hwindow
      obtain ⟨hpa, hplain⟩ := frameOf_leafEntry hframe.aligned (by omega) hflags
      refine howned.step hstep (by simp) ?_
      rintro r q e ⟨-, -, rfl⟩ -
      rw [hpa]
      refine ⟨fun hin => ?_, ⟨hframe, hplain⟩, fun r' i' q' e' hl => ?_⟩
      · exact hout (h.holds_iff.mpr (hstep.holds (by simp) hin))
      · exact hunused r' i' q' e' ⟨hl.live, hl.length, hl.counts, hl.entry⟩
  · obtain ⟨hcounts, hv, hnx⟩ := hfrees
    obtain ⟨e, he, rfl⟩ := h.getPhysicalAddr_some hrange ha
    have hl : Leaf exempt (σ.view stack) (σ.manager.rootOf pml4Phys) (tableSlot 39 v)
      (innerPath v) e := ⟨hrange, rfl, hcounts, he⟩
    have hplain := (howned.frame _ _ _ _ hl).2
    rw [(freed_eq_frameOf_iff (entryAt_spec he).1 hplain).mpr ⟨hv, hnx e he⟩] at hrun
    cases hrun with
    | cons hunmap _ hrest =>
      cases hrest with
      | cons hgive _ hnil =>
        cases hnil
        have hafter := howned.step hunmap (by simp) (by
          rintro r q e ⟨⟩)
        exact hafter.give hgive fun r i q e' hl' => howned.unmapped hunmap hl hl'

/-- In a run where `mapPage` is given unused frames, `unmapAndFreePage` is given starts of
executable pages and no shared slot is emptied, the free list holds distinct page-aligned
frames below `2^52`. A page mapped from a frame gives that frame back if and only if the call
names its start and it was mapped without the no-execute flag. -/
theorem freed_frames_in_order {σ : System}
    (h : Reach (fun σ => ∃ stack, σ.Live stack ∧ Owned exempt (σ.view stack))
      (System.Step fun σ c => c.MapsUnused exempt σ ∧ c.FreesExecutable exempt σ ∧ c.SparesShared σ)
      σ) :
    (∃ stack, FreeStack σ.manager.phys stack ∧ stack.Nodup ∧
      ∀ a ∈ stack, a % pageSize = 0 ∧ a < 2 ^ 52 ∧ a ≠ 0) ∧
    (∀ pml4Phys v pa flags σ', KernelCall.InRange σ (.mapPage pml4Phys v pa flags) →
      KernelCall.MapsUnused exempt σ (.mapPage pml4Phys v pa flags) →
      σ.exec (.mapPage pml4Phys v pa flags) = .ok σ' →
      ∃ e, entryAt σ'.manager.phys.mem (σ.manager.rootOf pml4Phys) (pagePath v) = some e ∧
        frameOf e = pa) ∧
    ∀ pml4Phys v e, σ.manager.rootOf pml4Phys ∈ σ.roots → ¬ exempt (pagePath v) →
      entryAt σ.manager.phys.mem (σ.manager.rootOf pml4Phys) (pagePath v) = some e →
      ((σ.manager.unmapAndFreePage pml4Phys v).phys.pmm.freeListHead = some (frameOf e) ↔
        v % pageSize = 0 ∧ e &&& Flag.nx = 0) := by
  have hinv : ∃ stack, σ.Live stack ∧ Owned exempt (σ.view stack) := by
    refine System.run_invariant (fun σ hσ => hσ) ?_ ?_ h
    · rintro σ stack c hlive howned hrange ⟨-, hfrees, hshared⟩
      exact ⟨hshared, howned.freesFrame hlive hrange hfrees⟩
    · rintro σ σ' stack c calls y hlive howned hrange ⟨hmaps, hfrees, -⟩ hexp hrun
      exact howned.call hlive hrange hmaps hfrees hexp hrun
  obtain ⟨stack, hlive, howned⟩ := hinv
  refine ⟨⟨stack, hlive.spaces.free, hlive.spaces.free.nodup, fun a ha => ?_⟩, ?_, ?_⟩
  · have hframe := hlive.spaces.free.frames a ha
    have hwindow := hframe.window
    rw [directMapWindow_eq] at hwindow
    exact ⟨hframe.aligned, by omega, hframe.nonzero⟩
  · intro pml4Phys v pa flags σ' hrange hmaps hok
    obtain ⟨hr, hpa, hflags⟩ := hrange
    obtain ⟨mm', hmap, hret⟩ := bind_eq_ok.mp hok
    cases hret
    obtain ⟨stack', -, -, hstep⟩ := MemoryManager.Live.mapPage hlive hr hpa hflags hmap
    have hwindow := hmaps.2.1.window
    rw [directMapWindow_eq] at hwindow
    exact ⟨_, hstep.mapped.leaf, (frameOf_leafEntry hmaps.2.1.aligned (by omega) hmaps.1).1⟩
  · intro pml4Phys v e hr hcounts he
    have hplain := (howned.frame _ _ _ _ ⟨hr, rfl, hcounts, he⟩ : _ ∧ e % 2 ^ 63 < 2 ^ 52).2
    rw [MemoryManager.Live.freeListHead hlive hr he, Option.some.injEq]
    exact freed_eq_frameOf_iff (entryAt_spec he).1 hplain

theorem smallSystem_mapped {flags : Nat} (hflags : IsKernelFlags flags) : ∃ σ1 σ2 stack,
    smallSystem.exec .allocPage = .ok σ1 ∧
    KernelCall.InRange σ1 (.mapPage kernelPml4 0x400000 0x81000 flags) ∧
    KernelCall.MapsUnused (fun _ => False) σ1 (.mapPage kernelPml4 0x400000 0x81000 flags) ∧
    σ1.exec (.mapPage kernelPml4 0x400000 0x81000 flags) = .ok σ2 ∧ σ2.Live stack ∧
    entryAt σ2.manager.phys.mem σ2.root (pagePath 0x400000) = some (leafEntry 0x81000 flags) := by
  obtain ⟨σ1, halloc, hlive, hroot, hroots, hmem⟩ := smallSystem_alloc
  have hempty : ∀ p, entryAt σ1.manager.phys.mem 0x1000 p = none := by
    rw [hmem]
    exact smallSystem_entry
  have hlt : flags < 2 ^ 64 := by
    rcases kernelFlags_cases hflags with ⟨-, hlow⟩ | ⟨-, -, hlt⟩ <;> omega
  have hrange := σ1.inRange_kernel 0x400000 (by decide : 0x81000 < 2 ^ 64) hlt
  have hframe : IsFrame 0x81000 := ⟨by decide, by decide, by decide⟩
  have hout : ¬ σ1.Holds 0x81000 := by
    refine not_holds_of_empty hroots hempty hlive (fun hin => ?_) (by decide)
    obtain ⟨k, hk, heq⟩ := mem_stockedFrames hin
    simp only [pageSize] at heq
    omega
  have hunused : ∀ r i q e, Leaf (fun _ => False) (σ1.view []) r i q e → frameOf e ≠ 0x81000 :=
    fun r i q e hl => (no_leaf_of_empty hroots hempty hl).elim
  obtain ⟨σ2, stack, hok, hroot2, -, hlive2, -, hstep⟩ :=
    hlive.mapPage_ok hrange ((missing_le _ _ _).trans (by rw [length_stockedFrames]; omega))
  refine ⟨σ1, σ2, stack, halloc, hrange, ⟨hflags, hframe, hout, hunused⟩, hok, hlive2, ?_⟩
  rw [hroot2]
  exact hstep.mapped.leaf

theorem isKernelFlags_writable : IsKernelFlags Flag.writable := by
  unfold IsKernelFlags
  decide

/-- Freeing a page by an address inside it leaves a misaligned address on the free list. -/
theorem unmapAndFreePage_misfrees : ∃ σ₁ σ₂, smallSystem.exec .allocPage = .ok σ₁ ∧
    σ₁.exec (.mapPage kernelPml4 0x400000 0x81000 Flag.writable) = .ok σ₂ ∧
    (σ₂.manager.unmapAndFreePage kernelPml4 0x400008).phys.pmm.freeListHead = some 0x81008 := by
  obtain ⟨σ₁, σ₂, stack, halloc, -, -, hmap, hlive, he⟩ := smallSystem_mapped isKernelFlags_writable
  refine ⟨σ₁, σ₂, halloc, hmap, ?_⟩
  have hpath : pagePath 0x400008 = pagePath 0x400000 := by decide
  rw [← hpath, ← σ₂.rootOf_kernel] at he
  rw [MemoryManager.Live.freeListHead hlive σ₂.rootOf_kernel_mem he]
  decide

/-- An executable page of the small machine is freed by its start. -/
theorem freed_frames_in_order_of_smallSystem : ∃ σ₁ σ₂,
    smallSystem.exec .allocPage = .ok σ₁ ∧
    σ₁.exec (.mapPage kernelPml4 0x400000 0x81000 Flag.writable) = .ok σ₂ ∧
    (∃ stack, FreeStack σ₂.manager.phys stack ∧ stack.Nodup ∧
      ∀ a ∈ stack, a % pageSize = 0 ∧ a < 2 ^ 52 ∧ a ≠ 0) ∧
    (σ₂.manager.unmapAndFreePage kernelPml4 0x400000).phys.pmm.freeListHead = some 0x81000 := by
  obtain ⟨σ₁, σ₂, stack, halloc, hrange, hmaps, hmap, hlive, he⟩ :=
    smallSystem_mapped isKernelFlags_writable
  have howned : Owned (fun _ => False) (smallSystem.view (stockedFrames 128)) :=
    owned_of_empty smallSystem_roots smallSystem_entry
  obtain ⟨hfree, -, hfrees⟩ := freed_frames_in_order (.step (.step (.start ⟨_, smallSystem_live, howned⟩)
    ⟨.allocPage, trivial, ⟨trivial, trivial, trivial⟩, halloc⟩)
    ⟨_, hrange, ⟨hmaps, trivial, trivial⟩, hmap⟩)
  refine ⟨σ₁, σ₂, halloc, hmap, hfree, ?_⟩
  exact (hfrees kernelPml4 0x400000 _ σ₂.root_mem id he).mpr ⟨by decide, by decide⟩

end CrapOs
