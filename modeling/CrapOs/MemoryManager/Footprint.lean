import CrapOs.MemoryManager.UnmapPage

/-! # What the table routines write

A call on the tables below one PML4 writes to those tables and to free frames
only. The set of these pages is the same before and after the call, so the
bound holds over any number of calls.
-/

namespace CrapOs

open Foundation

/-- The pages a call on the tables below `root` may write. -/
def Touches (s : Phys) (root : Nat) (stack : List Nat) (a : Nat) : Prop :=
  a = root ∨ a ∈ stack ∨ IsInner s.mem root a

variable {s s' : Phys} {root t f flags v leaf : Nat} {stack stack' : List Nat} {p : TablePath}
  {i : Fin 512} {B : Nat → Prop}

theorem touches_of_tableAt (ht : tableAt s.mem root p = some t) (hp : p.length ≤ 3) :
    Touches s root stack t := by
  by_cases hnil : p = []
  · subst hnil
    exact .inl (Option.some.inj ht).symm
  · exact .inr (.inr ⟨p, hnil, hp, ht⟩)

theorem Grown.touches_iff (h : Grown root flags s stack p s' stack') (a : Nat) :
    Touches s' root stack' a ↔ Touches s root stack a := or_congr_right (h.owned a)

theorem Mapped.touches_iff (h : Mapped root flags s stack v leaf s' stack') (a : Nat) :
    Touches s' root stack' a ↔ Touches s root stack a := or_congr_right (h.owned a)

theorem Unmapped.touches_iff (h : Unmapped root s stack v s' stack') (a : Nat) :
    Touches s' root stack' a ↔ Touches s root stack a := or_congr_right (h.owned a)

theorem store_changesOnly (s : Phys) (ht : IsFrame t) (hin : B t) (hh : Bool) (i : Fin 512)
    (value : Nat) :
    Mem.ChangesOnly s.mem (s.store (virtOf hh t + 8 * i.val) value).mem pageSize B := by
  rw [store_slot ht]
  apply Mem.changesOnly_write64 _ hin
  simp only [pageSize]
  omega

theorem zeroOutPage_changesOnly (s : Phys) (hf : IsFrame f) (hin : B f) (hh : Bool) :
    Mem.ChangesOnly s.mem (zeroOutPage s (virtOf hh f)).mem pageSize B := by
  intro x hx
  have hout := hx f hin
  rw [zeroOutPage_mem hf, if_neg (by omega)]

theorem freePage_changesOnly (s : Phys) (hf : IsFrame f) (hin : B f) :
    Mem.ChangesOnly s.mem (freePage s f).mem pageSize B := by
  rw [freePage_mem hf]
  exact Mem.changesOnly_write64 (k := 0) _ hin (by decide)

theorem releaseTable_changesOnly (ht : IsFrame t) (hf : IsFrame f)
    (hentry : decodeEntry (tableEntry s.mem t i) = some f) (htin : B t) (hfin : B f)
    (hh : Bool) :
    Mem.ChangesOnly s.mem (releaseTable s (virtOf hh t + 8 * i.val)).mem pageSize B := by
  have hphys : s.load (virtOf hh t + 8 * i.val) &&& pageMask = f := by
    rw [load_slot ht]
    unfold decodeEntry at hentry
    split at hentry
    · cases hentry
    · exact Option.some.inj hentry
  unfold releaseTable
  simp only [hphys]
  exact (store_changesOnly s ht htin hh i 0).trans (freePage_changesOnly _ hf hfin)

theorem agreeOn_of_changesOnly {m m' : Mem} (h : Mem.ChangesOnly m m' pageSize B)
    (ht : IsFrame t) (hout : ∀ a, B a → IsFrame a ∧ a ≠ t) : Mem.AgreeOn m m' t pageSize := by
  apply h.agreeOn
  intro a ha
  obtain ⟨hframe, hne⟩ := hout a ha
  exact hframe.apart ht hne

variable {hh : Bool}

theorem getOrCreateTable_changesOnly {r : Nat × Phys} (hfree : FreeStack s stack) (ht : IsFrame t)
    (htin : B t)
    (hin : s.load (virtOf hh t + 8 * i.val) &&& Flag.present = 0 → ∀ a ∈ stack.head?, B a)
    (hok : getOrCreateTable s (virtOf hh t) i.val flags = .ok r) :
    Mem.ChangesOnly s.mem r.2.mem pageSize B := by
  unfold getOrCreateTable at hok
  by_cases hbit : s.load (virtOf hh t + 8 * i.val) &&& Flag.present = 0
  · simp only [if_pos hbit] at hok
    cases stack with
    | nil =>
      rw [allocPage_empty hfree] at hok
      cases hok
    | cons f rest =>
      obtain ⟨htop, -⟩ := allocPage_spec hfree
      obtain ⟨s1, halloc⟩ : ∃ s1, allocPage s = (some f, s1) := ⟨_, Prod.ext htop rfl⟩
      have hmem1 : s1.mem = s.mem := by rw [← allocPage_mem s, halloc]
      have hf := hfree.frames f List.mem_cons_self
      have hzeroed := zeroOutPage_changesOnly (B := B) s1 hf
        (hin hbit f rfl) s1.pmm.isHigherHalf
      obtain ⟨s2, hzero⟩ : ∃ s2, zeroOutPage s1 (virtOf s1.pmm.isHigherHalf f) = s2 := ⟨_, rfl⟩
      simp only [halloc, hzero, pure_bind] at hok
      rw [hzero, hmem1] at hzeroed
      obtain rfl := Except.ok.inj hok
      exact hzeroed.trans (store_changesOnly _ ht htin hh i _)
  · simp only [if_neg hbit] at hok
    cases hok
    exact Mem.ChangesOnly.refl _ _ _

theorem getOrCreateTable_footprint {r : Nat × Phys} (h : Paging s root stack) (hp : p.length < 3)
    (ht : tableAt s.mem root p = some t) (hlow : flags < pageSize)
    (hbit : flags &&& Flag.present ≠ 0) (hok : getOrCreateTable s (virtOf hh t) i.val flags = .ok r) :
    ∃ hh' u stack', r.1 = virtOf hh' u ∧ tableAt r.2.mem root (p ++ [i]) = some u ∧
      Paging r.2 root stack' ∧ (∀ a ∈ stack', a ∈ stack) ∧
      (∀ a, Touches r.2 root stack' a ↔ Touches s root stack a) ∧
      Mem.ChangesOnly s.mem r.2.mem pageSize (fun a => Touches s root stack a ∧ a ∉ stack') := by
  have hwalk : WalksTo root flags s stack p (.ok (virtOf hh t, s)) :=
    .inr ⟨hh, t, s, stack, rfl, ht, .refl h ht⟩
  have hstep : WalksTo root flags s stack (p ++ [i])
      (getOrCreateTable s (virtOf hh t) i.val flags) := hwalk.step hp hlow hbit
  have hframe := h.tree.frames p t (by omega) ht
  rcases hstep with ⟨-, herr⟩ | ⟨hh', u, s', stack', hok', hu, hgrown⟩
  · rw [hok] at herr
    cases herr
  · rw [hok] at hok'
    cases hok'
    have hsub : ∀ a ∈ stack', a ∈ stack := by
      rw [hgrown.taken]
      exact fun a => List.mem_of_mem_drop
    refine ⟨hh', u, stack', rfl, hu, hgrown.paging, hsub, hgrown.touches_iff, ?_⟩
    refine getOrCreateTable_changesOnly h.free hframe
      ⟨touches_of_tableAt ht (by omega), fun hin => h.tree.off p t (by omega) ht (hsub t hin)⟩
      (fun habsent a ha => ?_) hok
    obtain ⟨rest, rfl⟩ := List.head?_eq_some_iff.mp ha
    refine ⟨.inr (.inl List.mem_cons_self), fun hin => (List.nodup_cons.mp h.free.nodup).1 ?_⟩
    have hnone : entryAt s.mem root (p ++ [i]) = none := by
      refine (RadixTree.present_eq_none_iff (by simp)).mpr ((tableAt_concat ht i).trans ?_)
      rw [load_slot hframe] at habsent
      exact if_pos habsent
    rw [hgrown.taken, missing_concat, if_pos hnone, List.drop_succ_cons] at hin
    exact List.mem_of_mem_drop hin

/-- `mapPage` writes to the tables below its PML4 and to frames that it takes. -/
theorem mapPage_changesOnly (h : Paging s root stack) {physicalAddr : Nat} {isUserPage : Bool}
    (hok : mapPage s (virtOf hh root) v physicalAddr flags isUserPage = .ok s') :
    ∃ stack', FreeStack s' stack' ∧
      Mem.ChangesOnly s.mem s'.mem pageSize (fun a => Touches s root stack a ∧ a ∉ stack') := by
  have hlow := intermediateFlags_lt isUserPage
  have hbit := intermediateFlags_present isUserPage
  obtain ⟨r1, hok1, hok⟩ := bind_eq_ok.mp hok
  obtain ⟨r2, hok2, hok⟩ := bind_eq_ok.mp hok
  obtain ⟨r3, hok3, hok⟩ := bind_eq_ok.mp hok
  cases hok
  rw [pml4Index_eq] at hok1
  rw [pdptIndex_eq] at hok2
  rw [pdIndex_eq] at hok3
  obtain ⟨hh1, t1, stack1, hptr1, ht1, h1, -, htouch1, hchange1⟩ :=
    getOrCreateTable_footprint (p := []) h (by simp) rfl hlow hbit hok1
  rw [hptr1] at hok2
  obtain ⟨hh2, t2, stack2, hptr2, ht2, h2, hsub2, htouch2, hchange2⟩ :=
    getOrCreateTable_footprint h1 (by simp) ht1 hlow hbit hok2
  rw [hptr2] at hok3
  obtain ⟨hh3, t3, stack3, hptr3, ht3, h3, hsub3, htouch3, hchange3⟩ :=
    getOrCreateTable_footprint h2 (by simp) ht2 hlow hbit hok3
  -- the footprint of every level is in that of the first, and the last leaves the fewest free
  have hchange : Mem.ChangesOnly s.mem r3.2.mem pageSize
      (fun a => Touches s root stack a ∧ a ∉ stack3) :=
    ((hchange1.mono fun a ha => ⟨ha.1, fun hin => ha.2 (hsub2 a (hsub3 a hin))⟩).trans
      (hchange2.mono fun a ha => ⟨(htouch1 a).mp ha.1, fun hin => ha.2 (hsub3 a hin)⟩)).trans
      (hchange3.mono fun a ha => ⟨(htouch1 a).mp ((htouch2 a).mp ha.1), ha.2⟩)
  have htouch : Touches s root stack t3 :=
    (htouch1 t3).mp ((htouch2 t3).mp ((htouch3 t3).mp (touches_of_tableAt ht3 (by simp))))
  have hframe := h3.tree.frames _ t3 (by simp) ht3
  have hoff := h3.tree.off _ t3 (by simp) ht3
  rw [hptr3]
  exact ⟨stack3, h3.free.store_slot hframe hoff hh3 (tableSlot 12 v) _,
    hchange.trans (store_changesOnly _ hframe ⟨htouch, hoff⟩ hh3 (tableSlot 12 v) _)⟩

theorem mapPage_footprint (h : Paging s root stack) {physicalAddr : Nat} {isUserPage : Bool}
    (hok : mapPage s (virtOf hh root) v physicalAddr flags isUserPage = .ok s') :
    Mem.ChangesOnly s.mem s'.mem pageSize (Touches s root stack) := by
  obtain ⟨stack', -, hchange⟩ := mapPage_changesOnly h hok
  exact hchange.mono fun a ha => ha.1

/-- The way back up writes to the four tables of the path only. -/
theorem reclaimTables_changesOnly {pdpt pd pt : Nat} {i4 i3 i2 : Fin 512} (hroot : IsFrame root)
    (hpdpt : IsFrame pdpt) (hpd : IsFrame pd) (hpt : IsFrame pt)
    (hpml4e : decodeEntry (tableEntry s.mem root i4) = some pdpt)
    (hpdpte : decodeEntry (tableEntry s.mem pdpt i3) = some pd)
    (hpde : decodeEntry (tableEntry s.mem pd i2) = some pt)
    (hne4 : pdpt ≠ root ∧ pd ≠ root ∧ pt ≠ root) (hne3 : pd ≠ pdpt ∧ pt ≠ pdpt) (hh : Bool) :
    Mem.ChangesOnly s.mem (reclaimTables s (virtOf hh root + 8 * i4.val) (virtOf true pdpt)
      (virtOf true pdpt + 8 * i3.val) (virtOf true pd) (virtOf true pd + 8 * i2.val)
      (virtOf true pt)).mem pageSize (fun a => a = root ∨ a = pdpt ∨ a = pd ∨ a = pt) := by
  have h2 := releaseTable_changesOnly (B := fun a => a = pd ∨ a = pt) hpd hpt hpde (.inl rfl)
    (.inr rfl) true
  unfold reclaimTables
  simp only
  generalize releaseTable s (virtOf true pd + 8 * i2.val) = s2 at h2 ⊢
  -- the entries further up are outside the pages the step below has written
  have hpdpte2 : decodeEntry (tableEntry s2.mem pdpt i3) = some pd := by
    rw [tableEntry_congr (agreeOn_of_changesOnly h2 hpdpt ?_) i3, hpdpte]
    rintro a (rfl | rfl)
    · exact ⟨hpd, hne3.1⟩
    · exact ⟨hpt, hne3.2⟩
  have h3 := releaseTable_changesOnly (B := fun a => a = pdpt ∨ a = pd) hpdpt hpd hpdpte2
    (.inl rfl) (.inr rfl) true
  generalize releaseTable s2 (virtOf true pdpt + 8 * i3.val) = s3 at h3 ⊢
  have h23 : Mem.ChangesOnly s.mem s3.mem pageSize (fun a => a = pdpt ∨ a = pd ∨ a = pt) := by
    refine (h2.mono fun a ha => .inr ha).trans (h3.mono ?_)
    rintro a (rfl | rfl)
    · exact .inl rfl
    · exact .inr (.inl rfl)
  have hpml4e3 : decodeEntry (tableEntry s3.mem root i4) = some pdpt := by
    rw [tableEntry_congr (agreeOn_of_changesOnly h23 hroot ?_) i4, hpml4e]
    rintro a (rfl | rfl | rfl)
    · exact ⟨hpdpt, hne4.1⟩
    · exact ⟨hpd, hne4.2.1⟩
    · exact ⟨hpt, hne4.2.2⟩
  have h4 := releaseTable_changesOnly (B := fun a => a = root ∨ a = pdpt) hroot hpdpt hpml4e3
    (.inl rfl) (.inr rfl) hh
  split
  case isFalse => exact Mem.ChangesOnly.refl _ _ _
  split
  case isFalse => exact h2.mono fun a ha => .inr (.inr ha)
  split
  case isFalse => exact h23.mono fun a ha => .inr ha
  refine (h23.mono fun a ha => .inr ha).trans (h4.mono ?_)
  rintro a (rfl | rfl)
  · exact .inl rfl
  · exact .inr (.inl rfl)

theorem PageTree.ne_of_length {m : Mem} {q : TablePath} {u : Nat} (h : PageTree m root stack)
    (hp : p.length ≤ 3) (hq : q.length ≤ 3) (ht : tableAt m root p = some t)
    (hu : tableAt m root q = some u) (hne : p.length ≠ q.length) : t ≠ u := by
  rintro rfl
  exact hne (congrArg List.length (h.unshared p q t hp hq ht hu))

/-- `unmapPage` writes to the tables below its PML4 only. -/
theorem unmapPage_footprint (h : Paging s root stack) (v : Nat) (hh : Bool) :
    Mem.ChangesOnly s.mem (unmapPage s (virtOf hh root) v).2.mem pageSize
      (Touches s root stack) := by
  unfold unmapPage
  rcases walkTables_cases h.tree v hh with
    ⟨-, hwalk⟩ | ⟨-, pdpt, pd, pt, hpdpt, hpd, hpt, hwalk⟩
  · rw [hwalk]
    exact Mem.ChangesOnly.refl _ _ _
  have hroot : tableAt s.mem root [] = some root := rfl
  have hframes := h.tree.frames
  have hfr := hframes _ root (by simp) hroot
  have hf1 := hframes _ pdpt (by simp) hpdpt
  have hf2 := hframes _ pd (by simp) hpd
  have hf3 := hframes _ pt (by simp) hpt
  have hne4 : pdpt ≠ root ∧ pd ≠ root ∧ pt ≠ root :=
    ⟨h.tree.ne_of_length (by simp) (by simp) hpdpt hroot (by simp),
      h.tree.ne_of_length (by simp) (by simp) hpd hroot (by simp),
      h.tree.ne_of_length (by simp) (by simp) hpt hroot (by simp)⟩
  have hne3 : pd ≠ pdpt ∧ pt ≠ pdpt :=
    ⟨h.tree.ne_of_length (by simp) (by simp) hpd hpdpt (by simp),
      h.tree.ne_of_length (by simp) (by simp) hpt hpdpt (by simp)⟩
  have hne2 : pt ≠ pd := h.tree.ne_of_length (by simp) (by simp) hpt hpd (by simp)
  have hclear := store_changesOnly (B := fun a => a = pt) s hf3 rfl true (tableSlot 12 v) 0
  simp only [hwalk, pml4Index_eq, pdptIndex_eq, pdIndex_eq, ptIndex_eq]
  generalize s.store (virtOf true pt + 8 * (tableSlot 12 v).val) 0 = s1 at hclear ⊢
  have hkeep : ∀ a j, IsFrame a → pt ≠ a → tableEntry s1.mem a j = tableEntry s.mem a j :=
    fun a j ha hne => tableEntry_congr (agreeOn_of_changesOnly hclear ha (by
      rintro b rfl
      exact ⟨hf3, hne⟩)) j
  have hpml4e : decodeEntry (tableEntry s1.mem root (tableSlot 39 v)) = some pdpt := by
    rw [hkeep root _ hfr hne4.2.2, ← tableAt_concat hroot]
    exact hpdpt
  have hpdpte : decodeEntry (tableEntry s1.mem pdpt (tableSlot 30 v)) = some pd := by
    rw [hkeep pdpt _ hf1 hne3.2, ← tableAt_concat hpdpt]
    exact hpd
  have hpde : decodeEntry (tableEntry s1.mem pd (tableSlot 21 v)) = some pt := by
    rw [hkeep pd _ hf2 hne2, ← tableAt_concat hpd]
    exact hpt
  have hreclaim := reclaimTables_changesOnly hfr hf1 hf2 hf3 hpml4e hpdpte hpde hne4 hne3 hh
  refine (hclear.mono ?_).trans (hreclaim.mono ?_)
  · rintro a rfl
    exact touches_of_tableAt hpt (by simp)
  · rintro a (rfl | rfl | rfl | rfl)
    · exact .inl rfl
    · exact touches_of_tableAt hpdpt (by simp)
    · exact touches_of_tableAt hpd (by simp)
    · exact touches_of_tableAt hpt (by simp)

end CrapOs
