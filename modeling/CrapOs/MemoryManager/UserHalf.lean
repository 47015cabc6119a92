import CrapOs.MemoryManager.FrameOwnership

/-! # The user half of the address spaces

Below PML4 index 256 no two address spaces share a table: the tables there are
taken from the free list for one of them. A call on one address space is
therefore not seen there by any other.
-/

namespace CrapOs

open Foundation

variable {c : TableCall} {cs : List TableCall} {x y : TableView} {r r' k t v : Nat} {i : Fin 512}
  {p q : TablePath} {e : Nat}

/-- Two PML4s lead to different tables through every slot of the user half. -/
def LowerPrivate (x : TableView) : Prop :=
  ∀ r ∈ x.roots, ∀ r' ∈ x.roots, r ≠ r' → ∀ (i : Fin 512) (t : Nat), i.val < 256 →
    x.slot r i = some t → x.slot r' i ≠ some t

def TableCall.target : TableCall → Option Nat
  | .map r _ _ _ _ => some r
  | .claim r _ _ => some r
  | .unmap r _ => some r
  | _ => none

theorem LowerPrivate.not_shares (h : LowerPrivate x) (hr : r ∈ x.roots) (hr' : r' ∈ x.roots)
    (hne : r ≠ r') (hi : i.val < 256) : ¬ SharesSlot x.phys.mem r r' i := by
  rintro ⟨hsome, hsame⟩
  obtain ⟨t, ht⟩ := Option.ne_none_iff_exists'.mp hsome
  exact h r hr r' hr' hne i t hi ht (hsame.trans ht)

theorem LowerPrivate.congr (h : LowerPrivate x) (hmem : y.phys.mem = x.phys.mem)
    (hroots : y.roots = x.roots) : LowerPrivate y := by
  unfold LowerPrivate TableView.slot
  rw [hmem, hroots]
  exact h

theorem TableStep.lower_kept (hs : TableStep c x y) (h : LowerPrivate x) (hr : r ∈ x.roots)
    (hc : c.target ≠ some r) (hi : i.val < 256) (hp : (i :: p).length ≤ 4) :
    y.entry r (i :: p) = x.entry r (i :: p) := by
  induction hs with
  | take hmem => rw [TableView.entry, TableView.entry, hmem]
  | map hr0 _ hecho =>
    have hne : r ≠ _ := fun heq => hc (congrArg some heq.symm)
    exact (hecho r hr hne).kept i p (h.not_shares hr0 hr hne.symm hi) hp
  | claim htake _ _ ihtake ihmap =>
    have hsame := h.congr htake.take_mem (htake.roots_eq (by simp))
    exact (ihmap hsame (htake.roots_mono hr) hc).trans (ihtake h hr (by simp [TableCall.target]))
  | unmap hr0 _ hecho =>
    have hne : r ≠ _ := fun heq => hc (congrArg some heq.symm)
    exact (hecho r hr hne).kept i p (h.not_shares hr0 hr hne.symm hi) hp
  | give hsame => exact hsame r hr _ hp
  | adopt _ hold _ _ => exact hold r hr _ hp

theorem Mapped.slot_origin {s s' : Phys} {stack stack' : List Nat} {isUserPage : Bool} {leaf : Nat}
    (h : Mapped r (intermediateFlags isUserPage) s stack v leaf s' stack') (hfree : FreeStack s stack)
    (ht : tableAt s'.mem r [i] = some t) : tableAt s.mem r [i] = some t ∨ t ∈ stack := by
  have hsome : entryAt s'.mem r [i] ≠ none := fun hnone => by
    cases ((RadixTree.present_eq_none_iff (by simp)).mp hnone).symm.trans ht
  by_cases hnone : entryAt s.mem r [i] = none
  · obtain ⟨-, f, hf, he⟩ := h.fresh [i] (by simp) (ne_pagePath_of_length (by simp)) hnone hsome
    rw [tableAt_eq_entryAt (by simp), he, Option.bind_some, decodeEntry_frame (hfree.frames f hf)
      (by cases isUserPage <;> decide) (by cases isUserPage <;> decide)] at ht
    exact .inr (Option.some.inj ht ▸ hf)
  · rw [← tableAt_congr (h.keep [i] (by simp) (ne_pagePath_of_length (by simp)) hnone)]
    exact .inl ht

/-- A table a PML4 slot leads to was below the same slot before, or free. -/
theorem TableStep.slot_origin (hs : TableStep c x y) (hx : x.Sound) (hr : r ∈ x.roots)
    (ht : y.slot r i = some t) : x.slot r i = some t ∨ t ∈ x.stack := by
  induction hs with
  | take hmem =>
    rw [TableView.slot, hmem] at ht
    exact .inl ht
  | @map s s' roots stack stack' r0 v pa flags isUserPage hr0 hmapped hecho =>
    by_cases hrr : r = r0
    · subst hrr
      exact hmapped.slot_origin hx.free ht
    · exact .inl ((tableAt_congr ((hecho r hr hrr).entry_slot i)).symm.trans ht)
  | claim htake hx1 _ ihtake ihmap =>
    rcases ihmap hx1 (htake.roots_mono hr) ht with hold | hin
    · exact ihtake hx hr hold
    · cases htake
      exact .inr (List.mem_cons_of_mem _ hin)
  | @unmap s s' roots stack stack' r0 v hr0 hun hecho =>
    by_cases hrr : r = r0
    · subst hrr
      have hsome : entryAt s'.mem r [i] ≠ none := fun hnone => by
        cases ((RadixTree.present_eq_none_iff (by simp)).mp hnone).symm.trans ht
      exact .inl ((tableAt_congr (hun.keep [i] (by simp) hsome)).symm.trans ht)
    · exact .inl ((tableAt_congr ((hecho r hr hrr).entry_slot i)).symm.trans ht)
  | give hsame => exact .inl ((tableAt_congr (hsame r hr [i] (by simp))).symm.trans ht)
  | adopt _ hold _ _ => exact .inl ((tableAt_congr (hold r hr [i] (by simp))).symm.trans ht)

theorem TableStep.new_root (hs : TableStep c x y) (hr : r ∈ y.roots) (hnew : r ∉ x.roots)
    (hi : i.val < 256) (p : TablePath) : y.entry r (i :: p) = none := by
  by_cases hc : ∃ k f, c = .adopt k f
  · obtain ⟨k, f, rfl⟩ := hc
    obtain ⟨-, hroots, hlow, -⟩ := hs.adopted
    rw [hroots] at hr
    rcases List.mem_cons.mp hr with rfl | hr
    · exact hlow i p hi
    · exact absurd hr hnew
  · rw [hs.roots_eq fun k f heq => hc ⟨k, f, heq⟩] at hr
    exact absurd hr hnew

theorem LowerPrivate.step (h : LowerPrivate x) (hx : x.Sound) (hs : TableStep c x y) :
    LowerPrivate y := by
  intro r hr r' hr' hne i t hi ht ht'
  have hslot : ∀ {r t}, y.slot r i = some t → y.entry r [i] ≠ none := fun hsome hnone => by
    cases ((RadixTree.present_eq_none_iff (by simp)).mp hnone).symm.trans hsome
  have hold : r ∈ x.roots := by
    by_contra hnew
    exact hslot ht (hs.new_root hr hnew hi [])
  have hold' : r' ∈ x.roots := by
    by_contra hnew
    exact hslot ht' (hs.new_root hr' hnew hi [])
  -- one of the two is not the target of the call, and its table is not one that was free
  have hclash : ∀ {a b}, a ∈ x.roots → b ∈ x.roots → a ≠ b → c.target ≠ some b →
      y.slot a i = some t → y.slot b i = some t → False := by
    intro a b ha hb hab hc hta htb
    have hkept : x.slot b i = some t :=
      (tableAt_congr (hs.lower_kept h hb hc hi (p := []) (by simp))).symm.trans htb
    rcases hs.slot_origin hx ha hta with hold | hin
    · exact h a ha b hb hab i t hi hold hkept
    · exact (hx.forest.tree b hb).off [i] t (by simp) hkept hin
  by_cases hc : c.target = some r'
  · refine hclash hold' hold hne.symm (fun heq => hne ?_) ht' ht
    exact Option.some.inj (heq.symm.trans hc)
  · exact hclash hold hold' hne hc ht ht'

/-- Outside the kernel's PML4, entries of the user half that lead to tables let user code pass. -/
def LowerOpen (k : Nat) (x : TableView) : Prop :=
  ∀ r ∈ x.roots, r ≠ k → ∀ (i : Fin 512) (p : TablePath) (e : Nat), i.val < 256 →
    (i :: p).length ≤ 3 → x.entry r (i :: p) = some e → ∃ f, e = f ||| intermediateFlags true

def TableCall.ForUser : TableCall → Prop
  | .map _ _ _ _ isUserPage => isUserPage = true
  | _ => True

theorem TableStep.inner_cases (hs : TableStep c x y) (hc : c.ForUser) (htarget : c.target = some r)
    (hp : p.length ≤ 3) (he : y.entry r p = some e) :
    x.entry r p = some e ∨ ∃ f, e = f ||| intermediateFlags true := by
  induction hs with
  | take | give | adopt => cases htarget
  | @map s s' roots stack stack' r0 v pa flags isUserPage hr0 hmapped hecho =>
    cases htarget
    cases hc
    have hne := ne_pagePath_of_length (v := v) hp
    by_cases hnone : entryAt s.mem r p = none
    · obtain ⟨-, f, -, hnew⟩ := hmapped.fresh p (by omega) hne hnone fun hnone => by
        cases hnone.symm.trans he
      exact .inr ⟨f, Option.some.inj (he.symm.trans hnew)⟩
    · exact .inl ((hmapped.keep p (by omega) hne hnone).symm.trans he)
  | claim htake _ _ _ ihmap =>
    rcases ihmap rfl htarget he with hold | hnew
    · rw [TableView.entry, htake.take_mem] at hold
      exact .inl hold
    · exact .inr hnew
  | unmap _ hun _ =>
    cases htarget
    exact .inl ((hun.keep p (by omega) fun hnone => by cases hnone.symm.trans he).symm.trans he)

theorem LowerOpen.step (h : LowerOpen k x) (hlow : LowerPrivate x) (hs : TableStep c x y)
    (hc : c.ForUser) : LowerOpen k y := by
  intro r hr hk i p e hi hp he
  have hold : r ∈ x.roots := by
    by_contra hnew
    cases (hs.new_root hr hnew hi p).symm.trans he
  by_cases htarget : c.target = some r
  · rcases hs.inner_cases hc htarget hp he with hbefore | hnew
    · exact h r hold hk i p e hi hp hbefore
    · exact hnew
  · refine h r hold hk i p e hi hp ?_
    rw [← hs.lower_kept hlow hold htarget hi (by omega)]
    exact he

def TableCall.Touches (r : Nat) (q : TablePath) : TableCall → Prop
  | .map r' v _ _ _ => r' = r ∧ pagePath v = q
  | .claim r' v _ => r' = r ∧ pagePath v = q
  | .unmap r' v => r' = r ∧ pagePath v = q
  | _ => False

theorem TableStep.page_kept (hs : TableStep c x y) (h : LowerPrivate x) (hr : r ∈ x.roots)
    (hi : i.val < 256) (hq : (i :: q).length = 4) (hc : ¬ c.Touches r (i :: q))
    (he : x.entry r (i :: q) = some e) : y.entry r (i :: q) = some e := by
  by_cases htarget : c.target = some r
  · induction hs with
    | take | give | adopt => cases htarget
    | map _ hmapped _ =>
      cases htarget
      refine (hmapped.keep _ hq.le (fun heq => hc ⟨rfl, heq.symm⟩) fun hnone => ?_).trans he
      cases hnone.symm.trans he
    | claim htake _ _ _ ihmap =>
      refine ihmap (h.congr htake.take_mem (htake.roots_eq (by simp))) (htake.roots_mono hr) hc ?_
        htarget
      rw [TableView.entry, htake.take_mem]
      exact he
    | unmap _ hun _ =>
      cases htarget
      exact (hun.leaves _ hq fun heq => hc ⟨rfl, heq.symm⟩).trans he
  · rw [hs.lower_kept h hr htarget hi hq.le]
    exact he

/-- What holds of the user half between any two calls. -/
structure LowerHalf (k : Nat) (x : TableView) : Prop where
  isolated : LowerPrivate x
  passable : LowerOpen k x

theorem LowerHalf.step (h : LowerHalf k x) (hx : x.Sound) (hs : TableStep c x y) (hc : c.ForUser) :
    LowerHalf k y :=
  ⟨h.isolated.step hx hs, h.passable.step h.isolated hs hc⟩

theorem LowerHalf.run (h : LowerHalf k x) (hx : x.Sound) (hrun : TableRun cs x y)
    (hcs : ∀ c ∈ cs, c.ForUser) : LowerHalf k y :=
  (hrun.invariant (LowerHalf k) hx h fun c hc _ _ hx h hs _ => h.step hx hs (hcs c hc)).2

theorem LowerHalf.page_kept (h : LowerHalf k x) (hx : x.Sound) (hrun : TableRun cs x y)
    (hcs : ∀ c ∈ cs, c.ForUser) (hr : r ∈ x.roots) (hi : i.val < 256) (hq : (i :: q).length = 4)
    (htouch : ∀ c ∈ cs, ¬ c.Touches r (i :: q)) (he : x.entry r (i :: q) = some e) :
    y.entry r (i :: q) = some e := by
  have hinv := hrun.invariant (fun x => LowerHalf k x ∧ r ∈ x.roots ∧ x.entry r (i :: q) = some e) hx
    ⟨h, hr, he⟩ fun c hc x y hx hinv hs _ => ?_
  · exact hinv.2.2.2
  · obtain ⟨h, hr, he⟩ := hinv
    exact ⟨h.step hx hs (hcs c hc), hs.roots_mono hr,
      hs.page_kept h.isolated hr hi hq (htouch c hc) he⟩

def HasStackPage (x : TableView) (r j : Nat) : Prop :=
  ∃ f, x.entry r (pagePath (AddressSpace.stackPage j)) = some (leafEntry f AddressSpace.stackFlags)

theorem stackPath_inj {j j' : Nat} (hj : j < AddressSpace.defaultStackPages)
    (hj' : j' < AddressSpace.defaultStackPages)
    (h : pagePath (AddressSpace.stackPage j) = pagePath (AddressSpace.stackPage j')) : j = j' := by
  have hall : ∀ j < AddressSpace.defaultStackPages, ∀ j' < AddressSpace.defaultStackPages,
      pagePath (AddressSpace.stackPage j) = pagePath (AddressSpace.stackPage j') → j = j' := by
    decide
  exact hall j hj j' hj' h

theorem TableRun.hasStackPage {n m : Nat} (h : TableRun ((List.range' m n).map fun j =>
      .claim r (AddressSpace.stackPage j) AddressSpace.stackFlags) x y) (hr : r ∈ x.roots)
    (hn : m + n ≤ AddressSpace.defaultStackPages) (hx : ∀ j < m, HasStackPage x r j) :
    ∀ j < m + n, HasStackPage y r j := by
  induction n generalizing m x with
  | zero =>
    cases h
    exact hx
  | succ n ih =>
    cases h with
    | @cons _ _ _ x1 _ hclaim _ hrest =>
      obtain ⟨f, x0, hmem, -, -, hmap⟩ := hclaim.claimed
      have hnext := ih hrest (hclaim.roots_mono hr) (by omega) fun j hj => ?_
      · intro j hj
        exact hnext j (by omega)
      by_cases hjm : j = m
      · subst hjm
        exact ⟨f, hmap.mapped.leaf⟩
      · obtain ⟨g, hg⟩ := hx j (by omega)
        have hne : pagePath (AddressSpace.stackPage j) ≠ pagePath (AddressSpace.stackPage m) :=
          fun heq => hjm (stackPath_inj (by omega) (by omega) heq)
        rw [TableView.entry, ← hmem] at hg
        refine ⟨g, (hmap.mapped.keep _ (length_pagePath _).le hne fun hnone => ?_).trans hg⟩
        cases hnone.symm.trans hg

namespace KernelCall

def OnStack (σ : System) (r v : Nat) : Prop :=
  ∃ space ∈ σ.spaces, r = space.pml4Phys ∧
    ∃ j < AddressSpace.defaultStackPages, pagePath v = pagePath (AddressSpace.stackPage j)

def SparesStacks (σ : System) : KernelCall → Prop
  | .mapPage pml4Phys v _ _ => ¬ OnStack σ (σ.manager.rootOf pml4Phys) v
  | .unmapPage pml4Phys v => ¬ OnStack σ (σ.manager.rootOf pml4Phys) v
  | .unmapAndFreePage pml4Phys v => ¬ OnStack σ (σ.manager.rootOf pml4Phys) v
  | _ => True

/-- The call keeps to the rules for callers of the memory manager, and leaves user stacks
alone. -/
structure Proper (exempt : TablePath → Prop) (σ : System) (c : KernelCall) : Prop where
  mapsUnused : c.MapsUnused exempt σ
  freesExecutable : c.FreesExecutable exempt σ
  sparesShared : c.SparesShared σ
  sparesStacks : c.SparesStacks σ

theorem Expands.forUser {σ σ' : System} {call : KernelCall} (h : call.Expands σ σ' cs) :
    ∀ t ∈ cs, t.ForUser := by
  cases h with
  | exhausted | absent | absentFree | heapWork => simp
  | allocPage | mapPage | unmapPage | unmapAndFreePage => simp [TableCall.ForUser]
  | createAddressSpace | growHeap => simp [TableCall.ForUser]

end KernelCall

namespace System

variable {σ σ' : System} {stack : List Nat} {call : KernelCall} {exempt : TablePath → Prop}

theorem exec_spaces (hok : σ.exec call = .ok σ') (hc : call ≠ .createAddressSpace) :
    σ'.spaces = σ.spaces := by
  cases call with
  | allocPage | unmapPage | unmapAndFreePage | heapWork =>
    cases hok
    rfl
  | mapPage | growHeap =>
    obtain ⟨_, -, hret⟩ := bind_eq_ok.mp hok
    cases hret
    rfl
  | createAddressSpace => exact absurd rfl hc

/-- The address spaces have PML4s of their own, with a stack each, and no frame of the user
half twice. -/
structure Partitioned (exempt : TablePath → Prop) (σ : System) (stack : List Nat) : Prop where
  live : σ.Live stack
  owned : Owned exempt (σ.view stack)
  lower : LowerHalf σ.root (σ.view stack)
  apart : σ.roots.Nodup
  userStack : ∀ space ∈ σ.spaces, space.userStackTop = AddressSpace.defaultStackTop ∧
    ∀ j < AddressSpace.defaultStackPages, HasStackPage (σ.view stack) space.pml4Phys j

variable {space : AddressSpace}

theorem pml4Phys_mem (h : space ∈ σ.spaces) : space.pml4Phys ∈ σ.roots :=
  List.mem_append_left _ (List.mem_map_of_mem h)

theorem Partitioned.ne_root (h : σ.Partitioned exempt stack) (hspace : space ∈ σ.spaces) :
    space.pml4Phys ≠ σ.root := by
  have hapart := h.apart
  rw [roots, List.nodup_append'] at hapart
  exact fun heq => hapart.2.2 (List.mem_map_of_mem hspace) (List.mem_singleton.mpr heq)

theorem Live.fresh_root (h : σ.Live stack) {k f : Nat} {calls : List TableCall}
    (hrun : TableRun (.adopt k f :: calls) (σ.view stack) y) : f ∉ σ.roots := by
  cases hrun with
  | cons hadopt _ _ => exact fun hin => h.spaces.forest.root_off hin hadopt.adopted.1

theorem Partitioned.untouched (h : σ.Partitioned exempt stack) (hspare : call.SparesStacks σ)
    (hexp : call.Expands σ σ' cs) (hrun : TableRun cs (σ.view stack) y) (hspace : space ∈ σ.spaces)
    {j : Nat} (hj : j < AddressSpace.defaultStackPages) :
    ∀ t ∈ cs, ¬ t.Touches space.pml4Phys (pagePath (AddressSpace.stackPage j)) := by
  cases hexp with
  | exhausted | absent | absentFree | heapWork => simp
  | allocPage => simp [TableCall.Touches]
  | mapPage pml4Phys v | unmapPage pml4Phys v =>
    intro t ht htouch
    rw [List.mem_singleton.mp ht] at htouch
    exact hspare ⟨space, hspace, htouch.1, j, hj, htouch.2⟩
  | unmapAndFreePage pml4Phys v a =>
    intro t ht htouch
    rcases List.mem_cons.mp ht with rfl | ht
    · exact hspare ⟨space, hspace, htouch.1, j, hj, htouch.2⟩
    · rw [List.mem_singleton.mp ht] at htouch
      exact htouch
  | createAddressSpace fresh =>
    intro t ht htouch
    rcases List.mem_cons.mp ht with rfl | ht
    · exact htouch
    · obtain ⟨n, -, rfl⟩ := List.mem_map.mp ht
      exact h.live.fresh_root hrun (htouch.1 ▸ pml4Phys_mem hspace)
  | growHeap n =>
    intro t ht htouch
    obtain ⟨m, -, rfl⟩ := List.mem_map.mp ht
    exact h.ne_root hspace htouch.1.symm

theorem Partitioned.stack_kept (h : σ.Partitioned exempt stack) (hrange : call.InRange σ)
    (hproper : call.Proper exempt σ) (hok : σ.exec call = .ok σ') (hspace : space ∈ σ.spaces)
    {j e : Nat} (hj : j < AddressSpace.defaultStackPages)
    (he : entryAt σ.manager.phys.mem space.pml4Phys (pagePath (AddressSpace.stackPage j)) = some e) :
    entryAt σ'.manager.phys.mem space.pml4Phys (pagePath (AddressSpace.stackPage j)) = some e := by
  have hfrees := h.owned.freesFrame h.live hrange hproper.freesExecutable
  obtain ⟨calls, stack', hexp, -, -, hrun⟩ := exec_run h.live hrange hproper.sparesShared hfrees hok
  have hslot := stackPage_slot hj
  exact h.lower.page_kept h.live.spaces hrun hexp.forUser (pml4Phys_mem hspace) (by omega) rfl
    (h.untouched hproper.sparesStacks hexp hrun hspace hj) he

theorem Partitioned.exec (h : σ.Partitioned exempt stack) (hrange : call.InRange σ)
    (hproper : call.Proper exempt σ) (hok : σ.exec call = .ok σ') :
    ∃ stack', σ'.Partitioned exempt stack' ∧ σ'.root = σ.root ∧ ∀ space ∈ σ.spaces, space ∈ σ'.spaces := by
  have hfrees := h.owned.freesFrame h.live hrange hproper.freesExecutable
  obtain ⟨calls, stack', hexp, hroot, hlive, hrun⟩ :=
    exec_run h.live hrange hproper.sparesShared hfrees hok
  have howned := h.owned.call h.live hrange hproper.mapsUnused hproper.freesExecutable hexp hrun
  have hlower := h.lower.run h.live.spaces hrun hexp.forUser
  have hkept : ∀ space ∈ σ.spaces, ∀ j < AddressSpace.defaultStackPages,
      HasStackPage (σ'.view stack') space.pml4Phys j := by
    intro space hspace j hj
    obtain ⟨f, hf⟩ := (h.userStack space hspace).2 j hj
    exact ⟨f, h.stack_kept hrange hproper hok hspace hj hf⟩
  rw [← hroot] at hlower
  by_cases hc : call = .createAddressSpace
  · subst hc
    cases hexp with
    | createAddressSpace space hspaces htop =>
      have hroots : σ'.roots = space.pml4Phys :: σ.roots := by
        rw [roots, roots, hspaces, hroot, List.map_cons, List.cons_append]
      refine ⟨stack', ⟨hlive, howned, hlower, ?_, fun space' hspace' => ?_⟩, hroot, ?_⟩
      · rw [hroots]
        exact List.nodup_cons.mpr ⟨h.live.fresh_root hrun, h.apart⟩
      · rw [hspaces] at hspace'
        rcases List.mem_cons.mp hspace' with rfl | hspace'
        · refine ⟨htop, fun j hj => ?_⟩
          cases hrun with
          | cons hadopt _ hclaims =>
            have hin := hadopt.adopted.2.1 ▸ List.mem_cons_self
            exact hclaims.hasStackPage hin (Nat.le_refl _) (by simp) j (by omega)
        · exact ⟨(h.userStack space' hspace').1, hkept space' hspace'⟩
      · rw [hspaces]
        exact fun _ => List.mem_cons_of_mem _
  · have hspaces := exec_spaces hok hc
    have hroots : σ'.roots = σ.roots := by rw [roots, roots, hspaces, hroot]
    refine ⟨stack', ⟨hlive, howned, hlower, hroots ▸ h.apart, ?_⟩, hroot, fun _ => hspaces ▸ id⟩
    rw [hspaces]
    exact fun space hspace => ⟨(h.userStack space hspace).1, hkept space hspace⟩

theorem Partitioned.createAddressSpace (h : σ.Partitioned exempt stack)
    (hok : σ.exec .createAddressSpace = .ok σ') :
    ∃ stack', σ'.Partitioned exempt stack' ∧ σ'.root = σ.root ∧ ∀ space ∈ σ.spaces, space ∈ σ'.spaces :=
  h.exec (show KernelCall.createAddressSpace.InRange σ from trivial)
    ⟨trivial, trivial, trivial, trivial⟩ hok

theorem partitioned_of_empty (h : σ.Live stack) (howned : Owned exempt (σ.view stack))
    (hnone : σ.spaces = []) : σ.Partitioned exempt stack := by
  have hroots : σ.roots = [σ.root] := by rw [roots, hnone, List.map_nil, List.nil_append]
  have honly : ∀ r ∈ (σ.view stack).roots, r = σ.root := by
    intro r hr
    rw [view, MemoryManager.view, hroots] at hr
    exact List.mem_singleton.mp hr
  refine ⟨h, howned, ⟨?_, ?_⟩, hroots ▸ List.nodup_singleton _, by rw [hnone]; simp⟩
  · intro r hr r' hr' hne
    exact absurd ((honly r hr).trans (honly r' hr').symm) hne
  · intro r hr hne
    exact absurd (honly r hr) hne

end System

/-- User code may read and write the page and cannot execute it: the user and the writable
flag stand on all four levels, the no-execute flag on the last. -/
structure Walk.IsUserData (w : Walk) : Prop where
  passable : ∀ e ∈ [w.pml4e, w.pdpte, w.pde, w.pte],
    e &&& (Flag.user ||| Flag.writable) = Flag.user ||| Flag.writable
  noExecute : w.pte &&& Flag.nx = Flag.nx

def InStack (top v : Nat) : Prop := top - 16 * 1024 ≤ v ∧ v < top

theorem and_of_or {a flags mask : Nat} (h : flags &&& mask = mask) : (a ||| flags) &&& mask = mask := by
  rw [Nat.and_or_distrib_right, h]
  apply Nat.eq_of_testBit_eq
  intro n
  simp only [Nat.testBit_or, Nat.testBit_and]
  cases a.testBit n <;> cases mask.testBit n <;> rfl

theorem leafEntry_and {pa flags mask : Nat} (h : flags &&& mask = mask) :
    leafEntry pa flags &&& mask = mask := by
  rw [leafEntry, Nat.or_assoc, Nat.or_comm flags, ← Nat.or_assoc]
  exact and_of_or h

theorem InStack.page (h : InStack AddressSpace.defaultStackTop v) :
    ∃ j < AddressSpace.defaultStackPages, pagePath v = pagePath (AddressSpace.stackPage j) := by
  obtain ⟨hlo, hhi⟩ := h
  simp only [AddressSpace.defaultStackTop] at hlo hhi
  obtain ⟨j, o, hj, ho, rfl⟩ : ∃ j o, j < 4 ∧ o < pageSize ∧ v = AddressSpace.stackPage j + o := by
    refine ⟨15 - v / 4096 % 16, v % 4096, by omega, Nat.mod_lt _ (by decide), ?_⟩
    simp only [AddressSpace.stackPage, AddressSpace.defaultStackTop, pageSize]
    omega
  refine ⟨j, hj, pagePath_add ?_ ho⟩
  simp only [AddressSpace.stackPage, AddressSpace.defaultStackTop, pageSize]
  omega

theorem walk_eq_some {m : Mem} {w : Walk} (h : walk m r v = some w) :
    entryAt m r ((pagePath v).take 1) = some w.pml4e ∧
      entryAt m r ((pagePath v).take 2) = some w.pdpte ∧
      entryAt m r ((pagePath v).take 3) = some w.pde ∧ entryAt m r (pagePath v) = some w.pte := by
  simp only [walk, Option.bind_eq_bind, Option.bind_eq_some_iff] at h
  obtain ⟨e1, h1, e2, h2, e3, h3, e4, h4, hw⟩ := h
  cases hw
  exact ⟨h1, h2, h3, h4⟩

namespace System

variable {σ : System} {stack : List Nat} {exempt : TablePath → Prop} {space space' : AddressSpace}

theorem Partitioned.walk_page (h : σ.Partitioned exempt stack) (hspace : space ∈ σ.spaces) {j f : Nat}
    (hj : j < AddressSpace.defaultStackPages)
    (hpath : pagePath v = pagePath (AddressSpace.stackPage j))
    (hleaf : entryAt σ.manager.phys.mem space.pml4Phys (pagePath (AddressSpace.stackPage j)) =
      some (leafEntry f AddressSpace.stackFlags)) :
    ∃ w, walk σ.manager.phys.mem space.pml4Phys v = some w ∧ w.IsUserData ∧
      w.pte = leafEntry f AddressSpace.stackFlags := by
  rw [← hpath] at hleaf
  have hslot : (tableSlot 39 v).val < 256 := by
    rw [(List.cons.inj hpath).1, stackPage_slot hj]
    decide
  obtain ⟨w, hw⟩ : ∃ w, walk σ.manager.phys.mem space.pml4Phys v = some w := by
    refine Option.ne_none_iff_exists'.mp fun hnone => ?_
    cases (walk_eq_none.mp hnone).symm.trans hleaf
  obtain ⟨h1, h2, h3, h4⟩ := walk_eq_some hw
  have hpte : w.pte = leafEntry f AddressSpace.stackFlags := Option.some.inj (h4.symm.trans hleaf)
  have hinner : ∀ {p : TablePath} {e : Nat}, (tableSlot 39 v :: p).length ≤ 3 →
      entryAt σ.manager.phys.mem space.pml4Phys (tableSlot 39 v :: p) = some e →
      e &&& (Flag.user ||| Flag.writable) = Flag.user ||| Flag.writable := by
    intro p e hp he
    obtain ⟨g, rfl⟩ := h.lower.passable _ (pml4Phys_mem hspace) (h.ne_root hspace) _ p e hslot hp he
    exact and_of_or (by decide)
  refine ⟨w, hw, ⟨?_, ?_⟩, hpte⟩
  · intro e he
    simp only [List.mem_cons, List.not_mem_nil, or_false] at he
    rcases he with rfl | rfl | rfl | rfl
    · exact hinner (by simp) h1
    · exact hinner (by simp) h2
    · exact hinner (by simp) h3
    · rw [hpte]
      exact leafEntry_and (by decide)
  · rw [hpte]
    exact leafEntry_and (by decide)

theorem Partitioned.walk_stack (h : σ.Partitioned exempt stack) (hspace : space ∈ σ.spaces)
    (hv : InStack AddressSpace.defaultStackTop v) :
    ∃ w, walk σ.manager.phys.mem space.pml4Phys v = some w ∧ w.IsUserData := by
  obtain ⟨j, hj, hpath⟩ := hv.page
  obtain ⟨f, hleaf⟩ := (h.userStack space hspace).2 j hj
  obtain ⟨w, hw, hdata, -⟩ := h.walk_page hspace hj hpath hleaf
  exact ⟨w, hw, hdata⟩

/-- Stacks of two address spaces have no frame in common. -/
theorem Partitioned.frames_apart (h : σ.Partitioned exempt stack)
    (hcounts : ∀ j < AddressSpace.defaultStackPages, ¬ exempt (pagePath (AddressSpace.stackPage j)))
    (hspace : space ∈ σ.spaces) (hspace' : space' ∈ σ.spaces)
    (hne : space.pml4Phys ≠ space'.pml4Phys) {v' : Nat} {w w' : Walk}
    (hv : InStack AddressSpace.defaultStackTop v) (hv' : InStack AddressSpace.defaultStackTop v')
    (hw : walk σ.manager.phys.mem space.pml4Phys v = some w)
    (hw' : walk σ.manager.phys.mem space'.pml4Phys v' = some w') : frameOf w.pte ≠ frameOf w'.pte := by
  intro hsame
  have hleaf : ∀ {space v w}, space ∈ σ.spaces → InStack AddressSpace.defaultStackTop v →
      walk σ.manager.phys.mem space.pml4Phys v = some w →
      Leaf exempt (σ.view stack) space.pml4Phys (tableSlot 39 v) (innerPath v) w.pte := by
    intro space v w hspace hv hw
    obtain ⟨j, hj, hpath⟩ := hv.page
    refine ⟨pml4Phys_mem hspace, rfl, ?_, (walk_eq_some hw).2.2.2⟩
    rw [← pagePath_eq, hpath]
    exact hcounts j hj
  obtain ⟨j, hj, hpath⟩ := hv.page
  have hslot : (tableSlot 39 v).val < 256 := by
    rw [(List.cons.inj hpath).1, stackPage_slot hj]
    decide
  obtain ⟨hpath', hshare⟩ := h.owned.once _ _ _ _ _ _ _ _ (hleaf hspace hv hw) (hleaf hspace' hv' hw')
    hsame
  rw [← (List.cons.inj hpath').1] at hshare
  obtain ⟨t, ht⟩ : ∃ t, (σ.view stack).slot space.pml4Phys (tableSlot 39 v) = some t := by
    refine Option.ne_none_iff_exists'.mp fun hnone => ?_
    exact slot_of_entry (hleaf hspace hv hw).entry ((RadixTree.present_eq_none_iff (by simp)).mpr hnone)
  exact h.lower.isolated _ (pml4Phys_mem hspace) _ (pml4Phys_mem hspace') hne _ t hslot ht
    (hshare.symm.trans ht)

end System

end CrapOs
