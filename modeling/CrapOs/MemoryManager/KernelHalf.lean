import CrapOs.MemoryManager.Heap.Runs
import CrapOs.MemoryManager.KernelCalls

/-! # The kernel half of every address space

The entries with PML4 index 256 and above: which of them user code can pass,
and why every address space sees the same ones.
-/

namespace CrapOs

open Foundation

variable {c : TableCall} {cs : List TableCall} {x y : TableView} {r v : Nat} {i : Fin 512}
  {p q : TablePath} {e : Nat}

def NoUserPage (x : TableView) : Prop :=
  ∀ r ∈ x.roots, ∀ (i : Fin 512) (q : TablePath) (e : Nat), 256 ≤ i.val → q.length = 3 →
    x.entry r (i :: q) = some e → e &&& Flag.user = 0

theorem pageMask_user (pa : Nat) : pa &&& pageMask &&& Flag.user = 0 := by
  rw [Nat.and_assoc, show pageMask &&& Flag.user = 0 by decide, Nat.and_zero]

theorem leafEntry_user (pa flags : Nat) :
    leafEntry pa flags &&& Flag.user = flags &&& Flag.user := by
  have hbit : Flag.present &&& Flag.user = 0 := by decide
  rw [leafEntry, Nat.and_or_distrib_right, Nat.and_or_distrib_right, pageMask_user, hbit, Nat.zero_or,
    Nat.or_zero]

def TableCall.UserBelow : TableCall → Prop
  | .map _ v _ flags _ => flags &&& Flag.user = 0 ∨ (tableSlot 39 v).val < 256
  | .claim _ v flags => flags &&& Flag.user = 0 ∨ (tableSlot 39 v).val < 256
  | _ => True

theorem TableCall.UserBelow.writes (h : c.UserBelow) (hi : 256 ≤ i.val)
    (hw : c.Writes x r (i :: q) e) : e &&& Flag.user = 0 := by
  have hleaf : ∀ {v pa flags : Nat}, (flags &&& Flag.user = 0 ∨ (tableSlot 39 v).val < 256) →
      i :: q = pagePath v → leafEntry pa flags &&& Flag.user = 0 := by
    intro v pa flags hbelow hpath
    rw [leafEntry_user]
    refine hbelow.resolve_right fun hlt => ?_
    rw [← (List.cons.inj hpath).1] at hlt
    omega
  cases c with
  | map r' v pa flags isUserPage =>
    obtain ⟨-, hpath, rfl⟩ := hw
    exact hleaf h hpath
  | claim r' v flags =>
    obtain ⟨-, hpath, f, -, -, rfl⟩ := hw
    exact hleaf h hpath
  | take | unmap | give | adopt => cases hw

theorem NoUserPage.step (h : NoUserPage x) (hc : c.UserBelow) (hs : TableStep c x y) :
    NoUserPage y := by
  intro r hr i q e hi hq he
  rcases hs.leaf_origin hr hq he with ⟨r0, hr0, hold, -⟩ | ⟨r0, hw, -⟩
  · exact h r0 hr0 i q e hi hq hold
  · exact hc.writes hi hw

theorem NoUserPage.run (h : NoUserPage x) (hx : x.Sound) (hcs : ∀ c ∈ cs, c.UserBelow)
    (hrun : TableRun cs x y) : NoUserPage y :=
  (hrun.invariant NoUserPage hx h fun c hc _ _ _ h hs _ => h.step (hcs c hc) hs).2

/-- No entry of the kernel half that leads to a table carries the user flag. -/
def NoUserTable (x : TableView) : Prop :=
  ∀ r ∈ x.roots, ∀ (i : Fin 512) (p : TablePath) (e : Nat), 256 ≤ i.val → (i :: p).length ≤ 3 →
    x.entry r (i :: p) = some e → e &&& Flag.user = 0

theorem missing_eq_zero_iff {m : Mem} : missing m r p = 0 ↔
    ∀ q ∈ prefixSet p, entryAt m r q ≠ none := by
  rw [missing, Finset.card_eq_zero, Finset.filter_eq_empty_iff]

def TableCall.Grows (x : TableView) (i : Fin 512) : TableCall → Prop
  | .map r v _ _ _ => i = tableSlot 39 v ∧ missing x.phys.mem r (tablePath v) ≠ 0
  | .claim r v _ => i = tableSlot 39 v ∧ missing x.phys.mem r (tablePath v) ≠ 0
  | _ => False

theorem Mapped.inner_cases {s s' : Phys} {stack stack' : List Nat} {flags leaf : Nat}
    (h : Mapped r flags s stack v leaf s' stack') (hp : (i :: p).length ≤ 3)
    (he : entryAt s'.mem r (i :: p) = some e) :
    entryAt s.mem r (i :: p) = some e ∨
      (i = tableSlot 39 v ∧ missing s.mem r (tablePath v) ≠ 0) := by
  have hne := ne_pagePath_of_length (v := v) hp
  by_cases hnone : entryAt s.mem r (i :: p) = none
  · have hin := (h.fresh _ (by omega) hne hnone (by rw [he]; simp)).1
    refine .inr ⟨?_, fun hzero => missing_eq_zero_iff.mp hzero _ hin hnone⟩
    obtain ⟨t, ht⟩ := (mem_prefixSet.mp hin).2
    exact (List.cons.inj ht).1
  · rw [← h.keep _ (by omega) hne hnone]
    exact .inl he

private theorem origin_of_owner {s s' : Phys} {roots : List Nat} {r0 : Nat} (hr0 : r0 ∈ roots)
    (hecho : ∀ r' ∈ roots, r' ≠ r0 → Echoed s.mem s'.mem r0 r') (hr : r ∈ roots)
    (hp : p.length ≤ 4)
    (hown : ∀ e, entryAt s'.mem r0 p = some e → entryAt s.mem r0 p = some e)
    (he : entryAt s'.mem r p = some e) : ∃ r' ∈ roots, entryAt s.mem r' p = some e := by
  by_cases hrr : r = r0
  · subst hrr
    exact ⟨r, hr, hown e he⟩
  · rcases (hecho r hr hrr).entry_cases hp with hold | hnew
    · exact ⟨r, hr, hold.symm.trans he⟩
    · exact ⟨r0, hr0, hown e (hnew.symm.trans he)⟩

theorem TableStep.inner_origin (h : TableStep c x y) (hgrow : ¬ c.Grows x i) (hr : r ∈ y.roots)
    (hp : (i :: p).length ≤ 3) (he : y.entry r (i :: p) = some e) :
    ∃ r0 ∈ x.roots, x.entry r0 (i :: p) = some e := by
  have hlen : (i :: p).length ≤ 4 := by omega
  induction h generalizing r with
  | take hmem =>
    refine ⟨r, hr, ?_⟩
    rw [← he, TableView.entry, TableView.entry, hmem]
  | map hr0 hmapped hecho =>
    exact origin_of_owner hr0 hecho hr hlen
      (fun e he => (hmapped.inner_cases hp he).resolve_right hgrow) he
  | claim htake _ _ ihtake ihmap =>
    obtain ⟨r1, hr1, hmid⟩ := ihmap (by
      rw [TableCall.Grows, htake.take_mem]
      exact hgrow) hr he
    exact ihtake id hr1 hmid
  | unmap hr0 hun hecho =>
    refine origin_of_owner hr0 hecho hr hlen (fun e he => ?_) he
    rw [← hun.keep _ hlen (by rw [he]; simp)]
    exact he
  | give hsame => exact ⟨r, hr, (hsame r hr _ hlen).symm.trans he⟩
  | @adopt s s' roots stack k f hk hold hlow hhigh =>
    rcases List.mem_cons.mp hr with rfl | hr
    · by_cases hi : i.val < 256
      · rw [TableView.entry, hlow i p hi] at he
        cases he
      · exact ⟨k, hk, (hhigh i p (by omega) hlen).symm.trans he⟩
    · exact ⟨r, hr, (hold r hr _ hlen).symm.trans he⟩

theorem NoUserTable.step (h : NoUserTable x) (hs : TableStep c x y)
    (hgrow : ∀ i : Fin 512, 256 ≤ i.val → ¬ c.Grows x i) : NoUserTable y := by
  intro r hr i p e hi hp he
  obtain ⟨r0, hr0, hold⟩ := hs.inner_origin (hgrow i hi) hr hp he
  exact h r0 hr0 i p e hi hp hold

theorem TableStep.grows_user {pa flags : Nat} (h : TableStep (.map r v pa flags true) x y)
    (hmiss : missing x.phys.mem r (tablePath v) ≠ 0) :
    ∃ p e, (tableSlot 39 v :: p).length ≤ 3 ∧ y.entry r (tableSlot 39 v :: p) = some e ∧
      e &&& Flag.user ≠ 0 := by
  obtain ⟨q, hq, hnone⟩ : ∃ q ∈ prefixSet (tablePath v), entryAt x.phys.mem r q = none := by
    by_contra hall
    refine hmiss (missing_eq_zero_iff.mpr fun q hq hnone => hall ⟨q, hq, hnone⟩)
  obtain ⟨hnil, hpre⟩ := mem_prefixSet.mp hq
  have hlen : q.length ≤ 3 := hpre.length_le
  have hexist : entryAt y.phys.mem r q ≠ none :=
    h.mapped.exist q (mem_prefixSet.mpr ⟨hnil, hpre.trans (List.prefix_append _ _)⟩)
  obtain ⟨-, f, hf, he⟩ := h.mapped.fresh q (by omega) (ne_pagePath_of_length hlen) hnone hexist
  cases q with
  | nil => exact absurd rfl hnil
  | cons i p =>
    obtain ⟨t, ht⟩ := hpre
    obtain ⟨rfl, -⟩ := List.cons.inj ht
    refine ⟨p, _, hlen, he, ?_⟩
    rw [Nat.and_or_distrib_right]
    exact fun hzero => absurd (Nat.or_eq_zero_iff.mp hzero).2 (by decide)

private theorem Echoed.inner_kept {m m' : Mem} {r' : Nat} (h : Echoed m m' r r')
    (hp : p.length ≤ 3) (hown : entryAt m r p = some e → entryAt m' r p = some e)
    (he : entryAt m r' p = some e) : entryAt m' r' p = some e := by
  cases p with
  | nil => cases he
  | cons i q =>
    by_cases hnil : q = []
    · subst hnil
      rw [h.entry_slot]
      exact he
    by_cases hshare : SharesSlot m r r' i
    · rw [h.shared i q hshare hnil]
      rw [entryAt_of_slot hshare.2 hnil] at he
      exact hown he
    · rw [h.kept i q hshare (by omega)]
      exact he

theorem TableStep.inner_kept (h : TableStep c x y) (hc : ∀ r v, c ≠ .unmap r v) (hr : r ∈ x.roots)
    (hp : p.length ≤ 3) (he : x.entry r p = some e) : y.entry r p = some e := by
  have hlen : p.length ≤ 4 := by omega
  induction h with
  | take hmem =>
    rw [TableView.entry, hmem]
    exact he
  | @map s s' roots stack stack' r0 v pa flags isUserPage hr0 hmapped hecho =>
    have hown : entryAt s.mem r0 p = some e → entryAt s'.mem r0 p = some e := by
      intro he
      rw [hmapped.keep p hlen (ne_pagePath_of_length hp) (by rw [he]; simp)]
      exact he
    by_cases hrr : r = r0
    · subst hrr
      exact hown he
    · exact (hecho r hr hrr).inner_kept hp hown he
  | claim htake _ _ ihtake ihmap =>
    exact ihmap (by simp) (htake.roots_mono hr) (ihtake (by simp) hr he)
  | unmap => exact absurd rfl (hc _ _)
  | give hsame =>
    rw [TableView.entry, hsame r hr p hlen]
    exact he
  | adopt hk hold hlow hhigh =>
    rw [TableView.entry, hold r hr p hlen]
    exact he

theorem TableRun.inner_kept (h : TableRun cs x y) (hcs : ∀ c ∈ cs, ∀ r v, c ≠ .unmap r v)
    (hr : r ∈ x.roots) (hp : p.length ≤ 3) (he : x.entry r p = some e) : y.entry r p = some e := by
  induction h with
  | nil => exact he
  | cons hc _ _ ih =>
    refine ih (fun c hin => hcs c (List.mem_cons_of_mem _ hin)) (hc.roots_mono hr) ?_
    exact hc.inner_kept (hcs _ List.mem_cons_self) hr hp he

theorem TableStep.missing_kept (h : TableStep c x y) (hc : ∀ r v, c ≠ .unmap r v)
    (hr : r ∈ x.roots) (hzero : missing x.phys.mem r (tablePath v) = 0) :
    missing y.phys.mem r (tablePath v) = 0 := by
  rw [missing_eq_zero_iff] at hzero ⊢
  intro q hq
  have hlen : q.length ≤ 3 := (mem_prefixSet.mp hq).2.length_le
  obtain ⟨e, he⟩ := Option.ne_none_iff_exists'.mp (hzero q hq)
  have hkept : entryAt y.phys.mem r q = some e := h.inner_kept hc hr hlen he
  rw [hkept]
  simp

namespace KernelCall

/-- `mapPage` is asked for the user flag below `0x0000800000000000` only; nothing is unmapped. -/
def UserBelow : KernelCall → Prop
  | .mapPage _ v _ flags => flags &&& Flag.user = 0 ∨ v < 0x0000800000000000
  | .unmapPage _ _ => False
  | .unmapAndFreePage _ _ => False
  | _ => True

/-- Mappings in the kernel half find all the tables they need; nothing is unmapped. -/
def FindsTables (σ : System) : KernelCall → Prop
  | .mapPage pml4Phys v _ _ => 256 ≤ (tableSlot 39 v).val →
      missing σ.manager.phys.mem (σ.manager.rootOf pml4Phys) (tablePath v) = 0
  | .growHeap n => ∀ j < n, missing σ.manager.phys.mem σ.root
      (tablePath (wrap64 (wrap64 (σ.heap.base + σ.heap.committed) + j * pageSize))) = 0
  | .unmapPage _ _ => False
  | .unmapAndFreePage _ _ => False
  | _ => True

variable {σ σ' : System} {call : KernelCall} {calls : List TableCall}

theorem Expands.userBelow (h : call.Expands σ σ' calls) (hbelow : call.UserBelow) :
    ∀ t ∈ calls, t.UserBelow := by
  cases h with
  | exhausted | heapWork => simp
  | absent | absentFree | unmapPage | unmapAndFreePage => exact hbelow.elim
  | allocPage => simp [TableCall.UserBelow]
  | mapPage pml4Phys v pa flags =>
    intro t ht
    rw [List.mem_singleton.mp ht]
    refine hbelow.imp id fun hv => ?_
    simp only [tableSlot, tableIndex_eq]
    omega
  | createAddressSpace space =>
    intro t ht
    rcases List.mem_cons.mp ht with rfl | ht
    · trivial
    · obtain ⟨j, hj, rfl⟩ := List.mem_map.mp ht
      have hslot := stackPage_slot (j := j) (by simpa using (List.mem_range'_1.mp hj).2)
      exact .inr (by omega)
  | growHeap n =>
    intro t ht
    obtain ⟨j, -, rfl⟩ := List.mem_map.mp ht
    exact .inl (by decide)

end KernelCall

theorem NoUserTable.run (h : NoUserTable x) (hx : x.Sound) (hrun : TableRun cs x y)
    (hcs : ∀ c ∈ cs, ∀ x (i : Fin 512), 256 ≤ i.val → ¬ c.Grows x i) : NoUserTable y :=
  (hrun.invariant NoUserTable hx h fun c hc x _ _ h hs _ => h.step hs (hcs c hc x)).2

theorem NoUserTable.claims {n : Nat} {page : Nat → Nat} (h : NoUserTable x) (hx : x.Sound)
    (hr : r ∈ x.roots) (hrun : TableRun cs x y)
    (hcs : ∀ c ∈ cs, ∃ j < n, ∃ flags, c = .claim r (page j) flags)
    (hfound : ∀ j < n, missing x.phys.mem r (tablePath (page j)) = 0) : NoUserTable y := by
  -- the tables that were there are still there for the next page
  refine (hrun.invariant (fun x => NoUserTable x ∧ r ∈ x.roots ∧
    ∀ j < n, missing x.phys.mem r (tablePath (page j)) = 0) hx ⟨h, hr, hfound⟩ ?_).2.1
  rintro c hc x y - ⟨h, hr, hfound⟩ hs -
  obtain ⟨j, hj, flags, rfl⟩ := hcs c hc
  refine ⟨h.step hs fun i _ hgrow => hgrow.2 (hfound j hj), hs.roots_mono hr, fun k hk => ?_⟩
  exact hs.missing_kept (by simp) hr (hfound k hk)

theorem KernelCall.Expands.noUserTable {σ σ' : System} {call : KernelCall} {stack : List Nat}
    (hexp : call.Expands σ σ' cs) (hlive : σ.Live stack) (h : NoUserTable (σ.view stack))
    (hfinds : call.FindsTables σ) (hrun : TableRun cs (σ.view stack) y) : NoUserTable y := by
  cases hexp with
  | exhausted | heapWork => exact h.run hlive.spaces hrun (by simp)
  | absent | absentFree | unmapPage | unmapAndFreePage => exact hfinds.elim
  | allocPage => exact h.run hlive.spaces hrun (by simp [TableCall.Grows])
  | mapPage pml4Phys v pa flags =>
    cases hrun with
    | cons hstep _ hnil =>
      cases hnil
      refine h.step hstep fun i hi hgrow => hgrow.2 (hfinds ?_)
      rw [← hgrow.1]
      exact hi
  | createAddressSpace space =>
    refine h.run hlive.spaces hrun fun c hc x i hi hgrow => ?_
    rcases List.mem_cons.mp hc with rfl | hc
    · exact hgrow
    · obtain ⟨j, hj, rfl⟩ := List.mem_map.mp hc
      have hslot := stackPage_slot (j := j) (by simpa using (List.mem_range'_1.mp hj).2)
      rw [← hgrow.1] at hslot
      omega
  | growHeap n =>
    refine h.claims hlive.spaces σ.root_mem hrun (fun c hc => ?_) hfinds
    obtain ⟨j, hj, rfl⟩ := List.mem_map.mp hc
    exact ⟨j, by simpa using (List.mem_range'_1.mp hj).2, _, rfl⟩

def System.KernelTablesClear (σ : System) : Prop :=
  ∀ r ∈ σ.roots, ∀ (i : Fin 512) (p : TablePath) (e : Nat), 256 ≤ i.val → (i :: p).length ≤ 3 →
    entryAt σ.manager.phys.mem r (i :: p) = some e → e &&& Flag.user = 0

/-- The first page of the heap brings the user flag into the kernel half. -/
theorem growHeap_user {σ σ' : System} {stack : List Nat} {n : Nat} (h : σ.Live stack)
    (hok : σ.exec (.growHeap (n + 1)) = .ok σ')
    (hhigh : 256 ≤ (tableSlot 39 (wrap64 (wrap64 (σ.heap.base + σ.heap.committed)))).val)
    (hmiss : missing σ.manager.phys.mem σ.root
      (tablePath (wrap64 (wrap64 (σ.heap.base + σ.heap.committed)))) ≠ 0) :
    ¬ σ'.KernelTablesClear := by
  obtain ⟨calls, stack', hexp, hroot, -, hrun⟩ :=
    System.exec_run (c := .growHeap (n + 1)) h trivial trivial trivial hok
  cases hexp with
  | growHeap =>
    cases hrun with
    | cons hclaim _ hrest =>
      obtain ⟨f, x1, hmem, -, -, hmap⟩ := hclaim.claimed
      obtain ⟨p, e, hp, he, huser⟩ := hmap.grows_user (by rw [hmem]; exact hmiss)
      have hclaims : ∀ c ∈ (List.range' (0 + 1) n).map fun j => TableCall.claim σ.root
          (wrap64 (wrap64 (σ.heap.base + σ.heap.committed) + j * pageSize))
          (Flag.present ||| Flag.writable ||| Flag.nx), ∀ r v, c ≠ .unmap r v := by
        intro c hc r v
        obtain ⟨j, -, rfl⟩ := List.mem_map.mp hc
        simp
      have hkept := hrest.inner_kept hclaims (hclaim.roots_mono σ.root_mem) hp he
      intro hclear
      refine huser (hclear σ.root ?_ _ p e hhigh hp hkept)
      rw [← hroot]
      exact σ'.root_mem

theorem smallSystem_clear : smallSystem.KernelTablesClear := by
  intro r hr i p e _ _ he
  rw [smallSystem_roots, List.mem_singleton] at hr
  rw [hr, smallSystem_entry] at he
  cases he

theorem smallSystem_heap : (⟨⟨kernelHeap, fun _ => 0, some smallSystem.manager⟩, [], 0⟩ : HeapRun).Start where
  isNew := rfl
  base_pos := by decide
  range := by decide
  half := by decide
  manager := by
    rintro mm ⟨⟩
    exact ⟨_, smallSystem_live.spaces.paging smallSystem.root_mem, smallSystem_live.pml4⟩
  live := rfl
  lost := rfl

theorem smallSystem_init : ∃ σ stack, smallSystem.exec (.growHeap 16) = .ok σ ∧ σ.Live stack ∧
    64 ≤ stack.length := by
  have hcan : CanGrow ⟨kernelHeap, fun _ => 0, some smallSystem.manager⟩ 16 := by
    refine ⟨by decide, by decide, smallSystem.manager, rfl, ?_⟩
    rw [smallSystem_live.spaces.free.count, length_stockedFrames]
    exact Nat.le_trans (framesNeeded_le _ _ _ _ _) (by decide)
  obtain ⟨s, hgrow, -⟩ := grow_ok smallSystem_heap.inv.shaped hcan
  obtain ⟨σ, hok⟩ : ∃ σ, smallSystem.exec (.growHeap 16) = .ok σ := ⟨_, bind_eq_ok.mpr ⟨s, hgrow, rfl⟩⟩
  obtain ⟨calls, stack, hexp, -, hlive, hrun⟩ :=
    System.exec_run (c := .growHeap 16) smallSystem_live trivial trivial trivial hok
  refine ⟨σ, stack, hok, hlive, ?_⟩
  cases hexp with
  | growHeap =>
    have hlen := hrun.claims_length_le fun c hc => by
      obtain ⟨j, -, hj⟩ := List.mem_map.mp hc
      exact ⟨_, _, _, hj.symm⟩
    rw [List.length_map, List.length_range'] at hlen
    have hstart : (smallSystem.view (stockedFrames 128)).stack.length = 128 := length_stockedFrames 128
    have hend : (σ.view stack).stack.length = stack.length := rfl
    omega

/-- The heap's `init(16)` at boot leaves the user flag on the way to the heap. -/
theorem heap_init_sets_user : smallSystem.KernelTablesClear ∧
    ∃ σ, smallSystem.exec (.growHeap 16) = .ok σ ∧ ¬ σ.KernelTablesClear := by
  obtain ⟨σ, stack, hok, -⟩ := smallSystem_init
  refine ⟨smallSystem_clear, σ, hok, growHeap_user smallSystem_live hok (by decide) fun hzero => ?_⟩
  rw [missing_eq_zero_iff] at hzero
  refine hzero [tableSlot 39 (wrap64 (wrap64 kernelHeapBase))] ?_ ?_
  · exact mem_prefixSet.mpr ⟨by simp, List.prefix_append [_] _⟩
  · rw [smallSystem_root]
    exact smallSystem_entry _

/-! ## One upper half for all -/

def heapSlot : Fin 512 := 320

/-- All PML4s have the upper half of the kernel's, and the heap's slot is in use. -/
structure UpperShared (k : Nat) (x : TableView) : Prop where
  kernel : k ∈ x.roots
  agree : ∀ r ∈ x.roots, ∀ (i : Fin 512) (p : TablePath), 256 ≤ i.val → (i :: p).length ≤ 4 →
    x.entry r (i :: p) = x.entry k (i :: p)
  heap : x.entry k [heapSlot] ≠ none

def TableCall.KeepsUpper (k : Nat) : TableCall → Prop
  | .take => True
  | .claim r v _ => (r = k ∧ tableSlot 39 v = heapSlot) ∨ (tableSlot 39 v).val < 256
  | .adopt k' _ => k' = k
  | _ => False

theorem UpperShared.claim_heap {k flags : Nat} (h : UpperShared k x)
    (hs : TableStep (.claim k v flags) x y) (hr : r ∈ x.roots) (hp : (heapSlot :: p).length ≤ 4) :
    y.entry r (heapSlot :: p) = y.entry k (heapSlot :: p) := by
  by_cases hrk : r = k
  · rw [hrk]
  obtain ⟨f, x1, hmem, hroots, -, hmap⟩ := hs.claimed
  have hecho := hmap.echoed (by rwa [hroots]) hrk
  rw [hmem] at hecho
  have hslots : x.entry r [heapSlot] = x.entry k [heapSlot] :=
    h.agree r hr heapSlot [] (by decide) (by simp)
  by_cases hnil : p = []
  · subst hnil
    obtain ⟨e, he⟩ := Option.ne_none_iff_exists'.mp h.heap
    have hkernel : y.entry k [heapSlot] = some e := hs.inner_kept (by simp) h.kernel (by simp) he
    rw [hkernel, ← he, ← hslots]
    exact hecho.entry_slot heapSlot
  · refine hecho.shared heapSlot p ⟨fun hnone => h.heap ?_, ?_⟩ hnil
    · exact (RadixTree.present_eq_none_iff (by simp)).mpr hnone
    · exact tableAt_slot_of_entryAt_slot hslots

theorem UpperShared.step {k : Nat} (h : UpperShared k x) (hc : c.KeepsUpper k)
    (hs : TableStep c x y) : UpperShared k y := by
  have hunmap : ∀ r v, c ≠ .unmap r v := by
    rintro r v rfl
    exact hc
  have hheap : y.entry k [heapSlot] ≠ none := by
    obtain ⟨e, he⟩ := Option.ne_none_iff_exists'.mp h.heap
    rw [hs.inner_kept hunmap h.kernel (by simp) he]
    simp
  refine ⟨hs.roots_mono h.kernel, fun r hr i p hi hp => ?_, hheap⟩
  -- below a slot the call leaves alone nothing changes
  have hother : c.slot ≠ some i → r ∈ x.roots → y.entry r (i :: p) = y.entry k (i :: p) := by
    intro hslot hr
    rw [hs.other_slot hr hslot hp, hs.other_slot h.kernel hslot hp]
    exact h.agree r hr i p hi hp
  cases c with
  | take => exact hother (by simp [TableCall.slot]) (by rwa [← hs.roots_eq (by simp)])
  | map | unmap | give => exact hc.elim
  | adopt k' f =>
    obtain rfl : k' = k := hc
    obtain ⟨-, hroots, -, hcopied⟩ := hs.adopted
    rw [hroots] at hr
    rcases List.mem_cons.mp hr with rfl | hr
    · rw [hcopied i p hi hp, hs.other_slot h.kernel (by simp [TableCall.slot]) hp]
    · exact hother (by simp [TableCall.slot]) hr
  | claim r0 v flags =>
    rw [hs.roots_eq (by simp)] at hr
    rcases hc with ⟨rfl, hslot⟩ | hlow
    · by_cases hii : i = heapSlot
      · subst hii
        exact h.claim_heap hs hr hp
      · refine hother (fun heq => hii ?_) hr
        rw [← hslot]
        exact (Option.some.inj heq).symm
    · refine hother (fun heq => ?_) hr
      rw [Option.some.inj heq] at hlow
      omega

structure System.HasKernelHeap (σ : System) : Prop where
  base : σ.heap.base = kernelHeapBase
  maxSize : σ.heap.maxSize = 64 * 1024 * 1024
  bounds : σ.HeapBounds

theorem System.HasKernelHeap.exec {σ σ' : System} {call : KernelCall} (h : σ.HasKernelHeap)
    (hok : σ.exec call = .ok σ') : σ'.HasKernelHeap := by
  obtain ⟨hbase, hmax, hbounds⟩ := σ.exec_heap h.bounds hok
  exact ⟨hbase.trans h.base, hmax.trans h.maxSize, hbounds⟩

theorem System.HasKernelHeap.slot {σ : System} (h : σ.HasKernelHeap) {n j : Nat}
    (hn : n * pageSize < 2 ^ 48)
    (hroom : wrap64 (σ.heap.committed + wrap64 (n * pageSize)) ≤ σ.heap.maxSize) (hj : j < n) :
    tableSlot 39 (wrap64 (wrap64 (σ.heap.base + σ.heap.committed) + j * pageSize)) = heapSlot := by
  have hle := h.bounds.committed_le
  rw [h.maxSize] at hle hroom
  rw [h.base]
  simp only [wrap64, pageSize, kernelHeapBase] at *
  apply Fin.ext
  simp only [tableSlot, tableIndex_eq, heapSlot]
  omega

namespace KernelCall

def GrowsOrCreates : KernelCall → Prop
  | .mapPage .. => False
  | .unmapPage _ _ => False
  | .unmapAndFreePage _ _ => False
  | _ => True

theorem Expands.keepsUpper {σ σ' : System} {call : KernelCall} (h : call.Expands σ σ' cs)
    (hheap : σ.HasKernelHeap) (hcall : call.GrowsOrCreates) : ∀ c ∈ cs, c.KeepsUpper σ.root := by
  cases h with
  | exhausted | heapWork => simp
  | absent | absentFree | mapPage | unmapPage | unmapAndFreePage => exact hcall.elim
  | allocPage => simp [TableCall.KeepsUpper]
  | createAddressSpace space =>
    intro c hc
    rcases List.mem_cons.mp hc with rfl | hc
    · rfl
    · obtain ⟨j, hj, rfl⟩ := List.mem_map.mp hc
      have hslot := stackPage_slot (j := j) (by simpa using (List.mem_range'_1.mp hj).2)
      exact .inr (by omega)
  | growHeap n hn hroom =>
    intro c hc
    obtain ⟨j, hj, rfl⟩ := List.mem_map.mp hc
    exact .inl ⟨rfl, hheap.slot hn hroom (by simpa using (List.mem_range'_1.mp hj).2)⟩

end KernelCall

/-- The first page of the heap brings its slot into use. -/
theorem UpperShared.of_init {σ σ' : System} {stack : List Nat} {n : Nat} (h : σ.Live stack)
    (hspaces : σ.spaces = []) (hheap : σ.HasKernelHeap)
    (hok : σ.exec (.growHeap (n + 1)) = .ok σ') :
    ∃ stack', σ'.Live stack' ∧ UpperShared σ'.root (σ'.view stack') := by
  obtain ⟨calls, stack', hexp, hroot, hlive, hrun⟩ :=
    System.exec_run (c := .growHeap (n + 1)) h trivial trivial trivial hok
  refine ⟨stack', hlive, σ'.root_mem, ?_, ?_⟩
  · -- there is no other PML4 yet
    have hnone : σ'.spaces = [] := by
      obtain ⟨s, -, hret⟩ := bind_eq_ok.mp hok
      cases hret
      exact hspaces
    intro r hr i p _ _
    have hr' : r ∈ σ'.roots := hr
    rw [System.roots, hnone, List.map_nil, List.nil_append, List.mem_singleton] at hr'
    rw [hr']
  · rw [hroot]
    cases hexp with
    | growHeap _ hn hroom =>
      cases hrun with
      | cons hclaim _ hrest =>
        have hslot := hheap.slot (j := 0) hn hroom (Nat.succ_pos n)
        obtain ⟨f, x1, -, -, -, hmap⟩ := hclaim.claimed
        have hin : [heapSlot] ∈ prefixSet (pagePath (wrap64
            (wrap64 (σ.heap.base + σ.heap.committed) + 0 * pageSize))) := by
          rw [← hslot]
          exact mem_prefixSet.mpr ⟨by simp, List.prefix_append [_] _⟩
        obtain ⟨e, he⟩ := Option.ne_none_iff_exists'.mp (hmap.mapped.exist _ hin)
        have hkept := hrest.inner_kept (fun c hc r v heq => ?_) (hclaim.roots_mono σ.root_mem)
          (by simp) he
        · rw [hkept]
          simp
        · obtain ⟨j, -, hj⟩ := List.mem_map.mp hc
          rw [← hj] at heq
          cases heq

/-- The system right after the boot-time `init(16)` of the heap. -/
def System.HeapReady (σ : System) : Prop :=
  ∃ (σ0 : System) (stack : List Nat), σ0.Live stack ∧ σ0.spaces = [] ∧ σ0.heap = kernelHeap ∧
    σ0.exec (.growHeap 16) = .ok σ

/-- After the heap's `init(16)` every user PML4 translates every address of the upper half as
the kernel's does, whatever address spaces are created and however far the heap grows. -/
theorem upper_half_follows_kernel {σ : System}
    (h : Reach System.HeapReady (System.Step fun _ c => c.GrowsOrCreates) σ) :
    ∀ space ∈ σ.spaces, ∀ v, 256 ≤ (tableSlot 39 v).val →
      walk σ.manager.phys.mem space.pml4Phys v = walk σ.manager.phys.mem σ.root v := by
  have hinv : σ.HasKernelHeap ∧ ∃ stack, σ.Live stack ∧ UpperShared σ.root (σ.view stack) := by
    refine h.invariant (fun σ => σ.HasKernelHeap ∧ ∃ stack, σ.Live stack ∧
      UpperShared σ.root (σ.view stack)) ?_ ?_
    · rintro σ ⟨σ0, stack, hlive, hspaces, hheap, hok⟩
      have hkernel : σ0.HasKernelHeap := by
        refine ⟨?_, ?_, ?_, ?_, ?_⟩ <;> rw [hheap] <;> decide
      exact ⟨hkernel.exec hok, UpperShared.of_init hlive hspaces hkernel hok⟩
    · rintro σ σ' ⟨hkernel, stack, hlive, hupper⟩ ⟨c, hrange, hcall, hok⟩
      refine ⟨hkernel.exec hok, ?_⟩
      have hsafe : c.SparesShared σ ∧ c.FreesFrame σ stack := by
        cases c with
        | mapPage | unmapPage | unmapAndFreePage => exact hcall.elim
        | _ => exact ⟨trivial, trivial⟩
      obtain ⟨calls, stack', hexp, hroot, hlive', hrun⟩ :=
        System.exec_run hlive hrange hsafe.1 hsafe.2 hok
      have hkeeps := hexp.keepsUpper hkernel hcall
      rw [hroot]
      exact ⟨stack', hlive', (hrun.invariant (UpperShared σ.root) hlive.spaces hupper
        fun c hc _ _ _ h hs _ => h.step (hkeeps c hc) hs).2⟩
  obtain ⟨-, stack, -, hupper⟩ := hinv
  intro space hspace v hv
  have hr : space.pml4Phys ∈ σ.roots := List.mem_append_left _ (List.mem_map_of_mem hspace)
  have hentry : ∀ k, k < 4 → entryAt σ.manager.phys.mem space.pml4Phys ((pagePath v).take (k + 1)) =
      entryAt σ.manager.phys.mem σ.root ((pagePath v).take (k + 1)) := by
    intro k hk
    exact hupper.agree _ hr (tableSlot 39 v) _ hv (by simp)
  rw [walk, walk, hentry 0 (by omega), hentry 1 (by omega), hentry 2 (by omega)]
  have hleaf := hentry 3 (by omega)
  rw [List.take_of_length_le (length_pagePath v).le] at hleaf
  rw [hleaf]

theorem upper_half_follows_kernel_of_smallSystem : ∃ σ₁ σ₂,
    smallSystem.exec (.growHeap 16) = .ok σ₁ ∧ σ₁.exec .createAddressSpace = .ok σ₂ ∧
    ∀ space ∈ σ₂.spaces, ∀ v, 256 ≤ (tableSlot 39 v).val →
      walk σ₂.manager.phys.mem space.pml4Phys v = walk σ₂.manager.phys.mem σ₂.root v := by
  obtain ⟨σ₁, stack, hinit, hlive, hlen⟩ := smallSystem_init
  obtain ⟨σ₂, hcreate⟩ := hlive.createAddressSpace_ok (by omega)
  refine ⟨σ₁, σ₂, hinit, hcreate, upper_half_follows_kernel (.step (.start (s := σ₁) ?_) ?_)⟩
  · exact ⟨smallSystem, _, smallSystem_live, rfl, rfl, hinit⟩
  · exact ⟨.createAddressSpace, trivial, trivial, hcreate⟩

end CrapOs
