import CrapOs.MemoryManager.MapPage

/-! # Unmapping a page

`unmapPage` clears the leaf entry and walks back up, releasing each table that
has become empty. `Unmapped` collects what the cleared leaf and any number of
released tables do to the tree and to the free list.
-/

namespace CrapOs

open Foundation

variable {s : Phys} {root t f v : Nat} {stack : List Nat} {p : TablePath} {i : Fin 512}

theorem load_present_iff (h : PageTree s.mem root stack) (hp : p.length ≤ 3)
    (ht : tableAt s.mem root p = some t) (hh : Bool) :
    s.load (virtOf hh t + 8 * i.val) &&& Flag.present = 0 ↔
      entryAt s.mem root (p ++ [i]) = none := by
  rw [load_slot (h.frames p t hp ht), entryAt_concat ht, RadixTree.found_eq_none,
    decodeEntry_eq_none]

theorem walk_level (h : PageTree s.mem root stack) (hp : p.length ≤ 3)
    (ht : tableAt s.mem root p = some t) (i : Fin 512) (hh : Bool) :
    (s.load (virtOf hh t + 8 * i.val) &&& Flag.present = 0 ∧
      entryAt s.mem root (p ++ [i]) = none) ∨
    (s.load (virtOf hh t + 8 * i.val) &&& Flag.present ≠ 0 ∧
      entryAt s.mem root (p ++ [i]) ≠ none ∧ ∃ u, tableAt s.mem root (p ++ [i]) = some u ∧
        tablePointer (s.load (virtOf hh t + 8 * i.val)) = virtOf true u) := by
  have hiff := load_present_iff (i := i) h hp ht hh
  by_cases hbit : s.load (virtOf hh t + 8 * i.val) &&& Flag.present = 0
  · exact .inl ⟨hbit, hiff.mp hbit⟩
  · refine .inr ⟨hbit, fun hnone => hbit (hiff.mpr hnone), _, ?_, rfl⟩
    rw [tableAt_concat ht, ← load_slot (h.frames p t hp ht) hh, decodeEntry_of_present hbit]

/-- The walk ends early exactly if the leaf entry is absent. -/
theorem walkTables_cases (h : PageTree s.mem root stack) (v : Nat) (hh : Bool) :
    (entryAt s.mem root (pagePath v) = none ∧ ∀ (α : Type) (absent : α) present,
      walkTables s (virtOf hh root) v absent present = absent) ∨
    (entryAt s.mem root (pagePath v) ≠ none ∧ ∃ pdpt pd pt,
      tableAt s.mem root ((tablePath v).take 1) = some pdpt ∧
      tableAt s.mem root ((tablePath v).take 2) = some pd ∧
      tableAt s.mem root (tablePath v) = some pt ∧ ∀ (α : Type) (absent : α) present,
      walkTables s (virtOf hh root) v absent present =
        present (virtOf true pdpt) (virtOf true pd) (virtOf true pt)) := by
  have habove : ∀ p : TablePath, entryAt s.mem root p = none → p ≠ [] → p <+: pagePath v →
      entryAt s.mem root (pagePath v) = none := by
    rintro p hnone hne ⟨q, heq⟩
    by_contra hsome
    rw [← heq] at hsome
    exact RadixTree.present_of_append hne hsome hnone
  have hroot : tableAt s.mem root [] = some root := rfl
  simp only [walkTables, pml4Index_eq, pdptIndex_eq, pdIndex_eq, ptIndex_eq]
  rcases walk_level h (by simp) hroot (tableSlot 39 v) hh with
    ⟨hbit4, hnone⟩ | ⟨hbit4, -, pdpt, hpdpt, hptr4⟩
  · exact .inl ⟨habove _ hnone (by simp) ⟨_, rfl⟩, fun _ _ _ => if_pos hbit4⟩
  simp only [if_neg hbit4, hptr4]
  rcases walk_level h (by simp) hpdpt (tableSlot 30 v) true with
    ⟨hbit3, hnone⟩ | ⟨hbit3, -, pd, hpd, hptr3⟩
  · exact .inl ⟨habove _ hnone (by simp) ⟨_, rfl⟩, fun _ _ _ => if_pos hbit3⟩
  simp only [if_neg hbit3, hptr3]
  rcases walk_level h (by simp) hpd (tableSlot 21 v) true with
    ⟨hbit2, hnone⟩ | ⟨hbit2, -, pt, hpt, hptr2⟩
  · exact .inl ⟨habove _ hnone (by simp) ⟨_, rfl⟩, fun _ _ _ => if_pos hbit2⟩
  simp only [if_neg hbit2, hptr2]
  rcases walk_level h (by simp) hpt (tableSlot 12 v) true with ⟨hbit1, hnone⟩ | ⟨hbit1, hsome, -⟩
  · exact .inl ⟨hnone, fun _ _ _ => if_pos hbit1⟩
  · exact .inr ⟨hsome, pdpt, pd, pt, hpdpt, hpd, hpt, fun _ _ _ => if_neg hbit1⟩

theorem isTableEmpty_iff (h : PageTree s.mem root stack) (hp : p.length ≤ 3)
    (ht : tableAt s.mem root p = some t) (hh : Bool) :
    isTableEmpty s (virtOf hh t) = true ↔ ∀ i, entryAt s.mem root (p ++ [i]) = none := by
  simp only [isTableEmpty, List.all_eq_true, List.mem_range, beq_iff_eq]
  constructor
  · exact fun hall i => (load_present_iff h hp ht hh).mp (hall i.val i.isLt)
  · exact fun hall k hk => (load_present_iff (i := ⟨k, hk⟩) h hp ht hh).mpr (hall ⟨k, hk⟩)

theorem releaseTable_spec (h : Paging s root stack) (hp : p.length < 3)
    (ht : tableAt s.mem root p = some t) (hf : tableAt s.mem root (p ++ [i]) = some f)
    (hempty : ∀ j, entryAt s.mem root (p ++ [i] ++ [j]) = none) (hh : Bool) :
    let s' := releaseTable s (virtOf hh t + 8 * i.val)
    Paging s' root (f :: stack) ∧ s'.pmm.isHigherHalf = s.pmm.isHigherHalf ∧
      (∀ q : TablePath, q.length ≤ 4 →
        entryAt s'.mem root q = if q = p ++ [i] then none else entryAt s.mem root q) ∧
      s' = freePage (s.store (virtOf hh t + 8 * i.val) 0) f ∧
      ∀ j, tableEntry (s.store (virtOf hh t + 8 * i.val) 0).mem f j &&& Flag.present = 0 := by
  have hlen : (p ++ [i]).length ≤ 3 := by
    rw [List.length_append, List.length_singleton]
    omega
  have hframe := h.tree.frames p t (by omega) ht
  have hoff := h.tree.off p t (by omega) ht
  have hff := h.tree.frames _ f hlen hf
  have hfoff := h.tree.off _ f hlen hf
  have hne : t ≠ f := by
    intro heq
    have hpath := congrArg List.length
      (h.tree.unshared p (p ++ [i]) t (by omega) hlen ht (heq ▸ hf))
    rw [List.length_append, List.length_singleton] at hpath
    omega
  have hphys : s.load (virtOf hh t + 8 * i.val) &&& pageMask = f := by
    have hptr := hf
    rw [tableAt_concat ht] at hptr
    rw [load_slot hframe]
    unfold decodeEntry at hptr
    split at hptr
    · cases hptr
    · exact Option.some.inj hptr
  obtain ⟨s1, hs1⟩ : ∃ s1, s.store (virtOf hh t + 8 * i.val) 0 = s1 := ⟨_, rfl⟩
  have hmem1 : s1.mem = s.mem.write64 (t + 8 * i.val) 0 := by
    rw [← hs1]
    exact store_slot hframe hh i 0
  have hfree1 : FreeStack s1 stack := by
    rw [← hs1]
    exact h.free.store_slot hframe hoff hh i 0
  have hview1 : s1.pmm.isHigherHalf = s.pmm.isHigherHalf := by
    rw [← hs1]
    rfl
  have heq : releaseTable s (virtOf hh t + 8 * i.val) = freePage s1 f := by
    rw [releaseTable, hphys, hs1]
  simp only [heq, hs1]
  have hother : ∀ a j, IsFrame a → a ≠ f →
      tableEntry (freePage s1 f).mem a j = tableEntry s1.mem a j :=
    fun a j ha hne => tableEntry_congr (freePage_agreeOn hff (hff.apart ha (Ne.symm hne))) j
  have hsame : ∀ a j, IsFrame a → ¬ (a = t ∧ j = i) → tableEntry s1.mem a j = tableEntry s.mem a j :=
    fun a j ha hslot => by rw [hmem1, tableEntry_write_other _ _ ha hframe hslot]
  obtain ⟨htree, hedit⟩ := h.tree.prune (freePage s1 f).mem hp ht hf hempty
    (fun a j ha hnf hslot => (hother a j ha hnf).trans (hsame a j ha hslot))
    (by rw [hother t i hframe hne, hmem1, tableEntry_write_same _ _ _ (by decide)])
  refine ⟨⟨freePage_spec hfree1 hff hfoff, htree⟩, hview1, hedit, trivial, fun j => ?_⟩
  have hj := hempty j
  rw [entryAt_concat hf, RadixTree.found_eq_none, decodeEntry_eq_none] at hj
  rw [hsame f j hff (fun h => hne h.1.symm), hj]

/-! ## The way back up -/

/-- The states on the way back up, with the free list: the leaf entry of `v` is cleared, and
a table on its path is freed when none of its entries is present. -/
inductive Reclaims (root v : Nat) (s : Phys) (stack : List Nat) : Phys → List Nat → Prop
  | refl : Reclaims root v s stack s stack
  | clear {s1 : Phys} {stack1 : List Nat} {t : Nat} (hh : Bool) :
      Reclaims root v s stack s1 stack1 → tableAt s1.mem root (tablePath v) = some t →
      Reclaims root v s stack (s1.store (virtOf hh t + 8 * (tableSlot 12 v).val) 0) stack1
  | free {s1 : Phys} {stack1 : List Nat} {p : TablePath} {i : Fin 512} {t f : Nat} (hh : Bool) :
      Reclaims root v s stack s1 stack1 → p ++ [i] ∈ prefixSet (tablePath v) →
      tableAt s1.mem root p = some t → tableAt s1.mem root (p ++ [i]) = some f →
      (∀ j, tableEntry (s1.store (virtOf hh t + 8 * i.val) 0).mem f j &&& Flag.present = 0) →
      Reclaims root v s stack (freePage (s1.store (virtOf hh t + 8 * i.val) 0) f) (f :: stack1)

/-- The effect of clearing the leaf entry of `v` and releasing some tables on its path. -/
structure Unmapped (root : Nat) (s : Phys) (stack : List Nat) (v : Nat) (s' : Phys)
    (stack' : List Nat) : Prop where
  paging : Paging s' root stack'
  view : s'.pmm.isHigherHalf = s.pmm.isHigherHalf
  gone : entryAt s'.mem root (pagePath v) = none
  keep : ∀ p : TablePath, p.length ≤ 4 → entryAt s'.mem root p ≠ none →
    entryAt s'.mem root p = entryAt s.mem root p
  leaves : ∀ p : TablePath, p.length = 4 → p ≠ pagePath v →
    entryAt s'.mem root p = entryAt s.mem root p
  confined : ∀ p : TablePath, p.length ≤ 4 → entryAt s.mem root p ≠ none →
    entryAt s'.mem root p = none → p ∈ prefixSet (pagePath v)
  owned : ∀ a, a ∈ stack' ∨ IsInner s'.mem root a ↔ a ∈ stack ∨ IsInner s.mem root a
  reclaims : Reclaims root v s stack s' stack'

def PathTrimmed (m : Mem) (root v : Nat) : Prop :=
  ∀ p ∈ prefixSet (tablePath v), entryAt m root p ≠ none → ∃ j, entryAt m root (p ++ [j]) ≠ none

theorem unmapped_clearLeaf (h : Paging s root stack)
    (ht : tableAt s.mem root (tablePath v) = some t) (hh : Bool) :
    let s1 := s.store (virtOf hh t + 8 * (tableSlot 12 v).val) 0
    Unmapped root s stack v s1 stack ∧
      ∀ q : TablePath, q.length ≤ 3 → tableAt s1.mem root q = tableAt s.mem root q := by
  have hframe := h.tree.frames _ t (length_tablePath v).le ht
  have hoff := h.tree.off _ t (length_tablePath v).le ht
  have hmem := store_slot (s := s) hframe hh (tableSlot 12 v) 0
  obtain ⟨htree, hedit⟩ := h.tree.setLeaf
    (s.mem.write64 (t + 8 * (tableSlot 12 v).val) 0) (tableSlot 12 v) rfl ht
    (fun b j hb hslot => tableEntry_write_other _ _ hb hframe hslot)
    (tableEntry_write_same _ _ _ (by decide))
  rw [← hmem] at htree hedit
  have hreclaims : Reclaims root v s stack _ stack := .clear hh .refl ht
  obtain ⟨s1, hs1⟩ : ∃ s1, s.store (virtOf hh t + 8 * (tableSlot 12 v).val) 0 = s1 := ⟨_, rfl⟩
  have hfree := h.free.store_slot hframe hoff hh (tableSlot 12 v) 0
  have hview : s1.pmm.isHigherHalf = s.pmm.isHigherHalf := by
    rw [← hs1]
    rfl
  simp only [hs1] at htree hedit hfree hreclaims ⊢
  have hgone : entryAt s1.mem root (pagePath v) = none := by
    rw [hedit _ (length_pagePath v).le]
    exact if_pos rfl
  have hold : ∀ p : TablePath, p.length ≤ 4 → p ≠ pagePath v →
      entryAt s1.mem root p = entryAt s.mem root p :=
    fun p hp hne => by rw [hedit p hp]; exact if_neg hne
  have htable : ∀ q : TablePath, q.length ≤ 3 → tableAt s1.mem root q = tableAt s.mem root q :=
    fun q hq => tableAt_congr (hold q (by omega) (ne_pagePath_of_length hq))
  refine ⟨⟨⟨hfree, htree⟩, hview, hgone, ?_, fun p hp hne => hold p hp.le hne, ?_, ?_,
    hreclaims⟩, htable⟩
  · intro p hp hsome
    exact hold p hp (fun heq => hsome (by rw [heq, hgone]))
  · intro p hp hsome hnone
    by_cases heq : p = pagePath v
    · rw [heq, pagePath, prefixSet_concat]
      exact Finset.mem_insert_self _ _
    · rw [hold p hp heq] at hnone
      exact absurd hnone hsome
  · intro a
    exact or_congr_right (isInner_congr htable)

variable {k : Nat} {stack1 : List Nat} {s1 : Phys}

/-- Releasing an emptied table on the path of `v`. -/
theorem Unmapped.release (h : Unmapped root s stack v s1 stack1) (hp : p.length < 3)
    (hin : p ++ [i] ∈ prefixSet (tablePath v)) (ht : tableAt s1.mem root p = some t)
    (hf : tableAt s1.mem root (p ++ [i]) = some f)
    (hempty : ∀ j, entryAt s1.mem root (p ++ [i] ++ [j]) = none) (hh : Bool) :
    Unmapped root s stack v (releaseTable s1 (virtOf hh t + 8 * i.val)) (f :: stack1) := by
  have hlen : (p ++ [i]).length ≤ 3 := by
    rw [List.length_append, List.length_singleton]
    omega
  have hspec := releaseTable_spec h.paging hp ht hf hempty hh
  generalize releaseTable s1 (virtOf hh t + 8 * i.val) = s2 at hspec ⊢
  obtain ⟨hpaging, hview, hedit, hfreed, hzero⟩ := hspec
  have hnone : entryAt s2.mem root (p ++ [i]) = none := by rw [hedit _ (by omega), if_pos rfl]
  have hold : ∀ q : TablePath, q.length ≤ 4 → q ≠ p ++ [i] →
      entryAt s2.mem root q = entryAt s1.mem root q :=
    fun q hq hne => by rw [hedit q hq, if_neg hne]
  have hne_of_present : ∀ q, entryAt s2.mem root q ≠ none → q ≠ p ++ [i] :=
    fun q hsome heq => hsome (by rw [heq, hnone])
  have hne_of_length : ∀ q : TablePath, q.length = 4 → q ≠ p ++ [i] := by
    rintro q hq rfl
    omega
  refine ⟨hpaging, hview.trans h.view, ?_, ?_, ?_, ?_, ?_, ?_⟩
  · rw [hold _ (length_pagePath v).le (hne_of_length _ (length_pagePath v)), h.gone]
  · intro q hq hsome
    have hstep := hold q hq (hne_of_present q hsome)
    rw [hstep] at hsome ⊢
    exact h.keep q hq hsome
  · intro q hq hne
    rw [hold q hq.le (hne_of_length q hq), h.leaves q hq hne]
  · intro q hq hsome hgone
    by_cases heq : q = p ++ [i]
    · rw [heq, pagePath, prefixSet_concat]
      exact Finset.mem_insert_of_mem hin
    · rw [hold q hq heq] at hgone
      exact h.confined q hq hsome hgone
  · intro a
    rw [← h.owned a]
    simp only [isInner_iff, List.mem_cons]
    rw [tableAt_eq_entryAt (by simp), Option.bind_eq_some_iff] at hf
    obtain ⟨e, he, hdec⟩ := hf
    constructor
    · rintro ((rfl | ha) | ⟨q, hq, e', he', ha⟩)
      · exact .inr ⟨_, hlen, e, he, hdec⟩
      · exact .inl ha
      · have hne := hne_of_present q (by simp [he'])
        exact .inr ⟨q, hq, e', (hold q (by omega) hne).symm.trans he', ha⟩
    · rintro (ha | ⟨q, hq, e', he', ha⟩)
      · exact .inl (.inr ha)
      · by_cases heq : q = p ++ [i]
        · subst heq
          rw [he] at he'
          obtain rfl : e = e' := by simpa using he'
          rw [hdec] at ha
          exact .inl (.inl (Option.some.inj ha).symm)
        · exact .inr ⟨q, hq, e', (hold q (by omega) heq).trans he', ha⟩
  · rw [hfreed]
    exact .free hh h.reclaims hin ht hf hzero

theorem pathTrimmed_of {m : Mem}
    (hend : k = 0 ∨ ∃ j, entryAt m root ((tablePath v).take k ++ [j]) ≠ none)
    (hbelow : ∀ p ∈ prefixSet (tablePath v), k < p.length → entryAt m root p = none) :
    PathTrimmed m root v := by
  intro p hp hsome
  obtain ⟨hne, hpre⟩ := mem_prefixSet.mp hp
  have hpos : 0 < p.length := List.length_pos_iff.mpr hne
  have hle : p.length ≤ k := by
    by_contra hlt
    exact hsome (hbelow p hp (by omega))
  obtain ⟨j, hj⟩ := hend.resolve_left (by omega)
  have hpk : p <+: (tablePath v).take k := by
    rw [List.prefix_iff_eq_take.mp hpre]
    exact List.take_prefix_take_left hle
  obtain ⟨r, hr⟩ := hpk
  cases r with
  | nil =>
    rw [List.append_nil] at hr
    exact ⟨j, hr ▸ hj⟩
  | cons x r =>
    refine ⟨x, RadixTree.present_of_append (q := r ++ [j]) (by simp) ?_⟩
    rw [← hr] at hj
    simpa using hj

theorem pathTrimmed_of_not_empty (h : PageTree s.mem root stack)
    (ht : tableAt s.mem root ((tablePath v).take k) = some t)
    (hfull : ¬ isTableEmpty s (virtOf true t) = true)
    (hbelow : ∀ p ∈ prefixSet (tablePath v), k < p.length → entryAt s.mem root p = none) :
    PathTrimmed s.mem root v := by
  refine pathTrimmed_of (.inr ?_) hbelow
  rw [isTableEmpty_iff h (by simp) ht] at hfull
  exact not_forall.mp hfull

/-- Releasing the emptied table at depth `k + 1`. -/
theorem Unmapped.climb (h : Unmapped root s stack v s1 stack1) (hk : k < 3)
    (hi : (tablePath v).take (k + 1) = (tablePath v).take k ++ [i])
    (ht : tableAt s1.mem root ((tablePath v).take k) = some t)
    (hf : tableAt s1.mem root ((tablePath v).take (k + 1)) = some f)
    (hempty : isTableEmpty s1 (virtOf true f) = true)
    (hbelow : ∀ p ∈ prefixSet (tablePath v), k + 1 < p.length → entryAt s1.mem root p = none)
    (hh : Bool) :
    let s2 := releaseTable s1 (virtOf hh t + 8 * i.val)
    Unmapped root s stack v s2 (f :: stack1) ∧
      (∀ p ∈ prefixSet (tablePath v), k < p.length → entryAt s2.mem root p = none) ∧
      ∀ q : TablePath, q.length ≤ k → tableAt s2.mem root q = tableAt s1.mem root q := by
  have hlen : ((tablePath v).take k).length = k := by
    rw [List.length_take, length_tablePath]
    omega
  have hnone := (isTableEmpty_iff h.paging.tree (by simp) hf true).mp hempty
  have hin : (tablePath v).take k ++ [i] ∈ prefixSet (tablePath v) :=
    mem_prefixSet.mpr ⟨by simp, hi ▸ List.take_prefix (k + 1) _⟩
  rw [hi] at hf hnone
  have hedit := (releaseTable_spec h.paging (by omega) ht hf hnone hh).2.2.1
  refine ⟨h.release (by omega) hin ht hf hnone hh, fun p hp hlong => ?_, fun q hq => ?_⟩
  · have hmax := (mem_prefixSet.mp hp).2.length_le
    rw [length_tablePath] at hmax
    rw [hedit p (by omega)]
    by_cases heq : p.length = k + 1
    · rw [if_pos]
      rw [← hi, ← heq]
      exact List.prefix_iff_eq_take.mp (mem_prefixSet.mp hp).2
    · rw [hbelow p hp (by omega), ite_self]
  · apply tableAt_congr
    rw [hedit q (by omega), if_neg]
    rintro rfl
    rw [List.length_append, hlen, List.length_singleton] at hq
    omega

theorem reclaimTables_spec {pdpt pd pt : Nat} (h : Unmapped root s stack v s1 stack1)
    (hpdpt : tableAt s1.mem root ((tablePath v).take 1) = some pdpt)
    (hpd : tableAt s1.mem root ((tablePath v).take 2) = some pd)
    (hpt : tableAt s1.mem root ((tablePath v).take 3) = some pt) (hh : Bool) :
    let s' := reclaimTables s1 (virtOf hh root + 8 * (tableSlot 39 v).val)
      (virtOf true pdpt) (virtOf true pdpt + 8 * (tableSlot 30 v).val)
      (virtOf true pd) (virtOf true pd + 8 * (tableSlot 21 v).val) (virtOf true pt)
    ∃ stack', Unmapped root s stack v s' stack' ∧ PathTrimmed s'.mem root v := by
  have hbottom : ∀ p ∈ prefixSet (tablePath v), 3 < p.length → entryAt s1.mem root p = none := by
    intro p hp hlong
    have hmax := (mem_prefixSet.mp hp).2.length_le
    rw [length_tablePath] at hmax
    omega
  simp only [reclaimTables]
  by_cases hptEmpty : isTableEmpty s1 (virtOf true pt) = true
  case neg =>
    rw [if_neg hptEmpty]
    exact ⟨stack1, h, pathTrimmed_of_not_empty h.paging.tree hpt hptEmpty hbottom⟩
  rw [if_pos hptEmpty]
  obtain ⟨h2, hgone2, hkeep2⟩ := h.climb (by omega) rfl hpd hpt hptEmpty hbottom true
  generalize releaseTable s1 (virtOf true pd + 8 * (tableSlot 21 v).val) = s2 at h2 hgone2 hkeep2 ⊢
  rw [← hkeep2 _ (by simp)] at hpd hpdpt
  by_cases hpdEmpty : isTableEmpty s2 (virtOf true pd) = true
  case neg =>
    rw [if_neg hpdEmpty]
    exact ⟨_, h2, pathTrimmed_of_not_empty h2.paging.tree hpd hpdEmpty hgone2⟩
  rw [if_pos hpdEmpty]
  obtain ⟨h3, hgone3, hkeep3⟩ := h2.climb (by omega) rfl hpdpt hpd hpdEmpty hgone2 true
  generalize releaseTable s2 (virtOf true pdpt + 8 * (tableSlot 30 v).val) = s3 at h3 hgone3 hkeep3 ⊢
  rw [← hkeep3 _ (by simp)] at hpdpt
  by_cases hpdptEmpty : isTableEmpty s3 (virtOf true pdpt) = true
  case neg =>
    rw [if_neg hpdptEmpty]
    exact ⟨_, h3, pathTrimmed_of_not_empty h3.paging.tree hpdpt hpdptEmpty hgone3⟩
  rw [if_pos hpdptEmpty]
  have hroot : tableAt s3.mem root ((tablePath v).take 0) = some root := rfl
  obtain ⟨h4, hgone4, -⟩ := h3.climb (by omega) rfl hroot hpdpt hpdptEmpty hgone3 hh
  exact ⟨_, h4, pathTrimmed_of (.inl rfl) hgone4⟩

theorem unmapPage_spec (h : Paging s root stack) (v : Nat) (hh : Bool) :
    (entryAt s.mem root (pagePath v) = none ∧ unmapPage s (virtOf hh root) v = (false, s)) ∨
    (entryAt s.mem root (pagePath v) ≠ none ∧ ∃ s' stack',
      unmapPage s (virtOf hh root) v = (true, s') ∧ Unmapped root s stack v s' stack' ∧
        PathTrimmed s'.mem root v) := by
  rcases walkTables_cases h.tree v hh with
    ⟨hnone, hwalk⟩ | ⟨hsome, pdpt, pd, pt, hpdpt, hpd, hpt, hwalk⟩
  · exact .inl ⟨hnone, hwalk _ _ _⟩
  · refine .inr ⟨hsome, ?_⟩
    obtain ⟨hclear, hkeep⟩ := unmapped_clearLeaf h hpt true
    obtain ⟨stack', hun, htrim⟩ := reclaimTables_spec hclear ((hkeep _ (by simp)).trans hpdpt)
      ((hkeep _ (by simp)).trans hpd) ((hkeep _ (by simp)).trans hpt) hh
    exact ⟨_, stack', hwalk _ _ _, hun, htrim⟩

end CrapOs
