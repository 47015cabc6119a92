import CrapOs.MemoryManager.Translation
import Mathlib.Data.List.Perm.Basic

/-! # Table frames over whole runs

A run of `mapPage` and `unmapPage` calls on one PML4 keeps every table below it
in use: each has a present entry. Frames are never lost either, the free list
and the tables together are always the frames that were free at the start, so a
run that has unmapped all it mapped has every frame back.
-/

namespace CrapOs

open Foundation

/-- Every table below the PML4 has a present entry. -/
def Trimmed (m : Mem) (root : Nat) : Prop :=
  ∀ p : TablePath, p.length ≤ 3 → entryAt m root p ≠ none → ∃ j, entryAt m root (p ++ [j]) ≠ none

inductive PagingStep (root : Nat) :
    Phys × Finset TablePath → Phys × Finset TablePath → Prop
  | map {s s' : Phys} {pages : Finset TablePath} (hh : Bool) (v physicalAddr flags : Nat)
      (isUserPage : Bool) : physicalAddr < 2 ^ 64 → flags < 2 ^ 64 →
      mapPage s (virtOf hh root) v physicalAddr flags isUserPage = .ok s' →
      PagingStep root (s, pages) (s', insert (pagePath v) pages)
  | unmap {s : Phys} {pages : Finset TablePath} (hh : Bool) (v : Nat) :
      PagingStep root (s, pages) ((unmapPage s (virtOf hh root) v).2, pages.erase (pagePath v))

/-- The tables are trimmed, the leaves are the mapped pages, and the frames
`frames` are the free ones together with the tables. -/
structure PagingInv (root : Nat) (frames : List Nat) (x : Phys × Finset TablePath)
    (stack : List Nat) : Prop where
  paging : Paging x.1 root stack
  trimmed : Trimmed x.1.mem root
  leaves : ∀ p : TablePath, p.length = 4 → (entryAt x.1.mem root p ≠ none ↔ p ∈ x.2)
  owned : ∀ a, a ∈ stack ∨ IsInner x.1.mem root a ↔ a ∈ frames

variable {root : Nat} {frames stack : List Nat} {s s' : Phys} {pages : Finset TablePath} {v : Nat}

private theorem prefix_next {p : TablePath} (hp : p.length ≤ 3) (hpre : p <+: pagePath v) :
    ∃ j, p ++ [j] ∈ prefixSet (pagePath v) := by
  obtain ⟨r, hr⟩ := hpre
  cases r with
  | nil =>
    have hlen := congrArg List.length hr
    rw [List.append_nil, length_pagePath] at hlen
    omega
  | cons j r => exact ⟨j, mem_prefixSet.mpr ⟨by simp, r, by simpa using hr⟩⟩

private theorem mem_tablePath_of_short {p : TablePath} (hp : p.length ≤ 3)
    (hpre : p ∈ prefixSet (pagePath v)) : p ∈ prefixSet (tablePath v) := by
  rw [pagePath, prefixSet_concat, Finset.mem_insert] at hpre
  exact hpre.resolve_left (ne_pagePath_of_length hp)

theorem PagingInv.map {flags leaf : Nat} {stack' : List Nat}
    (h : PagingInv root frames (s, pages) stack)
    (hmap : Mapped root flags s stack v leaf s' stack') :
    PagingInv root frames (s', insert (pagePath v) pages) stack' where
  paging := hmap.paging
  owned a := (hmap.owned a).trans (h.owned a)
  trimmed := by
    intro p hp hsome
    by_cases hold : entryAt s.mem root p = none
    · obtain ⟨hin, -⟩ := hmap.fresh p (by omega) (ne_pagePath_of_length hp) hold hsome
      have hpre := (mem_prefixSet.mp hin).2.trans (List.prefix_append _ [tableSlot 12 v])
      obtain ⟨j, hj⟩ := prefix_next hp hpre
      exact ⟨j, hmap.exist _ hj⟩
    · obtain ⟨j, hj⟩ := h.trimmed p hp hold
      refine ⟨j, ?_⟩
      by_cases hleaf : p ++ [j] = pagePath v
      · rw [hleaf, hmap.leaf]
        exact Option.some_ne_none leaf
      · rw [hmap.keep (p ++ [j]) (by rw [List.length_append, List.length_singleton]; omega) hleaf hj]
        exact hj
  leaves := by
    intro p hp
    rw [Finset.mem_insert, ← h.leaves p hp]
    by_cases hleaf : p = pagePath v
    · simp [hleaf, hmap.leaf]
    · simp only [hleaf, false_or]
      constructor
      · intro hsome hold
        have hin := (hmap.fresh p hp.le hleaf hold hsome).1
        have hlen := (mem_prefixSet.mp hin).2.length_le
        rw [length_tablePath] at hlen
        omega
      · intro hsome
        rw [hmap.keep p hp.le hleaf hsome]
        exact hsome

theorem PagingInv.unmap {stack' : List Nat} (h : PagingInv root frames (s, pages) stack)
    (hun : Unmapped root s stack v s' stack') (htrim : PathTrimmed s'.mem root v) :
    PagingInv root frames (s', pages.erase (pagePath v)) stack' where
  paging := hun.paging
  owned a := (hun.owned a).trans (h.owned a)
  trimmed := by
    intro p hp hsome
    by_cases hin : p ∈ prefixSet (tablePath v)
    · exact htrim p hin hsome
    · have hkeep := hun.keep p (by omega) hsome
      rw [hkeep] at hsome
      obtain ⟨j, hj⟩ := h.trimmed p hp hsome
      refine ⟨j, fun hgone => hin ?_⟩
      have hlen : (p ++ [j]).length ≤ 4 := by
        rw [List.length_append, List.length_singleton]
        omega
      have hpath := (mem_prefixSet.mp (hun.confined _ hlen hj hgone)).2
      have hne : p ≠ [] := by
        rintro rfl
        exact hsome rfl
      exact mem_tablePath_of_short hp
        (mem_prefixSet.mpr ⟨hne, (List.prefix_append p [j]).trans hpath⟩)
  leaves := by
    intro p hp
    rw [Finset.mem_erase, ← h.leaves p hp]
    by_cases hleaf : p = pagePath v
    · simp [hleaf, hun.gone]
    · rw [hun.leaves p hp hleaf]
      simp [hleaf]

theorem pagingInv_step {x x' : Phys × Finset TablePath}
    (h : ∃ stack, PagingInv root frames x stack) (hs : PagingStep root x x') :
    ∃ stack, PagingInv root frames x' stack := by
  obtain ⟨stack, h⟩ := h
  cases hs with
  | @map s s' pages hh v physicalAddr flags isUserPage hpa hflags hok =>
    rcases mapPage_spec h.paging hh v physicalAddr flags isUserPage hpa hflags with
      ⟨-, herr⟩ | ⟨s1, stack1, hok1, hmapped⟩
    · rw [herr] at hok
      cases hok
    · rw [hok1] at hok
      cases hok
      exact ⟨stack1, h.map hmapped⟩
  | @unmap s pages hh v =>
    rcases unmapPage_spec h.paging v hh with ⟨hnone, hrun⟩ | ⟨-, s', stack', hrun, hun, htrim⟩
    · have hout : pagePath v ∉ pages := fun hin => (h.leaves _ (length_pagePath v)).mpr hin hnone
      rw [hrun, Finset.erase_eq_of_notMem hout]
      exact ⟨stack, h⟩
    · rw [hrun]
      exact ⟨stack', h.unmap hun htrim⟩

theorem Trimmed.leaf {m : Mem} (h : Trimmed m root) (n : Nat) :
    ∀ p : TablePath, p.length + n = 4 → entryAt m root p ≠ none →
      ∃ q : TablePath, q.length = 4 ∧ entryAt m root q ≠ none := by
  induction n with
  | zero => exact fun p hp hsome => ⟨p, hp, hsome⟩
  | succ n ih =>
    intro p hp hsome
    obtain ⟨j, hj⟩ := h p (by omega) hsome
    exact ih (p ++ [j]) (by rw [List.length_append, List.length_singleton]; omega) hj

theorem PagingInv.no_tables (h : PagingInv root frames (s, ∅) stack) (a : Nat) :
    ¬ IsInner s.mem root a := by
  intro hinner
  obtain ⟨p, hp, e, he, -⟩ := isInner_iff.mp hinner
  obtain ⟨q, hq, hsome⟩ := h.trimmed.leaf (4 - p.length) p (by omega) (by simp [he])
  exact absurd ((h.leaves q hq).mp hsome) (Finset.notMem_empty q)

theorem PagingInv.perm (h : PagingInv root frames (s, ∅) stack) (hframes : frames.Nodup) :
    stack.Perm frames := by
  rw [List.perm_ext_iff_of_nodup h.paging.free.nodup hframes]
  intro a
  rw [← h.owned a]
  simp [h.no_tables a]

theorem pagingInv_start {s₀ : Phys} (h₀ : Paging s₀ root frames)
    (hempty : ∀ i, tableEntry s₀.mem root i &&& Flag.present = 0) :
    PagingInv root frames (s₀, ∅) frames := by
  have hnone := entryAt_of_empty hempty
  refine ⟨h₀, fun p _ hsome => absurd (hnone p) hsome, fun p _ => by simp [hnone p], fun a => ?_⟩
  constructor
  · rintro (ha | hinner)
    · exact ha
    · obtain ⟨p, -, e, he, -⟩ := isInner_iff.mp hinner
      rw [hnone p] at he
      cases he
  · exact .inl

theorem pagingInv_run {s₀ : Phys} {x : Phys × Finset TablePath} (h₀ : Paging s₀ root frames)
    (hempty : ∀ i, tableEntry s₀.mem root i &&& Flag.present = 0)
    (h : Reach (· = (s₀, ∅)) (PagingStep root) x) : ∃ stack, PagingInv root frames x stack :=
  h.invariant (fun x => ∃ stack, PagingInv root frames x stack)
    (fun x (hx : x = (s₀, ∅)) => ⟨frames, by rw [hx]; exact pagingInv_start h₀ hempty⟩)
    (fun _ _ => pagingInv_step)

/-- In every run from an empty PML4 each table below it has a present entry, and
once all pages are unmapped the free frames and their count are those of the start. -/
theorem tables_reclaimed {s₀ : Phys} (h₀ : Paging s₀ root frames)
    (hempty : ∀ i, tableEntry s₀.mem root i &&& Flag.present = 0)
    (h : Reach (· = (s₀, ∅)) (PagingStep root) (s, pages)) :
    (∀ (p : TablePath) t, p ≠ [] → p.length ≤ 3 → tableAt s.mem root p = some t →
      ∃ i, tableEntry s.mem t i &&& Flag.present ≠ 0) ∧
    (pages = ∅ → s.pmm.freePages = s₀.pmm.freePages ∧
      (∀ a, ¬ IsInner s.mem root a) ∧ ∃ stack, FreeStack s stack ∧ stack.Perm frames) := by
  obtain ⟨stack, hinv⟩ := pagingInv_run h₀ hempty h
  refine ⟨fun p t hne hp ht => ?_, fun hpages => ?_⟩
  · have hentry : entryAt s.mem root p ≠ none := by
      rw [Ne, RadixTree.present_eq_none_iff hne]
      exact fun hn => by rw [tableAt, hn] at ht; cases ht
    obtain ⟨j, hj⟩ := hinv.trimmed p hp hentry
    refine ⟨j, fun h0 => hj ?_⟩
    rw [entryAt_concat ht, RadixTree.found_eq_none]
    exact decodeEntry_eq_none.mpr h0
  · subst hpages
    have hfree := hinv.paging.free
    have hperm := hinv.perm h₀.free.nodup
    refine ⟨?_, hinv.no_tables, stack, hfree, hperm⟩
    rw [hfree.count, h₀.free.count, hperm.length_eq]

structure TwoPages (s₁ s₂ s₃ s₄ : Phys) : Prop where
  map₁ : mapPage freshTables (virtOf true 0x1000) 0x400000 0x5000 Flag.writable true = .ok s₁
  paging₁ : Paging s₁ 0x1000 []
  map₂ : mapPage s₁ (virtOf true 0x1000) 0x401000 0x5000 Flag.writable true = .ok s₂
  paging₂ : Paging s₂ 0x1000 []
  unmap₁ : unmapPage s₂ (virtOf true 0x1000) 0x400000 = (true, s₃)
  unmap₂ : unmapPage s₃ (virtOf true 0x1000) 0x401000 = (true, s₄)

theorem freshTables_empty (i : Fin 512) : tableEntry freshTables.mem 0x1000 i &&& Flag.present = 0 := by
  rw [freshTables_pml4 i]
  rfl

theorem missing_freshTables : missing freshTables.mem 0x1000 (tablePath 0x400000) = 3 := by
  rw [missing, Finset.filter_true_of_mem fun p _ => entryAt_of_empty freshTables_empty p]
  decide

theorem exists_twoPages : ∃ s₁ s₂ s₃ s₄, TwoPages s₁ s₂ s₃ s₄ := by
  rcases mapPage_spec freshTables_paging true 0x400000 0x5000 Flag.writable true (by decide)
    (by decide) with ⟨hshort, -⟩ | ⟨s₁, stack₁, hok₁, h₁⟩
  · exact absurd hshort (Nat.not_lt.mpr (Finset.card_filter_le _ _))
  have hstack₁ : stack₁ = [] := by rw [h₁.taken, missing_freshTables]; rfl
  subst hstack₁
  rcases mapPage_spec h₁.paging true 0x401000 0x5000 Flag.writable true (by decide)
    (by decide) with ⟨hshort, -⟩ | ⟨s₂, stack₂, hok₂, h₂⟩
  · have hnone : missing s₁.mem 0x1000 (tablePath 0x401000) = 0 := by
      rw [missing, Finset.card_eq_zero, Finset.filter_eq_empty_iff]
      intro p hp
      apply h₁.exist
      rw [pagePath, prefixSet_concat]
      exact Finset.mem_insert_of_mem hp
    omega
  have hstack₂ : stack₂ = [] := by rw [h₂.taken, List.drop_nil]
  subst hstack₂
  have hkept : entryAt s₂.mem 0x1000 (pagePath 0x400000) ≠ none := by
    rw [h₂.keep _ (by simp) (by decide) (by simp [h₁.leaf]), h₁.leaf]
    exact Option.some_ne_none _
  rcases unmapPage_spec h₂.paging 0x400000 true with ⟨hnone, -⟩ | ⟨-, s₃, stack₃, hrun₃, h₃, -⟩
  · exact absurd hnone hkept
  rcases unmapPage_spec h₃.paging 0x401000 true with ⟨hnone, -⟩ | ⟨-, s₄, stack₄, hrun₄, -, -⟩
  · rw [h₃.leaves _ (by simp) (by decide), h₂.leaf] at hnone
    cases hnone
  exact ⟨s₁, s₂, s₃, s₄, hok₁, h₁.paging, hok₂, h₂.paging, hrun₃, hrun₄⟩

theorem TwoPages.reach {s₁ s₂ s₃ s₄ : Phys} (h : TwoPages s₁ s₂ s₃ s₄) :
    Reach (· = (freshTables, ∅)) (PagingStep 0x1000) (s₄, ∅) := by
  have hmapped : Reach (· = (freshTables, ∅)) (PagingStep 0x1000) (s₂, _) := .step (.step (.start rfl)
    (.map true 0x400000 0x5000 Flag.writable true (by decide) (by decide) h.map₁))
    (.map true 0x401000 0x5000 Flag.writable true (by decide) (by decide) h.map₂)
  have hunmapped := (hmapped.step (.unmap true 0x400000)).step (.unmap true 0x401000)
  rw [h.unmap₁, h.unmap₂] at hunmapped
  exact hunmapped

theorem TwoPages.inv {s₁ s₂ s₃ s₄ : Phys} (h : TwoPages s₁ s₂ s₃ s₄) :
    ∃ stack, PagingInv 0x1000 [0x4000, 0x3000, 0x2000] (s₄, ∅) stack :=
  pagingInv_run freshTables_paging freshTables_empty h.reach

theorem tables_reclaimed_of_freshTables : ∃ s,
    Reach (· = (freshTables, ∅)) (PagingStep 0x1000) (s, ∅) ∧
    s.pmm.freePages = 3 ∧ ∃ stack, FreeStack s stack ∧ stack.Perm [0x4000, 0x3000, 0x2000] := by
  obtain ⟨s₁, s₂, s₃, s₄, htwo⟩ := exists_twoPages
  have hend := (tables_reclaimed freshTables_paging freshTables_empty htwo.reach).2 rfl
  exact ⟨s₄, htwo.reach, hend.1.trans freshTables_free.count, hend.2.2⟩

/-- `mapPage` and `unmapPage` on `v` leave the walk of every other page and the
separation of the tables from the free list; a table is freed only when none of
its entries is present. -/
theorem mapPage_unmapPage_frame (h : Paging s root stack) (hh : Bool) (hv : IsCanonical v) :
    (∀ physicalAddr flags isUserPage s', physicalAddr < 2 ^ 64 → flags < 2 ^ 64 →
      mapPage s (virtOf hh root) v physicalAddr flags isUserPage = .ok s' →
      ∃ stack', Paging s' root stack' ∧
        ∀ w, IsCanonical w → w / pageSize ≠ v / pageSize →
          walk s'.mem root w = walk s.mem root w ∧
          ∀ p ∈ prefixSet (pagePath w), entryAt s.mem root p ≠ none →
            entryAt s'.mem root p = entryAt s.mem root p) ∧
    ∃ found s' stack', unmapPage s (virtOf hh root) v = (found, s') ∧ Paging s' root stack' ∧
      (∀ w, IsCanonical w → w / pageSize ≠ v / pageSize →
        walk s'.mem root w = walk s.mem root w) ∧
      (∀ a ∈ stack', a ∉ stack → IsInner s.mem root a) ∧ Reclaims root v s stack s' stack' := by
  have hother : ∀ w, IsCanonical w → w / pageSize ≠ v / pageSize → pagePath w ≠ pagePath v :=
    fun w hw hne heq => hne (page_eq_of_pagePath hw hv heq)
  refine ⟨fun physicalAddr flags isUserPage s' hpa hflags hok => ?_, ?_⟩
  · rcases mapPage_spec h hh v physicalAddr flags isUserPage hpa hflags with
      ⟨-, herr⟩ | ⟨s1, stack1, hok1, hmapped⟩
    · rw [herr] at hok
      cases hok
    · rw [hok1] at hok
      cases hok
      refine ⟨stack1, hmapped.paging, fun w hw hne => ⟨hmapped.walk_eq (hother w hw hne), ?_⟩⟩
      exact fun p hp hsome => hmapped.keep p (length_of_mem_prefixSet hp)
        (ne_pagePath_of_mem_prefixSet (hother w hw hne) hp) hsome
  · rcases unmapPage_spec h v hh with ⟨-, hrun⟩ | ⟨-, s', stack', hrun, hun, -⟩
    · exact ⟨false, s, stack, hrun, h, fun _ _ _ => rfl, fun a ha hna => absurd ha hna, .refl⟩
    · refine ⟨true, s', stack', hrun, hun.paging, fun w hw hne => hun.walk_eq (hother w hw hne),
        fun a ha hna => ?_, hun.reclaims⟩
      exact ((hun.owned a).mp (.inl ha)).resolve_left hna

/-- The second unmapping frees the three tables the pages shared. -/
theorem mapPage_unmapPage_frame_of_freshTables : ∃ s₁ s₂ s₃ s₄ stack₃ stack₄,
    mapPage freshTables (virtOf true 0x1000) 0x400000 0x5000 Flag.writable true = .ok s₁ ∧
    mapPage s₁ (virtOf true 0x1000) 0x401000 0x5000 Flag.writable true = .ok s₂ ∧
    walk s₂.mem 0x1000 0x400000 = walk s₁.mem 0x1000 0x400000 ∧
    unmapPage s₂ (virtOf true 0x1000) 0x400000 = (true, s₃) ∧
    walk s₃.mem 0x1000 0x401000 = walk s₂.mem 0x1000 0x401000 ∧
    Reclaims 0x1000 0x400000 s₂ [] s₃ stack₃ ∧
    unmapPage s₃ (virtOf true 0x1000) 0x401000 = (true, s₄) ∧
    Reclaims 0x1000 0x401000 s₃ stack₃ s₄ stack₄ ∧ stack₄.Perm [0x4000, 0x3000, 0x2000] := by
  have hcan : IsCanonical 0x400000 := .inl (by decide)
  have hcan' : IsCanonical 0x401000 := .inl (by decide)
  obtain ⟨s₁, s₂, s₃, s₄, htwo⟩ := exists_twoPages
  obtain ⟨-, -, hwalk₂⟩ := (mapPage_unmapPage_frame htwo.paging₁ true hcan').1 _ _ _ s₂ (by decide)
    (by decide) htwo.map₂
  obtain ⟨-, _, _, stack₃, hrun₃, hpaging₃, hwalk₃, -, hreclaims₃⟩ :=
    mapPage_unmapPage_frame htwo.paging₂ true hcan
  cases htwo.unmap₁.symm.trans hrun₃
  obtain ⟨-, _, _, stack₄, hrun₄, hpaging₄, -, -, hreclaims₄⟩ :=
    mapPage_unmapPage_frame hpaging₃ true hcan'
  cases htwo.unmap₂.symm.trans hrun₄
  obtain ⟨stack, hinv⟩ := htwo.inv
  rw [hpaging₄.free.unique hinv.paging.free] at hreclaims₄
  exact ⟨s₁, s₂, s₃, s₄, stack₃, stack, htwo.map₁, htwo.map₂,
    (hwalk₂ 0x400000 hcan (by decide)).1, htwo.unmap₁, hwalk₃ 0x401000 hcan' (by decide),
    hreclaims₃, htwo.unmap₂, hreclaims₄, hinv.perm freshTables_free.nodup⟩

end CrapOs
