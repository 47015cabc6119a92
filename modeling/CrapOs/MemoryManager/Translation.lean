import CrapOs.MemoryManager.UnmapPage

/-! # Translation before and after a change of the tables

`walk` is what the hardware sees of an address: the four entries on its path,
if all are present. `getPhysicalAddr` reads the walk; `mapPage` and `unmapPage`
change the walk of one page only.
-/

namespace CrapOs

open Foundation

structure Walk where
  pml4e : Nat
  pdpte : Nat
  pde : Nat
  pte : Nat
deriving DecidableEq, Repr

def walk (m : Mem) (root v : Nat) : Option Walk := do
  let pml4e ← entryAt m root ((pagePath v).take 1)
  let pdpte ← entryAt m root ((pagePath v).take 2)
  let pde ← entryAt m root ((pagePath v).take 3)
  let pte ← entryAt m root (pagePath v)
  pure ⟨pml4e, pdpte, pde, pte⟩

def IsCanonical (v : Nat) : Prop := v < 2 ^ 47 ∨ (2 ^ 64 - 2 ^ 47 ≤ v ∧ v < 2 ^ 64)

theorem page_eq_of_pagePath {v w : Nat} (hv : IsCanonical v) (hw : IsCanonical w)
    (h : pagePath v = pagePath w) : v / pageSize = w / pageSize := by
  simp only [pagePath, tablePath, List.cons_append, List.nil_append, List.cons.injEq, tableSlot,
    Fin.mk.injEq, tableIndex_eq] at h
  simp only [IsCanonical, pageSize] at *
  omega

theorem pagePath_add {v o : Nat} (hv : v % pageSize = 0) (ho : o < pageSize) :
    pagePath (v + o) = pagePath v := by
  simp only [pageSize] at hv ho
  simp only [pagePath, tablePath, List.cons_append, List.nil_append, List.cons.injEq, tableSlot,
    Fin.mk.injEq, tableIndex_eq, and_true]
  omega

variable {s : Phys} {root v : Nat} {stack : List Nat}

private theorem take_prefixSet (v : Nat) {k : Nat} (hk : 0 < k) :
    (pagePath v).take k ∈ prefixSet (pagePath v) := by
  refine mem_prefixSet.mpr ⟨fun hnil => ?_, List.take_prefix k _⟩
  have hlen := congrArg List.length hnil
  rw [List.length_take, length_pagePath, List.length_nil] at hlen
  omega

theorem walk_eq_none {m : Mem} : walk m root v = none ↔ entryAt m root (pagePath v) = none := by
  constructor
  · intro hwalk
    by_contra hsome
    have habove : ∀ k, 0 < k → ∃ e, entryAt m root ((pagePath v).take k) = some e := by
      intro k hk
      apply Option.ne_none_iff_exists'.mp
      obtain ⟨hne, r, hr⟩ := mem_prefixSet.mp (take_prefixSet v hk)
      exact RadixTree.present_of_append hne (hr ▸ hsome)
    obtain ⟨e1, h₁⟩ := habove 1 (by omega)
    obtain ⟨e2, h₂⟩ := habove 2 (by omega)
    obtain ⟨e3, h₃⟩ := habove 3 (by omega)
    obtain ⟨e4, h₄⟩ := Option.ne_none_iff_exists'.mp hsome
    rw [walk, h₁, h₂, h₃, h₄] at hwalk
    cases hwalk
  · intro hnone
    rw [walk, hnone]
    simp

theorem walk_congr {m m' : Mem}
    (h : ∀ p ∈ prefixSet (pagePath v), entryAt m' root p = entryAt m root p) :
    walk m' root v = walk m root v := by
  have htake : ∀ k, 0 < k → entryAt m' root ((pagePath v).take k) =
      entryAt m root ((pagePath v).take k) := fun k hk => h _ (take_prefixSet v hk)
  have hleaf := htake 4 (by omega)
  rw [List.take_of_length_le (length_pagePath v).le] at hleaf
  rw [walk, walk, htake 1 (by omega), htake 2 (by omega), htake 3 (by omega), hleaf]

theorem getPhysicalAddr_eq (h : PageTree s.mem root stack) (hh : Bool) (v : Nat) :
    getPhysicalAddr s (virtOf hh root) v =
      (entryAt s.mem root (pagePath v)).map fun pte => (pte &&& pageMask) ||| (v &&& 0xFFF) := by
  rcases walkTables_cases h v hh with ⟨hnone, hwalk⟩ | ⟨hsome, pdpt, pd, pt, -, -, hpt, hwalk⟩
  · rw [getPhysicalAddr, hwalk, hnone]
    rfl
  · have hframe := h.frames _ pt (length_tablePath v).le hpt
    have hentry := entryAt_concat hpt (tableSlot 12 v)
    change entryAt s.mem root (pagePath v) = _ at hentry
    rw [hentry] at hsome ⊢
    obtain ⟨u, hu⟩ := Option.ne_none_iff_exists'.mp
      (fun hn => hsome (RadixTree.found_eq_none.mpr hn))
    simp only [getPhysicalAddr, hwalk, ptIndex_eq, load_slot hframe, RadixTree.found_of_decode hu,
      Option.map_some]

def kernelFlags : Nat :=
  Flag.present ||| Flag.writable ||| Flag.user ||| Flag.pwt ||| Flag.pcd ||| Flag.nx

def IsKernelFlags (flags : Nat) : Prop := flags &&& kernelFlags = flags

theorem kernelFlags_cases {flags : Nat} (h : IsKernelFlags flags) :
    (flags &&& Flag.nx = 0 ∧ flags < 32) ∨
      (flags &&& Flag.nx ≠ 0 ∧ 2 ^ 63 ≤ flags ∧ flags < 2 ^ 64) := by
  have hsplit : flags = (flags &&& 31) ||| (flags &&& Flag.nx) := by
    rw [← Nat.and_or_distrib_left]
    exact h.symm
  by_cases hnx : flags &&& Flag.nx = 0
  · refine .inl ⟨hnx, ?_⟩
    rw [hnx, Nat.or_zero] at hsplit
    have hle : flags &&& 31 ≤ 31 := Nat.and_le_right
    omega
  · refine .inr ⟨hnx, ?_, ?_⟩
    · have hbit : flags &&& 2 ^ 63 = (flags.testBit 63).toNat * 2 ^ 63 := Nat.and_two_pow flags 63
      have hne : flags &&& 2 ^ 63 ≠ 0 := hnx
      have hle : flags &&& 2 ^ 63 ≤ flags := Nat.and_le_left
      cases hb : flags.testBit 63 with
      | false =>
        rw [hbit, hb] at hne
        exact absurd (Nat.zero_mul _) hne
      | true =>
        rw [hbit, hb] at hle
        simpa using hle
    · have hle : flags &&& kernelFlags ≤ kernelFlags := Nat.and_le_right
      rw [h] at hle
      exact Nat.lt_of_le_of_lt hle (by decide)

theorem leaf_translation {leaf v o : Nat} (hleaf : leaf < 2 ^ 64) (hv : v % pageSize = 0)
    (ho : o < pageSize) :
    (leaf &&& pageMask) ||| (v + o &&& 0xFFF) = pageSize * (leaf / pageSize) + o := by
  have hoff : v + o &&& 0xFFF = o := by
    show v + o &&& 2 ^ 12 - 1 = o
    rw [Nat.and_two_pow_sub_one_eq_mod]
    simp only [pageSize] at hv ho
    omega
  rw [hoff, and_pageMask hleaf]
  exact or_eq_add_of_dvd (k := 12) (Nat.dvd_mul_right _ _) ho

theorem leafEntry_frame {p flags : Nat} (hal : p % pageSize = 0) (hp : p < 2 ^ 52)
    (hlow : flags < 32) : pageSize * (leafEntry p flags / pageSize) = p := by
  have hbits : flags ||| Flag.present < 2 ^ 5 := Nat.or_lt_two_pow hlow (by decide)
  rw [leafEntry, and_pageMask (by omega), Nat.mul_div_cancel' (Nat.dvd_of_mod_eq_zero hal),
    Nat.or_assoc, or_eq_add_of_dvd (k := 12) (Nat.dvd_of_mod_eq_zero hal) (by omega)]
  simp only [pageSize] at hal ⊢
  omega

theorem leafEntry_ge {p flags : Nat} (hflags : 2 ^ 63 ≤ flags) : 2 ^ 63 ≤ leafEntry p flags := by
  rw [leafEntry, Nat.or_assoc, Nat.or_comm, Nat.or_assoc]
  exact Nat.le_trans hflags Nat.left_le_or

theorem getPhysicalAddr_mapped {flags leaf : Nat} {s' : Phys} {stack' : List Nat} {o : Nat}
    (h : Mapped root flags s stack v leaf s' stack') (hleaf : leaf < 2 ^ 64)
    (hv : v % pageSize = 0) (ho : o < pageSize) (hh : Bool) :
    getPhysicalAddr s' (virtOf hh root) (v + o) = some (pageSize * (leaf / pageSize) + o) := by
  rw [getPhysicalAddr_eq h.paging.tree, pagePath_add hv ho, h.leaf, Option.map_some,
    leaf_translation hleaf hv ho]

/-- `mapPage` returns exactly if the free list covers the missing tables; then the
page translates to its frame exactly if the no-execute flag was not asked for. -/
theorem mapPage_translates_iff (h : Paging s root stack) (hh : Bool) {p flags : Nat}
    (isUserPage : Bool) (hv : v % pageSize = 0) (hal : p % pageSize = 0) (hp : p < 2 ^ 52)
    (hflags : IsKernelFlags flags) :
    ((∃ s', mapPage s (virtOf hh root) v p flags isUserPage = .ok s') ↔
      missing s.mem root (tablePath v) ≤ stack.length) ∧
    ∀ s', mapPage s (virtOf hh root) v p flags isUserPage = .ok s' →
      ((∀ o, o < pageSize → getPhysicalAddr s' (virtOf hh root) (v + o) = some (p + o)) ↔
        flags &&& Flag.nx = 0) := by
  have hp64 : p < 2 ^ 64 := by omega
  have hf64 : flags < 2 ^ 64 := by
    rcases kernelFlags_cases hflags with ⟨-, hlow⟩ | ⟨-, -, hlt⟩ <;> omega
  have hleaf := leafEntry_lt hp64 hf64
  rcases mapPage_spec h hh v p flags isUserPage hp64 hf64 with
    ⟨hshort, herr⟩ | ⟨s1, stack1, hok, hmapped⟩
  · rw [herr]
    refine ⟨⟨fun hex => ?_, fun henough => by omega⟩, fun s' hs' => ?_⟩
    · obtain ⟨s', hs'⟩ := hex
      cases hs'
    · cases hs'
  · rw [hok]
    refine ⟨⟨fun _ => hmapped.enough, fun _ => ⟨s1, rfl⟩⟩, fun s' hs' => ?_⟩
    cases hs'
    constructor
    · intro htrans
      by_contra hnx
      obtain ⟨-, hhigh, -⟩ := (kernelFlags_cases hflags).resolve_left (fun h => hnx h.1)
      have h0 := htrans 0 (by decide)
      rw [getPhysicalAddr_mapped hmapped hleaf hv (by decide), Option.some.injEq] at h0
      have hge := leafEntry_ge (p := p) hhigh
      simp only [pageSize] at h0
      omega
    · intro hnx o ho
      obtain ⟨-, hlow⟩ := (kernelFlags_cases hflags).resolve_right (fun h => h.1 hnx)
      rw [getPhysicalAddr_mapped hmapped hleaf hv ho, leafEntry_frame hal hp hlow]

def freshTables : Phys := stocked 3

theorem freshTables_free : FreeStack freshTables [0x4000, 0x3000, 0x2000] :=
  stocked_free (by decide)

theorem freshTables_pml4 (i : Fin 512) : tableEntry freshTables.mem 0x1000 i = 0 :=
  stocked_pml4 (by decide) i

theorem freshTables_paging : Paging freshTables 0x1000 [0x4000, 0x3000, 0x2000] :=
  stocked_paging (by decide)

/-- Mapping with the no-execute flag: the translation carries bit 63. -/
theorem mapPage_nx_mistranslates : ∃ s', mapPage freshTables (virtOf true 0x1000) 0x400000 0x5000
      (Flag.present ||| Flag.writable ||| Flag.nx) true = .ok s' ∧
    getPhysicalAddr s' (virtOf true 0x1000) 0x400000 = some 0x8000000000005000 ∧
    getPhysicalAddr s' (virtOf true 0x1000) 0x400000 ≠ some 0x5000 := by
  rcases mapPage_spec freshTables_paging true 0x400000 0x5000
    (Flag.present ||| Flag.writable ||| Flag.nx) true (by decide) (by decide) with ⟨hshort, -⟩ | ⟨s', stack', hok, hmapped⟩
  · have hle : missing freshTables.mem 0x1000 (tablePath 0x400000) ≤ 3 :=
      Finset.card_filter_le _ _
    exact absurd hshort (by simp; omega)
  · have htrans := getPhysicalAddr_mapped (o := 0) hmapped (by decide) (by decide) (by decide) true
    refine ⟨s', hok, htrans, ?_⟩
    rw [htrans]
    decide

theorem mapPage_translates_iff_of_freshTables :
    ((∃ s', mapPage freshTables (virtOf true 0x1000) 0x400000 0x5000
      (Flag.present ||| Flag.writable) true = .ok s') ↔
      missing freshTables.mem 0x1000 (tablePath 0x400000) ≤ 3) ∧
    ∀ s', mapPage freshTables (virtOf true 0x1000) 0x400000 0x5000
        (Flag.present ||| Flag.writable) true = .ok s' →
      ((∀ o, o < pageSize → getPhysicalAddr s' (virtOf true 0x1000) (0x400000 + o) =
        some (0x5000 + o)) ↔ (Flag.present ||| Flag.writable) &&& Flag.nx = 0) :=
  mapPage_translates_iff freshTables_paging true true (by decide) (by decide) (by decide) (by
    unfold IsKernelFlags
    decide)

variable {w : Nat}

private theorem present_of_mem_prefixSet {m : Mem} {p : TablePath}
    (hsome : entryAt m root (pagePath w) ≠ none) (hp : p ∈ prefixSet (pagePath w)) :
    entryAt m root p ≠ none := by
  obtain ⟨hne, r, hr⟩ := mem_prefixSet.mp hp
  rw [← hr] at hsome
  exact RadixTree.present_of_append hne hsome

theorem ne_pagePath_of_mem_prefixSet {p : TablePath} (hw : pagePath w ≠ pagePath v)
    (hp : p ∈ prefixSet (pagePath w)) : p ≠ pagePath v := by
  rintro rfl
  exact hw ((mem_prefixSet.mp hp).2.eq_of_length (by simp)).symm

theorem length_of_mem_prefixSet {p : TablePath} (hp : p ∈ prefixSet (pagePath w)) :
    p.length ≤ 4 := (mem_prefixSet.mp hp).2.length_le

theorem Mapped.walk_eq {flags leaf : Nat} {s' : Phys} {stack' : List Nat}
    (h : Mapped root flags s stack v leaf s' stack') (hw : pagePath w ≠ pagePath v) :
    walk s'.mem root w = walk s.mem root w := by
  by_cases hleaf : entryAt s.mem root (pagePath w) = none
  · have hleaf' : entryAt s'.mem root (pagePath w) = none := by
      by_contra hsome
      have hin := (h.fresh _ (length_pagePath w).le hw hleaf hsome).1
      have hlen := (mem_prefixSet.mp hin).2.length_le
      rw [length_pagePath, length_tablePath] at hlen
      omega
    rw [walk_eq_none.mpr hleaf, walk_eq_none.mpr hleaf']
  · exact walk_congr fun p hp => h.keep p (length_of_mem_prefixSet hp)
      (ne_pagePath_of_mem_prefixSet hw hp) (present_of_mem_prefixSet hleaf hp)

theorem Unmapped.walk_eq {s' : Phys} {stack' : List Nat}
    (h : Unmapped root s stack v s' stack') (hw : pagePath w ≠ pagePath v) :
    walk s'.mem root w = walk s.mem root w := by
  have hleaf := h.leaves (pagePath w) (length_pagePath w) hw
  by_cases hnone : entryAt s'.mem root (pagePath w) = none
  · rw [walk_eq_none.mpr hnone, walk_eq_none.mpr (hleaf.symm.trans hnone)]
  · exact walk_congr fun p hp => h.keep p (length_of_mem_prefixSet hp)
      (present_of_mem_prefixSet hnone hp)

end CrapOs
