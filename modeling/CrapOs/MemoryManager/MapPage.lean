import CrapOs.MemoryManager.PageTree

/-! # Mapping a page

`getOrCreateTable` either follows a present entry or takes a frame from the
free list, clears it and hangs it into the tree. `Grown` collects what any
number of such steps along one path do to the tree and to the free list, and
`mapPage` is three of them and a leaf entry.
-/

namespace CrapOs

open Foundation

/-- A state whose free list is `stack` and whose tables below `root` avoid it. -/
structure Paging (s : Phys) (root : Nat) (stack : List Nat) : Prop where
  free : FreeStack s stack
  tree : PageTree s.mem root stack

def IsInner (m : Mem) (root a : Nat) : Prop :=
  ∃ p : TablePath, p ≠ [] ∧ p.length ≤ 3 ∧ tableAt m root p = some a

/-- The nonempty prefixes of a path: the entries a walk along it reads. -/
def prefixSet (p : TablePath) : Finset TablePath := (p.inits.filter (· ≠ [])).toFinset

theorem mem_prefixSet {p q : TablePath} : q ∈ prefixSet p ↔ q ≠ [] ∧ q <+: p := by
  simp [prefixSet, and_comm]

theorem prefixSet_concat (p : TablePath) (i : Fin 512) :
    prefixSet (p ++ [i]) = insert (p ++ [i]) (prefixSet p) := by
  ext q
  simp only [Finset.mem_insert, mem_prefixSet, List.prefix_concat_iff]
  constructor
  · rintro ⟨hne, heq | hpre⟩
    · exact .inl heq
    · exact .inr ⟨hne, hpre⟩
  · rintro (rfl | ⟨hne, hpre⟩)
    · exact ⟨by simp, .inl rfl⟩
    · exact ⟨hne, .inr hpre⟩

theorem concat_not_mem_prefixSet (p : TablePath) (i : Fin 512) : p ++ [i] ∉ prefixSet p := by
  intro h
  have hlen := (mem_prefixSet.mp h).2.length_le
  rw [List.length_append, List.length_singleton] at hlen
  omega

/-- The number of absent entries on the way down a path. -/
def missing (m : Mem) (root : Nat) (p : TablePath) : Nat :=
  ((prefixSet p).filter (fun q => entryAt m root q = none)).card

theorem missing_concat (m : Mem) (root : Nat) (p : TablePath) (i : Fin 512) :
    missing m root (p ++ [i]) =
      missing m root p + if entryAt m root (p ++ [i]) = none then 1 else 0 := by
  rw [missing, prefixSet_concat, Finset.filter_insert]
  by_cases h : entryAt m root (p ++ [i]) = none
  · rw [if_pos h, if_pos h, Finset.card_insert_of_notMem]
    · rfl
    · intro hin
      exact concat_not_mem_prefixSet p i (Finset.mem_filter.mp hin).1
  · rw [if_neg h, if_neg h]
    rfl

theorem entryAt_of_tableAt {m : Mem} {root t : Nat} {p q : TablePath}
    (ht : tableAt m root p = some t) (hq : q ∈ prefixSet p) : entryAt m root q ≠ none := by
  obtain ⟨hne, r, rfl⟩ := mem_prefixSet.mp hq
  apply RadixTree.present_of_append hne (q := r)
  intro hnone
  rw [RadixTree.present_eq_none_iff (by simp [hne])] at hnone
  rw [tableAt, hnone] at ht
  cases ht

theorem missing_of_tableAt {m : Mem} {root t : Nat} {p : TablePath}
    (ht : tableAt m root p = some t) : missing m root p = 0 := by
  rw [missing, Finset.card_eq_zero, Finset.filter_eq_empty_iff]
  exact fun q hq => entryAt_of_tableAt ht hq

/-- The effect of making the tables along `path` exist. -/
structure Grown (root flags : Nat) (s : Phys) (stack : List Nat) (path : TablePath) (s' : Phys)
    (stack' : List Nat) : Prop where
  paging : Paging s' root stack'
  view : s'.pmm.isHigherHalf = s.pmm.isHigherHalf
  keep : ∀ p : TablePath, p.length ≤ 4 → entryAt s.mem root p ≠ none →
    entryAt s'.mem root p = entryAt s.mem root p
  fresh : ∀ p : TablePath, p.length ≤ 4 → entryAt s.mem root p = none →
    entryAt s'.mem root p ≠ none →
      p ∈ prefixSet path ∧ ∃ f ∈ stack, entryAt s'.mem root p = some (f ||| flags)
  exist : ∀ p ∈ prefixSet path, entryAt s'.mem root p ≠ none
  owned : ∀ a, a ∈ stack' ∨ IsInner s'.mem root a ↔ a ∈ stack ∨ IsInner s.mem root a
  enough : missing s.mem root path ≤ stack.length
  taken : stack' = stack.drop (missing s.mem root path)

variable {s : Phys} {root t u f flags : Nat} {stack : List Nat} {p : TablePath} {i : Fin 512}

theorem FreeStack.store_slot (h : FreeStack s stack) (ht : IsFrame t) (hoff : t ∉ stack)
    (hh : Bool) (i : Fin 512) (v : Nat) :
    FreeStack (s.store (virtOf hh t + 8 * i.val) v) stack := by
  refine h.congr rfl rfl (fun a ha => ?_)
  rw [CrapOs.store_slot ht]
  apply Mem.write64_agreeOn
  rcases ht.apart (h.frames a ha) (fun heq => hoff (heq ▸ ha)) with hlow | hhigh
  · simp only [pageSize] at hlow
    omega
  · simp only [pageSize] at hhigh
    omega

theorem getOrCreateTable_present (h : Paging s root stack) (hp : p.length < 3)
    (ht : tableAt s.mem root p = some t) (hu : tableAt s.mem root (p ++ [i]) = some u) (hh : Bool) :
    getOrCreateTable s (virtOf hh t) i.val flags =
      .ok (virtOf s.pmm.isHigherHalf u, s) := by
  have hload := load_slot (s := s) (h.tree.frames p t (by omega) ht) hh i
  rw [tableAt_concat ht i] at hu
  have hbit : tableEntry s.mem t i &&& Flag.present ≠ 0 := by
    intro h0
    rw [decodeEntry_eq_none.mpr h0] at hu
    cases hu
  rw [decodeEntry_of_present hbit] at hu
  simp only [getOrCreateTable, hload, if_neg hbit, pure_bind, Option.some.inj hu]
  rfl

theorem getOrCreateTable_oom (h : Paging s root []) (hp : p.length < 3)
    (ht : tableAt s.mem root p = some t) (habs : entryAt s.mem root (p ++ [i]) = none)
    (hh : Bool) : getOrCreateTable s (virtOf hh t) i.val flags =
      .error (.panic "[CRITICAL] OOM during page table walk!") := by
  have hload := load_slot (s := s) (h.tree.frames p t (by omega) ht) hh i
  rw [entryAt_concat ht i, RadixTree.found_eq_none, decodeEntry_eq_none] at habs
  simp only [getOrCreateTable, hload, if_pos habs, allocPage_empty h.free]
  rfl

theorem getOrCreateTable_create (h : Paging s root (f :: stack)) (hp : p.length < 3)
    (ht : tableAt s.mem root p = some t) (habs : entryAt s.mem root (p ++ [i]) = none)
    (hlow : flags < pageSize) (hbit : flags &&& Flag.present ≠ 0) (hh : Bool) :
    ∃ s', getOrCreateTable s (virtOf hh t) i.val flags = .ok (virtOf s.pmm.isHigherHalf f, s') ∧
      Paging s' root stack ∧ s'.pmm.isHigherHalf = s.pmm.isHigherHalf ∧
      ∀ q : TablePath, q.length ≤ 4 → entryAt s'.mem root q =
        if q = p ++ [i] then some (f ||| flags) else entryAt s.mem root q := by
  have hframe := h.tree.frames p t (by omega) ht
  have hoff := h.tree.off p t (by omega) ht
  have hf := h.free.frames f List.mem_cons_self
  have hfree : f ∉ stack := (List.nodup_cons.mp h.free.nodup).1
  have htf : t ≠ f := fun heq => hoff (heq ▸ List.mem_cons_self)
  obtain ⟨htop, hpop⟩ := allocPage_spec h.free
  -- the states after the frame is taken, cleared and linked
  obtain ⟨s1, halloc⟩ : ∃ s1, allocPage s = (some f, s1) := ⟨_, Prod.ext htop rfl⟩
  have hmem1 : s1.mem = s.mem := by rw [← allocPage_mem s, halloc]
  have hview1 : s1.pmm.isHigherHalf = s.pmm.isHigherHalf := by
    rw [← allocPage_isHigherHalf s, halloc]
  rw [halloc] at hpop
  obtain ⟨s2, hzero⟩ : ∃ s2, zeroOutPage s1 (virtOf s1.pmm.isHigherHalf f) = s2 := ⟨_, rfl⟩
  have hpmm2 : s2.pmm = s1.pmm := hzero ▸ zeroOutPage_pmm hf _
  have hmem2 : ∀ x, s2.mem x = if f ≤ x ∧ x < f + pageSize then 0 else s1.mem x :=
    fun x => hzero ▸ zeroOutPage_mem hf _ x
  have hkeep2 : ∀ b, IsFrame b → b ≠ f → Mem.AgreeOn s.mem s2.mem b pageSize := by
    intro b hb hne x hl hu
    have hap := hf.apart hb (Ne.symm hne)
    rw [hmem2, if_neg (by omega), hmem1]
  let s3 := s2.store (virtOf hh t + 8 * i.val) (f ||| flags)
  have hview : s3.pmm.isHigherHalf = s.pmm.isHigherHalf := by
    rw [Phys.store_pmm, hpmm2, hview1]
  have hmem : s3.mem = s2.mem.write64 (t + 8 * i.val) (f ||| flags) := store_slot hframe hh i _
  have hlt : f ||| flags < 2 ^ 64 :=
    or_lt_two_pow_64 hf.lt (Nat.lt_trans hlow (by decide))
  have hentry : tableEntry s3.mem t i = f ||| flags := by
    rw [hmem, tableEntry_write_same _ _ _ hlt]
  have hstack2 : FreeStack s2 stack := by
    refine hpop.congr (by rw [hpmm2]) (by rw [hpmm2]) (fun a ha => ?_)
    · have hne : a ≠ f := fun heq => hfree (heq ▸ ha)
      show Mem.AgreeOn s1.mem _ _ _
      rw [hmem1]
      exact (hkeep2 a (h.free.frames a (List.mem_cons_of_mem f ha)) hne).mono (Nat.le_refl a)
        (by simp [pageSize])
  obtain ⟨htree, hedit⟩ := h.tree.graft s3.mem hf hfree hp ht habs
    (fun b j hb hne hslot => by
      rw [hmem, tableEntry_write_other _ _ hb hframe hslot]
      exact tableEntry_congr (hkeep2 b hb hne) j)
    (fun j => by
      have hslot : ¬ (f = t ∧ j = i) := fun h => htf h.1.symm
      rw [hmem, tableEntry_write_other _ _ hf hframe hslot]
      apply Mem.read64_of_zero
      intro x hl hu
      rw [hmem2, if_pos]
      simp only [pageSize]
      omega)
    hentry (decodeEntry_frame hf hlow hbit)
  refine ⟨s3, ?_, ⟨hstack2.store_slot hframe (fun hin => hoff (List.mem_cons_of_mem f hin)) hh i _,
    htree⟩, hview, hedit⟩
  have hload := load_slot (s := s) hframe hh i
  have hload3 := load_slot (s := s3) hframe hh i
  rw [entryAt_concat ht i, RadixTree.found_eq_none, decodeEntry_eq_none] at habs
  rw [hentry] at hload3
  simp only [getOrCreateTable, hload, if_pos habs, halloc, hzero, pure_bind]
  show Except.ok (virtOf s3.pmm.isHigherHalf (s3.load (virtOf hh t + 8 * i.val) &&& pageMask), s3)
    = _
  rw [hload3, frame_or_and_pageMask hf hlow, hview]

/-! ## Several levels -/

theorem isInner_iff {m : Mem} {a : Nat} : IsInner m root a ↔
    ∃ p : TablePath, p.length ≤ 3 ∧ ∃ e, entryAt m root p = some e ∧ decodeEntry e = some a := by
  constructor
  · rintro ⟨p, hne, hp, ht⟩
    rw [tableAt_eq_entryAt hne, Option.bind_eq_some_iff] at ht
    exact ⟨p, hp, ht⟩
  · rintro ⟨p, hp, e, he, ha⟩
    have hne : p ≠ [] := by
      rintro rfl
      cases he
    refine ⟨p, hne, hp, ?_⟩
    rw [tableAt_eq_entryAt hne, Option.bind_eq_some_iff]
    exact ⟨e, he, ha⟩

theorem isInner_congr {m m' : Mem} {a : Nat}
    (h : ∀ p : TablePath, p.length ≤ 3 → tableAt m' root p = tableAt m root p) :
    IsInner m' root a ↔ IsInner m root a := by
  refine exists_congr fun p => and_congr_right fun _ => and_congr_right fun hp => ?_
  rw [h p hp]

theorem Grown.refl (h : Paging s root stack) (ht : tableAt s.mem root p = some t) :
    Grown root flags s stack p s stack where
  paging := h
  view := rfl
  keep _ _ _ := rfl
  fresh _ _ hnone hsome := absurd hnone hsome
  exist _ hq := entryAt_of_tableAt ht hq
  owned _ := Iff.rfl
  enough := by
    rw [missing_of_tableAt ht]
    exact Nat.zero_le _
  taken := by rw [missing_of_tableAt ht, List.drop_zero]

/-- Hanging in the top frame of the free list extends the path by one table. -/
theorem Grown.create {s' : Phys} (h : Paging s root (f :: stack)) (hp : p.length < 3)
    (ht : tableAt s.mem root p = some t) (habs : entryAt s.mem root (p ++ [i]) = none)
    (hlow : flags < pageSize) (hbit : flags &&& Flag.present ≠ 0)
    (h' : Paging s' root stack) (hview : s'.pmm.isHigherHalf = s.pmm.isHigherHalf)
    (hedit : ∀ q : TablePath, q.length ≤ 4 → entryAt s'.mem root q =
      if q = p ++ [i] then some (f ||| flags) else entryAt s.mem root q) :
    Grown root flags s (f :: stack) (p ++ [i]) s' stack := by
  have hlen : (p ++ [i]).length ≤ 3 := by
    rw [List.length_append, List.length_singleton]
    omega
  have hf := h.free.frames f List.mem_cons_self
  have hnew : entryAt s'.mem root (p ++ [i]) = some (f ||| flags) := by
    rw [hedit _ (by omega), if_pos rfl]
  have hold : ∀ q : TablePath, q.length ≤ 4 → q ≠ p ++ [i] →
      entryAt s'.mem root q = entryAt s.mem root q :=
    fun q hq hne => by rw [hedit q hq, if_neg hne]
  have hne_of_present : ∀ q, entryAt s.mem root q ≠ none → q ≠ p ++ [i] :=
    fun q hsome heq => hsome (heq ▸ habs)
  have hmissing : missing s.mem root (p ++ [i]) = 1 := by
    rw [missing_concat, missing_of_tableAt ht, if_pos habs]
  refine ⟨h', hview, fun q hq hsome => hold q hq (hne_of_present q hsome), ?_, ?_, ?_, ?_, ?_⟩
  · intro q hq hnone hsome
    by_cases heq : q = p ++ [i]
    · subst heq
      exact ⟨by simp [prefixSet_concat], f, List.mem_cons_self, hnew⟩
    · rw [hold q hq heq] at hsome
      exact absurd hnone hsome
  · intro q hq
    rw [prefixSet_concat, Finset.mem_insert] at hq
    rcases hq with rfl | hq
    · simp [hnew]
    · have hsome := entryAt_of_tableAt ht hq
      have hq4 := (mem_prefixSet.mp hq).2.length_le
      rw [hold q (by omega) (hne_of_present q hsome)]
      exact hsome
  · intro a
    simp only [isInner_iff, List.mem_cons]
    constructor
    · rintro (hin | ⟨q, hq, e, he, ha⟩)
      · exact .inl (.inr hin)
      · by_cases heq : q = p ++ [i]
        · subst heq
          rw [hnew] at he
          obtain rfl : f ||| flags = e := by simpa using he
          rw [decodeEntry_frame hf hlow hbit] at ha
          exact .inl (.inl (Option.some.inj ha).symm)
        · rw [hold q (by omega) heq] at he
          exact .inr ⟨q, hq, e, he, ha⟩
    · rintro ((rfl | hin) | ⟨q, hq, e, he, ha⟩)
      · exact .inr ⟨p ++ [i], hlen, _, hnew, decodeEntry_frame hf hlow hbit⟩
      · exact .inl hin
      · have hne := hne_of_present q (by simp [he])
        exact .inr ⟨q, hq, e, (hold q (by omega) hne).trans he, ha⟩
  · rw [hmissing, List.length_cons]
    omega
  · rw [hmissing]
    rfl

/-- One more level after a path has been grown. -/
theorem Grown.trans {s1 s2 : Phys} {stack1 stack2 : List Nat} (hp : p.length ≤ 3)
    (h1 : Grown root flags s stack p s1 stack1)
    (h2 : Grown root flags s1 stack1 (p ++ [i]) s2 stack2) :
    Grown root flags s stack (p ++ [i]) s2 stack2 := by
  have hlen : (p ++ [i]).length ≤ 4 := by
    rw [List.length_append, List.length_singleton]
    omega
  have hmid : entryAt s1.mem root (p ++ [i]) = none ↔ entryAt s.mem root (p ++ [i]) = none := by
    constructor
    · intro hnone
      by_contra hsome
      rw [h1.keep _ hlen hsome] at hnone
      exact hsome hnone
    · intro hnone
      by_contra hsome
      exact concat_not_mem_prefixSet p i (h1.fresh _ hlen hnone hsome).1
  have hnothing : missing s1.mem root p = 0 := by
    rw [missing, Finset.card_eq_zero, Finset.filter_eq_empty_iff]
    exact fun q hq => h1.exist q hq
  have hsum : missing s.mem root (p ++ [i]) =
      missing s.mem root p + missing s1.mem root (p ++ [i]) := by
    rw [missing_concat, missing_concat, hnothing, Nat.zero_add]
    simp only [hmid]
  have htaken := h1.taken
  have henough := h1.enough
  have henough2 := h2.enough
  refine ⟨h2.paging, h2.view.trans h1.view, ?_, ?_, h2.exist,
    fun a => (h2.owned a).trans (h1.owned a), ?_, ?_⟩
  · intro q hq hsome
    have hstep := h1.keep q hq hsome
    have hsome1 : entryAt s1.mem root q ≠ none := by
      rw [hstep]
      exact hsome
    exact (h2.keep q hq hsome1).trans hstep
  · intro q hq hnone hsome
    by_cases hfirst : entryAt s1.mem root q = none
    · obtain ⟨hin, f, hf, he⟩ := h2.fresh q hq hfirst hsome
      rw [htaken] at hf
      exact ⟨hin, f, List.mem_of_mem_drop hf, he⟩
    · obtain ⟨hin, f, hf, he⟩ := h1.fresh q hq hnone hfirst
      refine ⟨?_, f, hf, (h2.keep q hq hfirst).trans he⟩
      rw [prefixSet_concat]
      exact Finset.mem_insert_of_mem hin
  · rw [htaken, List.length_drop] at henough2
    omega
  · rw [h2.taken, htaken, List.drop_drop, hsum]

def WalksTo (root flags : Nat) (s : Phys) (stack : List Nat) (path : TablePath)
    (r : Except Halt (Nat × Phys)) : Prop :=
  (stack.length < missing s.mem root path ∧
    r = .error (.panic "[CRITICAL] OOM during page table walk!")) ∨
  ∃ hh t s' stack', r = .ok (virtOf hh t, s') ∧ tableAt s'.mem root path = some t ∧
    Grown root flags s stack path s' stack'

theorem walksTo_root (flags : Nat) (h : Paging s root stack) (hh : Bool) :
    WalksTo root flags s stack [] (.ok (virtOf hh root, s)) :=
  .inr ⟨hh, root, s, stack, rfl, rfl, .refl h rfl⟩

theorem WalksTo.step {r : Except Halt (Nat × Phys)} (h : WalksTo root flags s stack p r)
    (hp : p.length < 3) (hlow : flags < pageSize) (hbit : flags &&& Flag.present ≠ 0) :
    WalksTo root flags s stack (p ++ [i])
      (r >>= fun x => getOrCreateTable x.2 x.1 i.val flags) := by
  rcases h with ⟨hshort, rfl⟩ | ⟨hh, t, s1, stack1, rfl, ht, hgrown⟩
  · refine .inl ⟨?_, rfl⟩
    rw [missing_concat]
    omega
  · have hpaging := hgrown.paging
    show WalksTo root flags s stack (p ++ [i]) (getOrCreateTable s1 (virtOf hh t) i.val flags)
    by_cases habs : entryAt s1.mem root (p ++ [i]) = none
    · cases stack1 with
      | nil =>
        refine .inl ⟨?_, getOrCreateTable_oom hpaging hp ht habs hh⟩
        have htaken := congrArg List.length hgrown.taken
        have habs0 : entryAt s.mem root (p ++ [i]) = none := by
          by_contra hsome
          have hlen : (p ++ [i]).length ≤ 4 := by
            rw [List.length_append, List.length_singleton]
            omega
          rw [hgrown.keep _ hlen hsome] at habs
          exact hsome habs
        rw [List.length_drop, List.length_nil] at htaken
        rw [missing_concat, if_pos habs0]
        omega
      | cons f rest =>
        obtain ⟨s2, hrun, h2, hview, hedit⟩ :=
          getOrCreateTable_create hpaging hp ht habs hlow hbit hh
        have hstep := Grown.create hpaging hp ht habs hlow hbit h2 hview hedit
        refine .inr ⟨_, f, s2, rest, hrun, ?_, hgrown.trans (by omega) hstep⟩
        have hlen : (p ++ [i]).length ≤ 4 := by
          rw [List.length_append, List.length_singleton]
          omega
        rw [tableAt_eq_entryAt (by simp), hedit _ hlen, if_pos rfl]
        exact decodeEntry_frame (hpaging.free.frames f List.mem_cons_self) hlow hbit
    · rw [RadixTree.present_eq_none_iff (by simp)] at habs
      obtain ⟨u, hu⟩ := Option.ne_none_iff_exists'.mp habs
      exact .inr ⟨_, u, s1, stack1, getOrCreateTable_present hpaging hp ht hu hh, hu,
        hgrown.trans (by omega) (.refl hpaging hu)⟩

def tableSlot (shift virtualAddr : Nat) : Fin 512 :=
  ⟨tableIndex shift virtualAddr, tableIndex_lt shift virtualAddr⟩

theorem pml4Index_eq (v : Nat) : pml4Index v = (tableSlot 39 v).val := rfl
theorem pdptIndex_eq (v : Nat) : pdptIndex v = (tableSlot 30 v).val := rfl
theorem pdIndex_eq (v : Nat) : pdIndex v = (tableSlot 21 v).val := rfl
theorem ptIndex_eq (v : Nat) : ptIndex v = (tableSlot 12 v).val := rfl

def tablePath (v : Nat) : TablePath := [tableSlot 39 v, tableSlot 30 v, tableSlot 21 v]

def pagePath (v : Nat) : TablePath := tablePath v ++ [tableSlot 12 v]

@[simp] theorem length_tablePath (v : Nat) : (tablePath v).length = 3 := rfl

@[simp] theorem length_pagePath (v : Nat) : (pagePath v).length = 4 := rfl

theorem ne_pagePath_of_length {p : TablePath} {v : Nat} (hp : p.length ≤ 3) : p ≠ pagePath v := by
  rintro rfl
  rw [length_pagePath] at hp
  omega

theorem intermediateFlags_lt (isUserPage : Bool) : intermediateFlags isUserPage < pageSize := by
  cases isUserPage <;> decide

theorem intermediateFlags_present (isUserPage : Bool) :
    intermediateFlags isUserPage &&& Flag.present ≠ 0 := by
  cases isUserPage <;> decide

theorem leafEntry_present (physicalAddr flags : Nat) :
    leafEntry physicalAddr flags &&& Flag.present ≠ 0 := by
  rw [leafEntry, Nat.and_or_distrib_right]
  intro h
  exact absurd (Nat.or_eq_zero_iff.mp h).2 (by decide)

theorem leafEntry_lt {physicalAddr flags : Nat} (hp : physicalAddr < 2 ^ 64)
    (hf : flags < 2 ^ 64) : leafEntry physicalAddr flags < 2 ^ 64 :=
  or_lt_two_pow_64 (or_lt_two_pow_64 (Nat.lt_of_le_of_lt Nat.and_le_left hp) hf) (by decide)

structure Mapped (root flags : Nat) (s : Phys) (stack : List Nat) (v leaf : Nat) (s' : Phys)
    (stack' : List Nat) : Prop where
  paging : Paging s' root stack'
  view : s'.pmm.isHigherHalf = s.pmm.isHigherHalf
  leaf : entryAt s'.mem root (pagePath v) = some leaf
  keep : ∀ p : TablePath, p.length ≤ 4 → p ≠ pagePath v → entryAt s.mem root p ≠ none →
    entryAt s'.mem root p = entryAt s.mem root p
  fresh : ∀ p : TablePath, p.length ≤ 4 → p ≠ pagePath v → entryAt s.mem root p = none →
    entryAt s'.mem root p ≠ none →
      p ∈ prefixSet (tablePath v) ∧ ∃ f ∈ stack, entryAt s'.mem root p = some (f ||| flags)
  exist : ∀ p ∈ prefixSet (pagePath v), entryAt s'.mem root p ≠ none
  owned : ∀ a, a ∈ stack' ∨ IsInner s'.mem root a ↔ a ∈ stack ∨ IsInner s.mem root a
  enough : missing s.mem root (tablePath v) ≤ stack.length
  taken : stack' = stack.drop (missing s.mem root (tablePath v))

theorem Mapped.absent_iff {leaf v : Nat} {s' : Phys} {stack' : List Nat}
    (h : Mapped root flags s stack v leaf s' stack') (hp : p.length ≤ 3) :
    entryAt s'.mem root p = none ↔ entryAt s.mem root p = none ∧ p ∉ prefixSet (tablePath v) := by
  have hne : p ≠ pagePath v := ne_pagePath_of_length hp
  constructor
  · intro hnone
    refine ⟨?_, fun hin => ?_⟩
    · by_contra hsome
      rw [h.keep p (by omega) hne hsome] at hnone
      exact hsome hnone
    · refine h.exist p ?_ hnone
      rw [pagePath, prefixSet_concat]
      exact Finset.mem_insert_of_mem hin
  · rintro ⟨hnone, hout⟩
    by_contra hsome
    exact hout (h.fresh p (by omega) hne hnone hsome).1

/-- Writing the leaf entry completes a grown path. -/
theorem Grown.mapped {s1 : Phys} {stack1 : List Nat} {v leaf : Nat}
    (h : Grown root flags s stack (tablePath v) s1 stack1)
    (ht : tableAt s1.mem root (tablePath v) = some t) (hlt : leaf < 2 ^ 64)
    (hbit : leaf &&& Flag.present ≠ 0) (hh : Bool) :
    Mapped root flags s stack v leaf
      (s1.store (virtOf hh t + 8 * (tableSlot 12 v).val) leaf) stack1 := by
  have hframe := h.paging.tree.frames _ t (length_tablePath v).le ht
  have hoff := h.paging.tree.off _ t (length_tablePath v).le ht
  have hmem := CrapOs.store_slot (s := s1) hframe hh (tableSlot 12 v) leaf
  obtain ⟨htree, hedit⟩ := h.paging.tree.setLeaf
    (s1.mem.write64 (t + 8 * (tableSlot 12 v).val) leaf) (tableSlot 12 v) rfl ht
    (fun b j hb hslot => tableEntry_write_other _ _ hb hframe hslot)
    (tableEntry_write_same _ _ _ hlt)
  rw [← hmem] at htree hedit
  rw [RadixTree.found_of_decode (decodeEntry_of_present hbit)] at hedit
  have hleaf : entryAt (s1.store (virtOf hh t + 8 * (tableSlot 12 v).val) leaf).mem root
      (pagePath v) = some leaf := by
    rw [hedit _ (length_pagePath v).le]
    exact if_pos rfl
  have hold : ∀ p : TablePath, p.length ≤ 4 → p ≠ pagePath v →
      entryAt (s1.store (virtOf hh t + 8 * (tableSlot 12 v).val) leaf).mem root p =
        entryAt s1.mem root p :=
    fun p hp hne => by rw [hedit p hp]; exact if_neg hne
  refine ⟨⟨h.paging.free.store_slot hframe hoff hh _ _, htree⟩, h.view, hleaf, ?_, ?_, ?_, ?_,
    h.enough, h.taken⟩
  · intro p hp hne hsome
    rw [hold p hp hne, h.keep p hp hsome]
  · intro p hp hne hnone hsome
    rw [hold p hp hne] at hsome ⊢
    exact h.fresh p hp hnone hsome
  · intro p hp
    rw [pagePath, prefixSet_concat, Finset.mem_insert] at hp
    rcases hp with rfl | hp
    · exact hleaf ▸ Option.some_ne_none leaf
    · have hlen := (mem_prefixSet.mp hp).2.length_le
      rw [length_tablePath] at hlen
      rw [hold p (by omega) (ne_pagePath_of_length hlen)]
      exact h.exist p hp
  · intro a
    rw [← h.owned a]
    exact or_congr_right (isInner_congr fun p hp =>
      tableAt_congr (hold p (by omega) (ne_pagePath_of_length hp)))

theorem mapPage_spec (h : Paging s root stack) (hh : Bool) (v physicalAddr flags : Nat)
    (isUserPage : Bool) (hpa : physicalAddr < 2 ^ 64) (hflags : flags < 2 ^ 64) :
    (stack.length < missing s.mem root (tablePath v) ∧
      mapPage s (virtOf hh root) v physicalAddr flags isUserPage =
        .error (.panic "[CRITICAL] OOM during page table walk!")) ∨
    ∃ s' stack', mapPage s (virtOf hh root) v physicalAddr flags isUserPage = .ok s' ∧
      Mapped root (intermediateFlags isUserPage) s stack v (leafEntry physicalAddr flags) s'
        stack' := by
  have hlow := intermediateFlags_lt isUserPage
  have hbit := intermediateFlags_present isUserPage
  have hwalk := (((walksTo_root (intermediateFlags isUserPage) h hh).step
    (i := tableSlot 39 v) (by simp) hlow hbit).step
    (i := tableSlot 30 v) (by simp) hlow hbit).step (i := tableSlot 21 v) (by simp) hlow hbit
  generalize hr : ((_ >>= _) : Except Halt (Nat × Phys)) = r at hwalk
  have hmap : mapPage s (virtOf hh root) v physicalAddr flags isUserPage =
      r >>= fun x => pure (x.2.store (x.1 + 8 * (tableSlot 12 v).val)
        (leafEntry physicalAddr flags)) := by
    rw [← hr]
    simp only [bind_assoc]
    rfl
  rw [hmap]
  rcases hwalk with ⟨hshort, rfl⟩ | ⟨hh', t, s1, stack1, rfl, ht, hgrown⟩
  · exact .inl ⟨hshort, rfl⟩
  · exact .inr ⟨_, stack1, rfl, hgrown.mapped ht (leafEntry_lt hpa hflags)
      (leafEntry_present _ _) hh'⟩

def stockedFrames : Nat → List Nat
  | 0 => []
  | n + 1 => (n + 2) * pageSize :: stockedFrames n

def stocked : Nat → Phys
  | 0 => emptyPhys
  | n + 1 => freePage (stocked n) ((n + 2) * pageSize)

@[simp] theorem length_stockedFrames (n : Nat) : (stockedFrames n).length = n := by
  induction n with
  | zero => rfl
  | succ n ih => rw [stockedFrames, List.length_cons, ih]

theorem mem_stockedFrames {a n : Nat} (h : a ∈ stockedFrames n) :
    ∃ k < n, a = (k + 2) * pageSize := by
  induction n with
  | zero => simp [stockedFrames] at h
  | succ n ih =>
    rcases List.mem_cons.mp h with rfl | h
    · exact ⟨n, Nat.lt_succ_self n, rfl⟩
    · obtain ⟨k, hk, rfl⟩ := ih h
      exact ⟨k, by omega, rfl⟩

theorem isFrame_stocked {k : Nat} (hk : k < 2 ^ 30) : IsFrame ((k + 2) * pageSize) := by
  refine ⟨Nat.mul_mod_left _ _, ?_, ?_⟩
  · simp only [pageSize]
    omega
  · rw [directMapWindow_eq]
    simp only [pageSize]
    omega

theorem stocked_free {n : Nat} (hn : n ≤ 2 ^ 30) : FreeStack (stocked n) (stockedFrames n) := by
  induction n with
  | zero => exact ⟨rfl, rfl, by simp [stockedFrames], by simp [stockedFrames], rfl⟩
  | succ n ih =>
    refine freePage_spec (ih (by omega)) (isFrame_stocked (by omega)) (fun hin => ?_)
    obtain ⟨k, hk, heq⟩ := mem_stockedFrames hin
    simp only [pageSize] at heq
    omega

theorem stocked_pml4 {n : Nat} (hn : n ≤ 2 ^ 30) (i : Fin 512) :
    tableEntry (stocked n).mem 0x1000 i = 0 := by
  have hagree : Mem.AgreeOn emptyPhys.mem (stocked n).mem 0x1000 pageSize := by
    induction n with
    | zero => exact Mem.AgreeOn.refl _ _ _
    | succ n ih =>
      refine (ih (by omega)).trans (freePage_agreeOn (isFrame_stocked (by omega)) ?_)
      simp only [pageSize]
      omega
  rw [tableEntry_congr hagree]
  exact Mem.read64_of_zero (fun _ _ _ => rfl)

theorem stocked_paging {n : Nat} (hn : n ≤ 2 ^ 30) :
    Paging (stocked n) 0x1000 (stockedFrames n) := by
  refine ⟨stocked_free hn, pageTree_of_empty ⟨by decide, by decide, by decide⟩ (fun hin => ?_)
    (fun i => by rw [stocked_pml4 hn i]; rfl)⟩
  obtain ⟨k, -, heq⟩ := mem_stockedFrames hin
  simp only [pageSize] at heq
  omega

end CrapOs
