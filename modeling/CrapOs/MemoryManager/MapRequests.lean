import CrapOs.MemoryManager.BootMap
import CrapOs.MemoryManager.Footprint

/-! # Lists of kernel mappings

The boot code builds its tables by long loops of `mapPage` calls. Each loop is
equal to `mapAll` on a list of requests, and what the list leaves in the tables
is read off the list: the last request for a page decides its entry.
-/

namespace CrapOs

open Foundation

/-- One kernel mapping: the arguments of a `mapPage` call with `isUserPage` false. -/
structure MapRequest where
  virtualAddr : Nat
  physicalAddr : Nat
  flags : Nat
deriving DecidableEq, Repr

namespace MapRequest

def path (q : MapRequest) : TablePath := pagePath q.virtualAddr

def leaf (q : MapRequest) : Nat := leafEntry q.physicalAddr q.flags

def InRange (q : MapRequest) : Prop := q.physicalAddr < 2 ^ 64 ∧ q.flags < 2 ^ 64

instance (q : MapRequest) : Decidable q.InRange := inferInstanceAs (Decidable (_ ∧ _))

end MapRequest

def mapAll (pml4 : Nat) (s : Phys) (qs : List MapRequest) : Except Halt Phys :=
  qs.foldlM (fun s q => mapPage s pml4 q.virtualAddr q.physicalAddr q.flags false) s

theorem mapAll_cons (pml4 : Nat) (s : Phys) (q : MapRequest) (qs : List MapRequest) :
    mapAll pml4 s (q :: qs) =
      mapPage s pml4 q.virtualAddr q.physicalAddr q.flags false >>= fun s => mapAll pml4 s qs := by
  rfl

theorem mapAll_append (pml4 : Nat) (s : Phys) (xs ys : List MapRequest) :
    mapAll pml4 s (xs ++ ys) = mapAll pml4 s xs >>= fun s => mapAll pml4 s ys := by
  rw [mapAll, List.foldlM_append]
  rfl

def lastLeaf : List MapRequest → TablePath → Option Nat
  | [], _ => none
  | q :: qs, p => (lastLeaf qs p).or (if q.path = p then some q.leaf else none)

variable {qs xs ys : List MapRequest} {p : TablePath} {e : Nat}

theorem lastLeaf_append (xs ys : List MapRequest) (p : TablePath) :
    lastLeaf (xs ++ ys) p = (lastLeaf ys p).or (lastLeaf xs p) := by
  induction xs with
  | nil => simp [lastLeaf]
  | cons q xs ih => rw [List.cons_append, lastLeaf, lastLeaf, ih, Option.or_assoc]

theorem lastLeaf_eq_none : lastLeaf qs p = none ↔ ∀ q ∈ qs, q.path ≠ p := by
  induction qs with
  | nil => simp [lastLeaf]
  | cons q qs ih =>
    rw [lastLeaf, Option.or_eq_none_iff, ih, List.forall_mem_cons, and_comm]
    refine and_congr_left fun _ => ?_
    simp

theorem lastLeaf_mem (h : lastLeaf qs p = some e) : ∃ q ∈ qs, q.path = p ∧ q.leaf = e := by
  induction qs with
  | nil => cases h
  | cons q qs ih =>
    rw [lastLeaf, Option.or_eq_some_iff] at h
    rcases h with h | ⟨-, h⟩
    · obtain ⟨r, hr, hpath⟩ := ih h
      exact ⟨r, List.mem_cons_of_mem q hr, hpath⟩
    · by_cases hq : q.path = p
      · rw [if_pos hq] at h
        exact ⟨q, List.mem_cons_self, hq, Option.some.inj h⟩
      · rw [if_neg hq] at h
        cases h

theorem lastLeaf_eq {q : MapRequest} (hq : q ∈ qs) (h : ∀ r ∈ qs, r.path = q.path → r.leaf = q.leaf) :
    lastLeaf qs q.path = some q.leaf := by
  cases hlast : lastLeaf qs q.path with
  | none => exact absurd rfl (lastLeaf_eq_none.mp hlast q hq)
  | some e =>
    obtain ⟨r, hr, hpath, rfl⟩ := lastLeaf_mem hlast
    rw [h r hr hpath]

/-- `s'` is `s` after the requests `qs` on the tables below `root`. -/
structure Requested (root : Nat) (qs : List MapRequest) (s : Phys) (stack : List Nat) (s' : Phys)
    (stack' : List Nat) : Prop where
  paging : Paging s' root stack'
  view : s'.pmm.isHigherHalf = s.pmm.isHigherHalf
  config : s.pmm.SameConfig s'.pmm
  leaf : ∀ p : TablePath, p.length = 4 →
    entryAt s'.mem root p = (lastLeaf qs p).or (entryAt s.mem root p)
  inner : ∀ (p : TablePath) (e : Nat), p.length ≤ 3 → entryAt s'.mem root p = some e →
    entryAt s.mem root p = some e ∨ ∃ f ∈ stack, e = f ||| intermediateFlags false
  owned : ∀ a, a ∈ stack' ∨ IsInner s'.mem root a ↔ a ∈ stack ∨ IsInner s.mem root a
  suffix : stack' <:+ stack
  writes : Mem.ChangesOnly s.mem s'.mem pageSize (Touches s root stack)

variable {s s' : Phys} {root : Nat} {stack stack' : List Nat} {hh : Bool}

theorem Requested.refl (h : Paging s root stack) : Requested root [] s stack s stack where
  paging := h
  view := rfl
  config := .refl _
  leaf _ _ := rfl
  inner _ _ _ he := .inl he
  owned _ := Iff.rfl
  suffix := List.suffix_rfl
  writes := Mem.ChangesOnly.refl _ _ _

theorem Requested.touches_iff (h : Requested root qs s stack s' stack') (a : Nat) :
    Touches s' root stack' a ↔ Touches s root stack a := or_congr_right (h.owned a)

theorem Requested.trans {s1 s2 : Phys} {stack1 stack2 : List Nat}
    (h1 : Requested root xs s stack s1 stack1) (h2 : Requested root ys s1 stack1 s2 stack2) :
    Requested root (xs ++ ys) s stack s2 stack2 where
  paging := h2.paging
  view := h2.view.trans h1.view
  config := h1.config.trans h2.config
  leaf p hp := by rw [h2.leaf p hp, h1.leaf p hp, lastLeaf_append, Option.or_assoc]
  inner p e hp he := by
    rcases h2.inner p e hp he with hmid | ⟨f, hf, rfl⟩
    · exact h1.inner p e hp hmid
    · exact .inr ⟨f, h1.suffix.subset hf, rfl⟩
  owned a := (h2.owned a).trans (h1.owned a)
  suffix := h2.suffix.trans h1.suffix
  writes := h1.writes.trans (h2.writes.mono fun a => (h1.touches_iff a).mp)

theorem zeroWords_pmm (s : Phys) (address n : Nat) : (zeroWords s address n).pmm = s.pmm := by
  induction n with
  | zero => rfl
  | succ n ih => rw [zeroWords_succ, Phys.store_pmm, ih]

theorem getOrCreateTable_sameConfig {table index flags : Nat} {r : Nat × Phys}
    (hok : getOrCreateTable s table index flags = .ok r) : s.pmm.SameConfig r.2.pmm := by
  unfold getOrCreateTable at hok
  by_cases hbit : s.load (table + 8 * index) &&& Flag.present = 0
  · simp only [if_pos hbit] at hok
    have hconfig := allocPage_sameConfig s
    obtain ⟨⟨o, s1⟩, halloc⟩ : ∃ r, allocPage s = r := ⟨_, rfl⟩
    cases o with
    | none =>
      rw [halloc] at hok
      cases hok
    | some f =>
      have hzero : ∀ a, (zeroOutPage s1 a).pmm = s1.pmm := fun a => zeroWords_pmm s1 a 512
      simp only [halloc, pure_bind] at hok
      rw [halloc] at hconfig
      obtain rfl := Except.ok.inj hok
      rw [Phys.store_pmm, hzero]
      exact hconfig
  · simp only [if_neg hbit] at hok
    cases hok
    exact .refl _

theorem mapPage_sameConfig {pml4 v pa flags : Nat} {isUserPage : Bool}
    (hok : mapPage s pml4 v pa flags isUserPage = .ok s') : s.pmm.SameConfig s'.pmm := by
  obtain ⟨r1, hok1, hok⟩ := bind_eq_ok.mp hok
  obtain ⟨r2, hok2, hok⟩ := bind_eq_ok.mp hok
  obtain ⟨r3, hok3, hok⟩ := bind_eq_ok.mp hok
  cases hok
  exact (getOrCreateTable_sameConfig hok1).trans
    ((getOrCreateTable_sameConfig hok2).trans (getOrCreateTable_sameConfig hok3))

theorem Mapped.requested {q : MapRequest} (h : Paging s root stack)
    (hok : mapPage s (virtOf hh root) q.virtualAddr q.physicalAddr q.flags false = .ok s')
    (hmapped : Mapped root (intermediateFlags false) s stack q.virtualAddr q.leaf s' stack') :
    Requested root [q] s stack s' stack' where
  paging := hmapped.paging
  view := hmapped.view
  config := mapPage_sameConfig hok
  leaf p hp := by
    by_cases hpath : q.path = p
    · subst hpath
      rw [lastLeaf, if_pos rfl]
      exact hmapped.leaf
    · rw [lastLeaf, if_neg hpath]
      show _ = entryAt s.mem root p
      by_cases hnone : entryAt s.mem root p = none
      · rw [hnone]
        by_contra hsome
        -- a new entry other than the leaf belongs to a table
        have hin := (hmapped.fresh p hp.le (Ne.symm hpath) hnone hsome).1
        have hlen := (mem_prefixSet.mp hin).2.length_le
        rw [length_tablePath] at hlen
        omega
      · exact hmapped.keep p hp.le (Ne.symm hpath) hnone
  inner p e hp he := by
    have hne := ne_pagePath_of_length (v := q.virtualAddr) hp
    by_cases hnone : entryAt s.mem root p = none
    · obtain ⟨-, f, hf, hentry⟩ := hmapped.fresh p (by omega) hne hnone (by simp [he])
      rw [he] at hentry
      exact .inr ⟨f, hf, Option.some.inj hentry⟩
    · rw [← hmapped.keep p (by omega) hne hnone]
      exact .inl he
  owned := hmapped.owned
  suffix := hmapped.taken ▸ List.drop_suffix _ _
  writes := mapPage_footprint h hok

theorem mapAll_requested (h : Paging s root stack) (hqs : ∀ q ∈ qs, q.InRange)
    (hok : mapAll (virtOf hh root) s qs = .ok s') : ∃ stack', Requested root qs s stack s' stack' := by
  induction qs generalizing s stack with
  | nil =>
    cases hok
    exact ⟨stack, .refl h⟩
  | cons q qs ih =>
    rw [mapAll_cons] at hok
    obtain ⟨s1, hmap, hrest⟩ := bind_eq_ok.mp hok
    obtain ⟨hpa, hflags⟩ := hqs q List.mem_cons_self
    rcases mapPage_spec h hh q.virtualAddr q.physicalAddr q.flags false hpa hflags with
      ⟨-, herr⟩ | ⟨s1', stack1, hmap', hmapped⟩
    · rw [hmap] at herr
      cases herr
    rw [hmap] at hmap'
    cases hmap'
    obtain ⟨stack', hreq⟩ := ih hmapped.paging (fun r hr => hqs r (List.mem_cons_of_mem q hr)) hrest
    exact ⟨stack', (hmapped.requested h hmap).trans hreq⟩

def absentIn (m : Mem) (root : Nat) (T : Finset TablePath) : Finset TablePath :=
  T.filter fun p => entryAt m root p = none

theorem Mapped.absentIn_card {flags v leaf : Nat} {T : Finset TablePath}
    (h : Mapped root flags s stack v leaf s' stack') (hT : ∀ p ∈ T, p.length ≤ 3)
    (hv : prefixSet (tablePath v) ⊆ T) :
    missing s.mem root (tablePath v) + (absentIn s'.mem root T).card =
      (absentIn s.mem root T).card := by
  have hin : (absentIn s.mem root T).filter (· ∈ prefixSet (tablePath v)) =
      (prefixSet (tablePath v)).filter fun p => entryAt s.mem root p = none := by
    ext p
    simp only [absentIn, Finset.mem_filter]
    constructor
    · rintro ⟨⟨-, hnone⟩, hp⟩
      exact ⟨hp, hnone⟩
    · rintro ⟨hp, hnone⟩
      exact ⟨⟨hv hp, hnone⟩, hp⟩
  have hout : (absentIn s.mem root T).filter (· ∉ prefixSet (tablePath v)) =
      absentIn s'.mem root T := by
    ext p
    simp only [absentIn, Finset.mem_filter, and_assoc]
    constructor
    · rintro ⟨hp, hnone⟩
      exact ⟨hp, (h.absent_iff (hT p hp)).mpr hnone⟩
    · rintro ⟨hp, hnone⟩
      exact ⟨hp, (h.absent_iff (hT p hp)).mp hnone⟩
  rw [missing, ← hin, ← hout]
  exact Finset.card_filter_add_card_filter_not _

theorem mapAll_ok {T : Finset TablePath} (h : Paging s root stack) (hT : ∀ p ∈ T, p.length ≤ 3)
    (hqs : ∀ q ∈ qs, q.InRange ∧ prefixSet (tablePath q.virtualAddr) ⊆ T)
    (hlen : (absentIn s.mem root T).card ≤ stack.length) :
    ∃ s' stack', mapAll (virtOf hh root) s qs = .ok s' ∧ Requested root qs s stack s' stack' ∧
      (absentIn s'.mem root T).card ≤ stack'.length := by
  induction qs generalizing s stack with
  | nil => exact ⟨s, stack, rfl, .refl h, hlen⟩
  | cons q qs ih =>
    obtain ⟨⟨hpa, hflags⟩, hv⟩ := hqs q List.mem_cons_self
    rcases mapPage_spec h hh q.virtualAddr q.physicalAddr q.flags false hpa hflags with
      ⟨hshort, -⟩ | ⟨s1, stack1, hmap, hmapped⟩
    · have hle : missing s.mem root (tablePath q.virtualAddr) ≤ (absentIn s.mem root T).card := by
        apply Finset.card_le_card
        exact Finset.filter_subset_filter _ hv
      omega
    have hcard := hmapped.absentIn_card hT hv
    have htaken := congrArg List.length hmapped.taken
    rw [List.length_drop] at htaken
    obtain ⟨s', stack', hok, hreq, hleft⟩ := ih hmapped.paging
      (fun r hr => hqs r (List.mem_cons_of_mem q hr)) (by omega)
    refine ⟨s', stack', ?_, (hmapped.requested h hmap).trans hreq, hleft⟩
    exact bind_eq_ok.mpr ⟨s1, hmap, hok⟩

end CrapOs
