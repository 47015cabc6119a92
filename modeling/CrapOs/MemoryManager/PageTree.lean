import CrapOs.Foundation.RadixTree
import CrapOs.MemoryManager.Vmm

/-! # The tree of page tables

The tables reachable from a PML4 form a radix tree of depth four over physical
memory. `PageTree` is the separation the kernel relies on: every table is a
frame of its own and none of them is on the free list. The kernel changes the
tree one entry at a time, and each kind of change is an update of the partial
map `entryAt` at one path.
-/

namespace CrapOs

open Foundation

abbrev TablePath := List (Fin 512)

def tableEntry (m : Mem) (t : Nat) (i : Fin 512) : Nat := m.read64 (t + 8 * i.val)

def decodeEntry (e : Nat) : Option Nat :=
  if e &&& Flag.present = 0 then none else some (e &&& pageMask)

abbrev tableAt (m : Mem) (root : Nat) (p : TablePath) : Option Nat :=
  RadixTree.table decodeEntry (tableEntry m) root p

/-- The present entry at the end of a path, of length four for a leaf. -/
abbrev entryAt (m : Mem) (root : Nat) (p : TablePath) : Option Nat :=
  RadixTree.present decodeEntry (tableEntry m) root p

/-- The tables are pairwise distinct frames, none of them free. -/
structure PageTree (m : Mem) (root : Nat) (free : List Nat) : Prop where
  frames : ∀ p t, p.length ≤ 3 → tableAt m root p = some t → IsFrame t
  unshared : ∀ p q t, p.length ≤ 3 → q.length ≤ 3 → tableAt m root p = some t →
    tableAt m root q = some t → p = q
  off : ∀ p t, p.length ≤ 3 → tableAt m root p = some t → t ∉ free

theorem tableAt_concat {m : Mem} {root t : Nat} {p : TablePath} (ht : tableAt m root p = some t)
    (i : Fin 512) : tableAt m root (p ++ [i]) = decodeEntry (tableEntry m t i) := by
  change RadixTree.table decodeEntry (tableEntry m) root p = some t at ht
  rw [tableAt, RadixTree.table_concat, ht, Option.bind_some]

theorem entryAt_concat {m : Mem} {root t : Nat} {p : TablePath} (ht : tableAt m root p = some t)
    (i : Fin 512) :
    entryAt m root (p ++ [i]) = RadixTree.found decodeEntry (tableEntry m t i) := by
  change RadixTree.table decodeEntry (tableEntry m) root p = some t at ht
  rw [entryAt, RadixTree.present_concat, ht, Option.bind_some]

theorem tableAt_eq_entryAt {m : Mem} {root : Nat} {p : TablePath} (hp : p ≠ []) :
    tableAt m root p = (entryAt m root p).bind decodeEntry := RadixTree.table_eq_present hp

theorem tableAt_congr {m m' : Mem} {root : Nat} {p : TablePath}
    (h : entryAt m' root p = entryAt m root p) : tableAt m' root p = tableAt m root p := by
  by_cases hp : p = []
  · subst hp
    rfl
  · calc
      tableAt m' root p = (entryAt m' root p).bind decodeEntry := tableAt_eq_entryAt hp
      _ = (entryAt m root p).bind decodeEntry := congrArg (fun e => e.bind decodeEntry) h
      _ = tableAt m root p := (tableAt_eq_entryAt hp).symm

theorem decodeEntry_eq_none {e : Nat} : decodeEntry e = none ↔ e &&& Flag.present = 0 := by
  unfold decodeEntry
  by_cases h : e &&& Flag.present = 0
  · simp [h]
  · simp [h]

theorem decodeEntry_of_present {e : Nat} (h : e &&& Flag.present ≠ 0) :
    decodeEntry e = some (e &&& pageMask) := by
  simp [decodeEntry, h]

@[simp] theorem decodeEntry_zero : decodeEntry 0 = none := rfl

theorem decodeEntry_frame {f flags : Nat} (hf : IsFrame f) (hlow : flags < pageSize)
    (hpresent : flags &&& Flag.present ≠ 0) : decodeEntry (f ||| flags) = some f := by
  have hbit : (f ||| flags) &&& Flag.present ≠ 0 := by
    intro h
    rw [Nat.and_or_distrib_right] at h
    exact hpresent (Nat.or_eq_zero_iff.mp h).2
  rw [decodeEntry_of_present hbit, frame_or_and_pageMask hf hlow]

private theorem slot_bound (i : Fin 512) : 8 * i.val + 8 ≤ pageSize := by
  simp only [pageSize]
  omega

theorem load_slot {s : Phys} {t : Nat} (ht : IsFrame t) (hh : Bool) (i : Fin 512) :
    s.load (virtOf hh t + 8 * i.val) = tableEntry s.mem t i := by
  have hi := slot_bound i
  rw [Phys.load, ht.physOf_virtOf hh (by omega)]
  rfl

theorem store_slot {s : Phys} {t : Nat} (ht : IsFrame t) (hh : Bool) (i : Fin 512) (v : Nat) :
    (s.store (virtOf hh t + 8 * i.val) v).mem = s.mem.write64 (t + 8 * i.val) v := by
  have hi := slot_bound i
  rw [Phys.store, ht.physOf_virtOf hh (by omega)]

theorem tableEntry_congr {m m' : Mem} {t : Nat} (h : Mem.AgreeOn m m' t pageSize) (i : Fin 512) :
    tableEntry m' t i = tableEntry m t i := by
  have hi := slot_bound i
  exact Mem.read64_congr (h.mono (by omega) (by omega))

theorem tableEntry_lt (m : Mem) (t : Nat) (i : Fin 512) : tableEntry m t i < 2 ^ 64 :=
  m.read64_lt _

theorem entryAt_spec {m : Mem} {r e : Nat} {p : TablePath} (h : entryAt m r p = some e) :
    e < 2 ^ 64 ∧ ∃ t, decodeEntry e = some t := by
  rcases List.eq_nil_or_concat' p with rfl | ⟨q, i, rfl⟩
  · cases h
  · rw [entryAt, RadixTree.present_concat, Option.bind_eq_some_iff] at h
    obtain ⟨t, -, ht⟩ := h
    by_cases hd : (decodeEntry (tableEntry m t i)).isSome
    · rw [RadixTree.found, if_pos hd] at ht
      cases ht
      exact ⟨tableEntry_lt m t i, Option.isSome_iff_exists.mp hd⟩
    · rw [RadixTree.found, if_neg hd] at ht
      cases ht

theorem tableEntry_write_same (m : Mem) (t : Nat) (i : Fin 512) {v : Nat} (hv : v < 2 ^ 64) :
    tableEntry (m.write64 (t + 8 * i.val) v) t i = v :=
  m.read64_write64_same _ hv

theorem tableEntry_write_other (m : Mem) {t t0 : Nat} {i i0 : Fin 512} (v : Nat) (ht : IsFrame t)
    (ht0 : IsFrame t0) (hne : ¬ (t = t0 ∧ i = i0)) :
    tableEntry (m.write64 (t0 + 8 * i0.val) v) t i = tableEntry m t i := by
  apply Mem.read64_write64_disjoint
  have hi := slot_bound i
  have hi0 := slot_bound i0
  by_cases heq : t = t0
  · have hidx : i.val ≠ i0.val := fun h => hne ⟨heq, Fin.ext h⟩
    omega
  · rcases ht.apart ht0 heq with hlow | hhigh <;> omega

theorem tableAt_of_empty {m : Mem} {root t : Nat} {p : TablePath}
    (hempty : ∀ i, tableEntry m root i &&& Flag.present = 0) (ht : tableAt m root p = some t) :
    p = [] ∧ t = root := by
  cases p with
  | nil => exact ⟨rfl, (Option.some.inj ht).symm⟩
  | cons i p =>
    change (decodeEntry (tableEntry m root i)).bind _ = some t at ht
    rw [decodeEntry_eq_none.mpr (hempty i)] at ht
    cases ht

theorem entryAt_of_empty {m : Mem} {root : Nat}
    (hempty : ∀ i, tableEntry m root i &&& Flag.present = 0) (p : TablePath) :
    entryAt m root p = none := by
  by_cases hnil : p = []
  · subst hnil
    rfl
  · rw [entryAt, RadixTree.present_eq_none_iff hnil]
    by_contra hsome
    obtain ⟨t, ht⟩ := Option.ne_none_iff_exists'.mp hsome
    exact hnil (tableAt_of_empty hempty ht).1

theorem pageTree_of_empty {m : Mem} {root : Nat} {free : List Nat} (hroot : IsFrame root)
    (hoff : root ∉ free) (hempty : ∀ i, tableEntry m root i &&& Flag.present = 0) :
    PageTree m root free where
  frames _ _ _ ht := (tableAt_of_empty hempty ht).2 ▸ hroot
  unshared _ _ _ _ _ ht ht' := (tableAt_of_empty hempty ht).1.trans (tableAt_of_empty hempty ht').1.symm
  off _ _ _ ht := (tableAt_of_empty hempty ht).2 ▸ hoff

variable {m : Mem} {root t0 f : Nat} {free : List Nat} {p0 : TablePath} {i0 : Fin 512}

theorem PageTree.shrink {m' : Mem} (h : PageTree m root free) {free' : List Nat}
    (hsub : ∀ p t, p.length ≤ 3 → tableAt m' root p = some t → tableAt m root p = some t)
    (hoff : ∀ p t, p.length ≤ 3 → tableAt m' root p = some t → t ∉ free') :
    PageTree m' root free' where
  frames p t hp ht := h.frames p t hp (hsub p t hp ht)
  unshared p q t hp hq ht ht' := h.unshared p q t hp hq (hsub p t hp ht) (hsub q t hq ht')
  off := hoff

theorem PageTree.keeps {m' : Mem} (h : PageTree m root free) (hp0 : p0.length ≤ 3)
    (ht0 : tableAt m root p0 = some t0) {except : Nat → Prop}
    (hexcept : ∀ p t, p.length ≤ 3 → tableAt m root p = some t → p ≠ p0 ++ [i0] → ¬ except t)
    (hkeep : ∀ t i, IsFrame t → ¬ except t → ¬ (t = t0 ∧ i = i0) →
      tableEntry m' t i = tableEntry m t i)
    (p : TablePath) (t : Nat) (i : Fin 512) (hp : p.length ≤ 3) (ht : tableAt m root p = some t)
    (hnew : p ≠ p0 ++ [i0]) (hslot : p ++ [i] ≠ p0 ++ [i0]) :
    tableEntry m' t i = tableEntry m t i := by
  apply hkeep t i (h.frames p t hp ht) (hexcept p t hp ht hnew)
  rintro ⟨rfl, rfl⟩
  exact hslot (by rw [h.unshared p p0 t hp hp0 ht ht0])

/-- A fresh zeroed table hung into an absent entry. -/
theorem PageTree.graft (h : PageTree m root (f :: free)) (m' : Mem) (hf : IsFrame f) (hfree : f ∉ free)
    (hp0 : p0.length < 3) (ht0 : tableAt m root p0 = some t0)
    (habs : entryAt m root (p0 ++ [i0]) = none) {e : Nat}
    (hkeep : ∀ t i, IsFrame t → ¬ t = f → ¬ (t = t0 ∧ i = i0) →
      tableEntry m' t i = tableEntry m t i)
    (hzero : ∀ i, tableEntry m' f i = 0) (hentry : tableEntry m' t0 i0 = e)
    (he : decodeEntry e = some f) :
    PageTree m' root free ∧ ∀ p : TablePath, p.length ≤ 4 →
      entryAt m' root p = if p = p0 ++ [i0] then some e else entryAt m root p := by
  have hfresh : ∀ p t, p.length ≤ 3 → tableAt m root p = some t → ¬ t = f :=
    fun p t hp ht heq => h.off p t hp ht (heq ▸ List.mem_cons_self)
  have hnone : decodeEntry (tableEntry m t0 i0) = none :=
    RadixTree.found_eq_none.mp ((entryAt_concat ht0 i0).symm.trans habs)
  have hedit : ∀ p : TablePath, p.length ≤ 3 + 1 → entryAt m' root p =
      if p = p0 ++ [i0] then RadixTree.found decodeEntry (tableEntry m' t0 i0)
      else entryAt m root p := by
    refine RadixTree.present_edit ht0 (fun _ t i ht => ?_) (fun _ t i ht => ?_)
      (h.keeps (by omega) ht0 (fun p t hp ht _ => hfresh p t hp ht) hkeep)
    · rw [hnone] at ht
      cases ht
    · rw [hentry, he] at ht
      obtain rfl : f = t := by simpa using ht
      rw [hzero]
      rfl
  have htable : ∀ p : TablePath, p.length ≤ 3 →
      tableAt m' root p = if p = p0 ++ [i0] then some f else tableAt m root p := by
    intro p hp
    rw [tableAt, RadixTree.table_edit (hedit p (by omega)), hentry, he]
  have hcases : ∀ p t, p.length ≤ 3 → tableAt m' root p = some t →
      p = p0 ++ [i0] ∧ t = f ∨ tableAt m root p = some t := by
    intro p t hp ht
    rw [htable p hp] at ht
    by_cases heq : p = p0 ++ [i0]
    · rw [if_pos heq] at ht
      exact .inl ⟨heq, (by simpa using ht.symm)⟩
    · rw [if_neg heq] at ht
      exact .inr ht
  refine ⟨⟨?_, ?_, ?_⟩, ?_⟩
  · intro p t hp ht
    rcases hcases p t hp ht with ⟨_, rfl⟩ | hold
    · exact hf
    · exact h.frames p t hp hold
  · intro p q t hp hq ht ht'
    rcases hcases p t hp ht with ⟨rfl, rfl⟩ | hold <;>
      rcases hcases q t hq ht' with ⟨rfl, hq'⟩ | hold'
    · rfl
    · exact absurd rfl (hfresh q t hq hold')
    · exact absurd hq' (hfresh p t hp hold)
    · exact h.unshared p q t hp hq hold hold'
  · intro p t hp ht
    rcases hcases p t hp ht with ⟨_, rfl⟩ | hold
    · exact hfree
    · exact fun hin => h.off p t hp hold (List.mem_cons_of_mem f hin)
  · intro p hp
    rw [hedit p hp, hentry, RadixTree.found_of_decode he]

/-- A table without present entries cut off and its frame freed. -/
theorem PageTree.prune (h : PageTree m root free) (m' : Mem) (hp0 : p0.length < 3)
    (ht0 : tableAt m root p0 = some t0) (hf : tableAt m root (p0 ++ [i0]) = some f)
    (hempty : ∀ i, entryAt m root (p0 ++ [i0] ++ [i]) = none)
    (hkeep : ∀ t i, IsFrame t → ¬ t = f → ¬ (t = t0 ∧ i = i0) →
      tableEntry m' t i = tableEntry m t i)
    (hentry : tableEntry m' t0 i0 = 0) :
    PageTree m' root (f :: free) ∧ ∀ p : TablePath, p.length ≤ 4 →
      entryAt m' root p = if p = p0 ++ [i0] then none else entryAt m root p := by
  have hlen : (p0 ++ [i0]).length ≤ 3 := by
    rw [List.length_append, List.length_singleton]
    omega
  have honly : ∀ p t, p.length ≤ 3 → tableAt m root p = some t → p ≠ p0 ++ [i0] → ¬ t = f :=
    fun p t hp ht hne heq => hne (h.unshared p (p0 ++ [i0]) t hp hlen ht (heq ▸ hf))
  have hdecode : decodeEntry (tableEntry m t0 i0) = some f := (tableAt_concat ht0 i0).symm.trans hf
  have hdead : ∀ i, decodeEntry (tableEntry m f i) = none :=
    fun i => RadixTree.found_eq_none.mp ((entryAt_concat hf i).symm.trans (hempty i))
  have hedit : ∀ p : TablePath, p.length ≤ 3 + 1 → entryAt m' root p =
      if p = p0 ++ [i0] then RadixTree.found decodeEntry (tableEntry m' t0 i0)
      else entryAt m root p := by
    refine RadixTree.present_edit ht0 (fun _ t i ht => ?_) (fun _ t i ht => ?_)
      (h.keeps (by omega) ht0 honly hkeep)
    · rw [hdecode] at ht
      obtain rfl : f = t := by simpa using ht
      exact hdead i
    · rw [hentry] at ht
      cases ht
  have htable : ∀ p : TablePath, p.length ≤ 3 →
      tableAt m' root p = if p = p0 ++ [i0] then none else tableAt m root p := by
    intro p hp
    rw [tableAt, RadixTree.table_edit (hedit p (by omega)), hentry, decodeEntry_zero]
  have hsub : ∀ p t, p.length ≤ 3 → tableAt m' root p = some t →
      p ≠ p0 ++ [i0] ∧ tableAt m root p = some t := by
    intro p t hp ht
    rw [htable p hp] at ht
    by_cases heq : p = p0 ++ [i0]
    · rw [if_pos heq] at ht
      cases ht
    · rw [if_neg heq] at ht
      exact ⟨heq, ht⟩
  refine ⟨h.shrink (fun p t hp ht => (hsub p t hp ht).2) ?_, ?_⟩
  · intro p t hp ht hin
    obtain ⟨hne, hold⟩ := hsub p t hp ht
    rcases List.mem_cons.mp hin with heq | hin
    · exact honly p t hp hold hne heq
    · exact h.off p t hp hold hin
  · intro p hp
    rw [hedit p hp, hentry]
    rfl

/-- A leaf entry overwritten. -/
theorem PageTree.setLeaf (h : PageTree m root free) (m' : Mem) (i0 : Fin 512) (hp0 : p0.length = 3)
    (ht0 : tableAt m root p0 = some t0) {e : Nat}
    (hkeep : ∀ t i, IsFrame t → ¬ (t = t0 ∧ i = i0) → tableEntry m' t i = tableEntry m t i)
    (hentry : tableEntry m' t0 i0 = e) :
    PageTree m' root free ∧ ∀ p : TablePath, p.length ≤ 4 →
      entryAt m' root p =
        if p = p0 ++ [i0] then RadixTree.found decodeEntry e else entryAt m root p := by
  have hedit : ∀ p : TablePath, p.length ≤ 3 + 1 → entryAt m' root p =
      if p = p0 ++ [i0] then RadixTree.found decodeEntry (tableEntry m' t0 i0)
      else entryAt m root p := by
    refine RadixTree.present_edit ht0 (fun hlt => by omega) (fun hlt => by omega)
      ?_
    exact h.keeps (by omega) ht0 (fun _ _ _ _ _ => not_false) (fun t i ht _ => hkeep t i ht)
  have htable : ∀ p : TablePath, p.length ≤ 3 → tableAt m' root p = tableAt m root p := by
    intro p hp
    have hne : ¬ p = p0 ++ [i0] := by
      rintro rfl
      rw [List.length_append, List.length_singleton] at hp
      omega
    rw [tableAt, RadixTree.table_edit (hedit p (by omega)), if_neg hne]
  refine ⟨h.shrink (fun p t hp ht => htable p hp ▸ ht) (fun p t hp ht => ?_), fun p hp => ?_⟩
  · exact h.off p t hp (htable p hp ▸ ht)
  · rw [hedit p hp, hentry]

end CrapOs
