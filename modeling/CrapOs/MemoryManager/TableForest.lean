import CrapOs.MemoryManager.Footprint

/-! # The tables of several address spaces

Every live PML4 is the root of its own tree of tables. Two of them may lead to
the same table through the same slot, and share then everything below it; any
other table belongs to one of them alone. A call on the tables of one PML4 is
seen by another one exactly below the slots they share.
-/

namespace CrapOs

open Foundation

def SharesSlot (m : Mem) (r r' : Nat) (i : Fin 512) : Prop :=
  tableAt m r [i] ≠ none ∧ tableAt m r' [i] = tableAt m r [i]

/-- The live PML4s: common tables lie below a shared slot, on the same path. -/
structure Forest (m : Mem) (roots free : List Nat) : Prop where
  tree : ∀ r ∈ roots, PageTree m r free
  apart : ∀ r ∈ roots, ∀ r' ∈ roots, r ≠ r' → ∀ p q t, p.length ≤ 3 → q.length ≤ 3 →
    tableAt m r p = some t → tableAt m r' q = some t →
      ∃ i p', p = i :: p' ∧ q = i :: p' ∧ SharesSlot m r r' i

variable {m m' : Mem} {r r' k f t : Nat} {roots free : List Nat} {i : Fin 512} {p : TablePath}

theorem SharesSlot.symm (h : SharesSlot m r r' i) : SharesSlot m r' r i := ⟨h.2 ▸ h.1, h.2.symm⟩

/-- What two PML4s of a forest have in common. -/
def CommonBelow (m : Mem) (r r' : Nat) : Prop := ∀ p q t, p.length ≤ 3 → q.length ≤ 3 →
  tableAt m r p = some t → tableAt m r' q = some t →
    ∃ i p', p = i :: p' ∧ q = i :: p' ∧ SharesSlot m r r' i

theorem CommonBelow.symm (h : CommonBelow m r r') : CommonBelow m r' r := by
  intro p q t hp hq ht ht'
  obtain ⟨i, p', hqi, hpi, hshare⟩ := h q p t hq hp ht' ht
  exact ⟨i, p', hpi, hqi, hshare.symm⟩

theorem tableAt_slot (m : Mem) (r : Nat) (i : Fin 512) :
    tableAt m r [i] = decodeEntry (tableEntry m r i) := tableAt_concat (p := []) rfl i

theorem entryAt_slot (m : Mem) (r : Nat) (i : Fin 512) :
    entryAt m r [i] = RadixTree.found decodeEntry (tableEntry m r i) :=
  entryAt_concat (p := []) rfl i

theorem tableAt_cons (m : Mem) (r : Nat) (i : Fin 512) (p : TablePath) :
    tableAt m r (i :: p) = (tableAt m r [i]).bind (fun d => tableAt m d p) := by
  rw [tableAt_slot]
  rfl

theorem entryAt_cons (m : Mem) (r : Nat) (i : Fin 512) (hp : p ≠ []) :
    entryAt m r (i :: p) = (tableAt m r [i]).bind (fun d => entryAt m d p) := by
  rw [tableAt_slot]
  exact RadixTree.present_cons r i hp

theorem tableAt_of_slot (h : tableAt m r' [i] = tableAt m r [i]) (p : TablePath) :
    tableAt m r' (i :: p) = tableAt m r (i :: p) := by
  rw [tableAt_cons m r' i p, tableAt_cons m r i p, h]

theorem entryAt_of_slot (h : tableAt m r' [i] = tableAt m r [i]) (hp : p ≠ []) :
    entryAt m r' (i :: p) = entryAt m r (i :: p) := by
  rw [entryAt_cons m r' i hp, entryAt_cons m r i hp, h]

theorem entryAt_congr_slot (hslot : tableEntry m' r i = tableEntry m r i)
    (hbelow : ∀ q t j, (i :: q).length ≤ 3 → tableAt m r (i :: q) = some t →
      tableEntry m' t j = tableEntry m t j) (hp : (i :: p).length ≤ 4) :
    entryAt m' r (i :: p) = entryAt m r (i :: p) := by
  by_cases hnil : p = []
  · subst hnil
    rw [entryAt_slot, entryAt_slot, hslot]
  · have htable : tableAt m' r [i] = tableAt m r [i] := by rw [tableAt_slot, tableAt_slot, hslot]
    rw [entryAt_cons m' r i hnil, entryAt_cons m r i hnil, htable]
    cases ht : tableAt m r [i] with
    | none => rfl
    | some t =>
      refine RadixTree.present_congr (n := 3) (fun q u j hq hu => ?_) p
        (by rw [List.length_cons] at hp; omega)
      refine hbelow q u j (by rw [List.length_cons]; omega) ?_
      rw [tableAt_cons, ht]
      exact hu

theorem slot_of_tableAt_cons (h : tableAt m r (i :: p) = some t) : tableAt m r [i] ≠ none := by
  intro hnone
  rw [tableAt_cons, hnone] at h
  cases h

theorem tableAt_slot_of_entryAt_slot (h : entryAt m' r' [i] = entryAt m r [i]) :
    tableAt m' r' [i] = tableAt m r [i] := by
  rw [tableAt_eq_entryAt (by simp), tableAt_eq_entryAt (by simp), h]

namespace Forest

theorem frame (h : Forest m roots free) (hr : r ∈ roots) : IsFrame r :=
  (h.tree r hr).frames [] r (by simp) rfl

theorem root_off (h : Forest m roots free) (hr : r ∈ roots) : r ∉ free :=
  (h.tree r hr).off [] r (by simp) rfl

theorem mono {free' : List Nat} (h : Forest m roots free) (hsub : ∀ a ∈ free', a ∈ free) :
    Forest m roots free' where
  tree r hr := (h.tree r hr).shrink (fun _ _ _ ht => ht)
    (fun p t hp ht hin => (h.tree r hr).off p t hp ht (hsub t hin))
  apart := h.apart

theorem cons (h : Forest m roots free)
    (hout : ∀ r ∈ roots, ∀ p, p.length ≤ 3 → tableAt m r p ≠ some f) :
    Forest m roots (f :: free) where
  tree r hr := (h.tree r hr).shrink (fun _ _ _ ht => ht) (by
    intro p t hp ht hin
    rcases List.mem_cons.mp hin with rfl | hin
    · exact hout r hr p hp ht
    · exact (h.tree r hr).off p t hp ht hin)
  apart := h.apart

theorem congr {n : Mem} (h : Forest m roots free) (hkeep : ∀ r ∈ roots, ∀ p t i, p.length ≤ 3 →
    tableAt m r p = some t → tableEntry n t i = tableEntry m t i) :
    Forest n roots free ∧ ∀ r ∈ roots, ∀ p : TablePath, p.length ≤ 4 →
      entryAt n r p = entryAt m r p := by
  have htable : ∀ r ∈ roots, ∀ p : TablePath, p.length ≤ 4 → tableAt n r p = tableAt m r p :=
    fun r hr => RadixTree.table_congr (fun p t i hp ht => hkeep r hr p t i (by omega) ht)
  refine ⟨⟨fun r hr => ?_, ?_⟩, fun r hr =>
    RadixTree.present_congr (fun p t i hp ht => hkeep r hr p t i (by omega) ht)⟩
  · refine (h.tree r hr).shrink (fun p t hp ht => ?_) (fun p t hp ht => ?_)
    · rw [← htable r hr p (by omega)]
      exact ht
    · rw [htable r hr p (by omega)] at ht
      exact (h.tree r hr).off p t hp ht
  · intro r hr r' hr' hne p q t hp hq ht ht'
    rw [htable r hr p (by omega)] at ht
    rw [htable r' hr' q (by omega)] at ht'
    obtain ⟨i, p', rfl, rfl, hslot, hsame⟩ := h.apart r hr r' hr' hne p q t hp hq ht ht'
    refine ⟨i, p', rfl, rfl, ?_, ?_⟩
    · rw [htable r hr _ (by simp)]
      exact hslot
    · rw [htable r hr _ (by simp), htable r' hr' _ (by simp), hsame]

end Forest

/-! ## A copy of a PML4

Each slot of `f` is empty or the one of `k`.
-/

section Copy

variable (hslots : ∀ i, tableAt m f [i] = none ∨ tableAt m f [i] = tableAt m k [i])

include hslots

theorem tableAt_copy (ht : tableAt m f (i :: p) = some t) :
    tableAt m f [i] = tableAt m k [i] ∧ tableAt m k (i :: p) = some t := by
  have hslot := (hslots i).resolve_left (slot_of_tableAt_cons ht)
  exact ⟨hslot, (tableAt_of_slot hslot p).symm.trans ht⟩

theorem PageTree.copy (h : PageTree m k free) (hframe : IsFrame f) (hfresh : f ∉ free)
    (hnot : ∀ p : TablePath, p.length ≤ 3 → tableAt m k p ≠ some f) : PageTree m f free := by
  refine ⟨fun p t hp ht => ?_, fun p q t hp hq ht ht' => ?_, fun p t hp ht => ?_⟩
  · cases p with
    | nil => exact Option.some.inj ht ▸ hframe
    | cons i p => exact h.frames _ t hp (tableAt_copy hslots ht).2
  · cases p with
    | nil =>
      obtain rfl := Option.some.inj ht
      cases q with
      | nil => rfl
      | cons j q => exact absurd (tableAt_copy hslots ht').2 (hnot _ hq)
    | cons i p =>
      cases q with
      | nil =>
        obtain rfl := Option.some.inj ht'
        exact absurd (tableAt_copy hslots ht).2 (hnot _ hp)
      | cons j q =>
        exact h.unshared _ _ t hp hq (tableAt_copy hslots ht).2 (tableAt_copy hslots ht').2
  · cases p with
    | nil => exact Option.some.inj ht ▸ hfresh
    | cons i p => exact h.off _ t hp (tableAt_copy hslots ht).2

theorem Forest.common_copy (h : Forest m roots free) (hk : k ∈ roots) (hr : r ∈ roots)
    (hnot : ∀ p : TablePath, p.length ≤ 3 → tableAt m r p ≠ some f) : CommonBelow m f r := by
  intro p q t hp hq ht ht'
  cases p with
  | nil =>
    obtain rfl := Option.some.inj ht
    exact absurd ht' (hnot q hq)
  | cons i p =>
    obtain ⟨hslot, htk⟩ := tableAt_copy hslots ht
    have hsome : tableAt m f [i] ≠ none := slot_of_tableAt_cons ht
    by_cases hrk : r = k
    · rw [hrk] at ht' ⊢
      exact ⟨i, p, rfl, (h.tree k hk).unshared _ _ t hq hp ht' htk, hsome, hslot.symm⟩
    · obtain ⟨j, p', hij, rfl, hshare⟩ := h.apart k hk r hr (Ne.symm hrk) _ q t hp hq htk ht'
      obtain ⟨rfl, rfl⟩ := List.cons.inj hij
      exact ⟨i, p, rfl, rfl, hsome, hshare.2.trans hslot.symm⟩

theorem Forest.copy (h : Forest m roots free) (hk : k ∈ roots) (hframe : IsFrame f) (hfresh : f ∉ free)
    (hnot : ∀ r ∈ roots, ∀ p : TablePath, p.length ≤ 3 → tableAt m r p ≠ some f) :
    Forest m (f :: roots) free := by
  have hnew (r : Nat) (hr : r ∈ roots) : CommonBelow m f r := h.common_copy hslots hk hr (hnot r hr)
  constructor
  · intro r hr
    rcases List.mem_cons.mp hr with rfl | hr
    · exact (h.tree k hk).copy hslots hframe hfresh (hnot k hk)
    · exact h.tree r hr
  · intro a ha b hb hab
    rcases List.mem_cons.mp ha with heq | ha' <;> rcases List.mem_cons.mp hb with heq' | hb'
    · exact absurd (heq.trans heq'.symm) hab
    · exact heq ▸ hnew b hb'
    · exact heq' ▸ (hnew a ha').symm
    · exact h.apart a ha' b hb' hab

end Copy

/-! ## A call on one PML4, seen from another -/

structure Echoed (m m' : Mem) (r r' : Nat) : Prop where
  slot : ∀ i, tableEntry m' r' i = tableEntry m r' i
  shared : ∀ i (p : TablePath), SharesSlot m r r' i → p ≠ [] →
    entryAt m' r' (i :: p) = entryAt m' r (i :: p)
  kept : ∀ i (p : TablePath), ¬ SharesSlot m r r' i → (i :: p).length ≤ 4 →
    entryAt m' r' (i :: p) = entryAt m r' (i :: p)

theorem Echoed.entry_slot (h : Echoed m m' r r') (i : Fin 512) :
    entryAt m' r' [i] = entryAt m r' [i] := by
  rw [entryAt_slot, entryAt_slot, h.slot]

theorem Echoed.table_slot (h : Echoed m m' r r') (i : Fin 512) :
    tableAt m' r' [i] = tableAt m r' [i] :=
  tableAt_congr (h.entry_slot i)

theorem Echoed.entry_cases (h : Echoed m m' r r') (hp : p.length ≤ 4) :
    entryAt m' r' p = entryAt m r' p ∨ entryAt m' r' p = entryAt m' r p := by
  cases p with
  | nil => exact .inl rfl
  | cons i q =>
    by_cases hq : q = []
    · subst hq
      exact .inl (h.entry_slot i)
    · by_cases hshare : SharesSlot m r r' i
      · exact .inr (h.shared i q hshare hq)
      · exact .inl (h.kept i q hshare hp)

section Update

variable {s s' : Phys} {stack stack' : List Nat}

theorem Forest.not_touches (h : Forest s.mem roots stack) (hr : r ∈ roots) (hr' : r' ∈ roots)
    (hne : r' ≠ r) (hp : p.length ≤ 3) (ht : tableAt s.mem r' p = some t)
    (hout : ∀ i q, p = i :: q → ¬ SharesSlot s.mem r r' i) : ¬ Touches s r stack t := by
  rintro (rfl | hin | ⟨q, -, hq, hqt⟩)
  · obtain ⟨i, p', hnil, -⟩ := h.apart t hr r' hr' (Ne.symm hne) [] p t (by simp) hp rfl ht
    cases hnil
  · exact (h.tree r' hr').off p t hp ht hin
  · obtain ⟨i, p', -, hpi, hshare⟩ := h.apart r hr r' hr' (Ne.symm hne) q p t hq hp hqt ht
    exact hout i p' hpi hshare

theorem Forest.isFrame_of_touches (h : Forest s.mem roots stack) (hfree : FreeStack s stack)
    (hr : r ∈ roots) {a : Nat} (ha : Touches s r stack a) : IsFrame a := by
  rcases ha with rfl | hin | ⟨p, -, hp, ht⟩
  · exact h.frame hr
  · exact hfree.frames a hin
  · exact (h.tree r hr).frames p a hp ht

theorem Forest.echoed (h : Forest s.mem roots stack) (hfree : FreeStack s stack) (hr : r ∈ roots)
    (hchange : Mem.ChangesOnly s.mem s'.mem pageSize (Touches s r stack))
    (hslots : ∀ i, SharesSlot s.mem r r' i → tableAt s'.mem r [i] = tableAt s.mem r [i])
    (hr' : r' ∈ roots) (hne : r' ≠ r) : Echoed s.mem s'.mem r r' := by
  have hkeep : ∀ p t j, p.length ≤ 3 → tableAt s.mem r' p = some t →
      (∀ i q, p = i :: q → ¬ SharesSlot s.mem r r' i) →
      tableEntry s'.mem t j = tableEntry s.mem t j := by
    intro p t j hp ht hout
    have hun := h.not_touches hr hr' hne hp ht hout
    refine tableEntry_congr (agreeOn_of_changesOnly hchange ?_ fun a ha => ?_) j
    · exact (h.tree r' hr').frames p t hp ht
    · exact ⟨h.isFrame_of_touches hfree hr ha, fun heq => hun (heq ▸ ha)⟩
  have hslot : ∀ i, tableEntry s'.mem r' i = tableEntry s.mem r' i :=
    fun i => hkeep [] r' i (by simp) rfl (by simp)
  refine ⟨hslot, fun i p hshare hp => ?_, fun i p hshare hp => ?_⟩
  · apply entryAt_of_slot _ hp
    rw [tableAt_slot, hslot, ← tableAt_slot, hslots i hshare, hshare.2]
  · refine entryAt_congr_slot (hslot i) (fun q t j hq ht => hkeep (i :: q) t j hq ht ?_) hp
    rintro i' q' heq
    obtain ⟨rfl, -⟩ := List.cons.inj heq
    exact hshare

/-- Each table of `r'` after a call on those of `r` is one of `r`, below a shared slot, or an old
one outside the footprint. -/
def TablesFrom (s s' : Phys) (r r' : Nat) (stack : List Nat) : Prop :=
  ∀ p t, p.length ≤ 3 → tableAt s'.mem r' p = some t →
    (∃ i q, p = i :: q ∧ SharesSlot s.mem r r' i ∧ tableAt s'.mem r p = some t ∧ Touches s r stack t) ∨
      tableAt s.mem r' p = some t ∧ ¬ Touches s r stack t

theorem Forest.tablesFrom (h : Forest s.mem roots stack) (hr : r ∈ roots) (hr' : r' ∈ roots)
    (hne : r' ≠ r) (htouch : ∀ a, Touches s' r stack' a ↔ Touches s r stack a)
    (hecho : Echoed s.mem s'.mem r r')
    (hslots : ∀ i, SharesSlot s.mem r r' i → tableAt s'.mem r [i] = tableAt s.mem r [i]) :
    TablesFrom s s' r r' stack := by
  intro p t hp ht
  cases p with
  | nil => exact .inr ⟨ht, h.not_touches hr hr' hne hp ht (by simp)⟩
  | cons i q =>
    by_cases hshare : SharesSlot s.mem r r' i
    · have hsame : tableAt s'.mem r' [i] = tableAt s'.mem r [i] := by
        rw [hecho.table_slot, hslots i hshare, hshare.2]
      have ht' : tableAt s'.mem r (i :: q) = some t := (tableAt_of_slot hsame q).symm.trans ht
      exact .inl ⟨i, q, rfl, hshare, ht', (htouch t).mp (touches_of_tableAt ht' hp)⟩
    · have ht' : tableAt s.mem r' (i :: q) = some t :=
        (tableAt_congr (hecho.kept i q hshare (by omega))).symm.trans ht
      refine .inr ⟨ht', h.not_touches hr hr' hne hp ht' ?_⟩
      rintro i' q' heq
      obtain ⟨rfl, -⟩ := List.cons.inj heq
      exact hshare

namespace TablesFrom

theorem tree (h : TablesFrom s s' r r' stack) (hold : PageTree s.mem r' stack)
    (htree : PageTree s'.mem r stack') (htouch : ∀ a, Touches s' r stack' a ↔ Touches s r stack a) :
    PageTree s'.mem r' stack' := by
  refine ⟨fun p t hp ht => ?_, fun p q t hp hq ht ht' => ?_, fun p t hp ht hstack => ?_⟩
  · rcases h p t hp ht with ⟨-, -, -, -, ht, -⟩ | ⟨ht, -⟩
    · exact htree.frames p t hp ht
    · exact hold.frames p t hp ht
  · rcases h p t hp ht with ⟨-, -, -, -, ht, hin⟩ | ⟨ht, hout⟩ <;>
      rcases h q t hq ht' with ⟨-, -, -, -, ht', hin'⟩ | ⟨ht', hout'⟩
    · exact htree.unshared p q t hp hq ht ht'
    · exact absurd hin hout'
    · exact absurd hin' hout
    · exact hold.unshared p q t hp hq ht ht'
  · rcases h p t hp ht with ⟨-, -, -, -, ht, -⟩ | ⟨-, hout⟩
    · exact htree.off p t hp ht hstack
    · exact hout ((htouch t).mp (.inr (.inl hstack)))

theorem common_changed (h : TablesFrom s s' r r' stack) (htree : PageTree s'.mem r stack')
    (htouch : ∀ a, Touches s' r stack' a ↔ Touches s r stack a) (hecho : Echoed s.mem s'.mem r r')
    (hslots : ∀ i, SharesSlot s.mem r r' i → tableAt s'.mem r [i] = tableAt s.mem r [i]) :
    CommonBelow s'.mem r r' := by
  intro p q t hp hq ht ht'
  rcases h q t hq ht' with ⟨i, q', rfl, hshare, ht'', -⟩ | ⟨-, hout⟩
  · refine ⟨i, q', htree.unshared p _ t hp hq ht ht'', rfl, slot_of_tableAt_cons ht'', ?_⟩
    rw [hecho.table_slot, hslots i hshare, hshare.2]
  · exact absurd ((htouch t).mp (touches_of_tableAt ht hp)) hout

theorem common {a b : Nat} (ha : TablesFrom s s' r a stack) (hb : TablesFrom s s' r b stack)
    (hcommon : CommonBelow s.mem a b) (htree : PageTree s'.mem r stack')
    (hecho : Echoed s.mem s'.mem r a) (hecho' : Echoed s.mem s'.mem r b) : CommonBelow s'.mem a b := by
  intro p q t hp hq ht ht'
  rcases ha p t hp ht with ⟨i, p', rfl, hshare, ht1, hin⟩ | ⟨ht1, hout⟩ <;>
    rcases hb q t hq ht' with ⟨j, q', rfl, hshare', ht2, hin'⟩ | ⟨ht2, hout'⟩
  · obtain ⟨rfl, rfl⟩ := List.cons.inj (htree.unshared _ _ t hp hq ht1 ht2)
    refine ⟨i, p', rfl, rfl, slot_of_tableAt_cons ht, ?_⟩
    rw [hecho.table_slot, hecho'.table_slot, hshare.2, hshare'.2]
  · exact absurd hin hout'
  · exact absurd hin' hout
  · obtain ⟨i, p', rfl, rfl, hslot, hsame⟩ := hcommon p q t hp hq ht1 ht2
    refine ⟨i, p', rfl, rfl, ?_, ?_⟩
    · rw [hecho.table_slot]
      exact hslot
    · rw [hecho.table_slot, hecho'.table_slot, hsame]

end TablesFrom

theorem Forest.update (h : Forest s.mem roots stack) (hfree : FreeStack s stack) (hr : r ∈ roots)
    (htree : PageTree s'.mem r stack')
    (htouch : ∀ a, Touches s' r stack' a ↔ Touches s r stack a)
    (hchange : Mem.ChangesOnly s.mem s'.mem pageSize (Touches s r stack))
    (hslots : ∀ r' ∈ roots, r' ≠ r → ∀ i, SharesSlot s.mem r r' i →
      tableAt s'.mem r [i] = tableAt s.mem r [i]) :
    Forest s'.mem roots stack' ∧ ∀ r' ∈ roots, r' ≠ r → Echoed s.mem s'.mem r r' := by
  have hecho : ∀ r' ∈ roots, r' ≠ r → Echoed s.mem s'.mem r r' := fun r' hr' hne =>
    h.echoed hfree hr hchange (hslots r' hr' hne) hr' hne
  have hfrom (r' : Nat) (hr' : r' ∈ roots) (hne : r' ≠ r) : TablesFrom s s' r r' stack :=
    h.tablesFrom hr hr' hne htouch (hecho r' hr' hne) (hslots r' hr' hne)
  have hown (r' : Nat) (hr' : r' ∈ roots) (hne : r' ≠ r) : CommonBelow s'.mem r r' :=
    (hfrom r' hr' hne).common_changed htree htouch (hecho r' hr' hne) (hslots r' hr' hne)
  refine ⟨⟨fun r' hr' => ?_, fun a ha b hb hab => ?_⟩, hecho⟩
  · by_cases hne : r' = r
    · rw [hne]
      exact htree
    · exact (hfrom r' hr' hne).tree (h.tree r' hr') htree htouch
  · by_cases har : a = r
    · rw [har] at hab ⊢
      exact hown b hb (Ne.symm hab)
    by_cases hbr : b = r
    · rw [hbr]
      exact (hown a ha har).symm
    exact (hfrom a ha har).common (hfrom b hb hbr) (h.apart a ha b hb hab) htree (hecho a ha har)
      (hecho b hb hbr)

end Update

/-- The free list is `stack` and the tables of all live PML4s avoid it. -/
structure Spaces (s : Phys) (roots stack : List Nat) : Prop where
  free : FreeStack s stack
  forest : Forest s.mem roots stack

namespace Spaces

variable {s s' : Phys} {stack stack' : List Nat} {v : Nat}

theorem paging (h : Spaces s roots stack) (hr : r ∈ roots) : Paging s r stack :=
  ⟨h.free, h.forest.tree r hr⟩

theorem allocPage (h : Spaces s roots (f :: stack)) :
    (CrapOs.allocPage s).1 = some f ∧ Spaces (CrapOs.allocPage s).2 roots stack := by
  obtain ⟨htop, hfree⟩ := allocPage_spec h.free
  refine ⟨htop, hfree, ?_⟩
  rw [allocPage_mem]
  exact h.forest.mono fun a ha => List.mem_cons_of_mem f ha

theorem mapPage (h : Spaces s roots stack) (hr : r ∈ roots) {hh isUserPage : Bool}
    {physicalAddr flags : Nat} (hpa : physicalAddr < 2 ^ 64) (hflags : flags < 2 ^ 64)
    (hok : CrapOs.mapPage s (virtOf hh r) v physicalAddr flags isUserPage = .ok s') :
    ∃ stack', Mapped r (intermediateFlags isUserPage) s stack v (leafEntry physicalAddr flags) s'
        stack' ∧ Spaces s' roots stack' ∧
      ∀ r' ∈ roots, r' ≠ r → Echoed s.mem s'.mem r r' := by
  have hpaging := h.paging hr
  rcases mapPage_spec hpaging hh v physicalAddr flags isUserPage hpa hflags with
    ⟨-, herr⟩ | ⟨s1, stack', hok1, hmapped⟩
  · rw [hok] at herr
    cases herr
  · rw [hok] at hok1
    cases hok1
    have hslots : ∀ r' ∈ roots, r' ≠ r → ∀ i, SharesSlot s.mem r r' i →
        tableAt s'.mem r [i] = tableAt s.mem r [i] := by
      intro r' _ _ i hshare
      apply tableAt_congr
      apply hmapped.keep [i] (by simp) (ne_pagePath_of_length (by simp))
      exact fun hnone => hshare.1 ((RadixTree.present_eq_none_iff (by simp)).mp hnone)
    obtain ⟨hforest, hecho⟩ := h.forest.update h.free hr hmapped.paging.tree
      hmapped.touches_iff (mapPage_footprint hpaging hok) hslots
    exact ⟨stack', hmapped, ⟨hmapped.paging.free, hforest⟩, hecho⟩

/-- The page of `v` is the only one mapped below its PML4 slot. -/
def LastPage (m : Mem) (r v : Nat) : Prop :=
  ∀ q : TablePath, q.length = 4 → q.head? = some (tableSlot 39 v) → entryAt m r q ≠ none →
    q = pagePath v

/-- Unless it empties a slot another PML4 shares, unmapping below one PML4 prunes
its tree and leaves the others theirs. -/
theorem unmapPage (h : Spaces s roots stack) (hr : r ∈ roots) (hh : Bool)
    (hlast : ∀ r' ∈ roots, r' ≠ r → SharesSlot s.mem r r' (tableSlot 39 v) →
      ¬ LastPage s.mem r v) :
    (entryAt s.mem r (pagePath v) = none ∧ CrapOs.unmapPage s (virtOf hh r) v = (false, s)) ∨
    (entryAt s.mem r (pagePath v) ≠ none ∧ ∃ s' stack',
      CrapOs.unmapPage s (virtOf hh r) v = (true, s') ∧ Unmapped r s stack v s' stack' ∧
        Spaces s' roots stack' ∧ ∀ r' ∈ roots, r' ≠ r → Echoed s.mem s'.mem r r') := by
  have hpaging := h.paging hr
  have hfoot := unmapPage_footprint hpaging v hh
  rcases unmapPage_spec hpaging v hh with ⟨hnone, hrun⟩ | ⟨hsome, s', stack', hrun, hun, -⟩
  · exact .inl ⟨hnone, hrun⟩
  rw [hrun] at hfoot
  refine .inr ⟨hsome, s', stack', hrun, hun, ?_⟩
  have hslots : ∀ r' ∈ roots, r' ≠ r → ∀ i, SharesSlot s.mem r r' i →
      tableAt s'.mem r [i] = tableAt s.mem r [i] := by
    intro r' hr' hne i hshare
    have hold : entryAt s.mem r [i] ≠ none :=
      fun hnone => hshare.1 ((RadixTree.present_eq_none_iff (by simp)).mp hnone)
    have hnew : entryAt s'.mem r [i] ≠ none := by
      intro hgone
      -- only the slot of `v` can have been emptied, and another page is left below it
      have hpre := (mem_prefixSet.mp (hun.confined [i] (by simp) hold hgone)).2
      have hi : i = tableSlot 39 v := by
        obtain ⟨q, hq⟩ := hpre
        exact (List.cons.inj hq).1
      subst hi
      obtain ⟨q, hq, hhead, hpage, hqv⟩ : ∃ q : TablePath, q.length = 4 ∧
          q.head? = some (tableSlot 39 v) ∧ entryAt s.mem r q ≠ none ∧ q ≠ pagePath v := by
        have hnot := hlast r' hr' hne hshare
        unfold LastPage at hnot
        simpa using hnot
      cases q with
      | nil => cases hhead
      | cons j q =>
        obtain rfl : j = tableSlot 39 v := Option.some.inj hhead
        have hleft := hun.leaves _ hq hqv
        rw [← hleft] at hpage
        exact RadixTree.present_of_append (p := [tableSlot 39 v]) (by simp) hpage hgone
    exact tableAt_congr (hun.keep [i] (by simp) hnew)
  obtain ⟨hforest, hecho⟩ := h.forest.update h.free hr hun.paging.tree hun.touches_iff hfoot hslots
  exact ⟨⟨hun.paging.free, hforest⟩, hecho⟩

/-- A new PML4 with an empty lower half that shares the whole upper half of `k`. -/
theorem adopt (h : Spaces s roots (f :: stack)) (hk : k ∈ roots) (hfree : FreeStack s' stack)
    (hlow : ∀ i : Fin 512, i.val < 256 → tableEntry s'.mem f i = 0)
    (hhigh : ∀ i : Fin 512, 256 ≤ i.val → tableEntry s'.mem f i = tableEntry s.mem k i)
    (hkeep : ∀ t i, IsFrame t → t ≠ f → tableEntry s'.mem t i = tableEntry s.mem t i) :
    Spaces s' (f :: roots) stack ∧
      (∀ r ∈ roots, ∀ p : TablePath, p.length ≤ 4 → entryAt s'.mem r p = entryAt s.mem r p) ∧
      (∀ (i : Fin 512) (p : TablePath), i.val < 256 → entryAt s'.mem f (i :: p) = none) ∧
      ∀ (i : Fin 512) (p : TablePath), 256 ≤ i.val → (i :: p).length ≤ 4 →
        entryAt s'.mem f (i :: p) = entryAt s.mem k (i :: p) := by
  have hframe := h.free.frames f List.mem_cons_self
  have hfresh : f ∉ stack := (List.nodup_cons.mp h.free.nodup).1
  have hnot : ∀ r ∈ roots, ∀ p : TablePath, p.length ≤ 3 → tableAt s.mem r p ≠ some f :=
    fun r hr p hp ht => (h.forest.tree r hr).off p f hp ht List.mem_cons_self
  obtain ⟨hforest, hsame⟩ := (h.forest.mono fun a ha => List.mem_cons_of_mem f ha).congr
    (n := s'.mem) (fun r hr p t i hp ht =>
      hkeep t i ((h.forest.tree r hr).frames p t hp ht) (fun heq => hnot r hr p hp (heq ▸ ht)))
  have hnot' : ∀ r ∈ roots, ∀ p : TablePath, p.length ≤ 3 → tableAt s'.mem r p ≠ some f := by
    intro r hr p hp
    rw [tableAt_congr (hsame r hr p (by omega))]
    exact hnot r hr p hp
  have hkf : k ≠ f := fun heq => hnot k hk [] (by simp) (heq ▸ rfl)
  have hnone : ∀ i : Fin 512, i.val < 256 → tableAt s'.mem f [i] = none := by
    intro i hi
    rw [tableAt_slot, hlow i hi]
    rfl
  have hentry : ∀ i : Fin 512, 256 ≤ i.val → tableEntry s'.mem f i = tableEntry s'.mem k i := by
    intro i hi
    rw [hhigh i hi, hkeep k i (h.forest.frame hk) hkf]
  have hslot : ∀ i : Fin 512, 256 ≤ i.val → tableAt s'.mem f [i] = tableAt s'.mem k [i] := by
    intro i hi
    rw [tableAt_slot, tableAt_slot, hentry i hi]
  have hslots (i : Fin 512) : tableAt s'.mem f [i] = none ∨ tableAt s'.mem f [i] = tableAt s'.mem k [i] :=
    (Nat.lt_or_ge i.val 256).imp (hnone i) (hslot i)
  refine ⟨⟨hfree, hforest.copy hslots hk hframe hfresh hnot'⟩, hsame, ?_, ?_⟩
  · intro i p hi
    have hempty := hnone i hi
    rw [← RadixTree.present_eq_none_iff (by simp)] at hempty
    by_contra hsome
    exact RadixTree.present_of_append (p := [i]) (q := p) (by simp) hsome hempty
  · intro i p hi hp
    rw [← hsame k hk _ hp]
    by_cases hnil : p = []
    · subst hnil
      rw [entryAt_slot, entryAt_slot, hentry i hi]
    · exact entryAt_of_slot (hslot i hi) hnil

end Spaces

end CrapOs
