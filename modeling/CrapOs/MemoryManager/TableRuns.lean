import CrapOs.MemoryManager.AddressSpace
import CrapOs.MemoryManager.Translation

/-! # Runs of calls on the tables of several address spaces

What each call of the memory manager does to the tables of all live PML4s and
to the free list, and what the loops of the kernel that make several such calls
amount to. Invariants over whole runs are proved one call at a time.
-/

namespace CrapOs

open Foundation

/-- The calls that change tables or the free list. PML4s are named by their frames;
`claim` allocates a frame and maps it, `adopt` fills the new PML4 `root`. -/
inductive TableCall where
  | take
  | map (root virtualAddr physicalAddr flags : Nat) (isUserPage : Bool)
  | claim (root virtualAddr flags : Nat)
  | unmap (root virtualAddr : Nat)
  | give (addr : Nat)
  | adopt (kernelRoot root : Nat)
deriving DecidableEq, Repr

/-- A machine with its live PML4s and its free list spelled out. -/
structure TableView where
  phys : Phys
  roots : List Nat
  stack : List Nat

namespace TableView

def Sound (x : TableView) : Prop := Spaces x.phys x.roots x.stack

def entry (x : TableView) (r : Nat) (p : TablePath) : Option Nat := entryAt x.phys.mem r p

def slot (x : TableView) (r : Nat) (i : Fin 512) : Option Nat := tableAt x.phys.mem r [i]

def Holds (x : TableView) (a : Nat) : Prop :=
  a ∈ x.stack ∨ ∃ r ∈ x.roots, a = r ∨ IsInner x.phys.mem r a

end TableView

inductive TableStep : TableCall → TableView → TableView → Prop
  | take {s s' : Phys} {roots stack : List Nat} {f : Nat} : s'.mem = s.mem →
      TableStep .take ⟨s, roots, f :: stack⟩ ⟨s', roots, stack⟩
  | map {s s' : Phys} {roots stack stack' : List Nat} {r v pa flags : Nat} {isUserPage : Bool} :
      r ∈ roots →
      Mapped r (intermediateFlags isUserPage) s stack v (leafEntry pa flags) s' stack' →
      (∀ r' ∈ roots, r' ≠ r → Echoed s.mem s'.mem r r') →
      TableStep (.map r v pa flags isUserPage) ⟨s, roots, stack⟩ ⟨s', roots, stack'⟩
  | claim {s : Phys} {roots stack : List Nat} {f r v flags : Nat} {x y : TableView} :
      TableStep .take ⟨s, roots, f :: stack⟩ x → x.Sound →
      TableStep (.map r v f flags true) x y →
      TableStep (.claim r v flags) ⟨s, roots, f :: stack⟩ y
  | unmap {s s' : Phys} {roots stack stack' : List Nat} {r v : Nat} : r ∈ roots →
      Unmapped r s stack v s' stack' → (∀ r' ∈ roots, r' ≠ r → Echoed s.mem s'.mem r r') →
      TableStep (.unmap r v) ⟨s, roots, stack⟩ ⟨s', roots, stack'⟩
  | give {s s' : Phys} {roots stack : List Nat} {a : Nat} :
      (∀ r ∈ roots, ∀ p : TablePath, p.length ≤ 4 → entryAt s'.mem r p = entryAt s.mem r p) →
      TableStep (.give a) ⟨s, roots, stack⟩ ⟨s', roots, a :: stack⟩
  | adopt {s s' : Phys} {roots stack : List Nat} {k f : Nat} : k ∈ roots →
      (∀ r ∈ roots, ∀ p : TablePath, p.length ≤ 4 → entryAt s'.mem r p = entryAt s.mem r p) →
      (∀ (i : Fin 512) (p : TablePath), i.val < 256 → entryAt s'.mem f (i :: p) = none) →
      (∀ (i : Fin 512) (p : TablePath), 256 ≤ i.val → (i :: p).length ≤ 4 →
        entryAt s'.mem f (i :: p) = entryAt s.mem k (i :: p)) →
      TableStep (.adopt k f) ⟨s, roots, f :: stack⟩ ⟨s', f :: roots, stack⟩

/-- Calls made one after another, each leaving the tables in order. -/
inductive TableRun : List TableCall → TableView → TableView → Prop
  | nil (x : TableView) : TableRun [] x x
  | cons {c : TableCall} {cs : List TableCall} {x y z : TableView} : TableStep c x y → y.Sound →
      TableRun cs y z → TableRun (c :: cs) x z

variable {c : TableCall} {cs : List TableCall} {x y z : TableView} {r r' k f v a : Nat}

theorem TableRun.single (h : TableStep c x y) (hy : y.Sound) : TableRun [c] x y :=
  .cons h hy (.nil y)

theorem TableRun.invariant (inv : TableView → Prop) (h : TableRun cs x y) (hx : x.Sound)
    (hinv : inv x)
    (hstep : ∀ c ∈ cs, ∀ x y, x.Sound → inv x → TableStep c x y → y.Sound → inv y) :
    y.Sound ∧ inv y := by
  induction h with
  | nil x => exact ⟨hx, hinv⟩
  | cons hc hy _ ih =>
    refine ih hy (hstep _ List.mem_cons_self _ _ hx hinv hc hy) fun c hin => ?_
    exact hstep c (List.mem_cons_of_mem _ hin)

theorem TableStep.take_mem (h : TableStep .take x y) : y.phys.mem = x.phys.mem := by
  cases h
  assumption

variable {e flags : Nat} {i : Fin 512} {isUserPage : Bool} {m m' : Mem} {p : TablePath} {pa : Nat}
  {q : TablePath} {roots : List Nat} {s s' : Phys} {stack stack' : List Nat}

theorem TableStep.mapped (h : TableStep (.map r v pa flags isUserPage) x y) :
    Mapped r (intermediateFlags isUserPage) x.phys x.stack v (leafEntry pa flags) y.phys y.stack := by
  cases h
  assumption

theorem TableStep.echoed (h : TableStep (.map r v pa flags isUserPage) x y) (hr : r' ∈ x.roots)
    (hne : r' ≠ r) :
    Echoed x.phys.mem y.phys.mem r r' := by
  cases h with
  | map _ _ hecho => exact hecho r' hr hne

theorem TableStep.claimed (h : TableStep (.claim r v flags) x y) :
    ∃ f x1, x1.phys.mem = x.phys.mem ∧ x1.roots = x.roots ∧ x.stack = f :: x1.stack ∧
      TableStep (.map r v f flags true) x1 y := by
  cases h with
  | claim htake _ hmap =>
    refine ⟨_, _, htake.take_mem, ?_, ?_, hmap⟩
    · cases htake
      rfl
    · cases htake
      rfl

theorem Echoed.isInner (h : Echoed m m' r r') (ha : IsInner m' r' a) :
    IsInner m r' a ∨ IsInner m' r a := by
  obtain ⟨p, hp, e, he, hdec⟩ := isInner_iff.mp ha
  rcases h.entry_cases (p := p) (by omega) with hold | hnew
  · exact .inl (isInner_iff.mpr ⟨p, hp, e, hold ▸ he, hdec⟩)
  · exact .inr (isInner_iff.mpr ⟨p, hp, e, hnew ▸ he, hdec⟩)

private theorem holds_of_owned (hr : r ∈ roots)
    (howned : ∀ a, a ∈ stack' ∨ IsInner s'.mem r a ↔ a ∈ stack ∨ IsInner s.mem r a)
    (hecho : ∀ r' ∈ roots, r' ≠ r → Echoed s.mem s'.mem r r')
    (ha : (⟨s', roots, stack'⟩ : TableView).Holds a) :
    (⟨s, roots, stack⟩ : TableView).Holds a := by
  have hback : a ∈ stack' ∨ IsInner s'.mem r a → (⟨s, roots, stack⟩ : TableView).Holds a := by
    intro h
    rcases (howned a).mp h with hin | hin
    · exact .inl hin
    · exact .inr ⟨r, hr, .inr hin⟩
  rcases ha with hin | ⟨r', hr', rfl | hin⟩
  · exact hback (.inl hin)
  · exact .inr ⟨a, hr', .inl rfl⟩
  · by_cases hne : r' = r
    · exact hback (.inr (hne ▸ hin))
    · rcases (hecho r' hr' hne).isInner hin with hold | hnew
      · exact .inr ⟨r', hr', .inr hold⟩
      · exact hback (.inr hnew)

private theorem isInner_of_entries
    (h : ∀ p : TablePath, p.length ≤ 4 → entryAt m' r p = entryAt m r p) :
    IsInner m' r a ↔ IsInner m r a :=
  isInner_congr fun p hp => tableAt_congr (h p (by omega))

/-- No call but `give` adds to the frames that are free or tables. -/
theorem TableStep.holds (h : TableStep c x y) (hc : ∀ a, c ≠ .give a) (ha : y.Holds a) :
    x.Holds a := by
  induction h with
  | take hmem =>
    rcases ha with hin | ⟨r, hr, hin⟩
    · exact .inl (List.mem_cons_of_mem _ hin)
    · exact .inr ⟨r, hr, hmem ▸ hin⟩
  | map hr hmapped hecho => exact holds_of_owned hr hmapped.owned hecho ha
  | claim _ _ _ ihtake ihmap => exact ihtake (by simp) (ihmap (by simp) ha)
  | unmap hr hun hecho => exact holds_of_owned hr hun.owned hecho ha
  | give _ => exact absurd rfl (hc _)
  | @adopt s s' roots stack k f hk hold hlow hhigh =>
    rcases ha with hin | ⟨r, hr, hin⟩
    · exact .inl (List.mem_cons_of_mem _ hin)
    rcases List.mem_cons.mp hr with rfl | hr
    · rcases hin with rfl | hin
      · exact .inl List.mem_cons_self
      · -- a table below the new PML4 is one below the copied half of the kernel's
        obtain ⟨p, hp, e, he, hdec⟩ := isInner_iff.mp hin
        cases p with
        | nil => cases he
        | cons i p =>
          by_cases hi : i.val < 256
          · rw [hlow i p hi] at he
            cases he
          · rw [hhigh i p (by omega) (by omega)] at he
            exact .inr ⟨k, hk, .inr (isInner_iff.mpr ⟨_, hp, e, he, hdec⟩)⟩
    · refine .inr ⟨r, hr, hin.imp id fun hin => ?_⟩
      exact (isInner_of_entries (hold r hr)).mp hin

def TableCall.slot : TableCall → Option (Fin 512)
  | .map _ v _ _ _ => some (tableSlot 39 v)
  | .claim _ v _ => some (tableSlot 39 v)
  | .unmap _ v => some (tableSlot 39 v)
  | _ => none

private theorem head_of_mem_prefixSet (hq : q <+: pagePath v) (h : i :: p ∈ prefixSet q) :
    i = tableSlot 39 v := by
  obtain ⟨t, ht⟩ := (mem_prefixSet.mp h).2.trans hq
  exact (List.cons.inj ht).1

theorem Mapped.other_slot {leaf : Nat} (h : Mapped r flags s stack v leaf s' stack')
    (hi : i ≠ tableSlot 39 v) (hp : (i :: p).length ≤ 4) :
    entryAt s'.mem r (i :: p) = entryAt s.mem r (i :: p) := by
  have hne : i :: p ≠ pagePath v := fun heq => hi (List.cons.inj heq).1
  by_cases hnone : entryAt s.mem r (i :: p) = none
  · by_contra hsome
    rw [hnone] at hsome
    exact hi (head_of_mem_prefixSet (List.prefix_append _ _) (h.fresh _ hp hne hnone hsome).1)
  · exact h.keep _ hp hne hnone

theorem Unmapped.other_slot (h : Unmapped r s stack v s' stack') (hi : i ≠ tableSlot 39 v)
    (hp : (i :: p).length ≤ 4) : entryAt s'.mem r (i :: p) = entryAt s.mem r (i :: p) := by
  by_cases hnone : entryAt s'.mem r (i :: p) = none
  · by_contra hsome
    rw [hnone] at hsome
    exact hi (head_of_mem_prefixSet List.prefix_rfl (h.confined _ hp (Ne.symm hsome) hnone))
  · exact h.keep _ hp hnone

theorem Echoed.other_slot (h : Echoed m m' r r') (hp : (i :: p).length ≤ 4)
    (hsame : entryAt m' r (i :: p) = entryAt m r (i :: p)) :
    entryAt m' r' (i :: p) = entryAt m r' (i :: p) := by
  by_cases hnil : p = []
  · subst hnil
    exact h.entry_slot i
  by_cases hshare : SharesSlot m r r' i
  · rw [h.shared i p hshare hnil, hsame]
    exact (entryAt_of_slot hshare.2 hnil).symm
  · exact h.kept i p hshare hp

/-- Entries below other slots stay what they are, in all address spaces. -/
theorem TableStep.other_slot (h : TableStep c x y) (hr : r ∈ x.roots) (hi : c.slot ≠ some i)
    (hp : (i :: p).length ≤ 4) :
    y.entry r (i :: p) = x.entry r (i :: p) := by
  have hspread : ∀ {s s' : Phys} {roots : List Nat} {r0 : Nat}, r ∈ roots →
      (∀ r' ∈ roots, r' ≠ r0 → Echoed s.mem s'.mem r0 r') →
      entryAt s'.mem r0 (i :: p) = entryAt s.mem r0 (i :: p) →
      entryAt s'.mem r (i :: p) = entryAt s.mem r (i :: p) := by
    intro s s' roots r0 hr hecho hown
    by_cases hrr : r = r0
    · rw [hrr]
      exact hown
    · exact (hecho r hr hrr).other_slot hp hown
  cases h with
  | take hmem => rw [TableView.entry, TableView.entry, hmem]
  | map hr0 hmapped hecho =>
    exact hspread hr hecho (hmapped.other_slot (fun heq => hi (congrArg some heq.symm)) hp)
  | claim htake _ hstep =>
    cases htake with
    | take hmem =>
      cases hstep with
      | map hr0 hmapped hecho =>
        have hown := hmapped.other_slot (p := p) (fun heq => hi (congrArg some heq.symm)) hp
        refine (hspread hr hecho hown).trans ?_
        rw [TableView.entry, hmem]
  | unmap hr0 hun hecho =>
    exact hspread hr hecho (hun.other_slot (fun heq => hi (congrArg some heq.symm)) hp)
  | give hsame => exact hsame r hr _ hp
  | adopt hk hold hlow hhigh => exact hold r hr _ hp

theorem TableStep.roots_mono (h : TableStep c x y) (hr : r ∈ x.roots) : r ∈ y.roots := by
  induction h with
  | claim _ _ _ ihtake ihmap => exact ihmap (ihtake hr)
  | adopt => exact List.mem_cons_of_mem _ hr
  | take | map | unmap | give => exact hr

theorem TableStep.roots_eq (h : TableStep c x y) (hc : ∀ k f, c ≠ .adopt k f) :
    y.roots = x.roots := by
  induction h with
  | claim _ _ _ ihtake ihmap => exact (ihmap (by simp)).trans (ihtake (by simp))
  | adopt => exact absurd rfl (hc _ _)
  | take | map | unmap | give => rfl

theorem TableRun.other_slot (h : TableRun cs x y) (hr : r ∈ x.roots)
    (hi : ∀ c ∈ cs, c.slot ≠ some i) (hp : (i :: p).length ≤ 4) :
    y.entry r (i :: p) = x.entry r (i :: p) := by
  induction h with
  | nil => rfl
  | cons hc _ _ ih =>
    rw [ih (hc.roots_mono hr) fun c hin => hi c (List.mem_cons_of_mem _ hin)]
    exact hc.other_slot hr (hi _ List.mem_cons_self) hp

theorem TableStep.adopted (h : TableStep (.adopt k f) x y) :
    f ∈ x.stack ∧ y.roots = f :: x.roots ∧
      (∀ (i : Fin 512) (p : TablePath), i.val < 256 → y.entry f (i :: p) = none) ∧
      ∀ (i : Fin 512) (p : TablePath), 256 ≤ i.val → (i :: p).length ≤ 4 →
        y.entry f (i :: p) = x.entry k (i :: p) := by
  cases h with
  | adopt hk hold hlow hhigh => exact ⟨List.mem_cons_self, rfl, hlow, hhigh⟩

theorem Mapped.leaf_cases {leaf : Nat} (h : Mapped r flags s stack v leaf s' stack')
    (hq : q.length = 4) (he : entryAt s'.mem r q = some e) :
    (q = pagePath v ∧ e = leaf) ∨ entryAt s.mem r q = some e := by
  by_cases hqv : q = pagePath v
  · subst hqv
    rw [h.leaf] at he
    exact .inl ⟨rfl, (Option.some.inj he).symm⟩
  · refine .inr ?_
    by_cases hnone : entryAt s.mem r q = none
    · -- only tables are new, and those lie above the leaves
      obtain ⟨hin, -⟩ := h.fresh q hq.le hqv hnone (by simp [he])
      have hlen := (mem_prefixSet.mp hin).2.length_le
      rw [length_tablePath] at hlen
      omega
    · rw [← h.keep q hq.le hqv hnone]
      exact he

/-- The call writes the leaf entry `e` at `q` below the PML4 `r`. -/
def TableCall.Writes (x : TableView) (r : Nat) (q : TablePath) (e : Nat) : TableCall → Prop
  | .map r' v pa flags _ => r' = r ∧ q = pagePath v ∧ e = leafEntry pa flags
  | .claim r' v flags => r' = r ∧ q = pagePath v ∧
      ∃ f rest, x.stack = f :: rest ∧ e = leafEntry f flags
  | _ => False

def LeafOrigin (c : TableCall) (x y : TableView) (r : Nat) (i : Fin 512) (q : TablePath) (e : Nat) :
    Prop :=
  (∃ r0 ∈ x.roots, x.entry r0 (i :: q) = some e ∧ x.slot r0 i = y.slot r i) ∨
  ∃ r0, c.Writes x r0 (i :: q) e ∧ y.slot r0 i = y.slot r i

theorem slot_of_entry (he : entryAt m r (i :: q) = some e) : entryAt m r [i] ≠ none := by
  refine RadixTree.present_of_append (p := [i]) (q := q) (by simp) fun hnone => ?_
  rw [entryAt] at he
  rw [List.singleton_append, he] at hnone
  cases hnone

private theorem Echoed.leaf_origin (h : Echoed m m' r r') (hq : q ≠ []) (hlen : (i :: q).length ≤ 4)
    (he : entryAt m' r' (i :: q) = some e) :
    (entryAt m r' (i :: q) = some e ∧ tableAt m r' [i] = tableAt m' r' [i]) ∨
    (entryAt m' r (i :: q) = some e ∧ entryAt m r [i] ≠ none ∧
      tableAt m r [i] = tableAt m' r' [i]) := by
  have hslot : tableAt m' r' [i] = tableAt m r' [i] := tableAt_congr (h.entry_slot i)
  by_cases hshare : SharesSlot m r r' i
  · refine .inr ⟨?_, fun hnone => hshare.1 ((RadixTree.present_eq_none_iff (by simp)).mp hnone), ?_⟩
    · rw [← h.shared i q hshare hq]
      exact he
    · rw [hslot, hshare.2]
  · refine .inl ⟨?_, hslot.symm⟩
    rw [← h.kept i q hshare hlen]
    exact he

private theorem leaf_origin_map {r0 : Nat} (hr0 : r0 ∈ roots)
    (hmapped : Mapped r0 (intermediateFlags isUserPage) s stack v (leafEntry pa flags) s' stack')
    (hecho : ∀ r' ∈ roots, r' ≠ r0 → Echoed s.mem s'.mem r0 r') (hr : r ∈ roots)
    (hlen : (i :: q).length = 4) (hne : q ≠ []) (he : entryAt s'.mem r (i :: q) = some e) :
    LeafOrigin (.map r0 v pa flags isUserPage) ⟨s, roots, stack⟩ ⟨s', roots, stack'⟩ r i q e := by
  have hkept : entryAt s.mem r0 [i] ≠ none → tableAt s.mem r0 [i] = tableAt s'.mem r0 [i] :=
    fun hsome => (tableAt_congr (hmapped.keep [i] (by simp) (ne_pagePath_of_length (by simp)) hsome)).symm
  by_cases hrr : r = r0
  · subst hrr
    rcases hmapped.leaf_cases hlen he with ⟨hqv, hleaf⟩ | hold
    · exact .inr ⟨r, ⟨rfl, hqv, hleaf⟩, rfl⟩
    · exact .inl ⟨r, hr, hold, hkept (slot_of_entry hold)⟩
  · rcases (hecho r hr hrr).leaf_origin hne hlen.le he with ⟨hold, hslot⟩ | ⟨hnew, hsome, hslot⟩
    · exact .inl ⟨r, hr, hold, hslot⟩
    · rcases hmapped.leaf_cases hlen hnew with ⟨hqv, hleaf⟩ | hold
      · exact .inr ⟨r0, ⟨rfl, hqv, hleaf⟩, (hkept hsome).symm.trans hslot⟩
      · exact .inl ⟨r0, hr0, hold, hslot⟩

theorem TableStep.leaf_origin (h : TableStep c x y) (hr : r ∈ y.roots) (hq : q.length = 3)
    (he : y.entry r (i :: q) = some e) :
    LeafOrigin c x y r i q e := by
  have hlen : (i :: q).length = 4 := by rw [List.length_cons, hq]
  have hne : q ≠ [] := by
    rintro rfl
    cases hq
  cases h with
  | take hmem =>
    refine .inl ⟨r, hr, ?_, ?_⟩
    · rw [← he, TableView.entry, TableView.entry, hmem]
    · rw [TableView.slot, TableView.slot, hmem]
  | map hr0 hmapped hecho => exact leaf_origin_map hr0 hmapped hecho hr hlen hne he
  | @claim s roots stack f r0 v flags x1 _ htake _ hmap =>
    cases htake with
    | take hmem =>
      cases hmap with
      | map hr0 hmapped hecho =>
        rcases leaf_origin_map hr0 hmapped hecho hr hlen hne he with
          ⟨r1, hr1, hold, hslot⟩ | ⟨r1, ⟨hr1, hqv, hleaf⟩, hslot⟩
        · refine .inl ⟨r1, hr1, ?_, ?_⟩
          · rw [← hold, TableView.entry, TableView.entry, hmem]
          · rw [← hslot, TableView.slot, TableView.slot, hmem]
        · exact .inr ⟨r1, ⟨hr1, hqv, f, stack, rfl, hleaf⟩, hslot⟩
  | @unmap s s' roots stack stack' r0 v hr0 hun hecho =>
    have hown : ∀ p : TablePath, p.length ≤ 4 → entryAt s'.mem r0 p ≠ none →
        entryAt s.mem r0 p = entryAt s'.mem r0 p := fun p hp hsome => (hun.keep p hp hsome).symm
    by_cases hrr : r = r0
    · subst hrr
      refine .inl ⟨r, hr, ?_, tableAt_congr (hown [i] (by simp) (slot_of_entry he))⟩
      exact (hown _ hlen.le (fun hnone => by cases hnone.symm.trans he)).trans he
    · rcases (hecho r hr hrr).leaf_origin hne hlen.le he with ⟨hold, hslot⟩ | ⟨hnew, -, hslot⟩
      · exact .inl ⟨r, hr, hold, hslot⟩
      · exact .inl ⟨r0, hr0, (hown _ hlen.le (by rw [hnew]; simp)).trans hnew, hslot⟩
  | give hsame =>
    refine .inl ⟨r, hr, (hsame r hr _ hlen.le).symm.trans he, ?_⟩
    exact (tableAt_congr (hsame r hr [i] (by simp))).symm
  | @adopt s s' roots stack k f hk hold hlow hhigh =>
    rcases List.mem_cons.mp hr with rfl | hr
    · by_cases hi : i.val < 256
      · rw [TableView.entry, hlow i q hi] at he
        cases he
      · refine .inl ⟨k, hk, (hhigh i q (by omega) hlen.le).symm.trans he, ?_⟩
        exact (tableAt_slot_of_entryAt_slot (hhigh i [] (by omega) (by simp))).symm
    · refine .inl ⟨r, hr, (hold r hr _ hlen.le).symm.trans he, ?_⟩
      exact (tableAt_congr (hold r hr [i] (by simp))).symm

theorem Spaces.freePage (h : Spaces s roots stack) (hframe : IsFrame a)
    (hout : ¬ (⟨s, roots, stack⟩ : TableView).Holds a) :
    TableStep (.give a) ⟨s, roots, stack⟩ ⟨CrapOs.freePage s a, roots, a :: stack⟩ ∧
      Spaces (CrapOs.freePage s a) roots (a :: stack) := by
  have hoff : a ∉ stack := fun hin => hout (.inl hin)
  have hnot : ∀ r ∈ roots, ∀ p : TablePath, p.length ≤ 3 → tableAt s.mem r p ≠ some a := by
    intro r hr p hp ht
    by_cases hnil : p = []
    · subst hnil
      exact hout (.inr ⟨r, hr, .inl (Option.some.inj ht).symm⟩)
    · exact hout (.inr ⟨r, hr, .inr ⟨p, hnil, hp, ht⟩⟩)
  have hchange := freePage_changesOnly (B := fun b => b = a) s hframe rfl
  obtain ⟨hforest, hsame⟩ := (h.forest.cons hnot).congr (n := (CrapOs.freePage s a).mem)
    (fun r hr p t i hp ht => tableEntry_congr (agreeOn_of_changesOnly hchange
      ((h.forest.tree r hr).frames p t hp ht) (by
        rintro b rfl
        exact ⟨hframe, fun heq => hnot r hr p hp (heq ▸ ht)⟩)) i)
  exact ⟨.give hsame, freePage_spec h.free hframe hoff, hforest⟩

namespace MemoryManager

def rootOf (mm : MemoryManager) (pml4Phys : Nat) : Nat :=
  if pml4Phys = kernelPml4 then mm.root else pml4Phys

/-- The tables of the live PML4s `roots`, the kernel's among them, are in order. -/
structure Live (mm : MemoryManager) (roots stack : List Nat) : Prop where
  spaces : Spaces mm.phys roots stack
  root_mem : mm.root ∈ roots
  pml4 : ∃ hh, mm.pml4 = virtOf hh mm.root

def view (mm : MemoryManager) (roots stack : List Nat) : TableView := ⟨mm.phys, roots, stack⟩

variable {mm mm' : MemoryManager} {roots stack : List Nat} {pml4Phys : Nat}

theorem Live.selectPml4 (h : mm.Live roots stack) (pml4Phys : Nat) :
    ∃ hh, mm.selectPml4 pml4Phys = virtOf hh (mm.rootOf pml4Phys) := by
  unfold MemoryManager.selectPml4 rootOf
  by_cases hk : pml4Phys = kernelPml4
  · rw [if_pos hk, if_pos hk]
    exact h.pml4
  · rw [if_neg hk, if_neg hk]
    exact ⟨true, rfl⟩

theorem Live.update {s : Phys} {roots' stack' : List Nat} (h : mm.Live roots stack)
    (hspaces : Spaces s roots' stack') (hsub : ∀ r ∈ roots, r ∈ roots') :
    ({ mm with phys := s } : MemoryManager).Live roots' stack' :=
  ⟨hspaces, hsub _ h.root_mem, h.pml4⟩

theorem Live.allocPage (h : mm.Live roots stack) :
    (stack = [] ∧ mm.allocPage = (none, mm)) ∨
    ∃ f stack' mm', stack = f :: stack' ∧ mm.allocPage = (some f, mm') ∧ mm'.pml4 = mm.pml4 ∧
      mm'.Live roots stack' ∧ TableStep .take (mm.view roots stack) (mm'.view roots stack') := by
  cases stack with
  | nil =>
    refine .inl ⟨rfl, ?_⟩
    simp [MemoryManager.allocPage, allocPage_empty h.spaces.free]
  | cons f stack =>
    obtain ⟨htop, hspaces⟩ := h.spaces.allocPage
    refine .inr ⟨f, stack, _, rfl, Prod.ext htop rfl, rfl, h.update hspaces fun _ hr => hr, ?_⟩
    exact .take (allocPage_mem mm.phys)

theorem Live.mapPage {physicalAddr flags : Nat} (h : mm.Live roots stack)
    (hr : mm.rootOf pml4Phys ∈ roots) (hpa : physicalAddr < 2 ^ 64) (hflags : flags < 2 ^ 64)
    (hok : mm.mapPage pml4Phys v physicalAddr flags = .ok mm') :
    ∃ stack', mm'.pml4 = mm.pml4 ∧ mm'.Live roots stack' ∧
      TableStep (.map (mm.rootOf pml4Phys) v physicalAddr flags true) (mm.view roots stack)
        (mm'.view roots stack') := by
  obtain ⟨hh, hsel⟩ := h.selectPml4 pml4Phys
  obtain ⟨s', hs', hmm⟩ := bind_eq_ok.mp hok
  cases hmm
  rw [hsel] at hs'
  obtain ⟨stack', hmapped, hspaces, hecho⟩ := h.spaces.mapPage hr hpa hflags hs'
  exact ⟨stack', rfl, h.update hspaces fun _ hr => hr, .map hr hmapped hecho⟩

theorem Live.unmapPage (h : mm.Live roots stack) (hr : mm.rootOf pml4Phys ∈ roots)
    (hlast : ∀ r' ∈ roots, r' ≠ mm.rootOf pml4Phys →
      SharesSlot mm.phys.mem (mm.rootOf pml4Phys) r' (tableSlot 39 v) →
        ¬ Spaces.LastPage mm.phys.mem (mm.rootOf pml4Phys) v) :
    (entryAt mm.phys.mem (mm.rootOf pml4Phys) (pagePath v) = none ∧
      mm.unmapPage pml4Phys v = (false, mm)) ∨
    (entryAt mm.phys.mem (mm.rootOf pml4Phys) (pagePath v) ≠ none ∧
      ∃ mm' stack', mm.unmapPage pml4Phys v = (true, mm') ∧ mm'.pml4 = mm.pml4 ∧
        mm'.Live roots stack' ∧
        TableStep (.unmap (mm.rootOf pml4Phys) v) (mm.view roots stack) (mm'.view roots stack')) := by
  obtain ⟨hh, hsel⟩ := h.selectPml4 pml4Phys
  rcases h.spaces.unmapPage hr hh hlast with
    ⟨hnone, hrun⟩ | ⟨hsome, s', stack', hrun, hun, hspaces, hecho⟩
  · refine .inl ⟨hnone, ?_⟩
    rw [MemoryManager.unmapPage, hsel, hrun]
  · refine .inr ⟨hsome, { mm with phys := s' }, stack', ?_, rfl, ?_, .unmap hr hun hecho⟩
    · rw [MemoryManager.unmapPage, hsel, hrun]
    · exact h.update hspaces fun _ hr => hr

theorem Live.getPhysicalAddr (h : mm.Live roots stack) (hr : mm.rootOf pml4Phys ∈ roots)
    (v : Nat) : mm.getPhysicalAddr pml4Phys v =
      (entryAt mm.phys.mem (mm.rootOf pml4Phys) (pagePath v)).map
        fun pte => (pte &&& pageMask) ||| (v &&& 0xFFF) := by
  obtain ⟨hh, hsel⟩ := h.selectPml4 pml4Phys
  rw [MemoryManager.getPhysicalAddr, hsel]
  exact getPhysicalAddr_eq (h.spaces.forest.tree _ hr) hh v

end MemoryManager

variable {flags : Nat} {mm : MemoryManager} {roots stack : List Nat}

theorem AddressSpace.mapStack_run {mm' : MemoryManager} {count i : Nat} (h : mm.Live roots stack)
    (hf : f ∈ roots) (hne : f ≠ kernelPml4) (hok : mapStack f count i mm = .ok mm') :
    ∃ stack', mm'.pml4 = mm.pml4 ∧ mm'.Live roots stack' ∧
      TableRun ((List.range' i count).map fun j => .claim f (stackPage j) stackFlags)
        (mm.view roots stack) (mm'.view roots stack') := by
  have hroot : ∀ mm : MemoryManager, mm.rootOf f = f := fun mm => if_neg hne
  induction count generalizing i mm stack with
  | zero =>
    cases hok
    exact ⟨stack, rfl, h, .nil _⟩
  | succ count ih =>
    rcases h.allocPage with ⟨-, hnone⟩ | ⟨g, stack1, mm1, rfl, hsome, hptr1, h1, htake⟩
    · simp only [mapStack, hnone] at hok
      cases hok
    simp only [mapStack, hsome] at hok
    obtain ⟨mm2, hmap, hrest⟩ := bind_eq_ok.mp hok
    have hg := (h.spaces.free.frames g List.mem_cons_self).lt
    obtain ⟨stack2, hptr2, h2, hstep⟩ := h1.mapPage (by rwa [hroot]) hg (by decide) hmap
    rw [hroot] at hstep
    obtain ⟨stack', hptr, h', hrun⟩ := ih h2 hrest
    refine ⟨stack', hptr.trans (hptr2.trans hptr1), h', ?_⟩
    exact .cons (.claim htake h1.spaces hstep) h2.spaces hrun

theorem AddressSpace.fillPml4_live {mm1 : MemoryManager} (h : mm.Live roots (f :: stack))
    (h1 : mm1.Live roots stack)
    (htake : TableStep .take (mm.view roots (f :: stack)) (mm1.view roots stack)) (hk : k ∈ roots) :
    ∃ s, fillPml4 mm1.phys k f = s ∧
      ({ mm1 with phys := s } : MemoryManager).Live (f :: roots) stack ∧
      TableStep (.adopt k f) (mm.view roots (f :: stack)) ⟨s, f :: roots, stack⟩ := by
  have hframe := h.spaces.free.frames f List.mem_cons_self
  have hkf : k ≠ f := by
    rintro rfl
    exact h.spaces.forest.root_off hk List.mem_cons_self
  have hmem : mm1.phys.mem = mm.phys.mem := htake.take_mem
  have hkframe := h.spaces.forest.frame hk
  have hfree := fillPml4_freeStack h1.spaces.free hkframe hframe hkf
    (List.nodup_cons.mp h.spaces.free.nodup).1
  obtain ⟨-, hother, hlow, hhigh⟩ := fillPml4_spec (s := mm1.phys) hkframe hframe hkf
  rw [hmem] at hother hhigh
  generalize fillPml4 mm1.phys k f = s at hfree hother hlow hhigh ⊢
  obtain ⟨hspaces, hold, hnew, hcopied⟩ := h.spaces.adopt hk hfree hlow hhigh hother
  exact ⟨s, rfl, h1.update hspaces fun r hr => List.mem_cons_of_mem f hr,
    .adopt hk hold hnew hcopied⟩

theorem AddressSpace.init_run {mm' : MemoryManager} {space : AddressSpace} (h : mm.Live roots stack)
    (hk : k ∈ roots) (hok : init mm k = .ok (space, mm')) :
    ∃ stack', space.userStackTop = defaultStackTop ∧ space.userStackPages = defaultStackPages ∧
      mm'.pml4 = mm.pml4 ∧ mm'.Live (space.pml4Phys :: roots) stack' ∧
      TableRun (.adopt k space.pml4Phys :: (List.range' 0 defaultStackPages).map
          fun j => .claim space.pml4Phys (stackPage j) stackFlags)
        (mm.view roots stack) (mm'.view (space.pml4Phys :: roots) stack') := by
  rcases h.allocPage with ⟨-, hnone⟩ | ⟨f, stack1, mm1, rfl, hsome, hptr1, h1, htake⟩
  · simp only [init, hnone] at hok
    cases hok
  obtain ⟨s, hfill, hlive, hadopt⟩ := fillPml4_live h h1 htake hk
  simp only [init, hsome, hfill] at hok
  obtain ⟨mm2, hstack, hret⟩ := bind_eq_ok.mp hok
  cases hret
  have hne := (h.spaces.free.frames f List.mem_cons_self).nonzero
  obtain ⟨stack', hptr, h', hrun⟩ := mapStack_run hlive List.mem_cons_self hne hstack
  exact ⟨stack', rfl, rfl, hptr.trans hptr1, h', .cons hadopt hlive.spaces hrun⟩

theorem missing_le (m : Mem) (r v : Nat) : missing m r (tablePath v) ≤ 3 :=
  Nat.le_trans (Finset.card_filter_le _ _) (Nat.le_trans (List.toFinset_card_le _) (Nat.le_refl 3))

theorem Mapped.length_le {s s' : Phys} {stack' : List Nat} {leaf : Nat}
    (h : Mapped r flags s stack v leaf s' stack') : stack.length ≤ stack'.length + 3 := by
  have hmiss := missing_le s.mem r v
  rw [h.taken, List.length_drop]
  omega

theorem TableStep.claim_length_le (h : TableStep (.claim r v flags) x y) :
    x.stack.length ≤ y.stack.length + 4 := by
  obtain ⟨f, x1, -, -, hstack, hmap⟩ := h.claimed
  have hmapped := hmap.mapped.length_le
  rw [hstack, List.length_cons]
  omega

theorem TableRun.claims_length_le (h : TableRun cs x y)
    (hcs : ∀ c ∈ cs, ∃ r v flags, c = .claim r v flags) :
    x.stack.length ≤ y.stack.length + 4 * cs.length := by
  induction h with
  | nil => simp
  | cons hc _ _ ih =>
    obtain ⟨r, v, flags, rfl⟩ := hcs _ List.mem_cons_self
    have hstep := hc.claim_length_le
    have hrest := ih fun c hin => hcs c (List.mem_cons_of_mem _ hin)
    rw [List.length_cons]
    omega

theorem MemoryManager.Live.mapPage_ok {pml4Phys physicalAddr : Nat} (h : mm.Live roots stack)
    (hr : mm.rootOf pml4Phys ∈ roots) (hpa : physicalAddr < 2 ^ 64) (hflags : flags < 2 ^ 64)
    (hlen : missing mm.phys.mem (mm.rootOf pml4Phys) (tablePath v) ≤ stack.length) :
    ∃ mm' stack', mm.mapPage pml4Phys v physicalAddr flags = .ok mm' ∧ mm'.Live roots stack' ∧
      stack.length ≤ stack'.length + 3 := by
  obtain ⟨hh, hsel⟩ := h.selectPml4 pml4Phys
  rcases mapPage_spec (h.spaces.paging hr) hh v physicalAddr flags true hpa hflags with
    ⟨hshort, -⟩ | ⟨s', -, hok, -⟩
  · omega
  have hmap : mm.mapPage pml4Phys v physicalAddr flags = .ok { mm with phys := s' } := by
    rw [MemoryManager.mapPage, hsel, hok]
    rfl
  obtain ⟨stack', -, hlive, hstep⟩ := h.mapPage hr hpa hflags hmap
  exact ⟨_, stack', hmap, hlive, hstep.mapped.length_le⟩

theorem AddressSpace.mapStack_ok {n i : Nat} (h : mm.Live roots stack) (hf : f ∈ roots)
    (hne : f ≠ kernelPml4) (hlen : 4 * n ≤ stack.length) :
    ∃ mm', mapStack f n i mm = .ok mm' ∧ stack.length ≤ mm'.phys.pmm.freePages + 4 * n := by
  induction n generalizing i mm stack with
  | zero => exact ⟨mm, rfl, Nat.le_of_eq h.spaces.free.count.symm⟩
  | succ n ih =>
    rcases h.allocPage with ⟨rfl, -⟩ | ⟨g, stack1, mm1, rfl, hsome, -, h1, -⟩
    · rw [List.length_nil] at hlen
      omega
    rw [List.length_cons] at hlen
    have hg := (h.spaces.free.frames g List.mem_cons_self).lt
    have hroot : mm1.rootOf f ∈ roots := by
      rw [MemoryManager.rootOf, if_neg hne]
      exact hf
    obtain ⟨mm2, stack2, hmap, h2, hleft⟩ := h1.mapPage_ok hroot hg
      (show stackFlags < 2 ^ 64 by decide) ((missing_le _ _ (stackPage i)).trans (by omega))
    obtain ⟨mm', hrest, hfree⟩ := ih (i := i + 1) h2 (by omega)
    refine ⟨mm', ?_, ?_⟩
    · simp only [mapStack, hsome]
      exact bind_eq_ok.mpr ⟨mm2, hmap, hrest⟩
    · rw [List.length_cons]
      omega

theorem AddressSpace.init_ok (h : mm.Live roots stack) (hk : k ∈ roots) (hlen : 17 ≤ stack.length) :
    ∃ space mm', init mm k = .ok (space, mm') ∧ stack.length ≤ mm'.phys.pmm.freePages + 17 := by
  rcases h.allocPage with ⟨rfl, -⟩ | ⟨f, stack1, mm1, rfl, hsome, -, h1, htake⟩
  · rw [List.length_nil] at hlen
    omega
  rw [List.length_cons] at hlen
  obtain ⟨s, hfill, hlive, -⟩ := fillPml4_live h h1 htake hk
  have hne := (h.spaces.free.frames f List.mem_cons_self).nonzero
  obtain ⟨mm', hstack, hfree⟩ := mapStack_ok (n := defaultStackPages) (i := 0) hlive
    List.mem_cons_self hne (by simp only [defaultStackPages]; omega)
  refine ⟨⟨f, defaultStackTop, defaultStackPages⟩, mm', ?_, Nat.succ_le_succ hfree⟩
  simp only [init, hsome, hfill]
  exact bind_eq_ok.mpr ⟨mm', hstack, rfl⟩

end CrapOs
