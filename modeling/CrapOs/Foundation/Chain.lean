import Mathlib.Data.List.Basic

/-! # Chains of linked nodes

`Seg next p xs q` says that following `next` from `p` visits exactly the nodes
`xs` and then arrives at `q`. A null-terminated list is a segment that ends at
the null value.
-/

namespace Foundation

def Seg {α : Type} (next : α → α) : α → List α → α → Prop
  | p, [], q => p = q
  | p, x :: xs, q => p = x ∧ Seg next (next x) xs q

variable {α : Type} {next next' : α → α}

variable {p q : α} {xs : List α}

@[simp] theorem seg_nil : Seg next p [] q ↔ p = q := Iff.rfl

@[simp] theorem seg_cons {x : α} :
    Seg next p (x :: xs) q ↔ p = x ∧ Seg next (next x) xs q := Iff.rfl

theorem seg_append {ys : List α} :
    Seg next p (xs ++ ys) q ↔ ∃ r, Seg next p xs r ∧ Seg next r ys q := by
  induction xs generalizing p with
  | nil => simp
  | cons x xs ih =>
    simp only [List.cons_append, seg_cons, ih]
    constructor
    · rintro ⟨hp, r, hxs, hys⟩
      exact ⟨r, ⟨hp, hxs⟩, hys⟩
    · rintro ⟨r, ⟨hp, hxs⟩, hys⟩
      exact ⟨hp, r, hxs, hys⟩

theorem Seg.congr (h : Seg next p xs q) (hag : ∀ x ∈ xs, next' x = next x) : Seg next' p xs q := by
  induction xs generalizing p with
  | nil => exact h
  | cons x xs ih =>
    refine ⟨h.1, ?_⟩
    rw [hag x List.mem_cons_self]
    exact ih h.2 (fun y hy => hag y (List.mem_cons_of_mem x hy))

theorem Seg.unique {ys : List α} (hx : Seg next p xs q) (hy : Seg next p ys q) (hxq : q ∉ xs)
    (hyq : q ∉ ys) : xs = ys := by
  induction xs generalizing p ys with
  | nil =>
    cases ys with
    | nil => rfl
    | cons y ys => exact absurd (hx ▸ hy.1 ▸ List.mem_cons_self) hyq
  | cons x xs ih =>
    cases ys with
    | nil => exact absurd (hy ▸ hx.1 ▸ List.mem_cons_self) hxq
    | cons y ys =>
      have hxy : x = y := hx.1.symm.trans hy.1
      subst hxy
      rw [ih hx.2 hy.2 (fun h => hxq (List.mem_cons_of_mem x h))
        (fun h => hyq (List.mem_cons_of_mem x h))]

end Foundation
