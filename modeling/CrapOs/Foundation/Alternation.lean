import Mathlib.Data.List.Basic

/-! # Two values that take turns

A list in which two values alternate, apart from others in between, has each of
them exactly once between two successive occurrences of the other.
-/

namespace Foundation

variable {α : Type} {x y a b : α} {l m : List α}

/-- `x`, `y`, `x`, … to the end of the list. -/
def Alternates (x y : α) : List α → Prop
  | [] => True
  | z :: l => z = x ∧ Alternates y x l

theorem Alternates.of_append (h : Alternates x y (l ++ m)) :
    Alternates x y m ∨ Alternates y x m := by
  induction l generalizing x y with
  | nil => exact .inl h
  | cons z l ih => exact (ih h.2).symm

variable [DecidableEq α]

def occurrences (a b : α) (l : List α) : List α := l.filter fun z => z = a ∨ z = b

theorem occurrences_append (a b : α) (l m : List α) :
    occurrences a b (l ++ m) = occurrences a b l ++ occurrences a b m := List.filter_append ..

theorem occurrences_cons_self (a b : α) (l : List α) :
    occurrences a b (a :: l) = a :: occurrences a b l := List.filter_cons_of_pos (by simp)

theorem Alternates.cons_of_mem {z : α} (hz : z = x) (h : Alternates y x (occurrences a b l))
    (hx : x = a ∨ x = b) : Alternates x y (occurrences a b (z :: l)) := by
  rw [occurrences, List.filter_cons_of_pos (by simpa [hz] using hx)]
  exact ⟨hz, h⟩

theorem occurrences_cons_of_not_mem {z : α} (hz : ¬ (z = a ∨ z = b)) (l : List α) :
    occurrences a b (z :: l) = occurrences a b l := List.filter_cons_of_neg (by simpa using hz)

/-- Between two occurrences of `a` with none in between there is exactly one of `b`. -/
theorem Alternates.count_between {u v : List α} (hne : a ≠ b) (hxy : x = a ∧ y = b ∨ x = b ∧ y = a)
    (h : Alternates x y (occurrences a b (u ++ a :: (m ++ a :: v)))) (hm : a ∉ m) :
    m.count b = 1 := by
  rw [occurrences_append, occurrences_cons_self, occurrences_append, occurrences_cons_self] at h
  have hfirst : Alternates b a (occurrences a b m ++ a :: occurrences a b v) := by
    rcases hxy with ⟨rfl, rfl⟩ | ⟨rfl, rfl⟩
    · rcases h.of_append with h | h
      · exact h.2
      · exact absurd h.1 hne
    · rcases h.of_append with h | h
      · exact absurd h.1 hne
      · exact h.2
  have honly : ∀ z ∈ occurrences a b m, z = b := by
    intro z hz
    obtain ⟨hmem, hz⟩ := List.mem_filter.mp hz
    refine (of_decide_eq_true hz).resolve_left ?_
    rintro rfl
    exact hm hmem
  have hcount : m.count b = (occurrences a b m).count b := by
    rw [occurrences, List.count_filter (by simp)]
  rw [hcount]
  cases hocc : occurrences a b m with
  | nil =>
    rw [hocc] at hfirst
    exact absurd hfirst.1 hne
  | cons z rest =>
    rw [hocc] at hfirst honly
    cases rest with
    | nil => rw [honly z List.mem_cons_self, List.count_singleton_self]
    | cons z' rest =>
      have hz' := honly z' (List.mem_cons_of_mem _ List.mem_cons_self)
      exact absurd (hfirst.2.1.symm.trans hz') hne

end Foundation
