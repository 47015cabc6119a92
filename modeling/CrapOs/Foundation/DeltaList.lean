import Mathlib.Data.Multiset.Filter

/-! # Delta lists

A list of labelled times in which each entry holds the distance to the entry before
it. At time `t` the list stands for a multiset of deadlines; an insertion adds one
deadline, and only the first entry changes when time passes.
-/

namespace Foundation

namespace DeltaList

variable {α : Type} {n t : Nat} {x : α} {l : List (Nat × α)}

def insert (x : α) : Nat → List (Nat × α) → List (Nat × α)
  | n, [] => [(n, x)]
  | n, (d, y) :: l =>
    if n ≤ d then (n, x) :: (d - n, y) :: l else (d, y) :: insert x (n - d) l

def countDown : List (Nat × α) → List (Nat × α)
  | [] => []
  | (d, y) :: l => (d - 1, y) :: l

/-- The entries that are due, all of them at the front. -/
def expired (l : List (Nat × α)) : List (Nat × α) := l.takeWhile fun e => e.1 = 0

def remaining (l : List (Nat × α)) : List (Nat × α) := l.dropWhile fun e => e.1 = 0

def Counting (l : List (Nat × α)) : Prop := ∀ e ∈ l.head?, 0 < e.1

def deadlines : Nat → List (Nat × α) → Multiset (Nat × α)
  | _, [] => 0
  | t, (d, y) :: l => (t + d, y) ::ₘ deadlines (t + d) l

theorem card_deadlines : (deadlines t l).card = l.length := by
  induction l generalizing t with
  | nil => rfl
  | cons e l ih => rw [deadlines, Multiset.card_cons, ih, List.length_cons]

theorem le_of_mem_deadlines {e : Nat × α} (h : e ∈ deadlines t l) : t ≤ e.1 := by
  induction l generalizing t with
  | nil => cases h
  | cons e' l ih =>
    rcases Multiset.mem_cons.mp h with rfl | h
    · exact Nat.le_add_right t e'.1
    · exact Nat.le_trans (Nat.le_add_right t e'.1) (ih h)

theorem deadlines_insert : deadlines t (insert x n l) = (t + n, x) ::ₘ deadlines t l := by
  induction l generalizing n t with
  | nil => rfl
  | cons e l ih =>
    obtain ⟨d, y⟩ := e
    rw [insert]
    split
    · rename_i hle
      have hsum : t + n + (d - n) = t + d := by omega
      rw [deadlines, deadlines, deadlines, hsum]
    · rename_i hgt
      have hsum : t + d + (n - d) = t + n := by omega
      rw [deadlines, ih, hsum, Multiset.cons_swap, deadlines]

theorem deadlines_countDown (h : Counting l) : deadlines (t + 1) (countDown l) = deadlines t l := by
  cases l with
  | nil => rfl
  | cons e l =>
    have hpos := h e rfl
    have hsum : t + 1 + (e.1 - 1) = t + e.1 := by omega
    rw [countDown, deadlines, deadlines, hsum]

theorem deadlines_expired : deadlines t (expired l) = (expired l).map fun e => (t, e.2) := by
  induction l with
  | nil => rfl
  | cons e l ih =>
    unfold expired
    by_cases hzero : e.1 = 0
    · rw [List.takeWhile_cons_of_pos (by simpa using hzero)]
      rw [deadlines, hzero, Nat.add_zero, List.map_cons, ← Multiset.cons_coe]
      exact congrArg _ ih
    · rw [List.takeWhile_cons_of_neg (by simpa using hzero)]
      rfl

theorem deadlines_split : deadlines t l = deadlines t (expired l) + deadlines t (remaining l) := by
  induction l with
  | nil => rfl
  | cons e l ih =>
    unfold expired remaining
    by_cases hzero : e.1 = 0
    · rw [List.takeWhile_cons_of_pos (by simpa using hzero),
        List.dropWhile_cons_of_pos (by simpa using hzero)]
      rw [deadlines, deadlines, hzero, Nat.add_zero, Multiset.cons_add]
      exact congrArg _ ih
    · rw [List.takeWhile_cons_of_neg (by simpa using hzero),
        List.dropWhile_cons_of_neg (by simpa using hzero)]
      exact (Multiset.zero_add _).symm

theorem counting_remaining (l : List (Nat × α)) : Counting (remaining l) := by
  intro e he
  have hne := List.head?_dropWhile_not (fun e : Nat × α => decide (e.1 = 0)) l
  rw [remaining, Option.mem_def] at he
  rw [he] at hne
  have hpos : ¬ e.1 = 0 := by simpa using hne
  omega

theorem lt_of_counting (h : Counting l) {e : Nat × α} (he : e ∈ deadlines t l) : t < e.1 := by
  cases l with
  | nil => cases he
  | cons e' l =>
    have hpos := h e' rfl
    rcases Multiset.mem_cons.mp he with rfl | he
    · exact Nat.lt_add_of_pos_right hpos
    · exact Nat.lt_of_lt_of_le (Nat.lt_add_of_pos_right hpos) (le_of_mem_deadlines he)

theorem filter_due : (deadlines t l).filter (fun e => e.1 = t) = deadlines t (expired l) := by
  have hdue : (deadlines t (expired l)).filter (fun e => e.1 = t) = deadlines t (expired l) := by
    rw [Multiset.filter_eq_self, deadlines_expired]
    intro e he
    obtain ⟨e', -, rfl⟩ := List.mem_map.mp (Multiset.mem_coe.mp he)
    rfl
  have hlater : (deadlines t (remaining l)).filter (fun e => e.1 = t) = 0 := by
    rw [Multiset.filter_eq_nil]
    intro e he heq
    have hlt := lt_of_counting (counting_remaining l) he
    omega
  rw [deadlines_split, Multiset.filter_add, hdue, hlater, Multiset.add_zero]

theorem filter_not_due : (deadlines t l).filter (fun e => ¬ e.1 = t) = deadlines t (remaining l) := by
  have hdue : (deadlines t (expired l)).filter (fun e => ¬ e.1 = t) = 0 := by
    rw [Multiset.filter_eq_nil, deadlines_expired]
    intro e he hne
    obtain ⟨e', -, rfl⟩ := List.mem_map.mp (Multiset.mem_coe.mp he)
    exact hne rfl
  have hlater : (deadlines t (remaining l)).filter (fun e => ¬ e.1 = t) = deadlines t (remaining l) := by
    rw [Multiset.filter_eq_self]
    intro e he heq
    have hlt := lt_of_counting (counting_remaining l) he
    omega
  rw [deadlines_split, Multiset.filter_add, hdue, hlater, Multiset.zero_add]

end DeltaList

end Foundation
