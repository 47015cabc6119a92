import Mathlib.Data.List.Infix

/-! # Radix trees stored as tables of entries

A table maps indices to entries, and `decode` turns an entry into the table it
leads to, if it is a present one. `table` follows a path of indices from a root
table and `present` is the entry a path ends in, when every entry on the way is
present. The content of the tree is the partial map `present` from paths to
entries; `present_edit` says when a change of the tables is an update of that
map at one path.
-/

namespace Foundation

namespace RadixTree

variable {τ ι ε : Type} (decode : ε → Option τ) (entry : τ → ι → ε)

def table : τ → List ι → Option τ
  | t, [] => some t
  | t, i :: p => (decode (entry t i)).bind (fun u => table u p)

def found (e : ε) : Option ε := if (decode e).isSome then some e else none

def present (root : τ) (p : List ι) : Option ε :=
  p.getLast?.bind fun i => (table decode entry root p.dropLast).bind fun t => found decode (entry t i)

variable {decode entry}

theorem found_eq_none {e : ε} : found decode e = none ↔ decode e = none := by
  unfold found
  cases decode e <;> simp

theorem found_bind_decode (e : ε) : (found decode e).bind decode = decode e := by
  unfold found
  cases h : decode e <;> simp [h]

theorem found_of_decode {e : ε} {t : τ} (h : decode e = some t) : found decode e = some e := by
  simp [found, h]

@[simp] theorem table_nil (t : τ) : table decode entry t [] = some t := rfl

theorem table_append (t : τ) (p q : List ι) :
    table decode entry t (p ++ q) =
      (table decode entry t p).bind (fun u => table decode entry u q) := by
  induction p generalizing t with
  | nil => simp
  | cons i p ih =>
    simp only [List.cons_append, table, Option.bind_assoc]
    congr 1
    funext u
    exact ih u

theorem table_concat (t : τ) (p : List ι) (i : ι) :
    table decode entry t (p ++ [i]) =
      (table decode entry t p).bind (fun u => decode (entry u i)) := by
  rw [table_append]
  congr 1
  funext u
  simp [table]

@[simp] theorem present_nil (root : τ) : present decode entry root [] = none := rfl

theorem present_concat (root : τ) (p : List ι) (i : ι) :
    present decode entry root (p ++ [i]) =
      (table decode entry root p).bind (fun t => found decode (entry t i)) := by
  simp [present]

theorem table_eq_present {root : τ} {p : List ι} (hp : p ≠ []) :
    table decode entry root p = (present decode entry root p).bind decode := by
  obtain ⟨q, i, rfl⟩ := (List.eq_nil_or_concat' p).resolve_left hp
  rw [table_concat, present_concat, Option.bind_assoc]
  congr 1
  funext t
  exact (found_bind_decode _).symm

theorem present_eq_none_iff {root : τ} {p : List ι} (hp : p ≠ []) :
    present decode entry root p = none ↔ table decode entry root p = none := by
  obtain ⟨q, i, rfl⟩ := (List.eq_nil_or_concat' p).resolve_left hp
  rw [table_concat, present_concat]
  cases table decode entry root q with
  | none => simp
  | some t => exact found_eq_none

theorem present_of_append {root : τ} {p q : List ι} (hp : p ≠ [])
    (h : present decode entry root (p ++ q) ≠ none) : present decode entry root p ≠ none := by
  intro hnone
  have htable := (present_eq_none_iff hp).mp hnone
  apply h
  rw [present_eq_none_iff (by simp [hp]), table_append, htable]
  rfl

theorem table_congr {entry' : τ → ι → ε} {root : τ} {n : Nat}
    (h : ∀ p t i, p.length < n → table decode entry root p = some t → entry' t i = entry t i)
    (p : List ι) (hp : p.length ≤ n) :
    table decode entry' root p = table decode entry root p := by
  induction p using List.reverseRecOn with
  | nil => rfl
  | append_singleton p i ih =>
    rw [List.length_append, List.length_singleton] at hp
    rw [table_concat, table_concat, ih (by omega)]
    cases ht : table decode entry root p with
    | none => rfl
    | some t => simp only [Option.bind_some, h p t i (by omega) ht]

theorem present_congr {entry' : τ → ι → ε} {root : τ} {n : Nat}
    (h : ∀ p t i, p.length < n → table decode entry root p = some t → entry' t i = entry t i)
    (p : List ι) (hp : p.length ≤ n) :
    present decode entry' root p = present decode entry root p := by
  rcases List.eq_nil_or_concat' p with rfl | ⟨p, i, rfl⟩
  · rfl
  · rw [List.length_append, List.length_singleton] at hp
    rw [present_concat, present_concat, table_congr h p (by omega)]
    cases ht : table decode entry root p with
    | none => rfl
    | some t => simp only [Option.bind_some, h p t i (by omega) ht]

theorem present_cons (root : τ) (i : ι) {p : List ι} (hp : p ≠ []) :
    present decode entry root (i :: p) =
      (decode (entry root i)).bind (fun t => present decode entry t p) := by
  obtain ⟨q, j, rfl⟩ := (List.eq_nil_or_concat' p).resolve_left hp
  rw [← List.cons_append, present_concat]
  simp only [table, Option.bind_assoc, present_concat]

variable [DecidableEq ι] {entry' : τ → ι → ε} {root t0 : τ} {p0 : List ι} {i0 : ι}

theorem table_edit {p : List ι} (hpresent : present decode entry' root p =
      if p = p0 ++ [i0] then found decode (entry' t0 i0) else present decode entry root p) :
    table decode entry' root p =
      if p = p0 ++ [i0] then decode (entry' t0 i0) else table decode entry root p := by
  by_cases hnil : p = []
  · subst hnil
    simp
  · rw [table_eq_present hnil, table_eq_present hnil, hpresent]
    by_cases heq : p = p0 ++ [i0]
    · rw [if_pos heq, if_pos heq, found_bind_decode]
    · rw [if_neg heq, if_neg heq]

/-- Replacing the entry at one path, where neither the table it led to nor the
one it leads to now has a present entry, updates the content at that path only. -/
theorem present_edit {depth : Nat}
    (ht0 : table decode entry root p0 = some t0)
    (hdead : p0.length < depth → ∀ t i, decode (entry t0 i0) = some t → decode (entry t i) = none)
    (hdead' : p0.length < depth →
      ∀ t i, decode (entry' t0 i0) = some t → decode (entry' t i) = none)
    (hkeep : ∀ p t i, p.length ≤ depth → table decode entry root p = some t →
      p ≠ p0 ++ [i0] → p ++ [i] ≠ p0 ++ [i0] → entry' t i = entry t i)
    (p : List ι) (hp : p.length ≤ depth + 1) :
    present decode entry' root p =
      if p = p0 ++ [i0] then found decode (entry' t0 i0) else present decode entry root p := by
  induction p using List.reverseRecOn with
  | nil => simp
  | append_singleton p i ih =>
    rw [List.length_append, List.length_singleton] at hp
    have htable := table_edit (ih (by omega))
    rw [present_concat, present_concat, htable]
    by_cases heq : p = p0 ++ [i0]
    · have hshort : p0.length < depth := by
        rw [heq, List.length_append, List.length_singleton] at hp
        omega
      have hold : table decode entry root p = decode (entry t0 i0) := by
        rw [heq, table_concat, ht0]
        rfl
      have hne : ¬ p ++ [i] = p0 ++ [i0] := by
        intro h
        have hlen := congrArg List.length (heq ▸ h)
        simp at hlen
      rw [if_pos heq, if_neg hne, hold]
      have hnew : (decode (entry' t0 i0)).bind (fun t => found decode (entry' t i)) = none := by
        cases hd : decode (entry' t0 i0) with
        | none => rfl
        | some t => exact found_eq_none.mpr (hdead' hshort t i hd)
      have hwas : (decode (entry t0 i0)).bind (fun t => found decode (entry t i)) = none := by
        cases hd : decode (entry t0 i0) with
        | none => rfl
        | some t => exact found_eq_none.mpr (hdead hshort t i hd)
      rw [hnew, hwas]
    · rw [if_neg heq]
      by_cases hslot : p ++ [i] = p0 ++ [i0]
      · obtain ⟨rfl, hi⟩ := List.append_inj' hslot rfl
        obtain rfl : i = i0 := by simpa using hi
        rw [if_pos rfl, ht0]
        rfl
      · rw [if_neg hslot]
        cases ht : table decode entry root p with
        | none => rfl
        | some t =>
          have hsame := hkeep p t i (by omega) ht heq hslot
          simp only [Option.bind_some, hsame]

end RadixTree

end Foundation
