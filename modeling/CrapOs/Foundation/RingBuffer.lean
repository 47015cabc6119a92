import Mathlib.Algebra.Order.Ring.Nat
import Mathlib.Data.Nat.ModEq

/-! # Ring buffers

A queue in a ring of `2 ^ k` cells. The fields carry the shape of the ring, so
that every buffer holds a list of at most `2 ^ k` values, the oldest first, and
`push` and `pop` work on that list.
-/

namespace Foundation

structure RingBuffer (α : Type) (k : Nat) where
  cells : Nat → α
  head : Nat
  tail : Nat
  len : Nat
  head_lt : head < 2 ^ k
  len_le : len ≤ 2 ^ k
  tail_eq : tail = (head + len) % 2 ^ k

namespace RingBuffer

variable {α ε : Type} {k : Nat} {r r' : RingBuffer α k} {x : α}

def empty (fill : α) : RingBuffer α k where
  cells := fun _ => fill
  head := 0
  tail := 0
  len := 0
  head_lt := Nat.two_pow_pos k
  len_le := Nat.zero_le _
  tail_eq := (Nat.zero_mod _).symm

def advance (k i : Nat) : Nat := (i + 1) &&& (2 ^ k - 1)

theorem advance_eq (k i : Nat) : advance k i = (i + 1) % 2 ^ k :=
  Nat.and_two_pow_sub_one_eq_mod (i + 1) k

def push (r : RingBuffer α k) (x : α) : Option (RingBuffer α k) :=
  if h : r.len = 2 ^ k then none
  else some
    { cells := fun i => if i = r.tail then x else r.cells i
      head := r.head
      tail := advance k r.tail
      len := r.len + 1
      head_lt := r.head_lt
      len_le := Nat.lt_of_le_of_ne r.len_le h
      tail_eq := by rw [advance_eq, r.tail_eq, Nat.mod_add_mod, Nat.add_assoc] }

def pushOr (r : RingBuffer α k) (x : α) (full : ε) : Except ε (RingBuffer α k) :=
  match r.push x with
  | none => .error full
  | some r => .ok r

def pop (r : RingBuffer α k) : Option (α × RingBuffer α k) :=
  if h : r.len = 0 then none
  else some (r.cells r.head,
    { r with
      head := advance k r.head
      len := r.len - 1
      head_lt := by rw [advance_eq]; exact Nat.mod_lt _ (Nat.two_pow_pos k)
      len_le := Nat.le_trans (Nat.sub_le _ _) r.len_le
      tail_eq := by
        rw [advance_eq, Nat.mod_add_mod, r.tail_eq]
        congr 1
        omega })

def entries (r : RingBuffer α k) : List α :=
  (List.range r.len).map fun i => r.cells ((r.head + i) % 2 ^ k)

@[simp] theorem entries_length (r : RingBuffer α k) : r.entries.length = r.len := by
  simp [entries]

theorem entries_length_le (r : RingBuffer α k) : r.entries.length ≤ 2 ^ k := by
  rw [entries_length]
  exact r.len_le

theorem push_eq_none : r.push x = none ↔ r.entries.length = 2 ^ k := by
  rw [entries_length, push]
  split <;> simp_all

theorem cell_ne_tail (r : RingBuffer α k) {i : Nat} (hi : i < r.len) (hroom : r.len ≠ 2 ^ k) :
    (r.head + i) % 2 ^ k ≠ r.tail := by
  have hlen := r.len_le
  rw [r.tail_eq]
  intro heq
  have hmod : i % 2 ^ k = r.len % 2 ^ k := Nat.ModEq.add_left_cancel' r.head heq
  rw [Nat.mod_eq_of_lt (by omega), Nat.mod_eq_of_lt (by omega)] at hmod
  omega

theorem entries_push (h : r.push x = some r') : r'.entries = r.entries ++ [x] := by
  rw [push] at h
  split at h
  · cases h
  · rename_i hroom
    cases h
    simp only [entries, List.range_succ, List.map_append, List.map_cons, List.map_nil]
    rw [← r.tail_eq, if_pos rfl]
    congr 1
    refine List.map_congr_left fun i hi => ?_
    rw [if_neg (r.cell_ne_tail (List.mem_range.mp hi) hroom)]

theorem pop_eq_none : r.pop = none ↔ r.entries = [] := by
  rw [← List.length_eq_zero_iff, entries_length, pop]
  split <;> simp_all

theorem entries_pop (h : r.pop = some (x, r')) : r.entries = x :: r'.entries := by
  rw [pop] at h
  split at h
  · cases h
  · rename_i hlen
    cases h
    obtain ⟨n, hn⟩ : ∃ n, r.len = n + 1 := ⟨r.len - 1, by omega⟩
    simp only [entries, hn, Nat.add_sub_cancel, List.range_succ_eq_map, List.map_cons,
      List.map_map, Nat.add_zero, Nat.mod_eq_of_lt r.head_lt]
    congr 1
    refine List.map_congr_left fun i _ => ?_
    rw [Function.comp_apply, advance_eq, Nat.mod_add_mod]
    congr 2
    omega

theorem pushOr_ok {full : ε} (h : r.pushOr x full = .ok r') : r'.entries = r.entries ++ [x] := by
  rw [pushOr] at h
  cases hpush : r.push x with
  | none =>
    rw [hpush] at h
    cases h
  | some q =>
    rw [hpush] at h
    cases h
    exact entries_push hpush

theorem pushOr_of_room (full : ε) (h : r.entries.length < 2 ^ k) (x : α) :
    ∃ r', r.pushOr x full = .ok r' ∧ r'.entries = r.entries ++ [x] := by
  cases hpush : r.push x with
  | none => exact absurd (push_eq_none.mp hpush) (Nat.ne_of_lt h)
  | some q => exact ⟨q, by rw [pushOr, hpush], entries_push hpush⟩

theorem pushOr_error {full e : ε} (h : r.pushOr x full = .error e) :
    e = full ∧ r.entries.length = 2 ^ k := by
  rw [pushOr] at h
  cases hpush : r.push x with
  | none =>
    rw [hpush] at h
    cases h
    exact ⟨rfl, push_eq_none.mp hpush⟩
  | some q =>
    rw [hpush] at h
    cases h

/-- A loop of at most `n` turns, each of which hands a value from the buffer, and the buffer
without it, to `body`. -/
structure Drains {σ : Type} (queue : σ → RingBuffer α k) (body : σ → α → RingBuffer α k → σ)
    (loop : Nat → σ → σ) : Prop where
  stop : ∀ s, loop 0 s = s
  none : ∀ n s, (queue s).pop = none → loop (n + 1) s = s
  some : ∀ n s x q, (queue s).pop = some (x, q) → loop (n + 1) s = loop n (body s x q)

section Drains

variable {σ : Type} {queue : σ → RingBuffer α k} {body : σ → α → RingBuffer α k → σ}
  {loop : Nat → σ → σ} {s : σ}

theorem Drains.inv (h : Drains queue body loop) {P : σ → Prop}
    (hbody : ∀ s x q, P s → (queue s).pop = Option.some (x, q) → P (body s x q)) (n : Nat) (hs : P s) :
    P (loop n s) := by
  induction n generalizing s with
  | zero =>
    rw [h.stop]
    exact hs
  | succ n ih =>
    cases hpop : (queue s).pop with
    | none =>
      rw [h.none n s hpop]
      exact hs
    | some popped =>
      rw [h.some n s popped.1 popped.2 hpop]
      exact ih (hbody s popped.1 popped.2 hs hpop)

theorem Drains.run (h : Drains queue body loop) (hbody : ∀ s x q, queue (body s x q) = q)
    {C : σ → σ → Prop} (hnil : ∀ s, (queue s).entries = [] → C s s)
    (hcons : ∀ s s' x q, (queue s).entries = x :: q.entries → C (body s x q) s' → C s s') (s : σ) :
    C s (loop (queue s).len s) := by
  generalize hn : (queue s).len = n
  induction n generalizing s with
  | zero =>
    rw [h.stop]
    exact hnil s (List.length_eq_zero_iff.mp (by rw [entries_length, hn]))
  | succ n ih =>
    cases hpop : (queue s).pop with
    | none =>
      rw [h.none n s hpop]
      exact hnil s (pop_eq_none.mp hpop)
    | some popped =>
      rw [h.some n s popped.1 popped.2 hpop]
      have hentries := entries_pop hpop
      have hlength := congrArg List.length hentries
      rw [entries_length, List.length_cons, entries_length, hn] at hlength
      refine hcons s _ popped.1 popped.2 hentries (ih _ ?_)
      rw [hbody]
      omega

theorem Drains.empty (h : Drains queue body loop) (hbody : ∀ s x q, queue (body s x q) = q) (s : σ) :
    (queue (loop (queue s).len s)).entries = [] :=
  h.run hbody (C := fun _ s' => (queue s').entries = []) (fun _ hnil => hnil) (fun _ _ _ _ _ hs => hs) s

end Drains

end RingBuffer

end Foundation
