import Mathlib.Algebra.Order.Ring.Nat

/-! # Byte-addressed memory with little-endian words

A memory gives every address one byte. Words of any byte length are read and
written little-endian at arbitrary addresses, aligned or not, so two words may
overlap; every frame lemma below therefore speaks about byte ranges.
-/

namespace Foundation

abbrev Mem := Nat → UInt8

namespace Mem

def readLE (m : Mem) (a : Nat) : Nat → Nat
  | 0 => 0
  | n + 1 => (m a).toNat + 256 * readLE m (a + 1) n

def writeLE (m : Mem) (a n v : Nat) : Mem := fun x =>
  if a ≤ x ∧ x < a + n then UInt8.ofNat (v / 256 ^ (x - a)) else m x

def read32 (m : Mem) (a : Nat) : Nat := m.readLE a 4
def read64 (m : Mem) (a : Nat) : Nat := m.readLE a 8
def write64 (m : Mem) (a v : Nat) : Mem := m.writeLE a 8 v

/-- The two memories hold the same bytes in `[a, a + n)`. -/
def AgreeOn (m m' : Mem) (a n : Nat) : Prop := ∀ x, a ≤ x → x < a + n → m' x = m x

theorem AgreeOn.refl (m : Mem) (a n : Nat) : AgreeOn m m a n := fun _ _ _ => rfl

theorem AgreeOn.trans {m1 m2 m3 : Mem} {a n : Nat} (h1 : AgreeOn m1 m2 a n)
    (h2 : AgreeOn m2 m3 a n) : AgreeOn m1 m3 a n :=
  fun x hl hu => (h2 x hl hu).trans (h1 x hl hu)

theorem AgreeOn.mono {m m' : Mem} {a n b k : Nat} (h : AgreeOn m m' a n)
    (hl : a ≤ b) (hu : b + k ≤ a + n) : AgreeOn m m' b k :=
  fun x hx hxk => h x (by omega) (by omega)

theorem readLE_lt (m : Mem) (a n : Nat) : m.readLE a n < 256 ^ n := by
  induction n generalizing a with
  | zero => simp [readLE]
  | succ n ih =>
    have hb := (m a).toNat_lt
    have hr := ih (a + 1)
    rw [readLE, Nat.pow_succ]
    omega

theorem read64_lt (m : Mem) (a : Nat) : m.read64 a < 2 ^ 64 := by
  have h := m.readLE_lt a 8
  simpa [read64] using h

theorem readLE_congr {m m' : Mem} {a n : Nat} (h : AgreeOn m m' a n) :
    m'.readLE a n = m.readLE a n := by
  induction n generalizing a with
  | zero => rfl
  | succ n ih =>
    rw [readLE, readLE, h a (Nat.le_refl a) (by omega),
      ih (h.mono (Nat.le_succ a) (by omega))]

theorem read64_congr {m m' : Mem} {a : Nat} (h : AgreeOn m m' a 8) :
    m'.read64 a = m.read64 a := readLE_congr h

theorem readLE_of_digits (m : Mem) (a n v : Nat)
    (h : ∀ k, k < n → (m (a + k)).toNat = v / 256 ^ k % 256) :
    m.readLE a n = v % 256 ^ n := by
  induction n generalizing a v with
  | zero => simp [readLE, Nat.mod_one]
  | succ n ih =>
    have htail : m.readLE (a + 1) n = v / 256 % 256 ^ n := by
      apply ih
      intro k hk
      have hd := h (k + 1) (by omega)
      rw [Nat.pow_succ, Nat.mul_comm, ← Nat.div_div_eq_div_mul] at hd
      rw [show a + 1 + k = a + (k + 1) by omega]
      exact hd
    have hhead : (m a).toNat = v % 256 := by simpa using h 0 (by omega)
    rw [readLE, htail, hhead, Nat.pow_succ, Nat.mul_comm (256 ^ n) 256, Nat.mod_mul]

theorem readLE_writeLE_same (m : Mem) (a n v : Nat) :
    (m.writeLE a n v).readLE a n = v % 256 ^ n := by
  apply readLE_of_digits
  intro k hk
  simp [writeLE, hk]

theorem writeLE_agreeOn (m : Mem) {a n v b k : Nat} (h : a + n ≤ b ∨ b + k ≤ a) :
    AgreeOn m (m.writeLE a n v) b k := by
  intro x hl hu
  have hout : ¬ (a ≤ x ∧ x < a + n) := by omega
  simp [writeLE, hout]

theorem write64_agreeOn (m : Mem) {a v b k : Nat} (h : a + 8 ≤ b ∨ b + k ≤ a) :
    AgreeOn m (m.write64 a v) b k := writeLE_agreeOn m h

theorem read64_write64_same (m : Mem) (a : Nat) {v : Nat} (hv : v < 2 ^ 64) :
    (m.write64 a v).read64 a = v := by
  have h := m.readLE_writeLE_same a 8 v
  rw [read64, write64, h]
  exact Nat.mod_eq_of_lt (by simpa using hv)

theorem read64_of_zero {m : Mem} {a : Nat} (h : ∀ x, a ≤ x → x < a + 8 → m x = 0) :
    m.read64 a = 0 := by
  rw [read64, readLE_of_digits m a 8 0 (fun k hk => by simp [h (a + k) (by omega) (by omega)]),
    Nat.zero_mod]

theorem read64_write64_disjoint (m : Mem) {a v b : Nat} (h : a + 8 ≤ b ∨ b + 8 ≤ a) :
    (m.write64 a v).read64 b = m.read64 b :=
  read64_congr (m.write64_agreeOn h)

theorem write64_of_outside (m : Mem) {a v x : Nat} (h : x < a ∨ a + 8 ≤ x) :
    m.write64 a v x = m x :=
  m.write64_agreeOn (a := a) (v := v) (b := x) (k := 1) (by omega) x (Nat.le_refl x) (by omega)

/-- The memories differ only inside the blocks of `size` bytes that start in `blocks`. -/
def ChangesOnly (m m' : Mem) (size : Nat) (blocks : Nat → Prop) : Prop :=
  ∀ x, (∀ a, blocks a → x < a ∨ a + size ≤ x) → m' x = m x

variable {m m' m1 m2 m3 : Mem} {size : Nat} {blocks blocks' : Nat → Prop}

theorem ChangesOnly.refl (m : Mem) (size : Nat) (blocks : Nat → Prop) :
    ChangesOnly m m size blocks := fun _ _ => rfl

theorem ChangesOnly.trans (h1 : ChangesOnly m1 m2 size blocks)
    (h2 : ChangesOnly m2 m3 size blocks) : ChangesOnly m1 m3 size blocks :=
  fun x hx => (h2 x hx).trans (h1 x hx)

theorem ChangesOnly.mono (h : ChangesOnly m m' size blocks) (hsub : ∀ a, blocks a → blocks' a) :
    ChangesOnly m m' size blocks' :=
  fun x hx => h x (fun a ha => hx a (hsub a ha))

theorem ChangesOnly.agreeOn (h : ChangesOnly m m' size blocks) {b n : Nat}
    (hout : ∀ a, blocks a → a + size ≤ b ∨ b + n ≤ a) : AgreeOn m m' b n := by
  intro x hl hu
  apply h x
  intro a ha
  have hapart := hout a ha
  omega

theorem changesOnly_write64 (m : Mem) {a k v : Nat} (ha : blocks a) (hk : k + 8 ≤ size) :
    ChangesOnly m (m.write64 (a + k) v) size blocks := by
  intro x hx
  apply m.write64_of_outside
  have hout := hx a ha
  omega

attribute [irreducible] read64 write64

def clear (m : Mem) (a n : Nat) : Mem := fun x => if a ≤ x ∧ x < a + n then 0 else m x

def writeWords (m : Mem) (a : Nat) : List Nat → Mem
  | [] => m
  | w :: ws => (m.write64 a w).writeWords (a + 8) ws

theorem clear_agreeOn (m : Mem) {a n b k : Nat} (h : a + n ≤ b ∨ b + k ≤ a) :
    AgreeOn m (m.clear a n) b k := by
  intro x hl hu
  rw [clear, if_neg (by omega)]

theorem writeWords_agreeOn (m : Mem) {a : Nat} {ws : List Nat} {b k : Nat}
    (h : a + 8 * ws.length ≤ b ∨ b + k ≤ a) : AgreeOn m (m.writeWords a ws) b k := by
  induction ws generalizing m a with
  | nil => exact .refl m b k
  | cons w ws ih =>
    rw [List.length_cons] at h
    exact (m.write64_agreeOn (by omega)).trans (ih (m.write64 a w) (by omega))

theorem read64_writeWords (m : Mem) (a : Nat) {ws : List Nat} (hws : ∀ w ∈ ws, w < 2 ^ 64) {k : Nat}
    (hk : k < ws.length) : (m.writeWords a ws).read64 (a + 8 * k) = ws[k] := by
  induction ws generalizing m a k with
  | nil => exact absurd hk (Nat.not_lt_zero k)
  | cons w ws ih =>
    cases k with
    | zero =>
      have hkeep : AgreeOn (m.write64 a w) ((m.write64 a w).writeWords (a + 8) ws) a 8 :=
        writeWords_agreeOn _ (.inr (Nat.le_refl _))
      show ((m.write64 a w).writeWords (a + 8) ws).read64 a = w
      rw [read64_congr hkeep]
      exact m.read64_write64_same a (hws w List.mem_cons_self)
    | succ k =>
      have hrest := ih (m.write64 a w) (a + 8) (fun v hv => hws v (List.mem_cons_of_mem _ hv))
        (Nat.lt_of_succ_lt_succ hk)
      rw [writeWords, List.getElem_cons_succ, ← hrest]
      congr 1
      omega

def Holds (m : Mem) (a : Nat) (ws : List Nat) : Prop :=
  ∀ (k : Nat) (hk : k < ws.length), m.read64 (a + 8 * k) = ws[k]

theorem Holds.congr {m m' : Mem} {a : Nat} {ws : List Nat} (h : m.Holds a ws)
    (hagree : AgreeOn m m' a (8 * ws.length)) : m'.Holds a ws := fun k hk =>
  (read64_congr (hagree.mono (by omega) (by omega))).trans (h k hk)

end Mem

end Foundation
