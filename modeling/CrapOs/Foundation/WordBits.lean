import Mathlib.Data.Nat.Bitwise

/-! # 64-bit words as natural numbers

Wrapping sums, bitwise complement, and the mask identities that turn the usual
alignment idioms `x & !(2^k - 1)`, `x & (2^k - 1)` and `base | flags` into
division, remainder and addition.
-/

namespace Foundation

def wrap64 (n : Nat) : Nat := n % 2 ^ 64

def not64 (n : Nat) : Nat := 2 ^ 64 - 1 - n

theorem wrap64_of_lt {n : Nat} (h : n < 2 ^ 64) : wrap64 n = n := Nat.mod_eq_of_lt h

theorem not64_lowMask {k : Nat} (hk : k ≤ 64) :
    not64 (2 ^ k - 1) = 2 ^ k * (2 ^ (64 - k) - 1) := by
  have hpow : 2 ^ k * 2 ^ (64 - k) = 2 ^ 64 := by rw [← Nat.pow_add]; congr 1; omega
  have hpos := Nat.two_pow_pos k
  rw [not64, Nat.mul_sub_one, hpow]
  omega

theorem and_two_pow_mul (x k a : Nat) : x &&& 2 ^ k * a = 2 ^ k * (x / 2 ^ k &&& a) := by
  apply Nat.eq_of_testBit_eq
  intro i
  rw [Nat.testBit_and, Nat.testBit_two_pow_mul, Nat.testBit_two_pow_mul, Nat.testBit_and,
    Nat.testBit_div_two_pow]
  by_cases hi : k ≤ i
  · simp [hi]
  · simp [hi]

theorem and_not64_lowMask {x k : Nat} (hx : x < 2 ^ 64) (hk : k ≤ 64) :
    x &&& not64 (2 ^ k - 1) = 2 ^ k * (x / 2 ^ k) := by
  have hpow : 2 ^ 64 = 2 ^ (64 - k) * 2 ^ k := by rw [← Nat.pow_add]; congr 1; omega
  have hq : x / 2 ^ k < 2 ^ (64 - k) := by
    rw [Nat.div_lt_iff_lt_mul (Nat.two_pow_pos k), ← hpow]
    exact hx
  rw [not64_lowMask hk, and_two_pow_mul, Nat.and_two_pow_sub_one_eq_mod,
    Nat.mod_eq_of_lt hq]

theorem or_eq_add_of_dvd {p f k : Nat} (hp : 2 ^ k ∣ p) (hf : f < 2 ^ k) : p ||| f = p + f := by
  obtain ⟨a, rfl⟩ := hp
  exact (Nat.two_pow_add_eq_or_of_lt hf a).symm

theorem shiftRight_and_lowMask (x s k : Nat) :
    x >>> s &&& (2 ^ k - 1) = x / 2 ^ s % 2 ^ k := by
  rw [Nat.and_two_pow_sub_one_eq_mod, Nat.shiftRight_eq_div_pow]

theorem or_lt_two_pow_64 {x y : Nat} (hx : x < 2 ^ 64) (hy : y < 2 ^ 64) : x ||| y < 2 ^ 64 :=
  Nat.or_lt_two_pow hx hy

end Foundation
