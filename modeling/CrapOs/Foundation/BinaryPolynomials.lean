import Mathlib

/-! # Bits as coefficients

Bits stand for a sum of powers of an element of a ring with two equal to zero. Exclusive or
is the sum then, a shift is a multiplication by the element, and a loop that shifts and adds
is a multiplication. In the polynomials modulo a monic one of degree `n` every element is such
a sum for exactly one choice of `n` bits.
-/

namespace Foundation

open Polynomial

section Sums

variable {R : Type} [CommRing R]

def ofBit (b : Bool) : R := if b then 1 else 0

@[simp] theorem ofBit_true : ofBit true = (1 : R) := rfl

@[simp] theorem ofBit_false : ofBit false = (0 : R) := rfl

/-- The first `n` bits, the one for the power zero first. -/
def bitSum (g : R) (n : Nat) (bits : Nat → Bool) : R := ∑ i ∈ Finset.range n, ofBit (bits i) * g ^ i

theorem bitSum_congr (g : R) {n : Nat} {a b : Nat → Bool} (h : ∀ i < n, a i = b i) :
    bitSum g n a = bitSum g n b := by
  refine Finset.sum_congr rfl fun i hi => ?_
  rw [h i (Finset.mem_range.mp hi)]

theorem map_bitSum {S : Type} [CommRing S] (f : R →+* S) (g : R) (n : Nat) (bits : Nat → Bool) :
    f (bitSum g n bits) = bitSum (f g) n bits := by
  simp only [bitSum, map_sum, map_mul, map_pow]
  refine Finset.sum_congr rfl fun i _ => ?_
  cases bits i with
  | false => simp
  | true => simp

theorem bitSum_shift (g : R) (n : Nat) {bits shifted : Nat → Bool} (hzero : shifted 0 = false)
    (hsucc : ∀ i < n, shifted (i + 1) = bits i) : bitSum g (n + 1) shifted = bitSum g n bits * g := by
  unfold bitSum
  rw [Finset.sum_range_succ', hzero, ofBit_false, zero_mul, add_zero, Finset.sum_mul]
  refine Finset.sum_congr rfl fun i hi => ?_
  rw [hsucc i (Finset.mem_range.mp hi), pow_succ, mul_assoc]

theorem bitSum_succ (g : R) (n : Nat) (bits : Nat → Bool) :
    bitSum g (n + 1) bits = bitSum g n bits + ofBit (bits n) * g ^ n := Finset.sum_range_succ _ n

theorem bitSum_none (g : R) (n : Nat) {bits : Nat → Bool} (h : ∀ i < n, bits i = false) :
    bitSum g n bits = 0 := by
  refine Finset.sum_eq_zero fun i hi => ?_
  rw [h i (Finset.mem_range.mp hi), ofBit_false, zero_mul]

theorem bitSum_of_low (g : R) {m n : Nat} (hmn : m ≤ n) {bits : Nat → Bool}
    (h : ∀ i, m ≤ i → bits i = false) : bitSum g n bits = bitSum g m bits := by
  symm
  refine Finset.sum_subset (Finset.range_subset_range.mpr hmn) fun i _ hi => ?_
  rw [h i (by simpa using hi), ofBit_false, zero_mul]

theorem foldl_shift_add {σ : Type} {step : σ → Nat → σ} {total term : σ → R} {g : R} {bits : Nat → Bool}
    {n : Nat} (htotal : ∀ s, ∀ i < n, total (step s i) = total s + ofBit (bits i) * term s)
    (hterm : ∀ s, ∀ i < n, term (step s i) = term s * g) (s : σ) :
    total ((List.range n).foldl step s) = total s + term s * bitSum g n bits ∧
      term ((List.range n).foldl step s) = term s * g ^ n := by
  induction n with
  | zero => simp [bitSum]
  | succ n ih =>
    have hrun := ih (fun s i hi => htotal s i (Nat.lt_succ_of_lt hi)) fun s i hi =>
      hterm s i (Nat.lt_succ_of_lt hi)
    rw [List.range_succ, List.foldl_append, List.foldl_cons, List.foldl_nil, htotal _ n n.lt_succ_self,
      hterm _ n n.lt_succ_self, hrun.1, hrun.2, bitSum_succ]
    constructor
    · ring
    · rw [pow_succ, mul_assoc]

variable [Algebra (ZMod 2) R]

theorem ofBit_xor (a b : Bool) : ofBit (a ^^ b) = (ofBit a + ofBit b : R) := by
  cases a with
  | false => simp
  | true =>
    cases b with
    | false => simp
    | true => exact (ZModModule.add_self (1 : R)).symm

theorem bitSum_xor (g : R) (n : Nat) (a b : Nat → Bool) :
    bitSum g n (fun i => a i ^^ b i) = bitSum g n a + bitSum g n b := by
  simp only [bitSum, ofBit_xor, add_mul, Finset.sum_add_distrib]

end Sums

section Quotient

theorem coeff_bitSum (n : Nat) (bits : Nat → Bool) (i : Nat) :
    (bitSum (X : (ZMod 2)[X]) n bits).coeff i = if i < n then ofBit (bits i) else 0 := by
  have hterm : ∀ j, (ofBit (bits j) * X ^ j : (ZMod 2)[X]) = C (ofBit (bits j)) * X ^ j := by
    intro j
    cases bits j with
    | false => simp
    | true => simp
  simp only [bitSum, hterm, finsetSum_coeff, coeff_C_mul_X_pow, Finset.sum_ite_eq, Finset.mem_range]

theorem degree_bitSum_lt (n : Nat) (bits : Nat → Bool) : (bitSum (X : (ZMod 2)[X]) n bits).degree < n := by
  rw [degree_lt_iff_coeff_zero]
  intro i hi
  rw [coeff_bitSum, if_neg (Nat.not_lt.mpr hi)]

theorem ofBit_ne_zero (c : ZMod 2) : ofBit (decide (c ≠ 0)) = c := by
  revert c
  decide

variable {f : (ZMod 2)[X]} {n : Nat}

theorem mk_bitSum (bits : Nat → Bool) :
    AdjoinRoot.mk f (bitSum X n bits) = bitSum (AdjoinRoot.root f) n bits := by
  rw [map_bitSum, AdjoinRoot.mk_X]

theorem bitSum_root_injective (hmonic : f.Monic) (hdegree : f.natDegree = n) {a b : Nat → Bool}
    (h : bitSum (AdjoinRoot.root f) n a = bitSum (AdjoinRoot.root f) n b) : ∀ i < n, a i = b i := by
  rw [← mk_bitSum, ← mk_bitSum, AdjoinRoot.mk_eq_mk] at h
  have hlt : (bitSum (X : (ZMod 2)[X]) n a - bitSum X n b).degree < f.degree := by
    rw [degree_eq_natDegree hmonic.ne_zero, hdegree]
    exact (degree_sub_le _ _).trans_lt (max_lt (degree_bitSum_lt n a) (degree_bitSum_lt n b))
  have heq : bitSum (X : (ZMod 2)[X]) n a = bitSum X n b := by
    by_contra hne
    exact hmonic.not_dvd_of_degree_lt (sub_ne_zero.mpr hne) hlt h
  intro i hi
  have hcoeff := congrArg (fun p => p.coeff i) heq
  simp only [coeff_bitSum, if_pos hi] at hcoeff
  revert hcoeff
  generalize a i = x
  generalize b i = y
  revert x y
  decide

theorem bitSum_root_surjective (hmonic : f.Monic) (hdegree : f.natDegree = n) (r : AdjoinRoot f) :
    ∃ bits, bitSum (AdjoinRoot.root f) n bits = r := by
  obtain ⟨p, rfl⟩ := AdjoinRoot.mk_surjective r
  refine ⟨fun i => decide ((p %ₘ f).coeff i ≠ 0), ?_⟩
  have hrest : bitSum X n (fun i => decide ((p %ₘ f).coeff i ≠ 0)) = p %ₘ f := by
    ext i
    rw [coeff_bitSum]
    split
    next => exact ofBit_ne_zero _
    next hi =>
      symm
      apply coeff_eq_zero_of_degree_lt
      refine (degree_modByMonic_lt p hmonic).trans_le ?_
      rw [degree_eq_natDegree hmonic.ne_zero, hdegree]
      exact_mod_cast Nat.not_lt.mp hi
  rw [← mk_bitSum, hrest, ← AdjoinRoot.modByMonicHom_mk hmonic p]
  exact AdjoinRoot.mk_leftInverse hmonic _

theorem root_pow_eq {q : (ZMod 2)[X]} (h : f = X ^ n + q) : AdjoinRoot.root f ^ n = AdjoinRoot.mk f q := by
  have hself : AdjoinRoot.mk f (X ^ n + q) = 0 := h ▸ AdjoinRoot.mk_self
  rw [map_add, map_pow, AdjoinRoot.mk_X] at hself
  rw [eq_neg_of_add_eq_zero_left hself, ZModModule.neg_eq_self]

end Quotient

end Foundation
