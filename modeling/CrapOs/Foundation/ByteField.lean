import CrapOs.Foundation.BinaryPolynomials

/-! # The field with 256 elements

A byte stands for a polynomial of a degree below eight over the field with two elements, its
least significant bit the coefficient of `1`. Modulo `X^8 + X^4 + X^3 + X + 1` these are a
field: each byte but zero has an inverse, and a table names it.
-/

namespace Foundation

open Polynomial

theorem forall_byte {P : UInt8 → Prop} (h : ∀ n < 256, P (UInt8.ofNat n)) (b : UInt8) : P b := by
  have hb := h b.toNat b.toNat_lt
  rw [UInt8.ofNat_toNat] at hb
  exact hb

theorem byte_eq_of_testBit {a b : UInt8} (h : ∀ i < 8, a.toNat.testBit i = b.toNat.testBit i) : a = b := by
  apply UInt8.toNat_inj.mp
  apply Nat.eq_of_testBit_eq
  intro i
  by_cases hi : i < 8
  · exact h i hi
  · have hle : 2 ^ 8 ≤ 2 ^ i := Nat.pow_le_pow_right (by decide) (Nat.not_lt.mp hi)
    rw [Nat.testBit_lt_two_pow (a.toNat_lt.trans_le hle), Nat.testBit_lt_two_pow (b.toNat_lt.trans_le hle)]

def byteOfBits (bits : Nat → Bool) : UInt8 := UInt8.ofNat (Nat.ofBits fun i : Fin 8 => bits i)

theorem testBit_byteOfBits (bits : Nat → Bool) {i : Nat} (hi : i < 8) :
    (byteOfBits bits).toNat.testBit i = bits i := by
  rw [byteOfBits, UInt8.toNat_ofNat_of_lt' (Nat.ofBits_lt_two_pow _), Nat.testBit_ofBits_lt _ _ hi]

section Sums

variable {R : Type} [CommRing R] {g : R}

def byteSum (g : R) (b : UInt8) : R := bitSum g 8 b.toNat.testBit

theorem byteSum_zero : byteSum g 0 = 0 := bitSum_none g 8 fun i _ => Nat.zero_testBit i

theorem byteSum_one : byteSum g 1 = 1 := by
  have hbits : ∀ i < 8, (1 : UInt8).toNat.testBit i = decide (i = 0) := by decide
  unfold byteSum
  rw [bitSum_congr g hbits, bitSum_of_low g (m := 1) (by decide)]
  · simp [bitSum]
  · intro i hi
    exact decide_eq_false (by omega)

variable [Algebra (ZMod 2) R]

theorem byteSum_xor (a b : UInt8) : byteSum g (a ^^^ b) = byteSum g a + byteSum g b := by
  unfold byteSum
  rw [← bitSum_xor]
  refine bitSum_congr g fun i _ => ?_
  rw [UInt8.toNat_xor, Nat.testBit_xor]

end Sums

/-- A shift by one bit; `r` makes good for the bit that is lost. -/
def double (r b : UInt8) : UInt8 := (b <<< 1) ^^^ (if b.toNat.testBit 7 then r else 0)

def byteMul (r a b : UInt8) : UInt8 :=
  ((List.range 8).foldl
    (fun (s : UInt8 × UInt8) i => (if b.toNat.testBit i then s.1 ^^^ s.2 else s.1, double r s.2)) (0, a)).1

section Products

variable {R : Type} [CommRing R] [Algebra (ZMod 2) R] {g : R} {r : UInt8}

theorem byteSum_double (hg : g ^ 8 = byteSum g r) (b : UInt8) : byteSum g (double r b) = byteSum g b * g := by
  have hzero (b : UInt8) : (b <<< 1).toNat.testBit 0 = false := by
    revert b
    exact forall_byte (by decide +kernel)
  have hsucc (b : UInt8) : ∀ i < 7, (b <<< 1).toNat.testBit (i + 1) = b.toNat.testBit i := by
    revert b
    exact forall_byte (by decide +kernel)
  have hshift : byteSum g (b <<< 1) = bitSum g 7 b.toNat.testBit * g := bitSum_shift g 7 (hzero b) (hsucc b)
  have hlost : byteSum g b = bitSum g 7 b.toNat.testBit + ofBit (b.toNat.testBit 7) * g ^ 7 := bitSum_succ g 7 _
  rw [double, byteSum_xor, hshift, hlost, add_mul, mul_assoc, ← pow_succ, hg]
  cases b.toNat.testBit 7 with
  | false => simp [byteSum_zero]
  | true => simp

theorem byteSum_byteMul (hg : g ^ 8 = byteSum g r) (a b : UInt8) :
    byteSum g (byteMul r a b) = byteSum g a * byteSum g b := by
  have hloop := (@foldl_shift_add R _ (UInt8 × UInt8)
    (fun s i => (if b.toNat.testBit i then s.1 ^^^ s.2 else s.1, double r s.2)) (fun s => byteSum g s.1)
    (fun s => byteSum g s.2) g b.toNat.testBit 8 ?_ (fun s i _ => byteSum_double hg s.2) (0, a)).1
  · rw [byteMul]
    refine hloop.trans ?_
    rw [byteSum_zero, zero_add]
    rfl
  · intro s i _
    cases b.toNat.testBit i with
    | false => simp
    | true => simp [byteSum_xor]

end Products

theorem irreducible_of_inverses {K : Type} [Field K] {f : K[X]} (hmonic : f.Monic)
    (hdegree : f.natDegree ≠ 0) (h : ∀ x : AdjoinRoot f, x ≠ 0 → ∃ y, x * y = 1) : Irreducible f := by
  have hpos : f.degree ≠ 0 := by
    rw [degree_eq_natDegree hmonic.ne_zero]
    exact_mod_cast hdegree
  have hnontrivial : Nontrivial (AdjoinRoot f) := AdjoinRoot.nontrivial f hpos
  have hfield : IsField (AdjoinRoot f) := ⟨hnontrivial.exists_pair_ne, mul_comm, fun hx => h _ hx⟩
  have hmaximal : (Ideal.span {f}).IsMaximal := Ideal.Quotient.maximal_of_isField _ hfield
  exact ((Ideal.span_singleton_prime hmonic.ne_zero).mp hmaximal.isPrime).irreducible

noncomputable def gf256Modulus : (ZMod 2)[X] := X ^ 8 + (X ^ 4 + X ^ 3 + X + 1)

abbrev Gf256 := AdjoinRoot gf256Modulus

namespace Gf256

theorem modulus_monic : gf256Modulus.Monic := by
  apply monic_X_pow_add
  compute_degree!

theorem natDegree_modulus : gf256Modulus.natDegree = 8 := by
  unfold gf256Modulus
  compute_degree!

noncomputable def elem (b : UInt8) : Gf256 := byteSum (AdjoinRoot.root gf256Modulus) b

theorem elem_injective : Function.Injective elem := by
  intro a b h
  exact byte_eq_of_testBit (bitSum_root_injective modulus_monic natDegree_modulus h)

theorem elem_surjective : Function.Surjective elem := by
  intro x
  obtain ⟨bits, rfl⟩ := bitSum_root_surjective modulus_monic natDegree_modulus x
  exact ⟨byteOfBits bits, bitSum_congr _ fun i hi => testBit_byteOfBits bits hi⟩

noncomputable def toByte : Gf256 → UInt8 := Function.surjInv elem_surjective

@[simp] theorem elem_toByte (x : Gf256) : elem (toByte x) = x := Function.surjInv_eq elem_surjective x

@[simp] theorem toByte_elem (b : UInt8) : toByte (elem b) = b := elem_injective (elem_toByte _)

theorem elem_zero : elem 0 = 0 := byteSum_zero

theorem elem_one : elem 1 = 1 := byteSum_one

theorem elem_xor (a b : UInt8) : elem (a ^^^ b) = elem a + elem b := byteSum_xor a b

theorem two_eq_zero : (2 : Gf256) = 0 := by
  rw [← one_add_one_eq_two]
  exact ZModModule.add_self 1

theorem elem_two : elem 2 = AdjoinRoot.root gf256Modulus := by
  have hbits : ∀ i < 8, (2 : UInt8).toNat.testBit i = decide (i = 1) := by decide
  unfold elem byteSum
  rw [bitSum_congr _ hbits, bitSum_of_low _ (m := 2) (by decide)]
  · simp [bitSum, Finset.sum_range_succ]
  · intro i hi
    exact decide_eq_false (by omega)

theorem root_pow_eight : AdjoinRoot.root gf256Modulus ^ 8 = byteSum (AdjoinRoot.root gf256Modulus) 0x1b := by
  have hmodulus : gf256Modulus = X ^ 8 + (X ^ 4 + X ^ 3 + X + 1) := by
    delta gf256Modulus
    rfl
  have hbits : ∀ i < 8, (0x1b : UInt8).toNat.testBit i = decide (i = 0 ∨ i = 1 ∨ i = 3 ∨ i = 4) := by decide
  have hsum (g : Gf256) : bitSum g 8 (fun i => decide (i = 0 ∨ i = 1 ∨ i = 3 ∨ i = 4)) = 1 + g + g ^ 3 + g ^ 4 := by
    simp [bitSum, Finset.sum_range_succ]
  rw [root_pow_eq hmodulus, byteSum, bitSum_congr _ hbits, hsum]
  simp only [map_add, map_pow, map_one, AdjoinRoot.mk_X]
  ring

theorem elem_double (b : UInt8) : elem (double 0x1b b) = elem b * elem 2 := by
  rw [elem_two]
  exact byteSum_double root_pow_eight b

theorem elem_three : elem 3 = elem 2 + 1 := by
  rw [← elem_one, ← elem_xor]
  rfl

theorem elem_byteMul (a b : UInt8) : elem (byteMul 0x1b a b) = elem a * elem b :=
  byteSum_byteMul root_pow_eight a b

def inverseTable : List UInt8 :=
  [0x00, 0x01, 0x8d, 0xf6, 0xcb, 0x52, 0x7b, 0xd1, 0xe8, 0x4f, 0x29, 0xc0, 0xb0, 0xe1, 0xe5, 0xc7,
    0x74, 0xb4, 0xaa, 0x4b, 0x99, 0x2b, 0x60, 0x5f, 0x58, 0x3f, 0xfd, 0xcc, 0xff, 0x40, 0xee, 0xb2,
    0x3a, 0x6e, 0x5a, 0xf1, 0x55, 0x4d, 0xa8, 0xc9, 0xc1, 0x0a, 0x98, 0x15, 0x30, 0x44, 0xa2, 0xc2,
    0x2c, 0x45, 0x92, 0x6c, 0xf3, 0x39, 0x66, 0x42, 0xf2, 0x35, 0x20, 0x6f, 0x77, 0xbb, 0x59, 0x19,
    0x1d, 0xfe, 0x37, 0x67, 0x2d, 0x31, 0xf5, 0x69, 0xa7, 0x64, 0xab, 0x13, 0x54, 0x25, 0xe9, 0x09,
    0xed, 0x5c, 0x05, 0xca, 0x4c, 0x24, 0x87, 0xbf, 0x18, 0x3e, 0x22, 0xf0, 0x51, 0xec, 0x61, 0x17,
    0x16, 0x5e, 0xaf, 0xd3, 0x49, 0xa6, 0x36, 0x43, 0xf4, 0x47, 0x91, 0xdf, 0x33, 0x93, 0x21, 0x3b,
    0x79, 0xb7, 0x97, 0x85, 0x10, 0xb5, 0xba, 0x3c, 0xb6, 0x70, 0xd0, 0x06, 0xa1, 0xfa, 0x81, 0x82,
    0x83, 0x7e, 0x7f, 0x80, 0x96, 0x73, 0xbe, 0x56, 0x9b, 0x9e, 0x95, 0xd9, 0xf7, 0x02, 0xb9, 0xa4,
    0xde, 0x6a, 0x32, 0x6d, 0xd8, 0x8a, 0x84, 0x72, 0x2a, 0x14, 0x9f, 0x88, 0xf9, 0xdc, 0x89, 0x9a,
    0xfb, 0x7c, 0x2e, 0xc3, 0x8f, 0xb8, 0x65, 0x48, 0x26, 0xc8, 0x12, 0x4a, 0xce, 0xe7, 0xd2, 0x62,
    0x0c, 0xe0, 0x1f, 0xef, 0x11, 0x75, 0x78, 0x71, 0xa5, 0x8e, 0x76, 0x3d, 0xbd, 0xbc, 0x86, 0x57,
    0x0b, 0x28, 0x2f, 0xa3, 0xda, 0xd4, 0xe4, 0x0f, 0xa9, 0x27, 0x53, 0x04, 0x1b, 0xfc, 0xac, 0xe6,
    0x7a, 0x07, 0xae, 0x63, 0xc5, 0xdb, 0xe2, 0xea, 0x94, 0x8b, 0xc4, 0xd5, 0x9d, 0xf8, 0x90, 0x6b,
    0xb1, 0x0d, 0xd6, 0xeb, 0xc6, 0x0e, 0xcf, 0xad, 0x08, 0x4e, 0xd7, 0xe3, 0x5d, 0x50, 0x1e, 0xb3,
    0x5b, 0x23, 0x38, 0x34, 0x68, 0x46, 0x03, 0x8c, 0xdd, 0x9c, 0x7d, 0xa0, 0xcd, 0x1a, 0x41, 0x1c]

def byteInverse (b : UInt8) : UInt8 := inverseTable.getD b.toNat 0

theorem byteMul_byteInverse (b : UInt8) : b ≠ 0 → byteMul 0x1b b (byteInverse b) = 1 := by
  revert b
  exact forall_byte (by decide +kernel)

theorem exists_mul_eq_one {x : Gf256} (hx : x ≠ 0) : ∃ y, x * y = 1 := by
  obtain ⟨b, rfl⟩ := elem_surjective x
  have hb : b ≠ 0 := by
    intro h
    exact hx (h ▸ elem_zero)
  refine ⟨elem (byteInverse b), ?_⟩
  rw [← elem_byteMul, byteMul_byteInverse b hb, elem_one]

theorem modulus_irreducible : Irreducible gf256Modulus := by
  have hdegree : gf256Modulus.natDegree ≠ 0 := by
    rw [natDegree_modulus]
    decide
  exact irreducible_of_inverses modulus_monic hdegree fun x hx => exists_mul_eq_one hx

instance : Fact (Irreducible gf256Modulus) := ⟨modulus_irreducible⟩

theorem elem_byteInverse (b : UInt8) : elem (byteInverse b) = (elem b)⁻¹ := by
  by_cases hb : b = 0
  · have hzero : byteInverse 0 = 0 := by decide
    rw [hb, hzero, elem_zero, inv_zero]
  · apply eq_inv_of_mul_eq_one_right
    rw [← elem_byteMul, byteMul_byteInverse b hb, elem_one]

end Gf256

end Foundation
