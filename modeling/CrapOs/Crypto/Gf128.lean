import CrapOs.Crypto.AesGcm
import CrapOs.Foundation.BinaryPolynomials

/-! # The product of GHASH

A block is a polynomial over the field with two elements, its first bit the coefficient of
`1`. The loop of `gf128_mul` multiplies these polynomials modulo
`X^128 + X^7 + X^2 + X + 1`.
-/

namespace CrapOs.AesGcm

open Foundation Polynomial

/-- Bit `i` of a block, the most significant bit of the first byte first. -/
def blockBit (x : Block) (i : Nat) : Bool := (x.toList.getD (i / 8) 0).toNat.testBit (7 - i % 8)

/-- Bit `i` of two words, the most significant bit of the first word first. -/
def wordBit (hi lo : UInt64) (i : Nat) : Bool :=
  if i < 64 then hi.toNat.testBit (63 - i) else lo.toNat.testBit (127 - i)

theorem toNat_beWord {bytes : List UInt8} (h : bytes.length = 8) : (beWord bytes).toNat = natOfBe bytes := by
  have hlt := natOfBe_lt bytes
  rw [h] at hlt
  exact UInt64.toNat_ofNat_of_lt' hlt

theorem beWord_beBytes (w : UInt64) : beWord (beBytes 8 w.toNat) = w := by
  apply UInt64.toNat_inj.mp
  rw [toNat_beWord (length_beBytes 8 _), natOfBe_beBytes]
  exact Nat.mod_eq_of_lt w.toNat_lt

variable {i : Nat}

theorem wordBit_block (x : Block) (h : i < 128) :
    wordBit (beWord (x.toList.take 8)) (beWord (x.toList.drop 8)) i = blockBit x i := by
  have hlength : x.toList.length = 16 := Vector.length_toList
  have htake : (x.toList.take 8).length = 8 := by rw [List.length_take, hlength]; rfl
  have hdrop : (x.toList.drop 8).length = 8 := by rw [List.length_drop, hlength]
  unfold wordBit blockBit
  split
  next hlow =>
    have hbyte : 8 - 1 - (63 - i) / 8 = i / 8 := by omega
    have hbit : (63 - i) % 8 = 7 - i % 8 := by omega
    rw [toNat_beWord htake, testBit_natOfBe (by omega), htake, hbyte, hbit]
    rw [List.getD_eq_getElem?_getD, List.getElem?_take_of_lt (by omega), List.getD_eq_getElem?_getD]
  next hhigh =>
    have hbyte : 8 + (8 - 1 - (127 - i) / 8) = i / 8 := by omega
    have hbit : (127 - i) % 8 = 7 - i % 8 := by omega
    rw [toNat_beWord hdrop, testBit_natOfBe (by omega), hdrop, hbit]
    rw [List.getD_eq_getElem?_getD, List.getElem?_drop, hbyte, List.getD_eq_getElem?_getD]

theorem blockBit_words (hi lo : UInt64) (h : i < 128) :
    blockBit (fixedBytes 16 (beBytes 8 hi.toNat ++ beBytes 8 lo.toNat)) i = wordBit hi lo i := by
  have hlength : (beBytes 8 hi.toNat ++ beBytes 8 lo.toNat).length = 16 := by
    rw [List.length_append, length_beBytes, length_beBytes]
  rw [← wordBit_block _ h, toList_fixedBytes hlength, List.take_left' (length_beBytes 8 _),
    List.drop_left' (length_beBytes 8 _), beWord_beBytes, beWord_beBytes]

theorem wordBit_xor (a b c d : UInt64) (i : Nat) :
    wordBit (a ^^^ b) (c ^^^ d) i = (wordBit a c i ^^ wordBit b d i) := by
  unfold wordBit
  split
  next => rw [UInt64.toNat_xor, Nat.testBit_xor]
  next => rw [UInt64.toNat_xor, Nat.testBit_xor]

theorem wordBit_zero (i : Nat) : wordBit 0 0 i = false := by
  simp [wordBit]

theorem shiftRight_and_one {w : UInt64} {n : Nat} (h : n < 64) :
    (w >>> UInt64.ofNat n) &&& 1 = 1 ↔ w.toNat.testBit n = true := by
  rw [← UInt64.toNat_inj]
  simp [Nat.mod_eq_of_lt h, Nat.testBit_eq_decide_div_mod_eq, Nat.shiftRight_eq_div_pow]

theorem testBit_shiftRight_one (w : UInt64) (i : Nat) :
    (w >>> 1).toNat.testBit i = w.toNat.testBit (i + 1) := by
  rw [UInt64.toNat_shiftRight, Nat.testBit_shiftRight, Nat.add_comm]
  rfl

theorem testBit_shiftLeft_most (w : UInt64) (h : i < 64) :
    (w <<< 63).toNat.testBit i = (decide (i = 63) && w.toNat.testBit 0) := by
  have hmod : (w <<< 63).toNat = w.toNat <<< 63 % 2 ^ 64 := rfl
  rw [hmod, Nat.testBit_mod_two_pow, Nat.testBit_shiftLeft, decide_eq_true h, Bool.true_and]
  by_cases hi : i = 63
  · simp [hi]
  · simp [hi, show ¬ 63 ≤ i by omega]

theorem wordBit_shift_zero (hi lo : UInt64) : wordBit (hi >>> 1) ((lo >>> 1) ||| (hi <<< 63)) 0 = false := by
  unfold wordBit
  rw [if_pos (by decide), testBit_shiftRight_one]
  exact Nat.testBit_lt_two_pow hi.toNat_lt

theorem wordBit_shift_succ (hi lo : UInt64) (h : i < 127) :
    wordBit (hi >>> 1) ((lo >>> 1) ||| (hi <<< 63)) (i + 1) = wordBit hi lo i := by
  unfold wordBit
  by_cases hlow : i + 1 < 64
  · have hindex : 63 - (i + 1) + 1 = 63 - i := by omega
    rw [if_pos hlow, if_pos (by omega), testBit_shiftRight_one, hindex]
  · rw [if_neg hlow, UInt64.toNat_or, Nat.testBit_or, testBit_shiftRight_one,
      testBit_shiftLeft_most hi (by omega)]
    by_cases hlast : i = 63
    · -- the last bit of the first word becomes the first one of the second
      have hnone : lo.toNat.testBit 64 = false := Nat.testBit_lt_two_pow lo.toNat_lt
      simp [hlast, hnone]
    · have hindex : 127 - (i + 1) + 1 = 127 - i := by omega
      have hother : ¬ 127 - (i + 1) = 63 := by omega
      rw [if_neg (by omega), hindex, decide_eq_false hother, Bool.false_and, Bool.or_false]

theorem wordBit_r (h : i < 128) :
    wordBit 0xe100000000000000 0 i = decide (i = 0 ∨ i = 1 ∨ i = 2 ∨ i = 7) := by
  revert i
  decide

section Loop

variable {R : Type} [CommRing R] {g : R}

def wordSum (g : R) (hi lo : UInt64) : R := bitSum g 128 (wordBit hi lo)

theorem wordSum_r : wordSum g 0xe100000000000000 0 = 1 + g + g ^ 2 + g ^ 7 := by
  unfold wordSum
  rw [bitSum_congr g fun i hi => wordBit_r hi, bitSum_of_low g (m := 8) (by decide)]
  · simp [bitSum, Finset.sum_range_succ]
  · intro i hi
    exact decide_eq_false (by omega)

variable [Algebra (ZMod 2) R]

theorem wordSum_xor (a b c d : UInt64) : wordSum g (a ^^^ b) (c ^^^ d) = wordSum g a c + wordSum g b d := by
  unfold wordSum
  rw [← bitSum_xor]
  exact bitSum_congr g fun i _ => wordBit_xor a b c d i

theorem wordSum_step (hg : g ^ 128 = 1 + g + g ^ 2 + g ^ 7) (yHi yLo : UInt64) (s : GfState) (i : Nat) :
    wordSum g (gf128Step yHi yLo s i).vHi (gf128Step yHi yLo s i).vLo = wordSum g s.vHi s.vLo * g := by
  have hshift : wordSum g (s.vHi >>> 1) ((s.vLo >>> 1) ||| (s.vHi <<< 63)) =
      bitSum g 127 (wordBit s.vHi s.vLo) * g :=
    bitSum_shift g 127 (wordBit_shift_zero _ _) fun i hi => wordBit_shift_succ _ _ hi
  have hlast : wordSum g s.vHi s.vLo * g =
      bitSum g 127 (wordBit s.vHi s.vLo) * g + ofBit (s.vLo.toNat.testBit 0) * g ^ 128 := by
    rw [wordSum, bitSum_succ, add_mul, mul_assoc, ← pow_succ]
    rfl
  have hcarry : s.vLo &&& 1 = 1 ↔ s.vLo.toNat.testBit 0 = true :=
    shiftRight_and_one (w := s.vLo) (n := 0) (by decide)
  rw [hlast]
  unfold gf128Step
  dsimp only
  by_cases hbit : s.vLo.toNat.testBit 0 = true
  · rw [if_pos (hcarry.mpr hbit), hbit, ofBit_true, one_mul, hg, ← hshift, ← wordSum_r, ← wordSum_xor,
      UInt64.xor_zero]
  · rw [if_neg (hcarry.not.mpr hbit), Bool.eq_false_of_not_eq_true hbit, ofBit_false, zero_mul, add_zero,
      hshift]

theorem wordSum_total (yHi yLo : UInt64) (s : GfState) {i : Nat} (h : i < 128) :
    wordSum g (gf128Step yHi yLo s i).zHi (gf128Step yHi yLo s i).zLo =
      wordSum g s.zHi s.zLo + ofBit (wordBit yHi yLo i) * wordSum g s.vHi s.vLo := by
  have hread : (if i < 64 then (yHi >>> UInt64.ofNat (63 - i)) &&& 1
      else (yLo >>> UInt64.ofNat (127 - i)) &&& 1) = 1 ↔ wordBit yHi yLo i = true := by
    unfold wordBit
    split
    next => exact shiftRight_and_one (by omega)
    next => exact shiftRight_and_one (by omega)
  unfold gf128Step
  dsimp only
  by_cases hbit : wordBit yHi yLo i = true
  · rw [if_pos (hread.mpr hbit), if_pos (hread.mpr hbit), hbit, ofBit_true, one_mul, wordSum_xor]
  · rw [if_neg (hread.not.mpr hbit), if_neg (hread.not.mpr hbit), Bool.eq_false_of_not_eq_true hbit,
      ofBit_false, zero_mul, add_zero]

theorem bitSum_gf128Mul (hg : g ^ 128 = 1 + g + g ^ 2 + g ^ 7) (x y : Block) :
    bitSum g 128 (blockBit (gf128Mul x y)) = bitSum g 128 (blockBit x) * bitSum g 128 (blockBit y) := by
  have hloop := (@foldl_shift_add R _ GfState
    (gf128Step (beWord (y.toList.take 8)) (beWord (y.toList.drop 8))) (fun s => wordSum g s.zHi s.zLo)
    (fun s => wordSum g s.vHi s.vLo) g _ 128 (fun s i hi => wordSum_total _ _ s hi)
    (fun s i _ => wordSum_step hg _ _ s i)
    ⟨0, 0, beWord (x.toList.take 8), beWord (x.toList.drop 8)⟩).1
  have hzero : wordSum g 0 0 = 0 := bitSum_none g 128 fun i _ => wordBit_zero i
  unfold gf128Mul
  rw [bitSum_congr g fun i hi => blockBit_words _ _ hi]
  refine hloop.trans ?_
  rw [hzero, zero_add, bitSum_congr g fun i hi => wordBit_block y hi]
  exact congrArg (· * _) (bitSum_congr g fun i hi => wordBit_block x hi)

end Loop

noncomputable def modulus : (ZMod 2)[X] := X ^ 128 + (X ^ 7 + X ^ 2 + X + 1)

theorem modulus_monic : modulus.Monic := by
  apply monic_X_pow_add
  compute_degree!

theorem natDegree_modulus : modulus.natDegree = 128 := by
  unfold modulus
  compute_degree!

/-- A block as a polynomial modulo the modulus, its first bit the coefficient of `1`. -/
noncomputable def toPoly (x : Block) : AdjoinRoot modulus := bitSum (AdjoinRoot.root modulus) 128 (blockBit x)

theorem root_pow : AdjoinRoot.root modulus ^ 128 =
    1 + AdjoinRoot.root modulus + AdjoinRoot.root modulus ^ 2 + AdjoinRoot.root modulus ^ 7 := by
  have hmodulus : modulus = X ^ 128 + (X ^ 7 + X ^ 2 + X + 1) := by
    delta modulus
    rfl
  rw [root_pow_eq hmodulus]
  simp only [map_add, map_pow, map_one, AdjoinRoot.mk_X]
  ring

theorem toPoly_gf128Mul (x y : Block) : toPoly (gf128Mul x y) = toPoly x * toPoly y :=
  bitSum_gf128Mul root_pow x y

theorem blockBit_eq (x : Block) {k j : Nat} (hk : k < 16) (hj : j < 8) :
    blockBit x (8 * k + (7 - j)) = x[k].toNat.testBit j := by
  have hbyte : (8 * k + (7 - j)) / 8 = k := by omega
  have hbit : 7 - (8 * k + (7 - j)) % 8 = j := by omega
  rw [blockBit, hbyte, hbit]
  simp [hk]

theorem exists_byte_bit {i : Nat} (h : i < 128) : ∃ k j, k < 16 ∧ j < 8 ∧ i = 8 * k + (7 - j) :=
  ⟨i / 8, 7 - i % 8, by omega, by omega, by omega⟩

def xorBlock (x y : Block) : Block := Vector.zipWith (· ^^^ ·) x y

theorem toPoly_xorBlock (x y : Block) : toPoly (xorBlock x y) = toPoly x + toPoly y := by
  unfold toPoly
  rw [← bitSum_xor]
  refine bitSum_congr _ fun i hi => ?_
  obtain ⟨k, j, hk, hj, rfl⟩ := exists_byte_bit hi
  rw [blockBit_eq _ hk hj, blockBit_eq _ hk hj, blockBit_eq _ hk hj, ← Nat.testBit_xor, ← UInt8.toNat_xor,
    xorBlock, Vector.getElem_zipWith]

theorem toPoly_injective : Function.Injective toPoly := by
  intro x y h
  have hbits := bitSum_root_injective modulus_monic natDegree_modulus h
  ext k hk
  apply Nat.eq_of_testBit_eq
  intro j
  by_cases hj : j < 8
  · rw [← blockBit_eq x hk hj, ← blockBit_eq y hk hj]
    exact hbits _ (by omega)
  · have hle : 2 ^ 8 ≤ 2 ^ j := Nat.pow_le_pow_right (by decide) (by omega)
    rw [Nat.testBit_lt_two_pow (x[k].toNat_lt.trans_le hle),
      Nat.testBit_lt_two_pow (y[k].toNat_lt.trans_le hle)]

def ofBits (bits : Nat → Bool) : Block :=
  Vector.ofFn fun k => UInt8.ofNat (Nat.ofBits fun j : Fin 8 => bits (8 * k.val + (7 - j.val)))

theorem blockBit_ofBits (bits : Nat → Bool) {i : Nat} (h : i < 128) : blockBit (ofBits bits) i = bits i := by
  obtain ⟨k, j, hk, hj, rfl⟩ := exists_byte_bit h
  rw [blockBit_eq _ hk hj, ofBits, Vector.getElem_ofFn, UInt8.toNat_ofNat_of_lt' (Nat.ofBits_lt_two_pow _),
    Nat.testBit_ofBits_lt _ _ hj]

theorem toPoly_surjective : Function.Surjective toPoly := by
  intro r
  obtain ⟨bits, rfl⟩ := bitSum_root_surjective modulus_monic natDegree_modulus r
  exact ⟨ofBits bits, bitSum_congr _ fun i hi => blockBit_ofBits bits hi⟩

def identity : Block := #v[0x80, 0, 0, 0, 0, 0, 0, 0, 0, 0, 0, 0, 0, 0, 0, 0]

theorem blockBit_identity {i : Nat} (h : i < 128) : blockBit identity i = decide (i = 0) := by
  revert i
  decide

theorem toPoly_identity : toPoly identity = 1 := by
  unfold toPoly
  rw [bitSum_congr _ fun i hi => blockBit_identity hi, bitSum_of_low _ (m := 1) (by decide)]
  · simp [bitSum]
  · intro i hi
    exact decide_eq_false (by omega)

/-- Blocks are the polynomials modulo the modulus, with the bits in the order of GCM, and
`gf128_mul` is their product. -/
theorem gf128Mul_ring (x y z : Block) :
    Function.Bijective toPoly ∧
    toPoly (gf128Mul x y) = toPoly x * toPoly y ∧
    toPoly (xorBlock x y) = toPoly x + toPoly y ∧
    gf128Mul x y = gf128Mul y x ∧
    gf128Mul (gf128Mul x y) z = gf128Mul x (gf128Mul y z) ∧
    gf128Mul x (xorBlock y z) = xorBlock (gf128Mul x y) (gf128Mul x z) ∧
    gf128Mul (xorBlock x y) z = xorBlock (gf128Mul x z) (gf128Mul y z) ∧
    gf128Mul identity x = x ∧
    gf128Mul x identity = x := by
  refine ⟨⟨toPoly_injective, toPoly_surjective⟩, toPoly_gf128Mul x y, toPoly_xorBlock x y, ?_, ?_, ?_, ?_, ?_,
    ?_⟩
  · apply toPoly_injective
    rw [toPoly_gf128Mul, toPoly_gf128Mul, mul_comm]
  · apply toPoly_injective
    rw [toPoly_gf128Mul, toPoly_gf128Mul, toPoly_gf128Mul, toPoly_gf128Mul, mul_assoc]
  · apply toPoly_injective
    rw [toPoly_gf128Mul, toPoly_xorBlock, toPoly_xorBlock, toPoly_gf128Mul, toPoly_gf128Mul, mul_add]
  · apply toPoly_injective
    rw [toPoly_gf128Mul, toPoly_xorBlock, toPoly_xorBlock, toPoly_gf128Mul, toPoly_gf128Mul, add_mul]
  · apply toPoly_injective
    rw [toPoly_gf128Mul, toPoly_identity, one_mul]
  · apply toPoly_injective
    rw [toPoly_gf128Mul, toPoly_identity, mul_one]

end CrapOs.AesGcm
