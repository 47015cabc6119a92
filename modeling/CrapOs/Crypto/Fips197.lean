import CrapOs.Foundation.ByteField

/-! # AES-256 as FIPS 197 defines it

A byte is an element of the field with 256 elements. The substitution inverts it there and
applies an affine map to its bits; a column is multiplied as a polynomial over the field.
Nothing here is taken from the implementation.
-/

namespace CrapOs.Fips197

open Foundation Polynomial
open Foundation.Gf256 (elem toByte)

def nk : Nat := 8

def nr : Nat := 14

/-- Byte `s r c` is in row `r` and column `c`. -/
abbrev State := Fin 4 → Fin 4 → UInt8

abbrev Word := Fin 4 → UInt8

theorem place_lt (r c : Fin 4) : r.val + 4 * c.val < 16 := by omega

def place (r c : Fin 4) : Fin 16 := ⟨r + 4 * c, place_lt r c⟩

def toState (input : Vector UInt8 16) : State := fun r c => input.get (place r c)

def ofState (s : State) : Vector UInt8 16 := Vector.ofFn fun i => s (Fin.ofNat 4 (i % 4)) (Fin.ofNat 4 (i / 4))

def bitAt (b : UInt8) (i : Nat) : Bool := b.toNat.testBit (i % 8)

def affineRow (b : UInt8) (i : Nat) : Bool :=
  bitAt b i ^^ bitAt b (i + 4) ^^ bitAt b (i + 5) ^^ bitAt b (i + 6) ^^ bitAt b (i + 7)

def affine (b : UInt8) : UInt8 := byteOfBits fun i => affineRow b i ^^ bitAt 0x63 i

/-- The inverse of zero is zero. -/
noncomputable def sBox (b : UInt8) : UInt8 := affine (toByte (elem b)⁻¹)

noncomputable def subBytes (s : State) : State := fun r c => sBox (s r c)

def shiftRows (s : State) : State := fun r c => s r (c + r)

noncomputable def mixPolynomial : Gf256[X] :=
  C (elem 0x03) * X ^ 3 + C (elem 0x01) * X ^ 2 + C (elem 0x01) * X + C (elem 0x02)

noncomputable def columnPolynomial (s : State) (c : Fin 4) : Gf256[X] := ∑ r : Fin 4, C (elem (s r c)) * X ^ r.val

noncomputable def mixColumns (s : State) : State := fun r c =>
  toByte (((mixPolynomial * columnPolynomial s c) %ₘ (X ^ 4 + 1)).coeff r)

def addRoundKey (w : Nat → Word) (round : Nat) (s : State) : State := fun r c => s r c ^^^ w (4 * round + c) r

def rotWord (w : Word) : Word := fun j => w (j + 1)

noncomputable def subWord (w : Word) : Word := fun j => sBox (w j)

/-- The round constant has a power of `x` in its first byte. -/
noncomputable def rcon (j : Nat) : Word := fun k => if k = 0 then toByte (elem 0x02 ^ (j - 1)) else 0

noncomputable def keyTemp (temp : Word) (i : Nat) : Word :=
  if i % nk = 0 then fun j => subWord (rotWord temp) j ^^^ rcon (i / nk) j
  else if i % nk = 4 then subWord temp
  else temp

noncomputable def keyWord (key : Vector UInt8 32) (i : Nat) : Word :=
  if i < nk then fun j => (key[4 * i + j.val]?).getD 0
  else
    let temp := keyTemp (keyWord key (i - 1)) i
    fun j => keyWord key (i - nk) j ^^^ temp j
termination_by i
decreasing_by
  · unfold nk at *
    omega
  · unfold nk at *
    omega

theorem keyWord_of_lt (key : Vector UInt8 32) {i : Nat} (hi : i < nk) (j : Fin 4) :
    keyWord key i j = (key[4 * i + j.val]?).getD 0 := by
  rw [keyWord, if_pos hi]

theorem keyWord_of_le (key : Vector UInt8 32) {i : Nat} (hi : nk ≤ i) (j : Fin 4) :
    keyWord key i j = keyWord key (i - nk) j ^^^ keyTemp (keyWord key (i - 1)) i j := by
  rw [keyWord, if_neg (Nat.not_lt.mpr hi)]

noncomputable def cipherRound (w : Nat → Word) (s : State) (round : Nat) : State :=
  addRoundKey w round (mixColumns (shiftRows (subBytes s)))

noncomputable def cipher (key : Vector UInt8 32) (input : Vector UInt8 16) : Vector UInt8 16 :=
  let w := keyWord key
  let s := addRoundKey w 0 (toState input)
  let s := (List.range' 1 (nr - 1)).foldl (cipherRound w) s
  ofState (addRoundKey w nr (shiftRows (subBytes s)))

theorem affineRow_mod (b : UInt8) (i : Nat) : affineRow b (i % 8) = affineRow b i := by
  simp only [affineRow, bitAt, Nat.mod_add_mod, Nat.mod_mod]

theorem affineRow_undo (b : UInt8) (i : Nat) :
    (affineRow b (i + 2) ^^ affineRow b (i + 5) ^^ affineRow b (i + 7)) = bitAt b i := by
  have hbits : ∀ b0 b1 b2 b3 b4 b5 b6 b7 : Bool,
      ((b2 ^^ b6 ^^ b7 ^^ b0 ^^ b1) ^^ (b5 ^^ b1 ^^ b2 ^^ b3 ^^ b4) ^^ (b7 ^^ b3 ^^ b4 ^^ b5 ^^ b6)) = b0 := by
    decide
  have hperiod (k : Nat) : bitAt b (i + (k + 8)) = bitAt b (i + k) := by
    rw [bitAt, ← Nat.add_assoc, Nat.add_mod_right, bitAt]
  simp only [affineRow, Nat.add_assoc]
  simp only [hperiod 0, hperiod 1, hperiod 2, hperiod 3, hperiod 4, hperiod 5, hperiod 6]
  exact hbits _ _ _ _ _ _ _ _

theorem affine_injective : Function.Injective affine := by
  intro a b h
  have hrow (i : Nat) : affineRow a i = affineRow b i := by
    have hbit := congrArg (fun x : UInt8 => x.toNat.testBit (i % 8)) h
    have hi : i % 8 < 8 := Nat.mod_lt i (by decide)
    simp only [affine, testBit_byteOfBits _ hi, affineRow_mod] at hbit
    exact Bool.xor_left_inj.mp hbit
  apply byte_eq_of_testBit
  intro i hi
  have hundo := affineRow_undo a i
  rw [hrow, hrow, hrow, affineRow_undo, bitAt, bitAt, Nat.mod_eq_of_lt hi] at hundo
  exact hundo.symm

theorem sBox_injective : Function.Injective sBox := by
  intro a b h
  have hinverse := congrArg elem (affine_injective h)
  rw [Gf256.elem_toByte, Gf256.elem_toByte] at hinverse
  exact Gf256.elem_injective (inv_injective hinverse)

section Columns

variable {F : Type} [CommRing F]

theorem mul_modByMonic [Nontrivial F] (a0 a1 a2 a3 s0 s1 s2 s3 : F) :
    ((C a3 * X ^ 3 + C a2 * X ^ 2 + C a1 * X + C a0) * (C s0 + C s1 * X + C s2 * X ^ 2 + C s3 * X ^ 3)) %ₘ
        (X ^ 4 + 1) =
      C (a0 * s0 - (a3 * s1 + a2 * s2 + a1 * s3)) + C (a1 * s0 + a0 * s1 - (a3 * s2 + a2 * s3)) * X +
        C (a2 * s0 + a1 * s1 + a0 * s2 - a3 * s3) * X ^ 2 + C (a3 * s0 + a2 * s1 + a1 * s2 + a0 * s3) * X ^ 3 := by
  have hmonic : (X ^ 4 + 1 : F[X]).Monic := by
    apply monic_X_pow_add
    compute_degree!
  have hdegree : (X ^ 4 + 1 : F[X]).degree = 4 := by compute_degree!
  refine (div_modByMonic_unique
    (C (a3 * s1 + a2 * s2 + a1 * s3) + C (a3 * s2 + a2 * s3) * X + C (a3 * s3) * X ^ 2) _ hmonic ⟨?_, ?_⟩).2
  · simp only [map_add, map_mul, map_sub]
    ring
  · rw [hdegree]
    refine lt_of_le_of_lt (b := 3) ?_ (by norm_num)
    compute_degree

theorem coeff_cubic (c : Fin 4 → F) (r : Fin 4) :
    (C (c 0) + C (c 1) * X + C (c 2) * X ^ 2 + C (c 3) * X ^ 3).coeff r.val = c r := by
  fin_cases r <;> simp [coeff_X, coeff_C]

end Columns

theorem elem_mixColumns (s : State) (r c : Fin 4) :
    elem (mixColumns s r c) =
      elem 2 * elem (s r c) + elem 3 * elem (s (r + 1) c) + elem (s (r + 2) c) + elem (s (r + 3) c) := by
  have hcolumn : columnPolynomial s c =
      C (elem (s 0 c)) + C (elem (s 1 c)) * X + C (elem (s 2 c)) * X ^ 2 + C (elem (s 3 c)) * X ^ 3 := by
    simp [columnPolynomial, Fin.sum_univ_four]
  have hcoeff := coeff_cubic ![elem 2 * elem (s 0 c) - (elem 3 * elem (s 1 c) + 1 * elem (s 2 c) + 1 * elem (s 3 c)),
    1 * elem (s 0 c) + elem 2 * elem (s 1 c) - (elem 3 * elem (s 2 c) + 1 * elem (s 3 c)),
    1 * elem (s 0 c) + 1 * elem (s 1 c) + elem 2 * elem (s 2 c) - elem 3 * elem (s 3 c),
    elem 3 * elem (s 0 c) + 1 * elem (s 1 c) + 1 * elem (s 2 c) + elem 2 * elem (s 3 c)] r
  unfold mixColumns mixPolynomial
  rw [Gf256.elem_toByte, hcolumn, Gf256.elem_one, mul_modByMonic]
  refine hcoeff.trans ?_
  fin_cases r
  all_goals
    simp [ZModModule.sub_eq_add]
    ring

end CrapOs.Fips197
