import Mathlib.Data.FinEnum
import Mathlib.Data.Nat.ModEq
import Mathlib.Data.Nat.Prime.Basic
import Mathlib.Tactic.Ring
import CrapOs.Crypto.Argon2Compression
import CrapOs.Foundation.FiniteStates

/-! # What goes into Argon2 is not lost

The bytes that are hashed into H0 determine the arguments, and the mixing stage of the
compression function can be undone.
-/

namespace CrapOs.Argon2

open Foundation
open Blake2b (rotateRight blake2b512)

structure H0Args where
  password : List UInt8
  salt : List UInt8
  mCost : UInt32
  tCost : UInt32
  pCost : UInt32

namespace H0Args

def bytes (x : H0Args) : List UInt8 := h0Input x.password x.salt x.mCost x.tCost x.pCost

def h0 (x : H0Args) : Vector UInt8 64 := computeH0 x.password x.salt x.mCost x.tCost x.pCost

/-- The lengths are written as a `u32`. -/
def Short (x : H0Args) : Prop := x.password.length < 2 ^ 32 ∧ x.salt.length < 2 ^ 32

theorem eq_of_bytes {x y : H0Args} (hx : x.Short) (hy : y.Short) (h : x.bytes = y.bytes) : x = y := by
  have hpow : 256 ^ 4 = 2 ^ 32 := by decide
  have hword (n : UInt32) : n.toNat < 256 ^ 4 := hpow ▸ n.toNat_lt
  simp only [bytes, h0Input, List.append_assoc] at h
  obtain ⟨hlanes, h⟩ := leBytes_append_inj (hword _) (hword _) h
  obtain ⟨-, h⟩ := leBytes_append_inj (by decide) (by decide) h
  obtain ⟨hmemory, h⟩ := leBytes_append_inj (hword _) (hword _) h
  obtain ⟨htime, h⟩ := leBytes_append_inj (hword _) (hword _) h
  obtain ⟨-, h⟩ := leBytes_append_inj (by decide) (by decide) h
  obtain ⟨-, h⟩ := leBytes_append_inj (by decide) (by decide) h
  obtain ⟨hlength, h⟩ := leBytes_append_inj (hpow ▸ hx.1) (hpow ▸ hy.1) h
  obtain ⟨hpassword, h⟩ := List.append_inj h hlength
  obtain ⟨hlength, h⟩ := leBytes_append_inj (hpow ▸ hx.2) (hpow ▸ hy.2) h
  obtain ⟨hsalt, -⟩ := List.append_inj h hlength
  cases x
  cases y
  rw [mk.injEq]
  exact ⟨hpassword, hsalt, UInt32.toNat_inj.mp hmemory, UInt32.toNat_inj.mp htime,
    UInt32.toNat_inj.mp hlanes⟩

/-- Two different lists of arguments have different bytes, and the same H0 only if BLAKE2b
hashes the two strings to one digest. -/
theorem h0_injective {x y : H0Args} (hx : x.Short) (hy : y.Short) (hne : x ≠ y) :
    x.bytes ≠ y.bytes ∧
      (x.h0 = y.h0 → ∃ s t, s ≠ t ∧ blake2b512 s = blake2b512 t ∧ s = x.bytes ∧ t = y.bytes) := by
  have hbytes : x.bytes ≠ y.bytes := fun h => hne (eq_of_bytes hx hy h)
  exact ⟨hbytes, fun h => ⟨_, _, hbytes, h, rfl, rfl⟩⟩

/-- A byte moves from the password to the salt. -/
theorem h0_injective_moved : bytes ⟨[1, 2], [3], 8, 1, 1⟩ ≠ bytes ⟨[1], [2, 3], 8, 1, 1⟩ :=
  (h0_injective ⟨by decide, by decide⟩ ⟨by decide, by decide⟩ (by simp)).1

end H0Args

theorem mulAdd_modEq (x y : UInt64) :
    (mulAdd x y).toNat ≡ x.toNat * (1 + 2 * y.toNat) + y.toNat [MOD 2 ^ 32] := by
  have hlow (z : Nat) := Nat.mod_modEq z (2 ^ 32)
  have hwrap (z : Nat) : z % 2 ^ 64 ≡ z [MOD 2 ^ 32] :=
    Nat.mod_mod_of_dvd z (Nat.pow_dvd_pow 2 (by decide))
  have hproduct : 2 * (x.toNat % 2 ^ 32 * (y.toNat % 2 ^ 32) % 2 ^ 64) % 2 ^ 64 ≡
      2 * (x.toNat * y.toNat) [MOD 2 ^ 32] :=
    (hwrap _).trans (((hwrap _).trans ((hlow _).mul (hlow _))).mul_left 2)
  rw [mulAdd, UInt64.toNat_add, UInt64.toNat_add, UInt64.toNat_mul, UInt64.toNat_mul, toNat_trunc32,
    toNat_trunc32]
  calc _ ≡ x.toNat + y.toNat + 2 * (x.toNat * y.toNat) [MOD 2 ^ 32] :=
        (hwrap _).trans ((hwrap _).add hproduct)
    _ = x.toNat * (1 + 2 * y.toNat) + y.toNat := by ring

theorem mulAdd_injective (y : UInt64) : Function.Injective fun x => mulAdd x y := by
  intro x x' h
  -- an odd factor can be cancelled in the low half, and then the products are the same
  have hodd : Nat.gcd (2 ^ 32) (1 + 2 * y.toNat) = 1 := by
    apply Nat.Coprime.pow_left
    rw [Nat.coprime_two_left]
    exact ⟨y.toNat, by omega⟩
  have hlow : trunc32 x = trunc32 x' := by
    have hmod := (mulAdd_modEq x y).symm.trans ((congrArg UInt64.toNat h).symm ▸ mulAdd_modEq x' y)
    apply UInt64.toNat_inj.mp
    rw [toNat_trunc32, toNat_trunc32]
    exact Nat.ModEq.cancel_right_of_coprime hodd (hmod.add_right_cancel' _)
  dsimp only [mulAdd] at h
  rw [hlow, UInt64.add_left_inj, UInt64.add_left_inj] at h
  exact h

theorem rotateAt_injective {n : Nat} {d a : Fin n} (hda : d ≠ a) {r : UInt64} (h0 : 0 < r.toNat)
    (h64 : r.toNat < 64) : Function.Injective fun v : Vector UInt64 n => rotateAt v d a r := by
  refine put_injective hda (f := fun x y => rotateRight (x ^^^ y) r) fun y => ?_
  exact (rotation_injective h0 h64).comp (xor_injective y)

theorem mixAt_injective {n : Nat} {a b c d : Fin n} (hab : a ≠ b) (hbc : b ≠ c) (hcd : c ≠ d)
    (hda : d ≠ a) : Function.Injective fun v : Vector UInt64 n => mixAt v a b c d := by
  have h32 := rotateAt_injective hda (r := 32) (by decide) (by decide)
  have h24 := rotateAt_injective hbc (r := 24) (by decide) (by decide)
  have h16 := rotateAt_injective hda (r := 16) (by decide) (by decide)
  have h63 := rotateAt_injective hbc (r := 63) (by decide) (by decide)
  have ha : Function.Injective fun v : Vector UInt64 n => mulAddAt v a b :=
    put_injective hab mulAdd_injective
  have hc : Function.Injective fun v : Vector UInt64 n => mulAddAt v c d :=
    put_injective hcd mulAdd_injective
  exact h63.comp (hc.comp (h16.comp (ha.comp (h24.comp (hc.comp (h32.comp ha))))))

theorem pCol_injective {places : Fin 16 → Fin 128} (hinj : Function.Injective places) :
    Function.Injective fun v => pCol v places := by
  have hmix (a b c d : Fin 16) (h : a ≠ b ∧ b ≠ c ∧ c ≠ d ∧ d ≠ a) :
      Function.Injective fun v => gMix v (places a) (places b) (places c) (places d) :=
    mixAt_injective (hinj.ne h.1) (hinj.ne h.2.1) (hinj.ne h.2.2.1) (hinj.ne h.2.2.2)
  have hcolumns := (hmix 3 7 11 15 (by decide)).comp ((hmix 2 6 10 14 (by decide)).comp
    ((hmix 1 5 9 13 (by decide)).comp (hmix 0 4 8 12 (by decide))))
  exact (hmix 3 4 9 14 (by decide)).comp ((hmix 2 7 8 13 (by decide)).comp
    ((hmix 1 6 11 12 (by decide)).comp ((hmix 0 5 10 15 (by decide)).comp hcolumns)))

/-- What `compress` does between its two exclusive ors. -/
def mixing (r : Block) : Block :=
  codeColumns ((List.finRange 8).foldl (fun z row => pCol z (rowIndex row)) r)

theorem mixing_injective : Function.Injective mixing := by
  have hrow (row : Fin 8) : Function.Injective (rowIndex row) := by
    rw [rowIndex_eq]
    exact apart_rowWord.injective row
  have hrows := foldl_injective (f := fun z row => pCol z (rowIndex row)) (l := List.finRange 8)
    fun row _ => pCol_injective (hrow row)
  have hcolumns := foldl_injective (f := fun z col => pCol z (columnIndex col)) (l := List.finRange 8)
    fun col _ => pCol_injective (apart_columnIndex.injective col)
  intro x y h
  unfold mixing codeColumns at h
  exact hrows (hcolumns h)

/-- The mixing stage of `compress` is a bijection on blocks. -/
theorem mixing_bijective :
    (∀ x y, compress x y = Rfc9106.xor (mixing (Rfc9106.xor x y)) (Rfc9106.xor x y)) ∧
      Function.Bijective mixing :=
  ⟨fun _ _ => rfl, Finite.injective_iff_bijective.mp mixing_injective⟩

end CrapOs.Argon2
