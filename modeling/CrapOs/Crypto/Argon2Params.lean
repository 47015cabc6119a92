import CrapOs.Crypto.Phc

/-! # Parameters that pass the check

Eight blocks are asked for each lane, with a product that is a `u32`. For `2 ^ 29` lanes
and more it wraps, and then the check lets memories through that have no block at all.
-/

namespace CrapOs.Argon2

open Foundation

variable {mCost pCost : UInt32}

theorem validateParams_eq_ok {password salt : List UInt8} {tCost : UInt32} :
    validateParams password salt mCost tCost pCost = .ok () ↔
      password ≠ [] ∧ 8 ≤ salt.length ∧ tCost ≠ 0 ∧ pCost ≠ 0 ∧
        8 * pCost.toNat % 2 ^ 32 ≤ mCost.toNat := by
  have hproduct : mCost < 8 * pCost ↔ mCost.toNat < 8 * pCost.toNat % 2 ^ 32 := by
    rfl
  unfold validateParams
  rw [← Nat.not_lt, ← Nat.not_lt, ← hproduct]
  split
  next h => simp [h]
  next hpassword =>
    split
    next h => simp [h]
    next hsalt =>
      split
      next h => simp [h]
      next htime =>
        split
        next h => simp [h]
        next hlanes =>
          split
          next h => simp [h]
          next h => simp [hpassword, hsalt, htime, hlanes, h]

/-- The sizes `argon2id_raw` computes: of the memory, of a lane and of a segment. -/
def totalBlocks (mCost pCost : UInt32) : Nat := mCost.toNat / (4 * pCost.toNat) * (4 * pCost.toNat)

def laneBlocks (mCost pCost : UInt32) : Nat := totalBlocks mCost pCost / pCost.toNat

def segmentBlocks (mCost pCost : UInt32) : Nat := laneBlocks mCost pCost / 4

theorem segmentBlocks_eq (hp : 1 ≤ pCost.toNat) :
    segmentBlocks mCost pCost = mCost.toNat / (4 * pCost.toNat) := by
  unfold segmentBlocks laneBlocks totalBlocks
  rw [laneLen_eq hp, Nat.mul_div_cancel_left _ (by decide : 0 < 4)]

theorem layout_of_costs (hp : 1 ≤ pCost.toNat) (hm : 4 * pCost.toNat ≤ mCost.toNat) :
    LaidOut (totalBlocks mCost pCost) pCost.toNat (laneBlocks mCost pCost) (segmentBlocks mCost pCost) := by
  have hlayout := laidOut (Nat.div_pos hm (by omega)) pCost.toNat
  rw [segmentBlocks_eq hp, laneBlocks, totalBlocks, laneLen_eq hp]
  exact hlayout

theorem lanes_pos (h : pCost ≠ 0) : 1 ≤ pCost.toNat := by
  have hne : pCost.toNat ≠ 0 := fun hzero => h (UInt32.toNat_inj.mp hzero)
  omega

theorem enough_of_validated {password salt : List UInt8} {tCost : UInt32}
    (h : validateParams password salt mCost tCost pCost = .ok ()) (hlanes : pCost.toNat < 2 ^ 29) :
    8 * pCost.toNat ≤ mCost.toNat := by
  have henough := (validateParams_eq_ok.mp h).2.2.2.2
  rw [Nat.mod_eq_of_lt (by omega)] at henough
  exact henough

/-- Parameters that pass the check are safe if they give every lane four blocks, as they do for less
than `2 ^ 29` lanes. Otherwise the memory is empty, and the first block is out of its bounds. -/
theorem argon2idRaw_of_validated {mCost tCost pCost : UInt32}
    (hvalid : ∃ password salt, validateParams password salt mCost tCost pCost = .ok ())
    (password salt : List UInt8) :
    (pCost.toNat < 2 ^ 29 → 4 * pCost.toNat ≤ mCost.toNat) ∧
    (4 * pCost.toNat ≤ mCost.toNat → ∃ hash, argon2idRaw password salt mCost tCost pCost = .ok hash) ∧
    (¬ 4 * pCost.toNat ≤ mCost.toNat →
      argon2idRaw password salt mCost tCost pCost = .error (.panic "index out of bounds")) := by
  obtain ⟨password0, salt0, hvalid⟩ := hvalid
  have hpos := lanes_pos (validateParams_eq_ok.mp hvalid).2.2.2.1
  refine ⟨?_, ?_, ?_⟩
  · intro hlanes
    have henough := enough_of_validated hvalid hlanes
    omega
  · intro hblocks
    obtain ⟨hash, hhash, -⟩ := argon2idRaw_returns password salt tCost hpos hblocks
    exact ⟨hash, hhash⟩
  · intro hfew
    exact argon2idRaw_empty password salt tCost hpos (Nat.not_le.mp hfew)

/-- With the default costs there is a hash. -/
theorem argon2idRaw_of_validated_default :
    ∃ hash, argon2idRaw (ascii "password") (ascii "saltsalt") 19456 2 1 = .ok hash :=
  (argon2idRaw_of_validated ⟨ascii "password", ascii "saltsalt", by decide⟩ _ _).2.1 (by decide)

/-- For `2 ^ 29` lanes the product is zero, so that eight blocks pass the check. -/
theorem argon2idRaw_wrapped :
    validateParams (ascii "password") (ascii "saltsalt") 8 1 0x20000000 = .ok () ∧
    argon2idRaw (ascii "password") (ascii "saltsalt") 8 1 0x20000000 =
      .error (.panic "index out of bounds") := by
  refine ⟨by decide, ?_⟩
  exact argon2idRaw_empty _ _ 1 (by decide) (by decide)

end CrapOs.Argon2
