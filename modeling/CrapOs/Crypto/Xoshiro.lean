import Mathlib.Data.FinEnum
import CrapOs.Foundation.ByteStrings

/-! # The fast generator

xoshiro256++ draws a word from a state of four words and steps the state on. The step can be
undone, so that no draws lead from another state into the one of zeros.
-/

namespace CrapOs.Xoshiro

open Foundation

@[ext]
structure State where
  s0 : UInt64
  s1 : UInt64
  s2 : UInt64
  s3 : UInt64

def zeros : State := ⟨0, 0, 0, 0⟩

def rotateLeft (x n : UInt64) : UInt64 := (x <<< n) ||| (x >>> (64 - n))

def xoshiro256pp (state : State) : UInt64 × State :=
  let t := state.s0 + state.s3
  let result := rotateLeft t 23 + state.s0
  let update := state.s1 <<< 17
  let state := { state with s2 := state.s2 ^^^ state.s0 }
  let state := { state with s3 := state.s3 ^^^ state.s1 }
  let state := { state with s1 := state.s1 ^^^ state.s2 }
  let state := { state with s0 := state.s0 ^^^ state.s3 }
  let state := { state with s2 := state.s2 ^^^ update }
  let state := { state with s3 := rotateLeft state.s3 45 }
  (result, state)

def prngDraw8Bytes (state : State) : List UInt8 × State :=
  let (word, state) := xoshiro256pp state
  (leBytes 8 word.toNat, state)

def getPseudoRandomBytes (remaining : Nat) (state : State) : List UInt8 × State :=
  if 8 ≤ remaining then
    let (word, state) := prngDraw8Bytes state
    let (rest, state) := getPseudoRandomBytes (remaining - 8) state
    (word ++ rest, state)
  else if remaining = 0 then ([], state)
  else
    let (word, state) := prngDraw8Bytes state
    (word.take remaining, state)
termination_by remaining

theorem xorShift_injective : Function.Injective fun x : UInt64 => x ^^^ (x <<< 17) := by
  intro x y h
  have hshift : (17 : UInt64).toNat % 64 = 17 := rfl
  have hbit (i : Nat) := congrArg (fun z : UInt64 => z.toNat.testBit i) h
  simp only [UInt64.toNat_xor, UInt64.toNat_shiftLeft, hshift, Nat.testBit_xor,
    Nat.testBit_mod_two_pow, Nat.testBit_shiftLeft] at hbit
  apply UInt64.toNat_inj.mp
  apply Nat.eq_of_testBit_eq
  intro i
  -- the shift brings in a bit from further down
  induction i using Nat.strong_induction_on with
  | _ i ih =>
    have hi := hbit i
    by_cases hlow : 17 ≤ i
    · rwa [ih (i - 17) (by omega), Bool.xor_left_inj] at hi
    · simpa [hlow] using hi

theorem step_eq (s : State) : (xoshiro256pp s).2 =
    ⟨s.s0 ^^^ (s.s3 ^^^ s.s1), s.s1 ^^^ (s.s2 ^^^ s.s0), (s.s2 ^^^ s.s0) ^^^ (s.s1 <<< 17),
      rotateLeft (s.s3 ^^^ s.s1) 45⟩ := rfl

theorem step_injective : Function.Injective fun s => (xoshiro256pp s).2 := by
  intro s t h
  simp only [step_eq, State.mk.injEq] at h
  obtain ⟨h0, h1, h2, h3⟩ := h
  have hrotate (x : UInt64) : rotateLeft x 45 = (x >>> 19) ||| (x <<< (64 - 19)) := UInt64.or_comm _ _
  have hsum : s.s3 ^^^ s.s1 = t.s3 ^^^ t.s1 := by
    rw [hrotate, hrotate] at h3
    exact rotation_injective (by decide) (by decide) h3
  have hmeet (x y z : UInt64) : (x ^^^ y) ^^^ (y ^^^ z) = x ^^^ z := by
    rw [UInt64.xor_assoc, ← UInt64.xor_assoc y, UInt64.xor_self, UInt64.zero_xor]
  have hs0 : s.s0 = t.s0 := xor_injective _ (hsum ▸ h0)
  have hs1 : s.s1 = t.s1 := by
    apply xorShift_injective
    dsimp only
    rw [← hmeet s.s1 (s.s2 ^^^ s.s0), ← hmeet t.s1 (t.s2 ^^^ t.s0), h1, h2]
  have hs2 : s.s2 = t.s2 := by
    rw [hs1, hs0, UInt64.xor_comm, UInt64.xor_comm t.s1] at h1
    exact xor_injective _ (xor_injective _ h1)
  have hs3 : s.s3 = t.s3 := xor_injective _ (hs1 ▸ hsum)
  exact State.ext hs0 hs1 hs2 hs3

theorem step_eq_zeros_iff (s : State) : (xoshiro256pp s).2 = zeros ↔ s = zeros := by
  constructor
  · intro h
    exact step_injective (h.trans rfl)
  · rintro rfl
    rfl

theorem getPseudoRandomBytes_zeros (remaining : Nat) (s : State) :
    (getPseudoRandomBytes remaining s).2 = zeros ↔ s = zeros := by
  fun_induction getPseudoRandomBytes remaining s with
  | case1 remaining s _ word s' hdraw rest s'' hrest ih =>
    rw [hrest] at ih
    refine ih.trans ?_
    rw [← show (prngDraw8Bytes s).2 = s' by rw [hdraw]]
    exact step_eq_zeros_iff s
  | case2 => rfl
  | case3 remaining s _ _ word s' hdraw =>
    rw [← show (prngDraw8Bytes s).2 = s' by rw [hdraw]]
    exact step_eq_zeros_iff s

instance : Finite State :=
  Finite.of_injective (fun s : State => (s.s0, s.s1, s.s2, s.s3)) fun s t h => by
    simp only [Prod.mk.injEq] at h
    exact State.ext h.1 h.2.1 h.2.2.1 h.2.2.2

/-- The step of xoshiro256++ is a bijection that only leads to zeros from zeros, and so do any
calls of `get_pseudo_random_bytes`. -/
theorem xoshiro_bijective :
    Function.Bijective (fun s => (xoshiro256pp s).2) ∧ (∀ s, (xoshiro256pp s).2 = zeros ↔ s = zeros) ∧
      ∀ (lengths : List Nat) (seed : State),
        lengths.foldl (fun s n => (getPseudoRandomBytes n s).2) seed = zeros ↔ seed = zeros := by
  refine ⟨Finite.injective_iff_bijective.mp step_injective, step_eq_zeros_iff, fun lengths => ?_⟩
  induction lengths with
  | nil => exact fun _ => Iff.rfl
  | cons n lengths ih => exact fun seed => (ih _).trans (getPseudoRandomBytes_zeros n seed)

end CrapOs.Xoshiro
