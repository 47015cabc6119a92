import CrapOs.Crypto.Rfc7693

/-! # Parts of Argon2id as RFC 9106 defines them

The hash of any length (section 3.3), the choice of the reference block (section 3.4)
and the compression function (sections 3.5 and 3.6). A block is given by its 64 bit
words. Nothing here is taken from the implementation.
-/

namespace CrapOs.Rfc9106

open Foundation
open scoped Rfc7693

def blake (length : Nat) (input : List UInt8) : List UInt8 := Rfc7693.hash length [] input

/-- `V_{i+1}`: a digest of 64 bytes, of the input first and then of the digest before. -/
def link (tau : Nat) (input : List UInt8) : Nat → List UInt8
  | 0 => blake 64 (leBytes 4 tau ++ input)
  | i + 1 => blake 64 (link tau input i)

/-- `H'` -/
def variableHash (tau : Nat) (input : List UInt8) : List UInt8 :=
  if tau ≤ 64 then blake tau (leBytes 4 tau ++ input)
  else
    let r := (tau + 31) / 32 - 2
    ((List.range r).flatMap fun i => (link tau input i).take 32) ++
      blake (tau - 32 * r) (link tau input (r - 1))

abbrev Block := Vector UInt64 128

def zero : Block := Vector.replicate 128 0

def xor (x y : Block) : Block := Vector.zipWith (· ^^^ ·) x y

def trunc (a : UInt64) : UInt64 := UInt64.ofNat (a.toNat % 2 ^ 32)

def gb (v : Vector UInt64 16) (a b c d : Fin 16) : Vector UInt64 16 :=
  let v := put v a (v.get a + v.get b + 2 * trunc (v.get a) * trunc (v.get b))
  let v := put v d (Rfc7693.rotate (v.get d ^^^ v.get a) 32)
  let v := put v c (v.get c + v.get d + 2 * trunc (v.get c) * trunc (v.get d))
  let v := put v b (Rfc7693.rotate (v.get b ^^^ v.get c) 24)
  let v := put v a (v.get a + v.get b + 2 * trunc (v.get a) * trunc (v.get b))
  let v := put v d (Rfc7693.rotate (v.get d ^^^ v.get a) 16)
  let v := put v c (v.get c + v.get d + 2 * trunc (v.get c) * trunc (v.get d))
  put v b (Rfc7693.rotate (v.get b ^^^ v.get c) 63)

/-- The permutation `P` of eight registers of two words each. -/
def permutation (v : Vector UInt64 16) : Vector UInt64 16 :=
  let v := gb v 0 4 8 12
  let v := gb v 1 5 9 13
  let v := gb v 2 6 10 14
  let v := gb v 3 7 11 15
  let v := gb v 0 5 10 15
  let v := gb v 1 6 11 12
  let v := gb v 2 7 8 13
  gb v 3 4 9 14

theorem register_lt (i j : Fin 8) (half : Nat) (h : half < 2) : 2 * (8 * i.val + j.val) + half < 128 := by
  omega

theorem half_lt (k : Fin 16) : k.val / 2 < 8 := by omega

/-- Word `half` of register `8 * i + j`, in row `i` and column `j` of the matrix. -/
def registerWord (i j : Fin 8) (half : Fin 2) : Fin 128 :=
  ⟨2 * (8 * i.val + j.val) + half.val, register_lt i j half.val half.isLt⟩

def rowWord (row : Fin 8) (k : Fin 16) : Fin 128 :=
  registerWord row ⟨k.val / 2, half_lt k⟩ ⟨k.val % 2, Nat.mod_lt k.val Nat.two_pos⟩

def columnWord (col : Fin 8) (k : Fin 16) : Fin 128 :=
  registerWord ⟨k.val / 2, half_lt k⟩ col ⟨k.val % 2, Nat.mod_lt k.val Nat.two_pos⟩

def permuteRows (r : Block) : Block :=
  (List.finRange 8).foldl (fun z row => applyAt permutation z (rowWord row)) r

def permuteColumns (q : Block) : Block :=
  (List.finRange 8).foldl (fun z col => applyAt permutation z (columnWord col)) q

def compression (x y : Block) : Block :=
  let r := xor x y
  xor (permuteColumns (permuteRows r)) r

def typeId : Nat := 2

def addressInput (pass lane slice blocks passes counter : Nat) : Block :=
  Vector.ofFn fun i => UInt64.ofNat ([pass, lane, slice, blocks, passes, typeId, counter].getD i 0)

/-- 128 words for the positions of a segment, starting with the first block for counter 1. -/
def addressBlock (pass lane slice blocks passes counter : Nat) : Block :=
  compression zero (compression zero (addressInput pass lane slice blocks passes counter))

theorem first_lt : 0 < 128 := Nat.succ_pos 127

theorem address_lt (s : Nat) : s % 128 < 128 := Nat.mod_lt s (Nat.succ_pos 127)

/-- The word for block `s` of a segment, whose halves are `J1` and `J2`. -/
def pseudoRandom (previous : Block) (pass lane slice s blocks passes : Nat) : UInt64 :=
  if pass = 0 ∧ slice < 2 then
    (addressBlock pass lane slice blocks passes (s / 128 + 1)).get ⟨s % 128, address_lt s⟩
  else previous.get ⟨0, first_lt⟩

def j1 (word : UInt64) : Nat := word.toNat % 2 ^ 32

def j2 (word : UInt64) : Nat := word.toNat / 2 ^ 32

def referenceLane (word : UInt64) (pass lane slice lanes : Nat) : Nat :=
  if pass = 0 ∧ slice = 0 then lane else j2 word % lanes

/-- The blocks of the last three segments of a lane that are finished, the oldest first. -/
def finished (pass slice segmentLen : Nat) : List Nat :=
  if pass = 0 then List.range (slice * segmentLen)
  else (List.range (3 * segmentLen)).map fun i => ((slice + 1) * segmentLen + i) % (4 * segmentLen)

/-- The set `W` for block `s` of a segment. In the own lane it has the blocks of the segment as
well, but the previous block; otherwise its last block is left out for the first one of a segment. -/
def window (own : Bool) (pass slice s segmentLen : Nat) : List Nat :=
  if own then (finished pass slice segmentLen ++ (List.range s).map (slice * segmentLen + ·)).dropLast
  else if s = 0 then (finished pass slice segmentLen).dropLast
  else finished pass slice segmentLen

def position (size : Nat) (word : UInt64) : Nat :=
  let x := j1 word ^ 2 / 2 ^ 32
  let y := size * x / 2 ^ 32
  size - 1 - y

def referenceIndex (word : UInt64) (pass lane slice s segmentLen lanes : Nat) : Nat :=
  let l := referenceLane word pass lane slice lanes
  let w := window (l = lane) pass slice s segmentLen
  l * (4 * segmentLen) + w.getD (position w.length word) 0

end CrapOs.Rfc9106
