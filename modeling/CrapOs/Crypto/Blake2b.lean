import CrapOs.Foundation.ByteStrings

/-! # BLAKE2b and the hash of any length

A state keeps within its buffer and its digest, so that no slice of it can be out
of range. A full buffer is compressed when more input comes, not before.
-/

namespace CrapOs.Blake2b

open Foundation

def iv : Vector UInt64 8 :=
  #v[0x6a09e667f3bcc908, 0xbb67ae8584caa73b, 0x3c6ef372fe94f82b, 0xa54ff53a5f1d36f1,
    0x510e527fade682d1, 0x9b05688c2b3e6c1f, 0x1f83d9abfb41bd6b, 0x5be0cd19137e2179]

scoped instance neZeroSixteen : NeZero (16 : Nat) := ⟨Nat.succ_ne_zero 15⟩

def sigma : Vector (Vector (Fin 16) 16) 12 :=
  #v[#v[ 0,  1,  2,  3,  4,  5,  6,  7,  8,  9, 10, 11, 12, 13, 14, 15],
    #v[14, 10,  4,  8,  9, 15, 13,  6,  1, 12,  0,  2, 11,  7,  5,  3],
    #v[11,  8, 12,  0,  5,  2, 15, 13, 10, 14,  3,  6,  7,  1,  9,  4],
    #v[ 7,  9,  3,  1, 13, 12, 11, 14,  2,  6,  5, 10,  4,  0, 15,  8],
    #v[ 9,  0,  5,  7,  2,  4, 10, 15, 14,  1, 11, 12,  6,  8,  3, 13],
    #v[ 2, 12,  6, 10,  0, 11,  8,  3,  4, 13,  7,  5, 15, 14,  1,  9],
    #v[12,  5,  1, 15, 14, 13,  4, 10,  0,  7,  6,  3,  9,  2,  8, 11],
    #v[13, 11,  7, 14, 12,  1,  3,  9,  5,  0, 15,  4,  8,  6,  2, 10],
    #v[ 6, 15, 14,  9, 11,  3,  0,  8, 12,  2, 13,  7,  1,  4, 10,  5],
    #v[10,  2,  8,  4,  7,  6,  1,  5, 15, 11,  9, 14,  3, 12, 13,  0],
    #v[ 0,  1,  2,  3,  4,  5,  6,  7,  8,  9, 10, 11, 12, 13, 14, 15],
    #v[14, 10,  4,  8,  9, 15, 13,  6,  1, 12,  0,  2, 11,  7,  5,  3]]

def maxKeyLen : Nat := 64

def maxOutLen : Nat := 64

def blockSize : Nat := 128

abbrev OutLen := { n : Nat // n ≤ maxOutLen }

abbrev Key := { key : List UInt8 // key.length ≤ maxKeyLen }

structure Blake2bState where
  h : Vector UInt64 8
  /-- the number of bytes so far, the low word first -/
  t : Vector UInt64 2
  f : Vector UInt64 2
  buf : Vector UInt8 blockSize
  bufLen : Nat
  outLen : OutLen
  bufLen_le : bufLen ≤ blockSize

def rotateRight (x n : UInt64) : UInt64 := (x >>> n) ||| (x <<< (64 - n))

def g (v : Vector UInt64 16) (a b c d : Fin 16) (x y : UInt64) : Vector UInt64 16 :=
  let v := v.set a (v[a] + v[b] + x)
  let v := v.set d (rotateRight (v[d] ^^^ v[a]) 32)
  let v := v.set c (v[c] + v[d])
  let v := v.set b (rotateRight (v[b] ^^^ v[c]) 24)
  let v := v.set a (v[a] + v[b] + y)
  let v := v.set d (rotateRight (v[d] ^^^ v[a]) 16)
  let v := v.set c (v[c] + v[d])
  v.set b (rotateRight (v[b] ^^^ v[c]) 63)

/-- One round: the columns, then the diagonals. -/
def round (m : Vector UInt64 16) (v : Vector UInt64 16) (s : Vector (Fin 16) 16) : Vector UInt64 16 :=
  let v := g v 0 4 8 12 m[s[0]] m[s[1]]
  let v := g v 1 5 9 13 m[s[2]] m[s[3]]
  let v := g v 2 6 10 14 m[s[4]] m[s[5]]
  let v := g v 3 7 11 15 m[s[6]] m[s[7]]
  let v := g v 0 5 10 15 m[s[8]] m[s[9]]
  let v := g v 1 6 11 12 m[s[10]] m[s[11]]
  let v := g v 2 7 8 13 m[s[12]] m[s[13]]
  g v 3 4 9 14 m[s[14]] m[s[15]]

namespace Blake2bState

def incrementCounter (s : Blake2bState) (n : UInt64) : Blake2bState :=
  let low := s.t[0] + n
  { s with t := #v[low, if low < n then s.t[1] + 1 else s.t[1]] }

def compress (s : Blake2bState) : Blake2bState :=
  let m : Vector UInt64 16 := Vector.ofFn fun i => wordAt s.buf.toList i
  let v : Vector UInt64 16 := s.h ++ iv
  let v := v.set 12 (v[12] ^^^ s.t[0])
  let v := v.set 13 (v[13] ^^^ s.t[1])
  let v := v.set 14 (v[14] ^^^ s.f[0])
  let v := v.set 15 (v[15] ^^^ s.f[1])
  let v := sigma.toList.foldl (round m) v
  { s with h := Vector.ofFn fun i => s.h[i] ^^^ (v.get (Fin.castAdd 8 i) ^^^ v.get (Fin.natAdd 8 i)) }

/-- A full buffer is compressed, to make room. -/
def flush (s : Blake2bState) : Blake2bState :=
  if s.bufLen = blockSize then
    { (s.incrementCounter 128).compress with bufLen := 0, bufLen_le := Nat.zero_le _ }
  else s

def toCopy (s : Blake2bState) (input : List UInt8) : Nat :=
  min input.length (blockSize - s.bufLen)

def fill (s : Blake2bState) (input : List UInt8) : Blake2bState :=
  { s with
    buf := Vector.ofFn fun i =>
      if s.bufLen ≤ i ∧ i < s.bufLen + s.toCopy input then input.getD (i - s.bufLen) 0 else s.buf[i]
    bufLen := s.bufLen + s.toCopy input
    bufLen_le := Nat.add_le_of_le_sub' s.bufLen_le (Nat.min_le_right _ _) }

theorem flush_bufLen_lt (s : Blake2bState) : s.flush.bufLen < blockSize := by
  unfold flush
  split
  next => exact Nat.zero_lt_succ _
  next h => exact Nat.lt_of_le_of_ne s.bufLen_le h

def update (s : Blake2bState) (input : List UInt8) : Blake2bState :=
  if input = [] then s
  else
    let flushed := s.flush
    (flushed.fill input).update (input.drop (flushed.toCopy input))
termination_by input.length
decreasing_by
  have hroom := flush_bufLen_lt s
  have hsome : input.length ≠ 0 := fun h => ‹¬ input = []› (List.length_eq_zero_iff.mp h)
  rw [List.length_drop, toCopy]
  omega

def finalize (s : Blake2bState) : List UInt8 :=
  let s := s.incrementCounter (UInt64.ofNat s.bufLen)
  let s := { s with buf := Vector.ofFn fun i => if i < s.bufLen then s.buf[i] else 0 }
  let s := { s with f := s.f.set 0 0xFFFFFFFFFFFFFFFF }
  let s := s.compress
  (wordBytes s.h.toList).take s.outLen

/-- The first word of the parameter block; a key is the first block of the input. -/
def new (outLen : OutLen) (key : Option Key) : Blake2bState :=
  let keyLen := (key.map fun k => k.val.length).getD 0
  let p0 := UInt64.ofNat outLen ||| UInt64.ofNat keyLen <<< 8 ||| (1 : UInt64) <<< 16 ||| (1 : UInt64) <<< 24
  let state : Blake2bState :=
    { h := iv.set 0 (iv[0] ^^^ p0)
      t := #v[0, 0]
      f := #v[0, 0]
      buf := Vector.replicate blockSize 0
      bufLen := 0
      outLen := outLen
      bufLen_le := Nat.zero_le _ }
  match key with
  | some k => state.update (fixedBytes blockSize k.val).toList
  | none => state

end Blake2bState

def digest (outLen : OutLen) (input : List UInt8) : List UInt8 :=
  ((Blake2bState.new outLen none).update input).finalize

def blake2b512 (input : List UInt8) : Vector UInt8 64 :=
  fixedBytes 64 (digest ⟨64, Nat.le_refl _⟩ input)

theorem blake2b_outLen {outLen : Nat} (h : ¬ (outLen = 0 ∨ outLen > maxOutLen)) :
    outLen ≤ maxOutLen := Nat.le_of_not_gt fun hgt => h (.inr hgt)

theorem blake2b_keyLen {k : List UInt8} (h : ¬ (k = [] ∨ k.length > maxKeyLen)) :
    k.length ≤ maxKeyLen := Nat.le_of_not_gt fun hgt => h (.inr hgt)

def blake2b (input : List UInt8) (outLen : Nat) (key : Option (List UInt8)) : Option (List UInt8) :=
  if hout : outLen = 0 ∨ outLen > maxOutLen then none
  else
    match key with
    | none => some (digest ⟨outLen, blake2b_outLen hout⟩ input)
    | some k =>
      if hkey : k = [] ∨ k.length > maxKeyLen then none
      else
        let state := Blake2bState.new ⟨outLen, blake2b_outLen hout⟩ (some ⟨k, blake2b_keyLen hkey⟩)
        some (state.update input).finalize

/-- The digest of `tau` and the input, in two updates. -/
def prefixedDigest (outLen : OutLen) (tau : Nat) (input : List UInt8) : List UInt8 :=
  (((Blake2bState.new outLen none).update (leBytes 4 tau)).update input).finalize

/-- The digest of the digest, of which 32 bytes are kept, `n` times over. -/
def hPrimeLoop : Nat → List UInt8 → List UInt8 → List UInt8 × List UInt8
  | 0, a, out => (a, out)
  | n + 1, a, out =>
    let a := digest ⟨64, Nat.le_refl _⟩ a
    hPrimeLoop n a (out ++ a.take 32)

/-- `tau.div_ceil(32) - 2` -/
def hPrimeRounds (tau : Nat) : Nat := (tau + 31) / 32 - 2

theorem hPrime_clamped {tau : Nat} (h : tau ≤ 64) : max tau 1 ≤ maxOutLen :=
  Nat.max_le.mpr ⟨h, by decide⟩

theorem hPrime_last (tau : Nat) : tau - 32 * hPrimeRounds tau ≤ maxOutLen := by
  rw [hPrimeRounds, maxOutLen]
  omega

def hPrime (input : List UInt8) (tau : Nat) : List UInt8 :=
  if h : tau ≤ 64 then prefixedDigest ⟨max tau 1, hPrime_clamped h⟩ tau input
  else
    let r := hPrimeRounds tau
    let a := prefixedDigest ⟨64, Nat.le_refl _⟩ tau input
    let (a, out) := hPrimeLoop (r - 1) a (a.take 32)
    out ++ digest ⟨tau - 32 * r, hPrime_last tau⟩ a

namespace Blake2bState

theorem outLen_flush (s : Blake2bState) : s.flush.outLen = s.outLen := by
  unfold flush
  split
  next => rfl
  next => rfl

theorem outLen_update (s : Blake2bState) (input : List UInt8) : (s.update input).outLen = s.outLen := by
  fun_induction update s input with
  | case1 s => rfl
  | case2 s input hne s' ih => rw [ih, fill, outLen_flush]

theorem length_finalize (s : Blake2bState) : s.finalize.length = s.outLen := by
  rw [finalize]
  rw [List.length_take, length_wordBytes, Vector.length_toList]
  exact Nat.min_eq_left s.outLen.property

end Blake2bState

theorem length_digest (outLen : OutLen) (input : List UInt8) : (digest outLen input).length = outLen := by
  rw [digest, Blake2bState.length_finalize, Blake2bState.outLen_update]
  rfl

theorem length_prefixedDigest (outLen : OutLen) (tau : Nat) (input : List UInt8) :
    (prefixedDigest outLen tau input).length = outLen := by
  rw [prefixedDigest, Blake2bState.length_finalize, Blake2bState.outLen_update,
    Blake2bState.outLen_update]
  rfl

theorem toList_blake2b512 (input : List UInt8) :
    (blake2b512 input).toList = digest ⟨64, Nat.le_refl _⟩ input :=
  toList_fixedBytes (length_digest _ input)

theorem length_hPrimeLoop {n : Nat} {a out : List UInt8} :
    (hPrimeLoop n a out).2.length = out.length + 32 * n := by
  induction n generalizing a out with
  | zero => rfl
  | succ n ih =>
    rw [hPrimeLoop, ih, List.length_append, List.length_take, length_digest]
    dsimp only
    omega

theorem length_hPrime (input : List UInt8) (tau : Nat) : (hPrime input tau).length = max tau 1 := by
  unfold hPrime
  split
  next h => rw [length_prefixedDigest]
  next h =>
    rw [List.length_append, length_hPrimeLoop, List.length_take, length_prefixedDigest, length_digest]
    dsimp only
    rw [hPrimeRounds]
    omega

end CrapOs.Blake2b
