import CrapOs.Foundation.ByteStrings
import CrapOs.Foundation.Placement

/-! # BLAKE2b as RFC 7693 defines it

The hash of a whole message with the names of the RFC: `bb` bytes in a block, `dd`
blocks, a message of `ll` bytes, a key of `kk` bytes and a digest of `nn` bytes.
Nothing here is taken from the implementation.
-/

namespace CrapOs.Rfc7693

open Foundation

scoped instance neZeroSixteen : NeZero (16 : Nat) := ⟨Nat.succ_ne_zero 15⟩

def ivWords : List UInt64 :=
  [0x6A09E667F3BCC908, 0xBB67AE8584CAA73B, 0x3C6EF372FE94F82B, 0xA54FF53A5F1D36F1,
    0x510E527FADE682D1, 0x9B05688C2B3E6C1F, 0x1F83D9ABFB41BD6B, 0x5BE0CD19137E2179]

def iv : Vector UInt64 8 := Vector.ofFn fun i => ivWords.getD i 0

/-- The message schedule. It has ten rows; the rounds after the tenth start over. -/
def sigma : Vector (Vector (Fin 16) 16) 10 :=
  #v[#v[ 0,  1,  2,  3,  4,  5,  6,  7,  8,  9, 10, 11, 12, 13, 14, 15],
    #v[14, 10,  4,  8,  9, 15, 13,  6,  1, 12,  0,  2, 11,  7,  5,  3],
    #v[11,  8, 12,  0,  5,  2, 15, 13, 10, 14,  3,  6,  7,  1,  9,  4],
    #v[ 7,  9,  3,  1, 13, 12, 11, 14,  2,  6,  5, 10,  4,  0, 15,  8],
    #v[ 9,  0,  5,  7,  2,  4, 10, 15, 14,  1, 11, 12,  6,  8,  3, 13],
    #v[ 2, 12,  6, 10,  0, 11,  8,  3,  4, 13,  7,  5, 15, 14,  1,  9],
    #v[12,  5,  1, 15, 14, 13,  4, 10,  0,  7,  6,  3,  9,  2,  8, 11],
    #v[13, 11,  7, 14, 12,  1,  3,  9,  5,  0, 15,  4,  8,  6,  2, 10],
    #v[ 6, 15, 14,  9, 11,  3,  0,  8, 12,  2, 13,  7,  1,  4, 10,  5],
    #v[10,  2,  8,  4,  7,  6,  1,  5, 15, 11,  9, 14,  3, 12, 13,  0]]

def rotate (x n : UInt64) : UInt64 := (x >>> n) ^^^ (x <<< (64 - n))

def mix (v : Vector UInt64 16) (a b c d : Fin 16) (x y : UInt64) : Vector UInt64 16 :=
  let v := put v a (v.get a + v.get b + x)
  let v := put v d (rotate (v.get d ^^^ v.get a) 32)
  let v := put v c (v.get c + v.get d)
  let v := put v b (rotate (v.get b ^^^ v.get c) 24)
  let v := put v a (v.get a + v.get b + y)
  let v := put v d (rotate (v.get d ^^^ v.get a) 16)
  let v := put v c (v.get c + v.get d)
  put v b (rotate (v.get b ^^^ v.get c) 63)

def round (m v : Vector UInt64 16) (s : Vector (Fin 16) 16) : Vector UInt64 16 :=
  let v := mix v 0 4 8 12 (m.get (s.get 0)) (m.get (s.get 1))
  let v := mix v 1 5 9 13 (m.get (s.get 2)) (m.get (s.get 3))
  let v := mix v 2 6 10 14 (m.get (s.get 4)) (m.get (s.get 5))
  let v := mix v 3 7 11 15 (m.get (s.get 6)) (m.get (s.get 7))
  let v := mix v 0 5 10 15 (m.get (s.get 8)) (m.get (s.get 9))
  let v := mix v 1 6 11 12 (m.get (s.get 10)) (m.get (s.get 11))
  let v := mix v 2 7 8 13 (m.get (s.get 12)) (m.get (s.get 13))
  mix v 3 4 9 14 (m.get (s.get 14)) (m.get (s.get 15))

def schedule (i : Nat) : Vector (Fin 16) 16 := sigma.get ⟨i % 10, Nat.mod_lt i (Nat.succ_pos 9)⟩

/-- The compression function `F`; the counter `t` has two words. -/
def compression (h : Vector UInt64 8) (m : Vector UInt64 16) (t : Nat) (last : Bool) :
    Vector UInt64 8 :=
  let v : Vector UInt64 16 := h ++ iv
  let v := put v 12 (v.get 12 ^^^ UInt64.ofNat t)
  let v := put v 13 (v.get 13 ^^^ UInt64.ofNat (t / 2 ^ 64))
  let v := if last then put v 14 (v.get 14 ^^^ 0xFFFFFFFFFFFFFFFF) else v
  let v := (List.range 12).foldl (fun v i => round m v (schedule i)) v
  Vector.ofFn fun i => h.get i ^^^ v.get (Fin.castAdd 8 i) ^^^ v.get (Fin.natAdd 8 i)

def bb : Nat := 128

def keyBlock (key : List UInt8) : List UInt8 :=
  if key = [] then [] else (fixedBytes bb key).toList

/-- The number of blocks `dd`. An empty message without a key is one block of zeros. -/
def blockCount (kk ll : Nat) : Nat :=
  if kk = 0 ∧ ll = 0 then 1 else (kk + (bb - 1)) / bb + (ll + (bb - 1)) / bb

def block (data : List UInt8) (i : Nat) : Vector UInt64 16 :=
  Vector.ofFn fun j => wordAt (fixedBytes bb (data.drop (bb * i))).toList j

def chain (h : Vector UInt64 8) (data : List UInt8) (n : Nat) : Vector UInt64 8 :=
  (List.range n).foldl (fun h i => compression h (block data i) ((i + 1) * bb) false) h

def start (kk nn : Nat) : Vector UInt64 8 :=
  iv.set 0 (iv[0] ^^^ (0x01010000 : UInt64) ^^^ (UInt64.ofNat kk <<< 8) ^^^ UInt64.ofNat nn)

def hash (nn : Nat) (key input : List UInt8) : List UInt8 :=
  let kk := key.length
  let ll := input.length
  let data := keyBlock key ++ input
  let last := blockCount kk ll - 1
  let h := chain (start kk nn) data last
  let h := compression h (block data last) (if kk = 0 then ll else ll + bb) true
  (wordBytes h.toList).take nn

theorem block_append {data : List UInt8} {i : Nat} (more : List UInt8)
    (hfull : bb * (i + 1) ≤ data.length) : block (data ++ more) i = block data i := by
  have hbytes : fixedBytes bb ((data ++ more).drop (bb * i)) = fixedBytes bb (data.drop (bb * i)) := by
    ext j hj
    have hin : bb * i + j < data.length := by rw [Nat.mul_add] at hfull; omega
    simp [fixedBytes, List.getElem?_append_left hin]
  rw [block, block, hbytes]

theorem chain_succ (h : Vector UInt64 8) (data : List UInt8) (n : Nat) :
    chain h data (n + 1) = compression (chain h data n) (block data n) ((n + 1) * bb) false := by
  simp [chain, List.range_succ]

theorem chain_append {data : List UInt8} {n : Nat} (h : Vector UInt64 8) (more : List UInt8)
    (hfull : bb * n ≤ data.length) : chain h (data ++ more) n = chain h data n := by
  induction n with
  | zero => simp [chain]
  | succ n ih =>
    have hn : bb * n ≤ data.length := by rw [Nat.mul_add] at hfull; omega
    rw [chain_succ, chain_succ, ih hn, block_append more hfull]

end CrapOs.Rfc7693
