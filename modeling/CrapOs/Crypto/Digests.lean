import CrapOs.Foundation.Blocks
import CrapOs.Foundation.ByteStrings
import Mathlib.Order.Bounds.Basic

/-! # SHA-256, SHA-1 and MD5

The three functions pad a message in the same way and go through it in blocks of 64 bytes;
they differ in the order of the bytes of a number and in what they do with a block.
-/

namespace CrapOs.Digests

open Foundation

/-- Zeros are pushed while `msg.len() % 64 != 56`. -/
def pushZeros (msg : List UInt8) : List UInt8 :=
  if msg.length % 64 ≠ 56 then pushZeros (msg ++ [0]) else msg
termination_by (120 - msg.length % 64) % 64
decreasing_by
  rw [List.length_append, List.length_singleton]
  omega

/-- The message that is processed; the length in bits is a `u64`. -/
def padded (lengthBytes : Nat → List UInt8) (input : List UInt8) : List UInt8 :=
  let bitLen := input.length * 8 % 2 ^ 64
  let msg := input ++ [0x80]
  let msg := pushZeros msg
  msg ++ lengthBytes bitLen

/-- `msg.chunks_exact(64)` -/
def blocks (lengthBytes : Nat → List UInt8) (input : List UInt8) : List (List UInt8) :=
  chunksExact 64 (padded lengthBytes input)

/-- `u32::from_be_bytes(block[i*4..i*4+4])` -/
def beWord (block : List UInt8) (i : Nat) : UInt32 := UInt32.ofNat (natOfBe ((block.drop (i * 4)).take 4))

/-- `u32::from_le_bytes(block[i*4..i*4+4])` -/
def leWord (block : List UInt8) (i : Nat) : UInt32 := UInt32.ofNat (natOfLe ((block.drop (i * 4)).take 4))

def rotateRight (x n : UInt32) : UInt32 := (x >>> n) ||| (x <<< (32 - n))

def rotateLeft (x n : UInt32) : UInt32 := (x <<< n) ||| (x >>> (32 - n))

def entry {n : Nat} (w : Vector UInt32 n) (i : Nat) : UInt32 := (w[i]?).getD 0

def blockWords (n : Nat) (word : List UInt8 → Nat → UInt32) (block : List UInt8) : Vector UInt32 n :=
  (List.range 16).foldl (fun w i => w.setIfInBounds i (word block i)) (Vector.replicate n 0)

namespace Sha256

def sha256K : List UInt32 :=
  [0x428a2f98, 0x71374491, 0xb5c0fbcf, 0xe9b5dba5, 0x3956c25b, 0x59f111f1, 0x923f82a4, 0xab1c5ed5,
    0xd807aa98, 0x12835b01, 0x243185be, 0x550c7dc3, 0x72be5d74, 0x80deb1fe, 0x9bdc06a7, 0xc19bf174,
    0xe49b69c1, 0xefbe4786, 0x0fc19dc6, 0x240ca1cc, 0x2de92c6f, 0x4a7484aa, 0x5cb0a9dc, 0x76f988da,
    0x983e5152, 0xa831c66d, 0xb00327c8, 0xbf597fc7, 0xc6e00bf3, 0xd5a79147, 0x06ca6351, 0x14292967,
    0x27b70a85, 0x2e1b2138, 0x4d2c6dfc, 0x53380d13, 0x650a7354, 0x766a0abb, 0x81c2c92e, 0x92722c85,
    0xa2bfe8a1, 0xa81a664b, 0xc24b8b70, 0xc76c51a3, 0xd192e819, 0xd6990624, 0xf40e3585, 0x106aa070,
    0x19a4c116, 0x1e376c08, 0x2748774c, 0x34b0bcb5, 0x391c0cb3, 0x4ed8aa4a, 0x5b9cca4f, 0x682e6ff3,
    0x748f82ee, 0x78a5636f, 0x84c87814, 0x8cc70208, 0x90befffa, 0xa4506ceb, 0xbef9a3f7, 0xc67178f2]

structure State where
  a : UInt32
  b : UInt32
  c : UInt32
  d : UInt32
  e : UInt32
  f : UInt32
  g : UInt32
  hh : UInt32

def start : State :=
  ⟨0x6a09e667, 0xbb67ae85, 0x3c6ef372, 0xa54ff53a, 0x510e527f, 0x9b05688c, 0x1f83d9ab, 0x5be0cd19⟩

def scheduleWord (w : Vector UInt32 64) (i : Nat) : Vector UInt32 64 :=
  let x := entry w (i - 15)
  let s0 := rotateRight x 7 ^^^ rotateRight x 18 ^^^ (x >>> 3)
  let y := entry w (i - 2)
  let s1 := rotateRight y 17 ^^^ rotateRight y 19 ^^^ (y >>> 10)
  w.setIfInBounds i (entry w (i - 16) + s0 + entry w (i - 7) + s1)

def schedule (block : List UInt8) : Vector UInt32 64 :=
  (List.range' 16 48).foldl scheduleWord (blockWords 64 beWord block)

def round (w : Vector UInt32 64) (s : State) (i : Nat) : State :=
  let s1 := rotateRight s.e 6 ^^^ rotateRight s.e 11 ^^^ rotateRight s.e 25
  let ch := (s.e &&& s.f) ^^^ (~~~s.e &&& s.g)
  let temp1 := s.hh + s1 + ch + sha256K.getD i 0 + entry w i
  let s0 := rotateRight s.a 2 ^^^ rotateRight s.a 13 ^^^ rotateRight s.a 22
  let maj := (s.a &&& s.b) ^^^ (s.a &&& s.c) ^^^ (s.b &&& s.c)
  let temp2 := s0 + maj
  { hh := s.g, g := s.f, f := s.e, e := s.d + temp1, d := s.c, c := s.b, b := s.a, a := temp1 + temp2 }

def update (w : Vector UInt32 64) (h : State) : State :=
  let s := (List.range 64).foldl (round w) h
  ⟨h.a + s.a, h.b + s.b, h.c + s.c, h.d + s.d, h.e + s.e, h.f + s.f, h.g + s.g, h.hh + s.hh⟩

/-- The loop body of `sha256` for a block. -/
def compress (h : State) (block : List UInt8) : State := update (schedule block) h

def digest (h : State) : List UInt8 :=
  [h.a, h.b, h.c, h.d, h.e, h.f, h.g, h.hh].flatMap fun word => beBytes 4 word.toNat

end Sha256

namespace Sha1

structure State where
  a : UInt32
  b : UInt32
  c : UInt32
  d : UInt32
  e : UInt32

def start : State := ⟨0x67452301, 0xefcdab89, 0x98badcfe, 0x10325476, 0xc3d2e1f0⟩

def scheduleWord (w : Vector UInt32 80) (i : Nat) : Vector UInt32 80 :=
  w.setIfInBounds i
    (rotateLeft (entry w (i - 3) ^^^ entry w (i - 8) ^^^ entry w (i - 14) ^^^ entry w (i - 16)) 1)

def schedule (block : List UInt8) : Vector UInt32 80 :=
  (List.range' 16 64).foldl scheduleWord (blockWords 80 beWord block)

def round (w : Vector UInt32 80) (s : State) (i : Nat) : State :=
  let (f, k) : UInt32 × UInt32 :=
    if i ≤ 19 then ((s.b &&& s.c) ||| (~~~s.b &&& s.d), 0x5a827999)
    else if i ≤ 39 then (s.b ^^^ s.c ^^^ s.d, 0x6ed9eba1)
    else if i ≤ 59 then ((s.b &&& s.c) ||| (s.b &&& s.d) ||| (s.c &&& s.d), 0x8f1bbcdc)
    else (s.b ^^^ s.c ^^^ s.d, 0xca62c1d6)
  let temp := rotateLeft s.a 5 + f + s.e + k + entry w i
  { e := s.d, d := s.c, c := rotateLeft s.b 30, b := s.a, a := temp }

def update (w : Vector UInt32 80) (h : State) : State :=
  let s := (List.range 80).foldl (round w) h
  ⟨h.a + s.a, h.b + s.b, h.c + s.c, h.d + s.d, h.e + s.e⟩

/-- The loop body of `sha1` for a block. -/
def compress (h : State) (block : List UInt8) : State := update (schedule block) h

def digest (h : State) : List UInt8 := [h.a, h.b, h.c, h.d, h.e].flatMap fun word => beBytes 4 word.toNat

end Sha1

namespace Md5

def md5Shifts : List UInt32 :=
  [7, 12, 17, 22, 7, 12, 17, 22, 7, 12, 17, 22, 7, 12, 17, 22,
    5, 9, 14, 20, 5, 9, 14, 20, 5, 9, 14, 20, 5, 9, 14, 20,
    4, 11, 16, 23, 4, 11, 16, 23, 4, 11, 16, 23, 4, 11, 16, 23,
    6, 10, 15, 21, 6, 10, 15, 21, 6, 10, 15, 21, 6, 10, 15, 21]

def md5K : List UInt32 :=
  [0xd76aa478, 0xe8c7b756, 0x242070db, 0xc1bdceee, 0xf57c0faf, 0x4787c62a, 0xa8304613, 0xfd469501,
    0x698098d8, 0x8b44f7af, 0xffff5bb1, 0x895cd7be, 0x6b901122, 0xfd987193, 0xa679438e, 0x49b40821,
    0xf61e2562, 0xc040b340, 0x265e5a51, 0xe9b6c7aa, 0xd62f105d, 0x02441453, 0xd8a1e681, 0xe7d3fbc8,
    0x21e1cde6, 0xc33707d6, 0xf4d50d87, 0x455a14ed, 0xa9e3e905, 0xfcefa3f8, 0x676f02d9, 0x8d2a4c8a,
    0xfffa3942, 0x8771f681, 0x6d9d6122, 0xfde5380c, 0xa4beea44, 0x4bdecfa9, 0xf6bb4b60, 0xbebfbc70,
    0x289b7ec6, 0xeaa127fa, 0xd4ef3085, 0x04881d05, 0xd9d4d039, 0xe6db99e5, 0x1fa27cf8, 0xc4ac5665,
    0xf4292244, 0x432aff97, 0xab9423a7, 0xfc93a039, 0x655b59c3, 0x8f0ccc92, 0xffeff47d, 0x85845dd1,
    0x6fa87e4f, 0xfe2ce6e0, 0xa3014314, 0x4e0811a1, 0xf7537e82, 0xbd3af235, 0x2ad7d2bb, 0xeb86d391]

structure State where
  a : UInt32
  b : UInt32
  c : UInt32
  d : UInt32

def start : State := ⟨0x67452301, 0xefcdab89, 0x98badcfe, 0x10325476⟩

def round (m : Vector UInt32 16) (s : State) (i : Nat) : State :=
  let (f, g) : UInt32 × Nat :=
    if i ≤ 15 then ((s.b &&& s.c) ||| (~~~s.b &&& s.d), i)
    else if i ≤ 31 then ((s.d &&& s.b) ||| (~~~s.d &&& s.c), (5 * i + 1) % 16)
    else if i ≤ 47 then (s.b ^^^ s.c ^^^ s.d, (3 * i + 5) % 16)
    else (s.c ^^^ (s.b ||| ~~~s.d), (7 * i) % 16)
  { d := s.c
    c := s.b
    b := s.b + rotateLeft (s.a + f + md5K.getD i 0 + entry m g) (md5Shifts.getD i 0)
    a := s.d }

def update (m : Vector UInt32 16) (h : State) : State :=
  let s := (List.range 64).foldl (round m) h
  ⟨h.a + s.a, h.b + s.b, h.c + s.c, h.d + s.d⟩

/-- The loop body of `md5` for a block. -/
def compress (h : State) (block : List UInt8) : State := update (blockWords 16 leWord block) h

def digest (h : State) : List UInt8 := [h.a, h.b, h.c, h.d].flatMap fun word => leBytes 4 word.toNat

end Md5

section Blocks

variable {lengthBytes : Nat → List UInt8} (height : ∀ n, (lengthBytes n).length = 8)

include height

end Blocks

section Block

variable {block : List UInt8} (hlength : block.length = 64)

include hlength

end Block

end CrapOs.Digests
