import Mathlib
import CrapOs.Foundation.Placement

/-! # AES-256

The block cipher with its key schedule. A block has its columns one after the other, four
bytes each.
-/

namespace CrapOs.Aes

open Foundation

def aes256Rounds : Nat := 14

abbrev Block := Vector UInt8 16

abbrev Key := Vector UInt8 32

/-- Numerals stand for the bytes of a word and of a block. -/
scoped instance neZeroFour : NeZero (4 : Nat) := ⟨Nat.succ_ne_zero 3⟩

scoped instance neZeroSixteen : NeZero (16 : Nat) := ⟨Nat.succ_ne_zero 15⟩

def sbox : List UInt8 :=
  [0x63, 0x7c, 0x77, 0x7b, 0xf2, 0x6b, 0x6f, 0xc5, 0x30, 0x01, 0x67, 0x2b, 0xfe, 0xd7, 0xab, 0x76,
    0xca, 0x82, 0xc9, 0x7d, 0xfa, 0x59, 0x47, 0xf0, 0xad, 0xd4, 0xa2, 0xaf, 0x9c, 0xa4, 0x72, 0xc0,
    0xb7, 0xfd, 0x93, 0x26, 0x36, 0x3f, 0xf7, 0xcc, 0x34, 0xa5, 0xe5, 0xf1, 0x71, 0xd8, 0x31, 0x15,
    0x04, 0xc7, 0x23, 0xc3, 0x18, 0x96, 0x05, 0x9a, 0x07, 0x12, 0x80, 0xe2, 0xeb, 0x27, 0xb2, 0x75,
    0x09, 0x83, 0x2c, 0x1a, 0x1b, 0x6e, 0x5a, 0xa0, 0x52, 0x3b, 0xd6, 0xb3, 0x29, 0xe3, 0x2f, 0x84,
    0x53, 0xd1, 0x00, 0xed, 0x20, 0xfc, 0xb1, 0x5b, 0x6a, 0xcb, 0xbe, 0x39, 0x4a, 0x4c, 0x58, 0xcf,
    0xd0, 0xef, 0xaa, 0xfb, 0x43, 0x4d, 0x33, 0x85, 0x45, 0xf9, 0x02, 0x7f, 0x50, 0x3c, 0x9f, 0xa8,
    0x51, 0xa3, 0x40, 0x8f, 0x92, 0x9d, 0x38, 0xf5, 0xbc, 0xb6, 0xda, 0x21, 0x10, 0xff, 0xf3, 0xd2,
    0xcd, 0x0c, 0x13, 0xec, 0x5f, 0x97, 0x44, 0x17, 0xc4, 0xa7, 0x7e, 0x3d, 0x64, 0x5d, 0x19, 0x73,
    0x60, 0x81, 0x4f, 0xdc, 0x22, 0x2a, 0x90, 0x88, 0x46, 0xee, 0xb8, 0x14, 0xde, 0x5e, 0x0b, 0xdb,
    0xe0, 0x32, 0x3a, 0x0a, 0x49, 0x06, 0x24, 0x5c, 0xc2, 0xd3, 0xac, 0x62, 0x91, 0x95, 0xe4, 0x79,
    0xe7, 0xc8, 0x37, 0x6d, 0x8d, 0xd5, 0x4e, 0xa9, 0x6c, 0x56, 0xf4, 0xea, 0x65, 0x7a, 0xae, 0x08,
    0xba, 0x78, 0x25, 0x2e, 0x1c, 0xa6, 0xb4, 0xc6, 0xe8, 0xdd, 0x74, 0x1f, 0x4b, 0xbd, 0x8b, 0x8a,
    0x70, 0x3e, 0xb5, 0x66, 0x48, 0x03, 0xf6, 0x0e, 0x61, 0x35, 0x57, 0xb9, 0x86, 0xc1, 0x1d, 0x9e,
    0xe1, 0xf8, 0x98, 0x11, 0x69, 0xd9, 0x8e, 0x94, 0x9b, 0x1e, 0x87, 0xe9, 0xce, 0x55, 0x28, 0xdf,
    0x8c, 0xa1, 0x89, 0x0d, 0xbf, 0xe6, 0x42, 0x68, 0x41, 0x99, 0x2d, 0x0f, 0xb0, 0x54, 0xbb, 0x16]

/-- `SBOX[b as usize]` -/
def substitute (b : UInt8) : UInt8 := sbox.getD b.toNat 0

def rcon : List UInt8 := [0x01, 0x02, 0x04, 0x08, 0x10, 0x20, 0x40, 0x80, 0x1b, 0x36]

def gmul2 (x : UInt8) : UInt64 :=
  let hi := x >>> 7
  ((x <<< 1) ^^^ (hi * 0x1b)).toUInt64

def gmul3 (x : UInt8) : UInt64 := gmul2 x ^^^ x.toUInt64

structure KeySchedule where
  roundKeys : Vector UInt8 240

namespace KeySchedule

abbrev Word := Vector UInt8 4

def word (b0 b1 b2 b3 : UInt8) : Word := #v[b0, b1, b2, b3]

def byteAt (rk : Vector UInt8 240) (i : Nat) : UInt8 := (rk[i]?).getD 0

def wordAt (rk : Vector UInt8 240) (i : Nat) : Word :=
  word (byteAt rk (i * 4)) (byteAt rk (i * 4 + 1)) (byteAt rk (i * 4 + 2)) (byteAt rk (i * 4 + 3))

def rotWord (temp : Word) : Word := word (temp.get 1) (temp.get 2) (temp.get 3) (temp.get 0)

def subWord (temp : Word) : Word :=
  word (substitute (temp.get 0)) (substitute (temp.get 1)) (substitute (temp.get 2)) (substitute (temp.get 3))

def nextTemp (prevWord : Word) (i : Nat) : Word :=
  if i % 8 = 0 then
    let temp := subWord (rotWord prevWord)
    put temp 0 (temp.get 0 ^^^ rcon.getD (i / 8 - 1) 0)
  else if i % 8 = 4 then subWord prevWord
  else prevWord

/-- The loop body of `KeySchedule::new`. -/
def expandWord (rk : Vector UInt8 240) (i : Nat) : Vector UInt8 240 :=
  let temp := nextTemp (wordAt rk (i - 1)) i
  let base := i * 4
  let prevBase := (i - 8) * 4
  let rk := rk.setIfInBounds base (byteAt rk prevBase ^^^ temp.get 0)
  let rk := rk.setIfInBounds (base + 1) (byteAt rk (prevBase + 1) ^^^ temp.get 1)
  let rk := rk.setIfInBounds (base + 2) (byteAt rk (prevBase + 2) ^^^ temp.get 2)
  rk.setIfInBounds (base + 3) (byteAt rk (prevBase + 3) ^^^ temp.get 3)

def start (key : Key) : Vector UInt8 240 := Vector.ofFn fun i => (key[i.val]?).getD 0

def new (key : Key) : KeySchedule := ⟨(List.range' 8 52).foldl expandWord (start key)⟩

def roundKey (schedule : KeySchedule) (r : Nat) : Block :=
  Vector.ofFn fun i => byteAt schedule.roundKeys (r * 16 + i)

end KeySchedule

def subBytes (state : Block) : Block := state.map substitute

/-- `state.swap(i, j)` -/
def swap (state : Block) (i j : Fin 16) : Block := put (put state i (state.get j)) j (state.get i)

def shiftRows (state : Block) : Block :=
  let tmp := state.get 1
  let state := put state 1 (state.get 5)
  let state := put state 5 (state.get 9)
  let state := put state 9 (state.get 13)
  let state := put state 13 tmp
  let state := swap state 2 10
  let state := swap state 6 14
  let tmp := state.get 15
  let state := put state 15 (state.get 11)
  let state := put state 11 (state.get 7)
  let state := put state 7 (state.get 3)
  put state 3 tmp

theorem columnByte_lt (col row : Fin 4) : col.val * 4 + row.val < 16 := by omega

def columnByte (col row : Fin 4) : Fin 16 := ⟨col * 4 + row, columnByte_lt col row⟩

/-- The loop body of `mix_columns`. -/
def mixColumn (state : Block) (col : Fin 4) : Block :=
  let s0 := state.get (columnByte col 0)
  let s1 := state.get (columnByte col 1)
  let s2 := state.get (columnByte col 2)
  let s3 := state.get (columnByte col 3)
  let state := put state (columnByte col 0) (gmul2 s0 ^^^ gmul3 s1 ^^^ s2.toUInt64 ^^^ s3.toUInt64).toUInt8
  let state := put state (columnByte col 1) (s0.toUInt64 ^^^ gmul2 s1 ^^^ gmul3 s2 ^^^ s3.toUInt64).toUInt8
  let state := put state (columnByte col 2) (s0.toUInt64 ^^^ s1.toUInt64 ^^^ gmul2 s2 ^^^ gmul3 s3).toUInt8
  put state (columnByte col 3) (gmul3 s0 ^^^ s1.toUInt64 ^^^ s2.toUInt64 ^^^ gmul2 s3).toUInt8

def mixColumns (state : Block) : Block := (List.finRange 4).foldl mixColumn state

def addRoundKey (state roundKey : Block) : Block := Vector.zipWith (· ^^^ ·) state roundKey

/-- The loop body of `aes256_encrypt_block`. -/
def fullRound (schedule : KeySchedule) (block : Block) (r : Nat) : Block :=
  addRoundKey (mixColumns (shiftRows (subBytes block))) (schedule.roundKey r)

def aes256EncryptBlock (schedule : KeySchedule) (block : Block) : Block :=
  let block := addRoundKey block (schedule.roundKey 0)
  let block := (List.range' 1 (aes256Rounds - 1)).foldl (fullRound schedule) block
  addRoundKey (shiftRows (subBytes block)) (schedule.roundKey aes256Rounds)

end CrapOs.Aes
