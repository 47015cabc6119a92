import CrapOs.Foundation.ByteStrings

/-! # AES-256-GCM

Encryption with authentication, over a block cipher that is any function of the
key and the block. Counter mode is one exclusive or with a keystream, so that it
undoes itself; decryption accepts exactly what encryption puts out.
-/

namespace CrapOs.AesGcm

open Foundation

abbrev Block := Vector UInt8 16

abbrev Iv := Vector UInt8 12

inductive AesGcmError where
  | authenticationFailure
  | ciphertextTooShort
deriving DecidableEq, Repr

def gcmOverhead : Nat := 16 + 12

/-- The product so far, and the first factor times a power of the generator. -/
structure GfState where
  zHi : UInt64
  zLo : UInt64
  vHi : UInt64
  vLo : UInt64

/-- The loop body of `gf128_mul` for bit `i` of the second factor. -/
def gf128Step (yHi yLo : UInt64) (s : GfState) (i : Nat) : GfState :=
  let bit := if i < 64 then (yHi >>> UInt64.ofNat (63 - i)) &&& 1 else (yLo >>> UInt64.ofNat (127 - i)) &&& 1
  let carry := s.vLo &&& 1
  let vHi := s.vHi >>> 1
  { zHi := if bit = 1 then s.zHi ^^^ s.vHi else s.zHi
    zLo := if bit = 1 then s.zLo ^^^ s.vLo else s.zLo
    vHi := if carry = 1 then vHi ^^^ 0xe100000000000000 else vHi
    vLo := (s.vLo >>> 1) ||| (s.vHi <<< 63) }

def beWord (bytes : List UInt8) : UInt64 := UInt64.ofNat (natOfBe bytes)

def gf128Mul (x y : Block) : Block :=
  let start : GfState := ⟨0, 0, beWord (x.toList.take 8), beWord (x.toList.drop 8)⟩
  let s := (List.range 128).foldl (gf128Step (beWord (y.toList.take 8)) (beWord (y.toList.drop 8))) start
  fixedBytes 16 (beBytes 8 s.zHi.toNat ++ beBytes 8 s.zLo.toNat)

structure Ghash where
  y : Block
  h : Block

namespace Ghash

def new (h : Block) : Ghash := ⟨Vector.replicate 16 0, h⟩

def update (g : Ghash) (block : Block) : Ghash :=
  { g with y := gf128Mul (Vector.zipWith (· ^^^ ·) g.y block) g.h }

/-- A partial block at the end is filled up with zeros. -/
def updateBytes (g : Ghash) (data : List UInt8) : Ghash :=
  if 16 ≤ data.length then (g.update (fixedBytes 16 (data.take 16))).updateBytes (data.drop 16)
  else if data = [] then g
  else g.update (fixedBytes 16 data)
termination_by data.length
decreasing_by
  rw [List.length_drop]
  omega

end Ghash

def makeJ0 (iv : Iv) : Block := fixedBytes 16 (iv.toList ++ [0, 0, 0, 1])

/-- The last four bytes are a counter that wraps around. -/
def inc32 (block : Block) : Block :=
  fixedBytes 16 (block.toList.take 12 ++ beBytes 4 ((natOfBe (block.toList.drop 12) + 1) % 2 ^ 32))

section Mode

variable (cipher : Block → Block)

/-- The keystream block, and the counter block for the next one. -/
def ctrKeystreamBlock (counter : Block) : Block × Block := (cipher counter, inc32 counter)

def ctrApplyKeystream (ctrBlock : Block) (data : List UInt8) : List UInt8 :=
  let (ks, next) := ctrKeystreamBlock cipher ctrBlock
  if 16 ≤ data.length then xorBytes (data.take 16) ks.toList ++ ctrApplyKeystream next (data.drop 16)
  else if data = [] then []
  else xorBytes data ks.toList
termination_by data.length
decreasing_by
  rw [List.length_drop]
  omega

/-- The length in bits is a `u64`; there is no additional data. -/
def computeTag (ciphertext : List UInt8) (j0 : Block) : Block :=
  let ghash := Ghash.new (cipher (Vector.replicate 16 0))
  let ghash := ghash.updateBytes ciphertext
  let bits := ciphertext.length * 8 % 2 ^ 64
  let ghash := ghash.update (fixedBytes 16 (beBytes 8 0 ++ beBytes 8 bits))
  Vector.zipWith (· ^^^ ·) ghash.y (cipher j0)

end Mode

def constantTimeEq16 (a b : Block) : Bool :=
  (List.finRange 16).foldl (fun diff i => diff ||| (a.get i ^^^ b.get i)) 0 = 0

section Messages

variable {Key : Type} (aes256EncryptBlock : Key → Block → Block)

/-- `iv` is what the random number generator delivers. -/
def encrypt (iv : Iv) (key : Key) (plaintext : List UInt8) : List UInt8 :=
  let cipher := aes256EncryptBlock key
  let j0 := makeJ0 iv
  let ciphertext := ctrApplyKeystream cipher (inc32 j0) plaintext
  (computeTag cipher ciphertext j0).toList ++ iv.toList ++ ciphertext

def decrypt (key : Key) (ciphertext : List UInt8) : Except AesGcmError (List UInt8) :=
  if ciphertext.length < gcmOverhead then .error .ciphertextTooShort
  else
    let receivedTag := fixedBytes 16 (ciphertext.take 16)
    let iv : Iv := fixedBytes 12 ((ciphertext.drop 16).take 12)
    let ctBytes := ciphertext.drop gcmOverhead
    let cipher := aes256EncryptBlock key
    let j0 := makeJ0 iv
    if constantTimeEq16 receivedTag (computeTag cipher ctBytes j0) = false then
      .error .authenticationFailure
    else .ok (ctrApplyKeystream cipher (inc32 j0) ctBytes)

end Messages

section Mode

variable (cipher : Block → Block)

def keystream (counter : Block) : Nat → List UInt8
  | 0 => []
  | n + 1 => (cipher counter).toList ++ keystream (inc32 counter) n

theorem length_keystream (counter : Block) (n : Nat) : (keystream cipher counter n).length = 16 * n := by
  induction n generalizing counter with
  | zero => rfl
  | succ n ih =>
    rw [keystream, List.length_append, ih, Vector.length_toList]
    omega

theorem ctrApplyKeystream_eq {ctrBlock : Block} {data : List UInt8} {n : Nat}
    (hn : data.length ≤ 16 * n) :
    ctrApplyKeystream cipher ctrBlock data = xorBytes data (keystream cipher ctrBlock n) := by
  induction n generalizing ctrBlock data with
  | zero =>
    rw [List.length_eq_zero_iff.mp (Nat.le_zero.mp hn), ctrApplyKeystream]
    rfl
  | succ n ih =>
    have hblock : (cipher ctrBlock).toList.length = 16 := Vector.length_toList
    rw [ctrApplyKeystream, ctrKeystreamBlock, keystream]
    dsimp only
    by_cases hfull : 16 ≤ data.length
    · have htake : (data.take 16).length = (cipher ctrBlock).toList.length := by
        rw [hblock, List.length_take, Nat.min_eq_left hfull]
      rw [if_pos hfull, ih (by rw [List.length_drop]; omega), ← xorBytes_append htake,
        List.take_append_drop]
    · rw [if_neg hfull]
      by_cases hempty : data = []
      · rw [if_pos hempty, hempty]
        rfl
      · rw [if_neg hempty, xorBytes_append_right (by omega)]

theorem length_ctrApplyKeystream (ctrBlock : Block) (data : List UInt8) :
    (ctrApplyKeystream cipher ctrBlock data).length = data.length := by
  have hlong : data.length ≤ 16 * data.length := by omega
  rw [ctrApplyKeystream_eq cipher hlong, length_xorBytes]
  rw [length_keystream]
  exact hlong

theorem ctrApplyKeystream_twice (ctrBlock : Block) (data : List UInt8) :
    ctrApplyKeystream cipher ctrBlock (ctrApplyKeystream cipher ctrBlock data) = data := by
  have hlong : data.length ≤ 16 * data.length := by omega
  have hlong' : (ctrApplyKeystream cipher ctrBlock data).length ≤ 16 * data.length := by
    rw [length_ctrApplyKeystream]
    exact hlong
  rw [ctrApplyKeystream_eq cipher hlong', ctrApplyKeystream_eq cipher hlong]
  refine xorBytes_twice ?_
  rw [length_keystream]
  exact hlong

end Mode

theorem constantTimeEq16_iff {a b : Block} : constantTimeEq16 a b = true ↔ a = b := by
  rw [constantTimeEq16, decide_eq_true_iff, foldl_or_eq_zero]
  constructor
  · intro h
    refine Vector.ext fun i hi => ?_
    exact UInt8.xor_eq_zero_iff.mp (h.2 ⟨i, hi⟩ (List.mem_finRange _))
  · intro h
    subst h
    exact ⟨rfl, fun i _ => UInt8.xor_self⟩

section Messages

variable {Key : Type} (aes256EncryptBlock : Key → Block → Block)

def embeddedIv (ciphertext : List UInt8) : Option Iv :=
  if ciphertext.length < gcmOverhead then none else some (fixedBytes 12 ((ciphertext.drop 16).take 12))

theorem exists_parts {c : List UInt8} (h : ¬ c.length < gcmOverhead) :
    ∃ (tag : Block) (iv : Iv) (ct : List UInt8), c = tag.toList ++ iv.toList ++ ct := by
  simp only [gcmOverhead] at h
  refine ⟨fixedBytes 16 (c.take 16), fixedBytes 12 ((c.drop 16).take 12), (c.drop 16).drop 12, ?_⟩
  rw [toList_fixedBytes (by rw [List.length_take]; omega),
    toList_fixedBytes (by rw [List.length_take, List.length_drop]; omega), List.append_assoc,
    List.take_append_drop, List.take_append_drop]

theorem parts_not_short (tag : Block) (iv : Iv) (ct : List UInt8) :
    ¬ (tag.toList ++ iv.toList ++ ct).length < gcmOverhead := by
  rw [List.length_append, List.length_append, Vector.length_toList, Vector.length_toList, gcmOverhead]
  omega

theorem take_tag (tag : Block) (iv : Iv) (ct : List UInt8) :
    (tag.toList ++ iv.toList ++ ct).take 16 = tag.toList := by
  rw [List.append_assoc]
  exact List.take_left' Vector.length_toList

theorem drop_tag (tag : Block) (iv : Iv) (ct : List UInt8) :
    (tag.toList ++ iv.toList ++ ct).drop 16 = iv.toList ++ ct := by
  rw [List.append_assoc]
  exact List.drop_left' Vector.length_toList

theorem embeddedIv_parts (tag : Block) (iv : Iv) (ct : List UInt8) :
    embeddedIv (tag.toList ++ iv.toList ++ ct) = some iv := by
  rw [embeddedIv, if_neg (parts_not_short tag iv ct), drop_tag, List.take_left' Vector.length_toList,
    fixedBytes_toList]

theorem decrypt_parts (key : Key) (tag : Block) (iv : Iv) (ct : List UInt8) :
    decrypt aes256EncryptBlock key (tag.toList ++ iv.toList ++ ct) =
      if tag = computeTag (aes256EncryptBlock key) ct (makeJ0 iv) then
        .ok (ctrApplyKeystream (aes256EncryptBlock key) (inc32 (makeJ0 iv)) ct)
      else .error .authenticationFailure := by
  have hct : (tag.toList ++ iv.toList ++ ct).drop gcmOverhead = ct := by
    rw [gcmOverhead, ← List.drop_drop, drop_tag]
    exact List.drop_left' Vector.length_toList
  rw [decrypt, if_neg (parts_not_short tag iv ct)]
  rw [take_tag, drop_tag, hct, List.take_left' Vector.length_toList, fixedBytes_toList,
    fixedBytes_toList]
  by_cases htag : tag = computeTag (aes256EncryptBlock key) ct (makeJ0 iv)
  · rw [if_pos htag, if_neg]
    rw [constantTimeEq16_iff.mpr htag]
    exact nofun
  · rw [if_neg htag, if_pos]
    rw [← Bool.not_eq_true, constantTimeEq16_iff]
    exact htag

/-- Decryption gives back what was encrypted, and a message is accepted exactly if encryption
puts it out, for the plaintext and the IV in it. -/
theorem decrypt_accepts_encrypt :
    (∀ (key : Key) (iv : Iv) (plaintext : List UInt8),
      decrypt aes256EncryptBlock key (encrypt aes256EncryptBlock iv key plaintext) = .ok plaintext) ∧
    ∀ (key : Key) (c plaintext : List UInt8), decrypt aes256EncryptBlock key c = .ok plaintext ↔
      ∃ iv, embeddedIv c = some iv ∧ c = encrypt aes256EncryptBlock iv key plaintext := by
  have hround : ∀ (key : Key) (iv : Iv) (plaintext : List UInt8),
      decrypt aes256EncryptBlock key (encrypt aes256EncryptBlock iv key plaintext) = .ok plaintext := by
    intro key iv plaintext
    rw [encrypt, decrypt_parts, if_pos rfl, ctrApplyKeystream_twice]
  refine ⟨hround, fun key c plaintext => ⟨fun hok => ?_, fun h => ?_⟩⟩
  · have hlong : ¬ c.length < gcmOverhead := by
      intro hshort
      rw [decrypt, if_pos hshort] at hok
      cases hok
    obtain ⟨tag, iv, ct, rfl⟩ := exists_parts hlong
    rw [decrypt_parts] at hok
    split at hok
    next htag =>
      cases hok
      refine ⟨iv, embeddedIv_parts tag iv ct, ?_⟩
      rw [encrypt, ctrApplyKeystream_twice, ← htag]
    next => cases hok
  · obtain ⟨iv, -, rfl⟩ := h
    exact hround key iv plaintext

end Messages

end CrapOs.AesGcm
