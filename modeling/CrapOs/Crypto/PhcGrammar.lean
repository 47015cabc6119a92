import CrapOs.Crypto.Phc

/-! # The format of the strings

The documented format has both fields in Base64 without padding. The encoder pads: the
hash, which has 32 bytes, always, and the salt unless its length is divisible by three.
-/

namespace CrapOs

theorem base64Encode_of_dvd {input : List UInt8} (h : 3 ∣ input.length) :
    base64Encode input = base64EncodeUnpadded input := by
  have hlength := length_base64EncodeUnpadded input
  exact if_neg (by omega)

theorem base64Encode_of_not_dvd {input : List UInt8} (h : ¬ 3 ∣ input.length) :
    base64Encode input =
      base64EncodeUnpadded input ++ List.replicate (3 - input.length % 3) '='.toUInt8 := by
  have hlength := length_base64EncodeUnpadded input
  have hcount : 4 - (base64EncodeUnpadded input).length % 4 = 3 - input.length % 3 := by
    have hrest : input.length % 3 = 1 ∨ input.length % 3 = 2 := by omega
    rcases hrest with hrest | hrest
    · omega
    · omega
  rw [← hcount]
  exact if_pos (by omega)

example : base64Encode [1] = base64EncodeUnpadded [1] ++ ['='.toUInt8, '='.toUInt8] := by decide +kernel

namespace Argon2

open Foundation

def UnpaddedField (field : List UInt8) : Prop :=
  (∀ c ∈ field, c ∈ base64Chars.toList) ∧ field.length % 4 ≠ 1

/-- `$argon2id$v=19$m=<m_cost>,t=<t_cost>,p=<p_cost>$<salt_b64>$<hash_b64>` -/
def Documented (s : List UInt8) : Prop :=
  ∃ (m t p salt hash : List UInt8) (mCost tCost pCost : UInt32),
    s = phcText m t p salt hash ∧ Decimal m mCost.toNat ∧ Decimal t tCost.toNat ∧
      Decimal p pCost.toNat ∧ UnpaddedField salt ∧ UnpaddedField hash

theorem unpaddedField_base64EncodeUnpadded (input : List UInt8) :
    UnpaddedField (base64EncodeUnpadded input) := by
  apply (base64Groups_isSome_iff _).mp
  rw [base64Groups_encode]
  rfl

theorem unpaddedField_base64Encode_iff (input : List UInt8) :
    UnpaddedField (base64Encode input) ↔ 3 ∣ input.length := by
  by_cases h : 3 ∣ input.length
  · rw [base64Encode_of_dvd h]
    exact ⟨fun _ => h, fun _ => unpaddedField_base64EncodeUnpadded input⟩
  · rw [base64Encode_of_not_dvd h]
    constructor
    · intro hfield
      refine absurd (hfield.1 '='.toUInt8 ?_) padding_not_mem
      rw [List.mem_append, List.mem_replicate]
      exact .inr ⟨by omega, rfl⟩
    · intro hdvd
      exact absurd hdvd h

theorem base64Encode_hash (hash : Vector UInt8 hashLen) :
    base64Encode hash.toList = base64EncodeUnpadded hash.toList ++ ['='.toUInt8] := by
  have hlength : hash.toList.length = 32 := Vector.length_toList
  rw [base64Encode_of_not_dvd (by omega), hlength]
  rfl

theorem not_documented_of_padding (s : List UInt8) : ¬ Documented (s ++ ['='.toUInt8]) := by
  intro h
  obtain ⟨m, t, p, salt, hash, mCost, tCost, pCost, hs, -, -, -, -, hhash⟩ := h
  have hlast := congrArg List.getLast? hs
  rw [List.getLast?_concat, phcText] at hlast
  -- the last character is one of the hash, or the separator in front of an empty one
  rcases List.eq_nil_or_concat hash with rfl | ⟨front, c, rfl⟩
  · have hseparator : ascii "$" = ['$'.toUInt8] := by decide
    rw [List.append_nil, hseparator, List.getLast?_concat, Option.some.injEq] at hlast
    revert hlast
    decide
  · rw [List.concat_eq_append, ← List.append_assoc, List.getLast?_concat, Option.some.injEq] at hlast
    apply padding_not_mem
    rw [hlast]
    exact hhash.1 c (by simp)

/-- The string has the layout that is documented, but both fields are padded: the hash always, so
that no string is of the documented format, and the salt unless its length is a multiple of three. -/
theorem encodePhc_padded (salt : List UInt8) (hash : Vector UInt8 hashLen) (mCost tCost pCost : UInt32) :
    ∃ m t p, Decimal m mCost.toNat ∧ Decimal t tCost.toNat ∧ Decimal p pCost.toNat ∧
      encodePhc salt hash mCost tCost pCost =
        .ok (phcText m t p (base64Encode salt) (base64Encode hash.toList)) ∧
      (UnpaddedField (base64Encode salt) ↔ 3 ∣ salt.length) ∧
      ¬ UnpaddedField (base64Encode hash.toList) ∧
      ¬ Documented (phcText m t p (base64Encode salt) (base64Encode hash.toList)) := by
  obtain ⟨m, hmrun, hm⟩ := u32ToAllocString_returns mCost
  obtain ⟨t, htrun, ht⟩ := u32ToAllocString_returns tCost
  obtain ⟨p, hprun, hp⟩ := u32ToAllocString_returns pCost
  refine ⟨m, t, p, hm, ht, hp, ?_, unpaddedField_base64Encode_iff salt, ?_, ?_⟩
  · rw [encodePhc, hmrun, htrun, hprun]
    rfl
  · rw [unpaddedField_base64Encode_iff, Vector.length_toList]
    decide
  · rw [base64Encode_hash, phcText, ← List.append_assoc]
    exact not_documented_of_padding _

/-- A salt of eight bytes: both fields end in padding. -/
theorem encodePhc_padded_eight :
    encodePhc (ascii "saltsalt") (Vector.replicate hashLen 0) 8 1 1 =
      .ok (ascii
        "$argon2id$v=19$m=8,t=1,p=1$c2FsdHNhbHQ=$AAAAAAAAAAAAAAAAAAAAAAAAAAAAAAAAAAAAAAAAAAA=") ∧
    ¬ Documented (ascii
        "$argon2id$v=19$m=8,t=1,p=1$c2FsdHNhbHQ=$AAAAAAAAAAAAAAAAAAAAAAAAAAAAAAAAAAAAAAAAAAA=") := by
  refine ⟨by decide +kernel, ?_⟩
  have hend : ascii
      "$argon2id$v=19$m=8,t=1,p=1$c2FsdHNhbHQ=$AAAAAAAAAAAAAAAAAAAAAAAAAAAAAAAAAAAAAAAAAAA=" =
      ascii "$argon2id$v=19$m=8,t=1,p=1$c2FsdHNhbHQ=$AAAAAAAAAAAAAAAAAAAAAAAAAAAAAAAAAAAAAAAAAAA" ++
        ['='.toUInt8] := by decide +kernel
  rw [hend]
  exact not_documented_of_padding _

end Argon2

end CrapOs
