import CrapOs.Crypto.AesCipher
import CrapOs.Crypto.AesGcm

/-! # The counter blocks of a message

Counter mode feeds the cipher one block for every sixteen bytes. All of them have the IV in
common and differ in the counter, which starts after the one that masks the tag and comes
back to it only after `2^32 - 1` blocks.
-/

namespace CrapOs.AesGcm

open Foundation

section Mode

variable (cipher : Block → Block)

/-- `ctr_apply_keystream`, and the blocks it feeds to the cipher. -/
def ctrApplyKeystreamLog (ctrBlock : Block) (data : List UInt8) : List UInt8 × List Block :=
  if 16 ≤ data.length then
    let (ks, next) := ctrKeystreamBlock cipher ctrBlock
    let (rest, fed) := ctrApplyKeystreamLog next (data.drop 16)
    (xorBytes (data.take 16) ks.toList ++ rest, ctrBlock :: fed)
  else if data = [] then ([], [])
  else
    let (ks, _) := ctrKeystreamBlock cipher ctrBlock
    (xorBytes data ks.toList, [ctrBlock])
termination_by data.length
decreasing_by
  rw [List.length_drop]
  omega

theorem log_of_full {ctrBlock : Block} {data : List UInt8} (hfull : 16 ≤ data.length) :
    ctrApplyKeystreamLog cipher ctrBlock data =
      (xorBytes (data.take 16) (cipher ctrBlock).toList ++
          (ctrApplyKeystreamLog cipher (inc32 ctrBlock) (data.drop 16)).1,
        ctrBlock :: (ctrApplyKeystreamLog cipher (inc32 ctrBlock) (data.drop 16)).2) := by
  rw [ctrApplyKeystreamLog, if_pos hfull]
  rfl

theorem log_of_nil (ctrBlock : Block) : ctrApplyKeystreamLog cipher ctrBlock [] = ([], []) := by
  rw [ctrApplyKeystreamLog, if_neg (by decide), if_pos rfl]

theorem log_of_short {ctrBlock : Block} {data : List UInt8} (hshort : ¬ 16 ≤ data.length) (hdata : data ≠ []) :
    ctrApplyKeystreamLog cipher ctrBlock data = (xorBytes data (cipher ctrBlock).toList, [ctrBlock]) := by
  rw [ctrApplyKeystreamLog, if_neg hshort, if_neg hdata]
  rfl

/-- The blocks are those of the keystream, and the data meets each of them once. -/
theorem log_fst (ctrBlock : Block) (data : List UInt8) :
    (ctrApplyKeystreamLog cipher ctrBlock data).1 = ctrApplyKeystream cipher ctrBlock data ∧
      (ctrApplyKeystreamLog cipher ctrBlock data).1 =
        xorBytes data ((ctrApplyKeystreamLog cipher ctrBlock data).2.flatMap fun block => (cipher block).toList) := by
  generalize hn : data.length = n
  induction n using Nat.strong_induction_on generalizing ctrBlock data with
  | _ n ih =>
    rw [ctrApplyKeystream, ctrKeystreamBlock]
    dsimp only
    by_cases hfull : 16 ≤ data.length
    · have hblock : (data.take 16).length = (cipher ctrBlock).toList.length := by
        rw [List.length_take, Vector.length_toList, Nat.min_eq_left hfull]
      obtain ⟨hsame, hrest⟩ := ih (n - 16) (by omega) (inc32 ctrBlock) (data.drop 16)
        (by rw [List.length_drop, hn])
      rw [log_of_full cipher hfull, if_pos hfull]
      refine ⟨congrArg _ hsame, ?_⟩
      rw [List.flatMap_cons, hrest, ← xorBytes_append hblock, List.take_append_drop]
    · by_cases hdata : data = []
      · subst hdata
        rw [log_of_nil, if_neg (by decide), if_pos rfl]
        exact ⟨rfl, rfl⟩
      · rw [log_of_short cipher hfull hdata, if_neg hfull, if_neg hdata]
        refine ⟨rfl, ?_⟩
        rw [List.flatMap_cons, List.flatMap_nil, List.append_nil]

end Mode

/-- The block with this counter, of which it has the last four bytes. -/
def counterBlock (iv : Iv) (n : Nat) : Block := fixedBytes 16 (iv.toList ++ beBytes 4 n)

theorem toList_counterBlock (iv : Iv) (n : Nat) : (counterBlock iv n).toList = iv.toList ++ beBytes 4 n :=
  toList_fixedBytes (by rw [List.length_append, Vector.length_toList, length_beBytes])

theorem makeJ0_eq (iv : Iv) : makeJ0 iv = counterBlock iv 1 := rfl

theorem inc32_counterBlock (iv : Iv) (n : Nat) : inc32 (counterBlock iv n) = counterBlock iv (n + 1) := by
  have htake : (counterBlock iv n).toList.take 12 = iv.toList := by
    rw [toList_counterBlock, List.take_left' Vector.length_toList]
  have hdrop : (counterBlock iv n).toList.drop 12 = beBytes 4 n := by
    rw [toList_counterBlock, List.drop_left' Vector.length_toList]
  have hcounter : (n % 256 ^ 4 + 1) % 2 ^ 32 = (n + 1) % 256 ^ 4 := Nat.mod_add_mod n (256 ^ 4) 1
  rw [inc32, htake, hdrop, natOfBe_beBytes, hcounter, beBytes_mod]
  rfl

theorem counterBlock_inj {iv : Iv} {m n : Nat} (hm : m < 2 ^ 32) (hn : n < 2 ^ 32)
    (h : counterBlock iv m = counterBlock iv n) : m = n := by
  have hlist := congrArg Vector.toList h
  rw [toList_counterBlock, toList_counterBlock] at hlist
  have hpow : 256 ^ 4 = 2 ^ 32 := by decide
  exact beBytes_inj hm hn (List.append_cancel_left hlist)

theorem log_snd (cipher : Block → Block) (iv : Iv) (c : Nat) (data : List UInt8) :
    (ctrApplyKeystreamLog cipher (counterBlock iv c) data).2 =
      (List.range ((data.length + 15) / 16)).map fun i => counterBlock iv (c + i) := by
  generalize hn : data.length = n
  induction n using Nat.strong_induction_on generalizing c data with
  | _ n ih =>
    by_cases hfull : 16 ≤ data.length
    · have hcount : (n + 15) / 16 = (n - 16 + 15) / 16 + 1 := by omega
      rw [log_of_full cipher hfull, inc32_counterBlock,
        ih (n - 16) (by omega) (c + 1) (data.drop 16) (by rw [List.length_drop, hn]), hcount,
        List.range_succ_eq_map, List.map_cons, List.map_map]
      simp only [Function.comp_def, Nat.succ_eq_add_one, Nat.add_zero, Nat.add_assoc, Nat.add_comm 1]
    · by_cases hdata : data = []
      · subst hdata
        subst hn
        rw [log_of_nil]
        rfl
      · have hcount : (n + 15) / 16 = 1 := by
          have hpos := List.length_pos_of_ne_nil hdata
          omega
        rw [log_of_short cipher hfull hdata, hcount]
        rfl

/-- The blocks of a message that is not too long all differ from each other and from the one
that masks the tag, and so do the blocks of the keystream. -/
theorem counter_blocks_fresh (key : Aes.Key) (iv : Iv) (plaintext : List UInt8)
    (hlength : plaintext.length ≤ 2 ^ 36 - 32) :
    let cipher := Aes.aes256EncryptBlock (Aes.KeySchedule.new key)
    let (ciphertext, fed) := ctrApplyKeystreamLog cipher (inc32 (makeJ0 iv)) plaintext
    encrypt (fun key => Aes.aes256EncryptBlock (Aes.KeySchedule.new key)) iv key plaintext =
        (computeTag cipher ciphertext (makeJ0 iv)).toList ++ iv.toList ++ ciphertext ∧
      ciphertext = xorBytes plaintext (fed.flatMap fun block => (cipher block).toList) ∧
      fed.Nodup ∧ makeJ0 iv ∉ fed ∧ (fed.map cipher).Nodup ∧ cipher (makeJ0 iv) ∉ fed.map cipher := by
  have hcipher := Aes.encrypt_injective (Aes.KeySchedule.new key)
  generalize hdef : Aes.aes256EncryptBlock (Aes.KeySchedule.new key) = cipher at hcipher
  obtain ⟨hsame, hkeystream⟩ := log_fst cipher (inc32 (makeJ0 iv)) plaintext
  have hfed : (ctrApplyKeystreamLog cipher (inc32 (makeJ0 iv)) plaintext).2 =
      (List.range ((plaintext.length + 15) / 16)).map fun i => counterBlock iv (2 + i) := by
    rw [makeJ0_eq, inc32_counterBlock, log_snd]
  -- the last counter is at most `2^32 - 1`
  have hnodup : (ctrApplyKeystreamLog cipher (inc32 (makeJ0 iv)) plaintext).2.Nodup := by
    rw [hfed]
    refine List.Nodup.map_on (fun i hi j hj h => ?_) List.nodup_range
    rw [List.mem_range] at hi hj
    exact Nat.add_left_cancel (counterBlock_inj (by omega) (by omega) h)
  have hmask : makeJ0 iv ∉ (ctrApplyKeystreamLog cipher (inc32 (makeJ0 iv)) plaintext).2 := by
    rw [hfed, makeJ0_eq, List.mem_map]
    intro ⟨i, hi, h⟩
    rw [List.mem_range] at hi
    have hcounter := counterBlock_inj (by omega) (by omega) h
    omega
  refine ⟨?_, hkeystream, hnodup, hmask, hnodup.map hcipher, ?_⟩
  · rw [encrypt, hdef, hsame]
  · rw [List.mem_map_of_injective hcipher]
    exact hmask

theorem counter_blocks_fresh_two_blocks :
    let key : Aes.Key := Vector.replicate 32 7
    let iv : Iv := Vector.replicate 12 9
    let cipher := Aes.aes256EncryptBlock (Aes.KeySchedule.new key)
    let (ciphertext, fed) := ctrApplyKeystreamLog cipher (inc32 (makeJ0 iv)) (List.replicate 20 0)
    (List.replicate 20 (0 : UInt8)).length ≤ 2 ^ 36 - 32 ∧
      encrypt (fun key => Aes.aes256EncryptBlock (Aes.KeySchedule.new key)) iv key (List.replicate 20 0) =
        (computeTag cipher ciphertext (makeJ0 iv)).toList ++ iv.toList ++ ciphertext ∧
      ciphertext = xorBytes (List.replicate 20 0) (fed.flatMap fun block => (cipher block).toList) ∧
      fed.Nodup ∧ makeJ0 iv ∉ fed ∧ (fed.map cipher).Nodup ∧ cipher (makeJ0 iv) ∉ fed.map cipher :=
  ⟨by decide, counter_blocks_fresh (Vector.replicate 32 7) (Vector.replicate 12 9) (List.replicate 20 0) (by decide)⟩

end CrapOs.AesGcm
