import CrapOs.Crypto.Aes
import CrapOs.Crypto.Fips197
import CrapOs.Foundation.FiniteStates

/-! # AES-256 against FIPS 197

Each transformation of the code is the one of the standard on the state that a block stands
for, and each of them can be undone: so the code is the cipher of the standard, and a
bijection under every key.
-/

namespace CrapOs.Aes

open Foundation
open Foundation.Gf256 (elem toByte elem_xor elem_three elem_double elem_injective two_eq_zero)
open Fips197 (toState ofState place)

theorem map_affine : Gf256.inverseTable.map Fips197.affine = sbox := by decide +kernel

theorem affine_byteInverse (b : UInt8) : Fips197.affine (Gf256.byteInverse b) = substitute b := by
  have hlength : Gf256.inverseTable.length = 256 := by decide +kernel
  have hb : b.toNat < Gf256.inverseTable.length := by
    rw [hlength]
    exact b.toNat_lt
  rw [substitute, ← map_affine, Gf256.byteInverse, List.getD_eq_getElem _ _ hb,
    List.getD_eq_getElem _ _ (by rw [List.length_map]; exact hb), List.getElem_map]

theorem sBox_eq (b : UInt8) : Fips197.sBox b = substitute b := by
  rw [Fips197.sBox, ← Gf256.elem_byteInverse, Gf256.toByte_elem, affine_byteInverse]

theorem toState_subBytes (s : Block) : toState (subBytes s) = Fips197.subBytes (toState s) := by
  funext r c
  simp [toState, subBytes, Fips197.subBytes, sBox_eq, get_eq_getElem]

theorem subBytes_injective : Function.Injective subBytes := by
  intro s t h
  apply Vector.ext
  intro i hi
  have hbyte := congrArg (fun v : Block => v[i]) h
  simp only [subBytes, Vector.getElem_map, ← sBox_eq] at hbyte
  exact Fips197.sBox_injective hbyte

def rowSource (i : Fin 16) : Fin 16 := Fin.ofNat 16 (i + 4 * (i % 4))

theorem shiftRows_eq (s : Block) : shiftRows s = gather s rowSource := by
  apply Vector.ext
  intro i hi
  interval_cases i <;> simp [shiftRows, swap, put, gather, rowSource, get_eq_getElem]

theorem toState_shiftRows (s : Block) : toState (shiftRows s) = Fips197.shiftRows (toState s) := by
  have hplace : ∀ r c, rowSource (place r c) = place r (c + r) := by decide
  funext r c
  rw [shiftRows_eq, toState, get_gather, hplace]
  rfl

theorem shiftRows_injective : Function.Injective shiftRows := by
  intro s t h
  have hsource : ∀ i, ∃ j, rowSource j = i := by decide
  rw [shiftRows_eq, shiftRows_eq] at h
  apply eq_of_get
  intro i
  obtain ⟨j, hj⟩ := hsource i
  have hbyte := congrArg (fun v => v.get j) h
  simp only [get_gather, hj] at hbyte
  exact hbyte

theorem toUInt8_gmul2 (x : UInt8) : (gmul2 x).toUInt8 = double 0x1b x := by
  revert x
  exact forall_byte (by decide +kernel)

theorem toUInt8_gmul3 (x : UInt8) : (gmul3 x).toUInt8 = double 0x1b x ^^^ x := by
  rw [gmul3, UInt64.toUInt8_xor, toUInt8_gmul2, UInt8.toUInt8_toUInt64]

def mixWord (w : Vector UInt8 4) : Vector UInt8 4 :=
  let s0 := w.get 0
  let s1 := w.get 1
  let s2 := w.get 2
  let s3 := w.get 3
  let w := put w 0 (gmul2 s0 ^^^ gmul3 s1 ^^^ s2.toUInt64 ^^^ s3.toUInt64).toUInt8
  let w := put w 1 (s0.toUInt64 ^^^ gmul2 s1 ^^^ gmul3 s2 ^^^ s3.toUInt64).toUInt8
  let w := put w 2 (s0.toUInt64 ^^^ s1.toUInt64 ^^^ gmul2 s2 ^^^ gmul3 s3).toUInt8
  put w 3 (gmul3 s0 ^^^ s1.toUInt64 ^^^ s2.toUInt64 ^^^ gmul2 s3).toUInt8

theorem apart_columnByte : Apart columnByte := by
  apply apart_of_val
  intro i j k l h
  simp only [columnByte] at h
  omega

theorem mixColumn_eq (s : Block) (col : Fin 4) : mixColumn s col = applyAt mixWord s (columnByte col) := by
  have hinj := apart_columnByte.injective col
  apply eq_scatter hinj
  · simp only [mixColumn, mixWord, gather_put hinj, get_gather]
  · intro i hi
    simp only [mixColumn, get_put_other (hi _)]

theorem gather_mixColumns (s : Block) (col : Fin 4) :
    gather (mixColumns s) (columnByte col) = mixWord (gather s (columnByte col)) := by
  have hturn : mixColumn = fun s col => applyAt mixWord s (columnByte col) := funext₂ mixColumn_eq
  rw [mixColumns, hturn]
  exact gather_foldl apart_columnByte mixWord (List.nodup_finRange 4) (List.mem_finRange col) s

theorem elem_mixWord (w : Vector UInt8 4) (r : Fin 4) :
    elem ((mixWord w).get r) =
      elem 2 * elem (w.get r) + elem 3 * elem (w.get (r + 1)) + elem (w.get (r + 2)) + elem (w.get (r + 3)) := by
  fin_cases r
  all_goals
    simp only [mixWord, get_eq_getElem, put]
    simp [toUInt8_gmul2, toUInt8_gmul3, elem_three, elem_xor, elem_double]
    ring

theorem toState_mixColumns (s : Block) : toState (mixColumns s) = Fips197.mixColumns (toState s) := by
  have hplace : ∀ r c, place r c = columnByte c r := by decide
  funext r c
  apply elem_injective
  have hcolumn : toState (mixColumns s) r c = (mixWord (gather s (columnByte c))).get r := by
    rw [← gather_mixColumns, get_gather, ← hplace]
    rfl
  rw [hcolumn, elem_mixWord, Fips197.elem_mixColumns]
  simp only [get_gather, toState, hplace]

theorem elem_mixWord_twice (w : Vector UInt8 4) (r : Fin 4) :
    elem ((mixWord (mixWord w)).get r) =
      (elem 2 ^ 2 + 1) * elem (w.get r) + elem 2 ^ 2 * elem (w.get (r + 2)) := by
  have hplaces : r + 1 + 1 = r + 2 ∧ r + 1 + 2 = r + 3 ∧ r + 1 + 3 = r ∧ r + 2 + 1 = r + 3 ∧ r + 2 + 2 = r ∧
      r + 2 + 3 = r + 1 ∧ r + 3 + 1 = r ∧ r + 3 + 2 = r + 1 ∧ r + 3 + 3 = r + 2 := by
    revert r
    decide
  obtain ⟨h11, h12, h13, h21, h22, h23, h31, h32, h33⟩ := hplaces
  simp only [elem_mixWord, h11, h12, h13, h21, h22, h23, h31, h32, h33, elem_three]
  linear_combination ((elem 2 + 1) * elem (w.get r) + (elem 2 ^ 2 + elem 2 + 1) * elem (w.get (r + 1)) +
    (2 * elem 2 + 1) * elem (w.get (r + 2)) + (2 * elem 2 + 1) * elem (w.get (r + 3))) * two_eq_zero

theorem mixWord_four (w : Vector UInt8 4) : mixWord (mixWord (mixWord (mixWord w))) = w := by
  apply eq_of_get
  intro r
  apply elem_injective
  have hback : r + 2 + 2 = r := by
    revert r
    decide
  rw [elem_mixWord_twice (mixWord (mixWord w)), elem_mixWord_twice, elem_mixWord_twice, hback]
  linear_combination ((elem 2 ^ 4 + elem 2 ^ 2) * elem (w.get r) +
    (elem 2 ^ 4 + elem 2 ^ 2) * elem (w.get (r + 2))) * two_eq_zero

theorem mixColumns_injective : Function.Injective mixColumns := by
  intro s t h
  have hcover : ∀ i, ∃ c r, columnByte c r = i := by decide
  apply eq_of_gather hcover
  intro col
  have hcolumn := congrArg (fun v => gather v (columnByte col)) h
  simp only [gather_mixColumns] at hcolumn
  rw [← mixWord_four (gather s _), hcolumn, mixWord_four]

namespace KeySchedule

theorem byteAt_set (rk : Vector UInt8 240) {i : Nat} (hi : i < 240) (x : UInt8) (j : Nat) :
    byteAt (rk.setIfInBounds i x) j = if i = j then x else byteAt rk j := by
  unfold byteAt
  rw [Vector.getElem?_setIfInBounds]
  split
  next => simp
  next => rfl

theorem get_wordAt (rk : Vector UInt8 240) (i : Nat) (j : Fin 4) : (wordAt rk i).get j = byteAt rk (i * 4 + j) := by
  fin_cases j <;> rfl

theorem get_rotWord (w : Word) (j : Fin 4) : (rotWord w).get j = w.get (j + 1) := by
  fin_cases j <;> rfl

theorem get_subWord (w : Word) (j : Fin 4) : (subWord w).get j = substitute (w.get j) := by
  fin_cases j <;> rfl

theorem byteAt_expandWord (rk : Vector UInt8 240) {i : Nat} (hi : i < 60) (h8 : 8 ≤ i) (k : Nat) (j : Fin 4) :
    byteAt (expandWord rk i) (k * 4 + j) =
      if k = i then byteAt rk ((i - 8) * 4 + j) ^^^ (nextTemp (wordAt rk (i - 1)) i).get j
      else byteAt rk (k * 4 + j) := by
  have hold (n : Nat) (hn : n < 4) : ¬ i * 4 = (i - 8) * 4 + n := by omega
  unfold expandWord
  by_cases hk : k = i
  · subst hk
    fin_cases j <;> simp (disch := omega) [byteAt_set, hold]
  · have hother (m : Nat) (hm : m < 4) : ¬ i * 4 + m = k * 4 + j := by omega
    have hother' : ¬ i * 4 = k * 4 + j := by omega
    simp (disch := omega) [byteAt_set, hk, hother, hother']

theorem elem_rcon {k : Nat} (hk : k < 10) : elem (rcon.getD k 0) = elem 2 ^ k := by
  have hnext : ∀ k < 9, rcon.getD (k + 1) 0 = double 0x1b (rcon.getD k 0) := by decide
  induction k with
  | zero =>
    exact Gf256.elem_one
  | succ k ih => rw [hnext k (by omega), elem_double, ih (by omega), pow_succ]

/-- The first `n` words are those of the standard. -/
def Expanded (key : Key) (n : Nat) (rk : Vector UInt8 240) : Prop :=
  ∀ k < n, ∀ j : Fin 4, byteAt rk (k * 4 + j) = Fips197.keyWord key k j

theorem expanded_start (key : Key) : Expanded key 8 (start key) := by
  intro k hk j
  have hin : k * 4 + j.val < 240 := by omega
  rw [Fips197.keyWord_of_lt key hk, Nat.mul_comm 4 k]
  simp [byteAt, start, hin]

theorem get_nextTemp {w : Word} {u : Fips197.Word} (hw : ∀ j, w.get j = u j) {i : Nat} (hi : i < 60) (j : Fin 4) :
    (nextTemp w i).get j = Fips197.keyTemp u i j := by
  have hrotated : ∀ j, (subWord (rotWord w)).get j = Fips197.subWord (Fips197.rotWord u) j := by
    intro j
    rw [get_subWord, get_rotWord, hw, ← sBox_eq]
    rfl
  have hrcon : rcon.getD (i / 8 - 1) 0 = Fips197.rcon (i / 8) 0 := by
    rw [Fips197.rcon, if_pos rfl, ← elem_rcon (by omega), Gf256.toByte_elem]
  unfold nextTemp Fips197.keyTemp Fips197.nk
  split
  next =>
    by_cases hj : j = 0
    · subst hj
      rw [get_put_same, hrotated, hrcon]
    · have hother : Fips197.rcon (i / 8) j = 0 := if_neg hj
      rw [get_put_other (Ne.symm hj), hrotated]
      dsimp only
      rw [hother, UInt8.xor_zero]
  next =>
    split
    next =>
      rw [get_subWord, hw, ← sBox_eq]
      rfl
    next => exact hw j

theorem Expanded.step {key : Key} {i : Nat} {rk : Vector UInt8 240} (h : Expanded key i rk) (hi : i < 60)
    (h8 : 8 ≤ i) : Expanded key (i + 1) (expandWord rk i) := by
  intro k hk j
  rw [byteAt_expandWord rk hi h8]
  split
  next hki =>
    subst hki
    have hprev : ∀ j, (wordAt rk (k - 1)).get j = Fips197.keyWord key (k - 1) j := by
      intro j
      rw [get_wordAt, h _ (by omega)]
    rw [Fips197.keyWord_of_le key h8, h _ (by omega), get_nextTemp hprev hi]
    rfl
  next hki => exact h k (by omega) j

theorem expanded_loop (key : Key) {n : Nat} (hn : n ≤ 52) :
    Expanded key (8 + n) ((List.range' 8 n).foldl expandWord (start key)) := by
  induction n with
  | zero => exact expanded_start key
  | succ n ih =>
    rw [List.range'_1_concat, List.foldl_append, List.foldl_cons, List.foldl_nil]
    exact (ih (by omega)).step (by omega) (by omega)

theorem get_roundKey (key : Key) {r : Nat} (hr : r < 15) (c row : Fin 4) :
    ((new key).roundKey r).get (place row c) = Fips197.keyWord key (4 * r + c) row := by
  have hindex : r * 16 + (place row c).val = (4 * r + c) * 4 + row := by
    simp only [place]
    omega
  have hbyte := expanded_loop key (n := 52) le_rfl (4 * r + c) (by omega) row
  rw [← hbyte, ← hindex]
  simp [roundKey, get_eq_getElem, new]

end KeySchedule

theorem toState_addRoundKey (key : Key) {r : Nat} (hr : r < 15) (s : Block) :
    toState (addRoundKey s ((KeySchedule.new key).roundKey r)) =
      Fips197.addRoundKey (Fips197.keyWord key) r (toState s) := by
  funext row c
  rw [Fips197.addRoundKey, ← KeySchedule.get_roundKey key hr]
  simp [toState, addRoundKey, get_eq_getElem]

theorem addRoundKey_injective (roundKey : Block) : Function.Injective fun s => addRoundKey s roundKey := by
  intro s t h
  apply Vector.ext
  intro i hi
  have hbyte := congrArg (fun v : Block => v[i]) h
  simp only [addRoundKey, Vector.getElem_zipWith] at hbyte
  exact (UInt8.xor_left_inj _).mp hbyte

theorem ofState_toState (s : Block) : ofState (toState s) = s := by
  have hplace : ∀ i : Fin 16, place (Fin.ofNat 4 (i % 4)) (Fin.ofNat 4 (i / 4)) = i := by decide
  apply eq_of_get
  intro i
  have hbyte : (ofState (toState s)).get i = s.get (place (Fin.ofNat 4 (i % 4)) (Fin.ofNat 4 (i / 4))) := by
    simp [ofState, toState, get_eq_getElem]
  rw [hbyte, hplace]

theorem toState_fullRound (key : Key) {r : Nat} (hr : r < 15) (s : Block) :
    toState (fullRound (KeySchedule.new key) s r) = Fips197.cipherRound (Fips197.keyWord key) (toState s) r := by
  rw [fullRound, toState_addRoundKey key hr, toState_mixColumns, toState_shiftRows, toState_subBytes]
  rfl

theorem encrypt_eq (key : Key) (block : Block) :
    aes256EncryptBlock (KeySchedule.new key) block = Fips197.cipher key block := by
  have hrounds : toState ((List.range' 1 13).foldl (fullRound (KeySchedule.new key))
      (addRoundKey block ((KeySchedule.new key).roundKey 0))) =
      (List.range' 1 13).foldl (Fips197.cipherRound (Fips197.keyWord key))
        (Fips197.addRoundKey (Fips197.keyWord key) 0 (toState block)) := by
    refine List.foldl_rel (r := fun s t => toState s = t) (toState_addRoundKey key (by decide) block) ?_
    intro r hr s t hst
    have hlast : r < 15 := by
      have hmem := List.mem_range'_1.mp hr
      omega
    rw [toState_fullRound key hlast, hst]
  rw [← ofState_toState (aes256EncryptBlock _ _)]
  apply congrArg ofState
  rw [aes256EncryptBlock, toState_addRoundKey key (by decide), toState_shiftRows, toState_subBytes]
  exact congrArg _ (congrArg _ (congrArg _ hrounds))

theorem fullRound_injective (schedule : KeySchedule) (r : Nat) :
    Function.Injective fun s => fullRound schedule s r := by
  intro s t h
  have hkey : mixColumns (shiftRows (subBytes s)) = mixColumns (shiftRows (subBytes t)) :=
    addRoundKey_injective _ h
  exact subBytes_injective (shiftRows_injective (mixColumns_injective hkey))

theorem encrypt_injective (schedule : KeySchedule) : Function.Injective (aes256EncryptBlock schedule) := by
  have hrounds := foldl_injective (l := List.range' 1 (aes256Rounds - 1)) fun r _ => fullRound_injective schedule r
  intro s t h
  have hlast := subBytes_injective (shiftRows_injective (addRoundKey_injective _ h))
  exact addRoundKey_injective _ (hrounds hlast)

/-- Under every key the code is the cipher of the standard, and a bijection on the blocks. -/
theorem aes256EncryptBlock_fips197 (key : Key) :
    Function.Bijective (aes256EncryptBlock (KeySchedule.new key)) ∧
      ∀ block, aes256EncryptBlock (KeySchedule.new key) block = Fips197.cipher key block :=
  ⟨Finite.injective_iff_bijective.mp (encrypt_injective _), encrypt_eq key⟩

end CrapOs.Aes
