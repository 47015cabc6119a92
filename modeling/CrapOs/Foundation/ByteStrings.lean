import Mathlib.Algebra.Order.Ring.Nat
import Mathlib.Data.List.Basic

/-! # Byte strings

Strings of bytes are lists; strings of a fixed length are vectors. Numbers are
written with the most or the least significant byte first.
-/

namespace Foundation

/-- A list as a string of fixed length: cut off, or filled up with zeros. -/
def fixedBytes (n : Nat) (bytes : List UInt8) : Vector UInt8 n := Vector.ofFn fun i => bytes.getD i 0

theorem fixedBytes_toList {n : Nat} (v : Vector UInt8 n) : fixedBytes n v.toList = v := by
  ext i hi
  simp [fixedBytes]

theorem toList_fixedBytes {n : Nat} {bytes : List UInt8} (h : bytes.length = n) :
    (fixedBytes n bytes).toList = bytes := by
  refine List.ext_getElem ?_ fun i h1 h2 => ?_
  · rw [Vector.length_toList, h]
  · simp [fixedBytes, h2]

/-! ## Numbers -/

def natOfBe (bytes : List UInt8) : Nat := bytes.foldl (fun n b => n * 256 + b.toNat) 0

def beBytes : Nat → Nat → List UInt8
  | 0, _ => []
  | k + 1, n => UInt8.ofNat (n / 256 ^ k) :: beBytes k n

theorem foldl_natOfBe (bytes : List UInt8) (n : Nat) :
    bytes.foldl (fun n b => n * 256 + b.toNat) n = n * 256 ^ bytes.length + natOfBe bytes := by
  unfold natOfBe
  induction bytes generalizing n with
  | nil => simp
  | cons b bytes ih =>
    rw [List.foldl_cons, List.foldl_cons, List.length_cons, ih, ih (0 * 256 + b.toNat), Nat.pow_succ',
      Nat.add_mul, Nat.mul_assoc, Nat.zero_mul, Nat.zero_add, Nat.add_assoc]

theorem natOfBe_cons (b : UInt8) (bytes : List UInt8) :
    natOfBe (b :: bytes) = b.toNat * 256 ^ bytes.length + natOfBe bytes := by
  refine (foldl_natOfBe bytes (0 * 256 + b.toNat)).trans ?_
  rw [Nat.zero_mul, Nat.zero_add]

theorem natOfBe_lt (bytes : List UInt8) : natOfBe bytes < 256 ^ bytes.length := by
  induction bytes with
  | nil => simp [natOfBe]
  | cons b bytes ih =>
    have hbyte : (b.toNat + 1) * 256 ^ bytes.length ≤ 256 * 256 ^ bytes.length :=
      Nat.mul_le_mul_right _ (UInt8.toNat_lt b)
    rw [natOfBe_cons, List.length_cons, Nat.pow_succ']
    rw [Nat.succ_mul] at hbyte
    omega

theorem length_beBytes (k n : Nat) : (beBytes k n).length = k := by
  induction k with
  | zero => rfl
  | succ k ih => rw [beBytes, List.length_cons, ih]

theorem natOfBe_beBytes (k n : Nat) : natOfBe (beBytes k n) = n % 256 ^ k := by
  induction k with
  | zero => simp [beBytes, natOfBe, Nat.mod_one]
  | succ k ih =>
    rw [beBytes, natOfBe_cons, length_beBytes, ih, Nat.mod_pow_succ (b := 256), Nat.mul_comm, Nat.add_comm]
    rfl

theorem beBytes_inj {k m n : Nat} (hm : m < 256 ^ k) (hn : n < 256 ^ k) (h : beBytes k m = beBytes k n) : m = n := by
  have hvalue := congrArg natOfBe h
  rw [natOfBe_beBytes, natOfBe_beBytes, Nat.mod_eq_of_lt hm, Nat.mod_eq_of_lt hn] at hvalue
  exact hvalue

theorem ofNat_add_mul_pow (m n k : Nat) :
    UInt8.ofNat ((m * 256 ^ (k + 1) + n) / 256 ^ k) = UInt8.ofNat (n / 256 ^ k) := by
  apply UInt8.toNat_inj.mp
  have hsplit : (m * 256 ^ (k + 1) + n) / 256 ^ k = n / 256 ^ k + 256 * m := by
    rw [Nat.pow_succ, Nat.mul_comm (256 ^ k), ← Nat.mul_assoc, Nat.add_comm,
      Nat.add_mul_div_right _ _ (Nat.pow_pos (by decide)), Nat.mul_comm m]
  rw [hsplit, UInt8.toNat_ofNat', UInt8.toNat_ofNat', Nat.add_mul_mod_self_left]

theorem beBytes_add_mul (m n : Nat) {j k : Nat} (hjk : j ≤ k) : beBytes j (m * 256 ^ k + n) = beBytes j n := by
  induction j with
  | zero => rfl
  | succ j ih =>
    have hpow : m * 256 ^ k = m * 256 ^ (k - (j + 1)) * 256 ^ (j + 1) := by
      rw [Nat.mul_assoc, ← Nat.pow_add, Nat.sub_add_cancel hjk]
    rw [beBytes, beBytes, ih (Nat.le_of_succ_le hjk), hpow, ofNat_add_mul_pow]

theorem beBytes_mod (k n : Nat) : beBytes k (n % 256 ^ k) = beBytes k n := by
  have hsplit : n / 256 ^ k * 256 ^ k + n % 256 ^ k = n := Nat.div_add_mod' n _
  rw [← beBytes_add_mul (n / 256 ^ k) (n % 256 ^ k) (Nat.le_refl k), hsplit]

theorem beBytes_natOfBe (bytes : List UInt8) : beBytes bytes.length (natOfBe bytes) = bytes := by
  induction bytes with
  | nil => rfl
  | cons b bytes ih =>
    have hfirst : (b.toNat * 256 ^ bytes.length + natOfBe bytes) / 256 ^ bytes.length = b.toNat := by
      rw [Nat.mul_comm, Nat.mul_add_div (Nat.pow_pos (by decide)), Nat.div_eq_of_lt (natOfBe_lt bytes),
        Nat.add_zero]
    rw [List.length_cons, natOfBe_cons, beBytes, hfirst, UInt8.ofNat_toNat,
      beBytes_add_mul _ _ (Nat.le_refl _), ih]

theorem eq_beBytes_iff {bytes : List UInt8} {k n : Nat} (hn : n < 256 ^ k) :
    bytes = beBytes k n ↔ bytes.length = k ∧ natOfBe bytes = n := by
  constructor
  · intro h
    rw [h, length_beBytes, natOfBe_beBytes, Nat.mod_eq_of_lt hn]
    exact ⟨rfl, rfl⟩
  · intro h
    rw [← h.1, ← h.2, beBytes_natOfBe]

theorem testBit_natOfBe {bytes : List UInt8} {i : Nat} (h : i < 8 * bytes.length) :
    (natOfBe bytes).testBit i = (bytes.getD (bytes.length - 1 - i / 8) 0).toNat.testBit (i % 8) := by
  induction bytes with
  | nil => exact absurd h (Nat.not_lt_zero i)
  | cons b bytes ih =>
    have hlt := natOfBe_lt bytes
    have hpow : 256 ^ bytes.length = 2 ^ (8 * bytes.length) := by rw [Nat.pow_mul]
    rw [List.length_cons] at h
    rw [natOfBe_cons, hpow, Nat.mul_comm, Nat.testBit_two_pow_mul_add _ (hpow ▸ hlt), List.length_cons]
    split
    next hlow =>
      have hindex : bytes.length + 1 - 1 - i / 8 = bytes.length - 1 - i / 8 + 1 := by omega
      rw [ih hlow, hindex, List.getD_cons_succ]
    next hhigh =>
      have hindex : bytes.length + 1 - 1 - i / 8 = 0 := by omega
      have hbit : i - 8 * bytes.length = i % 8 := by omega
      rw [hindex, List.getD_cons_zero, hbit]

def natOfLe (bytes : List UInt8) : Nat := bytes.foldr (fun b n => b.toNat + 256 * n) 0

def leBytes : Nat → Nat → List UInt8
  | 0, _ => []
  | k + 1, n => UInt8.ofNat n :: leBytes k (n / 256)

theorem length_leBytes (k n : Nat) : (leBytes k n).length = k := by
  induction k generalizing n with
  | zero => rfl
  | succ k ih => rw [leBytes, List.length_cons, ih]

theorem natOfLe_leBytes (k n : Nat) : natOfLe (leBytes k n) = n % 256 ^ k := by
  induction k generalizing n with
  | zero => simp [leBytes, natOfLe, Nat.mod_one]
  | succ k ih =>
    have hcons : natOfLe (leBytes (k + 1) n) =
        (UInt8.ofNat n).toNat + 256 * natOfLe (leBytes k (n / 256)) := rfl
    have hpow : 256 ^ (k + 1) = 256 * 256 ^ k := Nat.pow_succ'
    rw [hcons, ih, UInt8.toNat_ofNat', hpow, Nat.mod_mul]

theorem leBytes_inj {k m n : Nat} (hm : m < 256 ^ k) (hn : n < 256 ^ k) (h : leBytes k m = leBytes k n) : m = n := by
  have hvalue := congrArg natOfLe h
  rw [natOfLe_leBytes, natOfLe_leBytes, Nat.mod_eq_of_lt hm, Nat.mod_eq_of_lt hn] at hvalue
  exact hvalue

theorem leBytes_append_inj {k m n : Nat} {s t : List UInt8} (hm : m < 256 ^ k) (hn : n < 256 ^ k)
    (h : leBytes k m ++ s = leBytes k n ++ t) : m = n ∧ s = t := by
  obtain ⟨hfirst, hrest⟩ := List.append_inj h (by rw [length_leBytes, length_leBytes])
  exact ⟨leBytes_inj hm hn hfirst, hrest⟩

theorem leBytes_natOfLe (bytes : List UInt8) : leBytes bytes.length (natOfLe bytes) = bytes := by
  induction bytes with
  | nil => rfl
  | cons b bytes ih =>
    have hcons : natOfLe (b :: bytes) = b.toNat + 256 * natOfLe bytes := rfl
    have hlt := b.toNat_lt
    have hbyte : UInt8.ofNat (natOfLe (b :: bytes)) = b := by
      apply UInt8.toNat_inj.mp
      rw [hcons, UInt8.toNat_ofNat']
      omega
    have hrest : natOfLe (b :: bytes) / 256 = natOfLe bytes := by
      omega
    rw [List.length_cons, leBytes, hbyte, hrest, ih]

theorem leBytes_toNat_inj {x y : UInt64} : leBytes 8 x.toNat = leBytes 8 y.toNat ↔ x = y := by
  constructor
  · intro h
    have hvalue := congrArg natOfLe h
    rw [natOfLe_leBytes, natOfLe_leBytes] at hvalue
    apply UInt64.toNat_inj.mp
    rw [← Nat.mod_eq_of_lt x.toNat_lt, ← Nat.mod_eq_of_lt y.toNat_lt]
    exact hvalue
  · intro h
    rw [h]

def wordBytes (words : List UInt64) : List UInt8 := words.flatMap fun word => leBytes 8 word.toNat

theorem length_wordBytes (words : List UInt64) : (wordBytes words).length = 8 * words.length := by
  induction words with
  | nil => rfl
  | cons w words ih =>
    rw [wordBytes, List.flatMap_cons, List.length_append, length_leBytes]
    change 8 + (wordBytes words).length = _
    rw [ih, List.length_cons]
    omega

def wordAt (bytes : List UInt8) (i : Nat) : UInt64 := UInt64.ofNat (natOfLe ((bytes.drop (i * 8)).take 8))

theorem wordAt_succ (bytes : List UInt8) (i : Nat) : wordAt bytes (i + 1) = wordAt (bytes.drop 8) i := by
  rw [wordAt, wordAt, List.drop_drop, Nat.succ_mul, Nat.add_comm]

theorem leBytes_wordAt_zero {bytes : List UInt8} (h : 8 ≤ bytes.length) :
    leBytes 8 (wordAt bytes 0).toNat = bytes.take 8 := by
  have hlength : (bytes.take 8).length = 8 := by rw [List.length_take, Nat.min_eq_left h]
  have hbytes := leBytes_natOfLe (bytes.take 8)
  rw [hlength] at hbytes
  have hlt : natOfLe (bytes.take 8) < 2 ^ 64 := by
    rw [← hbytes, natOfLe_leBytes]
    exact Nat.mod_lt _ (by decide)
  rw [wordAt, Nat.zero_mul, List.drop_zero, UInt64.toNat_ofNat_of_lt' hlt, hbytes]

theorem wordBytes_cons (word : UInt64) (words : List UInt64) :
    wordBytes (word :: words) = leBytes 8 word.toNat ++ wordBytes words := rfl

theorem wordAt_wordBytes {words : List UInt64} {i : Nat} (hi : i < words.length) :
    wordAt (wordBytes words) i = words[i] := by
  induction words generalizing i with
  | nil => cases hi
  | cons word words ih =>
    have hlong : 8 ≤ (wordBytes (word :: words)).length := by
      rw [length_wordBytes, List.length_cons]
      omega
    have htake := leBytes_wordAt_zero hlong
    cases i with
    | zero => exact leBytes_toNat_inj.mp htake
    | succ i =>
      rw [wordAt_succ, wordBytes_cons, List.drop_left' (length_leBytes 8 _), List.getElem_cons_succ]
      exact ih (Nat.lt_of_succ_lt_succ hi)

theorem wordBytes_inj {a b : List UInt64} (h : wordBytes a = wordBytes b) (hlength : a.length = b.length) :
    a = b := by
  refine List.ext_getElem hlength fun i hi hi' => ?_
  rw [← wordAt_wordBytes hi, h, wordAt_wordBytes hi']

theorem eq_of_wordAt {n : Nat} {a b : List UInt8} (ha : a.length = 8 * n) (hb : b.length = 8 * n)
    (h : ∀ i < n, wordAt a i = wordAt b i) : a = b := by
  induction n generalizing a b with
  | zero => rw [List.length_eq_zero_iff.mp ha, List.length_eq_zero_iff.mp hb]
  | succ n ih =>
    have hrest : a.drop 8 = b.drop 8 := by
      apply ih
      · rw [List.length_drop, ha, Nat.mul_succ, Nat.add_sub_cancel]
      · rw [List.length_drop, hb, Nat.mul_succ, Nat.add_sub_cancel]
      · intro i hi
        rw [← wordAt_succ, ← wordAt_succ, h (i + 1) (Nat.succ_lt_succ hi)]
    have hfirst : a.take 8 = b.take 8 := by
      rw [← leBytes_wordAt_zero (by omega), ← leBytes_wordAt_zero (by omega), h 0 (Nat.succ_pos n)]
    rw [← List.take_append_drop 8 a, ← List.take_append_drop 8 b, hfirst, hrest]

theorem or_eq_xor {x y : UInt64} (h : x &&& y = 0) : x ||| y = x ^^^ y := by
  apply UInt64.toBitVec_inj.mp
  ext i hi
  have hbit := congrArg (fun w => w.toBitVec[i]) h
  simp only [UInt64.toBitVec_and, BitVec.getElem_and, UInt64.toBitVec_zero,
    BitVec.getElem_zero] at hbit
  simp only [UInt64.toBitVec_or, UInt64.toBitVec_xor, BitVec.getElem_or, BitVec.getElem_xor]
  revert hbit
  cases x.toBitVec[i] <;> cases y.toBitVec[i] <;> decide

theorem toNat_sub_mod {n : UInt64} (h0 : 0 < n.toNat) (h64 : n.toNat < 64) :
    (64 - n).toNat % 64 = 64 - n.toNat := by
  rw [UInt64.toNat_sub_of_le 64 n (UInt64.le_iff_toNat_le.mpr (Nat.le_of_lt h64))]
  change (64 - n.toNat) % 64 = _
  omega

theorem shiftRight_and_shiftLeft (x : UInt64) {n : UInt64} (h0 : 0 < n.toNat) (h64 : n.toNat < 64) :
    (x >>> n) &&& (x <<< (64 - n)) = 0 := by
  apply UInt64.toNat_inj.mp
  apply Nat.eq_of_testBit_eq
  intro i
  simp only [UInt64.toNat_and, UInt64.toNat_shiftRight, UInt64.toNat_shiftLeft, toNat_sub_mod h0 h64,
    Nat.mod_eq_of_lt h64, Nat.testBit_and, Nat.testBit_shiftRight, Nat.testBit_mod_two_pow,
    Nat.testBit_shiftLeft, UInt64.toNat_zero, Nat.zero_testBit]
  by_cases hi : 64 - n.toNat ≤ i
  · have hout : x.toNat.testBit (n.toNat + i) = false :=
      Nat.testBit_lt_two_pow
        (Nat.lt_of_lt_of_le x.toNat_lt (Nat.pow_le_pow_right (by decide) (by omega)))
    simp [hout]
  · simp [hi]

theorem rotation_injective {n : UInt64} (h0 : 0 < n.toNat) (h64 : n.toNat < 64) :
    Function.Injective fun x : UInt64 => (x >>> n) ||| (x <<< (64 - n)) := by
  have hpow : 2 ^ 64 = 2 ^ (64 - n.toNat) * 2 ^ n.toNat := by
    rw [← Nat.pow_add, Nat.sub_add_cancel (Nat.le_of_lt h64)]
  have hlt (x : UInt64) : x.toNat / 2 ^ n.toNat < 2 ^ (64 - n.toNat) := by
    apply Nat.div_lt_of_lt_mul
    rw [Nat.mul_comm, ← hpow]
    exact x.toNat_lt
  have hsum (x : UInt64) : ((x >>> n) ||| (x <<< (64 - n))).toNat =
      2 ^ (64 - n.toNat) * (x.toNat % 2 ^ n.toNat) + x.toNat / 2 ^ n.toNat := by
    rw [Nat.two_pow_add_eq_or_of_lt (hlt x), UInt64.toNat_or, UInt64.toNat_shiftRight,
      UInt64.toNat_shiftLeft, toNat_sub_mod h0 h64, Nat.mod_eq_of_lt h64, Nat.shiftRight_eq_div_pow,
      Nat.shiftLeft_eq, hpow, Nat.mul_comm x.toNat, Nat.mul_mod_mul_left, Nat.or_comm]
  intro x y h
  have heq := congrArg UInt64.toNat h
  rw [hsum, hsum] at heq
  have hdiv : x.toNat / 2 ^ n.toNat = y.toNat / 2 ^ n.toNat := by
    have hmod := congrArg (· % 2 ^ (64 - n.toNat)) heq
    simpa [Nat.mul_add_mod, Nat.mod_eq_of_lt (hlt _)] using hmod
  rw [hdiv, Nat.add_right_cancel_iff, Nat.mul_left_cancel_iff (Nat.two_pow_pos _)] at heq
  apply UInt64.toNat_inj.mp
  rw [← Nat.div_add_mod x.toNat (2 ^ n.toNat), hdiv, heq, Nat.div_add_mod]

theorem xor_injective (y : UInt64) : Function.Injective fun x => x ^^^ y := by
  intro a b h
  have hback := congrArg (· ^^^ y) h
  rwa [UInt64.xor_assoc, UInt64.xor_assoc, UInt64.xor_self, UInt64.xor_zero, UInt64.xor_zero] at hback

theorem foldl_or_eq_zero {α : Type} (f : α → UInt8) (l : List α) (d : UInt8) :
    l.foldl (fun diff x => diff ||| f x) d = 0 ↔ d = 0 ∧ ∀ x ∈ l, f x = 0 := by
  induction l generalizing d with
  | nil => simp
  | cons x l ih => rw [List.foldl_cons, ih, UInt8.or_eq_zero_iff, List.forall_mem_cons, and_assoc]

def xorBytes (a b : List UInt8) : List UInt8 := List.zipWith (· ^^^ ·) a b

theorem length_xorBytes {a b : List UInt8} (h : a.length ≤ b.length) :
    (xorBytes a b).length = a.length := by
  rw [xorBytes, List.length_zipWith, Nat.min_eq_left h]

theorem xorBytes_append {a1 a2 b1 b2 : List UInt8} (h : a1.length = b1.length) :
    xorBytes (a1 ++ a2) (b1 ++ b2) = xorBytes a1 b1 ++ xorBytes a2 b2 :=
  List.zipWith_append h

theorem xorBytes_append_right {a b1 b2 : List UInt8} (h : a.length ≤ b1.length) :
    xorBytes a (b1 ++ b2) = xorBytes a b1 := by
  induction a generalizing b1 with
  | nil => rfl
  | cons x a ih =>
    cases b1 with
    | nil => cases h
    | cons y b1 => exact congrArg ((x ^^^ y) :: ·) (ih (Nat.le_of_succ_le_succ h))

theorem xorBytes_twice {a b : List UInt8} (h : a.length ≤ b.length) :
    xorBytes (xorBytes a b) b = a := by
  induction a generalizing b with
  | nil => rfl
  | cons x a ih =>
    cases b with
    | nil => cases h
    | cons y b =>
      have hxor : x ^^^ y ^^^ y = x := by rw [UInt8.xor_assoc, UInt8.xor_self, UInt8.xor_zero]
      exact congrArg₂ List.cons hxor (ih (Nat.le_of_succ_le_succ h))

end Foundation
