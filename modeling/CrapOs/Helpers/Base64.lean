import Mathlib.Algebra.Order.Floor.Div
import Mathlib.Data.List.DropRight
import CrapOs.Foundation.AsciiText
import CrapOs.Foundation.ByteStrings
import CrapOs.Foundation.WordBits

/-! # Base64

Three bytes are four characters of six bits each; a rest of one or two bytes is
two or three characters. The decoder accepts the characters of the alphabet in any
number that leaves no single one over, and any padding after them.
-/

namespace CrapOs

open Foundation

def base64Chars : Vector UInt8 64 :=
  fixedBytes 64 (ascii "ABCDEFGHIJKLMNOPQRSTUVWXYZabcdefghijklmnopqrstuvwxyz0123456789+/")

/-- `BASE64_CHARS[n as usize & 0x3F]` -/
def base64Char (n : UInt32) : UInt8 := base64Chars.get (Fin.ofNat 64 n.toNat)

def base64EncodeUnpadded : List UInt8 → List UInt8
  | a :: b :: c :: rest =>
    let n := a.toUInt32 <<< 16 ||| b.toUInt32 <<< 8 ||| c.toUInt32
    base64Char (n >>> 18) :: base64Char (n >>> 12) :: base64Char (n >>> 6) :: base64Char n ::
      base64EncodeUnpadded rest
  | [a, b] =>
    let n := a.toUInt32 <<< 16 ||| b.toUInt32 <<< 8
    [base64Char (n >>> 18), base64Char (n >>> 12), base64Char (n >>> 6)]
  | [a] =>
    let n := a.toUInt32 <<< 16
    [base64Char (n >>> 18), base64Char (n >>> 12)]
  | [] => []

def base64Encode (input : List UInt8) : List UInt8 :=
  let result := base64EncodeUnpadded input
  let remainder := result.length % 4
  if remainder ≠ 0 then result ++ List.replicate (4 - remainder) '='.toUInt8 else result

def base64Val (byte : UInt8) : Option UInt8 :=
  if 'A'.toUInt8 ≤ byte ∧ byte ≤ 'Z'.toUInt8 then some (byte - 'A'.toUInt8)
  else if 'a'.toUInt8 ≤ byte ∧ byte ≤ 'z'.toUInt8 then some (byte - 'a'.toUInt8 + 26)
  else if '0'.toUInt8 ≤ byte ∧ byte ≤ '9'.toUInt8 then some (byte - '0'.toUInt8 + 52)
  else if byte = '+'.toUInt8 then some 62
  else if byte = '/'.toUInt8 then some 63
  else none

def base64Groups : List UInt8 → Option (List UInt8)
  | a :: b :: c :: d :: rest => do
    let a ← base64Val a
    let b ← base64Val b
    let c ← base64Val c
    let d ← base64Val d
    let n := a.toUInt32 <<< 18 ||| b.toUInt32 <<< 12 ||| c.toUInt32 <<< 6 ||| d.toUInt32
    let result ← base64Groups rest
    return (n >>> 16).toUInt8 :: (n >>> 8).toUInt8 :: n.toUInt8 :: result
  | [a, b, c] => do
    let a ← base64Val a
    let b ← base64Val b
    let c ← base64Val c
    let n := a.toUInt32 <<< 18 ||| b.toUInt32 <<< 12 ||| c.toUInt32 <<< 6
    return [(n >>> 16).toUInt8, (n >>> 8).toUInt8]
  | [a, b] => do
    let a ← base64Val a
    let b ← base64Val b
    let n := a.toUInt32 <<< 18 ||| b.toUInt32 <<< 12
    return [(n >>> 16).toUInt8]
  | [_] => none
  | [] => some []

def base64Decode (input : List UInt8) : Option (List UInt8) :=
  base64Groups (input.rdropWhile (· == '='.toUInt8))

theorem base64Val_get (i : Fin 64) : base64Val (base64Chars.get i) = some (UInt8.ofNat i) := by
  revert i
  decide +kernel

example : base64Val '/'.toUInt8 = some 63 := by decide +kernel

theorem base64Val_eq_some {byte v : UInt8} (h : base64Val byte = some v) :
    v.toNat < 64 ∧ base64Chars.get (Fin.ofNat 64 v.toNat) = byte := by
  have hall : ∀ i : Fin 256, ∀ v ∈ base64Val (UInt8.ofNat i),
      v.toNat < 64 ∧ base64Chars.get (Fin.ofNat 64 v.toNat) = UInt8.ofNat i := by
    decide +kernel
  have hbyte := hall ⟨byte.toNat, byte.toNat_lt⟩ v
  rw [UInt8.ofNat_toNat] at hbyte
  exact hbyte h

theorem base64Val_isSome_iff {byte : UInt8} : (base64Val byte).isSome ↔ byte ∈ base64Chars.toList := by
  constructor
  · intro h
    obtain ⟨v, hv⟩ := Option.isSome_iff_exists.mp h
    rw [← (base64Val_eq_some hv).2]
    exact Vector.mem_toList_iff.mpr (Vector.getElem_mem _)
  · intro h
    obtain ⟨i, hi, rfl⟩ := List.getElem_of_mem h
    rw [Vector.length_toList] at hi
    have hget := base64Val_get ⟨i, hi⟩
    exact Option.isSome_iff_exists.mpr ⟨_, hget⟩

theorem base64Val_base64Char (n : UInt32) :
    base64Val (base64Char n) = some (UInt8.ofNat (n.toNat % 64)) :=
  base64Val_get _

theorem toNat_shiftLeft (a : UInt8) {k : UInt32} (hk : k.toNat ≤ 24) :
    (a.toUInt32 <<< k).toNat = a.toNat * 2 ^ k.toNat := by
  have hlt : a.toNat * 2 ^ k.toNat < 2 ^ 8 * 2 ^ 24 :=
    Nat.mul_lt_mul_of_lt_of_le a.toNat_lt (Nat.pow_le_pow_right (by decide) hk) (by decide)
  rw [UInt32.toNat_shiftLeft, UInt8.toNat_toUInt32, Nat.mod_eq_of_lt (show k.toNat < 32 by omega),
    Nat.shiftLeft_eq]
  exact Nat.mod_eq_of_lt hlt

theorem toNat_or {x y : UInt32} {k : Nat} (hx : 2 ^ k ∣ x.toNat) (hy : y.toNat < 2 ^ k) :
    (x ||| y).toNat = x.toNat + y.toNat := by
  rw [UInt32.toNat_or, or_eq_add_of_dvd hx hy]

theorem pack_two (a b : UInt8) :
    (a.toUInt32 <<< 16 ||| b.toUInt32 <<< 8).toNat = a.toNat * 2 ^ 16 + b.toNat * 2 ^ 8 := by
  have ha : (a.toUInt32 <<< 16).toNat = a.toNat * 2 ^ 16 := toNat_shiftLeft a (by decide)
  have hb : (b.toUInt32 <<< 8).toNat = b.toNat * 2 ^ 8 := toNat_shiftLeft b (by decide)
  have hlt := b.toNat_lt
  rw [toNat_or (k := 16), ha, hb]
  · rw [ha]
    exact Nat.dvd_mul_left _ _
  · omega

theorem pack_three (a b c : UInt8) :
    (a.toUInt32 <<< 16 ||| b.toUInt32 <<< 8 ||| c.toUInt32).toNat =
      a.toNat * 2 ^ 16 + b.toNat * 2 ^ 8 + c.toNat := by
  rw [toNat_or (k := 8), pack_two, UInt8.toNat_toUInt32]
  · rw [pack_two]
    omega
  · rw [UInt8.toNat_toUInt32]
    exact c.toNat_lt

theorem unpack_two (a b : UInt8) (hb : b.toNat < 64) :
    (a.toUInt32 <<< 18 ||| b.toUInt32 <<< 12).toNat = a.toNat * 2 ^ 18 + b.toNat * 2 ^ 12 := by
  have hshift : (a.toUInt32 <<< 18).toNat = a.toNat * 2 ^ 18 := toNat_shiftLeft a (by decide)
  have hshift' : (b.toUInt32 <<< 12).toNat = b.toNat * 2 ^ 12 := toNat_shiftLeft b (by decide)
  rw [toNat_or (k := 18), hshift, hshift']
  · rw [hshift]
    exact Nat.dvd_mul_left _ _
  · omega

theorem unpack_three (a b c : UInt8) (hb : b.toNat < 64) (hc : c.toNat < 64) :
    (a.toUInt32 <<< 18 ||| b.toUInt32 <<< 12 ||| c.toUInt32 <<< 6).toNat =
      a.toNat * 2 ^ 18 + b.toNat * 2 ^ 12 + c.toNat * 2 ^ 6 := by
  have hshift : (c.toUInt32 <<< 6).toNat = c.toNat * 2 ^ 6 := toNat_shiftLeft c (by decide)
  rw [toNat_or (k := 12), unpack_two a b hb, hshift]
  · rw [unpack_two a b hb]
    omega
  · omega

theorem unpack_four (a b c d : UInt8) (hb : b.toNat < 64) (hc : c.toNat < 64) (hd : d.toNat < 64) :
    (a.toUInt32 <<< 18 ||| b.toUInt32 <<< 12 ||| c.toUInt32 <<< 6 ||| d.toUInt32).toNat =
      a.toNat * 2 ^ 18 + b.toNat * 2 ^ 12 + c.toNat * 2 ^ 6 + d.toNat := by
  rw [toNat_or (k := 6), unpack_three a b c hb hc, UInt8.toNat_toUInt32]
  · rw [unpack_three a b c hb hc]
    omega
  · rw [UInt8.toNat_toUInt32]
    exact hd

theorem toNat_sextet (m : Nat) : (UInt8.ofNat (m % 64)).toNat = m % 64 := by
  refine UInt8.toNat_ofNat_of_lt' (Nat.lt_trans (Nat.mod_lt m ?_) ?_)
  · decide
  · decide

theorem toNat_shiftRight (n : UInt32) {k : UInt32} (hk : k.toNat < 32) :
    (n >>> k).toNat = n.toNat / 2 ^ k.toNat := by
  rw [UInt32.toNat_shiftRight, Nat.mod_eq_of_lt hk, Nat.shiftRight_eq_div_pow]

theorem byte_eq {n : UInt32} {b : UInt8} (h : n.toNat % 2 ^ 8 = b.toNat) : n.toUInt8 = b := by
  rw [← UInt8.toNat_inj, UInt32.toNat_toUInt8, h]

theorem shifted_byte_eq {n k : UInt32} {b : UInt8} (j : Nat) (hk : k.toNat = j) (hj : j < 32)
    (h : n.toNat / 2 ^ j % 2 ^ 8 = b.toNat) : (n >>> k).toUInt8 = b := by
  subst hk
  exact byte_eq (by rw [toNat_shiftRight n hj, h])

theorem base64Groups_four {n : UInt32} {rest out : List UInt8} (hn : n.toNat < 2 ^ 24)
    (hrest : base64Groups rest = some out) :
    base64Groups (base64Char (n >>> 18) :: base64Char (n >>> 12) :: base64Char (n >>> 6) ::
      base64Char n :: rest) =
      some ((n >>> 16).toUInt8 :: (n >>> 8).toUInt8 :: n.toUInt8 :: out) := by
  have hback : (UInt8.ofNat ((n >>> 18).toNat % 64)).toUInt32 <<< 18 |||
      (UInt8.ofNat ((n >>> 12).toNat % 64)).toUInt32 <<< 12 |||
      (UInt8.ofNat ((n >>> 6).toNat % 64)).toUInt32 <<< 6 |||
      (UInt8.ofNat (n.toNat % 64)).toUInt32 = n := by
    rw [← UInt32.toNat_inj, unpack_four]
    · simp only [toNat_sextet, toNat_shiftRight, UInt32.reduceToNat, Nat.reduceLT]
      omega
    all_goals
      rw [toNat_sextet]
      exact Nat.mod_lt _ (by decide)
  simp only [base64Groups, base64Val_base64Char, hrest, Option.bind_eq_bind, Option.bind_some, hback]
  rfl

theorem base64Groups_three {n : UInt32} (hn : n.toNat < 2 ^ 24) (hlow : n.toNat % 2 ^ 6 = 0) :
    base64Groups [base64Char (n >>> 18), base64Char (n >>> 12), base64Char (n >>> 6)] =
      some [(n >>> 16).toUInt8, (n >>> 8).toUInt8] := by
  have hback : (UInt8.ofNat ((n >>> 18).toNat % 64)).toUInt32 <<< 18 |||
      (UInt8.ofNat ((n >>> 12).toNat % 64)).toUInt32 <<< 12 |||
      (UInt8.ofNat ((n >>> 6).toNat % 64)).toUInt32 <<< 6 = n := by
    rw [← UInt32.toNat_inj, unpack_three]
    · simp only [toNat_sextet, toNat_shiftRight, UInt32.reduceToNat, Nat.reduceLT]
      omega
    all_goals
      rw [toNat_sextet]
      exact Nat.mod_lt _ (by decide)
  simp only [base64Groups, base64Val_base64Char, Option.bind_eq_bind, Option.bind_some, hback]
  rfl

theorem base64Groups_two {n : UInt32} (hn : n.toNat < 2 ^ 24) (hlow : n.toNat % 2 ^ 12 = 0) :
    base64Groups [base64Char (n >>> 18), base64Char (n >>> 12)] = some [(n >>> 16).toUInt8] := by
  have hback : (UInt8.ofNat ((n >>> 18).toNat % 64)).toUInt32 <<< 18 |||
      (UInt8.ofNat ((n >>> 12).toNat % 64)).toUInt32 <<< 12 = n := by
    rw [← UInt32.toNat_inj, unpack_two]
    · simp only [toNat_sextet, toNat_shiftRight, UInt32.reduceToNat, Nat.reduceLT]
      omega
    · rw [toNat_sextet]
      exact Nat.mod_lt _ (by decide)
  simp only [base64Groups, base64Val_base64Char, Option.bind_eq_bind, Option.bind_some, hback]
  rfl

theorem base64Groups_encode (input : List UInt8) :
    base64Groups (base64EncodeUnpadded input) = some input := by
  fun_induction base64EncodeUnpadded input with
  | case1 a b c rest n ih =>
    have hn : n.toNat = a.toNat * 2 ^ 16 + b.toNat * 2 ^ 8 + c.toNat := pack_three a b c
    have ha := a.toNat_lt
    have hb := b.toNat_lt
    have hc := c.toNat_lt
    have hfirst : (n >>> 16).toUInt8 = a := shifted_byte_eq 16 rfl (by decide) (by omega)
    have hsecond : (n >>> 8).toUInt8 = b := shifted_byte_eq 8 rfl (by decide) (by omega)
    have hthird : n.toUInt8 = c := byte_eq (by omega)
    rw [base64Groups_four (by omega) ih, hfirst, hsecond, hthird]
  | case2 a b n =>
    have hn : n.toNat = a.toNat * 2 ^ 16 + b.toNat * 2 ^ 8 := pack_two a b
    have ha := a.toNat_lt
    have hb := b.toNat_lt
    have hfirst : (n >>> 16).toUInt8 = a := shifted_byte_eq 16 rfl (by decide) (by omega)
    have hsecond : (n >>> 8).toUInt8 = b := shifted_byte_eq 8 rfl (by decide) (by omega)
    rw [base64Groups_three (by omega) (by omega), hfirst, hsecond]
  | case3 a n =>
    have hn : n.toNat = a.toNat * 2 ^ 16 := toNat_shiftLeft a (by decide)
    have ha := a.toNat_lt
    have hfirst : (n >>> 16).toUInt8 = a := shifted_byte_eq 16 rfl (by decide) (by omega)
    rw [base64Groups_two (by omega) (by omega), hfirst]
  | case4 => rfl

/-- Characters of the alphabet, not one over, and any padding. -/
def IsBase64 (s : List UInt8) : Prop :=
  ∃ body padding, s = body ++ List.replicate padding '='.toUInt8 ∧
    (∀ c ∈ body, c ∈ base64Chars.toList) ∧ body.length % 4 ≠ 1

theorem base64Groups_isSome_iff (s : List UInt8) :
    (base64Groups s).isSome ↔ (∀ c ∈ s, c ∈ base64Chars.toList) ∧ s.length % 4 ≠ 1 := by
  simp only [← base64Val_isSome_iff]
  fun_induction base64Groups s with
  | case1 a b c d rest ih =>
    have hlength : (a :: b :: c :: d :: rest).length % 4 = rest.length % 4 := Nat.add_mod_right _ 4
    rw [hlength]
    simp only [List.forall_mem_cons, and_assoc, ← ih]
    simp [Option.isSome_iff_exists, Option.bind_eq_some_iff]
  | case2 a b c => simp [Option.isSome_iff_exists, Option.bind_eq_some_iff]
  | case3 a b => simp [Option.isSome_iff_exists, Option.bind_eq_some_iff]
  | case4 a => simp
  | case5 => simp

theorem padding_not_mem : '='.toUInt8 ∉ base64Chars.toList := by
  rw [← base64Val_isSome_iff]
  decide

theorem rdropWhile_padding {body : List UInt8} (h : '='.toUInt8 ∉ body) (padding : Nat) :
    (body ++ List.replicate padding '='.toUInt8).rdropWhile (· == '='.toUInt8) = body := by
  induction padding with
  | zero =>
    rw [List.replicate_zero, List.append_nil, List.rdropWhile_eq_self_iff]
    intro hne heq
    rw [beq_iff_eq] at heq
    exact h (heq ▸ List.getLast_mem hne)
  | succ padding ih =>
    rw [List.replicate_succ', ← List.append_assoc, List.rdropWhile_concat,
      if_pos (beq_self_eq_true _), ih]

theorem base64Decode_padded {body : List UInt8} (h : ∀ c ∈ body, c ∈ base64Chars.toList) (padding : Nat) :
    base64Decode (body ++ List.replicate padding '='.toUInt8) = base64Groups body := by
  rw [base64Decode, rdropWhile_padding fun hmem => padding_not_mem (h _ hmem)]

theorem base64Decode_isSome_iff {s : List UInt8} : (base64Decode s).isSome ↔ IsBase64 s := by
  constructor
  · intro h
    have hparts := (base64Groups_isSome_iff _).mp h
    refine ⟨_, (s.rtakeWhile (· == '='.toUInt8)).length, ?_, hparts.1, hparts.2⟩
    have hpadding : s.rtakeWhile (· == '='.toUInt8) =
        List.replicate (s.rtakeWhile (· == '='.toUInt8)).length '='.toUInt8 := by
      refine List.eq_replicate_of_mem fun c hc => ?_
      have hpad := List.mem_rtakeWhile_imp hc
      exact beq_iff_eq.mp hpad
    rw [← hpadding]
    exact List.rdropWhile_append_rtakeWhile.symm
  · intro h
    obtain ⟨body, padding, rfl, hbody, hlength⟩ := h
    rw [base64Decode_padded hbody]
    exact (base64Groups_isSome_iff body).mpr ⟨hbody, hlength⟩

theorem base64Encode_eq (input : List UInt8) :
    ∃ padding, base64Encode input = base64EncodeUnpadded input ++ List.replicate padding '='.toUInt8 := by
  unfold base64Encode
  dsimp only
  split
  next => exact ⟨_, rfl⟩
  next => exact ⟨0, (List.append_nil _).symm⟩

theorem base64EncodeUnpadded_mem (input : List UInt8) :
    ∀ c ∈ base64EncodeUnpadded input, c ∈ base64Chars.toList := by
  refine ((base64Groups_isSome_iff _).mp ?_).1
  rw [base64Groups_encode]
  rfl

theorem base64Decode_encode (input : List UInt8) : base64Decode (base64Encode input) = some input := by
  obtain ⟨padding, hencode⟩ := base64Encode_eq input
  rw [hencode, base64Decode_padded (base64EncodeUnpadded_mem _), base64Groups_encode]

theorem length_base64EncodeUnpadded (input : List UInt8) :
    (base64EncodeUnpadded input).length = (input.length * 4 + 2) / 3 := by
  fun_induction base64EncodeUnpadded input with
  | case1 a b c rest n ih =>
    simp only [List.length_cons, ih]
    omega
  | case2 a b n => simp
  | case3 a n => simp
  | case4 => simp

theorem length_base64Encode (input : List UInt8) :
    (base64Encode input).length = ((base64EncodeUnpadded input).length + 3) / 4 * 4 := by
  unfold base64Encode
  dsimp only
  split
  next hrest =>
    rw [List.length_append, List.length_replicate]
    omega
  next hrest => omega

/-- Both encodings are read back. The one is as long as it has to be, and the other is filled up
to the next multiple of four. -/
theorem base64_round_trip (b : List UInt8) :
    base64Decode (base64Encode b) = some b ∧
    base64Decode (base64EncodeUnpadded b) = some b ∧
    IsLeast {m | 4 ∣ m ∧ (base64EncodeUnpadded b).length ≤ m} (base64Encode b).length ∧
    (base64EncodeUnpadded b).length = (4 * b.length) ⌈/⌉ 3 := by
  have hunpadded : base64Decode (base64EncodeUnpadded b) = some b := by
    have hnone := base64Decode_padded (base64EncodeUnpadded_mem b) 0
    rw [List.replicate_zero, List.append_nil] at hnone
    rw [hnone, base64Groups_encode]
  refine ⟨base64Decode_encode b, hunpadded, ⟨⟨?_, ?_⟩, ?_⟩, ?_⟩
  · rw [length_base64Encode]
    exact Nat.dvd_mul_left 4 _
  · rw [length_base64Encode]
    omega
  · intro m hm
    rw [length_base64Encode]
    have hdvd := hm.1
    have hle := hm.2
    omega
  · rw [length_base64EncodeUnpadded, Nat.ceilDiv_eq_add_pred_div, Nat.mul_comm]
    rfl

def trailingPadding (s : List UInt8) : Nat := (s.rtakeWhile (· == '='.toUInt8)).length

/-- No padding, or one or two characters that complete a group of four. -/
def CompletesGroup (body padding : Nat) : Prop := padding = 0 ∨ padding ≤ 2 ∧ 4 ∣ body + padding

instance (body padding : Nat) : Decidable (CompletesGroup body padding) :=
  inferInstanceAs (Decidable (_ ∨ _))

def DocumentedBase64 (s : List UInt8) : Prop :=
  ∃ body padding, s = body ++ List.replicate padding '='.toUInt8 ∧
    (∀ c ∈ body, c ∈ base64Chars.toList) ∧ body.length % 4 ≠ 1 ∧ CompletesGroup body.length padding

theorem trailingPadding_eq {body : List UInt8} (h : ∀ c ∈ body, c ∈ base64Chars.toList) (padding : Nat) :
    trailingPadding (body ++ List.replicate padding '='.toUInt8) = padding := by
  have hparts := congrArg List.length (List.rdropWhile_append_rtakeWhile
    (p := (· == '='.toUInt8)) (l := body ++ List.replicate padding '='.toUInt8))
  rw [List.length_append, rdropWhile_padding fun hmem => padding_not_mem (h _ hmem), List.length_append,
    List.length_replicate] at hparts
  exact Nat.add_left_cancel hparts

theorem documentedBase64_iff {s : List UInt8} :
    DocumentedBase64 s ↔ IsBase64 s ∧ CompletesGroup (s.length - trailingPadding s) (trailingPadding s) := by
  constructor
  · intro h
    obtain ⟨body, padding, rfl, hbody, hlength, hpadding⟩ := h
    refine ⟨⟨body, padding, rfl, hbody, hlength⟩, ?_⟩
    rw [trailingPadding_eq hbody, List.length_append, List.length_replicate, Nat.add_sub_cancel]
    exact hpadding
  · intro h
    obtain ⟨⟨body, padding, rfl, hbody, hlength⟩, hpadding⟩ := h
    rw [trailingPadding_eq hbody, List.length_append, List.length_replicate, Nat.add_sub_cancel] at hpadding
    exact ⟨body, padding, rfl, hbody, hlength, hpadding⟩

/-- Any padding is accepted, so that the documented strings are those that are accepted only where
the padding is none or completes a group. -/
theorem base64Decode_language (s : List UInt8) :
    ((base64Decode s).isSome ↔ IsBase64 s) ∧
    (((base64Decode s).isSome ↔ DocumentedBase64 s) ↔
      (IsBase64 s → CompletesGroup (s.length - trailingPadding s) (trailingPadding s))) := by
  refine ⟨base64Decode_isSome_iff, ?_⟩
  rw [base64Decode_isSome_iff, documentedBase64_iff]
  exact iff_self_and

/-- Three padding characters after two others. -/
theorem base64Decode_overpadded :
    base64Decode (ascii "QQ===") = some (ascii "A") ∧ ¬ DocumentedBase64 (ascii "QQ===") := by
  refine ⟨by decide +kernel, ?_⟩
  intro h
  have hpadding := (documentedBase64_iff.mp h).2
  revert hpadding
  decide +kernel

end CrapOs
