import Mathlib.Algebra.Order.Floor.Div
import Mathlib.Data.FinEnum
import Mathlib.GroupTheory.GroupAction.Ring
import CrapOs.Checked
import CrapOs.Foundation.AsciiText
import CrapOs.Foundation.ByteStrings

/-! # Hexadecimal

Bytes are written with two digits each after `0x`. The decoder takes digits of both
cases, with the prefix or without it; a first digit without a partner is a byte of
its own.
-/

namespace CrapOs

open Foundation

def hexCharsUpper : Vector UInt8 16 := fixedBytes 16 (ascii "0123456789ABCDEF")

/-- `HEX_CHARS_UPPER[n as usize]`, which is called for nibbles only. -/
def hexChar (n : UInt8) : UInt8 := hexCharsUpper.toList.getD n.toNat 0

def hexPair (byte : UInt8) : List UInt8 := [hexChar (byte >>> 4), hexChar (byte &&& 0xF)]

def bytesToHex (bytes : List UInt8) : List UInt8 := ascii "0x" ++ bytes.flatMap hexPair

def hexNibble (byte : UInt8) : Option UInt8 :=
  if '0'.toUInt8 ≤ byte ∧ byte ≤ '9'.toUInt8 then some (byte - '0'.toUInt8)
  else if 'a'.toUInt8 ≤ byte ∧ byte ≤ 'f'.toUInt8 then some (byte - 'a'.toUInt8 + 10)
  else if 'A'.toUInt8 ≤ byte ∧ byte ≤ 'F'.toUInt8 then some (byte - 'A'.toUInt8 + 10)
  else none

/-- The loop of `hex_to_bytes`, from one of its indices on. -/
def hexPairs : List UInt8 → Except Halt (Option (List UInt8))
  | [] => .ok (some [])
  | first :: rest =>
    match hexNibble first with
    | none => .ok none
    | some high =>
      match rest with
      | [] => .error (.panic "index out of bounds")
      | second :: rest =>
        match hexNibble second with
        | none => .ok none
        | some low => do
          let bytes ← hexPairs rest
          return bytes.map fun bytes => ((high <<< 4) ||| low) :: bytes

def stripPrefix (hex : List UInt8) : List UInt8 :=
  if (ascii "0x").isPrefixOf hex ∨ (ascii "0X").isPrefixOf hex then hex.drop 2 else hex

def hexToBytes (hex : List UInt8) : Except Halt (Option (List UInt8)) :=
  match stripPrefix hex with
  | [] => .ok none
  | first :: rest =>
    if (first :: rest).length % 2 ≠ 0 then
      match hexNibble first with
      | none => .ok none
      | some nibble => do
        let bytes ← hexPairs rest
        return bytes.map fun bytes => nibble :: bytes
    else hexPairs (first :: rest)

theorem hexNibble_eq (b : UInt8) :
    hexNibble b = if b ∈ hexDigits then some (UInt8.ofNat (hexDigitValue b)) else none := by
  have hall : ∀ i : Fin 256, hexNibble (UInt8.ofNat i) =
      if UInt8.ofNat i ∈ hexDigits then some (UInt8.ofNat (hexDigitValue (UInt8.ofNat i))) else none := by
    decide +kernel
  have hb := hall ⟨b.toNat, b.toNat_lt⟩
  rw [UInt8.ofNat_toNat] at hb
  exact hb

theorem not_mem_of_hexNibble {b : UInt8} (h : hexNibble b = none) : b ∉ hexDigits := by
  intro hmem
  rw [hexNibble_eq, if_pos hmem] at h
  cases h

theorem of_hexNibble {b n : UInt8} (h : hexNibble b = some n) :
    b ∈ hexDigits ∧ n = UInt8.ofNat (hexDigitValue b) := by
  rw [hexNibble_eq] at h
  split at h
  next hmem => exact ⟨hmem, (Option.some.inj h).symm⟩
  next => cases h

theorem nibbles_eq {m n : Nat} (hm : m < 16) (hn : n < 16) :
    (UInt8.ofNat m <<< 4) ||| UInt8.ofNat n = UInt8.ofNat (m * 16 + n) := by
  have hall : ∀ i j : Fin 16, (UInt8.ofNat i <<< 4) ||| UInt8.ofNat j = UInt8.ofNat (i * 16 + j) := by
    decide +kernel
  exact hall ⟨m, hm⟩ ⟨n, hn⟩

theorem hexValue_pair (first second : UInt8) (rest : List UInt8) :
    hexValue (first :: second :: rest) =
      (hexDigitValue first * 16 + hexDigitValue second) * 16 ^ rest.length + hexValue rest := by
  rw [hexValue_cons, hexValue_cons, List.length_cons, Nat.pow_succ', Nat.add_mul, Nat.mul_assoc,
    Nat.add_assoc]

theorem beBytes_hexValue (first second : UInt8) {rest : List UInt8} (hrest : ∀ b ∈ rest, b ∈ hexDigits)
    (heven : rest.length % 2 = 0) :
    beBytes (rest.length / 2 + 1) (hexValue (first :: second :: rest)) =
      UInt8.ofNat (hexDigitValue first * 16 + hexDigitValue second) ::
        beBytes (rest.length / 2) (hexValue rest) := by
  have hpow : 16 ^ rest.length = 256 ^ (rest.length / 2) := by
    rw [show 256 = 16 ^ 2 from rfl, ← Nat.pow_mul, Nat.mul_div_cancel' (Nat.dvd_of_mod_eq_zero heven)]
  have hlt := hexValue_lt hrest
  rw [hpow] at hlt
  rw [hexValue_pair, hpow, beBytes, beBytes_add_mul _ _ (Nat.le_refl _), Nat.mul_comm,
    Nat.mul_add_div (Nat.pow_pos (by decide)), Nat.div_eq_of_lt hlt, Nat.add_zero]

/-- With an even number of digits the loop never looks past the end. -/
theorem hexPairs_eq {s : List UInt8} (heven : s.length % 2 = 0) :
    hexPairs s =
      .ok (if ∀ b ∈ s, b ∈ hexDigits then some (beBytes (s.length / 2) (hexValue s)) else none) := by
  fun_induction hexPairs s with
  | case1 => simp [beBytes]
  | case2 first rest hfirst => rw [if_neg fun h => not_mem_of_hexNibble hfirst (h first List.mem_cons_self)]
  | case3 first high hfirst => cases heven
  | case4 first high hfirst second rest hsecond =>
    rw [if_neg fun h => not_mem_of_hexNibble hsecond (h second (by simp))]
  | case5 first high hfirst second rest low hsecond ih =>
    have heven' : rest.length % 2 = 0 := by
      rw [List.length_cons, List.length_cons] at heven
      omega
    have hlength : (first :: second :: rest).length / 2 = rest.length / 2 + 1 := by
      rw [List.length_cons, List.length_cons]
      omega
    obtain ⟨hmem, rfl⟩ := of_hexNibble hfirst
    obtain ⟨hmem', rfl⟩ := of_hexNibble hsecond
    rw [ih heven', nibbles_eq (hexDigitValue_lt hmem) (hexDigitValue_lt hmem'), hlength]
    by_cases hrest : ∀ b ∈ rest, b ∈ hexDigits
    · rw [if_pos hrest, if_pos, beBytes_hexValue first second hrest heven']
      · rfl
      · intro b hb
        simp only [List.mem_cons] at hb
        rcases hb with rfl | rfl | hb
        · exact hmem
        · exact hmem'
        · exact hrest b hb
    · rw [if_neg hrest, if_neg]
      · rfl
      · intro h
        exact hrest fun b hb => h b (by simp [hb])

theorem hexPairs_zero (first : UInt8) (rest : List UInt8) :
    hexPairs ('0'.toUInt8 :: first :: rest) =
      match hexNibble first with
      | none => .ok none
      | some nibble => do
        let bytes ← hexPairs rest
        return bytes.map fun bytes => nibble :: bytes := by
  have hzero : hexNibble '0'.toUInt8 = some 0 := by decide
  have hshift (nibble : UInt8) : ((0 : UInt8) <<< 4) ||| nibble = nibble := UInt8.zero_or
  simp only [hexPairs, hzero, hshift]

def evenDigits (digits : List UInt8) : List UInt8 :=
  if digits.length % 2 ≠ 0 then '0'.toUInt8 :: digits else digits

theorem hexToBytes_of_nonempty {s : List UInt8} (hne : stripPrefix s ≠ []) :
    hexToBytes s = hexPairs (evenDigits (stripPrefix s)) := by
  unfold hexToBytes evenDigits
  generalize stripPrefix s = digits at hne
  cases digits with
  | nil => exact absurd rfl hne
  | cons first rest =>
    dsimp only
    split
    next => rw [hexPairs_zero]
    next => rfl

theorem length_evenDigits (digits : List UInt8) :
    (evenDigits digits).length % 2 = 0 ∧ (evenDigits digits).length / 2 = digits.length ⌈/⌉ 2 := by
  rw [Nat.ceilDiv_eq_add_pred_div]
  unfold evenDigits
  split
  next hodd =>
    rw [List.length_cons]
    omega
  next heven => omega

theorem evenDigits_mem {digits : List UInt8} :
    (∀ b ∈ evenDigits digits, b ∈ hexDigits) ↔ ∀ b ∈ digits, b ∈ hexDigits := by
  have hzero : '0'.toUInt8 ∈ hexDigits := by decide
  unfold evenDigits
  split
  next => simp only [List.forall_mem_cons, hzero, true_and]
  next => exact Iff.rfl

theorem hexValue_evenDigits (digits : List UInt8) : hexValue (evenDigits digits) = hexValue digits := by
  have hzero : hexDigitValue '0'.toUInt8 = 0 := by decide
  unfold evenDigits
  split
  next => rw [hexValue_cons, hzero, Nat.zero_mul, Nat.zero_add]
  next => rfl

theorem hexToBytes_eq (s : List UInt8) :
    hexToBytes s =
      .ok (if stripPrefix s ≠ [] ∧ ∀ b ∈ stripPrefix s, b ∈ hexDigits then
        some (beBytes ((stripPrefix s).length ⌈/⌉ 2) (hexValue (stripPrefix s))) else none) := by
  by_cases hne : stripPrefix s = []
  · rw [if_neg fun h => h.1 hne, hexToBytes, hne]
  · obtain ⟨heven, hlength⟩ := length_evenDigits (stripPrefix s)
    rw [hexToBytes_of_nonempty hne, hexPairs_eq heven, hlength, hexValue_evenDigits]
    simp only [evenDigits_mem, ne_eq, hne, not_false_eq_true, true_and]

example : hexToBytes (ascii "0xF") = .ok (some [15]) := by decide +kernel

theorem hexToBytes_eq_some_iff {s v : List UInt8} :
    hexToBytes s = .ok (some v) ↔
      Hexadecimal (stripPrefix s) (natOfBe v) ∧ v.length = (stripPrefix s).length ⌈/⌉ 2 := by
  rw [hexToBytes_eq, Except.ok.injEq]
  generalize stripPrefix s = digits
  by_cases hdigits : digits ≠ [] ∧ ∀ b ∈ digits, b ∈ hexDigits
  · have hpow : 16 ^ digits.length ≤ 256 ^ (digits.length ⌈/⌉ 2) := by
      rw [show 256 = 16 ^ 2 from rfl, ← Nat.pow_mul, Nat.ceilDiv_eq_add_pred_div]
      exact Nat.pow_le_pow_right (by decide) (by omega)
    have hlt := Nat.lt_of_lt_of_le (hexValue_lt hdigits.2) hpow
    rw [if_pos hdigits, Option.some.injEq, eq_comm, eq_beBytes_iff hlt]
    constructor
    · intro h
      exact ⟨⟨hdigits.1, hdigits.2, h.2.symm⟩, h.1⟩
    · intro h
      exact ⟨h.2, h.1.value.symm⟩
  · rw [if_neg hdigits]
    constructor
    · intro h
      cases h
    · intro h
      exact absurd ⟨h.1.nonempty, h.1.digits⟩ hdigits

theorem stripPrefix_bytesToHex (b : List UInt8) : stripPrefix (bytesToHex b) = b.flatMap hexPair := by
  unfold stripPrefix bytesToHex
  rfl

theorem hexChar_byte (b : UInt8) :
    hexChar (b >>> 4) ∈ hexDigits ∧ hexChar (b &&& 0xF) ∈ hexDigits ∧
      hexDigitValue (hexChar (b >>> 4)) * 16 + hexDigitValue (hexChar (b &&& 0xF)) = b.toNat := by
  have hall : ∀ i : Fin 256, hexChar (UInt8.ofNat i >>> 4) ∈ hexDigits ∧
      hexChar (UInt8.ofNat i &&& 0xF) ∈ hexDigits ∧
      hexDigitValue (hexChar (UInt8.ofNat i >>> 4)) * 16 + hexDigitValue (hexChar (UInt8.ofNat i &&& 0xF)) =
        (UInt8.ofNat i).toNat := by
    decide +kernel
  have hb := hall ⟨b.toNat, b.toNat_lt⟩
  rw [UInt8.ofNat_toNat] at hb
  exact hb

theorem length_flatMap_hexPair (b : List UInt8) : (b.flatMap hexPair).length = 2 * b.length := by
  induction b with
  | nil => rfl
  | cons byte b ih =>
    rw [List.flatMap_cons, List.length_append, ih, List.length_cons]
    simp only [hexPair, List.length_cons, List.length_nil]
    omega

theorem flatMap_hexPair_mem {b : List UInt8} : ∀ c ∈ b.flatMap hexPair, c ∈ hexDigits := by
  intro c hc
  obtain ⟨byte, -, hbyte⟩ := List.mem_flatMap.mp hc
  obtain ⟨hhigh, hlow, -⟩ := hexChar_byte byte
  rcases List.mem_pair.mp hbyte with rfl | rfl
  · exact hhigh
  · exact hlow

theorem hexValue_flatMap_hexPair (b : List UInt8) : hexValue (b.flatMap hexPair) = natOfBe b := by
  induction b with
  | nil => rfl
  | cons byte b ih =>
    have hpow : 16 ^ (b.flatMap hexPair).length = 256 ^ b.length := by
      rw [length_flatMap_hexPair, Nat.pow_mul]
    refine (hexValue_pair _ _ (b.flatMap hexPair)).trans ?_
    rw [(hexChar_byte byte).2.2, hpow, ih, natOfBe_cons]

/-- Exactly the numerals are decoded, to the bytes of their value, and what was written is read
back unless there is nothing to write. The loop never looks past the end of the string. -/
theorem hexToBytes_numeral :
    (∀ s, ∃ result, hexToBytes s = .ok result) ∧
    (∀ s v, hexToBytes s = .ok (some v) ↔
      Hexadecimal (stripPrefix s) (natOfBe v) ∧ v.length = (stripPrefix s).length ⌈/⌉ 2) ∧
    ∀ first rest, hexToBytes (bytesToHex (first :: rest)) = .ok (some (first :: rest)) := by
  refine ⟨fun s => ⟨_, hexToBytes_eq s⟩, fun s v => hexToBytes_eq_some_iff, fun first rest => ?_⟩
  rw [hexToBytes_eq_some_iff, stripPrefix_bytesToHex, length_flatMap_hexPair, Nat.ceilDiv_eq_add_pred_div]
  refine ⟨⟨?_, flatMap_hexPair_mem, hexValue_flatMap_hexPair _⟩, by omega⟩
  exact List.cons_ne_nil _ _

end CrapOs
