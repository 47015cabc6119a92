import Mathlib.Algebra.Order.Ring.Nat
import Mathlib.Data.List.Basic

/-! # Text in ASCII

Text is a list of bytes. Here are the two things a text format is made of: fields
between separators, and numbers in decimal.
-/

namespace Foundation

def ascii (s : String) : List UInt8 := s.toList.map Char.toUInt8

theorem not_mem_of_mem_splitOn {a : UInt8} {s l : List UInt8} (hl : l ∈ s.splitOn a) : a ∉ l := by
  induction s generalizing l with
  | nil =>
    rw [List.splitOn_nil, List.mem_singleton] at hl
    rw [hl]
    exact List.not_mem_nil
  | cons x s ih =>
    rw [List.splitOn_cons_eq_if_modifyHead] at hl
    split at hl
    next =>
      cases hl with
      | head => exact List.not_mem_nil
      | tail _ hl => exact ih hl
    next hx =>
      cases hs : s.splitOn a with
      | nil => exact absurd hs (List.splitOn_ne_nil a s)
      | cons f fs =>
        rw [hs] at ih hl
        cases hl with
        | head =>
          intro hmem
          cases hmem with
          | head => exact hx (beq_self_eq_true a)
          | tail _ hmem => exact ih (List.mem_cons_self) hmem
        | tail _ hl => exact ih (List.mem_cons_of_mem f hl)

theorem splitOn_eq_iff {a : UInt8} {s : List UInt8} {fields : List (List UInt8)} :
    s.splitOn a = fields ↔
      fields ≠ [] ∧ (∀ l ∈ fields, a ∉ l) ∧ s = [a].intercalate fields := by
  constructor
  · intro h
    subst h
    exact ⟨List.splitOn_ne_nil a s, fun l => not_mem_of_mem_splitOn, (List.intercalate_splitOn a).symm⟩
  · intro h
    rw [h.2.2, List.splitOn_intercalate a h.2.1 h.1]

def IsDigit (b : UInt8) : Prop := '0'.toUInt8 ≤ b ∧ b ≤ '9'.toUInt8

def addDigit (n : Nat) (b : UInt8) : Nat := n * 10 + (b.toNat - 48)

def decimalValue (s : List UInt8) : Nat := s.foldl addDigit 0

/-- The text is the number in decimal, perhaps with zeros in front. -/
structure Decimal (s : List UInt8) (n : Nat) : Prop where
  nonempty : s ≠ []
  digits : ∀ b ∈ s, IsDigit b
  value : decimalValue s = n

theorem decimalValue_concat (s : List UInt8) (b : UInt8) :
    decimalValue (s ++ [b]) = addDigit (decimalValue s) b := by
  rw [decimalValue, List.foldl_append]
  rfl

theorem le_foldl_addDigit (s : List UInt8) (n : Nat) : n ≤ s.foldl addDigit n := by
  induction s generalizing n with
  | nil => exact Nat.le_refl n
  | cons b s ih =>
    have hn : n ≤ addDigit n b := by
      unfold addDigit
      omega
    exact Nat.le_trans hn (ih _)

def hexDigits : List UInt8 := ascii "0123456789abcdefABCDEF"

def hexDigitValue (b : UInt8) : Nat :=
  let place := hexDigits.idxOf b
  if place < 16 then place else place - 6

def addHexDigit (n : Nat) (b : UInt8) : Nat := n * 16 + hexDigitValue b

def hexValue (s : List UInt8) : Nat := s.foldl addHexDigit 0

/-- The text is the number in hexadecimal, perhaps with zeros in front. -/
structure Hexadecimal (s : List UInt8) (n : Nat) : Prop where
  nonempty : s ≠ []
  digits : ∀ b ∈ s, b ∈ hexDigits
  value : hexValue s = n

theorem foldl_addHexDigit (s : List UInt8) (n : Nat) :
    s.foldl addHexDigit n = n * 16 ^ s.length + hexValue s := by
  unfold hexValue
  induction s generalizing n with
  | nil => simp
  | cons b s ih =>
    rw [List.foldl_cons, List.foldl_cons, List.length_cons, ih, ih (addHexDigit 0 b), Nat.pow_succ']
    unfold addHexDigit
    rw [Nat.add_mul, Nat.mul_assoc, Nat.zero_mul, Nat.zero_add, Nat.add_assoc]

theorem hexValue_cons (b : UInt8) (s : List UInt8) :
    hexValue (b :: s) = hexDigitValue b * 16 ^ s.length + hexValue s := by
  refine (foldl_addHexDigit s (addHexDigit 0 b)).trans ?_
  rw [addHexDigit, Nat.zero_mul, Nat.zero_add]

theorem hexDigitValue_lt {b : UInt8} (h : b ∈ hexDigits) : hexDigitValue b < 16 := by
  revert b
  decide +kernel

theorem hexValue_lt {s : List UInt8} (h : ∀ b ∈ s, b ∈ hexDigits) : hexValue s < 16 ^ s.length := by
  induction s with
  | nil => simp [hexValue]
  | cons b s ih =>
    have hdigit := hexDigitValue_lt (h b List.mem_cons_self)
    have hrest := ih fun c hc => h c (List.mem_cons_of_mem b hc)
    have hle : (hexDigitValue b + 1) * 16 ^ s.length ≤ 16 * 16 ^ s.length := Nat.mul_le_mul_right _ hdigit
    rw [hexValue_cons, List.length_cons, Nat.pow_succ']
    rw [Nat.succ_mul] at hle
    omega

end Foundation
