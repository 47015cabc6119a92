import Mathlib.Data.List.Basic

/-! # Strings in blocks

A string is cut into blocks of one length; what is left over at the end is not a block.
-/

namespace Foundation

variable {α : Type}

def chunksExact (n : Nat) (l : List α) : List (List α) :=
  if 0 < n ∧ n ≤ l.length then l.take n :: chunksExact n (l.drop n) else []
termination_by l.length
decreasing_by
  rw [List.length_drop]
  omega

end Foundation
