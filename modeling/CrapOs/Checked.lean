import CrapOs.Globals

/-! # Operations that can panic

Division by zero and an index past the end stop the kernel. So does a subtraction
below zero where overflow is checked; a build without the check would go on with a
wrapped number, so that neither may happen.
-/

namespace CrapOs.Checked

def sub (a b : Nat) : Except Halt Nat :=
  if b ≤ a then .ok (a - b) else .error (.panic "attempt to subtract with overflow")

def div (a b : Nat) : Except Halt Nat :=
  if b = 0 then .error (.panic "attempt to divide by zero") else .ok (a / b)

def rem (a b : Nat) : Except Halt Nat :=
  if b = 0 then .error (.panic "attempt to calculate the remainder with a divisor of zero")
  else .ok (a % b)

def get {α : Type} (xs : Array α) (i : Nat) : Except Halt α :=
  match xs[i]? with
  | some x => .ok x
  | none => .error (.panic "index out of bounds")

def set {α : Type} (xs : Array α) (i : Nat) (x : α) : Except Halt (Array α) :=
  if i < xs.size then .ok (xs.setIfInBounds i x) else .error (.panic "index out of bounds")

variable {a b i : Nat} {α : Type}

theorem sub_ok (h : b ≤ a) : sub a b = .ok (a - b) := if_pos h

theorem div_ok (h : b ≠ 0) : div a b = .ok (a / b) := if_neg h

theorem rem_ok (h : b ≠ 0) : rem a b = .ok (a % b) := if_neg h

theorem get_ok {xs : Array α} (h : i < xs.size) : get xs i = .ok xs[i] := by
  rw [get, Array.getElem?_eq_getElem h]

theorem set_ok {xs : Array α} (x : α) (h : i < xs.size) :
    set xs i x = .ok (xs.setIfInBounds i x) :=
  if_pos h

theorem set_error {xs : Array α} (x : α) (h : ¬ i < xs.size) :
    set xs i x = .error (.panic "index out of bounds") :=
  if_neg h

theorem bind_of_ok {β : Type} {x : Except Halt α} {a : α} {f : α → Except Halt β} (h : x = .ok a) :
    (x >>= f) = f a := by
  rw [h]
  rfl

theorem bind_of_error {β : Type} {x : Except Halt α} {e : Halt} {f : α → Except Halt β}
    (h : x = .error e) : (x >>= f) = .error e := by
  rw [h]
  rfl

/-- No panic, and a result as described. -/
def Returns {α : Type} (x : Except Halt α) (P : α → Prop) : Prop := ∃ a, x = .ok a ∧ P a

namespace Returns

variable {α β σ : Type} {P : α → Prop} {Q : β → Prop}

theorem of_eq {x : Except Halt α} {a : α} (h : x = .ok a) (ha : P a) : Returns x P := ⟨a, h, ha⟩

theorem bind {x : Except Halt α} {f : α → Except Halt β} (hx : Returns x P)
    (hf : ∀ a, P a → Returns (f a) Q) : Returns (x >>= f) Q := by
  obtain ⟨a, rfl, ha⟩ := hx
  exact hf a ha

theorem next {x : Except Halt α} {a : α} {f : α → Except Halt β} (hx : x = .ok a)
    (hf : Returns (f a) Q) : Returns (x >>= f) Q := by
  rw [hx]
  exact hf

theorem foldlM {f : σ → α → Except Halt σ} {l : List α} {I : σ → Prop} {s : σ} (hs : I s)
    (hstep : ∀ s a, a ∈ l → I s → Returns (f s a) I) : Returns (l.foldlM f s) I := by
  induction l generalizing s with
  | nil => exact of_eq rfl hs
  | cons a l ih =>
    refine bind (hstep s a List.mem_cons_self hs) fun s1 hs1 => ?_
    exact ih hs1 fun s b hb => hstep s b (List.mem_cons_of_mem a hb)

end Returns

def Panics {α : Type} (x : Except Halt α) : Prop := ∃ message, x = .error (.panic message)

namespace Panics

variable {α β : Type} {P : α → Prop}

theorem bind {x : Except Halt α} (hx : Panics x) (f : α → Except Halt β) : Panics (x >>= f) := by
  obtain ⟨message, rfl⟩ := hx
  exact ⟨message, rfl⟩

theorem not_returns {x : Except Halt α} (hx : Panics x) : ¬ Returns x P := by
  intro hreturns
  obtain ⟨message, rfl⟩ := hx
  obtain ⟨a, ha, -⟩ := hreturns
  cases ha

end Panics

end CrapOs.Checked
