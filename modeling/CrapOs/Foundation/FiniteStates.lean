import Mathlib.Data.Finite.Prod

/-! # States of finitely many values

A loop on such a state reaches every state if no step of it makes two states one.
-/

namespace Foundation

variable {α σ : Type}

theorem foldl_injective {f : σ → α → σ} {l : List α} (h : ∀ a ∈ l, Function.Injective fun s => f s a) :
    Function.Injective fun s => l.foldl f s := by
  induction l with
  | nil => exact Function.injective_id
  | cons a l ih =>
    have hrest := ih fun b hb => h b (List.mem_cons_of_mem a hb)
    exact hrest.comp (h a List.mem_cons_self)

instance finite_vector {n : Nat} [Finite α] : Finite (Vector α n) :=
  Finite.of_injective (fun v : Vector α n => v.get) fun _ _ h => Vector.ext fun i hi => congrFun h ⟨i, hi⟩

end Foundation
