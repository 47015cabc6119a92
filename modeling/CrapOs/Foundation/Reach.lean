import Mathlib.Data.List.Basic

/-! # Reachable states and invariants

The states a system can be in after any finite number of steps, and the one
induction every safety argument uses.
-/

namespace Foundation

inductive Reach {σ : Type} (start : σ → Prop) (step : σ → σ → Prop) : σ → Prop
  | start {s : σ} : start s → Reach start step s
  | step {s s' : σ} : Reach start step s → step s s' → Reach start step s'

variable {σ : Type} {start : σ → Prop} {step : σ → σ → Prop}

theorem Reach.invariant (inv : σ → Prop) (hstart : ∀ s, start s → inv s)
    (hstep : ∀ s s', inv s → step s s' → inv s') {s : σ} (h : Reach start step s) : inv s := by
  induction h with
  | start hs => exact hstart _ hs
  | step _ hs ih => exact hstep _ _ ih hs

section Runs

variable {ε : Type} (exec : σ → ε → Option σ)

/-- The state after a list of events, each of which must be possible. -/
def runEvents : σ → List ε → Option σ
  | s, [] => some s
  | s, e :: rest => (exec s e).bind (runEvents · rest)

variable {exec}

theorem Reach.runEvents (hexec : ∀ s e s', exec s e = some s' → step s s') {es : List ε} {s s' : σ}
    (h : Reach start step s) (hrun : Foundation.runEvents exec s es = some s') :
    Reach start step s' := by
  induction es generalizing s with
  | nil =>
    cases hrun
    exact h
  | cons e rest ih =>
    obtain ⟨s1, hexec1, hrest⟩ := Option.bind_eq_some_iff.mp hrun
    exact ih (.step h (hexec s e s1 hexec1)) hrest

theorem Reach.exists_run (hexec : ∀ s e s', exec s e = some s' → step s s') {s : σ} (hs : start s)
    (es : List ε) (q : σ → Prop) [DecidablePred q]
    (h : (Foundation.runEvents exec s es).any (fun s => decide (q s)) = true) :
    ∃ s', Reach start step s' ∧ q s' := by
  cases hrun : Foundation.runEvents exec s es with
  | none =>
    rw [hrun] at h
    cases h
  | some s' =>
    rw [hrun] at h
    exact ⟨s', Reach.runEvents hexec (.start hs) hrun, of_decide_eq_true h⟩

end Runs

end Foundation
