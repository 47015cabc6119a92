import Mathlib.Data.Fintype.Pi
import CrapOs.Foundation.Reach

/-! # The interrupt-safe spin lock

One lock, any number of processors `C` and any number of contexts `K`: tasks and
activations of interrupt handlers. A processor executes one context at a time.
Every event is one atomic step of the code, so that runs are interleavings.

The guard of the lock is dropped in three steps. `drop` calls `drop_in_place` on the
inner guard, which stores `false`, and restores the interrupt flag; after its body
the inner guard is dropped once more, as every field is, and stores `false` again.
-/

namespace CrapOs

open Foundation

/-- Where a context is in the code of the lock; `flags` is the interrupt flag it saved. -/
inductive LockPhase where
  | outside
  /-- in `lock`, before the compare-and-exchange -/
  | locking (flags : Bool)
  /-- in `lock`, in the inner loop that waits until the lock looks free -/
  | spinning (flags : Bool)
  /-- in `try_lock`, before the compare-and-exchange -/
  | trying (flags : Bool)
  /-- in `try_lock`, which has found the lock taken -/
  | refused (flags : Bool)
  /-- has the guard -/
  | holding (flags : Bool)
  /-- in `drop`, after `drop_in_place` -/
  | released (flags : Bool)
  /-- after the body of `drop`, before the field is dropped -/
  | restored
deriving DecidableEq, Repr

structure IrqSpinLock (C K : Type) where
  locked : Bool
  phase : K → LockPhase
  executing : C → K
  interrupts : C → Bool

inductive LockEvent (C K : Type) where
  /-- `disable_interrupts_save` at the beginning of `lock` -/
  | lock (c : C)
  /-- `disable_interrupts_save` at the beginning of `try_lock` -/
  | tryLock (c : C)
  | compareExchange (c : C)
  /-- the load in the inner loop -/
  | load (c : C)
  /-- `restore_interrupts` where `try_lock` has failed -/
  | refuse (c : C)
  | dropInPlace (c : C)
  /-- `restore_interrupts` in `drop` -/
  | restoreInterrupts (c : C)
  | dropField (c : C)
  /-- an interrupt, handled by the context `k` -/
  | interrupt (c : C) (k : K)
  /-- a return from an interrupt or a task switch -/
  | resume (c : C) (k : K) (flags : Bool)

namespace IrqSpinLock

variable {C K : Type} {s s' : IrqSpinLock C K} {e : LockEvent C K} {c : C} {phase : LockPhase}

def Suspended (s : IrqSpinLock C K) (k : K) : Prop := ∀ c, s.executing c ≠ k

/-- A context gives the processor up in an interrupt, if interrupts are on, and otherwise only
in code outside the lock. -/
def Enabled (s : IrqSpinLock C K) : LockEvent C K → Prop
  | .interrupt c k => s.interrupts c = true ∧ s.phase k = .outside ∧ s.Suspended k
  | .resume c k _ => s.phase (s.executing c) = .outside ∧ s.Suspended k
  | _ => True

def Initial (s : IrqSpinLock C K) : Prop :=
  s.locked = false ∧ (∀ k, s.phase k = .outside) ∧ Function.Injective s.executing

def Alive (s : IrqSpinLock C K) (k : K) : Prop := ∃ flags, s.phase k = .holding flags

/-- When a guard stores `false` for the second time no guard is alive. -/
def SecondStoreHarmless (s : IrqSpinLock C K) : LockEvent C K → Prop
  | .dropField _ => ∀ k, ¬ s.Alive k
  | _ => True

/-- The lock is taken while a guard is alive, and there is one guard at most. -/
structure Exclusive (s : IrqSpinLock C K) : Prop where
  taken : ∀ k, s.Alive k → s.locked = true
  unique : ∀ k k', s.Alive k → s.Alive k' → k = k'

theorem Exclusive.of_initial (h : Initial s) : Exclusive s := by
  have hnone : ∀ k, ¬ s.Alive k := by
    rintro k ⟨flags, hheld⟩
    rw [h.2.1 k] at hheld
    cases hheld
  exact ⟨fun k hk => absurd hk (hnone k), fun k _ hk => absurd hk (hnone k)⟩

variable [DecidableEq K]

def moveTo (s : IrqSpinLock C K) (c : C) (phase : LockPhase) : IrqSpinLock C K :=
  { s with phase := Function.update s.phase (s.executing c) phase }

theorem alive_moveTo {k : K} : (s.moveTo c phase).Alive k ↔
    if k = s.executing c then ∃ flags, phase = .holding flags else s.Alive k := by
  by_cases hk : k = s.executing c
  · subst hk
    simp [Alive, moveTo]
  · simp [Alive, moveTo, hk]

theorem alive_moveTo_of_not (hbefore : ¬ s.Alive (s.executing c))
    (hafter : ∀ flags, phase ≠ .holding flags) (k : K) : (s.moveTo c phase).Alive k ↔ s.Alive k := by
  rw [alive_moveTo]
  split
  · rename_i hk
    subst hk
    exact ⟨fun ⟨flags, hphase⟩ => absurd hphase (hafter flags), fun h => absurd h hbefore⟩
  · exact Iff.rfl

variable [DecidableEq C]

def setInterrupts (s : IrqSpinLock C K) (c : C) (flag : Bool) : IrqSpinLock C K :=
  { s with interrupts := Function.update s.interrupts c flag }

/-- One atomic step; `none` if the context on the processor is not there in the code. -/
def exec (s : IrqSpinLock C K) : LockEvent C K → Option (IrqSpinLock C K)
  | .lock c =>
    match s.phase (s.executing c) with
    | .outside => some ((s.moveTo c (.locking (s.interrupts c))).setInterrupts c false)
    | _ => none
  | .tryLock c =>
    match s.phase (s.executing c) with
    | .outside => some ((s.moveTo c (.trying (s.interrupts c))).setInterrupts c false)
    | _ => none
  | .compareExchange c =>
    match s.phase (s.executing c) with
    | .locking flags =>
      if s.locked then some (s.moveTo c (.spinning flags))
      else some { s.moveTo c (.holding flags) with locked := true }
    | .trying flags =>
      if s.locked then some (s.moveTo c (.refused flags))
      else some { s.moveTo c (.holding flags) with locked := true }
    | _ => none
  | .load c =>
    match s.phase (s.executing c) with
    | .spinning flags => if s.locked then some s else some (s.moveTo c (.locking flags))
    | _ => none
  | .refuse c =>
    match s.phase (s.executing c) with
    | .refused flags => some ((s.moveTo c .outside).setInterrupts c flags)
    | _ => none
  | .dropInPlace c =>
    match s.phase (s.executing c) with
    | .holding flags => some { s.moveTo c (.released flags) with locked := false }
    | _ => none
  | .restoreInterrupts c =>
    match s.phase (s.executing c) with
    | .released flags => some ((s.moveTo c .restored).setInterrupts c flags)
    | _ => none
  | .dropField c =>
    match s.phase (s.executing c) with
    | .restored => some { s.moveTo c .outside with locked := false }
    | _ => none
  | .interrupt c k =>
    some ({ s with executing := Function.update s.executing c k }.setInterrupts c false)
  | .resume c k flags =>
    some ({ s with executing := Function.update s.executing c k }.setInterrupts c flags)

def Step (cond : IrqSpinLock C K → LockEvent C K → Prop) (s s' : IrqSpinLock C K) : Prop :=
  ∃ e, s.Enabled e ∧ cond s e ∧ s.exec e = some s'

def Reached (cond : IrqSpinLock C K → LockEvent C K → Prop) (s : IrqSpinLock C K) : Prop :=
  Reach Initial (Step cond) s

/-- A step leaves lock and guards as they are, takes the lock if it is free, or stores
`false`, for the first or the second time. -/
inductive Effect (s : IrqSpinLock C K) : LockEvent C K → IrqSpinLock C K → Prop
  | moved {e : LockEvent C K} {s' : IrqSpinLock C K} : s'.locked = s.locked →
      (∀ k, s'.Alive k ↔ s.Alive k) → Effect s e s'
  | acquired {c : C} {s' : IrqSpinLock C K} : s.locked = false → s'.locked = true →
      (∀ k, s'.Alive k ↔ k = s.executing c ∨ s.Alive k) → Effect s (.compareExchange c) s'
  | released {c : C} {s' : IrqSpinLock C K} : s.Alive (s.executing c) →
      (∀ k, s'.Alive k ↔ k ≠ s.executing c ∧ s.Alive k) → Effect s (.dropInPlace c) s'
  | storedAgain {c : C} {s' : IrqSpinLock C K} : (∀ k, s'.Alive k ↔ s.Alive k) →
      Effect s (.dropField c) s'

theorem exec_effect (h : s.exec e = some s') : Effect s e s' := by
  have hnot : ∀ {c phase}, s.phase (s.executing c) = phase → (∀ flags, phase ≠ .holding flags) →
      ¬ s.Alive (s.executing c) := by
    rintro c phase hphase hne ⟨flags, hheld⟩
    exact hne flags (hphase.symm.trans hheld)
  have hacquire : ∀ {c flags}, s.locked = false →
      Effect s (.compareExchange c) { s.moveTo c (.holding flags) with locked := true } := by
    intro c flags hfree
    refine .acquired hfree rfl fun k => (alive_moveTo (s := s)).trans ?_
    split
    · rename_i hk
      exact ⟨fun _ => .inl hk, fun _ => ⟨flags, rfl⟩⟩
    · rename_i hk
      exact ⟨.inr, fun h => h.resolve_left hk⟩
  cases e with
  | lock c | tryLock c | refuse c | restoreInterrupts c =>
    rw [exec] at h
    split at h
    · rename_i hphase
      cases h
      refine .moved rfl fun k => alive_moveTo_of_not (hnot hphase ?_) ?_ k <;> nofun
    · cases h
  | compareExchange c =>
    rw [exec] at h
    split at h
    · rename_i flags hphase
      split at h
      · cases h
        refine .moved rfl fun k => alive_moveTo_of_not (hnot hphase ?_) ?_ k <;> nofun
      · rename_i hfree
        cases h
        exact hacquire (by simpa using hfree)
    · rename_i flags hphase
      split at h
      · cases h
        refine .moved rfl fun k => alive_moveTo_of_not (hnot hphase ?_) ?_ k <;> nofun
      · rename_i hfree
        cases h
        exact hacquire (by simpa using hfree)
    · cases h
  | load c =>
    rw [exec] at h
    split at h
    · rename_i flags hphase
      split at h
      · cases h
        exact .moved rfl fun _ => Iff.rfl
      · cases h
        refine .moved rfl fun k => alive_moveTo_of_not (hnot hphase ?_) ?_ k <;> nofun
    · cases h
  | dropInPlace c =>
    rw [exec] at h
    split at h
    · rename_i flags hphase
      cases h
      refine .released ⟨flags, hphase⟩ fun k => (alive_moveTo (s := s)).trans ?_
      split
      · rename_i hk
        refine ⟨?_, fun h => absurd hk h.1⟩
        rintro ⟨flags, hheld⟩
        cases hheld
      · rename_i hk
        exact ⟨fun h => ⟨hk, h⟩, fun h => h.2⟩
    · cases h
  | dropField c =>
    rw [exec] at h
    split at h
    · rename_i hphase
      cases h
      refine .storedAgain fun k => alive_moveTo_of_not (hnot hphase ?_) ?_ k <;> nofun
    · cases h
  | interrupt c k =>
    cases h
    exact .moved rfl fun _ => Iff.rfl
  | resume c k flags =>
    cases h
    exact .moved rfl fun _ => Iff.rfl

theorem Exclusive.step (h : Exclusive s) (hcond : SecondStoreHarmless s e)
    (hexec : s.exec e = some s') : Exclusive s' := by
  cases exec_effect hexec with
  | moved hlocked halive =>
    refine ⟨fun k hk => ?_, fun k k' hk hk' => h.unique k k' ((halive k).mp hk) ((halive k').mp hk')⟩
    rw [hlocked]
    exact h.taken k ((halive k).mp hk)
  | acquired hfree htaken halive =>
    have hnone : ∀ k, ¬ s.Alive k := fun k hk => by
      rw [h.taken k hk] at hfree
      cases hfree
    refine ⟨fun _ _ => htaken, fun k k' hk hk' => ?_⟩
    rw [((halive k).mp hk).resolve_right (hnone k), ((halive k').mp hk').resolve_right (hnone k')]
  | released hheld halive =>
    have hnone : ∀ k, ¬ s'.Alive k := fun k hk => by
      obtain ⟨hne, hk⟩ := (halive k).mp hk
      exact hne (h.unique k _ hk hheld)
    exact ⟨fun k hk => absurd hk (hnone k), fun k _ hk => absurd hk (hnone k)⟩
  | storedAgain halive =>
    have hnone : ∀ k, ¬ s'.Alive k := fun k hk => hcond k ((halive k).mp hk)
    exact ⟨fun k hk => absurd hk (hnone k), fun k _ hk => absurd hk (hnone k)⟩

theorem exclusive_of_reached (h : Reached SecondStoreHarmless s) : Exclusive s := by
  refine h.invariant Exclusive (fun _ => .of_initial) ?_
  rintro s s' hs ⟨e, -, hcond, hexec⟩
  exact hs.step hcond hexec

/-- As long as no guard is alive when another one stores `false` for the second time, there is
at most one guard. From a state in which the second store comes while a guard is alive, the
processor that makes it can go on and take the lock as well. -/
theorem at_most_one_guard (h : Reached SecondStoreHarmless s) :
    (∀ k k', s.Alive k → s.Alive k' → k = k') ∧
      ∀ c k, s.phase (s.executing c) = .restored → s.Alive k →
        ∃ s', runEvents exec s [.dropField c, .lock c, .compareExchange c] = some s' ∧
          s'.Alive k ∧ s'.Alive (s.executing c) ∧ k ≠ s.executing c := by
  refine ⟨(exclusive_of_reached h).unique, fun c k hphase hk => ?_⟩
  obtain ⟨flags, hheld⟩ := hk
  have hne : k ≠ s.executing c := by
    rintro rfl
    cases hphase.symm.trans hheld
  have hrun : runEvents exec s [.dropField c, .lock c, .compareExchange c] =
      some { (((s.moveTo c .outside).moveTo c (.locking (s.interrupts c))).setInterrupts c false).moveTo
        c (.holding (s.interrupts c)) with locked := true } := by
    simp [runEvents, exec, hphase, moveTo, setInterrupts]
  refine ⟨_, hrun, ⟨flags, ?_⟩, ⟨s.interrupts c, ?_⟩, hne⟩
  · simp [moveTo, setInterrupts, hne, hheld]
  · simp [moveTo, setInterrupts]

instance [Fintype C] (s : IrqSpinLock C K) (e : LockEvent C K) : Decidable (s.Enabled e) := by
  cases e <;> unfold Enabled Suspended <;> infer_instance

instance (s : IrqSpinLock C K) (k : K) : Decidable (s.Alive k) :=
  decidable_of_iff ((match s.phase k with | .holding _ => true | _ => false) = true) (by
    rw [Alive]
    cases s.phase k <;> simp)

instance [Fintype K] (s : IrqSpinLock C K) (e : LockEvent C K) : Decidable (SecondStoreHarmless s e) := by
  cases e <;> unfold SecondStoreHarmless <;> infer_instance

def attempt [Fintype C] (cond : IrqSpinLock C K → LockEvent C K → Prop) [∀ s e, Decidable (cond s e)]
    (s : IrqSpinLock C K) (e : LockEvent C K) : Option (IrqSpinLock C K) :=
  if s.Enabled e ∧ cond s e then s.exec e else none

def processors (n : Nat) : IrqSpinLock (Fin n) (Fin n) where
  locked := false
  phase := fun _ => .outside
  executing := id
  interrupts := fun _ => true

theorem exists_reached (n : Nat) (cond : IrqSpinLock (Fin n) (Fin n) → LockEvent (Fin n) (Fin n) → Prop)
    [∀ s e, Decidable (cond s e)] (es : List (LockEvent (Fin n) (Fin n)))
    (q : IrqSpinLock (Fin n) (Fin n) → Prop) [DecidablePred q]
    (h : (runEvents (attempt cond) (processors n) es).any (fun s => decide (q s)) = true) :
    ∃ s, Reached cond s ∧ q s := by
  refine Reach.exists_run ?_ (s := processors n) ⟨rfl, fun _ => rfl, Function.injective_id⟩ es q h
  intro s e s' hattempt
  obtain ⟨⟨hen, hcond⟩, hok⟩ := Option.ite_none_right_eq_some.mp hattempt
  exact ⟨e, hen, hcond, hok⟩

/-- One processor drops its guard while another one waits, with both stores made before that one
takes the lock; then it waits itself. -/
theorem at_most_one_guard_waiting : ∃ s : IrqSpinLock (Fin 2) (Fin 2),
    Reached SecondStoreHarmless s ∧ s.Alive 1 ∧ s.phase 0 = .spinning true ∧ ¬ s.Alive 0 := by
  obtain ⟨s, hs, halive, hspins⟩ := exists_reached 2 SecondStoreHarmless
    [.lock 0, .compareExchange 0, .lock 1, .compareExchange 1, .dropInPlace 0, .restoreInterrupts 0,
      .dropField 0, .load 1, .compareExchange 1, .lock 0, .compareExchange 0]
    (fun s => s.Alive 1 ∧ s.phase 0 = .spinning true) (by decide +kernel)
  refine ⟨s, hs, halive, hspins, fun halive' => ?_⟩
  have heq := (at_most_one_guard hs).1 0 1 halive' halive
  cases heq

/-- The first processor releases the lock, the second takes it, the first stores `false` again
and the third takes it too. -/
theorem second_store_admits_another : ∃ s : IrqSpinLock (Fin 3) (Fin 3),
    Reached (fun _ _ => True) s ∧ s.Alive 1 ∧ s.Alive 2 :=
  exists_reached 3 (fun _ _ => True)
    [.lock 0, .compareExchange 0, .dropInPlace 0, .lock 1, .compareExchange 1,
      .restoreInterrupts 0, .dropField 0, .lock 2, .compareExchange 2]
    (fun s => s.Alive 1 ∧ s.Alive 2) (by decide +kernel)

end IrqSpinLock

end CrapOs
