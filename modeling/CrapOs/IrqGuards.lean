import CrapOs.Foundation.Reach
import CrapOs.Helpers.Interrupts
import Mathlib.Logic.Function.Basic

/-! # Several guards on one processor

Each guard of an `IrqSpinLock` keeps the flags from before its lock was taken and loads
them when it is dropped. Guards that are dropped in the reverse order restore the
interrupt flag as it was. Safe Rust allows any other order: a guard that was taken
with interrupts on turns them on again while later guards are still alive.
-/

namespace CrapOs

open Foundation

/-- One processor and its locks. A lock can be held without a guard of this run: its holder is
then some code that was interrupted. -/
structure IrqLocks (L : Type) where
  rflags : BitVec 64
  locked : L → Bool
  /-- the guards that are alive, with the flags they have saved -/
  guards : L → Option (BitVec 64)

inductive GuardOp (L : Type) where
  | lock (l : L)
  | tryLock (l : L)
  | drop (l : L)
deriving DecidableEq, Repr

namespace IrqLocks

variable {L : Type} {s s' : IrqLocks L} {op : GuardOp L} {l : L} {initial : Bool}

def interrupts (s : IrqLocks L) : Bool := interruptsEnabled s.rflags

def Initial (initial : Bool) (s : IrqLocks L) : Prop :=
  s.interrupts = initial ∧ ∀ l, s.guards l = none

/-- The flag is clear while a guard is alive, and as it was at first when there is none. -/
def FlagKept (initial : Bool) (s : IrqLocks L) : Prop :=
  (∀ l, s.guards l ≠ none → s.interrupts = false) ∧
    ((∀ l, s.guards l = none) → s.interrupts = initial)

/-- A guard that was taken with interrupts on is dropped when no other is alive. -/
def OutermostLast (s : IrqLocks L) : GuardOp L → Prop
  | .drop l => ∀ flags, s.guards l = some flags → interruptsEnabled flags = true →
      ∀ l', s.guards l' ≠ none → l' = l
  | .lock _ | .tryLock _ => True

/-- At most one guard has saved a set flag: the one that was taken first, with interrupts on. -/
structure Nested (initial : Bool) (s : IrqLocks L) : Prop where
  kept : FlagKept initial s
  held : ∀ l, s.guards l ≠ none → s.locked l = true
  on : ∀ l flags, s.guards l = some flags → interruptsEnabled flags = true →
    initial = true ∧ ∀ l' flags', s.guards l' = some flags' → interruptsEnabled flags' = true → l' = l
  outermost : initial = true → (∃ l, s.guards l ≠ none) →
    ∃ l flags, s.guards l = some flags ∧ interruptsEnabled flags = true

theorem Initial.nested (h : Initial initial s) : Nested initial s := by
  obtain ⟨hflag, hnone⟩ := h
  refine ⟨⟨fun l hl => absurd (hnone l) hl, fun _ => hflag⟩, fun l hl => absurd (hnone l) hl, ?_, ?_⟩
  · intro l flags hl
    rw [hnone l] at hl
    cases hl
  · rintro _ ⟨l, hl⟩
    exact absurd (hnone l) hl

theorem Nested.none_of_interrupts (h : Nested initial s) (hon : s.interrupts = true) (l : L) :
    s.guards l = none := by
  by_contra hl
  have hoff := h.kept.1 l hl
  rw [hon] at hoff
  cases hoff

variable [DecidableEq L]

def acquire (s : IrqLocks L) (l : L) : IrqLocks L :=
  let (flags, rflags) := disableInterruptsSave s.rflags
  { rflags := rflags
    locked := Function.update s.locked l true
    guards := Function.update s.guards l (some flags) }

/-- The lock is released before the flags are loaded. -/
def release (s : IrqLocks L) (l : L) (flags : BitVec 64) : IrqLocks L where
  rflags := restoreInterrupts flags
  locked := Function.update s.locked l false
  guards := Function.update s.guards l none

/-- A call that returns. On one processor `lock` spins for ever on a lock that is held, and
only a guard that is alive can be dropped. -/
def exec (s : IrqLocks L) : GuardOp L → Option (IrqLocks L)
  | .lock l => if s.locked l = true then none else some (s.acquire l)
  | .tryLock l =>
    if s.locked l = true then
      let (flags, _) := disableInterruptsSave s.rflags
      some { s with rflags := restoreInterrupts flags }
    else some (s.acquire l)
  | .drop l => (s.guards l).map (s.release l)

def Step (cond : IrqLocks L → GuardOp L → Prop) (s s' : IrqLocks L) : Prop :=
  ∃ op, cond s op ∧ s.exec op = some s'

def Reached (initial : Bool) (cond : IrqLocks L → GuardOp L → Prop) (s : IrqLocks L) : Prop :=
  Reach (Initial initial) (Step cond) s

theorem guards_acquire (s : IrqLocks L) (l l' : L) :
    (s.acquire l).guards l' = if l' = l then some s.rflags else s.guards l' :=
  Function.update_apply ..

theorem guards_acquire_of_ne (s : IrqLocks L) {l l' : L} (h : l' ≠ l) :
    (s.acquire l).guards l' = s.guards l' := by
  rw [guards_acquire, if_neg h]

theorem Nested.acquire (h : Nested initial s) (hfree : ¬ s.locked l = true) :
    Nested initial (s.acquire l) := by
  have hnew : (s.acquire l).guards l = some s.rflags := by rw [guards_acquire, if_pos rfl]
  have hnone : s.guards l = none := by
    by_contra hl
    exact hfree (h.held l hl)
  constructor
  case kept =>
    refine ⟨fun _ _ => interruptsEnabled_cli _, fun hdead => ?_⟩
    rw [hdead l] at hnew
    cases hnew
  case held =>
    intro k hk
    change Function.update s.locked l true k = true
    by_cases hkl : k = l
    · rw [hkl, Function.update_self]
    · rw [guards_acquire_of_ne s hkl] at hk
      rw [Function.update_of_ne hkl]
      exact h.held k hk
  case on =>
    intro k flags hk hon
    by_cases hkl : k = l
    · subst hkl
      rw [hnew] at hk
      cases hk
      have hdead := h.none_of_interrupts hon
      refine ⟨(h.kept.2 hdead).symm.trans hon, fun k' flags' hk' _ => ?_⟩
      by_contra hne
      rw [guards_acquire_of_ne s hne, hdead k'] at hk'
      cases hk'
    · rw [guards_acquire_of_ne s hkl] at hk
      obtain ⟨hinit, hunique⟩ := h.on k flags hk hon
      refine ⟨hinit, fun k' flags' hk' hon' => ?_⟩
      by_cases hk'l : k' = l
      · subst hk'l
        rw [hnew] at hk'
        cases hk'
        rw [h.none_of_interrupts hon' k] at hk
        cases hk
      · rw [guards_acquire_of_ne s hk'l] at hk'
        exact hunique k' flags' hk' hon'
  case outermost =>
    intro hinit _
    by_cases hdead : ∀ k, s.guards k = none
    · exact ⟨l, s.rflags, hnew, (h.kept.2 hdead).trans hinit⟩
    · obtain ⟨k, flags, hk, hon⟩ := h.outermost hinit (not_forall.mp hdead)
      have hkl : k ≠ l := by
        rintro rfl
        rw [hnone] at hk
        cases hk
      exact ⟨k, flags, (guards_acquire_of_ne s hkl).trans hk, hon⟩

theorem guards_release (s : IrqLocks L) (l l' : L) (flags : BitVec 64) :
    (s.release l flags).guards l' = if l' = l then none else s.guards l' :=
  Function.update_apply ..

theorem of_guards_release {flags flags' : BitVec 64} {l' : L}
    (h : (s.release l flags).guards l' = some flags') : l' ≠ l ∧ s.guards l' = some flags' := by
  rw [guards_release] at h
  by_cases hl' : l' = l
  · rw [if_pos hl'] at h
    cases h
  · rw [if_neg hl'] at h
    exact ⟨hl', h⟩

theorem flagKept_release_iff (h : Nested initial s) {flags : BitVec 64} (hl : s.guards l = some flags) :
    FlagKept initial (s.release l flags) ↔ OutermostLast s (.drop l) := by
  have hflag : (s.release l flags).interrupts = interruptsEnabled flags := rfl
  constructor
  · intro hkept flags' hl' hon l' hl'alive
    rw [hl] at hl'
    cases hl'
    by_contra hne
    have hoff := hkept.1 l' (by rw [guards_release, if_neg hne]; exact hl'alive)
    rw [hflag, hon] at hoff
    cases hoff
  · intro hlast
    unfold FlagKept
    rw [hflag]
    cases hon : interruptsEnabled flags with
    | true =>
      refine ⟨fun l' hl' => ?_, fun _ => (h.on l flags hl hon).1.symm⟩
      obtain ⟨flags', hflags'⟩ := Option.ne_none_iff_exists'.mp hl'
      obtain ⟨hne, hbefore⟩ := of_guards_release hflags'
      exact absurd (hlast flags hl hon l' (by rw [hbefore]; exact Option.some_ne_none _)) hne
    | false =>
      refine ⟨fun _ _ => rfl, fun hdead => ?_⟩
      -- the guard dropped was the last one, so it is the one that has saved `initial`
      cases hinit : initial with
      | false => rfl
      | true =>
        obtain ⟨k, flags', hk, hon'⟩ :=
          h.outermost hinit ⟨l, by rw [hl]; exact Option.some_ne_none _⟩
        have hdeadk := hdead k
        rw [guards_release] at hdeadk
        by_cases hkl : k = l
        · rw [hkl, hl] at hk
          cases hk
          rw [hon] at hon'
          cases hon'
        · rw [if_neg hkl, hk] at hdeadk
          cases hdeadk

theorem Nested.release (h : Nested initial s) {flags : BitVec 64} (hl : s.guards l = some flags)
    (hlast : OutermostLast s (.drop l)) : Nested initial (s.release l flags) := by
  refine ⟨(flagKept_release_iff h hl).mpr hlast, fun k hk => ?_, fun k flags' hk hon => ?_, ?_⟩
  · obtain ⟨flags', hflags'⟩ := Option.ne_none_iff_exists'.mp hk
    obtain ⟨hne, hbefore⟩ := of_guards_release hflags'
    change Function.update s.locked l false k = true
    rw [Function.update_of_ne hne]
    exact h.held k (by rw [hbefore]; exact Option.some_ne_none _)
  · obtain ⟨hinit, hunique⟩ := h.on k flags' (of_guards_release hk).2 hon
    exact ⟨hinit, fun k' flags'' hk' => hunique k' flags'' (of_guards_release hk').2⟩
  · rintro hinit ⟨k, hk⟩
    obtain ⟨flags', hflags'⟩ := Option.ne_none_iff_exists'.mp hk
    obtain ⟨hne, hbefore⟩ := of_guards_release hflags'
    have halive : s.guards k ≠ none := by rw [hbefore]; exact Option.some_ne_none _
    obtain ⟨k0, flags0, hk0, hon⟩ := h.outermost hinit ⟨k, halive⟩
    have hk0l : k0 ≠ l := by
      rintro rfl
      exact hne (hlast flags0 hk0 hon k halive)
    exact ⟨k0, flags0, by rw [guards_release, if_neg hk0l]; exact hk0, hon⟩

theorem Nested.exec (h : Nested initial s) (hexec : s.exec op = some s') :
    (FlagKept initial s' ↔ OutermostLast s op) ∧ (OutermostLast s op → Nested initial s') := by
  have hgood (hnested : Nested initial s') (hcond : OutermostLast s op) :
      (FlagKept initial s' ↔ OutermostLast s op) ∧ (OutermostLast s op → Nested initial s') :=
    ⟨iff_of_true hnested.kept hcond, fun _ => hnested⟩
  cases op with
  | lock l =>
    rw [IrqLocks.exec] at hexec
    by_cases hlocked : s.locked l = true
    · rw [if_pos hlocked] at hexec
      cases hexec
    · rw [if_neg hlocked] at hexec
      cases hexec
      exact hgood (h.acquire hlocked) trivial
  | tryLock l =>
    rw [IrqLocks.exec] at hexec
    by_cases hlocked : s.locked l = true
    · rw [if_pos hlocked] at hexec
      cases hexec
      exact hgood h trivial
    · rw [if_neg hlocked] at hexec
      cases hexec
      exact hgood (h.acquire hlocked) trivial
  | drop l =>
    obtain ⟨flags, hl, rfl⟩ := Option.map_eq_some_iff.mp hexec
    exact ⟨flagKept_release_iff h hl, h.release hl⟩

theorem Reached.nested (h : Reached initial OutermostLast s) : Nested initial s := by
  refine h.invariant (Nested initial) (fun s hs => hs.nested) ?_
  rintro s s' hs ⟨op, hcond, hexec⟩
  exact (hs.exec hexec).2 hcond

/-- As long as every guard taken with interrupts on is dropped last, the interrupt flag is clear
while a guard is alive and restored when there is none; the first call that drops such a guard
before another breaks this. -/
theorem interrupt_flag_kept_iff (h : Reached initial OutermostLast s) :
    FlagKept initial s ∧
      ∀ op s', s.exec op = some s' → (FlagKept initial s' ↔ OutermostLast s op) :=
  ⟨h.nested.kept, fun _ _ hexec => (h.nested.exec hexec).1⟩

def twoLocks : IrqLocks Bool := ⟨0x202#64, fun _ => false, fun _ => none⟩

/-- Dropped in the reverse order, with a failed attempt in between. -/
theorem interrupt_flag_kept_iff_nested : ∃ s s' : IrqLocks Bool,
    [.lock false, .lock true, .tryLock false, .drop true].foldlM exec twoLocks = some s ∧
      s.exec (.drop false) = some s' ∧ FlagKept true s ∧ FlagKept true s' := by
  have hlast : OutermostLast ((twoLocks.acquire false).acquire true) (.drop true) := by
    intro flags hflags hon
    cases hflags
    exact absurd hon (by decide)
  have hstart : Reached true OutermostLast twoLocks := .start ⟨rfl, fun _ => rfl⟩
  have hfirst : Reached true OutermostLast (twoLocks.acquire false) :=
    .step hstart ⟨.lock false, trivial, rfl⟩
  have hsecond : Reached true OutermostLast ((twoLocks.acquire false).acquire true) :=
    .step hfirst ⟨.lock true, trivial, rfl⟩
  have hrefused : Reached true OutermostLast ((twoLocks.acquire false).acquire true) :=
    .step hsecond ⟨.tryLock false, trivial, rfl⟩
  have hreached : Reached true OutermostLast
      (((twoLocks.acquire false).acquire true).release true (clearInterruptFlag 0x202#64)) :=
    .step hrefused ⟨.drop true, hlast, rfl⟩
  obtain ⟨hkept, hnext⟩ := interrupt_flag_kept_iff hreached
  refine ⟨_, _, rfl, rfl, hkept, (hnext (.drop false) _ rfl).mpr ?_⟩
  intro flags _ _ l hl
  cases l with
  | false => rfl
  | true => exact absurd rfl hl

/-- Dropped in the order in which they were taken: interrupts are on while the second guard is
alive, and off at the end. -/
theorem guards_dropped_in_order : twoLocks.interrupts = true ∧
    ∃ s s' : IrqLocks Bool, [.lock false, .lock true, .drop false].foldlM exec twoLocks = some s ∧
      s.guards true ≠ none ∧ s.interrupts = true ∧
      s.exec (.drop true) = some s' ∧ (∀ l, s'.guards l = none) ∧ s'.interrupts = false :=
  ⟨rfl, _, _, rfl, Option.some_ne_none _, rfl, rfl, by decide, rfl⟩

end IrqLocks

end CrapOs
