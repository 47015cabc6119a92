import CrapOs.Foundation.Reach
import Mathlib.Logic.Function.Basic
import Mathlib.Logic.Relation

/-! # Programs that take locks

Any number of contexts run procedures on a shared state and take locks on the
way. The code of a procedure is followed to its end under an order of the locks:
every lock it takes must come after those it holds. If all procedures keep to an
order that has no cycle, no contexts can wait for each other in a circle.
-/

namespace Foundation

open Relation

/-- Code that works on a state `σ` under locks `L`. Local variables are bound by the functions
in it; `N` are the procedures it can go on with. -/
inductive Code (σ L N : Type) where
  | done
  /-- a panic: the context stops where it is -/
  | halt
  | acquire (l : L) (next : Code σ L N)
  | release (l : L) (next : Code σ L N)
  | update (f : σ → σ) (next : Code σ L N)
  | read (next : σ → Code σ L N)
  | jump (n : N)

namespace Code

variable {σ L N : Type}

def wants : Code σ L N → Option L
  | acquire l _ => some l
  | _ => none

/-- A context that has the locks `held`, the last one first, takes every further lock in the
order `r`, gives them back in turn, and goes on only with procedures in `G`. -/
def Ordered (r : L → L → Prop) (G : N → Prop) : List L → Code σ L N → Prop
  | held, done => held = []
  | _, halt => True
  | held, acquire l next => (∀ a ∈ held, r a l) ∧ Ordered r G (l :: held) next
  | held, release l next => ∃ rest, held = l :: rest ∧ Ordered r G rest next
  | held, update _ next => Ordered r G held next
  | held, read next => ∀ s, Ordered r G held (next s)
  | held, jump n => held = [] ∧ G n

end Code

/-- The shared state, who has which lock, and the code each context still has to run. -/
structure LockSystem (σ L N K : Type) where
  state : σ
  owner : L → Option K
  code : K → Code σ L N

inductive Turn (N K : Type) where
  | call (k : K) (n : N)
  | go (k : K)

namespace LockSystem

variable {σ L N K : Type}

def Idle (m : LockSystem σ L N K) : Prop := (∀ l, m.owner l = none) ∧ ∀ k, m.code k = .done

def Wants (m : LockSystem σ L N K) (k : K) (l : L) : Prop := (m.code k).wants = some l

/-- The next thing `k` does is to take a lock that `k'` has. -/
def WaitsFor (m : LockSystem σ L N K) (k k' : K) : Prop := ∃ l, m.Wants k l ∧ m.owner l = some k'

def CircularWait (m : LockSystem σ L N K) : Prop := ∃ k, TransGen m.WaitsFor k k

/-- `k` has `a` and waits for `b`, which `k'` has while it waits for `a`. -/
def Stuck (m : LockSystem σ L N K) (k k' : K) (a b : L) : Prop :=
  (m.owner a = some k ∧ m.Wants k b) ∧ m.owner b = some k' ∧ m.Wants k' a

theorem Stuck.circularWait {m : LockSystem σ L N K} {k k' : K} {a b : L} (h : m.Stuck k k' a b) :
    m.CircularWait :=
  ⟨k, .tail (.single ⟨b, h.1.2, h.2.1⟩) ⟨a, h.2.2, h.1.1⟩⟩

/-- The locks `k` has are those in `held`. -/
structure Holding (owner : L → Option K) (k : K) (held : List L) : Prop where
  nodup : held.Nodup
  owner : ∀ l, owner l = some k ↔ l ∈ held

namespace Holding

variable [DecidableEq L] {owner : L → Option K} {k : K} {held rest : List L} {l : L}

theorem other {o : Option K} (h : Holding owner k held) (hbefore : owner l ≠ some k)
    (hafter : o ≠ some k) : Holding (Function.update owner l o) k held := by
  refine ⟨h.nodup, fun l' => ?_⟩
  by_cases hl : l' = l
  · subst hl
    rw [Function.update_self, ← h.owner l']
    exact iff_of_false hafter hbefore
  · rw [Function.update_of_ne hl]
    exact h.owner l'

theorem take (h : Holding owner k held) (hfree : owner l = none) :
    Holding (Function.update owner l (some k)) k (l :: held) := by
  refine ⟨List.nodup_cons.mpr ⟨fun hin => ?_, h.nodup⟩, fun l' => ?_⟩
  · rw [(h.owner l).mpr hin] at hfree
    cases hfree
  · by_cases hl : l' = l
    · subst hl
      simp
    · rw [Function.update_of_ne hl, h.owner l', List.mem_cons, or_iff_right hl]

theorem giveBack (h : Holding owner k (l :: rest)) : Holding (Function.update owner l none) k rest := by
  obtain ⟨hnot, hnodup⟩ := List.nodup_cons.mp h.nodup
  refine ⟨hnodup, fun l' => ?_⟩
  by_cases hl : l' = l
  · subst hl
    rw [Function.update_self]
    exact iff_of_false nofun hnot
  · rw [Function.update_of_ne hl, h.owner l', List.mem_cons, or_iff_right hl]

end Holding

variable [DecidableEq L] [DecidableEq K]

def exec (procs : N → Code σ L N) (m : LockSystem σ L N K) : Turn N K → Option (LockSystem σ L N K)
  | .call k n =>
    match m.code k with
    | .done => some { m with code := Function.update m.code k (procs n) }
    | _ => none
  | .go k =>
    match m.code k with
    | .done => none
    | .halt => none
    | .acquire l next =>
      match m.owner l with
      | none => some { m with
          owner := Function.update m.owner l (some k)
          code := Function.update m.code k next }
      | some _ => none
    | .release l next => some { m with
        owner := Function.update m.owner l none
        code := Function.update m.code k next }
    | .update f next => some { m with
        state := f m.state
        code := Function.update m.code k next }
    | .read next => some { m with code := Function.update m.code k (next m.state) }
    | .jump n => some { m with code := Function.update m.code k (procs n) }

def Within (F : N → Prop) : Turn N K → Prop
  | .call _ n => F n
  | .go _ => True

def Step (procs : N → Code σ L N) (F : N → Prop) (m m' : LockSystem σ L N K) : Prop :=
  ∃ t, Within F t ∧ m.exec procs t = some m'

def Reached (procs : N → Code σ L N) (F : N → Prop) : LockSystem σ L N K → Prop :=
  Reach Idle (Step procs F)

theorem Reached.run {procs : N → Code σ L N} {F : N → Prop} {m m' : LockSystem σ L N K}
    (h : m.Reached procs F) {ts : List (Turn N K)} (hts : ∀ t ∈ ts, Within F t)
    (hrun : runEvents (exec procs) m ts = some m') : m'.Reached procs F := by
  induction ts generalizing m with
  | nil =>
    cases hrun
    exact h
  | cons t rest ih =>
    obtain ⟨m1, hstep, hrest⟩ := Option.bind_eq_some_iff.mp hrun
    refine ih (.step h ⟨t, hts t List.mem_cons_self, hstep⟩) (fun t ht => ?_) hrest
    exact hts t (List.mem_cons_of_mem _ ht)

/-- In some run over `F` a context that has `a` comes to a point where it takes `b`. -/
def AcquiredWhile (K : Type) [DecidableEq K] (procs : N → Code σ L N) (F : N → Prop) (a b : L) : Prop :=
  ∃ m : LockSystem σ L N K, m.Reached procs F ∧ ∃ k, m.owner a = some k ∧ m.Wants k b

theorem transGen_of_waitsFor {procs : N → Code σ L N} {F : N → Prop} {m : LockSystem σ L N K}
    (hm : m.Reached procs F) {k k' : K} (h : TransGen m.WaitsFor k k') :
    ∃ b, m.owner b = some k' ∧ ∀ a, m.owner a = some k → TransGen (AcquiredWhile K procs F) a b := by
  induction h with
  | single hwait =>
    obtain ⟨l, hwants, howner⟩ := hwait
    exact ⟨l, howner, fun a ha => .single ⟨m, hm, k, ha, hwants⟩⟩
  | tail _ hwait ih =>
    obtain ⟨b, hb, hbefore⟩ := ih
    obtain ⟨l, hwants, howner⟩ := hwait
    exact ⟨l, howner, fun a ha => (hbefore a ha).tail ⟨m, hm, _, hb, hwants⟩⟩

theorem not_circularWait {procs : N → Code σ L N} {F : N → Prop} {m : LockSystem σ L N K}
    (hacyclic : ∀ a, ¬ TransGen (AcquiredWhile K procs F) a a) (hm : m.Reached procs F) :
    ¬ m.CircularWait := by
  intro hcircle
  obtain ⟨k, hk⟩ := hcircle
  obtain ⟨b, hb, hbefore⟩ := transGen_of_waitsFor hm hk
  exact hacyclic b (hbefore b hb)

section Order

variable {r : L → L → Prop} {G : N → Prop} {procs : N → Code σ L N} {m m' : LockSystem σ L N K} {k : K}

/-- What `k` still has to run takes locks in order, given those it has. -/
def InOrder (r : L → L → Prop) (G : N → Prop) (m : LockSystem σ L N K) (k : K) : Prop :=
  ∃ held, Holding m.owner k held ∧ (m.code k).Ordered r G held

omit [DecidableEq L] in
theorem InOrder.other (h : m.InOrder r G k) {j : K} {c : Code σ L N} (hj : k ≠ j)
    (hcode : m'.code = Function.update m.code j c)
    (howner : ∀ held, Holding m.owner k held → Holding m'.owner k held) : m'.InOrder r G k := by
  obtain ⟨held, hheld, hordered⟩ := h
  refine ⟨held, howner held hheld, ?_⟩
  rw [hcode, Function.update_of_ne hj]
  exact hordered

omit [DecidableEq L] in
theorem InOrder.self {held : List L} {c : Code σ L N} (howner : Holding m'.owner k held)
    (hcode : m'.code = Function.update m.code k c) (hc : c.Ordered r G held) : m'.InOrder r G k := by
  refine ⟨held, howner, ?_⟩
  rw [hcode, Function.update_self]
  exact hc

/-- A turn keeps every context in order if the procedures are. -/
theorem InOrder.step {F : N → Prop} (hprocs : ∀ n, G n → (procs n).Ordered r G [])
    (hF : ∀ n, F n → G n) (h : ∀ k, m.InOrder r G k) (hstep : m.Step procs F m') (k : K) :
    m'.InOrder r G k := by
  obtain ⟨t, hwithin, hok⟩ := hstep
  cases t with
  | call j n =>
    obtain ⟨held, hheld, hordered⟩ := h j
    simp only [exec] at hok
    split at hok
    next hdone =>
      cases hok
      by_cases hj : k = j
      · subst hj
        rw [hdone] at hordered
        cases show held = [] from hordered
        exact .self hheld rfl (hprocs n (hF n hwithin))
      · exact (h k).other hj rfl fun _ hk => hk
    next => cases hok
  | go j =>
    obtain ⟨held, hheld, hordered⟩ := h j
    simp only [exec] at hok
    cases hnext : m.code j with
    | done | halt =>
      rw [hnext] at hok
      cases hok
    | acquire l next =>
      rw [hnext] at hok hordered
      cases hfree : m.owner l with
      | some j' =>
        simp only [hfree] at hok
        cases hok
      | none =>
        simp only [hfree] at hok
        cases hok
        by_cases hj : k = j
        · subst hj
          exact .self (hheld.take hfree) rfl hordered.2
        · refine (h k).other hj rfl fun _ hk => hk.other ?_ ?_
          · rw [hfree]
            exact nofun
          · exact fun heq => hj (Option.some.inj heq).symm
    | release l next =>
      rw [hnext] at hok hordered
      cases hok
      obtain ⟨rest, rfl, hrest⟩ := hordered
      by_cases hj : k = j
      · subst hj
        exact .self hheld.giveBack rfl hrest
      · refine (h k).other hj rfl fun _ hk => hk.other ?_ nofun
        rw [(hheld.owner l).mpr List.mem_cons_self]
        exact fun heq => hj (Option.some.inj heq).symm
    | update f next =>
      rw [hnext] at hok hordered
      cases hok
      by_cases hj : k = j
      · subst hj
        exact .self hheld rfl hordered
      · exact (h k).other hj rfl fun _ hk => hk
    | read next =>
      rw [hnext] at hok hordered
      cases hok
      by_cases hj : k = j
      · subst hj
        exact .self hheld rfl (hordered m.state)
      · exact (h k).other hj rfl fun _ hk => hk
    | jump n =>
      rw [hnext] at hok hordered
      cases hok
      by_cases hj : k = j
      · subst hj
        obtain ⟨rfl, hn⟩ := hordered
        exact .self hheld rfl (hprocs n hn)
      · exact (h k).other hj rfl fun _ hk => hk

theorem inOrder_of_reached {F : N → Prop} (hprocs : ∀ n, G n → (procs n).Ordered r G [])
    (hF : ∀ n, F n → G n) (hm : m.Reached procs F) (k : K) : m.InOrder r G k := by
  refine hm.invariant (fun m => ∀ k, m.InOrder r G k) ?_ ?_ k
  · intro m hidle k
    refine ⟨[], ⟨List.nodup_nil, fun l => ?_⟩, ?_⟩
    · rw [hidle.1 l]
      exact iff_of_false nofun List.not_mem_nil
    · rw [hidle.2 k]
      rfl
  · exact fun _ _ h hstep => InOrder.step hprocs hF h hstep

theorem acquiredWhile_le {F : N → Prop} (hprocs : ∀ n, G n → (procs n).Ordered r G [])
    (hF : ∀ n, F n → G n) {a b : L} (h : AcquiredWhile K procs F a b) : r a b := by
  obtain ⟨m, hm, k, howner, hwants⟩ := h
  obtain ⟨held, hheld, hordered⟩ := inOrder_of_reached hprocs hF hm k
  unfold Wants at hwants
  cases hnext : m.code k with
  | acquire l next =>
    rw [hnext] at hordered hwants
    cases hwants
    exact hordered.1 a ((hheld.owner a).mp howner)
  | done | halt | release | update | read | jump =>
    rw [hnext] at hwants
    cases hwants

theorem acyclic_of_rank {F : N → Prop} {rank : L → Nat}
    (hprocs : ∀ n, G n → (procs n).Ordered (fun a b => rank a < rank b) G []) (hF : ∀ n, F n → G n)
    (a : L) : ¬ TransGen (AcquiredWhile K procs F) a a := by
  have hless : ∀ {a b}, TransGen (AcquiredWhile K procs F) a b → rank a < rank b := by
    intro a b h
    induction h with
    | single hab => exact acquiredWhile_le hprocs hF hab
    | tail _ hbc ih => exact Nat.lt_trans ih (acquiredWhile_le hprocs hF hbc)
  exact fun h => Nat.lt_irrefl _ (hless h)

end Order

end LockSystem

end Foundation
