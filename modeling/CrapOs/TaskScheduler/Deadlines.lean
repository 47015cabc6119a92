import CrapOs.Foundation.DeltaList
import CrapOs.TaskScheduler.SleepSlots
import Mathlib.Data.List.ReduceOption

/-! # Deadlines

The sleep queue holds distances in ticks from one entry to the next. What it stands for
is a multiset of absolute deadlines: an insertion adds one, a tick pops those that have
come and keeps all others as they are. This holds for every history of insertions and
ticks, and it says when a task that calls `sleep` is woken.
-/

namespace CrapOs

open Foundation

namespace SleepQueue

variable {l : List SleepEntry} {a : TaskId} {n t : Nat}

def pairs (l : List SleepEntry) : List (Nat × TaskId) :=
  l.map fun entry => (entry.deltaTicks, entry.taskId)

theorem pairs_insertAt : pairs (insertAt a n l) = DeltaList.insert a n (pairs l) := by
  induction l generalizing n with
  | nil => rfl
  | cons entry rest ih =>
    change _ = DeltaList.insert a n ((entry.deltaTicks, entry.taskId) :: pairs rest)
    rw [insertAt, DeltaList.insert]
    by_cases hle : n ≤ entry.deltaTicks
    · rw [if_pos hle, if_pos hle]
      rfl
    · rw [if_neg hle, if_neg hle, ← ih]
      rfl

theorem pairs_countDown (q : SleepQueue) :
    pairs q.countDown.entries = DeltaList.countDown (pairs q.entries) := by
  obtain ⟨l⟩ := q
  cases l <;> rfl

theorem pairs_expired : pairs (expired l) = DeltaList.expired (pairs l) := by
  rw [pairs, pairs, DeltaList.expired, List.takeWhile_map]
  rfl

theorem pairs_remaining : pairs (remaining l) = DeltaList.remaining (pairs l) := by
  rw [pairs, pairs, DeltaList.remaining, List.dropWhile_map]
  rfl

theorem counting_pairs : DeltaList.Counting (pairs l) ↔ Counting l := by
  cases l with
  | nil => simp [DeltaList.Counting, Counting, pairs]
  | cons entry rest => simp [DeltaList.Counting, Counting, pairs]

def deadlines (t : Nat) (l : List SleepEntry) : Multiset (Nat × TaskId) :=
  DeltaList.deadlines t (pairs l)

theorem deadlines_insertAt : deadlines t (insertAt a n l) = (t + n, a) ::ₘ deadlines t l := by
  rw [deadlines, pairs_insertAt, DeltaList.deadlines_insert, deadlines]

theorem card_deadlines : (deadlines t l).card = l.length := by
  rw [deadlines, DeltaList.card_deadlines, pairs, List.length_map]

def tick (l : List SleepEntry) : List TaskId × List SleepEntry :=
  let l := (countDown ⟨l⟩).entries
  ((expired l).map SleepEntry.taskId, remaining l)

theorem counting_tick : Counting (tick l).2 := counting_remaining _

theorem tick_woken (h : Counting l) :
    ((tick l).1 : Multiset TaskId) =
      ((deadlines t l).filter fun e => e.1 = t + 1).map Prod.snd := by
  have hids : (tick l).1 = (pairs (expired (countDown ⟨l⟩).entries)).map Prod.snd := by
    rw [tick, pairs, List.map_map]
    rfl
  rw [hids, pairs_expired, pairs_countDown, deadlines,
    ← DeltaList.deadlines_countDown (counting_pairs.mpr h), DeltaList.filter_due,
    DeltaList.deadlines_expired, Multiset.map_coe, List.map_map]
  rfl

theorem tick_left (h : Counting l) :
    deadlines (t + 1) (tick l).2 = (deadlines t l).filter fun e => ¬ e.1 = t + 1 := by
  rw [deadlines, deadlines, ← DeltaList.deadlines_countDown (counting_pairs.mpr h),
    DeltaList.filter_not_due, tick, pairs_remaining, pairs_countDown]

theorem lt_of_mem_deadlines (h : Counting l) {e : Nat × TaskId} (he : e ∈ deadlines t l) : t < e.1 :=
  DeltaList.lt_of_counting (counting_pairs.mpr h) he

def afterTicks (l : List SleepEntry) : Nat → List SleepEntry
  | 0 => l
  | k + 1 => (tick (afterTicks l k)).2

def poppedAt (l : List SleepEntry) : Nat → List TaskId
  | 0 => []
  | k + 1 => (tick (afterTicks l k)).1

theorem Counting.afterTicks (h : Counting l) (k : Nat) : Counting (afterTicks l k) := by
  cases k with
  | zero => exact h
  | succ k => exact counting_tick

theorem deadlines_afterTicks (h : Counting l) (k : Nat) :
    deadlines k (afterTicks l k) = (deadlines 0 l).filter fun e => k < e.1 := by
  induction k with
  | zero =>
    rw [afterTicks, Multiset.filter_eq_self.mpr]
    intro e he
    exact lt_of_mem_deadlines h he
  | succ k ih =>
    rw [afterTicks, tick_left (h.afterTicks k), ih, Multiset.filter_filter]
    refine Multiset.filter_congr fun e _ => ?_
    omega

theorem coe_poppedAt (h : Counting l) (k : Nat) :
    (poppedAt l k : Multiset TaskId) = ((deadlines 0 l).filter fun e => e.1 = k).map Prod.snd := by
  cases k with
  | zero =>
    rw [Multiset.filter_eq_nil.mpr]
    · rfl
    · intro e he hzero
      have hlt := lt_of_mem_deadlines h he
      omega
  | succ k =>
    rw [poppedAt, tick_woken (h.afterTicks k), deadlines_afterTicks h, Multiset.filter_filter]
    congr 1
    refine Multiset.filter_congr fun e _ => ?_
    omega

theorem poppedAt_insertAt (h : Counting l) (hn : 0 < n) (k : Nat) :
    (poppedAt (insertAt a n l) k : Multiset TaskId) = poppedAt l k + if k = n then {a} else 0 := by
  rw [coe_poppedAt (h.insertAt hn), coe_poppedAt h, deadlines_insertAt, Nat.zero_add]
  by_cases hk : k = n
  · have hdue : (n, a).1 = k := hk.symm
    rw [Multiset.filter_cons_of_pos (p := fun e : Nat × TaskId => e.1 = k) _ hdue, if_pos hk,
      Multiset.map_cons, Multiset.add_comm]
    rfl
  · have hdue : ¬ (n, a).1 = k := fun h => hk h.symm
    rw [Multiset.filter_cons_of_neg (p := fun e : Nat × TaskId => e.1 = k) _ hdue, if_neg hk,
      Multiset.add_zero]

/-- `insert` adds one pop, after `n` ticks, if `n` is not zero and there is room. -/
theorem poppedAt_insert_iff {q : SleepQueue} {m : Nat} (h : Counting q.entries)
    (hlen : q.entries.length ≤ 256) (hm : 0 < m) :
    (∀ k, (poppedAt (q.insert a n).entries k : Multiset TaskId) =
        poppedAt q.entries k + if k = m then {a} else 0) ↔
      n = m ∧ q.entries.length < 256 := by
  have hlost (l : List TaskId) : (l : Multiset TaskId) ≠ l + {a} := by
    intro heq
    have hcard := congrArg Multiset.card heq
    rw [Multiset.card_add, Multiset.card_singleton] at hcard
    omega
  -- without an entry the pop at tick `m` is missing
  have hmissing : ¬ ∀ k, (poppedAt q.entries k : Multiset TaskId) =
      poppedAt q.entries k + if k = m then {a} else 0 := by
    intro heq
    have hone := heq m
    rw [if_pos rfl] at hone
    exact hlost _ hone
  unfold SleepQueue.insert
  by_cases hzero : n = 0
  · rw [if_pos hzero]
    exact iff_of_false hmissing (by omega)
  rw [if_neg hzero]
  by_cases hfull : q.entries.length = maxSleepEntries
  · rw [if_pos hfull]
    exact iff_of_false hmissing fun hroom => Nat.ne_of_lt hroom.2 hfull
  rw [if_neg hfull]
  have hpopped := poppedAt_insertAt (a := a) h (Nat.pos_of_ne_zero hzero)
  constructor
  · intro heq
    refine ⟨?_, Nat.lt_of_le_of_ne hlen hfull⟩
    by_contra hne
    have hone := heq m
    rw [hpopped m, if_pos rfl, if_neg (Ne.symm hne), Multiset.add_zero] at hone
    exact hlost _ hone
  · rintro ⟨rfl, -⟩
    exact hpopped

end SleepQueue

inductive SleepOp
  | insert (taskId : TaskId) (ticks : Nat)
  | tick
  deriving DecidableEq, Repr

namespace SleepOp

def isTick : SleepOp → Bool
  | .insert .. => false
  | .tick => true

def now (ops : List SleepOp) : Nat := ops.countP isTick

def requested : Nat → List SleepOp → Multiset (Nat × TaskId)
  | _, [] => 0
  | t, .insert taskId ticks :: ops => (t + ticks, taskId) ::ₘ requested t ops
  | t, .tick :: ops => requested (t + 1) ops

def pending (ops : List SleepOp) : Multiset (Nat × TaskId) :=
  (requested 0 ops).filter fun e => now ops < e.1

/-- What an operation pops after a history: at a tick, the tasks of exactly the deadlines
that come with it. -/
def due (ops : List SleepOp) : SleepOp → Multiset TaskId
  | .insert .. => 0
  | .tick => ((requested 0 ops).filter fun e => e.1 = now ops + 1).map Prod.snd

variable {ops : List SleepOp} {a : TaskId} {n t : Nat}

theorem requested_append (ops ops' : List SleepOp) :
    requested t (ops ++ ops') = requested t ops + requested (t + now ops) ops' := by
  induction ops generalizing t with
  | nil => exact (Multiset.zero_add _).symm
  | cons op ops ih =>
    cases op with
    | insert taskId ticks =>
      rw [List.cons_append, requested, ih, requested, Multiset.cons_add]
      rfl
    | tick =>
      have hnow : now (SleepOp.tick :: ops) = now ops + 1 := List.countP_cons_of_pos rfl
      rw [List.cons_append, requested, ih, requested, hnow, Nat.add_right_comm, Nat.add_assoc]

theorem now_insert : now (ops ++ [.insert a n]) = now ops := List.countP_append

theorem now_tick : now (ops ++ [.tick]) = now ops + 1 := List.countP_append

theorem pending_insert (hn : 0 < n) :
    pending (ops ++ [.insert a n]) = (now ops + n, a) ::ₘ pending ops := by
  rw [pending, now_insert, requested_append, Multiset.filter_add, Nat.zero_add]
  change _ + Multiset.filter _ ((now ops + n, a) ::ₘ 0) = _
  have hlater : now ops < (now ops + n, a).1 := Nat.lt_add_of_pos_right hn
  rw [Multiset.filter_cons_of_pos (p := fun e : Nat × TaskId => now ops < e.1) 0 hlater,
    Multiset.filter_zero, Multiset.add_cons, Multiset.add_zero, pending]

theorem pending_tick :
    pending (ops ++ [.tick]) = (pending ops).filter fun e => ¬ e.1 = now ops + 1 := by
  rw [pending, pending, now_tick, requested_append, Multiset.filter_filter]
  change Multiset.filter _ (_ + 0) = _
  rw [Multiset.add_zero]
  refine Multiset.filter_congr fun e _ => ?_
  omega

theorem due_tick :
    due ops .tick = ((pending ops).filter fun e => e.1 = now ops + 1).map Prod.snd := by
  rw [due, pending, Multiset.filter_filter]
  congr 1
  refine Multiset.filter_congr fun e _ => ?_
  omega

end SleepOp

namespace SleepSlots

open SleepQueue SleepOp

variable {q q' : SleepSlots} {l : List SleepEntry} {op : SleepOp} {ops : List SleepOp}

def step (q : SleepSlots) : SleepOp → Except Halt (List TaskId × SleepSlots)
  | .insert taskId ticks => do
    let q ← q.insert taskId ticks
    pure ([], q)
  | .tick => q.tick

def Allows (q : SleepSlots) : SleepOp → Prop
  | .insert _ ticks => 1 ≤ ticks ∧ q.queueLen ≠ maxSleepEntries
  | .tick => True

inductive After : List SleepOp → SleepSlots → Prop
  | new : After [] SleepSlots.new
  | step {ops : List SleepOp} {op : SleepOp} {q q' : SleepSlots} {woken : List TaskId} :
      After ops q → q.Allows op → q.step op = .ok (woken, q') → After (ops ++ [op]) q'

def stored (q : SleepSlots) : List SleepEntry := q.entries.toList.reduceOption

theorem Represents.stored_eq (h : Represents q l) : q.stored = l := by
  have hle := h.stores.length_le
  have hlist : q.entries.toList = l.map some ++ List.replicate (maxSleepEntries - l.length) none := by
    refine List.ext_getElem? fun j => ?_
    rw [Array.getElem?_toList]
    by_cases hj : j < maxSleepEntries
    · rw [h.stores.slot j hj]
      by_cases hjl : j < l.length
      · rw [List.getElem?_append_left (by rwa [List.length_map]), List.getElem?_map,
          List.getElem?_eq_getElem hjl]
        rfl
      · rw [List.getElem?_append_right (by rw [List.length_map]; omega), List.length_map,
          List.getElem?_replicate, if_pos (by omega), List.getElem?_eq_none (by omega)]
    · rw [Array.getElem?_eq_none (by rw [h.stores.size_eq]; omega), List.getElem?_eq_none]
      rw [List.length_append, List.length_map, List.length_replicate]
      omega
  rw [stored, hlist, List.reduceOption_append, List.reduceOption_replicate_none, List.append_nil,
    List.reduceOption, List.filterMap_map]
  exact List.filterMap_some

structure Tracks (ops : List SleepOp) (q : SleepSlots) (l : List SleepEntry) : Prop where
  represents : Represents q l
  counting : Counting l
  deadlines_eq : deadlines (now ops) l = pending ops

theorem Tracks.step (h : Tracks ops q l) (hallow : q.Allows op) :
    ∃ woken q' l', q.step op = .ok (woken, q') ∧ (woken : Multiset TaskId) = due ops op ∧
      Tracks (ops ++ [op]) q' l' := by
  cases op with
  | insert taskId ticks =>
    obtain ⟨hpos, hroom⟩ := hallow
    rw [h.represents.queueLen_eq] at hroom
    obtain ⟨q', hinsert, hq'⟩ := h.represents.insert taskId ticks
    rw [SleepQueue.insert, if_neg (Nat.ne_of_gt hpos), if_neg hroom] at hq'
    refine ⟨[], q', _, bind_eq_ok.mpr ⟨q', hinsert, rfl⟩, rfl, hq', h.counting.insertAt hpos, ?_⟩
    rw [now_insert, deadlines_insertAt, h.deadlines_eq, pending_insert hpos]
  | tick =>
    obtain ⟨q', htick, hq'⟩ := h.represents.tick
    refine ⟨_, q', _, htick, ?_, hq', counting_tick, ?_⟩
    · rw [due_tick, ← h.deadlines_eq]
      exact tick_woken h.counting
    · rw [now_tick, pending_tick, ← h.deadlines_eq]
      exact tick_left h.counting

theorem After.tracks (h : After ops q) : ∃ l, Tracks ops q l := by
  induction h with
  | new =>
    refine ⟨[], represents_new, ?_, rfl⟩
    intro entry hentry
    cases hentry
  | step hbefore hallow hstep ih =>
    obtain ⟨l, htracks⟩ := ih
    obtain ⟨woken, q', l', hstep', -, htracks'⟩ := htracks.step hallow
    rw [hstep] at hstep'
    cases hstep'
    exact ⟨l', htracks'⟩

theorem After.queueLen_eq (h : After ops q) : q.queueLen = (pending ops).card := by
  obtain ⟨l, htracks⟩ := h.tracks
  rw [htracks.represents.queueLen_eq, ← htracks.deadlines_eq, card_deadlines]

theorem After.exists_step (h : After ops q) (op : SleepOp) (hallow : q.Allows op) :
    ∃ q', After (ops ++ [op]) q' := by
  obtain ⟨l, htracks⟩ := h.tracks
  obtain ⟨woken, q', l', hstep, -⟩ := htracks.step hallow
  exact ⟨q', h.step hallow hstep⟩

/-- The delta queue keeps the deadlines that were asked for and have not come, each operation
returns, and each tick pops exactly the tasks whose deadline it is. -/
theorem sleep_queue_refines_deadlines (h : After ops q) :
    deadlines (now ops) q.stored = pending ops ∧
      ∀ op, q.Allows op →
        ∃ woken q', q.step op = .ok (woken, q') ∧ (woken : Multiset TaskId) = due ops op := by
  obtain ⟨l, htracks⟩ := h.tracks
  refine ⟨?_, fun op hallow => ?_⟩
  · rw [htracks.represents.stored_eq]
    exact htracks.deadlines_eq
  · obtain ⟨woken, q', l', hstep, hdue, -⟩ := htracks.step hallow
    exact ⟨woken, q', hstep, hdue⟩

theorem sleep_queue_refines_deadlines_tie :
    ∃ q, After [.insert ⟨7, 1⟩ 2, .insert ⟨8, 1⟩ 2, .tick] q ∧
      deadlines 1 q.stored = {(2, ⟨7, 1⟩), (2, ⟨8, 1⟩)} ∧
      ∃ woken q', q.step .tick = .ok (woken, q') ∧ (woken : Multiset TaskId) = {⟨7, 1⟩, ⟨8, 1⟩} := by
  obtain ⟨q1, h1⟩ := After.new.exists_step (.insert ⟨7, 1⟩ 2) ⟨by decide, by decide⟩
  obtain ⟨q2, h2⟩ := h1.exists_step (.insert ⟨8, 1⟩ 2) ⟨by decide, by rw [h1.queueLen_eq]; decide⟩
  obtain ⟨q, h⟩ := h2.exists_step .tick trivial
  obtain ⟨hstored, hstep⟩ := sleep_queue_refines_deadlines h
  obtain ⟨woken, q', htick, hwoken⟩ := hstep .tick trivial
  exact ⟨q, h, hstored.trans (by decide), woken, q', htick, hwoken.trans (by decide)⟩

end SleepSlots

namespace Processor

open Scheduler SleepQueue

variable {p p' : Processor} {sym : Symbols} {task : Task} {seconds : Nat}

theorem Reached.sleepQueue (h : p.Reached sym (fun _ _ => True)) :
    Counting p.sched.sleepQueue.entries ∧ p.sched.sleepQueue.entries.length ≤ 256 := by
  refine h.invariant
    (fun p => Counting p.sched.sleepQueue.entries ∧ p.sched.sleepQueue.entries.length ≤ 256) ?_ ?_
  · rintro _ ⟨idleStack, kernelStack, cr3, rfl⟩
    refine ⟨?_, Nat.zero_le _⟩
    intro entry hentry
    cases hentry
  · rintro p p' ⟨hcount, hlen⟩ ⟨e, -, -, hok⟩
    exact ⟨counting_exec hcount hok, length_exec hlen hok⟩

/-- A call of `sleep` blocks its task and has it woken once more, at the tick that is `1000 * seconds`
ticks away, exactly if the product fits and the queue has room. -/
theorem sleep_expires_iff (h : p.Reached sym (fun _ _ => True)) (hen : p.Enabled (.sleep seconds))
    (hfind : p.sched.find p.sched.current = some task) (hok : p.exec sym (.sleep seconds) = .ok p') :
    (p'.sched.InState p.sched.current .blocked ∧
      ∀ k, (poppedAt p'.sched.sleepQueue.entries k : Multiset TaskId) =
        poppedAt p.sched.sleepQueue.entries k + if k = 1000 * seconds then {p.sched.current} else 0) ↔
    1000 * seconds < 2 ^ 32 ∧ p.sched.sleepQueue.entries.length < 256 := by
  obtain ⟨hcount, hlen⟩ := h.sleepQueue
  have hpos : 0 < 1000 * seconds := Nat.mul_pos (by decide) (Nat.pos_of_ne_zero hen.2.2.1)
  have hfits : seconds * 1000 % 2 ^ 32 = 1000 * seconds ↔ 1000 * seconds < 2 ^ 32 := by omega
  have hblocked : p'.sched.InState p.sched.current .blocked := by
    cases hok
    refine ⟨{ task with ticksRemaining := taskQuantumTicks, state := .blocked }, ?_, rfl⟩
    refine (find_markBlocked _ _).trans ((if_pos rfl).trans ?_)
    exact congrArg _ hfind
  have hqueue : p'.sched.sleepQueue =
      p.sched.sleepQueue.insert p.sched.current (seconds * 1000 % 2 ^ 32) := by
    rcases exec_sleepQueue hok with ⟨_, hsleep, hqueue⟩ | ⟨⟨_, htick⟩, -⟩ | ⟨hother, -⟩
    · cases hsleep
      exact hqueue
    · cases htick
    · cases hother
  rw [hqueue, poppedAt_insert_iff hcount hlen hpos, hfits]
  exact and_iff_right hblocked

/-- A second is a thousand ticks. -/
theorem sleep_expires_iff_second : ∃ p p' : Processor, p.Reached sampleSymbols (fun _ _ => True) ∧
    p.sched.current = ⟨1, 0⟩ ∧ p.exec sampleSymbols (.sleep 1) = .ok p' ∧
    p'.sched.InState ⟨1, 0⟩ .blocked ∧
    (poppedAt p'.sched.sleepQueue.entries 1000 : Multiset TaskId) =
      poppedAt p.sched.sleepQueue.entries 1000 + {⟨1, 0⟩} := by
  obtain ⟨p, hp, hcurrent, hfind, hen, hroom⟩ := exists_reached sampleSymbols (fun _ _ => True) 0 0 0
    [.spawn "A" 1 (sampleTask 1), .initComplete, .yield 0x7000]
    (fun p => p.sched.current = ⟨1, 0⟩ ∧ (p.sched.find p.sched.current).isSome = true ∧
      p.Enabled (.sleep 1) ∧ p.sched.sleepQueue.entries.length < 256) (by decide +kernel)
  obtain ⟨task, htask⟩ := Option.isSome_iff_exists.mp hfind
  obtain ⟨hblocked, hpopped⟩ := (sleep_expires_iff hp hen htask rfl).mpr ⟨by decide, hroom⟩
  rw [hcurrent] at hblocked hpopped
  exact ⟨p, _, hp, hcurrent, rfl, hblocked, hpopped 1000⟩

/-- A sleep of 4294968 seconds ends after 704 ticks. -/
theorem sleep_overflows : ∃ p p' : Processor, p.Reached sampleSymbols (fun _ _ => True) ∧
    p.Enabled (.sleep 4294968) ∧ p.exec sampleSymbols (.sleep 4294968) = .ok p' ∧
    p.sched.current = ⟨1, 0⟩ ∧ p'.sched.InState ⟨1, 0⟩ .blocked ∧
    poppedAt p'.sched.sleepQueue.entries 704 = [⟨1, 0⟩] := by
  obtain ⟨p, hp, hen, hcurrent, hblocked, hpopped⟩ :=
    exists_reached sampleSymbols (fun _ _ => True) 0 0 0
    [.spawn "A" 1 (sampleTask 1), .initComplete, .yield 0x7000]
    (fun p => p.Enabled (.sleep 4294968) ∧ p.sched.current = ⟨1, 0⟩ ∧
      (p.sched.markSleeping 4294968).InState ⟨1, 0⟩ .blocked ∧
      poppedAt (p.sched.markSleeping 4294968).sleepQueue.entries 704 = [⟨1, 0⟩]) (by decide +kernel)
  exact ⟨p, _, hp, hen, rfl, hcurrent, hblocked, hpopped⟩

end Processor

end CrapOs
