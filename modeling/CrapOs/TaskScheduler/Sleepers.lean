import CrapOs.TaskScheduler.ExitRequests

/-! # Sleeping tasks

`sleep` makes an entry in the delta queue and blocks the task, and the timer interrupt
wakes it when the entry has been counted down. Killing a task leaves its entry where it
is, so that the 256 entries can all be taken by tasks that are long gone; the next call
of `sleep` then blocks its task without an entry.
-/

namespace CrapOs

open Foundation

namespace SleepQueue

variable {a b : TaskId} {l : List SleepEntry} {n w : Nat}

def Holds (l : List SleepEntry) (a : TaskId) : Prop := ∃ entry ∈ l, entry.taskId = a

instance (l : List SleepEntry) (a : TaskId) : Decidable (Holds l a) :=
  inferInstanceAs (Decidable (∃ entry ∈ l, entry.taskId = a))

def Counting (l : List SleepEntry) : Prop := ∀ entry ∈ l.head?, 0 < entry.deltaTicks

inductive DueWithin (a : TaskId) : Nat → List SleepEntry → Prop
  | here {entry : SleepEntry} {rest : List SleepEntry} {w : Nat} : entry.taskId = a →
      entry.deltaTicks ≤ w → DueWithin a w (entry :: rest)
  | later {entry : SleepEntry} {rest : List SleepEntry} {w : Nat} : entry.deltaTicks ≤ w →
      DueWithin a (w - entry.deltaTicks) rest → DueWithin a w (entry :: rest)

theorem holds_cons {entry : SleepEntry} : Holds (entry :: l) a ↔ entry.taskId = a ∨ Holds l a := by
  simp [Holds]

theorem holds_insertAt : Holds (insertAt b n l) a ↔ b = a ∨ Holds l a := by
  induction l generalizing n with
  | nil =>
    rw [insertAt, holds_cons]
  | cons entry rest ih =>
    rw [insertAt]
    split
    · rw [holds_cons, holds_cons, holds_cons]
    · rw [holds_cons, holds_cons, ih, or_left_comm]

theorem length_insertAt : (insertAt b n l).length = l.length + 1 := by
  induction l generalizing n with
  | nil => rfl
  | cons entry rest ih =>
    rw [insertAt]
    split
    · rfl
    · rw [List.length_cons, ih, List.length_cons]

theorem Counting.insertAt (h : Counting l) (hn : 0 < n) : Counting (insertAt b n l) := by
  cases l with
  | nil =>
    rintro entry ⟨⟩
    exact hn
  | cons head rest =>
    rw [SleepQueue.insertAt]
    split
    · rintro entry ⟨⟩
      exact hn
    · rintro entry ⟨⟩
      exact h head rfl

theorem DueWithin.insertAt (h : DueWithin a w l) : DueWithin a w (insertAt b n l) := by
  induction h generalizing n with
  | @here entry rest w hid hle =>
    rw [SleepQueue.insertAt]
    split
    · have hn : n ≤ w := by omega
      exact .later hn (.here hid (Nat.sub_le_sub_right hle n))
    · exact .here hid hle
  | @later entry rest w hle hrest ih =>
    rw [SleepQueue.insertAt]
    split
    · have hn : n ≤ w := by omega
      refine .later hn (.later (Nat.sub_le_sub_right hle n) ?_)
      rw [show w - n - (entry.deltaTicks - n) = w - entry.deltaTicks by omega]
      exact hrest
    · exact .later hle ih

theorem Holds.dueWithin (h : Holds l a) : ∃ w, DueWithin a w l := by
  induction l with
  | nil =>
    obtain ⟨entry, hmem, -⟩ := h
    cases hmem
  | cons entry rest ih =>
    rcases holds_cons.mp h with hid | hrest
    · exact ⟨entry.deltaTicks, .here hid (Nat.le_refl _)⟩
    · obtain ⟨w, hw⟩ := ih hrest
      exact ⟨entry.deltaTicks + w, .later (Nat.le_add_right _ _) (by rwa [Nat.add_sub_cancel_left])⟩

/-! ## A tick -/

def expired (l : List SleepEntry) : List SleepEntry := l.takeWhile fun entry => entry.deltaTicks = 0

def remaining (l : List SleepEntry) : List SleepEntry := l.dropWhile fun entry => entry.deltaTicks = 0

theorem expired_append_remaining (l : List SleepEntry) : expired l ++ remaining l = l :=
  List.takeWhile_append_dropWhile

theorem holds_expired_or (h : Holds l a) : Holds (expired l) a ∨ Holds (remaining l) a := by
  obtain ⟨entry, hmem, hid⟩ := h
  rw [← expired_append_remaining l] at hmem
  rcases List.mem_append.mp hmem with hmem | hmem
  · exact .inl ⟨entry, hmem, hid⟩
  · exact .inr ⟨entry, hmem, hid⟩

theorem counting_remaining (l : List SleepEntry) : Counting (remaining l) := by
  intro entry hentry
  have hne := List.head?_dropWhile_not (fun entry : SleepEntry => decide (entry.deltaTicks = 0)) l
  rw [remaining, Option.mem_def] at hentry
  rw [hentry] at hne
  have hdelta : ¬ entry.deltaTicks = 0 := by simpa using hne
  omega

theorem holds_countDown (q : SleepQueue) : Holds q.countDown.entries a ↔ Holds q.entries a := by
  obtain ⟨l⟩ := q
  cases l with
  | nil => rfl
  | cons head rest => rw [countDown, holds_cons, holds_cons]

theorem DueWithin.countDown {q : SleepQueue} (h : DueWithin a w q.entries) (hcount : Counting q.entries) :
    0 < w ∧ DueWithin a (w - 1) q.countDown.entries := by
  obtain ⟨l⟩ := q
  cases h with
  | @here entry rest _ hid hle =>
    have hpos := hcount entry rfl
    exact ⟨by omega, .here hid (by dsimp only; omega)⟩
  | @later entry rest _ hle hrest =>
    have hpos := hcount entry rfl
    refine ⟨by omega, .later (by dsimp only; omega) ?_⟩
    rwa [show w - 1 - (entry.deltaTicks - 1) = w - entry.deltaTicks by omega]

theorem DueWithin.expires (h : DueWithin a w l) : Holds (expired l) a ∨ DueWithin a w (remaining l) := by
  induction h with
  | @here entry rest w hid hle =>
    by_cases hzero : entry.deltaTicks = 0
    · rw [expired, List.takeWhile_cons_of_pos (by simpa using hzero)]
      exact .inl (holds_cons.mpr (.inl hid))
    · rw [remaining, List.dropWhile_cons_of_neg (by simpa using hzero)]
      exact .inr (.here hid hle)
  | @later entry rest w hle hrest ih =>
    by_cases hzero : entry.deltaTicks = 0
    · rw [expired, remaining, List.takeWhile_cons_of_pos (by simpa using hzero),
        List.dropWhile_cons_of_pos (by simpa using hzero), holds_cons]
      rw [hzero, Nat.sub_zero] at ih
      exact ih.imp .inr id
    · rw [remaining, List.dropWhile_cons_of_neg (by simpa using hzero)]
      exact .inr (.later hle hrest)

end SleepQueue

namespace Scheduler

open SleepQueue

variable {s : Scheduler} {a : TaskId} {l : List SleepEntry}

theorem sleepQueue_wakeExpired (l : List SleepEntry) (s : Scheduler) :
    (wakeExpired l s).sleepQueue.entries = remaining l := by
  induction l generalizing s with
  | nil => rfl
  | cons entry rest ih =>
    rw [wakeExpired]
    by_cases hzero : entry.deltaTicks = 0
    · rw [if_neg (not_not.mpr hzero), ih, remaining, remaining,
        List.dropWhile_cons_of_pos (by simpa using hzero)]
    · rw [if_pos hzero, remaining, List.dropWhile_cons_of_neg (by simpa using hzero)]

theorem not_blocked_wakeExpired (h : Holds (expired l) a) (s : Scheduler) :
    ¬ (wakeExpired l s).InState a .blocked := by
  induction l generalizing s with
  | nil =>
    obtain ⟨entry, hmem, -⟩ := h
    cases hmem
  | cons entry rest ih =>
    by_cases hzero : entry.deltaTicks = 0
    · rw [expired, List.takeWhile_cons_of_pos (by simpa using hzero), holds_cons] at h
      rw [wakeExpired, if_neg (not_not.mpr hzero)]
      rcases h with rfl | hrest
      · intro hblocked
        have hT := allowsTimer_noNewBlocked
        have hfollow : Follows NoNewBlocked (fun _ => True) (s.wake entry.taskId).2
            (wakeExpired rest (s.wake entry.taskId).2) :=
          wakeExpired_inv (P := Follows NoNewBlocked (fun _ => True) (s.wake entry.taskId).2)
            (fun _ _ h => h.trans hT.trans (.wake hT.refl hT.wake))
            (fun _ _ h => h.trans hT.trans (.of_find hT.refl fun _ => rfl)) rest
            (.of_find hT.refl fun _ => rfl)
        exact s.not_blocked_wake entry.taskId (blocked_of_follows hfollow hblocked)
      · exact ih hrest _
    · rw [expired, List.takeWhile_cons_of_neg (by simpa using hzero)] at h
      obtain ⟨entry, hmem, -⟩ := h
      cases hmem

theorem timerWork_sleepQueue (s : Scheduler) :
    s.timerWork.2.sleepQueue.entries = remaining s.sleepQueue.countDown.entries := by
  have hticked : s.onTimerTick.2.sleepQueue = s.tickSleepQueue.sleepQueue := by
    rw [onTimerTick]
    split <;> rfl
  obtain ⟨_, _, _, _, _, hdrain⟩ := s.onTimerTick.2.drainSystemTasks_frame
  obtain ⟨_, _, _, hbury⟩ := s.onTimerTick.2.drainSystemTasks.tombstoneCleanup_frame
  obtain ⟨_, _, _, hreap⟩ := s.onTimerTick.2.drainSystemTasks.tombstoneCleanup.reapDyingTasks_frame
  have hsame : s.timerWork.2.sleepQueue = s.onTimerTick.2.sleepQueue := by
    rw [timerWork]
    dsimp only
    rw [hreap, hbury, hdrain]
  rw [hsame, hticked, tickSleepQueue, sleepQueue_wakeExpired]

end Scheduler

def Event.isSleep : Event → Bool
  | .sleep _ => true
  | _ => false

/-- The calls of `sleep` stay below the number of seconds at which the product overflows. -/
def ShortSleeps (_ : Processor) : Event → Prop
  | .sleep seconds => seconds ≤ 4294967
  | _ => True

instance (p : Processor) : (e : Event) → Decidable (ShortSleeps p e)
  | .sleep seconds => inferInstanceAs (Decidable (seconds ≤ 4294967))
  | .spawn .. | .block | .yield _ | .exit _ | .exitThread _ | .keyboard _ | .tick _ | .initComplete =>
    .isTrue trivial

namespace Processor

open Scheduler SleepQueue

variable {p p' : Processor} {sym : Symbols} {e : Event} {a : TaskId} {n : Nat}

/-- What an event makes of the sleep queue. -/
theorem exec_sleepQueue (hok : p.exec sym e = .ok p') :
    (∃ seconds, e = .sleep seconds ∧ p'.sched.sleepQueue =
      p.sched.sleepQueue.insert p.sched.current (seconds * 1000 % 2 ^ 32)) ∨
    (∃ rsp, e = .tick rsp) ∧
      p'.sched.sleepQueue.entries = remaining p.sched.sleepQueue.countDown.entries ∨
    e.isSleep = false ∧ isTick e = false ∧ p'.sched.sleepQueue = p.sched.sleepQueue := by
  cases e with
  | sleep seconds =>
    cases hok
    obtain ⟨_, _, heq⟩ := markBlocked_frame { p.sched with
      sleepQueue := p.sched.sleepQueue.insert p.sched.current (seconds * 1000 % 2 ^ 32) }
    exact .inl ⟨seconds, rfl, by rw [markSleeping, heq]⟩
  | tick rsp =>
    obtain ⟨s, htick, hret⟩ := bind_eq_ok.mp hok
    cases hret
    refine .inr (.inl ⟨⟨rsp, rfl⟩, ?_⟩)
    rw [← timerWork_sleepQueue]
    rcases handlerApicTimer_ok htick with ⟨-, hresched⟩ | ⟨-, rfl⟩
    · obtain ⟨_, _, _, _, _, _, heq⟩ := reschedule_frame hresched
      rw [heq]
    · rfl
  | spawn | block | yield | exit | exitThread | keyboard | initComplete =>
    exact .inr (.inr ⟨rfl, rfl, (exec_queues hok nofun).2 nofun⟩)

theorem not_blocked_tick {rsp : Nat} (h : Holds (expired p.sched.sleepQueue.countDown.entries) a)
    (hok : p.exec sym (.tick rsp) = .ok p') : ¬ p'.sched.InState a .blocked := by
  obtain ⟨s, htick, hret⟩ := bind_eq_ok.mp hok
  cases hret
  intro hblocked
  refine not_blocked_wakeExpired h p.sched ?_
  refine blocked_of_follows (allowsTimer_noNewBlocked.work.afterSleepers p.sched) ?_
  rcases handlerApicTimer_ok htick with ⟨-, hresched⟩ | ⟨-, rfl⟩
  · have hfollow : Follows NoNewBlocked (fun _ => True) p.sched.timerWork.2 s :=
      allowsSwitch_noNewBlocked.reschedule (fun _ _ => id) hresched
    exact blocked_of_follows hfollow hblocked
  · exact hblocked

theorem counting_exec (h : Counting p.sched.sleepQueue.entries) (hok : p.exec sym e = .ok p') :
    Counting p'.sched.sleepQueue.entries := by
  rcases exec_sleepQueue hok with ⟨seconds, rfl, heq⟩ | ⟨-, heq⟩ | ⟨-, -, heq⟩
  · rw [heq, SleepQueue.insert]
    split
    · exact h
    · rename_i hticks
      split
      · exact h
      · exact h.insertAt (Nat.pos_of_ne_zero hticks)
  · rw [heq]
    exact counting_remaining _
  · rw [heq]
    exact h

theorem dueWithin_exec (h : DueWithin a n p.sched.sleepQueue.entries)
    (hcount : Counting p.sched.sleepQueue.entries) (hok : p.exec sym e = .ok p')
    (hblocked : p'.sched.InState a .blocked) :
    [e].countP isTick ≤ n ∧ DueWithin a (n - [e].countP isTick) p'.sched.sleepQueue.entries := by
  rcases exec_sleepQueue hok with ⟨seconds, rfl, heq⟩ | ⟨⟨rsp, rfl⟩, heq⟩ | ⟨-, htick, heq⟩
  · refine ⟨Nat.zero_le _, ?_⟩
    rw [heq, SleepQueue.insert]
    split
    · exact h
    · split
      · exact h
      · exact h.insertAt
  · obtain ⟨hpos, hnearer⟩ := h.countDown hcount
    rw [heq]
    refine ⟨hpos, hnearer.expires.resolve_left fun hexpired => ?_⟩
    exact not_blocked_tick hexpired hok hblocked
  · have hzero : [e].countP isTick = 0 := by rw [List.countP_singleton, htick]; rfl
    rw [hzero, heq]
    exact ⟨Nat.zero_le _, h⟩

theorem woken_in_time {es : List Event} (h : DueWithin a n p.sched.sleepQueue.entries)
    (hcount : Counting p.sched.sleepQueue.entries) (hrun : p.runs sym (fun _ _ => True) es = some p')
    (hticks : n ≤ es.countP isTick) :
    ∃ es1 es2 p1, es = es1 ++ es2 ∧ p.runs sym (fun _ _ => True) es1 = some p1 ∧
      ¬ p1.sched.InState a .blocked := by
  induction es generalizing p n with
  | nil =>
    obtain ⟨hpos, -⟩ := h.countDown hcount
    rw [List.countP_nil] at hticks
    omega
  | cons e rest ih =>
    obtain ⟨p1, hen, hcond, hexec, hrest⟩ := runs_cons.mp hrun
    by_cases hblocked : p1.sched.InState a .blocked
    · obtain ⟨hle, hdue⟩ := dueWithin_exec h hcount hexec hblocked
      rw [List.countP_cons] at hticks
      rw [List.countP_singleton] at hdue hle
      obtain ⟨es1, es2, p2, rfl, hrun1, hawake⟩ :=
        ih hdue (counting_exec hcount hexec) hrest (by omega)
      exact ⟨e :: es1, es2, p2, rfl, runs_cons.mpr ⟨p1, hen, hcond, hexec, hrun1⟩, hawake⟩
    · exact ⟨[e], rest, p1, rfl, runs_cons.mpr ⟨p1, hen, hcond, hexec, rfl⟩, hblocked⟩

theorem length_exec (h : p.sched.sleepQueue.entries.length ≤ 256) (hok : p.exec sym e = .ok p') :
    p'.sched.sleepQueue.entries.length ≤ 256 := by
  rcases exec_sleepQueue hok with ⟨seconds, -, heq⟩ | ⟨-, heq⟩ | ⟨-, -, heq⟩
  · rw [heq, SleepQueue.insert]
    split
    · exact h
    · split
      · exact h
      · rename_i hfull
        rw [length_insertAt]
        exact Nat.lt_of_le_of_ne h hfull
  · have hcount : p.sched.sleepQueue.countDown.entries.length = p.sched.sleepQueue.entries.length := by
      rw [SleepQueue.countDown]
      split <;> simp_all
    rw [heq]
    exact Nat.le_trans (List.dropWhile_sublist _).length_le (hcount.trans_le h)
  · rw [heq]
    exact h

theorem holds_after_sleep_iff {seconds : Nat} (hpos : seconds ≠ 0) (hshort : seconds ≤ 4294967)
    (hlen : p.sched.sleepQueue.entries.length ≤ 256) (hok : p.exec sym (.sleep seconds) = .ok p') :
    Holds p'.sched.sleepQueue.entries p.sched.current ↔
      p.sched.sleepQueue.entries.length < 256 ∨ Holds p.sched.sleepQueue.entries p.sched.current := by
  have hticks : seconds * 1000 % 2 ^ 32 ≠ 0 := by
    rw [Nat.mod_eq_of_lt (Nat.lt_of_le_of_lt (Nat.mul_le_mul_right 1000 hshort) (by decide))]
    exact Nat.mul_ne_zero hpos (by decide)
  rcases exec_sleepQueue hok with ⟨_, hsame, heq⟩ | ⟨⟨rsp, hother⟩, -⟩ | ⟨hother, -⟩
  · cases hsame
    rw [heq, SleepQueue.insert, if_neg hticks]
    by_cases hfull : p.sched.sleepQueue.entries.length = 256
    · rw [if_pos (by exact hfull)]
      have hroom : ¬ p.sched.sleepQueue.entries.length < 256 := by omega
      simp only [hroom, false_or]
    · rw [if_neg (by exact hfull)]
      have hroom : p.sched.sleepQueue.entries.length < 256 := by omega
      simp only [hroom, true_or, iff_true]
      exact holds_insertAt.mpr (.inl rfl)
  · cases hother
  · cases hother

end Processor

end CrapOs
