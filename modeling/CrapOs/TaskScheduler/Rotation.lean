import CrapOs.TaskScheduler.Readiness
import CrapOs.TaskScheduler.RunningTask

/-! # Tasks that take their turn

A task that neither blocks nor ends is running, or it is ready and stands in the
ready queue once. Everything but `schedule` leaves it where it is, and appends
other tasks to the queue at most. `schedule` takes the first ready task, so of
two tasks in the queue the one in front is chosen first.
-/

namespace CrapOs

open Foundation

namespace Scheduler

variable {s s' : Scheduler} {a b : TaskId} {x : TaskState} {l : List TaskId} {sym : Symbols} {rsp : Nat}

inductive Turns (s : Scheduler) (a : TaskId) : Prop
  | running : s.current = a → s.InState a .running → a ∉ s.queue.entries → Turns s a
  | waiting : s.current ≠ a → s.InState a .ready → s.queue.entries.count a = 1 → Turns s a

structure Absent (s : Scheduler) (a : TaskId) : Prop where
  find : s.find a = none
  current : s.current ≠ a
  queue : a ∉ s.queue.entries

/-- The tasks in `l` stay as they are, except that others may be queued behind them. -/
structure Untouched (l : List TaskId) (s s' : Scheduler) : Prop where
  current : s'.current = s.current
  queue : ∃ woken, s'.queue.entries = s.queue.entries ++ woken ∧ ∀ a ∈ l, a ∉ woken
  state : ∀ a ∈ l, (s'.find a).map Task.state = (s.find a).map Task.state

theorem inState_iff : s.InState a x ↔ (s.find a).map Task.state = some x := Option.map_eq_some_iff.symm

theorem Turns.inState (h : s.Turns a) : s.InState a .running ∨ s.InState a .ready := by
  cases h with
  | running _ hrun _ => exact .inl hrun
  | waiting _ hready _ => exact .inr hready

theorem Turns.exists_find (h : s.Turns a) : ∃ t, s.find a = some t := by
  rcases h.inState with ⟨t, ht, -⟩ | ⟨t, ht, -⟩
  · exact ⟨t, ht⟩
  · exact ⟨t, ht⟩

theorem not_inState (h : s.Turns a ∨ s.Absent a) (hx : ¬ x.Runnable) : ¬ s.InState a x := by
  intro hin
  rcases h with hturns | habsent
  · rcases hturns.inState with hrun | hready
    · exact hx (.inr (hin.unique hrun))
    · exact hx (.inl (hin.unique hready))
  · obtain ⟨t, ht, -⟩ := hin
    rw [habsent.find] at ht
    cases ht

namespace Untouched

theorem refl (l : List TaskId) (s : Scheduler) : Untouched l s s :=
  ⟨rfl, ⟨[], (List.append_nil _).symm, fun _ _ => List.not_mem_nil⟩, fun _ _ => rfl⟩

theorem trans {s'' : Scheduler} (h : Untouched l s s') (h' : Untouched l s' s'') :
    Untouched l s s'' := by
  obtain ⟨woken, hqueue, hwoken⟩ := h.queue
  obtain ⟨woken', hqueue', hwoken'⟩ := h'.queue
  refine ⟨h'.current.trans h.current, ⟨woken ++ woken', ?_, fun a ha hmem => ?_⟩,
    fun a ha => (h'.state a ha).trans (h.state a ha)⟩
  · rw [hqueue', hqueue, List.append_assoc]
  · exact (List.mem_append.mp hmem).elim (hwoken a ha) (hwoken' a ha)

theorem of_state (hcurrent : s'.current = s.current) (hqueue : s'.queue = s.queue)
    (hstate : ∀ a ∈ l, (s'.find a).map Task.state = (s.find a).map Task.state) : Untouched l s s' :=
  ⟨hcurrent, ⟨[], by rw [hqueue, List.append_nil], fun _ _ => List.not_mem_nil⟩, hstate⟩

theorem inState_iff (h : Untouched l s s') (ha : a ∈ l) : s'.InState a x ↔ s.InState a x := by
  rw [Scheduler.inState_iff, Scheduler.inState_iff, h.state a ha]

theorem turns (h : Untouched l s s') (ha : a ∈ l) (hturns : s.Turns a) : s'.Turns a := by
  obtain ⟨woken, hqueue, hwoken⟩ := h.queue
  cases hturns with
  | running hcurrent hrun hout =>
    refine .running (h.current.trans hcurrent) ((h.inState_iff ha).mpr hrun) ?_
    rw [hqueue, List.mem_append, not_or]
    exact ⟨hout, hwoken a ha⟩
  | waiting hcurrent hready hcount =>
    refine .waiting (by rw [h.current]; exact hcurrent) ((h.inState_iff ha).mpr hready) ?_
    rw [hqueue, List.count_append, hcount, List.count_eq_zero.mpr (hwoken a ha)]

theorem absent (h : Untouched l s s') (ha : a ∈ l) (habsent : s.Absent a) : s'.Absent a := by
  obtain ⟨woken, hqueue, hwoken⟩ := h.queue
  refine ⟨?_, by rw [h.current]; exact habsent.current, ?_⟩
  · have hstate := h.state a ha
    rw [habsent.find] at hstate
    exact Option.map_eq_none_iff.mp hstate
  · rw [hqueue, List.mem_append, not_or]
    exact ⟨habsent.queue, hwoken a ha⟩

end Untouched

theorem untouched_modifyTask {f : Task → Task} (hb : b ∉ l) : Untouched l s (s.modifyTask b f) := by
  refine .of_state rfl rfl fun a ha => ?_
  rw [find_modifyTask, if_neg]
  rintro rfl
  exact hb ha

theorem untouched_wake (h : ∀ a ∈ l, ¬ s.InState a .blocked) (b : TaskId) :
    Untouched l s (s.wake b).2 := by
  have hwoken := s.wake_woken b
  generalize (s.wake b).2 = s' at hwoken
  have hother {task : Task} (hfind : s.find b = some task) (hblocked : task.state = .blocked) : b ∉ l :=
    fun hb => h b hb ⟨task, hfind, hblocked⟩
  cases hwoken with
  | idle _ => exact .refl l s
  | @queued task queue hfind hblocked hpush =>
    have hb := hother hfind hblocked
    refine ⟨rfl, ⟨[b], hpush, fun a ha hmem => hb (List.mem_singleton.mp hmem ▸ ha)⟩, ?_⟩
    exact (untouched_modifyTask (s := s) hb).state
  | @full task hfind hblocked _ =>
    exact .of_state rfl rfl (untouched_modifyTask (s := s) (hother hfind hblocked)).state

theorem untouched_onTimerTick (h : ∀ a ∈ l, ¬ s.InState a .blocked) :
    Untouched l s s.onTimerTick.2 := by
  refine onTimerTick_inv (P := Untouched l s) (fun s' b hs => ?_) (fun s' q hs => ?_) (fun s' hs => ?_)
    (fun s' n hs => ?_) (.refl l s)
  · exact hs.trans (untouched_wake (fun a ha => mt (hs.inState_iff ha).mp (h a ha)) b)
  · exact hs.trans (.of_state rfl rfl fun _ _ => rfl)
  · refine hs.trans (.of_state rfl rfl fun a _ => ?_)
    rw [find_modifyTask]
    split
    · rw [Option.map_map]
      rfl
    · rfl
  · exact hs.trans (.of_state rfl rfl fun _ _ => rfl)

theorem untouched_drainSystemTasks (h : ∀ arg ∈ s.systemTasks.entries, .expandTaskId arg ∉ l) :
    Untouched l s s.drainSystemTasks := by
  obtain ⟨_, _, _, _, _, heq⟩ := s.drainSystemTasks_frame
  refine .of_state (by rw [heq]) (by rw [heq]) fun a ha => ?_
  rw [find_drainSystemTasks, if_neg]
  intro hmem
  obtain ⟨arg, harg, rfl⟩ := List.mem_map.mp hmem
  exact h arg harg ha

theorem untouched_tombstoneCleanup (h : ∀ b ∈ s.tombstoneQueue.entries, b ∉ l) :
    Untouched l s s.tombstoneCleanup := by
  refine (tombstoneLoop_inv (P := fun s' => Untouched l s s' ∧ ∀ b ∈ s'.tombstoneQueue.entries, b ∉ l)
    (fun s' b queue hs hpop => ?_) _ ⟨.refl l s, h⟩).1
  have hentries := RingBuffer.entries_pop hpop
  have hb : b ∉ l := hs.2 b (hentries ▸ List.mem_cons_self)
  obtain ⟨_, _, heq⟩ := removeTask_frame { s' with tombstoneQueue := queue } b
  refine ⟨hs.1.trans (.of_state (by rw [heq]) (by rw [heq]) fun a ha => ?_), ?_⟩
  · rw [find_removeTask, if_neg]
    rintro rfl
    exact hb ha
  · rw [heq]
    exact fun c hc => hs.2 c (hentries ▸ List.mem_cons_of_mem _ hc)

theorem untouched_reapTask (h : ∀ a ∈ l, ¬ s.InState a .dying) (b : TaskId) :
    Untouched l s (s.reapTask b) := by
  obtain ⟨_, _, heq⟩ := s.reapTask_frame b
  refine .of_state (by rw [heq]) (by rw [heq]) fun a ha => ?_
  rw [reapTask]
  cases hfind : s.find b with
  | none => rfl
  | some task =>
    by_cases hdying : task.state = .dying
    · have hb : b ∉ l := fun hb => h b hb ⟨task, hfind, hdying⟩
      have hstate := (untouched_modifyTask (s := s) (f := ({ · with state := .dead })) hb).state a ha
      simp only [hdying, if_true]
      split
      · exact hstate
      · exact hstate
    · simp only [hdying, if_false]

/-- The timer interrupt up to its call of `schedule`. -/
theorem untouched_timerWork (h : ∀ a ∈ l, s.Turns a ∨ s.Absent a)
    (hrequests : ∀ arg ∈ s.systemTasks.entries, .expandTaskId arg ∉ l)
    (htombs : ∀ b ∈ s.tombstoneQueue.entries, s.InState b .dead) : Untouched l s s.timerWork.2 := by
  have hnot (x : TaskState) (hx : ¬ x.Runnable) (a : TaskId) (ha : a ∈ l) : ¬ s.InState a x :=
    not_inState (h a ha) hx
  obtain ⟨_, _, _, _, _, heq1⟩ := s.onTimerTick_frame
  have hticked := untouched_onTimerTick (hnot .blocked (by simp [TaskState.Runnable]))
  have hdrained : Untouched l s s.onTimerTick.2.drainSystemTasks := by
    refine hticked.trans (untouched_drainSystemTasks ?_)
    rw [heq1]
    exact hrequests
  obtain ⟨_, _, _, _, _, heq2⟩ := s.onTimerTick.2.drainSystemTasks_frame
  have hburied : Untouched l s s.onTimerTick.2.drainSystemTasks.tombstoneCleanup := by
    refine hdrained.trans (untouched_tombstoneCleanup ?_)
    rw [heq2, heq1]
    exact fun b hb hin => hnot .dead (by simp [TaskState.Runnable]) b hin (htombs b hb)
  have hreaped : Untouched l s s.onTimerTick.2.drainSystemTasks.tombstoneCleanup.reapDyingTasks := by
    refine reapLoop_inv (P := Untouched l s) (fun s' b queue hs _ => ?_) _ hburied
    have hsame : Untouched l s { s' with reaperQueue := queue } :=
      hs.trans (.of_state rfl rfl fun _ _ => rfl)
    refine hsame.trans (untouched_reapTask (fun a ha => mt (hsame.inState_iff ha).mp ?_) b)
    exact hnot .dying (by simp [TaskState.Runnable]) a ha
  exact hreaped.trans (.of_state rfl rfl fun _ _ => rfl)

theorem Chosen.inState_of_ne (h : Chosen s a s') (hb : b ≠ a) : s'.InState b x ↔ s.InState b x := by
  cases h with
  | @ready _ _ _ queue _ _ hready _ =>
    obtain ⟨t, ht, -⟩ := hready
    refine (inState_modifyTask (s := { s with queue := queue }) (b := b) ⟨t, ht⟩).trans ?_
    rw [if_neg hb]
    rfl
  | idle _ _ => rfl

theorem Requeued.inState_of_ne (h : Requeued s a s') (hb : b ≠ a) : s'.InState b x ↔ s.InState b x := by
  have hready (hrun : s.InState a .running) :
      (s.modifyTask a ({ · with state := .ready })).InState b x ↔ s.InState b x := by
    obtain ⟨t, ht, -⟩ := hrun
    rw [inState_modifyTask ⟨t, ht⟩, if_neg hb]
  cases h with
  | idle _ => rfl
  | queued hrun _ _ => exact hready hrun
  | full hrun _ _ => exact hready hrun
  | unqueued hrun _ _ => exact hready hrun

theorem Requeued.queue (h : Requeued s a s') :
    ∃ tail, s'.queue.entries = s.queue.entries ++ tail ∧ ∀ b ∈ tail, b = a := by
  have hnil : s.queue.entries = s.queue.entries ++ [] ∧ ∀ b ∈ ([] : List TaskId), b = a :=
    ⟨(List.append_nil _).symm, fun b hb => absurd hb List.not_mem_nil⟩
  cases h with
  | idle _ => exact ⟨[], hnil⟩
  | queued _ _ hpush => exact ⟨[a], hpush, fun b hb => List.mem_singleton.mp hb⟩
  | full _ _ _ => exact ⟨[], hnil⟩
  | unqueued _ _ _ => exact ⟨[], hnil⟩

theorem Requeued.turns (h : Requeued s a s') (hrun : s.InState a .running) (hidle : a ≠ .idle)
    (hroom : s.queue.entries.length < 256) :
    s'.InState a .ready ∧ s'.queue.entries = s.queue.entries ++ [a] := by
  cases h with
  | idle hnot => exact absurd hrun hnot
  | @queued queue _ _ hpush =>
    obtain ⟨t, ht, -⟩ := hrun
    exact ⟨(inState_modifyTask (b := a) ⟨t, ht⟩).mpr (if_pos rfl ▸ rfl), hpush⟩
  | full _ _ hfull => exact absurd hfull (Nat.ne_of_lt hroom)
  | unqueued _ heq _ => exact absurd heq hidle

theorem turns_switched {args : SwitchArgs} (h : s.Turns a) : (s.switched b rsp args).Turns a := by
  cases h with
  | running hcurrent hrun hout => exact .running hcurrent ((inState_switched _ _ _ _ _ _).mpr hrun) hout
  | waiting hcurrent hready hcount =>
    exact .waiting hcurrent ((inState_switched _ _ _ _ _ _).mpr hready) hcount

/-- What `schedule` does to a task that takes its turn. -/
theorem Turns.dispatched {nextId : TaskId} {next : Task} {s1 s2 : Scheduler} (h : s.Turns a)
    (hidle : a ≠ .idle) (hchosen : Chosen s nextId s1) (hrequeued : Requeued s1 s.current s2) :
    (s2.dispatched nextId next).Turns a := by
  cases h with
  | running hcurrent hrun hout =>
    rw [hcurrent] at hrequeued
    have hroom := hchosen.room
    have hnext : nextId ≠ a ∧ a ∉ s1.queue.entries := by
      cases hchosen with
      | @ready pre rest _ queue hsplit _ _ hrest =>
        rw [hsplit, List.mem_append, List.mem_cons, not_or, not_or] at hout
        refine ⟨Ne.symm hout.2.1, ?_⟩
        show a ∉ queue.entries
        rw [hrest]
        exact hout.2.2
      | @idle queue _ hempty =>
        refine ⟨Ne.symm hidle, ?_⟩
        show a ∉ queue.entries
        rw [hempty]
        exact List.not_mem_nil
    have hrun1 := (hchosen.inState_of_ne (x := .running) (Ne.symm hnext.1)).mpr hrun
    obtain ⟨hready, hqueue⟩ := hrequeued.turns hrun1 hidle hroom
    refine .waiting hnext.1 hready ?_
    show s2.queue.entries.count a = 1
    rw [hqueue, List.count_append, List.count_eq_zero.mpr hnext.2, List.count_singleton_self]
  | waiting hcurrent hready hcount =>
    have hkept (x : TaskState) := hrequeued.inState_of_ne (x := x) (Ne.symm hcurrent)
    obtain ⟨tail, htail, hout⟩ := hrequeued.queue
    have hnone : tail.count a = 0 := List.count_eq_zero.mpr fun ha => hcurrent (hout a ha).symm
    cases hchosen with
    | @ready pre rest _ queue hsplit hpre hnext hrest =>
      have hskip : pre.count a = 0 := List.count_eq_zero.mpr fun ha => hpre a ha hready
      rw [hsplit, List.count_append, hskip, Nat.zero_add] at hcount
      have hqueue : (s2.dispatched nextId next).queue.entries = rest ++ tail :=
        htail.trans (congrArg (· ++ tail) hrest)
      by_cases heq : nextId = a
      · subst heq
        rw [List.count_cons_self] at hcount
        refine .running rfl ((hkept .running).mpr ?_) ?_
        · obtain ⟨t, ht, -⟩ := hnext
          exact (inState_modifyTask (s := { s with queue := queue }) (b := nextId) ⟨t, ht⟩).mpr
            (if_pos rfl ▸ rfl)
        · rw [hqueue, ← List.count_eq_zero, List.count_append, hnone]
          omega
      · have hchosen := Chosen.ready hsplit hpre hnext hrest
        refine .waiting heq ((hkept .ready).mpr ((hchosen.inState_of_ne (Ne.symm heq)).mpr hready)) ?_
        rw [List.count_cons_of_ne heq] at hcount
        rw [hqueue, List.count_append, hnone, hcount]
    | idle hnot _ =>
      have hmem : a ∈ s.queue.entries := List.count_pos_iff.mp (by rw [hcount]; decide)
      exact absurd hready (hnot a hmem)

theorem Turns.reschedule (h : s.Turns a) (hidle : a ≠ .idle) (hok : s.reschedule sym rsp = .ok s') :
    s'.Turns a := by
  obtain ⟨args, s1, hsched, hcase⟩ := reschedule_ok hok
  obtain ⟨nextId, s2, s3, next, hchosen, hrequeued, -, rfl, -⟩ := schedule_ok hsched
  have hturns : (s3.dispatched nextId next).Turns a := h.dispatched hidle hchosen hrequeued
  rcases hcase with ⟨-, rfl⟩ | ⟨x, -, rfl⟩
  · exact hturns
  · exact turns_switched hturns

theorem reschedule_queue (hok : s.reschedule sym rsp = .ok s') : ∃ pre tail,
    (∀ c ∈ pre, ¬ s.InState c .ready) ∧ (∀ c ∈ tail, c = s.current) ∧
      ((∃ rest, s.queue.entries = pre ++ s'.current :: rest ∧ s'.queue.entries = rest ++ tail) ∨
        s'.current = .idle ∧ s.queue.entries = pre ∧ s'.queue.entries = tail) := by
  obtain ⟨args, s1, hsched, hcase⟩ := reschedule_ok hok
  obtain ⟨nextId, s2, s3, next, hchosen, hrequeued, -, rfl, -⟩ := schedule_ok hsched
  have hsame : s'.current = nextId ∧ s'.queue = s3.queue := by
    rcases hcase with ⟨-, rfl⟩ | ⟨x, -, rfl⟩ <;> exact ⟨rfl, rfl⟩
  rw [hsame.1, hsame.2]
  obtain ⟨tail, htail, hout⟩ := hrequeued.queue
  rw [htail]
  cases hchosen with
  | @ready pre rest _ queue hsplit hpre _ hrest =>
    exact ⟨pre, tail, hpre, hout, .inl ⟨rest, hsplit, congrArg (· ++ tail) hrest⟩⟩
  | idle hnone hempty =>
    exact ⟨_, tail, hnone, hout, .inr ⟨rfl, rfl, congrArg (· ++ tail) hempty⟩⟩

theorem Absent.reschedule (h : s.Absent a) (ho : Orderly s) (hok : s.reschedule sym rsp = .ok s') :
    s'.Absent a := by
  obtain ⟨-, ⟨t, ht, -⟩, -, hfollow⟩ := Processor.reschedule_spec ho hok
  have hfind := hfollow.find_none h.find
  refine ⟨hfind, ?_, ?_⟩
  · rintro rfl
    rw [hfind] at ht
    cases ht
  · obtain ⟨pre, tail, -, htail, hsplit⟩ := reschedule_queue hok
    have hout : a ∉ tail := fun ha => h.current (htail a ha).symm
    have hqueue := h.queue
    rcases hsplit with ⟨rest, hsplit, hrest⟩ | ⟨-, -, hrest⟩
    · rw [hsplit, List.mem_append, List.mem_cons, not_or, not_or] at hqueue
      rw [hrest, List.mem_append, not_or]
      exact ⟨hqueue.2.2, hout⟩
    · rw [hrest]
      exact hout

def firstOf (s : Scheduler) (a b : TaskId) : Option TaskId :=
  s.queue.entries.find? fun c => c = a ∨ c = b

theorem Turns.mem_queue (h : s.Turns a) (hne : s.current ≠ a) : a ∈ s.queue.entries := by
  cases h with
  | running hcurrent _ _ => exact absurd hcurrent hne
  | waiting _ _ hcount => exact List.count_pos_iff.mp (by rw [hcount]; decide)

theorem Turns.ready (h : s.Turns a) (hmem : a ∈ s.queue.entries) : s.InState a .ready := by
  cases h with
  | running _ _ hout => exact absurd hmem hout
  | waiting _ hready _ => exact hready

theorem exists_firstOf (ha : s.Turns a) (hb : s.Turns b) (hne : a ≠ b) :
    ∃ c, s.firstOf a b = some c ∧ (c = a ∨ c = b) := by
  have hsome : (s.firstOf a b).isSome := by
    rw [firstOf, List.find?_isSome]
    by_cases hcurrent : s.current = a
    · exact ⟨b, hb.mem_queue (by rw [hcurrent]; exact hne), by simp⟩
    · exact ⟨a, ha.mem_queue hcurrent, by simp⟩
  obtain ⟨c, hc⟩ := Option.isSome_iff_exists.mp hsome
  have hpred := List.find?_some hc
  exact ⟨c, hc, by simpa using hpred⟩

theorem firstOf_of_current (ha : s.Turns a) (hb : s.Turns b) (hne : a ≠ b) (hcurrent : s.current = a) :
    s.firstOf a b = some b ∧ s.firstOf b a = some b := by
  have hout : a ∉ s.queue.entries := by
    cases ha with
    | running _ _ hout => exact hout
    | waiting hnot _ _ => exact absurd hcurrent hnot
  have hswap : s.firstOf b a = s.firstOf a b := by simp only [firstOf, or_comm]
  obtain ⟨c, hc, hcases⟩ := exists_firstOf ha hb hne
  have heq : c = b := by
    refine hcases.resolve_left ?_
    rintro rfl
    exact hout (List.mem_of_find?_eq_some hc)
  rw [hswap, hc, heq]
  exact ⟨rfl, rfl⟩

theorem firstOf_untouched (h : Untouched l s s') (ha : s.Turns a) (hb : s.Turns b) (hne : a ≠ b) :
    s'.firstOf a b = s.firstOf a b := by
  obtain ⟨woken, hqueue, -⟩ := h.queue
  obtain ⟨c, hc, -⟩ := exists_firstOf ha hb hne
  rw [firstOf, hqueue, List.find?_append]
  rw [firstOf] at hc ⊢
  rw [hc]
  rfl

/-- `schedule` chooses the one in front, or neither of them. -/
theorem firstOf_reschedule (ha : s.Turns a) (hb : s.Turns b) (hne : a ≠ b)
    (hok : s.reschedule sym rsp = .ok s') :
    (s'.current = a ∨ s'.current = b → s.firstOf a b = some s'.current) ∧
      (s'.current ≠ a → s'.current ≠ b → s'.firstOf a b = s.firstOf a b) := by
  obtain ⟨pre, tail, hpre, -, hsplit⟩ := reschedule_queue hok
  have hskip : (∀ c ∈ pre, c ∈ s.queue.entries) →
      pre.find? (fun c => decide (c = a ∨ c = b)) = none := by
    intro hmem
    refine List.find?_eq_none.mpr fun c hc => ?_
    rw [decide_eq_true_eq]
    rintro (rfl | rfl)
    · exact hpre _ hc (ha.ready (hmem _ hc))
    · exact hpre _ hc (hb.ready (hmem _ hc))
  rcases hsplit with ⟨rest, hsplit, hrest⟩ | ⟨-, hall, -⟩
  · have hnone := hskip fun c hc => hsplit ▸ List.mem_append_left _ hc
    have hfirst : s.firstOf a b =
        (s'.current :: rest).find? (fun c => decide (c = a ∨ c = b)) := by
      rw [firstOf, hsplit, List.find?_append, hnone, Option.none_or]
    constructor
    · intro hcases
      rw [hfirst, List.find?_cons_of_pos (by simpa using hcases)]
    · intro hna hnb
      obtain ⟨c, hc, -⟩ := exists_firstOf ha hb hne
      rw [List.find?_cons_of_neg (by simp [hna, hnb])] at hfirst
      rw [hfirst] at hc
      rw [hfirst, firstOf, hrest, List.find?_append, hc]
      rfl
  · -- one of the two is in the queue, so it is not used up
    obtain ⟨c, hc, -⟩ := exists_firstOf ha hb hne
    rw [firstOf, hall, hskip fun c hc => hall ▸ hc] at hc
    cases hc

end Scheduler

end CrapOs
