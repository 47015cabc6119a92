import CrapOs.TaskScheduler.Scheduler

/-! # What the operations of the scheduler do

One lemma for each operation, in terms of the tasks ids stand for and the lists
the queues hold, and a rule for each loop of the timer interrupt.
-/

namespace CrapOs

open Foundation

namespace Scheduler

variable {s s' : Scheduler} {task t : Task} {taskId a b : TaskId} {sym : Symbols}

def InState (s : Scheduler) (taskId : TaskId) (state : TaskState) : Prop :=
  ∃ t, s.find taskId = some t ∧ t.state = state

instance (s : Scheduler) (taskId : TaskId) (state : TaskState) : Decidable (s.InState taskId state) :=
  decidable_of_iff ((s.find taskId).map Task.state = some state) (by
    rw [InState, Option.map_eq_some_iff])

theorem find_modifyTask (s : Scheduler) (a b : TaskId) (f : Task → Task) :
    (s.modifyTask a f).find b = if b = a then (s.find b).map f else s.find b :=
  s.global.getTask_modifyTask a b f

@[simp] theorem find_setStates (s : Scheduler) (a b : TaskId) (thread : ThreadId) (x : TaskState)
    (y : ThreadState) : (s.setStates a thread x y).find b =
      if b = a then (s.find b).map ({ · with state := x }) else s.find b :=
  s.find_modifyTask a b _

theorem inState_modifyTask (h : ∃ t, s.find a = some t) {x y : TaskState} :
    (s.modifyTask a ({ · with state := x })).InState b y ↔ if b = a then y = x else s.InState b y := by
  obtain ⟨t, ht⟩ := h
  by_cases hb : b = a
  · subst hb
    rw [if_pos rfl, InState, find_modifyTask, if_pos rfl, ht]
    constructor
    · rintro ⟨t', ht', rfl⟩
      cases ht'
      rfl
    · rintro rfl
      exact ⟨_, rfl, rfl⟩
  · rw [if_neg hb, InState, find_modifyTask, if_neg hb, InState]

theorem inState_setStates (h : s.find a = some task) (thread : ThreadId) (x : TaskState)
    (y : ThreadState) (z : TaskState) : (s.setStates a thread x y).InState b z ↔
      if b = a then z = x else s.InState b z :=
  inState_modifyTask ⟨task, h⟩

theorem threads_setStates (s : Scheduler) (a : TaskId) (thread u : ThreadId) (x : TaskState)
    (y : ThreadState) : (s.setStates a thread x y).threads u =
      if u = thread then { s.threads u with state := y } else s.threads u := by
  by_cases hu : u = thread
  · subst hu
    simp [setStates, modifyThread, modifyTask]
  · simp [setStates, modifyThread, modifyTask, hu]

theorem find_markBlocked (s : Scheduler) (b : TaskId) : s.markBlocked.find b =
    if b = s.current then
      (s.find b).map ({ · with ticksRemaining := taskQuantumTicks, state := .blocked })
    else s.find b := by
  rw [markBlocked]
  cases hfind : s.find s.current with
  | none =>
    dsimp only
    split
    · rename_i hb
      rw [hb, hfind]
      rfl
    · rfl
  | some task =>
    have hcurrent : ∀ f, (s.modifyTask s.current f).current = s.current := fun _ => rfl
    rw [find_setStates, find_modifyTask, hcurrent]
    by_cases hb : b = s.current
    · rw [if_pos hb, if_pos hb, if_pos hb, Option.map_map]
      rfl
    · rw [if_neg hb, if_neg hb, if_neg hb]

theorem markBlocked_frame (s : Scheduler) :
    ∃ global threads, s.markBlocked = { s with global := global, threads := threads } := by
  rw [markBlocked]
  cases s.find s.current with
  | none => exact ⟨_, _, rfl⟩
  | some task => exact ⟨_, _, rfl⟩

theorem markSleeping_eq (s : Scheduler) (seconds : Nat) :
    ∃ q, s.markSleeping seconds = { s with sleepQueue := q }.markBlocked :=
  ⟨_, rfl⟩

/-- `wake` does nothing, or makes a blocked task ready and appends it to the ready queue
unless the queue is full. -/
inductive Woken (s : Scheduler) (a : TaskId) : Scheduler → Prop
  | idle : ¬ s.InState a .blocked → Woken s a s
  | queued {task : Task} {queue : PerCpuQueue} : s.find a = some task → task.state = .blocked →
      queue.entries = s.queue.entries ++ [a] →
      Woken s a { s.setStates a task.thread .ready .active with queue := queue }
  | full {task : Task} : s.find a = some task → task.state = .blocked →
      s.queue.entries.length = 256 → Woken s a (s.setStates a task.thread .ready .active)

theorem wake_woken (s : Scheduler) (a : TaskId) : Woken s a (s.wake a).2 := by
  rw [wake]
  cases hfind : s.find a with
  | none =>
    refine .idle ?_
    rintro ⟨t, ht, -⟩
    rw [hfind] at ht
    cases ht
  | some task =>
    by_cases hblocked : task.state = .blocked
    · simp only [hblocked, if_true]
      cases hpush : (s.setStates a task.thread .ready .active).queue.push a with
      | error e => exact .full hfind hblocked (RingBuffer.pushOr_error hpush).2
      | ok queue => exact .queued hfind hblocked (RingBuffer.pushOr_ok hpush)
    · simp only [hblocked, if_false]
      refine .idle ?_
      rintro ⟨t, ht, hstate⟩
      rw [hfind] at ht
      cases ht
      exact hblocked hstate

theorem queueTaskReaper_eq (s : Scheduler) (a : TaskId) :
    ∃ queue, s.queueTaskReaper a = { s with reaperQueue := queue } ∧
      (queue.entries = s.reaperQueue.entries ++ [a] ∨
        queue = s.reaperQueue ∧ s.reaperQueue.entries.length = 64) := by
  rw [queueTaskReaper]
  cases hpush : s.reaperQueue.push a with
  | error e => exact ⟨s.reaperQueue, rfl, .inr ⟨rfl, (RingBuffer.pushOr_error hpush).2⟩⟩
  | ok queue => exact ⟨queue, rfl, .inl (RingBuffer.pushOr_ok hpush)⟩

theorem killTask_eq {arg : Nat} (h : s.find (.expandTaskId arg) = some task) :
    ∃ queue, s.killTask arg =
        { s.setStates (.expandTaskId arg) task.thread .dying .dying with
          reaperQueue := queue
          forceReschedule := if .expandTaskId arg = s.current then true else s.forceReschedule } ∧
      (queue.entries = s.reaperQueue.entries ++ [.expandTaskId arg] ∨
        queue = s.reaperQueue ∧ s.reaperQueue.entries.length = 64) := by
  obtain ⟨queue, heq, hqueue⟩ :=
    (s.setStates (.expandTaskId arg) task.thread .dying .dying).queueTaskReaper_eq (.expandTaskId arg)
  refine ⟨queue, ?_, hqueue⟩
  simp only [killTask, h, heq]
  by_cases hcurrent : .expandTaskId arg = s.current
  · rw [if_pos hcurrent]
    exact if_pos hcurrent
  · rw [if_neg hcurrent]
    exact if_neg hcurrent

theorem killCurrentTask_eq (h : s.find s.current = some task) :
    s.killCurrentTask = (s.setStates s.current task.thread .dying .dying).queueTaskReaper s.current := by
  rw [killCurrentTask, h]

@[simp] theorem find_queueTaskReaper (s : Scheduler) (a b : TaskId) :
    (s.queueTaskReaper a).find b = s.find b := by
  obtain ⟨queue, heq, -⟩ := s.queueTaskReaper_eq a
  rw [heq]

theorem find_killTask (s : Scheduler) (arg : Nat) (b : TaskId) : (s.killTask arg).find b =
    if b = .expandTaskId arg then (s.find b).map ({ · with state := .dying }) else s.find b := by
  cases ht : s.find (.expandTaskId arg) with
  | none =>
    rw [killTask, ht]
    rw [find_queueTaskReaper]
    split
    · rename_i hb
      rw [hb, ht]
      rfl
    · rfl
  | some task =>
    obtain ⟨queue, heq, -⟩ := killTask_eq ht
    rw [heq]
    exact s.find_setStates (.expandTaskId arg) b task.thread .dying .dying

theorem find_killCurrentTask (s : Scheduler) (b : TaskId) : s.killCurrentTask.find b =
    if b = s.current then (s.find b).map ({ · with state := .dying }) else s.find b := by
  cases ht : s.find s.current with
  | none =>
    rw [killCurrentTask, ht]
    dsimp only
    split
    · rename_i hb
      rw [hb, ht]
      rfl
    · rfl
  | some task => rw [killCurrentTask_eq ht, find_queueTaskReaper, find_setStates]

theorem find_removeTask (s : Scheduler) (a b : TaskId) :
    (s.removeTask a).find b = if b = a then none else s.find b := by
  rw [removeTask]
  cases hfind : s.find a with
  | none =>
    by_cases hb : b = a
    · rw [if_pos hb, hb]
      exact hfind
    · rw [if_neg hb]
  | some task => exact GlobalScheduler.getTask_clearSlot hfind b

/-! ## Choosing the next task -/

/-- What the loop of `schedule` finds: the first task in the queue that is ready, or the idle
task once the queue is used up. -/
inductive Chosen (s : Scheduler) : TaskId → Scheduler → Prop
  | ready {pre rest : List TaskId} {a : TaskId} {queue : PerCpuQueue} :
      s.queue.entries = pre ++ a :: rest → (∀ b ∈ pre, ¬ s.InState b .ready) →
      s.InState a .ready → queue.entries = rest →
      Chosen s a ({ s with queue := queue }.modifyTask a ({ · with state := .running }))
  | idle {queue : PerCpuQueue} : (∀ b ∈ s.queue.entries, ¬ s.InState b .ready) →
      queue.entries = [] → Chosen s .idle { s with queue := queue }

def firstReady (s : Scheduler) : Option TaskId :=
  s.queue.entries.find? fun a => decide (s.InState a .ready)

theorem Chosen.eq_firstReady (h : Chosen s a s') : a = s.firstReady.getD .idle := by
  cases h with
  | ready hsplit hpre hready _ =>
    rw [firstReady, hsplit, List.find?_append, List.find?_eq_none.mpr (by simpa using hpre),
      Option.none_or, List.find?_cons_of_pos (by simpa using hready)]
    rfl
  | idle hnone _ =>
    rw [firstReady, List.find?_eq_none.mpr (by simpa using hnone)]
    rfl

theorem Chosen.skip {queue : PerCpuQueue} (hentries : s.queue.entries = a :: queue.entries)
    (hskip : ¬ s.InState a .ready) (h : Chosen { s with queue := queue } b s') : Chosen s b s' := by
  cases h with
  | ready hsplit hpre hready hrest =>
    refine .ready (by rw [hentries, hsplit]; exact (List.cons_append ..).symm) ?_ hready hrest
    intro c hc
    rcases List.mem_cons.mp hc with rfl | hc
    · exact hskip
    · exact hpre c hc
  | idle hnone hempty =>
    refine .idle (fun c hc => ?_) hempty
    rw [hentries] at hc
    rcases List.mem_cons.mp hc with rfl | hc
    · exact hskip
    · exact hnone c hc

theorem nextTask_chosen {n : Nat} (hn : s.queue.len = n) :
    Chosen s (nextTask n s).1 (nextTask n s).2 := by
  induction n generalizing s with
  | zero =>
    have hempty : s.queue.entries = [] := List.length_eq_zero_iff.mp (by simpa using hn)
    have hidle : Chosen s .idle { s with queue := s.queue } := .idle (fun b hb => by
      rw [hempty] at hb
      cases hb) hempty
    exact hidle
  | succ n ih =>
    cases hpop : s.queue.pop with
    | none =>
      have hempty := RingBuffer.pop_eq_none.mp hpop
      rw [← RingBuffer.entries_length, hempty] at hn
      cases hn
    | some popped =>
      obtain ⟨candidate, queue⟩ := popped
      have hentries := RingBuffer.entries_pop hpop
      have hlen : queue.len = n := by
        have := congrArg List.length hentries
        simp only [RingBuffer.entries_length, List.length_cons] at this
        omega
      have hrest := ih (s := { s with queue := queue }) hlen
      simp only [nextTask, hpop]
      cases hfind : s.find candidate with
      | none =>
        refine hrest.skip hentries ?_
        rintro ⟨t, ht, -⟩
        rw [hfind] at ht
        cases ht
      | some task =>
        by_cases hready : task.state = .ready
        · simp only [hready, if_true]
          have hnone : ∀ b ∈ ([] : List TaskId), ¬ s.InState b .ready := fun _ hb => by cases hb
          exact .ready hentries hnone ⟨task, hfind, hready⟩ rfl
        · simp only [hready, if_false]
          refine hrest.skip hentries ?_
          rintro ⟨t, ht, hstate⟩
          rw [hfind] at ht
          cases ht
          exact hready hstate

/-- A task that is not running is left alone; a running one becomes ready and is appended to
the ready queue, unless that is full or it is the idle task of an initialised kernel. -/
inductive Requeued (s : Scheduler) (a : TaskId) : Scheduler → Prop
  | idle : ¬ s.InState a .running → Requeued s a s
  | queued {queue : PerCpuQueue} : s.InState a .running → (a ≠ .idle ∨ s.kernelInitComplete = false) →
      queue.entries = s.queue.entries ++ [a] →
      Requeued s a { s.modifyTask a ({ · with state := .ready }) with queue := queue }
  | full : s.InState a .running → (a ≠ .idle ∨ s.kernelInitComplete = false) →
      s.queue.entries.length = 256 → Requeued s a (s.modifyTask a ({ · with state := .ready }))
  | unqueued : s.InState a .running → a = .idle → s.kernelInitComplete = true →
      Requeued s a (s.modifyTask a ({ · with state := .ready }))

theorem requeueOutgoing_requeued (s : Scheduler) (a : TaskId) : Requeued s a (s.requeueOutgoing a) := by
  rw [requeueOutgoing]
  cases hfind : s.find a with
  | none =>
    refine .idle ?_
    rintro ⟨t, ht, -⟩
    rw [hfind] at ht
    cases ht
  | some task =>
    by_cases hrunning : task.state = .running
    · simp only [hrunning, if_true]
      by_cases hqueued : a ≠ .idle ∨ s.kernelInitComplete = false
      · rw [if_pos (by exact hqueued)]
        cases hpush : (s.modifyTask a ({ · with state := .ready })).queue.push a with
        | error e => exact .full ⟨task, hfind, hrunning⟩ hqueued (RingBuffer.pushOr_error hpush).2
        | ok queue => exact .queued ⟨task, hfind, hrunning⟩ hqueued (RingBuffer.pushOr_ok hpush)
      · rw [if_neg (by exact hqueued)]
        obtain ⟨hidle, hinit⟩ := not_or.mp hqueued
        exact .unqueued ⟨task, hfind, hrunning⟩ (not_not.mp hidle) (by simpa using hinit)
    · simp only [hrunning, if_false]
      refine .idle ?_
      rintro ⟨t, ht, hstate⟩
      rw [hfind] at ht
      cases ht
      exact hrunning hstate

def dispatched (s : Scheduler) (nextId : TaskId) (next : Task) : Scheduler :=
  { s with
    current := nextId
    kernelStack := if next.isUserTask then next.kernelStackTop else s.kernelStack
    ticksRemaining := next.ticksRemaining }

def switchArgs (sym : Symbols) (s : Scheduler) (outgoingId : TaskId) (next : Task) :
    Option SwitchArgs :=
  if s.find outgoingId = none ∨ next.savedRsp = 0 then none
  else some ⟨sym.savedRsp outgoingId.slotIndex, next.savedRsp, next.cr3⟩

theorem Chosen.current_eq (h : Chosen s a s') : s'.current = s.current := by
  cases h <;> rfl

theorem schedule_steps (s : Scheduler) (sym : Symbols) {nextId : TaskId} {s1 s2 : Scheduler}
    (hnext : nextTask s.queue.len s = (nextId, s1)) (hout : s1.requeueOutgoing s1.current = s2) :
    s.schedule sym =
      match s2.find nextId with
      | none => .error (.panic "called `Option::unwrap()` on a `None` value")
      | some next => .ok (s2.switchArgs sym s1.current next, s2.dispatched nextId next) := by
  simp only [schedule, hnext, hout]
  change (match s2.find nextId with | none => _ | some next => _) = _
  cases s2.find nextId with
  | none => rfl
  | some next =>
    have hptr : (if (s2.find s1.current).isSome then sym.savedRsp s1.current.slotIndex else 0) = 0 ↔
        s2.find s1.current = none := by
      cases s2.find s1.current with
      | none => simp
      | some out => simp [sym.savedRsp_ne_zero]
    have hstate : { (if next.isUserTask then
          { s2 with current := nextId, kernelStack := next.kernelStackTop }
        else { s2 with current := nextId }) with ticksRemaining := next.ticksRemaining } =
        s2.dispatched nextId next := by
      rw [dispatched]
      cases next.isUserTask <;> rfl
    by_cases hgive : s2.find s1.current = none ∨ next.savedRsp = 0
    · simp only [hptr, if_pos hgive, switchArgs]
      rw [← hstate]
    · have hsome : (s2.find s1.current).isSome := by
        rw [Option.isSome_iff_ne_none]
        exact (not_or.mp hgive).1
      simp only [hptr, if_neg hgive, switchArgs]
      rw [if_pos hsome, ← hstate]

theorem schedule_eq (s : Scheduler) :
    ∃ nextId s1 s2, Chosen s nextId s1 ∧ Requeued s1 s.current s2 ∧ ∀ sym, s.schedule sym =
      match s2.find nextId with
      | none => .error (.panic "called `Option::unwrap()` on a `None` value")
      | some next => .ok (s2.switchArgs sym s.current next, s2.dispatched nextId next) := by
  have hchosen := nextTask_chosen (s := s) rfl
  obtain ⟨⟨nextId, s1⟩, hnext⟩ : ∃ r, nextTask s.queue.len s = r := ⟨_, rfl⟩
  rw [hnext] at hchosen
  have hcurrent : s1.current = s.current := hchosen.current_eq
  refine ⟨nextId, s1, _, hchosen, requeueOutgoing_requeued s1 s.current, fun sym => ?_⟩
  rw [← hcurrent]
  exact s.schedule_steps sym hnext rfl

theorem schedule_ok {args : Option SwitchArgs} (h : s.schedule sym = .ok (args, s')) :
    ∃ nextId s1 s2 next, Chosen s nextId s1 ∧ Requeued s1 s.current s2 ∧
      s2.find nextId = some next ∧ s' = s2.dispatched nextId next ∧
      args = s2.switchArgs sym s.current next := by
  obtain ⟨nextId, s1, s2, hchosen, hrequeued, heq⟩ := s.schedule_eq
  replace heq := h.symm.trans (heq sym)
  cases hnext : s2.find nextId with
  | none =>
    rw [hnext] at heq
    cases heq
  | some next =>
    rw [hnext] at heq
    cases heq
    exact ⟨nextId, s1, s2, next, hchosen, hrequeued, hnext, rfl, rfl⟩

section Loops

variable {P : Scheduler → Prop}

theorem wakeExpired_inv (hwake : ∀ s a, P s → P (s.wake a).2)
    (hqueue : ∀ s q, P s → P { s with sleepQueue := q }) (l : List SleepEntry) (h : P s) :
    P (wakeExpired l s) := by
  induction l generalizing s with
  | nil => exact hqueue _ _ h
  | cons entry rest ih =>
    rw [wakeExpired]
    split
    · exact hqueue _ _ h
    · exact ih (hwake _ _ h)

theorem onTimerTick_inv (hwake : ∀ s a, P s → P (s.wake a).2)
    (hqueue : ∀ s q, P s → P { s with sleepQueue := q })
    (hcount : ∀ s, P s → P (s.modifyTask s.current fun t => { t with ticksExecuted := t.ticksExecuted + 1 }))
    (hticks : ∀ s n, P s → P { s with ticksRemaining := n }) (h : P s) : P s.onTimerTick.2 := by
  have hslept : P s.tickSleepQueue := wakeExpired_inv hwake hqueue _ h
  have hcounted := hcount _ hslept
  rw [onTimerTick]
  split
  · exact hticks _ _ hcounted
  · exact hticks _ _ hcounted

theorem drainLoop_drains : RingBuffer.Drains systemTasks
    (fun s arg queue => { s with systemTasks := queue }.killTask arg) drainLoop where
  stop _ := rfl
  none _ _ h := by rw [drainLoop, h]
  some _ _ _ _ h := by rw [drainLoop, h]

theorem tombstoneLoop_drains : RingBuffer.Drains tombstoneQueue
    (fun s a queue => { s with tombstoneQueue := queue }.removeTask a) tombstoneLoop where
  stop _ := rfl
  none _ _ h := by rw [tombstoneLoop, h]
  some _ _ _ _ h := by rw [tombstoneLoop, h]

theorem reapLoop_drains : RingBuffer.Drains reaperQueue
    (fun s a queue => { s with reaperQueue := queue }.reapTask a) reapLoop where
  stop _ := rfl
  none _ _ h := by rw [reapLoop, h]
  some _ _ _ _ h := by rw [reapLoop, h]

theorem drainLoop_inv (hkill : ∀ s arg queue, P s → s.systemTasks.pop = some (arg, queue) →
    P ({ s with systemTasks := queue }.killTask arg)) (n : Nat) (h : P s) : P (drainLoop n s) :=
  drainLoop_drains.inv hkill n h

theorem tombstoneLoop_inv (hremove : ∀ s a queue, P s → s.tombstoneQueue.pop = some (a, queue) →
    P ({ s with tombstoneQueue := queue }.removeTask a)) (n : Nat) (h : P s) : P (tombstoneLoop n s) :=
  tombstoneLoop_drains.inv hremove n h

theorem reapLoop_inv (hreap : ∀ s a queue, P s → s.reaperQueue.pop = some (a, queue) →
    P ({ s with reaperQueue := queue }.reapTask a)) (n : Nat) (h : P s) : P (reapLoop n s) :=
  reapLoop_drains.inv hreap n h

end Loops

theorem wake_frame (s : Scheduler) (a : TaskId) : ∃ global threads queue,
    (s.wake a).2 = { s with global := global, threads := threads, queue := queue } := by
  have hwoken := s.wake_woken a
  generalize (s.wake a).2 = s' at hwoken ⊢
  cases hwoken with
  | idle => exact ⟨_, _, _, rfl⟩
  | queued => exact ⟨_, _, _, rfl⟩
  | full => exact ⟨_, _, _, rfl⟩

theorem onTimerTick_frame (s : Scheduler) : ∃ global threads queue sleepQueue ticksRemaining,
    s.onTimerTick.2 = { s with
      global := global, threads := threads, queue := queue, sleepQueue := sleepQueue
      ticksRemaining := ticksRemaining } := by
  refine onTimerTick_inv (P := fun s' => ∃ global threads queue sleepQueue ticksRemaining, s' =
    { s with
      global := global, threads := threads, queue := queue, sleepQueue := sleepQueue
      ticksRemaining := ticksRemaining }) ?_ ?_ ?_ ?_ ⟨_, _, _, _, _, rfl⟩
  · rintro _ a ⟨_, _, _, _, _, rfl⟩
    obtain ⟨global, threads, queue, heq⟩ := wake_frame _ a
    exact ⟨global, threads, queue, _, _, heq⟩
  · rintro _ q ⟨_, _, _, _, _, rfl⟩
    exact ⟨_, _, _, _, _, rfl⟩
  · rintro _ ⟨_, _, _, _, _, rfl⟩
    exact ⟨_, _, _, _, _, rfl⟩
  · rintro _ n ⟨_, _, _, _, _, rfl⟩
    exact ⟨_, _, _, _, _, rfl⟩

theorem killCurrentTask_frame (s : Scheduler) : ∃ global threads reaperQueue,
    s.killCurrentTask =
      { s with global := global, threads := threads, reaperQueue := reaperQueue } := by
  cases hfind : s.find s.current with
  | none =>
    rw [killCurrentTask, hfind]
    exact ⟨_, _, _, rfl⟩
  | some task =>
    obtain ⟨queue, heq, -⟩ :=
      (s.setStates s.current task.thread .dying .dying).queueTaskReaper_eq s.current
    exact ⟨_, _, queue, (killCurrentTask_eq hfind).trans heq⟩

theorem killTask_frame (s : Scheduler) (arg : Nat) : ∃ global threads reaperQueue forceReschedule,
    s.killTask arg = { s with
      global := global, threads := threads, reaperQueue := reaperQueue
      forceReschedule := forceReschedule } := by
  cases hfind : s.find (.expandTaskId arg) with
  | none =>
    obtain ⟨queue, heq, -⟩ := s.queueTaskReaper_eq (.expandTaskId arg)
    refine ⟨s.global, s.threads, queue, s.forceReschedule, ?_⟩
    rw [killTask, hfind]
    exact heq
  | some task =>
    obtain ⟨queue, heq, -⟩ := killTask_eq hfind
    exact ⟨_, _, queue, _, heq⟩

theorem exitThread_frame (s : Scheduler) (thread : ThreadId) :
    ∃ queue, s.exitThread thread = { s with systemTasks := queue } := by
  rw [exitThread]
  split
  · exact ⟨_, rfl⟩
  · cases (s.threads thread).taskId with
    | none => exact ⟨_, rfl⟩
    | some taskId =>
      simp only [queueSystemTask]
      cases s.systemTasks.push taskId.compressTaskId with
      | error => exact ⟨_, rfl⟩
      | ok queue => exact ⟨_, rfl⟩

theorem removeTask_frame (s : Scheduler) (a : TaskId) : ∃ global threads,
    s.removeTask a = { s with global := global, threads := threads } := by
  rw [removeTask]
  cases s.find a with
  | none => exact ⟨_, _, rfl⟩
  | some task => exact ⟨_, _, rfl⟩

theorem reapTask_frame (s : Scheduler) (a : TaskId) : ∃ global tombstoneQueue,
    s.reapTask a = { s with global := global, tombstoneQueue := tombstoneQueue } := by
  rw [reapTask]
  cases s.find a with
  | none => exact ⟨_, _, rfl⟩
  | some task =>
    by_cases hdying : task.state = .dying
    · simp only [hdying, if_true]
      cases (s.modifyTask a ({ · with state := .dead })).tombstoneQueue.push a with
      | error => exact ⟨_, _, rfl⟩
      | ok queue => exact ⟨_, _, rfl⟩
    · simp only [hdying, if_false]
      exact ⟨_, _, rfl⟩

theorem drainSystemTasks_frame (s : Scheduler) :
    ∃ global threads reaperQueue forceReschedule systemTasks, s.drainSystemTasks = { s with
      global := global, threads := threads, reaperQueue := reaperQueue
      forceReschedule := forceReschedule, systemTasks := systemTasks } := by
  refine drainLoop_inv (P := fun s' => ∃ global threads reaperQueue forceReschedule systemTasks,
    s' = { s with
      global := global, threads := threads, reaperQueue := reaperQueue
      forceReschedule := forceReschedule, systemTasks := systemTasks }) ?_ _ ⟨_, _, _, _, _, rfl⟩
  rintro _ arg queue ⟨_, _, _, _, _, rfl⟩ -
  obtain ⟨global, threads, reaperQueue, force, heq⟩ := killTask_frame _ arg
  exact ⟨global, threads, reaperQueue, force, queue, heq⟩

theorem tombstoneCleanup_frame (s : Scheduler) : ∃ global threads tombstoneQueue,
    s.tombstoneCleanup =
      { s with global := global, threads := threads, tombstoneQueue := tombstoneQueue } := by
  refine tombstoneLoop_inv (P := fun s' => ∃ global threads tombstoneQueue, s' =
    { s with global := global, threads := threads, tombstoneQueue := tombstoneQueue }) ?_ _
    ⟨_, _, _, rfl⟩
  rintro _ a queue ⟨_, _, _, rfl⟩ -
  obtain ⟨global, threads, heq⟩ := removeTask_frame _ a
  exact ⟨global, threads, queue, heq⟩

theorem reapDyingTasks_frame (s : Scheduler) : ∃ global tombstoneQueue reaperQueue,
    s.reapDyingTasks =
      { s with global := global, tombstoneQueue := tombstoneQueue, reaperQueue := reaperQueue } := by
  refine reapLoop_inv (P := fun s' => ∃ global tombstoneQueue reaperQueue, s' =
    { s with global := global, tombstoneQueue := tombstoneQueue, reaperQueue := reaperQueue }) ?_ _
    ⟨_, _, _, rfl⟩
  rintro _ a queue ⟨_, _, _, rfl⟩ -
  obtain ⟨global, tombs, heq⟩ := reapTask_frame _ a
  exact ⟨global, tombs, queue, heq⟩

theorem timerWork_frame (s : Scheduler) :
    ∃ global threads queue sleepQueue ticksRemaining reaperQueue tombstoneQueue systemTasks,
      s.timerWork.2 = { s with
        global := global, threads := threads, queue := queue, sleepQueue := sleepQueue
        ticksRemaining := ticksRemaining, reaperQueue := reaperQueue, tombstoneQueue := tombstoneQueue
        systemTasks := systemTasks, forceReschedule := false } := by
  obtain ⟨global1, threads1, queue, sleep, ticks, heq1⟩ := s.onTimerTick_frame
  rw [timerWork]
  generalize s.onTimerTick = r at heq1 ⊢
  obtain ⟨should, s1⟩ := r
  obtain rfl : s1 = _ := heq1
  dsimp only
  obtain ⟨global2, threads2, reaper2, force2, system, heq2⟩ := drainSystemTasks_frame _
  rw [heq2]
  obtain ⟨global3, threads, tombs3, heq3⟩ := tombstoneCleanup_frame _
  rw [heq3]
  obtain ⟨global, tombs, reaper, heq4⟩ := reapDyingTasks_frame _
  rw [heq4]
  exact ⟨global, threads, queue, sleep, ticks, reaper, tombs, system, rfl⟩

theorem schedule_frame {args : Option SwitchArgs} (h : s.schedule sym = .ok (args, s')) :
    ∃ global queue current kernelStack ticksRemaining, s' = { s with
      global := global, queue := queue, current := current, kernelStack := kernelStack
      ticksRemaining := ticksRemaining } := by
  obtain ⟨nextId, s1, s2, next, hchosen, hrequeued, -, rfl, -⟩ := schedule_ok h
  cases hchosen <;> cases hrequeued <;> exact ⟨_, _, _, _, _, rfl⟩

theorem systemTasks_killTask (s : Scheduler) (arg : Nat) (queue : SystemTaskQueue) :
    ({ s with systemTasks := queue }.killTask arg).systemTasks = queue := by
  obtain ⟨_, _, _, _, heq⟩ := killTask_frame { s with systemTasks := queue } arg
  rw [heq]

theorem drainSystemTasks_empty (s : Scheduler) : s.drainSystemTasks.systemTasks.entries = [] :=
  drainLoop_drains.empty systemTasks_killTask s

theorem tombstoneCleanup_empty (s : Scheduler) : s.tombstoneCleanup.tombstoneQueue.entries = [] := by
  refine tombstoneLoop_drains.empty (fun s a queue => ?_) s
  obtain ⟨_, _, heq⟩ := removeTask_frame { s with tombstoneQueue := queue } a
  rw [heq]

theorem reapDyingTasks_empty (s : Scheduler) : s.reapDyingTasks.reaperQueue.entries = [] := by
  refine reapLoop_drains.empty (fun s a queue => ?_) s
  obtain ⟨_, _, heq⟩ := reapTask_frame { s with reaperQueue := queue } a
  rw [heq]

/-! ## Following tasks through an operation -/

/-- What became of one entry of the table: nothing new appears, a task may go if `d`, and
otherwise is changed as `R` allows. -/
inductive FollowsAt (R : Task → Task → Prop) (d : Prop) : Option Task → Option Task → Prop
  | absent : FollowsAt R d none none
  | removed (t : Task) : d → FollowsAt R d (some t) none
  | kept {t t' : Task} : R t t' → FollowsAt R d (some t) (some t')

def Follows (R : Task → Task → Prop) (D : TaskId → Prop) (s s' : Scheduler) : Prop :=
  ∀ a, FollowsAt R (D a) (s.find a) (s'.find a)

/-- `R` allows what happens to tasks when they are scheduled. -/
structure AllowsSwitch (R : Task → Task → Prop) : Prop where
  refl : ∀ t, R t t
  trans : ∀ t t' t'', R t t' → R t' t'' → R t t''
  select : ∀ t, t.state = .ready → R t { t with state := .running }
  requeue : ∀ t, t.state = .running → R t { t with state := .ready }

structure AllowsTimer (R : Task → Task → Prop) : Prop where
  refl : ∀ t, R t t
  trans : ∀ t t' t'', R t t' → R t' t'' → R t t''
  wake : ∀ t, t.state = .blocked → R t { t with state := .ready }
  count : ∀ t, R t { t with ticksExecuted := t.ticksExecuted + 1 }
  kill : ∀ t, R t { t with state := .dying }
  reap : ∀ t, t.state = .dying → R t { t with state := .dead }

structure AllowsWork (R : Task → Task → Prop) : Prop where
  refl : ∀ t, R t t
  trans : ∀ t t' t'', R t t' → R t' t'' → R t t''
  count : ∀ t, R t { t with ticksExecuted := t.ticksExecuted + 1 }
  kill : ∀ t, R t { t with state := .dying }
  reap : ∀ t, t.state = .dying → R t { t with state := .dead }

section Follow

variable {R : Task → Task → Prop} {D : TaskId → Prop} {s s' s'' : Scheduler} {a : TaskId}

theorem Follows.of_find (hrefl : ∀ t, R t t) (h : ∀ b, s'.find b = s.find b) : Follows R D s s' := by
  intro b
  rw [h b]
  cases s.find b with
  | none => exact .absent
  | some t => exact .kept (hrefl t)

theorem Follows.mono {R' : Task → Task → Prop} {D' : TaskId → Prop} (h : Follows R D s s')
    (hR : ∀ t t', R t t' → R' t t') (hD : ∀ a, D a → D' a) : Follows R' D' s s' := by
  intro b
  have hb := h b
  generalize s.find b = x at hb
  generalize s'.find b = y at hb
  cases hb with
  | absent => exact .absent
  | removed t hd => exact .removed t (hD b hd)
  | kept hkept => exact .kept (hR _ _ hkept)

theorem Follows.trans (htrans : ∀ t t' t'', R t t' → R t' t'' → R t t'') (h : Follows R D s s')
    (h' : Follows R D s' s'') : Follows R D s s'' := by
  intro b
  have hb := h b
  have hb' := h' b
  generalize s.find b = x at hb
  generalize s'.find b = y at hb hb'
  generalize s''.find b = z at hb'
  cases hb with
  | absent =>
    cases hb'
    exact .absent
  | removed t hd =>
    cases hb'
    exact .removed t hd
  | kept hR =>
    cases hb' with
    | removed _ hd => exact .removed _ hd
    | kept hR' => exact .kept (htrans _ _ _ hR hR')

theorem Follows.of_map (hrefl : ∀ t, R t t) {f : Task → Task}
    (h : ∀ b, s'.find b = if b = a then (s.find b).map f else s.find b)
    (hf : ∀ t, s.find a = some t → R t (f t)) : Follows R D s s' := by
  intro b
  rw [h b]
  by_cases hb : b = a
  · subst hb
    rw [if_pos rfl]
    cases hfind : s.find b with
    | none => exact .absent
    | some t => exact .kept (hf t hfind)
  · rw [if_neg hb]
    cases s.find b with
    | none => exact .absent
    | some t => exact .kept (hrefl t)

theorem Follows.modifyTask (hrefl : ∀ t, R t t) {f : Task → Task}
    (hf : ∀ t, s.find a = some t → R t (f t)) : Follows R D s (s.modifyTask a f) :=
  .of_map hrefl (fun b => s.find_modifyTask a b f) hf

theorem Follows.setStates (hrefl : ∀ t, R t t) {thread : ThreadId} {x : TaskState} {y : ThreadState}
    (hf : ∀ t, s.find a = some t → R t { t with state := x }) :
    Follows R D s (s.setStates a thread x y) :=
  .of_map hrefl (fun b => s.find_setStates a b thread x y) hf

theorem Follows.find_before (h : Follows R D s s') {t' : Task} (hfind : s'.find a = some t') :
    ∃ t, s.find a = some t ∧ R t t' := by
  have ha := h a
  rw [hfind] at ha
  generalize s.find a = x at ha
  cases ha with
  | kept hR => exact ⟨_, rfl, hR⟩

theorem Follows.find_none (h : Follows R D s s') (hfind : s.find a = none) : s'.find a = none := by
  have ha := h a
  rw [hfind] at ha
  generalize s'.find a = x at ha
  cases ha
  rfl

theorem Follows.find_after (h : Follows R D s s') (hfind : s.find a = some t) (hd : ¬ D a) :
    ∃ t', s'.find a = some t' ∧ R t t' := by
  have ha := h a
  rw [hfind] at ha
  generalize s'.find a = x at ha
  cases ha with
  | removed _ hgone => exact absurd hgone hd
  | kept hR => exact ⟨_, rfl, hR⟩

theorem Follows.wake (hrefl : ∀ t, R t t)
    (hready : ∀ t, t.state = .blocked → R t { t with state := .ready }) :
    Follows R D s (s.wake a).2 := by
  have hwoken := s.wake_woken a
  generalize (s.wake a).2 = s' at hwoken ⊢
  cases hwoken with
  | idle => exact .of_find hrefl fun _ => rfl
  | queued hfind hblocked =>
    refine .of_map hrefl (fun b => s.find_modifyTask a b ({ · with state := .ready })) fun t ht => ?_
    rw [hfind] at ht
    cases ht
    exact hready _ hblocked
  | full hfind hblocked =>
    refine .setStates hrefl fun t ht => ?_
    rw [hfind] at ht
    cases ht
    exact hready _ hblocked

theorem Follows.removeTask (hrefl : ∀ t, R t t) (hd : D a) : Follows R D s (s.removeTask a) := by
  intro b
  rw [find_removeTask]
  by_cases hb : b = a
  · subst hb
    rw [if_pos rfl]
    cases s.find b with
    | none => exact .absent
    | some t => exact .removed t hd
  · rw [if_neg hb]
    cases s.find b with
    | none => exact .absent
    | some t => exact .kept (hrefl t)

theorem Follows.killTask (hrefl : ∀ t, R t t) (hkill : ∀ t, R t { t with state := .dying }) (arg : Nat) :
    Follows R D s (s.killTask arg) :=
  .of_map hrefl (s.find_killTask arg) fun t _ => hkill t

theorem Follows.killCurrentTask (hrefl : ∀ t, R t t)
    (hkill : ∀ t, s.find s.current = some t → R t { t with state := .dying }) :
    Follows R D s s.killCurrentTask :=
  .of_map hrefl s.find_killCurrentTask hkill

theorem Follows.reapTask (hrefl : ∀ t, R t t)
    (hdead : ∀ t, t.state = .dying → R t { t with state := .dead }) :
    Follows R D s (s.reapTask a) := by
  rw [Scheduler.reapTask]
  cases ht : s.find a with
  | none => exact .of_find hrefl fun _ => rfl
  | some t =>
    by_cases hdying : t.state = .dying
    · simp only [hdying, if_true]
      have hmap : ∀ u, s.find a = some u → R u { u with state := .dead } := by
        intro u hu
        cases hu.symm.trans ht
        exact hdead _ hdying
      cases (s.modifyTask a ({ · with state := .dead })).tombstoneQueue.push a with
      | error => exact .modifyTask hrefl hmap
      | ok tombs => exact .of_map hrefl (fun b => s.find_modifyTask a b _) hmap
    · simp only [hdying, if_false]
      exact .of_find hrefl fun _ => rfl

theorem AllowsSwitch.chosen (hR : AllowsSwitch R) (h : Chosen s a s') : Follows R D s s' := by
  cases h with
  | ready _ _ hready _ =>
    refine .modifyTask hR.refl fun t ht => hR.select t ?_
    obtain ⟨u, hu, hstate⟩ := hready
    cases hu.symm.trans ht
    exact hstate
  | idle => exact .of_find hR.refl fun _ => rfl

theorem AllowsSwitch.requeued (hR : AllowsSwitch R) (h : Requeued s a s') : Follows R D s s' := by
  have hready : s.InState a .running → ∀ t, s.find a = some t → R t { t with state := .ready } := by
    rintro ⟨u, hu, hstate⟩ t ht
    cases hu.symm.trans ht
    exact hR.requeue _ hstate
  cases h with
  | idle => exact .of_find hR.refl fun _ => rfl
  | queued hrunning => exact .of_map hR.refl (fun b => s.find_modifyTask a b _) (hready hrunning)
  | full hrunning => exact .modifyTask hR.refl (hready hrunning)
  | unqueued hrunning => exact .modifyTask hR.refl (hready hrunning)

theorem AllowsSwitch.schedule (hR : AllowsSwitch R) {args : Option SwitchArgs}
    (h : s.schedule sym = .ok (args, s')) : Follows R D s s' := by
  obtain ⟨nextId, s1, s2, next, hchosen, hrequeued, -, rfl, -⟩ := schedule_ok h
  have hswitch := (hR.chosen (D := D) hchosen).trans hR.trans (hR.requeued hrequeued)
  exact hswitch.trans hR.trans (.of_find hR.refl fun _ => rfl)

theorem follows_switched (hrefl : ∀ t, R t t) (hR : ∀ t n, R t { t with savedRsp := n })
    (s : Scheduler) (a : TaskId) (rsp : Nat) (args : SwitchArgs) :
    Follows R D s (s.switched a rsp args) :=
  .of_map hrefl (fun b => s.find_modifyTask a b _) fun t _ => hR t rsp

theorem AllowsTimer.tickSleepQueue (hR : AllowsTimer R) (s : Scheduler) :
    Follows R D s s.tickSleepQueue := by
  refine wakeExpired_inv (P := Follows R D s) ?_ ?_ _ (.of_find hR.refl fun _ => rfl)
  · exact fun _ _ h => h.trans hR.trans (.wake hR.refl hR.wake)
  · exact fun _ _ h => h.trans hR.trans (.of_find hR.refl fun _ => rfl)

theorem AllowsTimer.work (hR : AllowsTimer R) : AllowsWork R :=
  ⟨hR.refl, hR.trans, hR.count, hR.kill, hR.reap⟩

theorem AllowsWork.afterSleepers (hR : AllowsWork R) (s : Scheduler) :
    Follows R (fun _ => True) s.tickSleepQueue s.timerWork.2 := by
  have hsame : ∀ {s1 s2 s3 : Scheduler}, Follows R (fun _ => True) s1 s2 →
      (∀ b, s3.find b = s2.find b) → Follows R (fun _ => True) s1 s3 :=
    fun h hfind => h.trans hR.trans (.of_find hR.refl hfind)
  have htick : Follows R (fun _ => True) s.tickSleepQueue s.onTimerTick.2 := by
    have hcount : Follows R (fun _ => True) s.tickSleepQueue
        (s.tickSleepQueue.modifyTask s.tickSleepQueue.current fun t =>
          { t with ticksExecuted := t.ticksExecuted + 1 }) := .modifyTask hR.refl fun t _ => hR.count t
    rw [onTimerTick]
    split
    · exact hsame hcount fun _ => rfl
    · exact hsame hcount fun _ => rfl
  have hdrain : Follows R (fun _ => True) s.tickSleepQueue s.onTimerTick.2.drainSystemTasks :=
    drainLoop_inv (P := Follows R (fun _ => True) s.tickSleepQueue) (fun s' arg queue h _ =>
      h.trans hR.trans (.killTask (s := { s' with systemTasks := queue }) hR.refl hR.kill arg)) _ htick
  have hbury : Follows R (fun _ => True) s.tickSleepQueue
      s.onTimerTick.2.drainSystemTasks.tombstoneCleanup :=
    tombstoneLoop_inv (P := Follows R (fun _ => True) s.tickSleepQueue) (fun s' a queue h _ =>
      h.trans hR.trans (.removeTask (s := { s' with tombstoneQueue := queue }) hR.refl trivial)) _ hdrain
  have hreap : Follows R (fun _ => True) s.tickSleepQueue
      s.onTimerTick.2.drainSystemTasks.tombstoneCleanup.reapDyingTasks :=
    reapLoop_inv (P := Follows R (fun _ => True) s.tickSleepQueue) (fun s' a queue h _ =>
      h.trans hR.trans (.reapTask (s := { s' with reaperQueue := queue }) hR.refl hR.reap)) _ hbury
  exact hsame hreap fun _ => rfl

theorem AllowsTimer.timerWork (hR : AllowsTimer R) (s : Scheduler) :
    Follows R (fun _ => True) s s.timerWork.2 :=
  (hR.tickSleepQueue s).trans hR.trans (hR.work.afterSleepers s)

end Follow

end Scheduler

end CrapOs
