import CrapOs.TaskScheduler.ReadyQueue
import CrapOs.TaskScheduler.Resume

/-! # Ready tasks over whole runs

When `schedule` may choose the idle task, and when the ready queue holds every
ready task exactly once and therefore never overflows. Both hold of runs in which
no interrupt comes between the insertion of a new task and its push.
-/

namespace CrapOs

open Foundation Scheduler

namespace Processor

variable {p p' : Processor} {sym : Symbols} {e : Event} {task : Task} {s s' : Scheduler} {rsp : Nat}

def WakesQueued (p : Processor) : Event → Prop
  | .keyboard taskId => Waiting (p.sched.wake taskId).2
  | .tick _ => Waiting p.sched.tickSleepQueue
  | _ => True

theorem waiting_reschedule (h : Waiting s) (hok : s.reschedule sym rsp = .ok s') : Waiting s' := by
  obtain ⟨args, s1, hsched, hcase⟩ := reschedule_ok hok
  have hwaiting := h.schedule hsched
  rcases hcase with ⟨-, rfl⟩ | ⟨x, -, rfl⟩
  · exact hwaiting
  · exact hwaiting.follows (D := fun _ => False)
      (follows_switched (fun _ => id) (fun _ _ => id) s1 s.current rsp x) rfl

theorem waiting_killCurrentTask (h : Waiting s) : Waiting s.killCurrentTask := by
  obtain ⟨global, threads, queue, heq⟩ := s.killCurrentTask_frame
  exact h.follows (D := fun _ => False)
    (.killCurrentTask (fun _ => id) fun _ _ hready => by cases hready) (by rw [heq])

theorem waiting_markBlocked (h : Waiting s) : Waiting s.markBlocked := by
  obtain ⟨global, threads, heq⟩ := markBlocked_frame s
  exact h.follows (D := fun _ => False)
    (.of_map (fun _ => id) s.find_markBlocked fun _ _ hready => by cases hready) (by rw [heq])

theorem waiting_spawn (h : Waiting p.sched) (hspawn : Spawned p task p') : Waiting p'.sched := by
  cases hspawn with
  | refused => exact h
  | @placed taskId global threads queue hnew hfind _ _ hqueue =>
    rintro a ha ⟨t, ht, hready⟩
    show a ∈ queue.entries
    rw [hqueue, List.mem_append, List.mem_singleton]
    rw [show Scheduler.find _ a = _ from hfind a] at ht
    split_ifs at ht with heq
    · exact .inr heq
    · exact .inl (h a ha ⟨t, ht, hready⟩)

theorem waiting_scheduleCall (h : Waiting p.sched) (hwakes : WakesQueued p e)
    (hcall : p.scheduleCall e = some (s, rsp)) : Waiting s := by
  cases scheduleCall_called hcall with
  | yield => exact h
  | exit => exact waiting_killCurrentTask h
  | tick => exact Waiting.timerWork hwakes

theorem waiting_exec (h : Waiting p.sched) (hwakes : WakesQueued p e) (hok : p.exec sym e = .ok p') :
    Waiting p'.sched := by
  cases exec_done hok with
  | spawned hspawned => exact waiting_spawn h hspawned
  | @blocked _ q _ => exact waiting_markBlocked (s := { p.sched with sleepQueue := q }) h
  | asked thread =>
    obtain ⟨queue, heq⟩ := p.sched.exitThread_frame thread
    rw [heq]
    exact h
  | woken taskId => exact hwakes
  | initialised => exact h
  | ticked _ => exact Waiting.timerWork hwakes
  | scheduled hcall hresched => exact waiting_reschedule (waiting_scheduleCall h hwakes hcall) hresched

theorem waiting_boot (idleStack kernelStack cr3 : Nat) :
    Waiting (boot idleStack kernelStack cr3).sched := by
  rintro a ha ⟨t, ht, -⟩
  exact absurd (boot_find ht).1 ha

/-! ## When the idle task is chosen -/

/-- No wake finds the ready queue full, nobody calls `exit_thread` on the idle thread, and the
idle task is not queued when the kernel is declared initialised; that is done before
interrupts are on. -/
def QueuesWakes (p : Processor) : Event → Prop
  | .keyboard _ => p.sched.queue.entries.length < 256
  | .tick _ => p.sched.queue.entries.length + p.sched.sleepQueue.due.length ≤ 256
  | .exitThread thread => thread ≠ 0
  | .initComplete => TaskId.idle ∉ p.sched.queue.entries
  | _ => True

instance (p : Processor) : (e : Event) → Decidable (QueuesWakes p e)
  | .keyboard _ => inferInstanceAs (Decidable (_ < _))
  | .tick _ => inferInstanceAs (Decidable (_ ≤ _))
  | .exitThread thread => inferInstanceAs (Decidable (thread ≠ 0))
  | .initComplete => inferInstanceAs (Decidable (TaskId.idle ∉ p.sched.queue.entries))
  | .spawn .. | .block | .sleep _ | .yield _ | .exit _ => .isTrue trivial

theorem QueuesWakes.sparesIdle (p : Processor) (e : Event) (h : QueuesWakes p e) : SparesIdle p e := by
  cases e with
  | exitThread => exact h
  | spawn | block | sleep | yield | exit | keyboard | tick | initComplete => exact trivial

theorem QueuesWakes.wakesQueued (h : QueuesWakes p e) (hwaiting : Waiting p.sched) :
    WakesQueued p e := by
  cases e with
  | keyboard => exact hwaiting.wake fun _ => h
  | tick => exact hwaiting.tickSleepQueue h
  | spawn | block | sleep | yield | exit | exitThread | initComplete => exact trivial

theorem idleUnqueued_scheduleCall (h : IdleUnqueued p.sched) (ho : Orderly p.sched)
    (hcall : p.scheduleCall e = some (s, rsp)) : IdleUnqueued s := by
  cases scheduleCall_called hcall with
  | yield => exact h
  | exit =>
    obtain ⟨global, threads, queue, heq⟩ := p.sched.killCurrentTask_frame
    rw [heq]
    exact h
  | tick => exact h.timerWork ho

theorem idleUnqueued_exec (h : IdleUnqueued p.sched) (hlive : Lively p)
    (hinit : e = .initComplete → TaskId.idle ∉ p.sched.queue.entries) (hok : p.exec sym e = .ok p') :
    IdleUnqueued p'.sched := by
  cases exec_done hok with
  | spawned hspawned =>
    cases hspawned with
    | refused => exact h
    | @placed taskId global threads queue hnew _ _ _ hqueue =>
      refine h.of_subset rfl fun b hb => ?_
      rw [show RingBuffer.entries _ = _ from hqueue, List.mem_append, List.mem_singleton] at hb
      rcases hb with hb | rfl
      · exact .inl hb
      · refine .inr (.inl ?_)
        rintro rfl
        obtain ⟨t, ht, -⟩ := hlive.orderly.idle
        cases hnew.symm.trans ht
  | @blocked _ q _ =>
    obtain ⟨global, threads, heq⟩ := markBlocked_frame { p.sched with sleepQueue := q }
    rw [heq]
    exact h
  | asked thread =>
    obtain ⟨queue, heq⟩ := p.sched.exitThread_frame thread
    rw [heq]
    exact h
  | woken taskId => exact h.wake hlive.orderly.idle_not_blocked taskId
  | initialised => exact fun _ => hinit rfl
  | ticked _ => exact h.timerWork hlive.orderly
  | scheduled hcall hresched =>
    obtain ⟨args, s1, hsched, hcase⟩ := reschedule_ok hresched
    have hafter := (idleUnqueued_scheduleCall h hlive.orderly hcall).schedule hsched
    rcases hcase with ⟨-, rfl⟩ | ⟨x, -, rfl⟩
    · exact hafter
    · exact hafter

theorem queued_of_reached (h : Reached sym QueuesWakes p) :
    Lively p ∧ Waiting p.sched ∧ IdleUnqueued p.sched := by
  refine h.invariant (fun p => Lively p ∧ Waiting p.sched ∧ IdleUnqueued p.sched) ?_ ?_
  · rintro _ ⟨idleStack, kernelStack, cr3, rfl⟩
    refine ⟨lively_boot .., waiting_boot idleStack kernelStack cr3, fun hinit => ?_⟩
    cases hinit
  · rintro p p' ⟨hlive, hwaiting, hidle⟩ ⟨e, hen, hcond, hok⟩
    refine ⟨(hlive.step hen (hcond.sparesIdle p e) hok).1,
      waiting_exec hwaiting (hcond.wakesQueued hwaiting) hok,
      idleUnqueued_exec hidle hlive ?_ hok⟩
    rintro rfl
    exact hcond

/-- A task that could go on if it were chosen now: ready, or running and about to be put back. -/
def CouldRun (s : Scheduler) (a : TaskId) : Prop :=
  s.InState a .ready ∨ a = s.current ∧ s.InState a .running

theorem kernelInitComplete_scheduleCall (hcall : p.scheduleCall e = some (s, rsp)) :
    s.kernelInitComplete = p.sched.kernelInitComplete := by
  cases scheduleCall_called hcall with
  | yield => rfl
  | exit =>
    obtain ⟨global, threads, queue, heq⟩ := p.sched.killCurrentTask_frame
    rw [heq]
  | tick =>
    obtain ⟨_, _, _, _, _, _, _, _, heq⟩ := p.sched.timerWork_frame
    rw [heq]

/-- In an initialised kernel `schedule` chooses the idle task only if no other task could run,
except that a task that is running and alone is passed over for it. -/
theorem idle_chosen_only_if_needed_iff (h : Reached sym QueuesWakes p)
    (hinit : p.sched.kernelInitComplete = true) (hcond : QueuesWakes p e)
    (hcall : p.scheduleCall e = some (s, rsp)) {args : Option SwitchArgs}
    (hsched : s.schedule sym = .ok (args, s')) :
    (s'.current = .idle → ∀ a, a ≠ .idle → ¬ CouldRun s a) ↔
      ¬ (s.current ≠ .idle ∧ s.InState s.current .running ∧
        ∀ a, a ≠ .idle → ¬ s.InState a .ready) := by
  obtain ⟨hlive, hwaiting, hidle⟩ := queued_of_reached h
  have hwaiting' := waiting_scheduleCall hwaiting (hcond.wakesQueued hwaiting) hcall
  have hidle' : TaskId.idle ∉ s.queue.entries :=
    idleUnqueued_scheduleCall hidle hlive.orderly hcall
      ((kernelInitComplete_scheduleCall hcall).trans hinit)
  obtain ⟨nextId, s1, s2, next, hchosen, -, -, rfl, -⟩ := schedule_ok hsched
  -- the idle task is chosen exactly if no other task is ready
  have hchoice : nextId = .idle ↔ ∀ a, a ≠ .idle → ¬ s.InState a .ready := by
    cases hchosen with
    | @ready pre rest _ queue hsplit _ hready _ =>
      have hne : nextId ≠ .idle := by
        rintro rfl
        exact hidle' (hsplit ▸ List.mem_append_right _ List.mem_cons_self)
      exact ⟨fun heq => absurd heq hne, fun hnone => absurd hready (hnone nextId hne)⟩
    | idle hnone _ => exact ⟨fun _ a ha hready => hnone a (hwaiting' a ha hready) hready, fun _ => rfl⟩
  constructor
  · rintro hprop ⟨hne, hrunning, hnone⟩
    exact hprop (hchoice.mpr hnone) s.current hne (.inr ⟨rfl, hrunning⟩)
  · intro halone hcurrent a ha hrun
    have hnone := hchoice.mp hcurrent
    rcases hrun with hready | ⟨rfl, hrunning⟩
    · exact hnone a ha hready
    · exact halone ⟨ha, hrunning, hnone⟩

/-- Two tasks take turns. -/
theorem idle_chosen_only_if_needed_turns : ∃ p r, Reached sampleSymbols QueuesWakes p ∧
    p.sched.InState p.sched.current .running ∧ p.sched.schedule sampleSymbols = .ok r ∧
      (r.2.current = .idle → ∀ a, a ≠ .idle → ¬ CouldRun p.sched a) := by
  obtain ⟨p, hp, hinit, hrunning, hready, hsome⟩ := exists_reached sampleSymbols QueuesWakes 0 0 0
    [.spawn "A" 1 (sampleTask 1), .spawn "B" 1 (sampleTask 2), .initComplete, .yield 0x7000]
    (fun p => p.sched.kernelInitComplete = true ∧ p.sched.InState p.sched.current .running ∧
      p.sched.InState ⟨2, 0⟩ .ready ∧ (p.sched.schedule sampleSymbols).toOption.isSome)
    (by decide +kernel)
  obtain ⟨r, hr⟩ := Option.isSome_iff_exists.mp hsome
  refine ⟨p, r, hp, hrunning, ok_of_toOption hr, ?_⟩
  refine (idle_chosen_only_if_needed_iff hp hinit (e := .yield 0x7000) trivial rfl
    (ok_of_toOption hr)).mpr ?_
  rintro ⟨-, -, hnone⟩
  exact hnone ⟨2, 0⟩ (by decide) hready

/-- A task that is running and alone: `schedule` chooses the idle task. -/
theorem running_task_passed_over : ∃ p s', Reached sampleSymbols QueuesWakes p ∧
    p.sched.kernelInitComplete = true ∧ p.sched.InState ⟨1, 0⟩ .running ∧
      p.sched.current = ⟨1, 0⟩ ∧ p.sched.schedule sampleSymbols = .ok s' ∧ s'.2.current = .idle := by
  obtain ⟨p, hp, hinit, hrunning, hcurrent, hsome⟩ := exists_reached sampleSymbols QueuesWakes 0 0 0
    [.spawn "A" 1 (sampleTask 1), .initComplete, .yield 0x7000]
    (fun p => p.sched.kernelInitComplete = true ∧ p.sched.InState ⟨1, 0⟩ .running ∧
      p.sched.current = ⟨1, 0⟩ ∧
      (p.sched.schedule sampleSymbols).toOption.map (fun r => r.2.current) = some .idle)
    (by decide +kernel)
  obtain ⟨r, hr, hidle⟩ := Option.map_eq_some_iff.mp hsome
  exact ⟨p, r, hp, hinit, hrunning, hcurrent, ok_of_toOption hr, hidle⟩

/-! ## The queue holds ready tasks only -/

/-- A task that blocks, ends or is killed is not in the ready queue then, and nobody calls
`exit_thread` on the idle thread. -/
def KeepsReady (p : Processor) : Event → Prop
  | .block => p.sched.current ∉ p.sched.queue.entries
  | .sleep _ => p.sched.current ∉ p.sched.queue.entries
  | .exit _ => p.sched.current ∉ p.sched.queue.entries
  | .exitThread thread => thread ≠ 0
  | .tick _ => ∀ arg ∈ p.sched.systemTasks.entries,
      .expandTaskId arg ∉ p.sched.queue.entries ∧ .expandTaskId arg ∉ p.sched.sleepQueue.due
  | _ => True

instance (p : Processor) : (e : Event) → Decidable (KeepsReady p e)
  | .block | .sleep _ | .exit _ =>
    inferInstanceAs (Decidable (p.sched.current ∉ p.sched.queue.entries))
  | .exitThread thread => inferInstanceAs (Decidable (thread ≠ 0))
  | .tick _ => inferInstanceAs (Decidable (∀ arg ∈ p.sched.systemTasks.entries, _ ∧ _))
  | .spawn .. | .yield _ | .keyboard _ | .initComplete => .isTrue trivial

theorem KeepsReady.sparesIdle (p : Processor) (e : Event) (h : KeepsReady p e) : SparesIdle p e := by
  cases e with
  | exitThread => exact h
  | spawn | block | sleep | yield | exit | keyboard | tick | initComplete => exact trivial

theorem sound_reschedule (h : Sound s) (hok : s.reschedule sym rsp = .ok s') : Sound s' := by
  obtain ⟨args, s1, hsched, hcase⟩ := reschedule_ok hok
  have hsound := h.schedule hsched
  rcases hcase with ⟨-, rfl⟩ | ⟨x, -, rfl⟩
  · exact hsound
  · have hfollow : Follows (fun t t' => t.state = .ready → t'.state = .ready) (fun _ => False) s1
        (s1.switched s.current rsp x) :=
      follows_switched (fun _ => id) (fun _ _ => id) s1 s.current rsp x
    refine hsound.keeps rfl fun a _ hready => ?_
    obtain ⟨t, ht, hstate⟩ := hready
    obtain ⟨t', ht', hstays⟩ := hfollow.find_after ht not_false
    exact ⟨t', ht', hstays hstate⟩

theorem sound_current (h : Sound s) (hnot : s.current ∉ s.queue.entries) {f : Task → Task}
    (hfind : ∀ b, s'.find b = if b = s.current then (s.find b).map f else s.find b)
    (hqueue : s'.queue = s.queue) : Sound s' := by
  refine h.keeps hqueue fun a ha hready => ?_
  have hne : a ≠ s.current := by
    rintro rfl
    exact hnot ha
  obtain ⟨t, ht, hstate⟩ := hready
  exact ⟨t, by rw [hfind, if_neg hne, ht], hstate⟩

theorem sound_spawn (h : Sound p.sched) (hspawn : Spawned p task p') : Sound p'.sched := by
  cases hspawn with
  | refused => exact h.keeps rfl fun _ _ => id
  | @placed taskId global threads queue hnew hfind _ _ hqueue =>
    have hnot : taskId ∉ p.sched.queue.entries := by
      intro hmem
      obtain ⟨u, hu, -⟩ := h.ready taskId hmem
      cases hnew.symm.trans hu
    refine ⟨?_, fun b hb => ?_⟩
    · rw [show RingBuffer.entries _ = _ from hqueue, List.nodup_append]
      refine ⟨h.nodup, List.nodup_singleton taskId, fun b hb c hc heq => hnot ?_⟩
      rw [← List.mem_singleton.mp hc, ← heq]
      exact hb
    · rw [show RingBuffer.entries _ = _ from hqueue, List.mem_append, List.mem_singleton] at hb
      rw [InState, show Scheduler.find _ b = _ from hfind b]
      by_cases hbt : b = taskId
      · rw [if_pos hbt]
        exact ⟨_, rfl, rfl⟩
      · obtain ⟨u, hu, hready⟩ := h.ready b (hb.resolve_right hbt)
        rw [if_neg hbt]
        exact ⟨u, hu, hready⟩

theorem sound_exec (h : Sound p.sched) (hlive : Lively p) (hcond : KeepsReady p e)
    (hok : p.exec sym e = .ok p') : Sound p'.sched := by
  have htombs : TombsEnd p.sched := by
    intro a ha t ht
    obtain ⟨u, hu, hdead⟩ := hlive.orderly.tombs a ha
    cases hu.symm.trans ht
    exact .inr hdead
  cases exec_done hok with
  | spawned hspawned => exact sound_spawn h hspawned
  | @blocked _ q he =>
    have hsound : Sound { p.sched with sleepQueue := q } := h.keeps rfl fun _ _ => id
    obtain ⟨global, threads, heq⟩ := markBlocked_frame { p.sched with sleepQueue := q }
    rcases he with ⟨rfl, -⟩ | ⟨_, rfl, -⟩ <;>
      exact sound_current hsound hcond (find_markBlocked _) (by rw [heq])
  | asked thread =>
    obtain ⟨queue, heq⟩ := p.sched.exitThread_frame thread
    rw [heq]
    exact h.keeps rfl fun _ _ => id
  | woken taskId => exact h.wake taskId
  | initialised => exact h.keeps rfl fun _ _ => id
  | ticked _ => exact h.timerWork htombs hcond
  | scheduled hcall hresched =>
    refine sound_reschedule ?_ hresched
    cases scheduleCall_called hcall with
    | yield => exact h
    | exit =>
      obtain ⟨global, threads, queue, heq⟩ := p.sched.killCurrentTask_frame
      exact sound_current h hcond p.sched.find_killCurrentTask (by rw [heq])
    | tick => exact h.timerWork htombs hcond

theorem sound_wakes (h : Sound s) (sleepers : List SleepEntry) :
    Sound (sleepers.foldl (fun s sleeper => (s.wake sleeper.taskId).2) s) := by
  induction sleepers generalizing s with
  | nil => exact h
  | cons sleeper rest ih => exact ih (h.wake sleeper.taskId)

theorem wakesQueued_of_sound (h : Sound p.sched) (hwaiting : Waiting p.sched) (e : Event) :
    WakesQueued p e := by
  have hwake : ∀ {s : Scheduler} (a : TaskId), Sound s ∧ Waiting s → Sound (s.wake a).2 ∧
      Waiting (s.wake a).2 := by
    rintro s a ⟨hs, hw⟩
    refine ⟨hs.wake a, hw.wake fun hblocked => ?_⟩
    obtain ⟨t, ht, hstate⟩ := hblocked
    exact hs.room ht (by rw [hstate]; decide)
  cases e with
  | keyboard taskId => exact (hwake taskId ⟨h, hwaiting⟩).2
  | tick =>
    exact (wakeExpired_inv (P := fun s => Sound s ∧ Waiting s) (fun _ a hs => hwake a hs)
      (fun _ _ hs => ⟨hs.1.keeps rfl fun _ _ => id, hs.2⟩) _ ⟨h, hwaiting⟩).2
  | spawn | block | sleep | yield | exit | exitThread | initComplete => exact trivial

theorem sound_of_reached (h : Reached sym KeepsReady p) :
    Lively p ∧ Sound p.sched ∧ Waiting p.sched := by
  refine h.invariant (fun p => Lively p ∧ Sound p.sched ∧ Waiting p.sched) ?_ ?_
  · rintro _ ⟨idleStack, kernelStack, cr3, rfl⟩
    exact ⟨lively_boot .., ⟨List.nodup_nil, fun _ h => (List.not_mem_nil h).elim⟩,
      waiting_boot idleStack kernelStack cr3⟩
  · rintro p p' ⟨hlive, hsound, hwaiting⟩ ⟨e, hen, hcond, hok⟩
    exact ⟨(hlive.step hen (hcond.sparesIdle p e) hok).1, sound_exec hsound hlive hcond hok,
      waiting_exec hwaiting (wakesQueued_of_sound hsound hwaiting e) hok⟩

/-- No push onto the ready queue fails: neither that of a new task, nor those of `wake`, from
the keyboard interrupt or one after the other for sleepers, nor that of `schedule`. -/
structure PushesFit (sym : Symbols) (p : Processor) : Prop where
  spawn : ∀ name process task, ∃ p', p.spawn name process task = .ok p'
  wake : ∀ a, (p.sched.wake a).1 ≠ .error .queueFull
  sleepers : ∀ (pre rest : List SleepEntry) (entry : SleepEntry),
    p.sched.sleepQueue.countDown.entries = pre ++ entry :: rest →
    ((pre.foldl (fun s sleeper => (s.wake sleeper.taskId).2) p.sched).wake entry.taskId).1 ≠
      .error .queueFull
  requeue : ∀ e s rsp args s', p.scheduleCall e = some (s, rsp) → s.schedule sym = .ok (args, s') →
    s.current ≠ .idle → s.InState s.current .running → s.current ∈ s'.queue.entries

/-- As long as no task in the ready queue blocks, ends or is killed, every ready task but the
idle one occurs there exactly once, and no push ever fails. -/
theorem ready_tasks_queued_once (h : Reached sym KeepsReady p) :
    (∀ a, a ≠ .idle → p.sched.InState a .ready → p.sched.queue.entries.count a = 1) ∧
      PushesFit sym p := by
  obtain ⟨-, hsound, hwaiting⟩ := sound_of_reached h
  refine ⟨fun a ha hready => List.count_eq_one_of_mem hsound.nodup (hwaiting a ha hready),
    ⟨fun name process task => ?_, hsound.wake_ne_queueFull, fun pre rest entry _ => ?_,
      fun e s rsp args s' _ hsched => schedule_requeues hsched⟩⟩
  · have hsound' : Sound { p.sched with
        threads := Function.update p.sched.threads p.nextThreadId
          (Thread.new p.nextThreadId name process) } := hsound.keeps rfl fun _ _ => id
    obtain ⟨⟨inserted, s⟩, hinsert⟩ := hsound'.insertAndQueueTask task
    rw [Processor.spawn, hinsert]
    cases inserted with
    | error e => exact ⟨_, rfl⟩
    | ok taskId => exact ⟨_, rfl⟩
  · exact (sound_wakes hsound pre).wake_ne_queueFull entry.taskId

/-- The task in the slot that was freed is queued once. -/
theorem ready_tasks_queued_once_reused : ∃ p, Reached sampleSymbols KeepsReady p ∧
    p.sched.InState ⟨1, 1⟩ .ready ∧ p.sched.queue.entries.count ⟨1, 1⟩ = 1 := by
  obtain ⟨p, hp, hready⟩ := exists_reached sampleSymbols KeepsReady 0 0 0 sampleEvents
    (fun p => p.sched.InState ⟨1, 1⟩ .ready) (by decide +kernel)
  exact ⟨p, hp, hready, (ready_tasks_queued_once hp).1 _ (by decide) hready⟩

/-- A task that is woken between the moment it is marked and its call of `schedule`, twice in
a row with nothing else to run, is queued twice. -/
theorem woken_task_queued_twice : ∃ p, Reached sampleSymbols (fun _ _ => True) p ∧
    p.sched.InState ⟨1, 0⟩ .ready ∧ p.sched.current ≠ ⟨1, 0⟩ ∧
      p.sched.queue.entries.count ⟨1, 0⟩ = 2 :=
  exists_reached sampleSymbols (fun _ _ => True) 0 0 0
    [.spawn "A" 1 (sampleTask 1), .spawn "B" 1 (sampleTask 2), .initComplete, .yield 0x7000,
      .yield 0x4f00, .block, .yield 0x4f00, .block, .keyboard ⟨1, 0⟩, .yield 0x4f00,
      .keyboard ⟨2, 0⟩, .block, .keyboard ⟨1, 0⟩, .yield 0x4f00, .yield 0x4f00]
    (fun p => p.sched.InState ⟨1, 0⟩ .ready ∧ p.sched.current ≠ ⟨1, 0⟩ ∧
      p.sched.queue.entries.count ⟨1, 0⟩ = 2)
    (by decide +kernel)

end Processor

end CrapOs
