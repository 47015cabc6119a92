import CrapOs.TaskScheduler.Lifecycle

/-! # The ready queue

What the ready queue says about the tasks. That every ready task is in it only
needs the pushes of `wake` to succeed; that it holds nothing else needs more,
because a task that leaves the state `Ready` in any other way than by being
chosen leaves its id behind.
-/

namespace CrapOs

open Foundation

def SleepQueue.due (q : SleepQueue) : List TaskId :=
  (q.countDown.entries.takeWhile fun entry => entry.deltaTicks = 0).map SleepEntry.taskId

namespace Scheduler

variable {s s' : Scheduler} {a b : TaskId} {t : Task} {sym : Symbols}

theorem Chosen.room (h : Chosen s a s') : s'.queue.entries.length < 256 := by
  cases h with
  | @ready pre rest _ queue hsplit _ _ hrest =>
    have hle := s.queue.entries_length_le
    rw [hsplit, List.length_append, List.length_cons] at hle
    show queue.entries.length < 256
    rw [hrest]
    omega
  | @idle queue _ hempty =>
    show queue.entries.length < 256
    rw [hempty]
    decide

theorem schedule_requeues {args : Option SwitchArgs} (hok : s.schedule sym = .ok (args, s'))
    (hidle : s.current ≠ .idle) (hrunning : s.InState s.current .running) :
    s.current ∈ s'.queue.entries := by
  obtain ⟨nextId, s1, s2, next, hchosen, hrequeued, -, rfl, -⟩ := schedule_ok hok
  have hstill : s1.InState s.current .running := by
    obtain ⟨t, ht, hstate⟩ := hrunning
    cases hchosen with
    | ready _ _ hready _ =>
      obtain ⟨u, hu, hstate'⟩ := hready
      refine ⟨t, ?_, hstate⟩
      rw [find_modifyTask, if_neg]
      · exact ht
      · intro heq
        rw [heq] at ht
        cases hu.symm.trans ht
        cases hstate.symm.trans hstate'
    | idle => exact ⟨t, ht, hstate⟩
  have hroom := hchosen.room
  show s.current ∈ s2.queue.entries
  cases hrequeued with
  | idle hnot => exact absurd hstill hnot
  | queued _ _ hpush =>
    rw [show RingBuffer.entries _ = _ from hpush]
    exact List.mem_append_right _ (List.mem_singleton.mpr rfl)
  | full _ _ hfull => exact absurd hfull (Nat.ne_of_lt hroom)
  | unqueued _ heq => exact absurd heq hidle

def NoNewReady (t t' : Task) : Prop := t'.state = .ready → t.state = .ready

/-- All ready tasks are in the queue, the idle task apart. -/
def Waiting (s : Scheduler) : Prop :=
  ∀ a, a ≠ .idle → s.InState a .ready → a ∈ s.queue.entries

namespace Waiting

theorem follows {D : TaskId → Prop} (h : Waiting s) (hfollow : Follows NoNewReady D s s')
    (hqueue : s'.queue = s.queue) : Waiting s' := by
  rintro a ha ⟨t', ht', hready⟩
  obtain ⟨t, ht, hback⟩ := hfollow.find_before ht'
  rw [hqueue]
  exact h a ha ⟨t, ht, hback hready⟩

theorem chosen (h : Waiting s) (hchosen : Chosen s a s') : Waiting s' := by
  cases hchosen with
  | @ready pre rest _ queue hsplit hpre hready hrest =>
    rintro b hb ⟨t, ht, hstate⟩
    rw [find_modifyTask] at ht
    split at ht
    · obtain ⟨u, -, rfl⟩ := Option.map_eq_some_iff.mp ht
      cases hstate
    · rename_i hba
      -- it was in the queue, and is neither the task chosen nor one passed over
      have hmem := h b hb ⟨t, ht, hstate⟩
      rw [hsplit, List.mem_append, List.mem_cons] at hmem
      show b ∈ queue.entries
      rw [hrest]
      exact (hmem.resolve_left fun hin => hpre b hin ⟨t, ht, hstate⟩).resolve_left hba
  | idle hnone _ => exact fun b hb hready => absurd hready (hnone b (h b hb hready))

theorem requeued (h : Waiting s) (hroom : s.queue.entries.length < 256)
    (hrequeued : Requeued s a s') : Waiting s' := by
  have hstate : ∀ {b}, b ≠ a → (s.modifyTask a ({ · with state := .ready })).InState b .ready →
      s.InState b .ready := by
    rintro b hb ⟨t, ht, hready⟩
    rw [find_modifyTask, if_neg hb] at ht
    exact ⟨t, ht, hready⟩
  cases hrequeued with
  | idle => exact h
  | @queued queue hrunning hqueued hpush =>
    intro b hb hready
    show b ∈ queue.entries
    rw [hpush, List.mem_append, List.mem_singleton]
    by_cases hba : b = a
    · exact .inr hba
    · exact .inl (h b hb (hstate hba hready))
  | full _ _ hfull => exact absurd hfull (Nat.ne_of_lt hroom)
  | unqueued _ hidle =>
    exact fun b hb hready => h b hb (hstate (fun heq => hb (heq.trans hidle)) hready)

theorem schedule (h : Waiting s) {args : Option SwitchArgs} (hok : s.schedule sym = .ok (args, s')) :
    Waiting s' := by
  obtain ⟨nextId, s1, s2, next, hchosen, hrequeued, -, rfl, -⟩ := schedule_ok hok
  have hput := (h.chosen hchosen).requeued hchosen.room hrequeued
  exact hput

theorem wake (h : Waiting s) (hroom : s.InState a .blocked → s.queue.entries.length < 256) :
    Waiting (s.wake a).2 := by
  have hwoken := s.wake_woken a
  generalize (s.wake a).2 = s' at hwoken ⊢
  cases hwoken with
  | idle => exact h
  | @queued task queue hfind hblocked hpush =>
    intro b hb hready
    show b ∈ queue.entries
    rw [hpush, List.mem_append, List.mem_singleton]
    have hstate := (inState_setStates hfind task.thread .ready .active .ready).mp hready
    by_cases hba : b = a
    · exact .inr hba
    · rw [if_neg hba] at hstate
      exact .inl (h b hb hstate)
  | full hfind hblocked hfull => exact absurd hfull (Nat.ne_of_lt (hroom ⟨_, hfind, hblocked⟩))

end Waiting

theorem wake_entries_length (s : Scheduler) (a : TaskId) :
    (s.wake a).2.queue.entries.length ≤ s.queue.entries.length + 1 := by
  have hwoken := s.wake_woken a
  generalize (s.wake a).2 = s' at hwoken ⊢
  cases hwoken with
  | idle => exact Nat.le_succ _
  | @queued task queue _ _ hpush =>
    show queue.entries.length ≤ _
    rw [hpush, List.length_append]
    exact Nat.le_refl _
  | full => exact Nat.le_succ _

namespace Waiting

theorem wakeExpired (h : Waiting s) (l : List SleepEntry)
    (hroom : s.queue.entries.length + (l.takeWhile fun entry => entry.deltaTicks = 0).length ≤ 256) :
    Waiting (wakeExpired l s) := by
  induction l generalizing s with
  | nil => exact h
  | cons entry rest ih =>
    rw [Scheduler.wakeExpired]
    split
    · exact h
    · rename_i hdue
      have hdue' : entry.deltaTicks = 0 := not_not.mp hdue
      rw [List.takeWhile_cons_of_pos (by simpa using hdue'), List.length_cons] at hroom
      have hlength := s.wake_entries_length entry.taskId
      exact ih (h.wake fun _ => by omega) (by omega)

theorem tickSleepQueue (h : Waiting s)
    (hroom : s.queue.entries.length + s.sleepQueue.due.length ≤ 256) : Waiting s.tickSleepQueue :=
  h.wakeExpired _ (by rwa [SleepQueue.due, List.length_map] at hroom)

theorem timerWork (h : Waiting s.tickSleepQueue) : Waiting s.timerWork.2 := by
  have hticked : Waiting s.onTimerTick.2 := by
    rw [onTimerTick]
    generalize s.tickSleepQueue = s0 at h ⊢
    have hfollow : Follows NoNewReady (fun _ => False) s0
        (s0.modifyTask s0.current fun t => { t with ticksExecuted := t.ticksExecuted + 1 }) :=
      .modifyTask (fun _ => id) fun _ _ => id
    have hcounted := h.follows hfollow rfl
    split
    · exact hcounted
    · exact hcounted
  have hdrained : Waiting s.onTimerTick.2.drainSystemTasks := by
    refine drainLoop_inv (fun s arg queue hs _ => ?_) _ hticked
    have hpopped : Waiting { s with systemTasks := queue } := hs
    obtain ⟨global, threads, reaper, force, heq⟩ := killTask_frame { s with systemTasks := queue } arg
    exact hpopped.follows (D := fun _ => False) (.killTask (fun _ => id) (fun _ h => by cases h) arg)
      (by rw [heq])
  have hcleaned : Waiting s.onTimerTick.2.drainSystemTasks.tombstoneCleanup := by
    refine tombstoneLoop_inv (fun s a queue hs _ => ?_) _ hdrained
    have hpopped : Waiting { s with tombstoneQueue := queue } := hs
    obtain ⟨global, threads, heq⟩ := removeTask_frame { s with tombstoneQueue := queue } a
    exact hpopped.follows (D := fun _ => True) (.removeTask (fun _ => id) trivial) (by rw [heq])
  have hreaped : Waiting s.onTimerTick.2.drainSystemTasks.tombstoneCleanup.reapDyingTasks := by
    refine reapLoop_inv (fun s a queue hs _ => ?_) _ hcleaned
    have hpopped : Waiting { s with reaperQueue := queue } := hs
    obtain ⟨global, tombs, heq⟩ := reapTask_frame { s with reaperQueue := queue } a
    exact hpopped.follows (D := fun _ => False) (.reapTask (fun _ => id) fun _ _ h => by cases h)
      (by rw [heq])
  exact hreaped

end Waiting

def IdleUnqueued (s : Scheduler) : Prop :=
  s.kernelInitComplete = true → TaskId.idle ∉ s.queue.entries

theorem Orderly.idle_not_blocked (h : Orderly s) : ¬ s.InState .idle .blocked := by
  obtain ⟨t, ht, -, hrun⟩ := h.idle
  rintro ⟨u, hu, hblocked⟩
  cases hu.symm.trans ht
  rw [hblocked] at hrun
  rcases hrun with hrun | hrun <;> cases hrun

namespace IdleUnqueued

theorem of_subset (h : IdleUnqueued s) (hflag : s'.kernelInitComplete = s.kernelInitComplete)
    (hsub : ∀ b ∈ s'.queue.entries, b ∈ s.queue.entries ∨
      b ≠ .idle ∨ s.kernelInitComplete = false) : IdleUnqueued s' := by
  intro hinit hmem
  rw [hflag] at hinit
  rcases hsub _ hmem with hin | hne | hflag
  · exact h hinit hin
  · exact hne rfl
  · cases hinit.symm.trans hflag

theorem schedule (h : IdleUnqueued s) {args : Option SwitchArgs}
    (hok : s.schedule sym = .ok (args, s')) : IdleUnqueued s' := by
  obtain ⟨nextId, s1, s2, next, hchosen, hrequeued, -, rfl, -⟩ := schedule_ok hok
  have hafter : IdleUnqueued s1 := by
    cases hchosen with
    | @ready pre rest _ queue hsplit _ _ hrest =>
      refine h.of_subset rfl fun b hb => .inl ?_
      rw [hsplit, ← hrest]
      exact List.mem_append_right _ (List.mem_cons_of_mem _ hb)
    | idle _ hempty =>
      refine h.of_subset rfl fun b hb => ?_
      rw [show RingBuffer.entries _ = _ from hempty] at hb
      cases hb
  show IdleUnqueued s2
  cases hrequeued with
  | idle => exact hafter
  | queued _ hqueued hpush =>
    refine hafter.of_subset rfl fun b hb => ?_
    rw [show RingBuffer.entries _ = _ from hpush, List.mem_append, List.mem_singleton] at hb
    rcases hb with hb | rfl
    · exact .inl hb
    · exact .inr hqueued
  | full => exact hafter
  | unqueued => exact hafter

theorem wake (h : IdleUnqueued s) (hidle : ¬ s.InState .idle .blocked) (a : TaskId) :
    IdleUnqueued (s.wake a).2 := by
  have hwoken := s.wake_woken a
  generalize (s.wake a).2 = s' at hwoken ⊢
  cases hwoken with
  | idle => exact h
  | queued hfind hblocked hpush =>
    refine h.of_subset rfl fun b hb => ?_
    rw [show RingBuffer.entries _ = _ from hpush, List.mem_append, List.mem_singleton] at hb
    rcases hb with hb | rfl
    · exact .inl hb
    · refine .inr (.inl ?_)
      rintro rfl
      exact hidle ⟨_, hfind, hblocked⟩
  | full => exact h

theorem timerWork (h : IdleUnqueued s) (ho : Orderly s) : IdleUnqueued s.timerWork.2 := by
  have hticked : Orderly s.onTimerTick.2 ∧ IdleUnqueued s.onTimerTick.2 :=
    onTimerTick_inv (P := fun s => Orderly s ∧ IdleUnqueued s)
      (fun _ a hs => ⟨hs.1.wake a, hs.2.wake hs.1.idle_not_blocked a⟩)
      (fun _ _ hs => ⟨hs.1.congr rfl rfl rfl rfl, hs.2⟩)
      (fun s hs => ⟨hs.1.modifyTask s.current fun _ => ⟨rfl, rfl⟩, hs.2⟩)
      (fun _ _ hs => ⟨hs.1.congr rfl rfl rfl rfl, hs.2⟩) ⟨ho, h⟩
  obtain ⟨_, _, _, _, _, heq1⟩ := s.onTimerTick.2.drainSystemTasks_frame
  obtain ⟨_, _, _, heq2⟩ := s.onTimerTick.2.drainSystemTasks.tombstoneCleanup_frame
  obtain ⟨_, _, _, heq3⟩ := s.onTimerTick.2.drainSystemTasks.tombstoneCleanup.reapDyingTasks_frame
  refine hticked.2.of_subset ?_ fun b hb => .inl ?_
  · show s.onTimerTick.2.drainSystemTasks.tombstoneCleanup.reapDyingTasks.kernelInitComplete = _
    rw [heq3, heq2, heq1]
  · have hqueue : s.onTimerTick.2.drainSystemTasks.tombstoneCleanup.reapDyingTasks.queue =
        s.onTimerTick.2.queue := by rw [heq3, heq2, heq1]
    rw [← hqueue]
    exact hb

end IdleUnqueued

/-! ## The queue holds ready tasks only -/

structure Sound (s : Scheduler) : Prop where
  nodup : s.queue.entries.Nodup
  ready : ∀ a ∈ s.queue.entries, s.InState a .ready

namespace Sound

theorem keeps (h : Sound s) (hqueue : s'.queue = s.queue)
    (hready : ∀ a ∈ s.queue.entries, s.InState a .ready → s'.InState a .ready) : Sound s' where
  nodup := by
    rw [hqueue]
    exact h.nodup
  ready a ha := by
    rw [hqueue] at ha
    exact hready a ha (h.ready a ha)

theorem not_mem (h : Sound s) (ht : s.find a = some t) (hstate : t.state ≠ .ready) :
    a ∉ s.queue.entries := by
  intro hmem
  obtain ⟨u, hu, hready⟩ := h.ready a hmem
  cases hu.symm.trans ht
  exact hstate hready

theorem room (h : Sound s) (ht : s.find a = some t) (hstate : t.state ≠ .ready) :
    s.queue.entries.length < 256 := by
  refine s.global.length_le_maxTasks (l := a :: s.queue.entries)
    (List.nodup_cons.mpr ⟨h.not_mem ht hstate, h.nodup⟩) fun b hb => ?_
  rcases List.mem_cons.mp hb with rfl | hb
  · exact ⟨t, ht⟩
  · obtain ⟨u, hu, -⟩ := h.ready b hb
    exact ⟨u, hu⟩

theorem chosen (h : Sound s) (hchosen : Chosen s a s') : Sound s' := by
  cases hchosen with
  | @ready pre rest _ queue hsplit _ _ hrest =>
    have hnodup := h.nodup
    rw [hsplit, List.nodup_append, List.nodup_cons] at hnodup
    obtain ⟨-, ⟨ha, hnodup⟩, -⟩ := hnodup
    rw [← hrest] at ha hnodup
    refine ⟨hnodup, fun b hb => ?_⟩
    obtain ⟨u, hu, hready⟩ := h.ready b (by
      rw [hsplit, ← hrest]
      exact List.mem_append_right _ (List.mem_cons_of_mem a hb))
    refine ⟨u, ?_, hready⟩
    have hne : b ≠ a := by
      rintro rfl
      exact ha hb
    rw [find_modifyTask, if_neg hne]
    exact hu
  | @idle queue _ hempty =>
    have hnone : ∀ b, b ∉ queue.entries := fun b hb => by
      rw [hempty] at hb
      cases hb
    exact ⟨by rw [show RingBuffer.entries _ = _ from hempty]; exact List.nodup_nil,
      fun b hb => absurd hb (hnone b)⟩

theorem append {queue : PerCpuQueue} (h : Sound s) (ht : s.find a = some t) (hstate : t.state ≠ .ready)
    (hfind : ∀ b, s'.find b = if b = a then (s.find b).map ({ · with state := .ready }) else s.find b)
    (hqueue : s'.queue = queue) (hpush : queue.entries = s.queue.entries ++ [a]) : Sound s' := by
  have hnot := h.not_mem ht hstate
  refine ⟨?_, fun b hb => ?_⟩
  · rw [hqueue, hpush, List.nodup_append]
    refine ⟨h.nodup, List.nodup_singleton a, fun b hb c hc heq => hnot ?_⟩
    rw [← List.mem_singleton.mp hc, ← heq]
    exact hb
  · rw [hqueue, hpush, List.mem_append, List.mem_singleton] at hb
    by_cases hba : b = a
    · subst hba
      exact ⟨{ t with state := .ready }, by rw [hfind, if_pos rfl, ht]; rfl, rfl⟩
    · obtain ⟨u, hu, hready⟩ := h.ready b (hb.resolve_right hba)
      exact ⟨u, by rw [hfind, if_neg hba, hu], hready⟩

theorem made_ready (h : Sound s) (hfind : ∀ b, s'.find b =
      if b = a then (s.find b).map ({ · with state := .ready }) else s.find b)
    (hqueue : s'.queue = s.queue) : Sound s' := by
  refine h.keeps hqueue fun b _ hready => ?_
  obtain ⟨u, hu, hstate⟩ := hready
  by_cases hba : b = a
  · exact ⟨{ u with state := .ready }, by rw [hfind, if_pos hba, hu]; rfl, rfl⟩
  · exact ⟨u, by rw [hfind, if_neg hba, hu], hstate⟩

theorem requeued (h : Sound s) (hrequeued : Requeued s a s') : Sound s' := by
  cases hrequeued with
  | idle => exact h
  | queued hrunning _ hpush =>
    obtain ⟨t, ht, hstate⟩ := hrunning
    exact h.append ht (by rw [hstate]; decide) (fun b => s.find_modifyTask a b _) rfl hpush
  | full => exact h.made_ready (fun b => s.find_modifyTask a b _) rfl
  | unqueued => exact h.made_ready (fun b => s.find_modifyTask a b _) rfl

theorem schedule (h : Sound s) {args : Option SwitchArgs} (hok : s.schedule sym = .ok (args, s')) :
    Sound s' := by
  obtain ⟨nextId, s1, s2, next, hchosen, hrequeued, -, rfl, -⟩ := schedule_ok hok
  exact ((h.chosen hchosen).requeued hrequeued).keeps rfl fun _ _ => id

theorem wake (h : Sound s) (a : TaskId) : Sound (s.wake a).2 := by
  have hwoken := s.wake_woken a
  generalize (s.wake a).2 = s' at hwoken ⊢
  cases hwoken with
  | idle => exact h
  | queued hfind hblocked hpush =>
    exact h.append hfind (by rw [hblocked]; decide) (fun b => s.find_modifyTask a b _) rfl hpush
  | full => exact h.made_ready (fun b => s.find_modifyTask a b _) rfl

theorem tickSleepQueue (h : Sound s) : Sound s.tickSleepQueue :=
  wakeExpired_inv (fun _ a hs => hs.wake a) (fun _ _ hs => hs.keeps rfl fun _ _ => id) _ h

end Sound

theorem mem_wakeExpired {l : List SleepEntry} {s : Scheduler} (h : b ∈ (wakeExpired l s).queue.entries) :
    b ∈ s.queue.entries ∨
      b ∈ (l.takeWhile fun entry => entry.deltaTicks = 0).map SleepEntry.taskId := by
  induction l generalizing s with
  | nil => exact .inl h
  | cons entry rest ih =>
    rw [wakeExpired] at h
    split at h
    · exact .inl h
    · rename_i hdue
      rw [List.takeWhile_cons_of_pos (by simpa using hdue), List.map_cons, List.mem_cons]
      rcases ih h with hmem | hmem
      · have hwoken := s.wake_woken entry.taskId
        generalize (s.wake entry.taskId).2 = s' at hwoken hmem
        cases hwoken with
        | idle => exact .inl hmem
        | queued _ _ hpush =>
          rw [show RingBuffer.entries _ = _ from hpush, List.mem_append, List.mem_singleton] at hmem
          exact hmem.imp id .inl
        | full => exact .inl hmem
      · exact .inr (.inr hmem)

theorem wake_queueFull (h : (s.wake a).1 = .error .queueFull) :
    s.InState a .blocked ∧ s.queue.entries.length = 256 := by
  rw [wake] at h
  cases hfind : s.find a with
  | none =>
    rw [hfind] at h
    cases h
  | some task =>
    by_cases hblocked : task.state = .blocked
    · simp only [hfind, hblocked, if_true] at h
      cases hpush : (s.setStates a task.thread .ready .active).queue.push a with
      | error e => exact ⟨⟨task, hfind, hblocked⟩, (RingBuffer.pushOr_error hpush).2⟩
      | ok queue =>
        rw [hpush] at h
        cases h
    · simp only [hfind, hblocked, if_false] at h
      cases h

theorem Sound.wake_ne_queueFull (h : Sound s) (a : TaskId) : (s.wake a).1 ≠ .error .queueFull := by
  intro hfull
  obtain ⟨⟨t, ht, hblocked⟩, hlength⟩ := wake_queueFull hfull
  exact absurd hlength (Nat.ne_of_lt (h.room ht (by rw [hblocked]; decide)))

theorem Sound.insertTask (h : Sound s) {task : Task} {global : GlobalScheduler}
    (hinsert : s.global.insertTask task = .ok (a, global)) :
    a ∉ s.queue.entries ∧ s.queue.entries.length < 256 := by
  obtain ⟨hnew, hfind⟩ := GlobalScheduler.insertTask_ok hinsert
  have hnot : a ∉ s.queue.entries := by
    intro hmem
    obtain ⟨u, hu, -⟩ := h.ready a hmem
    cases hnew.symm.trans hu
  refine ⟨hnot, global.length_le_maxTasks (l := a :: s.queue.entries)
    (List.nodup_cons.mpr ⟨hnot, h.nodup⟩) fun b hb => ?_⟩
  rw [hfind]
  by_cases hba : b = a
  · exact ⟨_, if_pos hba⟩
  · obtain ⟨u, hu, -⟩ := h.ready b ((List.mem_cons.mp hb).resolve_left hba)
    exact ⟨u, by rw [if_neg hba]; exact hu⟩

theorem Sound.insertAndQueueTask (h : Sound s) (task : Task) :
    ∃ r, s.insertAndQueueTask task = .ok r := by
  rw [Scheduler.insertAndQueueTask]
  cases hinsert : s.global.insertTask task with
  | error e => exact ⟨_, rfl⟩
  | ok r =>
    obtain ⟨taskId, global⟩ := r
    obtain ⟨queue, hpush, -⟩ := s.queue.pushOr_of_room SchedulerError.queueFull
      (h.insertTask hinsert).2 taskId
    dsimp only
    rw [show s.queue.push taskId = .ok queue from hpush]
    exact ⟨_, rfl⟩

theorem Sound.killTask (h : Sound s) (arg : Nat) (hnot : .expandTaskId arg ∉ s.queue.entries) :
    Sound (s.killTask arg) := by
  obtain ⟨global, threads, reaper, force, heq⟩ := s.killTask_frame arg
  refine h.keeps (by rw [heq]) fun b hb hready => ?_
  obtain ⟨u, hu, hstate⟩ := hready
  refine ⟨u, ?_, hstate⟩
  have hne : b ≠ .expandTaskId arg := by
    rintro rfl
    exact hnot hb
  rw [find_killTask, if_neg hne, hu]

def TombsEnd (s : Scheduler) : Prop :=
  ∀ a ∈ s.tombstoneQueue.entries, ∀ t, s.find a = some t → t.state.Ending

theorem TombsEnd.follows {D : TaskId → Prop} (h : TombsEnd s)
    (hfollow : Follows (fun t t' => t.state.Ending → t'.state.Ending) D s s')
    (htombs : ∀ a ∈ s'.tombstoneQueue.entries, a ∈ s.tombstoneQueue.entries) : TombsEnd s' := by
  intro a ha t' ht'
  obtain ⟨t, ht, hstays⟩ := hfollow.find_before ht'
  exact hstays (h a (htombs a ha) t ht)

namespace Sound

theorem onTimerTick (h : Sound s) :
    Sound s.onTimerTick.2 ∧ s.onTimerTick.2.queue = s.tickSleepQueue.queue := by
  have hslept := h.tickSleepQueue
  rw [Scheduler.onTimerTick]
  generalize s.tickSleepQueue = s0 at hslept ⊢
  have hcounted : Sound (s0.modifyTask s0.current fun t =>
      { t with ticksExecuted := t.ticksExecuted + 1 }) := by
    refine hslept.keeps rfl fun b _ hready => ?_
    obtain ⟨u, hu, hstate⟩ := hready
    rw [InState, find_modifyTask, hu]
    split
    · exact ⟨_, rfl, hstate⟩
    · exact ⟨u, rfl, hstate⟩
  split
  · exact ⟨hcounted.keeps rfl fun _ _ => id, rfl⟩
  · exact ⟨hcounted.keeps rfl fun _ _ => id, rfl⟩

theorem drainSystemTasks (h : Sound s) (htombs : TombsEnd s)
    (hkills : ∀ arg ∈ s.systemTasks.entries, .expandTaskId arg ∉ s.queue.entries) :
    Sound s.drainSystemTasks ∧ TombsEnd s.drainSystemTasks := by
  refine And.imp_right And.left (drainLoop_inv (P := fun s => Sound s ∧ TombsEnd s ∧
    ∀ arg ∈ s.systemTasks.entries, .expandTaskId arg ∉ s.queue.entries) ?_ _ ⟨h, htombs, hkills⟩)
  rintro s arg queue ⟨hs, htombs, hkills⟩ hpop
  have hentries := RingBuffer.entries_pop hpop
  have hpopped : Sound { s with systemTasks := queue } := hs.keeps rfl fun _ _ => id
  have hrest : TombsEnd { s with systemTasks := queue } := htombs
  obtain ⟨global, threads, reaper, force, heq⟩ := killTask_frame { s with systemTasks := queue } arg
  refine ⟨hpopped.killTask arg (hkills arg (hentries ▸ List.mem_cons_self)), ?_, ?_⟩
  · exact hrest.follows (D := fun _ => False) (.killTask (fun _ => id) (fun _ _ => .inl rfl) arg)
      (by rw [heq]; exact fun _ => id)
  · rw [heq]
    exact fun arg' harg' => hkills arg' (hentries ▸ List.mem_cons_of_mem arg harg')

theorem tombstoneCleanup (h : Sound s) (htombs : TombsEnd s) : Sound s.tombstoneCleanup := by
  refine And.left (tombstoneLoop_inv (P := fun s => Sound s ∧ TombsEnd s) ?_ _ ⟨h, htombs⟩)
  rintro s a queue ⟨hs, htombs⟩ hpop
  have hentries := RingBuffer.entries_pop hpop
  obtain ⟨global, threads, heq⟩ := removeTask_frame { s with tombstoneQueue := queue } a
  refine ⟨hs.keeps (by rw [heq]) fun b hb hready => ?_, ?_⟩
  · obtain ⟨u, hu, hstate⟩ := hready
    have hne : b ≠ a := by
      rintro rfl
      exact TaskState.Runnable.not_ending (.inl hstate) (htombs b (hentries ▸ List.mem_cons_self) u hu)
    refine ⟨u, ?_, hstate⟩
    rw [find_removeTask, if_neg hne]
    exact hu
  · have hrest : TombsEnd { s with tombstoneQueue := queue } :=
      fun b hb => htombs b (hentries ▸ List.mem_cons_of_mem a hb)
    exact hrest.follows (D := fun _ => True) (.removeTask (fun _ => id) trivial)
      (by rw [heq]; exact fun _ => id)

theorem reapDyingTasks (h : Sound s) : Sound s.reapDyingTasks := by
  refine reapLoop_inv (fun s a queue hs _ => ?_) _ h
  obtain ⟨global, tombs, heq⟩ := reapTask_frame { s with reaperQueue := queue } a
  have hfollow : Follows (fun t t' => t.state = .ready → t'.state = .ready) (fun _ => False)
      { s with reaperQueue := queue } ({ s with reaperQueue := queue }.reapTask a) := by
    refine .reapTask (fun _ => id) fun t hdying hready => ?_
    rw [hdying] at hready
    cases hready
  refine hs.keeps (by rw [heq]) fun b _ hready => ?_
  obtain ⟨u, hu, hstate⟩ := hready
  obtain ⟨u', hu', hstays⟩ := hfollow.find_after hu not_false
  exact ⟨u', hu', hstays hstate⟩

theorem timerWork (h : Sound s) (htombs : TombsEnd s)
    (hkills : ∀ arg ∈ s.systemTasks.entries,
      .expandTaskId arg ∉ s.queue.entries ∧ .expandTaskId arg ∉ s.sleepQueue.due) :
    Sound s.timerWork.2 := by
  obtain ⟨hsound, hqueue⟩ := h.onTimerTick
  obtain ⟨_, _, _, _, _, heq⟩ := s.onTimerTick_frame
  have hending : TombsEnd s.onTimerTick.2 := by
    refine htombs.follows (D := fun _ => False) (s.follows_onTimerTick.mono ?_ fun _ => id)
      (by rw [heq]; exact fun _ => id)
    exact fun _ _ hsame hend => (hsame.2 (.inl hend)).symm ▸ hend
  have hkills' : ∀ arg ∈ s.onTimerTick.2.systemTasks.entries,
      .expandTaskId arg ∉ s.onTimerTick.2.queue.entries := by
    intro arg harg hin
    rw [show s.onTimerTick.2.systemTasks = s.systemTasks by rw [heq]] at harg
    rw [hqueue] at hin
    rcases mem_wakeExpired hin with hin | hin
    · exact (hkills arg harg).1 hin
    · exact (hkills arg harg).2 hin
  obtain ⟨hdrained, htombs'⟩ := hsound.drainSystemTasks hending hkills'
  exact (hdrained.tombstoneCleanup htombs').reapDyingTasks.keeps rfl fun _ _ => id

end Sound

end Scheduler

end CrapOs
