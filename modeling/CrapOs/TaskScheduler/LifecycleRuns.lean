import CrapOs.TaskScheduler.Lifecycle

/-! # Runs that spare the idle thread

The invariant of the task table over all events, and what follows from it: a task
that ends is never run again and its stack is freed a tick later, and the idle
task keeps its slot.
-/

namespace CrapOs

open Foundation Scheduler

/-- Nobody calls `exit_thread` on the idle thread. -/
def SparesIdle (_ : Processor) : Event → Prop
  | .exitThread thread => thread ≠ 0
  | _ => True

instance (p : Processor) : (e : Event) → Decidable (SparesIdle p e)
  | .exitThread thread => inferInstanceAs (Decidable (thread ≠ 0))
  | .spawn .. | .block | .sleep _ | .yield _ | .exit _ | .keyboard _ | .tick _ | .initComplete =>
    .isTrue trivial

namespace Processor

variable {p p' : Processor} {sym : Symbols} {e : Event} {task : Task}

/-- What holds between two events as long as the idle thread is spared. -/
structure Lively (p : Processor) : Prop where
  orderly : Orderly p.sched
  requests : Requests p.sched
  runs : CurrentRuns p.sched
  unused : ∀ u, p.nextThreadId ≤ u → (p.sched.threads u).taskId = none

theorem boot_find {idleStack kernelStack cr3 : Nat} {a : TaskId} {t : Task}
    (h : (boot idleStack kernelStack cr3).sched.find a = some t) :
    a = .idle ∧ t = .newIdle 0 idleStack := by
  have hset := GlobalScheduler.new.getTask_setSlot ⟨0, by decide⟩ ⟨some (.newIdle 0 idleStack), 0⟩ a
  have hnew : GlobalScheduler.new.getTask a = none := by
    rw [GlobalScheduler.getTask]
    split
    · exact ite_self none
    · rfl
  rw [hnew] at hset
  rw [show (boot idleStack kernelStack cr3).sched.find a = _ from hset] at h
  obtain ⟨i, gen⟩ := a
  dsimp only at h
  split_ifs at h with hidx hgen
  cases h
  exact ⟨by rw [TaskId.idle, show i = 0 from hidx, hgen], rfl⟩

theorem lively_boot (idleStack kernelStack cr3 : Nat) : Lively (boot idleStack kernelStack cr3) := by
  have hidle : (boot idleStack kernelStack cr3).sched.find .idle = some (.newIdle 0 idleStack) :=
    GlobalScheduler.getTask_insertIdleTask _ _
  have hzero : (boot idleStack kernelStack cr3).sched.threads 0 =
      { Thread.newIdle with taskId := some .idle } := by simp [boot, initIdle]
  have hother : ∀ u, u ≠ 0 → (boot idleStack kernelStack cr3).sched.threads u = .new u "" 0 :=
    fun u hu => by simp [boot, initIdle, hu]
  refine ⟨⟨⟨?_, ?_, ?_⟩, fun _ h => (List.not_mem_nil h).elim, List.nodup_nil, ?_, ?_⟩,
    fun _ h => (List.not_mem_nil h).elim, ?_, ?_⟩
  · intro a t ht
    obtain ⟨rfl, rfl⟩ := boot_find ht
    exact congrArg Thread.taskId hzero
  · intro u a htask
    by_cases hu : u = 0
    · subst hu
      cases htask
      exact ⟨_, hidle, rfl⟩
    · rw [hother u hu] at htask
      cases htask
  · intro a t ht hend
    obtain ⟨-, rfl⟩ := boot_find ht
    rcases hend with h | h <;> cases h
  · exact ⟨_, hidle, rfl, .inr rfl⟩
  · exact ⟨_, hidle⟩
  · exact ⟨_, hidle, TaskState.Runnable.not_ending (.inr rfl)⟩
  · intro u hu
    rw [hother u (Nat.ne_of_gt hu)]
    rfl

/-! ## One event -/

variable {rsp : Nat} {s : Scheduler}

theorem Lively.follows (h : Lively p) {leaving : TaskId → Bool} {D : TaskId → Prop} (ho : Orderly s)
    (hreq : Requests s) (hruns : CurrentRuns s) (hfollow : Follows Ageing D p.sched s) :
    Lively { p with sched := s, leaving := leaving } where
  orderly := ho
  requests := hreq
  runs := hruns
  unused u hu := h.orderly.linked.taskId_eq_none ho.linked hfollow (h.unused u hu)

theorem Lively.undisturbed (h : Lively p) {leaving : TaskId → Bool} (ho : Orderly s)
    (hfollow : Follows Undisturbed (fun _ => False) p.sched s)
    (hsystem : s.systemTasks = p.sched.systemTasks) (hruns : CurrentRuns s) :
    Lively { p with sched := s, leaving := leaving } :=
  h.follows ho (h.requests.follows hsystem hfollow) hruns (hfollow.mono Undisturbed.ageing fun _ => id)

/-- The new task is found next to all others. -/
theorem Lively.spawn (h : Lively p) (hthread : task.thread = p.nextThreadId)
    (hspawn : Spawned p task p') :
    Lively p' ∧ ∀ a t, p.sched.find a = some t → p'.sched.find a = some t := by
  have hlink := h.orderly.linked
  -- no task has the new thread
  have hfresh : ∀ {a t}, p.sched.find a = some t → t.thread ≠ p.nextThreadId := by
    intro a t ht heq
    have := hlink.thread_task ht
    rw [heq, h.unused _ (Nat.le_refl _)] at this
    cases this
  cases hspawn with
  | @refused threads hsame hnone =>
    have hthreads : ∀ u, (threads u).taskId = (p.sched.threads u).taskId := by
      intro u
      by_cases hu : u = p.nextThreadId
      · rw [hu, hnone, h.unused _ (Nat.le_refl _)]
      · rw [hsame u hu]
    refine ⟨⟨⟨⟨?_, ?_, ?_⟩, h.orderly.tombs, h.orderly.nodup, h.orderly.idle, h.orderly.current⟩,
      h.requests, h.runs, ?_⟩, fun _ _ => id⟩
    · intro a t ht
      exact (hthreads _).trans (hlink.thread_task ht)
    · intro u a htask
      exact hlink.task_thread ((hthreads u).symm.trans htask)
    · intro a t ht hend
      show (threads t.thread).state = .dying
      rw [hsame _ (hfresh ht)]
      exact hlink.ending ht hend
    · intro u hu
      exact (hthreads u).trans (h.unused u (Nat.le_of_succ_le hu))
  | @placed taskId global threads queue hnew hfind hsame hset hqueue =>
    have hold : ∀ a t, p.sched.find a = some t → global.getTask a = some t := by
      intro a t ht
      rw [hfind, if_neg]
      · exact ht
      · rintro rfl
        rw [hnew] at ht
        cases ht
    refine ⟨⟨⟨⟨?_, ?_, ?_⟩, ?_, h.orderly.nodup, ?_, ?_⟩, ?_, ?_, ?_⟩, hold⟩
    · intro a t ht
      rw [show Scheduler.find _ a = _ from hfind a] at ht
      split_ifs at ht with ha
      · cases ht
        show (threads task.thread).taskId = some a
        rw [hthread, hset, ha]
      · show (threads t.thread).taskId = some a
        rw [hsame _ (hfresh ht)]
        exact hlink.thread_task ht
    · intro u a htask
      by_cases hu : u = p.nextThreadId
      · rw [hu, show Thread.taskId _ = _ from hset] at htask
        cases htask
        exact ⟨_, (hfind taskId).trans (if_pos rfl), hthread.trans hu.symm⟩
      · rw [show Scheduler.threads _ u = _ from hsame u hu] at htask
        obtain ⟨t, ht, hu'⟩ := hlink.task_thread htask
        exact ⟨t, hold a t ht, hu'⟩
    · intro a t ht hend
      rw [show Scheduler.find _ a = _ from hfind a] at ht
      split_ifs at ht with ha
      · cases ht
        rcases hend with h | h <;> cases h
      · show (threads t.thread).state = .dying
        rw [hsame _ (hfresh ht)]
        exact hlink.ending ht hend
    · intro a ha
      obtain ⟨t, ht, hdead⟩ := h.orderly.tombs a ha
      exact ⟨t, hold a t ht, hdead⟩
    · obtain ⟨t, ht, hrest⟩ := h.orderly.idle
      exact ⟨t, hold _ t ht, hrest⟩
    · obtain ⟨t, ht⟩ := h.orderly.current
      exact ⟨t, hold _ t ht⟩
    · intro arg harg
      obtain ⟨t, ht, hrest⟩ := h.requests arg harg
      exact ⟨t, hold _ t ht, hrest⟩
    · obtain ⟨t, ht, hruns⟩ := h.runs
      exact ⟨t, hold _ t ht, hruns⟩
    · intro u hu
      rw [show Scheduler.threads _ u = _ from hsame u (Nat.ne_of_gt hu)]
      exact h.unused u (Nat.le_of_succ_le hu)

theorem Lively.markBlocked (h : Lively p) (hidle : p.sched.current ≠ .idle)
    (leaving : TaskId → Bool) :
    Lively { p with sched := p.sched.markBlocked, leaving := leaving } ∧
      Follows Undisturbed (fun _ => False) p.sched p.sched.markBlocked := by
  obtain ⟨t, ht, hruns⟩ := h.runs
  have hR := allowsSwitch_undisturbed
  have heq := markBlocked_eq ht
  obtain ⟨s1, hs1⟩ : ∃ s1, p.sched.modifyTask p.sched.current
    ({ · with ticksRemaining := taskQuantumTicks }) = s1 := ⟨_, rfl⟩
  have ho : Orderly s1 := hs1 ▸ h.orderly.modifyTask p.sched.current fun _ => ⟨rfl, rfl⟩
  have hretouch : Follows Undisturbed (fun _ => False) p.sched s1 :=
    hs1 ▸ .modifyTask hR.refl fun _ _ => ⟨rfl, fun _ => rfl⟩
  have ht1 : s1.find p.sched.current = some { t with ticksRemaining := taskQuantumTicks } := by
    rw [← hs1, find_modifyTask, if_pos rfl, ht]
    rfl
  have hsame : s1.systemTasks = p.sched.systemTasks ∧ s1.current = p.sched.current :=
    hs1 ▸ ⟨rfl, rfl⟩
  rw [hs1] at heq
  rw [heq]
  have hmark : Follows Undisturbed (fun _ => False) s1
      (s1.setStates p.sched.current t.thread .blocked .waiting) := by
    refine .setStates hR.refl fun u hu => ?_
    rw [ht1] at hu
    cases hu
    exact .of_not_ending hruns not_ending_blocked
  have hfollow := hretouch.trans hR.trans hmark
  refine ⟨h.undisturbed ?_ hfollow hsame.1 (h.runs.follows hsame.2 hfollow), hfollow⟩
  exact ho.setStates ht1 (fun hend => absurd hend not_ending_blocked)
    (fun hdead => hruns (.inr hdead)) hidle

theorem Lively.sleepQueue (h : Lively p) (q : SleepQueue) :
    Lively { p with sched := { p.sched with sleepQueue := q } } where
  orderly := h.orderly.congr rfl rfl rfl rfl
  requests := h.requests.congr rfl rfl
  runs := h.runs
  unused := h.unused

theorem Lively.wake (h : Lively p) (a : TaskId) :
    Lively { p with sched := (p.sched.wake a).2 } ∧
      Follows Undisturbed (fun _ => False) p.sched (p.sched.wake a).2 := by
  have hfollow : Follows Undisturbed (fun _ => False) p.sched (p.sched.wake a).2 :=
    .wake allowsSwitch_undisturbed.refl Undisturbed.wake
  obtain ⟨global, threads, queue, heq⟩ := p.sched.wake_frame a
  exact ⟨h.undisturbed (h.orderly.wake a) hfollow (by rw [heq])
    (h.runs.follows (by rw [heq]) hfollow), hfollow⟩

theorem reschedule_spec {s' : Scheduler} (ho : Orderly s) (hok : s.reschedule sym rsp = .ok s') :
    Orderly s' ∧ CurrentRuns s' ∧
      s'.systemTasks = s.systemTasks ∧ Follows Undisturbed (fun _ => False) s s' := by
  have hfollow : Follows Undisturbed (fun _ => False) s s' :=
    allowsSwitch_undisturbed.reschedule (fun _ _ => ⟨rfl, fun _ => rfl⟩) hok
  obtain ⟨global, queue, current, kernelStack, ticks, cr3, heq⟩ := reschedule_frame hok
  have hsystem : s'.systemTasks = s.systemTasks := by rw [heq]
  obtain ⟨args, s1, hsched, hcase⟩ := reschedule_ok hok
  obtain ⟨⟨ho1, hoSwitch⟩, hruns, hrunsSwitch⟩ := ho.schedule hsched rsp
  rcases hcase with ⟨-, rfl⟩ | ⟨x, -, rfl⟩
  · exact ⟨ho1, hruns, hsystem, hfollow⟩
  · exact ⟨hoSwitch x, hrunsSwitch x, hsystem, hfollow⟩

theorem Lively.orderly_killCurrentTask (h : Lively p) (hidle : p.sched.current ≠ .idle) :
    Orderly p.sched.killCurrentTask := by
  obtain ⟨t, ht, hruns⟩ := h.runs
  obtain ⟨queue, heq, -⟩ :=
    (p.sched.setStates p.sched.current t.thread .dying .dying).queueTaskReaper_eq p.sched.current
  rw [killCurrentTask_eq ht, heq]
  have hdead : t.state ≠ .dead := fun hdead => hruns (.inr hdead)
  exact (h.orderly.setStates ht (fun _ => rfl) hdead hidle).congr rfl rfl rfl rfl

theorem Lively.exit (h : Lively p) (hidle : p.sched.current ≠ .idle)
    (hok : Processor.exit sym p.sched rsp = .ok s) :
    Lively { p with sched := s } ∧ Follows Ageing (fun _ => False) p.sched s := by
  obtain ⟨args, s1, hsched, rfl⟩ := exit_ok hok
  obtain ⟨t, ht, hruns⟩ := h.runs
  obtain ⟨queue, hqueue, -⟩ :=
    (p.sched.setStates p.sched.current t.thread .dying .dying).queueTaskReaper_eq p.sched.current
  have heq := (killCurrentTask_eq ht).trans hqueue
  have ho := h.orderly_killCurrentTask hidle
  rw [heq] at hsched ho
  have hreq : Requests { p.sched.setStates p.sched.current t.thread .dying .dying with
      reaperQueue := queue } :=
    (h.requests.setStates p.sched.current t.thread (by decide) .dying).congr rfl rfl
  have hmark : Follows Ageing (fun _ => False) p.sched
      { p.sched.setStates p.sched.current t.thread .dying .dying with reaperQueue := queue } := by
    refine .of_map Ageing.refl (fun b => p.sched.find_setStates p.sched.current b t.thread _ .dying)
      fun u hu => ⟨rfl, fun hend => ?_⟩
    rw [ht] at hu
    cases hu
    exact absurd hend hruns
  have hR := allowsSwitch_undisturbed
  obtain ⟨⟨-, hoSwitch⟩, -, hrunsSwitch⟩ := ho.schedule hsched rsp
  obtain ⟨global, queue', current, kernelStack, ticks, hframe⟩ := schedule_frame hsched
  have hswitch := (hR.schedule (D := fun _ => False) hsched).trans hR.trans
    (follows_switched hR.refl (fun _ _ => ⟨rfl, fun _ => rfl⟩) s1 p.sched.current rsp args)
  have hfollow := hmark.trans Ageing.trans (hswitch.mono Undisturbed.ageing fun _ => id)
  exact ⟨h.follows (hoSwitch args) (hreq.follows (by rw [hframe]; rfl) hswitch) (hrunsSwitch args)
    hfollow, hfollow⟩

/-- A request to end a thread that is not the idle thread. -/
theorem Lively.exitThread (h : Lively p) {thread : ThreadId} (hidle : thread ≠ 0) :
    Lively { p with sched := p.sched.exitThread thread } ∧
      ∀ a, (p.sched.exitThread thread).find a = p.sched.find a := by
  rw [Scheduler.exitThread]
  split
  · exact ⟨h, fun _ => rfl⟩
  rename_i hstate
  cases htask : (p.sched.threads thread).taskId with
  | none => exact ⟨h, fun _ => rfl⟩
  | some taskId =>
    simp only [queueSystemTask]
    cases hpush : p.sched.systemTasks.push taskId.compressTaskId with
    | error => exact ⟨h, fun _ => rfl⟩
    | ok queue =>
      refine ⟨⟨h.orderly.congr rfl rfl rfl rfl, ?_, h.runs, h.unused⟩, fun _ => rfl⟩
      obtain ⟨t, ht, hthread⟩ := h.orderly.linked.task_thread htask
      intro arg harg
      rw [show RingBuffer.entries _ = _ from RingBuffer.pushOr_ok hpush, List.mem_append,
        List.mem_singleton] at harg
      rcases harg with harg | rfl
      · exact h.requests arg harg
      · have hslot := GlobalScheduler.slotIndex_lt ht
        rw [TaskId.expand_compress (Nat.lt_trans hslot (by decide))]
        refine ⟨t, ht, fun hdead => hstate (.inr ?_), ?_⟩
        · rw [← hthread]
          exact h.orderly.linked.ending ht (.inr hdead)
        · rintro rfl
          obtain ⟨u, hu, hzero, -⟩ := h.orderly.idle
          cases hu.symm.trans ht
          exact hidle (hthread.symm.trans hzero)

theorem Lively.tick (h : Lively p) (hok : p.sched.handlerApicTimer sym rsp = .ok s) :
    Lively { p with sched := s } ∧ Follows Ageing (· ∈ p.sched.tombstoneQueue.entries) p.sched s := by
  obtain ⟨ho, hempty, hcurrent, hending, hfollow⟩ := ticked_timerWork h.orderly h.requests h.runs
  have hreq : ∀ {s' : Scheduler}, s'.systemTasks.entries = [] → Requests s' := by
    intro s' hnil arg harg
    rw [hnil] at harg
    cases harg
  rcases handlerApicTimer_ok hok with ⟨-, hresched⟩ | ⟨hstay, rfl⟩
  · obtain ⟨ho', hruns, hsystem, hswitch⟩ := reschedule_spec ho hresched
    have hall := hfollow.trans Ageing.trans (hswitch.mono Undisturbed.ageing fun _ => False.elim)
    exact ⟨h.follows ho' (hreq (hsystem ▸ hempty)) hruns hall, hall⟩
  · obtain ⟨t, ht⟩ := ho.current
    have hruns : CurrentRuns p.sched.timerWork.2 := by
      refine ⟨t, ht, fun hend => ?_⟩
      rw [hcurrent] at ht
      rw [hending t ht hend] at hstay
      cases hstay
    exact ⟨h.follows ho (hreq hempty) hruns hfollow, hfollow⟩

def Removable (p : Processor) : Event → TaskId → Prop
  | .tick _ => fun a => a ∈ p.sched.tombstoneQueue.entries
  | _ => fun _ => False

def Aged (p : Processor) (e : Event) (p' : Processor) : Prop :=
  ∀ a t, p.sched.find a = some t → t.state.Ending →
    (∃ t', p'.sched.find a = some t' ∧ (t'.state = t.state ∨ t'.state = .dead)) ∨
      p'.sched.find a = none ∧ p.Removable e a

theorem aged_of_follows (h : Follows Ageing (p.Removable e) p.sched p'.sched) : p.Aged e p' := by
  intro a t ht hend
  have ha := h a
  rw [ht] at ha
  generalize hx : p'.sched.find a = x at ha
  cases ha with
  | removed _ hd => exact .inr ⟨rfl, hd⟩
  | kept hR => exact .inl ⟨_, rfl, hR.2 hend⟩

theorem Lively.step (h : Lively p) (hen : p.Enabled e) (hcond : SparesIdle p e)
    (hok : p.exec sym e = .ok p') : Lively p' ∧ p.Aged e p' := by
  have hcalm : ∀ {s : Scheduler} {leaving}, Lively { p with sched := s, leaving := leaving } ∧
      Follows Undisturbed (fun _ => False) p.sched s →
      Lively { p with sched := s, leaving := leaving } ∧
        p.Aged e { p with sched := s, leaving := leaving } := by
    rintro s leaving ⟨hs, hfollow⟩
    exact ⟨hs, aged_of_follows (hfollow.mono Undisturbed.ageing fun _ => False.elim)⟩
  cases e with
  | spawn name process task =>
    obtain ⟨hs, hkept⟩ := h.spawn hen.2.1 (spawn_spawned hok)
    exact ⟨hs, fun a t ht _ => .inl ⟨t, hkept a t ht, .inl rfl⟩⟩
  | block =>
    cases hok
    exact hcalm (h.markBlocked hen.2 _)
  | sleep seconds =>
    cases hok
    obtain ⟨q, hq⟩ := p.sched.markSleeping_eq seconds
    rw [hq]
    exact hcalm ((h.sleepQueue q).markBlocked hen.2.1 _)
  | yield rsp =>
    obtain ⟨s, hresched, hret⟩ := bind_eq_ok.mp hok
    cases hret
    obtain ⟨ho, hruns, hsystem, hfollow⟩ := reschedule_spec h.orderly hresched
    exact hcalm ⟨h.undisturbed ho hfollow hsystem hruns, hfollow⟩
  | exit rsp =>
    obtain ⟨s, hexit, hret⟩ := bind_eq_ok.mp hok
    cases hret
    obtain ⟨hs, hfollow⟩ := h.exit hen.2.1 hexit
    exact ⟨hs, aged_of_follows hfollow⟩
  | exitThread thread =>
    cases hok
    obtain ⟨hs, hfind⟩ := h.exitThread hcond
    exact ⟨hs, aged_of_follows (.of_find Ageing.refl hfind)⟩
  | keyboard taskId =>
    cases hok
    exact hcalm (h.wake taskId)
  | tick rsp =>
    obtain ⟨s, htick, hret⟩ := bind_eq_ok.mp hok
    cases hret
    obtain ⟨hs, hfollow⟩ := h.tick htick
    exact ⟨hs, aged_of_follows hfollow⟩
  | initComplete =>
    cases hok
    exact ⟨⟨h.orderly.congr rfl rfl rfl rfl, h.requests.congr rfl rfl, h.runs, h.unused⟩,
      aged_of_follows (.of_find Ageing.refl fun _ => rfl)⟩

theorem lively_of_reached (h : Reached sym SparesIdle p) : Lively p := by
  refine h.invariant Lively ?_ ?_
  · rintro _ ⟨idleStack, kernelStack, cr3, rfl⟩
    exact lively_boot idleStack kernelStack cr3
  · rintro p p' hp ⟨e, hen, hcond, hok⟩
    exact (hp.step hen hcond hok).1

theorem Lively.scheduleCall_orderly {s : Scheduler} {rsp : Nat} (h : Lively p) (hen : p.Enabled e)
    (hcall : p.scheduleCall e = some (s, rsp)) : Orderly s := by
  cases scheduleCall_called hcall with
  | yield => exact h.orderly
  | exit => exact h.orderly_killCurrentTask hen.2.1
  | tick => exact (ticked_timerWork h.orderly h.requests h.runs).1

/-- A processor with a clock: `ticks` timer interrupts so far, and for each task how many there
had been when it last ran an instruction. -/
structure Watched where
  processor : Processor
  ticks : Nat
  lastRan : TaskId → Nat

namespace Watched

/-- During an event the current task still runs, after it the new one. -/
def after (w : Watched) (e : Event) (p' : Processor) : Watched :=
  let ticks := match e with
    | .tick _ => w.ticks + 1
    | _ => w.ticks
  { processor := p'
    ticks := ticks
    lastRan := fun a =>
      if a = w.processor.sched.current ∨ a = p'.sched.current then ticks else w.lastRan a }

def Reached (sym : Symbols) (cond : Processor → Event → Prop) (w : Watched) : Prop :=
  Reach (fun w => ∃ idleStack kernelStack cr3, w = ⟨boot idleStack kernelStack cr3, 0, fun _ => 0⟩)
    (fun w w' => ∃ e p', w.processor.Enabled e ∧ cond w.processor e ∧
      w.processor.exec sym e = .ok p' ∧ w' = w.after e p') w

variable {w : Watched} {cond : Processor → Event → Prop}

theorem Reached.processor (h : w.Reached sym cond) : Processor.Reached sym cond w.processor := by
  refine h.invariant (fun w => Processor.Reached sym cond w.processor) ?_ ?_
  · rintro _ ⟨idleStack, kernelStack, cr3, rfl⟩
    exact .start ⟨idleStack, kernelStack, cr3, rfl⟩
  · rintro w _ hw ⟨e, p', hen, hcond, hok, rfl⟩
    exact .step hw ⟨e, hen, hcond, hok⟩

theorem exists_reached (h : Processor.Reached sym cond p) : ∃ w : Watched, w.processor = p ∧
    w.Reached sym cond := by
  refine Reach.invariant (fun p => ∃ w : Watched, w.processor = p ∧ w.Reached sym cond) ?_ ?_ h
  · rintro _ ⟨idleStack, kernelStack, cr3, rfl⟩
    exact ⟨_, rfl, .start ⟨idleStack, kernelStack, cr3, rfl⟩⟩
  · rintro _ p' ⟨w, rfl, hw⟩ ⟨e, hen, hcond, hok⟩
    exact ⟨w.after e p', rfl, .step hw ⟨e, p', hen, hcond, hok, rfl⟩⟩

theorem Reached.lastRan_le (h : w.Reached sym cond) (a : TaskId) : w.lastRan a ≤ w.ticks := by
  refine h.invariant (fun w => ∀ a, w.lastRan a ≤ w.ticks) ?_ ?_ a
  · rintro _ ⟨idleStack, kernelStack, cr3, rfl⟩ a
    exact Nat.le_refl _
  · rintro w _ hw ⟨e, p', -, -, -, rfl⟩ a
    have ha := hw a
    unfold Watched.after
    dsimp only
    split
    · exact Nat.le_refl _
    · cases e <;> dsimp only <;> omega

end Watched

/-- While the idle thread is spared, a task that is `Dying` or `Dead` is neither current nor
made current. It goes from `Dying` to `Dead` and is then removed, which only a timer
interrupt does in which the task does not run; it ran last before that interrupt. -/
theorem ending_task_never_runs {w : Watched} (h : w.Reached sym SparesIdle)
    (hen : w.processor.Enabled e) (hcond : SparesIdle w.processor e)
    (hok : w.processor.exec sym e = .ok p') {a : TaskId} {t : Task}
    (ht : w.processor.sched.find a = some t) (hend : t.state = .dying ∨ t.state = .dead) :
    a ≠ w.processor.sched.current ∧ a ≠ p'.sched.current ∧
      ((∃ t', p'.sched.find a = some t' ∧ (t'.state = t.state ∨ t'.state = .dead)) ∨
        p'.sched.find a = none ∧ t.state = .dead ∧ (∃ rsp, e = .tick rsp) ∧
          (w.after e p').lastRan a < (w.after e p').ticks) := by
  have hlive := lively_of_reached h.processor
  obtain ⟨hlive', haged⟩ := hlive.step hen hcond hok
  have hcurrent : a ≠ w.processor.sched.current := by
    rintro rfl
    obtain ⟨u, hu, hruns⟩ := hlive.runs
    rw [ht] at hu
    cases hu
    exact hruns hend
  obtain ⟨u, hu, hruns⟩ := hlive'.runs
  rcases haged a t ht hend with ⟨t', ht', hstate⟩ | ⟨hgone, hremoved⟩
  · refine ⟨hcurrent, ?_, .inl ⟨t', ht', hstate⟩⟩
    rintro rfl
    rw [ht'] at hu
    cases hu
    refine hruns ?_
    rcases hstate with hsame | hdead
    · rw [hsame]
      exact hend
    · exact .inr hdead
  · have hnext : a ≠ p'.sched.current := by
      rintro rfl
      rw [hgone] at hu
      cases hu
    refine ⟨hcurrent, hnext, .inr ⟨hgone, ?_⟩⟩
    · cases e with
      | tick rsp =>
        obtain ⟨v, hv, hdead⟩ := hlive.orderly.tombs a hremoved
        rw [ht] at hv
        cases hv
        refine ⟨hdead, ⟨rsp, rfl⟩, ?_⟩
        -- the task is not the one that runs during this interrupt or after it
        simp only [Watched.after, hcurrent, hnext, or_self, if_false]
        exact Nat.lt_succ_of_le (h.lastRan_le a)
      | spawn | block | sleep | yield | exit | exitThread | keyboard | initComplete =>
        exact hremoved.elim

def sampleTask (thread : ThreadId) : Task where
  id := .pending
  state := .ready
  savedRsp := 0x5000
  kernelStackTop := 0x6000
  isUserTask := false
  cr3 := 0
  ticksRemaining := taskQuantumTicks
  ticksExecuted := 0
  thread := thread
  stack := 0x2000

theorem sampleTask_isNew (u : ThreadId) : (sampleTask u).IsNew :=
  ⟨(by decide : 0x5000 ≠ 0), iff_of_true rfl rfl⟩

def sampleSymbols : Symbols where
  taskEntryStub := 0x100
  userTaskEntryStub := 0x200
  savedRsp := fun slot => 0x1000 + 8 * slot
  taskStub_lt := by decide
  stub_lt := by decide
  savedRsp_ne_zero := fun slot => by omega

/-- A task that exits is freed by the second timer interrupt. -/
theorem ending_task_never_runs_freed : ∃ (w : Watched) (p' : Processor) (t : Task),
    w.Reached sampleSymbols SparesIdle ∧ w.processor.sched.find ⟨1, 0⟩ = some t ∧
      w.processor.exec sampleSymbols (.tick 0x7000) = .ok p' ∧ p'.sched.find ⟨1, 0⟩ = none ∧
      (w.after (.tick 0x7000) p').lastRan ⟨1, 0⟩ < (w.after (.tick 0x7000) p').ticks := by
  obtain ⟨p, hp, hdead, hgone⟩ := exists_reached sampleSymbols SparesIdle 0 0 0
    [.spawn "A" 1 (sampleTask 1), .initComplete, .yield 0x7000, .exit 0x4f00, .tick 0x7000]
    (fun p => (p.sched.find ⟨1, 0⟩).map Task.state = some .dead ∧
      ((p.exec sampleSymbols (.tick 0x7000)).toOption.map fun p' => p'.sched.find ⟨1, 0⟩) = some none)
    (by decide +kernel)
  obtain ⟨w, rfl, hw⟩ := Watched.exists_reached hp
  obtain ⟨t, ht, hstate⟩ := Option.map_eq_some_iff.mp hdead
  obtain ⟨p', hp', hnone⟩ := Option.map_eq_some_iff.mp hgone
  have hok := ok_of_toOption hp'
  have hen : w.processor.Enabled (.tick 0x7000) := by
    show 0x7000 ≠ 0
    decide
  refine ⟨w, p', t, hw, ht, hok, hnone, ?_⟩
  obtain ⟨-, -, ⟨t', ht', -⟩ | ⟨-, -, -, hlate⟩⟩ :=
    ending_task_never_runs hw hen trivial hok ht (.inr hstate)
  · rw [hnone] at ht'
    cases ht'
  · exact hlate

/-- While the idle thread is spared, slot 0 holds the idle task at generation 0 and nothing
else is ever found there, and `schedule` does not fail, wherever an event calls it. -/
theorem idle_task_keeps_slot (h : Reached sym SparesIdle p) :
    (∃ t, p.sched.global.tasks ⟨0, by decide⟩ = ⟨some t, 0⟩ ∧ t.thread = 0) ∧
      (∀ a t, p.sched.find a = some t → a.slotIndex = 0 → a = .idle) ∧
      (∀ sym', ∃ r, p.sched.schedule sym' = .ok r) ∧
      ∀ sym' e s rsp, p.Enabled e → p.scheduleCall e = some (s, rsp) → ∃ r, s.schedule sym' = .ok r := by
  have hlive := lively_of_reached h
  have ho := hlive.orderly
  obtain ⟨t, ht, hthread, -⟩ := ho.idle
  refine ⟨⟨t, ?_, hthread⟩, fun a u hu hslot => ?_, schedule_isOk ho,
    fun sym' e s rsp hen hcall => schedule_isOk (hlive.scheduleCall_orderly hen hcall) sym'⟩
  · obtain ⟨hlt, htask, hgen⟩ := GlobalScheduler.getTask_eq_some.mp ht
    exact congrArg₂ TaskSlot.mk htask hgen
  · exact GlobalScheduler.eq_of_slotIndex_eq hu ht hslot

/-- Two tasks: one blocks, is woken, ends and is removed, and its slot is used again. -/
def sampleEvents : List Event :=
  [.spawn "A" 1 (sampleTask 1), .spawn "B" 1 (sampleTask 2), .initComplete, .yield 0x7000, .block,
    .yield 0x4f00, .keyboard ⟨1, 0⟩, .tick 0x4e00, .yield 0x4d00, .exit 0x4c00, .tick 0x4b00,
    .tick 0x4a00, .spawn "C" 1 (sampleTask 3)]

theorem idle_task_keeps_slot_reused : ∃ p, Reached sampleSymbols SparesIdle p ∧
    p.sched.queue.entries = [⟨1, 1⟩] ∧ p.sched.current = ⟨2, 0⟩ ∧
    ∃ r, p.sched.killCurrentTask.schedule sampleSymbols = .ok r := by
  obtain ⟨p, hp, hqueue, hcurrent, hleaving⟩ := exists_reached sampleSymbols SparesIdle 0 0 0 sampleEvents
    (fun p => p.sched.queue.entries = [⟨1, 1⟩] ∧ p.sched.current = ⟨2, 0⟩ ∧ p.leaving ⟨2, 0⟩ = false)
    (by decide +kernel)
  have hexit : p.Enabled (.exit 0x4900) := by
    show p.leaving p.sched.current = false ∧ p.sched.current ≠ .idle ∧ 0x4900 ≠ 0
    rw [hcurrent]
    exact ⟨hleaving, by decide, by decide⟩
  exact ⟨p, hp, hqueue, hcurrent, (idle_task_keeps_slot hp).2.2.2 sampleSymbols _ _ _ hexit rfl⟩

/-- Two timer interrupts after `exit_thread` on the idle thread its slot is empty and has moved
on to generation 1; `schedule` then panics, and the next task spawned gets the slot. -/
theorem idle_thread_exit_frees_slot : ∃ p, Reached sampleSymbols (fun _ _ => True) p ∧
    (p.sched.global.tasks ⟨0, by decide⟩).task = none ∧
      (p.sched.global.tasks ⟨0, by decide⟩).slotGeneration = 1 ∧
      (p.sched.schedule sampleSymbols).toOption.isNone ∧
      (p.sched.global.insertTask (sampleTask 1)).toOption.map (fun r => r.1.slotIndex) = some 0 :=
  exists_reached sampleSymbols (fun _ _ => True) 0 0 0
    [.initComplete, .exitThread 0, .tick 0x7000, .tick 0x7000]
    (fun p => (p.sched.global.tasks ⟨0, by decide⟩).task = none ∧
      (p.sched.global.tasks ⟨0, by decide⟩).slotGeneration = 1 ∧
      (p.sched.schedule sampleSymbols).toOption.isNone ∧
      (p.sched.global.insertTask (sampleTask 1)).toOption.map (fun r => r.1.slotIndex) = some 0)
    (by decide +kernel)

end Processor

end CrapOs
