import CrapOs.TaskScheduler.LifecycleRuns

/-! # Threads mirror their tasks

A thread shows the process manager what its task is doing, and every function of the
scheduler keeps the two in step by hand. `Registry` is the task table with the thread
records, under any number of processors: one step is what one of them does while it
holds the scheduler lock, or something that concerns neither table nor threads.
-/

namespace CrapOs

open Foundation

def TaskState.shown : TaskState → ThreadState
  | .ready | .running => .active
  | .blocked => .waiting
  | .dying | .dead => .dying

namespace Scheduler

/-- One critical section. The ids are those of any processor's current task or of any other
task; `elsewhere` covers the queues and whatever else belongs to a processor. -/
inductive Locked (s : Scheduler) : Scheduler → Prop
  | elsewhere {s' : Scheduler} : s'.global = s.global → s'.threads = s.threads → Locked s s'
  | wake (a : TaskId) : Locked s (s.wake a).2
  /-- `yield_blocked`, and `sleep` after it has made its entry -/
  | block : Locked s s.markBlocked
  /-- the candidate `schedule` decides for -/
  | select {a : TaskId} : s.InState a .ready → Locked s (s.modifyTask a ({ · with state := .running }))
  /-- the outgoing task of `schedule` -/
  | requeue {a : TaskId} : s.InState a .running → Locked s (s.modifyTask a ({ · with state := .ready }))
  /-- the stack pointer `switch_to` stores -/
  | store (a : TaskId) (rsp : Nat) : Locked s (s.modifyTask a ({ · with savedRsp := rsp }))
  /-- the counter of `on_timer_tick` -/
  | count (a : TaskId) :
      Locked s (s.modifyTask a fun t => { t with ticksExecuted := t.ticksExecuted + 1 })
  | killTask (arg : Nat) : Locked s (s.killTask arg)
  /-- `kill_current_task` and `task_exit` -/
  | killCurrentTask : Locked s s.killCurrentTask
  | reap (a : TaskId) : Locked s (s.reapTask a)
  | remove (a : TaskId) : Locked s (s.removeTask a)

end Scheduler

/-- `fresh` are the threads that `Thread::new` has made and no task was inserted for. -/
structure Registry where
  sched : Scheduler
  nextThreadId : ThreadId
  fresh : ThreadId → Prop

namespace Registry

inductive Step (w : Registry) : Registry → Prop
  | locked {s' : Scheduler} : w.sched.Locked s' → Step w { w with sched := s' }
  /-- `Thread::new` -/
  | newThread (name : String) (process : ProcessId) : Step w
      { sched := { w.sched with
          threads := Function.update w.sched.threads w.nextThreadId (.new w.nextThreadId name process) }
        nextThreadId := w.nextThreadId + 1
        fresh := fun u => w.fresh u ∨ u = w.nextThreadId }
  /-- `insert_task` of a task for a new thread -/
  | insert {task : Task} {taskId : TaskId} {global : GlobalScheduler} : w.fresh task.thread →
      w.sched.global.insertTask task = .ok (taskId, global) → Step w
      { w with
        sched := { w.sched with global := global }
        fresh := fun u => w.fresh u ∧ u ≠ task.thread }
  /-- the write-back of the id at the end of a spawn -/
  | link (thread : ThreadId) (taskId : TaskId) :
      Step w { w with sched := w.sched.modifyThread thread ({ · with taskId := some taskId }) }

def boot (idleStack kernelStack cr3 : Nat) : Registry :=
  ⟨.initIdle idleStack kernelStack cr3, 1, fun _ => False⟩

def Reached (w : Registry) : Prop :=
  Reach (fun w => ∃ idleStack kernelStack cr3, w = boot idleStack kernelStack cr3) Step w

end Registry

/-! ## What a critical section changes -/

namespace Scheduler

variable {s s' : Scheduler} {a b : TaskId} {t : Task}

/-- The changes to tasks and threads there are: within a task, of a task's state together with
its thread's, and the removal of a task. -/
inductive Touch (s s' : Scheduler) : Prop
  | inner (a : TaskId) (f : Task → Task) :
      (∀ b, s'.find b = if b = a then (s.find b).map f else s.find b) → s'.threads = s.threads →
      (∀ t, s.find a = some t → (f t).thread = t.thread ∧ (f t).state.shown = t.state.shown) →
      Touch s s'
  | marked (a : TaskId) (f : Task → Task) {t : Task} : s.find a = some t →
      (∀ b, s'.find b = if b = a then (s.find b).map f else s.find b) → (f t).thread = t.thread →
      (∀ u, s'.threads u =
        if u = t.thread then { s.threads u with state := (f t).state.shown } else s.threads u) →
      Touch s s'
  | removed (a : TaskId) {t : Task} : s.find a = some t →
      (∀ b, s'.find b = if b = a then none else s.find b) →
      (∀ u, s'.threads u =
        if u = t.thread then { s.threads u with taskId := none, state := .dead } else s.threads u) →
      Touch s s'

theorem Touch.of_same (hglobal : s'.global = s.global) (hthreads : s'.threads = s.threads) :
    Touch s s' := by
  refine .inner .idle id (fun b => ?_) hthreads (fun t _ => ⟨rfl, rfl⟩)
  rw [find, find, hglobal]
  split <;> simp

theorem Touch.of_modifyTask {f : Task → Task} (hglobal : s'.global = (s.modifyTask a f).global)
    (hthreads : s'.threads = s.threads)
    (hf : ∀ t, s.find a = some t → (f t).thread = t.thread ∧ (f t).state.shown = t.state.shown) :
    Touch s s' := by
  refine .inner a f (fun b => ?_) hthreads hf
  rw [find, hglobal]
  exact s.find_modifyTask a b f

theorem Touch.of_setStates {x : TaskState} (ht : s.find a = some t)
    (hglobal : s'.global = (s.setStates a t.thread x x.shown).global)
    (hthreads : s'.threads = (s.setStates a t.thread x x.shown).threads) : Touch s s' := by
  refine .marked a ({ · with state := x }) ht (fun b => ?_) rfl (fun u => ?_)
  · rw [find, hglobal]
    exact s.find_setStates a b t.thread x x.shown
  · rw [hthreads]
    exact s.threads_setStates a t.thread u x x.shown

theorem touch_wake (s : Scheduler) (a : TaskId) : Touch s (s.wake a).2 := by
  have hwoken := s.wake_woken a
  generalize (s.wake a).2 = s' at hwoken ⊢
  cases hwoken with
  | idle => exact .of_same rfl rfl
  | queued hfind => exact .of_setStates hfind rfl rfl
  | full hfind => exact .of_setStates hfind rfl rfl

theorem touch_markBlocked (s : Scheduler) : Touch s s.markBlocked := by
  cases hfind : s.find s.current with
  | none =>
    rw [markBlocked, hfind]
    exact .of_same rfl rfl
  | some t =>
    refine .marked s.current ({ · with ticksRemaining := taskQuantumTicks, state := .blocked }) hfind
      s.find_markBlocked rfl (fun u => ?_)
    rw [markBlocked, hfind]
    exact threads_setStates _ s.current t.thread u .blocked .waiting

theorem touch_killTask (s : Scheduler) (arg : Nat) : Touch s (s.killTask arg) := by
  cases hfind : s.find (.expandTaskId arg) with
  | none =>
    obtain ⟨queue, heq, -⟩ := s.queueTaskReaper_eq (.expandTaskId arg)
    rw [killTask, hfind]
    rw [heq]
    exact .of_same rfl rfl
  | some t =>
    obtain ⟨queue, heq, -⟩ := killTask_eq hfind
    rw [heq]
    exact .of_setStates (x := .dying) hfind rfl rfl

theorem touch_killCurrentTask (s : Scheduler) : Touch s s.killCurrentTask := by
  cases hfind : s.find s.current with
  | none =>
    rw [killCurrentTask, hfind]
    exact .of_same rfl rfl
  | some t =>
    obtain ⟨queue, heq, -⟩ :=
      (s.setStates s.current t.thread .dying .dying).queueTaskReaper_eq s.current
    rw [killCurrentTask_eq hfind, heq]
    exact .of_setStates (x := .dying) hfind rfl rfl

theorem touch_reapTask (s : Scheduler) (a : TaskId) : Touch s (s.reapTask a) := by
  rw [reapTask]
  cases hfind : s.find a with
  | none => exact .of_same rfl rfl
  | some t =>
    by_cases hdying : t.state = .dying
    · have hshown : ∀ u, s.find a = some u →
          u.thread = u.thread ∧ TaskState.dead.shown = u.state.shown := by
        intro u hu
        cases hfind.symm.trans hu
        rw [hdying]
        exact ⟨rfl, rfl⟩
      simp only [hdying, if_true]
      cases (s.modifyTask a ({ · with state := .dead })).tombstoneQueue.push a with
      | error => exact .of_modifyTask (f := ({ · with state := .dead })) rfl rfl hshown
      | ok queue => exact .of_modifyTask (f := ({ · with state := .dead })) rfl rfl hshown
    · simp only [hdying, if_false]
      exact .of_same rfl rfl

theorem touch_removeTask (s : Scheduler) (a : TaskId) : Touch s (s.removeTask a) := by
  cases hfind : s.find a with
  | none =>
    rw [removeTask, hfind]
    exact .of_same rfl rfl
  | some t =>
    refine .removed a hfind (s.find_removeTask a) (fun u => ?_)
    rw [removeTask, hfind]
    by_cases hu : u = t.thread
    · subst hu
      simp [modifyThread]
    · simp [modifyThread, hu]

theorem touch_setState {x y : TaskState} (h : s.InState a x) (hshown : y.shown = x.shown) :
    Touch s (s.modifyTask a ({ · with state := y })) := by
  refine .of_modifyTask (f := ({ · with state := y })) rfl rfl (fun t ht => ⟨rfl, ?_⟩)
  obtain ⟨u, hu, hstate⟩ := h
  cases hu.symm.trans ht
  rw [hstate]
  exact hshown

theorem Locked.touch (h : Locked s s') : Touch s s' := by
  cases h with
  | elsewhere hglobal hthreads => exact .of_same hglobal hthreads
  | wake a => exact s.touch_wake a
  | block => exact s.touch_markBlocked
  | select hready => exact touch_setState hready rfl
  | requeue hrunning => exact touch_setState hrunning rfl
  | store a rsp =>
    exact .of_modifyTask (f := ({ · with savedRsp := rsp })) rfl rfl fun _ _ => ⟨rfl, rfl⟩
  | count a =>
    exact .of_modifyTask (f := fun t => { t with ticksExecuted := t.ticksExecuted + 1 }) rfl rfl
      fun _ _ => ⟨rfl, rfl⟩
  | killTask arg => exact s.touch_killTask arg
  | killCurrentTask => exact s.touch_killCurrentTask
  | reap a => exact s.touch_reapTask a
  | remove a => exact s.touch_removeTask a

theorem Touch.find_before (h : Touch s s') {t' : Task} (ht : s'.find b = some t') :
    ∃ t, s.find b = some t ∧ t'.thread = t.thread := by
  cases h with
  | inner a f hfind _ hf =>
    rw [hfind] at ht
    by_cases hb : b = a
    · rw [if_pos hb] at ht
      obtain ⟨t, hbefore, rfl⟩ := Option.map_eq_some_iff.mp ht
      exact ⟨t, hbefore, (hf t (hb ▸ hbefore)).1⟩
    · rw [if_neg hb] at ht
      exact ⟨t', ht, rfl⟩
  | marked a f hta hfind hthread _ =>
    rw [hfind] at ht
    by_cases hb : b = a
    · rw [if_pos hb, hb, hta] at ht
      cases ht
      exact ⟨_, hb ▸ hta, hthread⟩
    · rw [if_neg hb] at ht
      exact ⟨t', ht, rfl⟩
  | removed a hta hfind _ =>
    rw [hfind] at ht
    by_cases hb : b = a
    · rw [if_pos hb] at ht
      cases ht
    · rw [if_neg hb] at ht
      exact ⟨t', ht, rfl⟩

/-- An id a thread has stands for the thread's own task. -/
def Held (s : Scheduler) (u : ThreadId) : Prop :=
  ∀ a, (s.threads u).taskId = some a → ∃ t, s.find a = some t ∧ t.thread = u

theorem Held.touch {u : ThreadId} (h : s.Held u) (htouch : Touch s s') : s'.Held u := by
  intro b hb
  cases htouch with
  | inner a f hfind hthreads hf =>
    rw [hthreads] at hb
    obtain ⟨t, ht, hthread⟩ := h b hb
    rw [hfind]
    by_cases hba : b = a
    · rw [if_pos hba, ht]
      exact ⟨f t, rfl, (hf t (hba ▸ ht)).1.trans hthread⟩
    · rw [if_neg hba]
      exact ⟨t, ht, hthread⟩
  | @marked a f t0 ht0 hfind hthread0 hthreads =>
    have hid : (s'.threads u).taskId = (s.threads u).taskId := by
      rw [hthreads]
      split <;> rfl
    obtain ⟨t, ht, hthread⟩ := h b (hid ▸ hb)
    rw [hfind]
    by_cases hba : b = a
    · subst hba
      cases ht0.symm.trans ht
      rw [if_pos rfl, ht]
      exact ⟨f t0, rfl, hthread0.trans hthread⟩
    · rw [if_neg hba]
      exact ⟨t, ht, hthread⟩
  | @removed a t0 ht0 hfind hthreads =>
    rw [hthreads] at hb
    by_cases hu : u = t0.thread
    · rw [if_pos hu] at hb
      cases hb
    · rw [if_neg hu] at hb
      obtain ⟨t, ht, hthread⟩ := h b hb
      have hba : b ≠ a := by
        rintro rfl
        cases ht0.symm.trans ht
        exact hu hthread.symm
      exact ⟨t, (hfind b).trans ((if_neg hba).trans ht), hthread⟩

theorem Held.insert {u : ThreadId} (h : s.Held u) (hnew : s.find a = none)
    (hfind : ∀ b, s'.find b = if b = a then some t else s.find b)
    (hthread : s'.threads u = s.threads u) : s'.Held u := by
  intro b hb
  rw [hthread] at hb
  obtain ⟨t', ht', hthread'⟩ := h b hb
  have hba : b ≠ a := by
    rintro rfl
    cases hnew.symm.trans ht'
  exact ⟨t', (hfind b).trans ((if_neg hba).trans ht'), hthread'⟩

end Scheduler

/-! ## The mirror -/

namespace Registry

open Scheduler

variable {w w' : Registry} {a b : TaskId} {t : Task} {u : ThreadId}

/-- Threads show the state of their tasks, tasks do not share threads, and the threads that
wait for a task look as a new task does. -/
structure Mirror (w : Registry) : Prop where
  shown : ∀ {a t}, w.sched.find a = some t → (w.sched.threads t.thread).state = t.state.shown
  apart : ∀ {a b t u}, w.sched.find a = some t → w.sched.find b = some u → t.thread = u.thread → a = b
  known : ∀ {a t}, w.sched.find a = some t → t.thread < w.nextThreadId
  fresh_known : ∀ {u}, w.fresh u → u < w.nextThreadId
  fresh_active : ∀ {u}, w.fresh u → (w.sched.threads u).state = .active
  fresh_free : ∀ {u a t}, w.fresh u → w.sched.find a = some t → t.thread ≠ u

theorem Mirror.touch (h : Mirror w) {s' : Scheduler} (htouch : Touch w.sched s') :
    Mirror { w with sched := s' } where
  apart ht hu heq := by
    obtain ⟨t0, ht0, hthread⟩ := htouch.find_before ht
    obtain ⟨u0, hu0, hthread'⟩ := htouch.find_before hu
    exact h.apart ht0 hu0 (hthread ▸ hthread' ▸ heq)
  known ht := by
    obtain ⟨t0, ht0, hthread⟩ := htouch.find_before ht
    exact hthread ▸ h.known ht0
  fresh_known := h.fresh_known
  fresh_free hfresh ht := by
    obtain ⟨t0, ht0, hthread⟩ := htouch.find_before ht
    exact hthread ▸ h.fresh_free hfresh ht0
  fresh_active := by
    intro u hfresh
    have hother : ∀ {a t}, w.sched.find a = some t → u ≠ t.thread := fun ht heq =>
      h.fresh_free hfresh ht heq.symm
    cases htouch with
    | inner a f _ hthreads _ => exact hthreads ▸ h.fresh_active hfresh
    | marked a f ht _ _ hthreads => exact (hthreads u).trans (if_neg (hother ht)) ▸ h.fresh_active hfresh
    | removed a ht _ hthreads => exact (hthreads u).trans (if_neg (hother ht)) ▸ h.fresh_active hfresh
  shown := by
    intro b t' ht'
    -- the thread of a task other than the one that is touched stays as it is
    have hother : ∀ {a t u}, w.sched.find a = some t → w.sched.find b = some u → b ≠ a →
        u.thread ≠ t.thread := fun ht hu hne heq => hne (h.apart hu ht heq)
    cases htouch with
    | inner a f hfind hthreads hf =>
      rw [hfind] at ht'
      rw [show s'.threads = _ from hthreads]
      by_cases hb : b = a
      · rw [if_pos hb] at ht'
        obtain ⟨t, ht, rfl⟩ := Option.map_eq_some_iff.mp ht'
        obtain ⟨hthread, hshown⟩ := hf t (hb ▸ ht)
        rw [hthread, hshown]
        exact h.shown ht
      · rw [if_neg hb] at ht'
        exact h.shown ht'
    | marked a f ht hfind hthread hthreads =>
      rw [hfind] at ht'
      rw [show s'.threads _ = _ from hthreads _]
      by_cases hb : b = a
      · rw [if_pos hb, hb, ht] at ht'
        cases ht'
        rw [if_pos hthread]
      · rw [if_neg hb] at ht'
        rw [if_neg (hother ht ht' hb)]
        exact h.shown ht'
    | removed a ht hfind hthreads =>
      rw [hfind] at ht'
      by_cases hb : b = a
      · rw [if_pos hb] at ht'
        cases ht'
      · rw [if_neg hb] at ht'
        rw [show s'.threads _ = _ from hthreads _, if_neg (hother ht ht' hb)]
        exact h.shown ht'

theorem Mirror.newThread (h : Mirror w) (name : String) (process : ProcessId) : Mirror
    { sched := { w.sched with
        threads := Function.update w.sched.threads w.nextThreadId (.new w.nextThreadId name process) }
      nextThreadId := w.nextThreadId + 1
      fresh := fun u => w.fresh u ∨ u = w.nextThreadId } where
  shown := by
    intro a t ht
    have hne : t.thread ≠ w.nextThreadId := Nat.ne_of_lt (h.known ht)
    simp only [Function.update_of_ne hne]
    exact h.shown ht
  apart := h.apart
  known ht := Nat.lt_succ_of_lt (h.known ht)
  fresh_known := by
    intro u hfresh
    rcases hfresh with hfresh | rfl
    · exact Nat.lt_succ_of_lt (h.fresh_known hfresh)
    · exact Nat.lt_succ_self _
  fresh_active := by
    intro u hfresh
    by_cases hu : u = w.nextThreadId
    · subst hu
      simp [Thread.new]
    · simp only [Function.update_of_ne hu]
      exact h.fresh_active (hfresh.resolve_right hu)
  fresh_free := by
    intro u a t hfresh ht
    rcases hfresh with hfresh | rfl
    · exact h.fresh_free hfresh ht
    · exact Nat.ne_of_lt (h.known ht)

theorem Mirror.insert (h : Mirror w) {task : Task} {taskId : TaskId} {global : GlobalScheduler}
    (hfresh : w.fresh task.thread) (hinsert : w.sched.global.insertTask task = .ok (taskId, global)) :
    Mirror { w with
      sched := { w.sched with global := global }
      fresh := fun u => w.fresh u ∧ u ≠ task.thread } := by
  obtain ⟨-, hfind⟩ := GlobalScheduler.insertTask_ok hinsert
  have hcases : ∀ {b t}, global.getTask b = some t → b = taskId ∧ t.thread = task.thread ∧ t.state = .ready ∨
      w.sched.find b = some t := by
    intro b t ht
    rw [hfind] at ht
    by_cases hb : b = taskId
    · rw [if_pos hb] at ht
      cases ht
      exact .inl ⟨hb, rfl, rfl⟩
    · rw [if_neg hb] at ht
      exact .inr ht
  refine ⟨?_, ?_, ?_, fun hu => h.fresh_known hu.1, fun hu => h.fresh_active hu.1, ?_⟩
  · intro b t ht
    rcases hcases ht with ⟨-, hthread, hstate⟩ | hold
    · rw [hthread, hstate]
      exact h.fresh_active hfresh
    · exact h.shown hold
  · intro b c t u ht hu heq
    rcases hcases ht with ⟨rfl, hthread, -⟩ | hold
    · rcases hcases hu with ⟨rfl, -⟩ | hold'
      · rfl
      · exact absurd (heq.symm.trans hthread) (h.fresh_free hfresh hold')
    · rcases hcases hu with ⟨rfl, hthread, -⟩ | hold'
      · exact absurd (heq.trans hthread) (h.fresh_free hfresh hold)
      · exact h.apart hold hold' heq
  · intro b t ht
    rcases hcases ht with ⟨-, hthread, -⟩ | hold
    · have hlt := h.fresh_known hfresh
      rwa [← hthread] at hlt
    · exact h.known hold
  · intro u b t hu ht
    rcases hcases ht with ⟨-, hthread, -⟩ | hold
    · exact fun heq => hu.2 (heq.symm.trans hthread)
    · exact h.fresh_free hu.1 hold

theorem Mirror.link (h : Mirror w) (thread : ThreadId) (taskId : TaskId) :
    Mirror { w with sched := w.sched.modifyThread thread ({ · with taskId := some taskId }) } := by
  have hstate : ∀ u, ((w.sched.modifyThread thread ({ · with taskId := some taskId })).threads u).state =
      (w.sched.threads u).state := by
    intro u
    by_cases hu : u = thread
    · subst hu
      simp [modifyThread]
    · simp [modifyThread, hu]
  exact ⟨fun ht => (hstate _).trans (h.shown ht), h.apart, h.known, h.fresh_known,
    fun hu => (hstate _).trans (h.fresh_active hu), h.fresh_free⟩

theorem Mirror.step (h : Mirror w) (hstep : Step w w') : Mirror w' := by
  cases hstep with
  | locked hlocked => exact h.touch hlocked.touch
  | newThread name process => exact h.newThread name process
  | insert hfresh hinsert => exact h.insert hfresh hinsert
  | link thread taskId => exact h.link thread taskId

theorem mirror_boot (idleStack kernelStack cr3 : Nat) : Mirror (boot idleStack kernelStack cr3) := by
  have hfind : ∀ {a t}, (boot idleStack kernelStack cr3).sched.find a = some t →
      a = .idle ∧ t = .newIdle 0 idleStack := Processor.boot_find
  refine ⟨?_, ?_, ?_, False.elim, False.elim, False.elim⟩
  · intro a t ht
    obtain ⟨-, rfl⟩ := hfind ht
    simp [boot, initIdle, Task.newIdle, Thread.newIdle, TaskState.shown]
  · intro a b t u ht hu _
    rw [(hfind ht).1, (hfind hu).1]
  · intro a t ht
    obtain ⟨-, rfl⟩ := hfind ht
    exact Nat.zero_lt_one

theorem Reached.mirror (h : w.Reached) : Mirror w := by
  refine h.invariant Mirror ?_ (fun _ _ hw hstep => hw.step hstep)
  rintro _ ⟨idleStack, kernelStack, cr3, rfl⟩
  exact mirror_boot idleStack kernelStack cr3

/-- In every state in which the scheduler lock is free, a task is `Ready` or `Running` if and
only if its thread is `Active`, `Blocked` if and only if it is `Waiting`, and `Dying` or `Dead`
if and only if it is `Dying`. -/
theorem tasks_and_threads_agree (h : w.Reached) (ht : w.sched.find a = some t) :
    (t.state = .ready ∨ t.state = .running ↔ (w.sched.threads t.thread).state = .active) ∧
      (t.state = .blocked ↔ (w.sched.threads t.thread).state = .waiting) ∧
      (t.state = .dying ∨ t.state = .dead ↔ (w.sched.threads t.thread).state = .dying) := by
  rw [h.mirror.shown ht]
  cases t.state <;> simp [TaskState.shown]

end Registry

namespace Scheduler

open Relation

variable {s s' : Scheduler} {sym : Symbols}

abbrev Sections : Scheduler → Scheduler → Prop := ReflTransGen Locked

theorem Sections.elsewhere {s1 : Scheduler} (h : Sections s s1) (hglobal : s'.global = s1.global)
    (hthreads : s'.threads = s1.threads) : Sections s s' :=
  h.tail (.elsewhere hglobal hthreads)

theorem Held.sections {u : ThreadId} (h : s.Held u) (hsections : Sections s s') : s'.Held u := by
  induction hsections with
  | refl => exact h
  | tail _ hlocked ih => exact ih.touch hlocked.touch

theorem sections_onTimerTick (s : Scheduler) : Sections s s.onTimerTick.2 := by
  refine onTimerTick_inv (P := Sections s) ?_ ?_ ?_ ?_ .refl
  · exact fun _ a h => h.tail (.wake a)
  · exact fun _ _ h => h.elsewhere rfl rfl
  · exact fun s' h => h.tail (.count s'.current)
  · exact fun _ _ h => h.elsewhere rfl rfl

theorem sections_timerWork (s : Scheduler) : Sections s s.timerWork.2 := by
  have htick := s.sections_onTimerTick
  have hdrain : Sections s s.onTimerTick.2.drainSystemTasks :=
    drainLoop_inv (P := Sections s) (fun s' arg queue h _ =>
      .tail (b := { s' with systemTasks := queue }) (h.elsewhere rfl rfl) (.killTask arg)) _ htick
  have hbury : Sections s s.onTimerTick.2.drainSystemTasks.tombstoneCleanup :=
    tombstoneLoop_inv (P := Sections s) (fun s' a queue h _ =>
      .tail (b := { s' with tombstoneQueue := queue }) (h.elsewhere rfl rfl) (.remove a)) _ hdrain
  have hreap : Sections s s.onTimerTick.2.drainSystemTasks.tombstoneCleanup.reapDyingTasks :=
    reapLoop_inv (P := Sections s) (fun s' a queue h _ =>
      .tail (b := { s' with reaperQueue := queue }) (h.elsewhere rfl rfl) (.reap a)) _ hbury
  exact hreap.elsewhere rfl rfl

theorem sections_schedule {args : Option SwitchArgs} (h : s.schedule sym = .ok (args, s')) :
    Sections s s' := by
  obtain ⟨nextId, s1, s2, next, hchosen, hrequeued, -, rfl, -⟩ := schedule_ok h
  have hselect : Sections s s1 := by
    cases hchosen with
    | @ready pre rest a queue _ _ hready _ =>
      have hqueue : Sections s { s with queue := queue } := .single (.elsewhere rfl rfl)
      exact hqueue.tail (.select hready)
    | idle => exact .single (.elsewhere rfl rfl)
  have hrequeue : Sections s s2 := by
    cases hrequeued with
    | idle => exact hselect
    | queued hrunning => exact Sections.elsewhere (hselect.tail (.requeue hrunning)) rfl rfl
    | full hrunning => exact hselect.tail (.requeue hrunning)
    | unqueued hrunning => exact hselect.tail (.requeue hrunning)
  exact hrequeue.elsewhere rfl rfl

theorem sections_reschedule {rsp : Nat} (h : s.reschedule sym rsp = .ok s') : Sections s s' := by
  obtain ⟨args, s1, hsched, hcase⟩ := reschedule_ok h
  have hsections := sections_schedule hsched
  rcases hcase with ⟨-, rfl⟩ | ⟨x, -, rfl⟩
  · exact hsections
  · exact Sections.elsewhere (hsections.tail (.store s.current rsp)) rfl rfl

end Scheduler

namespace Processor

open Scheduler

variable {p p' : Processor} {sym : Symbols} {e : Event} {cond : Processor → Event → Prop}

/-- Every event but a spawn is a number of critical sections. -/
theorem exec_sections (hok : p.exec sym e = .ok p') :
    (∃ name process task, e = .spawn name process task) ∨
      Sections p.sched p'.sched ∧ p'.nextThreadId = p.nextThreadId := by
  cases exec_done hok with
  | spawned _ => exact .inl ⟨_, _, _, rfl⟩
  | @blocked _ q _ =>
    have hentry : Sections p.sched { p.sched with sleepQueue := q } := .single (.elsewhere rfl rfl)
    exact .inr ⟨hentry.tail .block, rfl⟩
  | asked thread =>
    obtain ⟨queue, heq⟩ := p.sched.exitThread_frame thread
    exact .inr ⟨.single (.elsewhere (by rw [heq]) (by rw [heq])), rfl⟩
  | woken taskId => exact .inr ⟨.single (.wake taskId), rfl⟩
  | initialised => exact .inr ⟨.single (.elsewhere rfl rfl), rfl⟩
  | ticked _ => exact .inr ⟨p.sched.sections_timerWork, rfl⟩
  | scheduled hcall hresched =>
    refine .inr ⟨.trans ?_ (sections_reschedule hresched), rfl⟩
    cases scheduleCall_called hcall with
    | yield => exact .refl
    | exit => exact .single .killCurrentTask
    | tick => exact p.sched.sections_timerWork

theorem registry_sections {w : Registry} (h : w.Reached) {s : Scheduler}
    (hsections : Sections w.sched s) : Registry.Reached { w with sched := s } := by
  induction hsections with
  | refl => exact h
  | tail _ hlocked ih => exact .step ih (.locked hlocked)

theorem registry_queue {w : Registry} (h : w.Reached) (queue : PerCpuQueue) :
    Registry.Reached { w with sched := { w.sched with queue := queue } } :=
  .step h (.locked (.elsewhere rfl rfl))

theorem registry_spawn {w : Registry} (h : w.Reached) (hsched : w.sched = p.sched)
    (hnext : w.nextThreadId = p.nextThreadId) {name : String} {process : ProcessId} {task : Task}
    (hthread : task.thread = p.nextThreadId) (hok : p.spawn name process task = .ok p') :
    ∃ w' : Registry, w'.Reached ∧ w'.sched = p'.sched ∧ w'.nextThreadId = p'.nextThreadId := by
  obtain ⟨⟨inserted, s⟩, hinsert, hret⟩ := bind_eq_ok.mp hok
  have hmade := Reach.step h (.newThread name process)
  rw [hsched, hnext] at hmade
  cases inserted with
  | error e =>
    cases Scheduler.insertAndQueueTask_error hinsert
    cases hret
    exact ⟨_, hmade, rfl, rfl⟩
  | ok taskId =>
    obtain ⟨global, queue, hglobal, -, rfl⟩ := Scheduler.insertAndQueueTask_ok hinsert
    cases hret
    have hinserted := Reach.step hmade (.insert (.inr hthread) hglobal)
    have hqueued := registry_queue hinserted queue
    exact ⟨_, .step hqueued (.link p.nextThreadId taskId), rfl, rfl⟩

theorem Reached.registry (h : Reached sym cond p) :
    ∃ w : Registry, w.Reached ∧ w.sched = p.sched ∧ w.nextThreadId = p.nextThreadId := by
  refine h.invariant (fun p => ∃ w : Registry, w.Reached ∧ w.sched = p.sched ∧
    w.nextThreadId = p.nextThreadId) ?_ ?_
  · rintro _ ⟨idleStack, kernelStack, cr3, rfl⟩
    exact ⟨_, .start ⟨idleStack, kernelStack, cr3, rfl⟩, rfl, rfl⟩
  · rintro p p' ⟨w, hw, hsched, hnext⟩ ⟨e, hen, -, hok⟩
    rcases exec_sections hok with ⟨name, process, task, rfl⟩ | ⟨hsections, hnext'⟩
    · exact registry_spawn hw hsched hnext hen.2.1 hok
    · rw [← hsched] at hsections
      exact ⟨_, registry_sections hw hsections, rfl, hnext.trans hnext'.symm⟩

end Processor

/-- A task that has marked itself blocked. -/
theorem Registry.tasks_and_threads_agree_blocked : ∃ (w : Registry) (t : Task), w.Reached ∧
    w.sched.find ⟨1, 0⟩ = some t ∧ t.state = .blocked ∧
      (w.sched.threads t.thread).state = .waiting := by
  obtain ⟨p, hp, t, ht, hblocked⟩ := Processor.exists_reached Processor.sampleSymbols (fun _ _ => True)
    0 0 0 [.spawn "A" 1 (Processor.sampleTask 1), .initComplete, .yield 0x7000, .block]
    (fun p => p.sched.InState ⟨1, 0⟩ .blocked) (by decide +kernel)
  obtain ⟨w, hw, hsched, -⟩ := hp.registry
  rw [← hsched] at ht
  exact ⟨w, t, hw, ht, hblocked, (tasks_and_threads_agree hw ht).2.1.mp hblocked⟩

end CrapOs
