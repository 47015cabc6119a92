import CrapOs.TaskScheduler.Effects

/-! # One processor running tasks

The scheduler as a state machine. Between two events the current task runs code
of its own, with interrupts on; an event is a call it makes into the scheduler or
an interrupt. `yield_blocked` and `sleep` are two events each, because interrupts
are on again between the moment the task is marked and its call of `schedule`.
-/

namespace CrapOs

open Foundation

/-- `leaving` says which tasks have marked themselves blocked and have not called `schedule`
since; the flag stays with a task that is interrupted there. -/
structure Processor where
  sched : Scheduler
  nextThreadId : ThreadId
  leaving : TaskId → Bool

/-- `rsp` is the stack pointer with which the current task would be left behind. -/
inductive Event where
  /-- `spawn_kernel_thread` or `spawn_user_thread` -/
  | spawn (name : String) (process : ProcessId) (task : Task)
  /-- `yield_blocked` up to its call of `schedule` -/
  | block
  /-- `sleep` up to its call of `schedule` -/
  | sleep (seconds : Nat)
  /-- the call of `schedule`, on its own for `sleep(0)` -/
  | yield (rsp : Nat)
  /-- `task_exit`, or an exception that kills the task -/
  | exit (rsp : Nat)
  /-- `exit_thread` -/
  | exitThread (thread : ThreadId)
  /-- the part of the keyboard interrupt that wakes a task -/
  | keyboard (taskId : TaskId)
  | tick (rsp : Nat)
  /-- `SYS_FLAG_KERNEL_INIT_COMPLETE` is set -/
  | initComplete

structure Task.IsNew (task : Task) : Prop where
  savedRsp_ne_zero : task.savedRsp ≠ 0
  cr3_eq_zero : task.cr3 = 0 ↔ task.isUserTask = false

namespace Processor

def boot (idleStack kernelStack cr3 : Nat) : Processor :=
  ⟨.initIdle idleStack kernelStack cr3, 1, fun _ => false⟩

/-- A new thread with its task, no interrupt coming between the steps; if the task finds no place
the thread is dropped. -/
def spawn (p : Processor) (name : String) (process : ProcessId) (task : Task) :
    Except Halt Processor := do
  let thread := Thread.new p.nextThreadId name process
  let s := { p.sched with threads := Function.update p.sched.threads p.nextThreadId thread }
  let (inserted, s) ← s.insertAndQueueTask task
  match inserted with
  | .error _ => pure { p with sched := s, nextThreadId := p.nextThreadId + 1 }
  | .ok taskId =>
    pure { sched := s.modifyThread p.nextThreadId ({ · with taskId := some taskId })
           nextThreadId := p.nextThreadId + 1
           leaving := Function.update p.leaving taskId false }

def exit (sym : Symbols) (s : Scheduler) (rsp : Nat) : Except Halt Scheduler := do
  let (args, s') ← s.killCurrentTask.schedule sym
  match args with
  | none => .error (.panic "schedule() returned to a dying/dead task")
  | some args => pure (s'.switched s.current rsp args)

def exec (sym : Symbols) (p : Processor) : Event → Except Halt Processor
  | .spawn name process task => p.spawn name process task
  | .block => pure { p with
      sched := p.sched.markBlocked
      leaving := Function.update p.leaving p.sched.current true }
  | .sleep seconds => pure { p with
      sched := p.sched.markSleeping seconds
      leaving := Function.update p.leaving p.sched.current true }
  | .yield rsp => do
    let s ← p.sched.reschedule sym rsp
    pure { p with sched := s, leaving := Function.update p.leaving p.sched.current false }
  | .exit rsp => do
    let s ← exit sym p.sched rsp
    pure { p with sched := s }
  | .exitThread thread => pure { p with sched := p.sched.exitThread thread }
  | .keyboard taskId => pure { p with sched := (p.sched.wake taskId).2 }
  | .tick rsp => do
    let s ← p.sched.handlerApicTimer sym rsp
    pure { p with sched := s }
  | .initComplete => pure { p with sched := { p.sched with kernelInitComplete := true } }

/-- Interrupts can come at any time. What the current task does depends on whether it is on
its way to `schedule`; the idle task, which halts in a loop, neither blocks nor ends. -/
def Enabled (p : Processor) : Event → Prop
  | .spawn _ _ task => p.leaving p.sched.current = false ∧ task.thread = p.nextThreadId ∧ task.IsNew
  | .block => p.leaving p.sched.current = false ∧ p.sched.current ≠ .idle
  | .sleep seconds =>
    p.leaving p.sched.current = false ∧ p.sched.current ≠ .idle ∧ seconds ≠ 0 ∧ seconds < 2 ^ 32
  | .yield rsp => rsp ≠ 0
  | .exit rsp => p.leaving p.sched.current = false ∧ p.sched.current ≠ .idle ∧ rsp ≠ 0
  | .exitThread _ => p.leaving p.sched.current = false
  | .keyboard _ => True
  | .tick rsp => rsp ≠ 0
  | .initComplete => p.sched.current = .idle

def Step (sym : Symbols) (cond : Processor → Event → Prop) (p p' : Processor) : Prop :=
  ∃ e, p.Enabled e ∧ cond p e ∧ p.exec sym e = .ok p'

def Reached (sym : Symbols) (cond : Processor → Event → Prop) (p : Processor) : Prop :=
  Reach (fun p => ∃ idleStack kernelStack cr3, p = boot idleStack kernelStack cr3) (Step sym cond) p

theorem Reached.mono {sym : Symbols} {cond cond' : Processor → Event → Prop} {p : Processor}
    (h : Reached sym cond p) (hcond : ∀ p e, cond p e → cond' p e) : Reached sym cond' p := by
  refine h.invariant (Reached sym cond') (fun p hp => .start hp) ?_
  rintro p p' hp ⟨e, hen, he, hok⟩
  exact hp.step ⟨e, hen, hcond p e he, hok⟩

theorem ok_of_toOption {α : Type} {x : Except Halt α} {a : α} (h : x.toOption = some a) :
    x = .ok a := by
  cases x with
  | error => cases h
  | ok b =>
    cases h
    rfl

instance (task : Task) : Decidable task.IsNew :=
  decidable_of_iff (task.savedRsp ≠ 0 ∧ (task.cr3 = 0 ↔ task.isUserTask = false))
    ⟨fun h => ⟨h.1, h.2⟩, fun h => ⟨h.1, h.2⟩⟩

instance (p : Processor) (e : Event) : Decidable (p.Enabled e) := by
  cases e <;> unfold Enabled <;> infer_instance

def runs (sym : Symbols) (cond : Processor → Event → Prop) [∀ p e, Decidable (cond p e)] :
    Processor → List Event → Option Processor
  | p, [] => some p
  | p, e :: rest =>
    if p.Enabled e ∧ cond p e then
      match p.exec sym e with
      | .ok p' => runs sym cond p' rest
      | .error _ => none
    else none

theorem runs_cons {sym : Symbols} {cond : Processor → Event → Prop} [∀ p e, Decidable (cond p e)]
    {p p' : Processor} {e : Event} {rest : List Event} :
    runs sym cond p (e :: rest) = some p' ↔
      ∃ p1, p.Enabled e ∧ cond p e ∧ p.exec sym e = .ok p1 ∧ runs sym cond p1 rest = some p' := by
  rw [Processor.runs]
  constructor
  · intro h
    split at h
    · rename_i hpossible
      cases hexec : p.exec sym e with
      | error =>
        rw [hexec] at h
        cases h
      | ok p1 =>
        rw [hexec] at h
        exact ⟨p1, hpossible.1, hpossible.2, rfl, h⟩
    · cases h
  · rintro ⟨p1, hen, hcond, hexec, h⟩
    rw [if_pos ⟨hen, hcond⟩, hexec]
    exact h

theorem Reached.runs {sym : Symbols} {cond : Processor → Event → Prop} [∀ p e, Decidable (cond p e)]
    {p p' : Processor} {es : List Event} (h : Reached sym cond p) (hrun : runs sym cond p es = some p') :
    Reached sym cond p' := by
  induction es generalizing p with
  | nil =>
    cases hrun
    exact h
  | cons e rest ih =>
    obtain ⟨p1, hen, hcond, hexec, hrest⟩ := runs_cons.mp hrun
    exact ih (.step h ⟨e, hen, hcond, hexec⟩) hrest

theorem exists_reached (sym : Symbols) (cond : Processor → Event → Prop)
    [∀ p e, Decidable (cond p e)] (idleStack kernelStack cr3 : Nat) (es : List Event)
    (q : Processor → Prop) [DecidablePred q]
    (h : ((boot idleStack kernelStack cr3).runs sym cond es).any (fun p => decide (q p)) = true) :
    ∃ p, Reached sym cond p ∧ q p := by
  cases hrun : (boot idleStack kernelStack cr3).runs sym cond es with
  | none =>
    rw [hrun] at h
    cases h
  | some p =>
    rw [hrun] at h
    exact ⟨p, Reached.runs (.start ⟨idleStack, kernelStack, cr3, rfl⟩) hrun, of_decide_eq_true h⟩

end Processor

namespace Scheduler

variable {s s' : Scheduler} {sym : Symbols} {rsp : Nat}

theorem schedule_symbols (s : Scheduler) : (∃ e, ∀ sym, s.schedule sym = .error e) ∨
    (∃ s', ∀ sym, s.schedule sym = .ok (none, s')) ∨
    ∃ newRsp newCr3 s', ∀ sym : Symbols, s.schedule sym =
      .ok (some ⟨sym.savedRsp s.current.slotIndex, newRsp, newCr3⟩, s') := by
  obtain ⟨nextId, s1, s2, -, -, heq⟩ := s.schedule_eq
  cases hnext : s2.find nextId with
  | none =>
    simp only [hnext] at heq
    exact .inl ⟨_, heq⟩
  | some next =>
    simp only [hnext, switchArgs] at heq
    by_cases hgive : s2.find s.current = none ∨ next.savedRsp = 0
    · simp only [if_pos hgive] at heq
      exact .inr (.inl ⟨_, heq⟩)
    · simp only [if_neg hgive] at heq
      exact .inr (.inr ⟨_, _, _, heq⟩)

theorem reschedule_symbols (sym sym' : Symbols) (s : Scheduler) (rsp : Nat) :
    s.reschedule sym rsp = s.reschedule sym' rsp := by
  unfold reschedule
  rcases s.schedule_symbols with ⟨e, h⟩ | ⟨s', h⟩ | ⟨_, _, s', h⟩
  · rw [h sym, h sym']
  · rw [h sym, h sym']
  · rw [h sym, h sym']
    rfl

theorem reschedule_ok (h : s.reschedule sym rsp = .ok s') : ∃ args s1,
    s.schedule sym = .ok (args, s1) ∧
      (args = none ∧ s' = s1 ∨ ∃ x, args = some x ∧ s' = s1.switched s.current rsp x) := by
  obtain ⟨⟨args, s1⟩, hsched, hret⟩ := bind_eq_ok.mp h
  refine ⟨args, s1, hsched, ?_⟩
  cases args with
  | none =>
    cases hret
    exact .inl ⟨rfl, rfl⟩
  | some x =>
    cases hret
    exact .inr ⟨x, rfl, rfl⟩

theorem reschedule_frame (h : s.reschedule sym rsp = .ok s') :
    ∃ global queue current kernelStack ticksRemaining cr3, s' = { s with
      global := global, queue := queue, current := current, kernelStack := kernelStack
      ticksRemaining := ticksRemaining, cr3 := cr3 } := by
  obtain ⟨args, s1, hsched, hcase⟩ := reschedule_ok h
  obtain ⟨global, queue, current, kernelStack, ticks, rfl⟩ := schedule_frame hsched
  rcases hcase with ⟨-, rfl⟩ | ⟨x, -, rfl⟩
  · exact ⟨_, _, _, _, _, _, rfl⟩
  · exact ⟨_, _, _, _, _, _, rfl⟩

theorem AllowsSwitch.reschedule {R : Task → Task → Prop} {D : TaskId → Prop} (hR : AllowsSwitch R)
    (hstore : ∀ t n, R t { t with savedRsp := n }) (h : s.reschedule sym rsp = .ok s') :
    Follows R D s s' := by
  obtain ⟨args, s1, hsched, hcase⟩ := reschedule_ok h
  have hfollow : Follows R D s s1 := hR.schedule hsched
  rcases hcase with ⟨-, rfl⟩ | ⟨x, -, rfl⟩
  · exact hfollow
  · exact hfollow.trans hR.trans (follows_switched hR.refl hstore s1 s.current rsp x)

theorem handlerApicTimer_ok (h : s.handlerApicTimer sym rsp = .ok s') :
    s.timerWork.1 = true ∧ s.timerWork.2.reschedule sym rsp = .ok s' ∨
      s.timerWork.1 = false ∧ s' = s.timerWork.2 := by
  rw [handlerApicTimer] at h
  cases hshould : s.timerWork.1 with
  | true =>
    simp only [hshould, if_true] at h
    exact .inl ⟨rfl, h⟩
  | false =>
    simp only [hshould] at h
    cases h
    exact .inr ⟨rfl, rfl⟩

end Scheduler

namespace Processor

variable {sym : Symbols} {p p' : Processor} {task : Task}

theorem exec_symbols (sym sym' : Symbols) (p : Processor) (e : Event) :
    p.exec sym e = p.exec sym' e := by
  cases e with
  | yield rsp => rw [exec, exec, Scheduler.reschedule_symbols sym sym']
  | exit rsp =>
    rw [exec, exec, exit, exit]
    rcases p.sched.killCurrentTask.schedule_symbols with ⟨e, h⟩ | ⟨s', h⟩ | ⟨_, _, s', h⟩
    · rw [h sym, h sym']
    · rw [h sym, h sym']
    · rw [h sym, h sym']
      rfl
  | tick rsp =>
    rw [exec, exec, Scheduler.handlerApicTimer, Scheduler.handlerApicTimer]
    simp only [Scheduler.reschedule_symbols sym sym']
  | spawn | block | sleep | exitThread | keyboard | initComplete => rfl

theorem Reached.symbols {cond : Processor → Event → Prop} (h : Reached sym cond p)
    (sym' : Symbols) : Reached sym' cond p := by
  refine h.invariant (Reached sym' cond) (fun _ => .start) ?_
  rintro p p' hp ⟨e, hen, he, hok⟩
  exact .step hp ⟨e, hen, he, (exec_symbols sym' sym p e).trans hok⟩

theorem spawn_eq {taskId : TaskId} {global : GlobalScheduler} {queue : PerCpuQueue}
    (name : String) (process : ProcessId)
    (hinsert : p.sched.global.insertTask task = .ok (taskId, global))
    (hpush : p.sched.queue.push taskId = .ok queue) :
    p.spawn name process task = .ok
      { sched := { p.sched with
          global := global
          queue := queue
          threads := Function.update p.sched.threads p.nextThreadId
            { Thread.new p.nextThreadId name process with taskId := some taskId } }
        nextThreadId := p.nextThreadId + 1
        leaving := Function.update p.leaving taskId false } := by
  rw [spawn, Scheduler.insertAndQueueTask]
  rw [hinsert]
  dsimp only
  rw [hpush]
  simp only [bind, Except.bind, pure, Except.pure, Scheduler.modifyThread, Function.update_self,
    Function.update_idem]

/-- A new task either finds no place, or gets an id that stood for nothing and the last place
in the ready queue. -/
inductive Spawned (p : Processor) (task : Task) : Processor → Prop
  | refused {threads : ThreadId → Thread} :
      (∀ u, u ≠ p.nextThreadId → threads u = p.sched.threads u) →
      (threads p.nextThreadId).taskId = none →
      Spawned p task { p with
        sched := { p.sched with threads := threads }
        nextThreadId := p.nextThreadId + 1 }
  | placed {taskId : TaskId} {global : GlobalScheduler} {threads : ThreadId → Thread}
      {queue : PerCpuQueue} :
      p.sched.find taskId = none →
      (∀ b, global.getTask b = if b = taskId then some { task with id := taskId, state := .ready }
        else p.sched.find b) →
      (∀ u, u ≠ p.nextThreadId → threads u = p.sched.threads u) →
      (threads p.nextThreadId).taskId = some taskId →
      queue.entries = p.sched.queue.entries ++ [taskId] →
      Spawned p task
        { sched := { p.sched with global := global, threads := threads, queue := queue }
          nextThreadId := p.nextThreadId + 1
          leaving := Function.update p.leaving taskId false }

theorem spawn_spawned {name : String} {process : ProcessId}
    (h : p.spawn name process task = .ok p') : Spawned p task p' := by
  obtain ⟨⟨inserted, s⟩, hinsert, hret⟩ := bind_eq_ok.mp h
  cases inserted with
  | error e =>
    cases Scheduler.insertAndQueueTask_error hinsert
    cases hret
    refine .refused (fun u hu => ?_) ?_
    · exact Function.update_of_ne hu _ _
    · simp [Thread.new]
  | ok taskId =>
    obtain ⟨global, queue, hglobal, hpush, rfl⟩ := Scheduler.insertAndQueueTask_ok hinsert
    cases hret
    obtain ⟨hnew, hfind⟩ := GlobalScheduler.insertTask_ok hglobal
    refine .placed hnew hfind (fun u hu => ?_) ?_ (RingBuffer.pushOr_ok hpush)
    · simp [hu]
    · simp

theorem exit_ok {s s' : Scheduler} {rsp : Nat} (h : Processor.exit sym s rsp = .ok s') : ∃ args s1,
    s.killCurrentTask.schedule sym = .ok (some args, s1) ∧ s' = s1.switched s.current rsp args := by
  obtain ⟨⟨args, s1⟩, hsched, hret⟩ := bind_eq_ok.mp h
  cases args with
  | none => cases hret
  | some args =>
    cases hret
    exact ⟨args, s1, hsched, rfl⟩

theorem exit_reschedule {s s' : Scheduler} {rsp : Nat} (hok : Processor.exit sym s rsp = .ok s') :
    s.killCurrentTask.reschedule sym rsp = .ok s' := by
  obtain ⟨args, s1, hsched, rfl⟩ := exit_ok hok
  have hcurrent : s.killCurrentTask.current = s.current := by
    obtain ⟨global, threads, queue, heq⟩ := s.killCurrentTask_frame
    rw [heq]
  rw [Scheduler.reschedule, hsched, hcurrent]
  rfl

/-- The state in which an event calls `schedule`, and the stack pointer of the caller. -/
def scheduleCall (p : Processor) : Event → Option (Scheduler × Nat)
  | .yield rsp => some (p.sched, rsp)
  | .exit rsp => some (p.sched.killCurrentTask, rsp)
  | .tick rsp => if p.sched.timerWork.1 then some (p.sched.timerWork.2, rsp) else none
  | _ => none

inductive Called (p : Processor) : Event → Scheduler → Nat → Prop
  | yield (rsp : Nat) : Called p (.yield rsp) p.sched rsp
  | exit (rsp : Nat) : Called p (.exit rsp) p.sched.killCurrentTask rsp
  | tick (rsp : Nat) : Called p (.tick rsp) p.sched.timerWork.2 rsp

/-- An event calls `schedule`, or does one of the other things to the scheduler. -/
inductive Done (sym : Symbols) (p : Processor) : Event → Processor → Prop
  | spawned {name : String} {process : ProcessId} {task : Task} {p' : Processor} :
      Spawned p task p' → Done sym p (.spawn name process task) p'
  | blocked {e : Event} {q : SleepQueue} :
      (e = .block ∧ q = p.sched.sleepQueue ∨ ∃ seconds, e = .sleep seconds ∧
        q = p.sched.sleepQueue.insert p.sched.current (seconds * 1000 % 2 ^ 32)) →
      Done sym p e { p with
        sched := { p.sched with sleepQueue := q }.markBlocked
        leaving := Function.update p.leaving p.sched.current true }
  | asked (thread : ThreadId) :
      Done sym p (.exitThread thread) { p with sched := p.sched.exitThread thread }
  | woken (taskId : TaskId) : Done sym p (.keyboard taskId) { p with sched := (p.sched.wake taskId).2 }
  | initialised : Done sym p .initComplete { p with sched := { p.sched with kernelInitComplete := true } }
  | ticked {rsp : Nat} : p.sched.timerWork.1 = false →
      Done sym p (.tick rsp) { p with sched := p.sched.timerWork.2 }
  | scheduled {e : Event} {s s' : Scheduler} {rsp : Nat} {leaving : TaskId → Bool} :
      p.scheduleCall e = some (s, rsp) → s.reschedule sym rsp = .ok s' →
      Done sym p e { p with sched := s', leaving := leaving }

theorem scheduleCall_called {e : Event} {s : Scheduler} {rsp : Nat}
    (h : p.scheduleCall e = some (s, rsp)) : Called p e s rsp := by
  cases e with
  | yield =>
    cases h
    exact .yield rsp
  | exit =>
    cases h
    exact .exit rsp
  | tick =>
    rw [scheduleCall] at h
    split at h
    · cases h
      exact .tick rsp
    · cases h
  | spawn | block | sleep | exitThread | keyboard | initComplete => cases h

theorem exec_done {e : Event} (hok : p.exec sym e = .ok p') : Done sym p e p' := by
  cases e with
  | spawn name process task => exact .spawned (spawn_spawned hok)
  | block =>
    cases hok
    exact .blocked (q := p.sched.sleepQueue) (.inl ⟨rfl, rfl⟩)
  | sleep seconds =>
    cases hok
    exact .blocked (.inr ⟨seconds, rfl, rfl⟩)
  | yield rsp =>
    obtain ⟨s, hresched, hret⟩ := bind_eq_ok.mp hok
    cases hret
    exact .scheduled rfl hresched
  | exit rsp =>
    obtain ⟨s, hexit, hret⟩ := bind_eq_ok.mp hok
    cases hret
    exact .scheduled rfl (exit_reschedule hexit)
  | exitThread thread =>
    cases hok
    exact .asked thread
  | keyboard taskId =>
    cases hok
    exact .woken taskId
  | tick rsp =>
    obtain ⟨s, htick, hret⟩ := bind_eq_ok.mp hok
    cases hret
    rcases Scheduler.handlerApicTimer_ok htick with ⟨hshould, hresched⟩ | ⟨hstay, rfl⟩
    · exact .scheduled (if_pos hshould) hresched
    · exact .ticked hstay
  | initComplete =>
    cases hok
    exact .initialised

end Processor

namespace Processor

open Scheduler

variable {p p' : Processor} {sym : Symbols} {e : Event}

def Blocks (p : Processor) (e : Event) (p' : Processor) : Prop :=
  (e = .block ∨ ∃ seconds, e = .sleep seconds) ∧ ∀ b, p'.sched.find b =
    if b = p.sched.current then
      (p.sched.find b).map ({ · with ticksRemaining := taskQuantumTicks, state := .blocked })
    else p.sched.find b

/-- An event brings in a task, blocks the current one, or does to tasks what scheduling and the
timer interrupt do; only a timer interrupt removes tasks. -/
theorem exec_follows {R : Task → Task → Prop} (hR : AllowsSwitch R) (hT : AllowsTimer R)
    (hstore : ∀ t n, R t { t with savedRsp := n }) (hok : p.exec sym e = .ok p') :
    (∃ name process task, e = .spawn name process task) ∨ p'.nextThreadId = p.nextThreadId ∧
      (p.Blocks e p' ∨ Follows R (fun _ => ∃ rsp, e = .tick rsp) p.sched p'.sched) := by
  cases exec_done hok with
  | spawned _ => exact .inl ⟨_, _, _, rfl⟩
  | @blocked _ q he =>
    refine .inr ⟨rfl, .inl ⟨?_, find_markBlocked { p.sched with sleepQueue := q }⟩⟩
    exact he.imp And.left fun ⟨seconds, hsleep, _⟩ => ⟨seconds, hsleep⟩
  | asked thread =>
    obtain ⟨queue, heq⟩ := p.sched.exitThread_frame thread
    exact .inr ⟨rfl, .inr (.of_find hR.refl fun _ => by rw [heq])⟩
  | woken taskId => exact .inr ⟨rfl, .inr (.wake hR.refl hT.wake)⟩
  | initialised => exact .inr ⟨rfl, .inr (.of_find hR.refl fun _ => rfl)⟩
  | ticked _ =>
    exact .inr ⟨rfl, .inr ((hT.timerWork p.sched).mono (fun _ _ => id) fun _ _ => ⟨_, rfl⟩)⟩
  | scheduled hcall hresched =>
    refine .inr ⟨rfl, .inr (.trans hR.trans ?_ (hR.reschedule hstore hresched))⟩
    cases scheduleCall_called hcall with
    | yield => exact .of_find hR.refl fun _ => rfl
    | exit => exact .killCurrentTask hR.refl fun t _ => hT.kill t
    | tick => exact (hT.timerWork p.sched).mono (fun _ _ => id) fun _ _ => ⟨_, rfl⟩

theorem exec_queues (hok : p.exec sym e = .ok p') (htick : ∀ rsp, e ≠ .tick rsp) :
    ((∀ thread, e ≠ .exitThread thread) → p'.sched.systemTasks = p.sched.systemTasks) ∧
      ((∀ seconds, e ≠ .sleep seconds) → p'.sched.sleepQueue = p.sched.sleepQueue) := by
  cases exec_done hok with
  | spawned hspawned => cases hspawned <;> exact ⟨fun _ => rfl, fun _ => rfl⟩
  | @blocked _ q he =>
    obtain ⟨_, _, heq⟩ := markBlocked_frame { p.sched with sleepQueue := q }
    rw [heq]
    refine ⟨fun _ => rfl, fun hsleep => ?_⟩
    rcases he with ⟨-, rfl⟩ | ⟨seconds, rfl, -⟩
    · rfl
    · exact absurd rfl (hsleep seconds)
  | asked thread =>
    obtain ⟨_, heq⟩ := p.sched.exitThread_frame thread
    exact ⟨fun hask => absurd rfl (hask thread), fun _ => by rw [heq]⟩
  | woken taskId =>
    obtain ⟨_, _, _, heq⟩ := p.sched.wake_frame taskId
    rw [heq]
    exact ⟨fun _ => rfl, fun _ => rfl⟩
  | initialised => exact ⟨fun _ => rfl, fun _ => rfl⟩
  | ticked _ => exact absurd rfl (htick _)
  | scheduled hcall hresched =>
    obtain ⟨_, _, _, _, _, _, heq⟩ := reschedule_frame hresched
    rw [heq]
    cases scheduleCall_called hcall with
    | yield => exact ⟨fun _ => rfl, fun _ => rfl⟩
    | exit =>
      obtain ⟨_, _, _, hkill⟩ := p.sched.killCurrentTask_frame
      rw [hkill]
      exact ⟨fun _ => rfl, fun _ => rfl⟩
    | tick => exact absurd rfl (htick _)

end Processor

namespace Scheduler

def SameThread (t t' : Task) : Prop := t'.thread = t.thread

theorem allowsSwitch_sameThread : AllowsSwitch SameThread where
  refl _ := rfl
  trans _ _ _ h h' := h'.trans h
  select _ _ := rfl
  requeue _ _ := rfl

theorem allowsTimer_sameThread : AllowsTimer SameThread where
  refl _ := rfl
  trans _ _ _ h h' := h'.trans h
  wake _ _ := rfl
  count _ := rfl
  kill _ := rfl
  reap _ _ := rfl

end Scheduler

namespace Processor

open Scheduler

variable {p p' : Processor} {sym : Symbols} {e : Event} {a : TaskId}

theorem exec_sameThread (hok : p.exec sym e = .ok p') :
    (∃ name process task, e = .spawn name process task) ∨
      Follows SameThread (fun _ => ∃ rsp, e = .tick rsp) p.sched p'.sched ∧
        p'.nextThreadId = p.nextThreadId := by
  rcases exec_follows allowsSwitch_sameThread allowsTimer_sameThread (fun _ _ => rfl) hok with
    hspawn | ⟨hnext, ⟨-, hmark⟩ | hfollow⟩
  · exact .inl hspawn
  · exact .inr ⟨.of_map (fun _ => rfl) hmark fun _ _ => rfl, hnext⟩
  · exact .inr ⟨hfollow, hnext⟩

end Processor

namespace Scheduler

variable {s s' : Scheduler} {a : TaskId}

def NoNewBlocked (t t' : Task) : Prop := t'.state = .blocked → t.state = .blocked

theorem allowsSwitch_noNewBlocked : AllowsSwitch NoNewBlocked where
  refl _ := id
  trans _ _ _ h h' hblocked := h (h' hblocked)
  select _ _ hblocked := by cases hblocked
  requeue _ _ hblocked := by cases hblocked

theorem allowsTimer_noNewBlocked : AllowsTimer NoNewBlocked where
  refl _ := id
  trans _ _ _ h h' hblocked := h (h' hblocked)
  wake _ _ hblocked := by cases hblocked
  count _ := id
  kill _ hblocked := by cases hblocked
  reap _ _ hblocked := by cases hblocked

theorem blocked_of_follows {D : TaskId → Prop} (h : Follows NoNewBlocked D s s')
    (hblocked : s'.InState a .blocked) : s.InState a .blocked := by
  obtain ⟨t', ht', hstate⟩ := hblocked
  obtain ⟨t, ht, hback⟩ := h.find_before ht'
  exact ⟨t, ht, hback hstate⟩

theorem not_blocked_wake (s : Scheduler) (a : TaskId) : ¬ (s.wake a).2.InState a .blocked := by
  have hwoken := s.wake_woken a
  generalize (s.wake a).2 = s' at hwoken
  cases hwoken with
  | idle hnot => exact hnot
  | @queued task queue hfind =>
    intro hblocked
    have hstate := (inState_setStates hfind task.thread .ready .active .blocked).mp hblocked
    rw [if_pos rfl] at hstate
    cases hstate
  | @full task hfind =>
    intro hblocked
    have hstate := (inState_setStates hfind task.thread .ready .active .blocked).mp hblocked
    rw [if_pos rfl] at hstate
    cases hstate

end Scheduler

namespace Processor

open Scheduler

variable {p p' : Processor} {sym : Symbols} {e : Event} {a : TaskId}

theorem blocked_before
    (hother : e = .block ∨ (∃ seconds, e = .sleep seconds) → p.sched.current ≠ a)
    (hok : p.exec sym e = .ok p') (h : p'.sched.InState a .blocked) : p.sched.InState a .blocked := by
  rcases exec_follows allowsSwitch_noNewBlocked allowsTimer_noNewBlocked (fun _ _ => id) hok with
    ⟨name, process, task, rfl⟩ | ⟨-, ⟨hblocks, hmark⟩ | hfollow⟩
  · cases Processor.spawn_spawned hok with
    | refused => exact h
    | placed _ hfind =>
      obtain ⟨t, ht, hstate⟩ := h
      rw [show Scheduler.find _ a = _ from hfind a] at ht
      split at ht
      · cases ht
        cases hstate
      · exact ⟨t, ht, hstate⟩
  · obtain ⟨t, ht, hstate⟩ := h
    rw [hmark, if_neg (hother hblocks).symm] at ht
    exact ⟨t, ht, hstate⟩
  · exact blocked_of_follows hfollow h

end Processor

end CrapOs
