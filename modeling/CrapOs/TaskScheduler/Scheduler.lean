import CrapOs.TaskScheduler.Queues

/-! # The scheduler

One processor. The functions below run with interrupts off from their first lock
to their last, so locks are left out and each is one transition of the state. The
exception is `insert_and_queue_task`, which lets interrupts in between the table
and the queue: it is taken here as if none came there.

A thread record is reached through its id. The weak reference a task keeps can
always be upgraded, because the list of its process keeps the record alive.
-/

namespace CrapOs

open Foundation

/-- The task table with the processor's ready queue, current task and remaining quantum, the
queues the timer interrupt works on, and of the processor itself the stack in its task
state segment and CR3. -/
structure Scheduler where
  global : GlobalScheduler
  threads : ThreadId → Thread
  queue : PerCpuQueue
  current : TaskId
  ticksRemaining : Nat
  forceReschedule : Bool
  kernelInitComplete : Bool
  sleepQueue : SleepQueue
  reaperQueue : ReaperQueue
  tombstoneQueue : TombstoneQueue
  systemTasks : SystemTaskQueue
  kernelStack : Nat
  cr3 : Nat

structure SwitchArgs where
  oldRspPtr : Nat
  newRsp : Nat
  newCr3 : Nat
deriving DecidableEq, Repr

namespace Scheduler

/-- `init_idle_process`: the thread of the idle task is the only one there is. `idleStack` is
the placeholder the idle task owns. -/
def initIdle (idleStack kernelStack cr3 : Nat) : Scheduler where
  global := GlobalScheduler.new.insertIdleTask (.newIdle 0 idleStack)
  threads := Function.update (fun t => .new t "" 0) 0 { Thread.newIdle with taskId := some .idle }
  queue := .new
  current := .idle
  ticksRemaining := taskQuantumTicks
  forceReschedule := false
  kernelInitComplete := false
  sleepQueue := .new
  reaperQueue := .new
  tombstoneQueue := .new
  systemTasks := .new
  kernelStack := kernelStack
  cr3 := cr3

abbrev find (s : Scheduler) (taskId : TaskId) : Option Task := s.global.getTask taskId

def modifyTask (s : Scheduler) (taskId : TaskId) (f : Task → Task) : Scheduler :=
  { s with global := s.global.modifyTask taskId f }

def modifyThread (s : Scheduler) (thread : ThreadId) (f : Thread → Thread) : Scheduler :=
  { s with threads := Function.update s.threads thread (f (s.threads thread)) }

/-- A task's state and that of its thread are always set together. -/
def setStates (s : Scheduler) (taskId : TaskId) (thread : ThreadId) (state : TaskState)
    (threadState : ThreadState) : Scheduler :=
  (s.modifyTask taskId ({ · with state := state })).modifyThread thread ({ · with state := threadState })

def insertAndQueueTask (s : Scheduler) (task : Task) :
    Except Halt (Except SchedulerError TaskId × Scheduler) :=
  match s.global.insertTask task with
  | .error e => .ok (.error e, s)
  | .ok (taskId, global) =>
    match s.queue.push taskId with
    | .error _ =>
      .error (.panic "[SCHEDULER] Task inserted into table but CPU Ready queue is full")
    | .ok queue => .ok (.ok taskId, { s with global := global, queue := queue })

/-- The loop that pops until it finds a task that is ready; it pops no more often than
there are entries. -/
def nextTask : Nat → Scheduler → TaskId × Scheduler
  | 0, s => (.idle, s)
  | n + 1, s =>
    match s.queue.pop with
    | none => (.idle, s)
    | some (candidate, queue) =>
      let s := { s with queue := queue }
      match s.find candidate with
      | none => nextTask n s
      | some task =>
        if task.state = .ready then
          (candidate, s.modifyTask candidate ({ · with state := .running }))
        else nextTask n s

/-- A task that is still running goes to the back of the queue; the idle task only until
the kernel is initialised. A full queue is only logged. -/
def requeueOutgoing (s : Scheduler) (outgoingId : TaskId) : Scheduler :=
  match s.find outgoingId with
  | none => s
  | some outgoing =>
    if outgoing.state = .running then
      let s := s.modifyTask outgoingId ({ · with state := .ready })
      if outgoingId ≠ .idle ∨ s.kernelInitComplete = false then
        match s.queue.push outgoingId with
        | .ok queue => { s with queue := queue }
        | .error _ => s
      else s
    else s

def schedule (sym : Symbols) (s : Scheduler) : Except Halt (Option SwitchArgs × Scheduler) :=
  let (nextId, s) := nextTask s.queue.len s
  let outgoingId := s.current
  let s := requeueOutgoing s outgoingId
  let s := { s with current := nextId }
  let oldRspPtr := if (s.find outgoingId).isSome then sym.savedRsp outgoingId.slotIndex else 0
  match s.find nextId with
  | none => .error (.panic "called `Option::unwrap()` on a `None` value")
  | some next =>
    let s := if next.isUserTask then { s with kernelStack := next.kernelStackTop } else s
    let s := { s with ticksRemaining := next.ticksRemaining }
    -- the sanity check: nothing is switched if one of the pointers is null
    if oldRspPtr = 0 ∨ next.savedRsp = 0 then .ok (none, s)
    else .ok (some ⟨oldRspPtr, next.savedRsp, next.cr3⟩, s)

/-- What `switch_to` leaves behind: it stores the stack pointer `rsp` of the outgoing task
and loads CR3 unless it is given zero. -/
def switched (s : Scheduler) (outgoingId : TaskId) (rsp : Nat) (args : SwitchArgs) : Scheduler :=
  { s.modifyTask outgoingId ({ · with savedRsp := rsp }) with
    cr3 := if args.newCr3 = 0 then s.cr3 else args.newCr3 }

/-- `schedule` with the switch; `rsp` is the stack pointer once `switch_to` has pushed the
outgoing task's registers. -/
def reschedule (sym : Symbols) (s : Scheduler) (rsp : Nat) : Except Halt Scheduler := do
  let (args, s') ← s.schedule sym
  match args with
  | none => pure s'
  | some args => pure (s'.switched s.current rsp args)

/-- The first part of `yield_blocked` and `sleep`: the current task is marked, and
`schedule` is still to be called. -/
def markBlocked (s : Scheduler) : Scheduler :=
  match s.find s.current with
  | none => s
  | some task =>
    let s := s.modifyTask s.current ({ · with ticksRemaining := taskQuantumTicks })
    s.setStates s.current task.thread .blocked .waiting

/-- `sleep` up to its call of `schedule`, for a number of seconds that is not zero. The
product is taken in 32 bits. -/
def markSleeping (s : Scheduler) (seconds : Nat) : Scheduler :=
  { s with sleepQueue := s.sleepQueue.insert s.current (seconds * 1000 % 2 ^ 32) }.markBlocked

def wake (s : Scheduler) (taskId : TaskId) : Except SchedulerError Unit × Scheduler :=
  match s.find taskId with
  | none => (.error .unknownTask, s)
  | some task =>
    if task.state = .blocked then
      let s := s.setStates taskId task.thread .ready .active
      match s.queue.push taskId with
      | .error e => (.error e, s)
      | .ok queue => (.ok (), { s with queue := queue })
    else (.ok (), s)

def queueTaskReaper (s : Scheduler) (taskId : TaskId) : Scheduler :=
  match s.reaperQueue.push taskId with
  | .ok queue => { s with reaperQueue := queue }
  | .error _ => s

/-- `kill_current_task`, and what `task_exit` does before it calls `schedule`. -/
def killCurrentTask (s : Scheduler) : Scheduler :=
  match s.find s.current with
  | none => s
  | some task => (s.setStates s.current task.thread .dying .dying).queueTaskReaper s.current

def killTask (s : Scheduler) (taskIdU64 : Nat) : Scheduler :=
  let taskId := TaskId.expandTaskId taskIdU64
  match s.find taskId with
  | none => s.queueTaskReaper taskId
  | some task =>
    let s := (s.setStates taskId task.thread .dying .dying).queueTaskReaper taskId
    if taskId = s.current then { s with forceReschedule := true } else s

def queueSystemTask (s : Scheduler) (funcArg : Nat) : Scheduler :=
  match s.systemTasks.push funcArg with
  | .ok queue => { s with systemTasks := queue }
  | .error _ => s

def exitThread (s : Scheduler) (thread : ThreadId) : Scheduler :=
  if (s.threads thread).state = .dead ∨ (s.threads thread).state = .dying then s
  else
    match (s.threads thread).taskId with
    | none => s
    | some taskId => s.queueSystemTask taskId.compressTaskId

def removeTask (s : Scheduler) (taskId : TaskId) : Scheduler :=
  match s.find taskId with
  | none => s
  | some task =>
    let s := s.modifyThread task.thread ({ · with taskId := none, state := .dead })
    { s with global := s.global.clearSlot taskId }

def wakeExpired : List SleepEntry → Scheduler → Scheduler
  | [], s => { s with sleepQueue := ⟨[]⟩ }
  | entry :: rest, s =>
    if entry.deltaTicks ≠ 0 then { s with sleepQueue := ⟨entry :: rest⟩ }
    else wakeExpired rest (s.wake entry.taskId).2

def tickSleepQueue (s : Scheduler) : Scheduler :=
  wakeExpired s.sleepQueue.countDown.entries s

/-- Whether the quantum is used up, with the state afterwards. -/
def onTimerTick (s : Scheduler) : Bool × Scheduler :=
  let s := s.tickSleepQueue
  let s := s.modifyTask s.current fun t => { t with ticksExecuted := t.ticksExecuted + 1 }
  if s.ticksRemaining ≤ 1 then (true, { s with ticksRemaining := taskQuantumTicks })
  else (false, { s with ticksRemaining := s.ticksRemaining - 1 })

/-- The loop of `drain_system_tasks`; no system task queues another. -/
def drainLoop : Nat → Scheduler → Scheduler
  | 0, s => s
  | n + 1, s =>
    match s.systemTasks.pop with
    | none => s
    | some (funcArg, queue) => drainLoop n ({ s with systemTasks := queue }.killTask funcArg)

def drainSystemTasks (s : Scheduler) : Scheduler := drainLoop s.systemTasks.len s

def tombstoneLoop : Nat → Scheduler → Scheduler
  | 0, s => s
  | n + 1, s =>
    match s.tombstoneQueue.pop with
    | none => s
    | some (taskId, queue) => tombstoneLoop n ({ s with tombstoneQueue := queue }.removeTask taskId)

def tombstoneCleanup (s : Scheduler) : Scheduler := tombstoneLoop s.tombstoneQueue.len s

/-- One task that is `Dying` becomes `Dead`; a full queue of tombstones is only logged. -/
def reapTask (s : Scheduler) (taskId : TaskId) : Scheduler :=
  match s.find taskId with
  | none => s
  | some task =>
    if task.state = .dying then
      let s := s.modifyTask taskId ({ · with state := .dead })
      match s.tombstoneQueue.push taskId with
      | .ok queue => { s with tombstoneQueue := queue }
      | .error _ => s
    else s

def reapLoop : Nat → Scheduler → Scheduler
  | 0, s => s
  | n + 1, s =>
    match s.reaperQueue.pop with
    | none => s
    | some (taskId, queue) => reapLoop n ({ s with reaperQueue := queue }.reapTask taskId)

def reapDyingTasks (s : Scheduler) : Scheduler := reapLoop s.reaperQueue.len s

/-- `handler_apic_timer` up to the question whether to call `schedule`. -/
def timerWork (s : Scheduler) : Bool × Scheduler :=
  let (shouldSchedule, s) := s.onTimerTick
  let s := s.drainSystemTasks
  let s := s.tombstoneCleanup
  let s := s.reapDyingTasks
  (shouldSchedule || s.forceReschedule, { s with forceReschedule := false })

def handlerApicTimer (sym : Symbols) (s : Scheduler) (rsp : Nat) : Except Halt Scheduler :=
  let (shouldSchedule, s) := s.timerWork
  if shouldSchedule then s.reschedule sym rsp else pure s

variable {s s' : Scheduler} {task : Task} {taskId : TaskId} {e : SchedulerError}

theorem insertAndQueueTask_ok (h : s.insertAndQueueTask task = .ok (.ok taskId, s')) :
    ∃ global queue, s.global.insertTask task = .ok (taskId, global) ∧
      s.queue.push taskId = .ok queue ∧ s' = { s with global := global, queue := queue } := by
  unfold insertAndQueueTask at h
  cases hinsert : s.global.insertTask task with
  | error e =>
    rw [hinsert] at h
    cases h
  | ok r =>
    obtain ⟨id, global⟩ := r
    simp only [hinsert] at h
    cases hpush : s.queue.push id with
    | error e =>
      rw [hpush] at h
      cases h
    | ok queue =>
      rw [hpush] at h
      cases h
      exact ⟨global, queue, rfl, hpush, rfl⟩

theorem insertAndQueueTask_error (h : s.insertAndQueueTask task = .ok (.error e, s')) : s' = s := by
  unfold insertAndQueueTask at h
  cases hinsert : s.global.insertTask task with
  | error e =>
    rw [hinsert] at h
    cases h
    rfl
  | ok r =>
    obtain ⟨id, global⟩ := r
    simp only [hinsert] at h
    cases hpush : s.queue.push id with
    | error e =>
      rw [hpush] at h
      cases h
    | ok queue =>
      rw [hpush] at h
      cases h

end Scheduler

end CrapOs
