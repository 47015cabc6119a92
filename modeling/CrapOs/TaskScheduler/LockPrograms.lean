import CrapOs.Foundation.LockOrder
import CrapOs.TaskScheduler.Effects

/-! # The scheduler's functions with their locks

The functions of the scheduler as the code has them on a machine with any number
of processors: every lock is taken and given back where its guard begins and
ends. In between the state changes as on one processor.

A context is a task or an interrupt handler in the middle of a function. It can
be left for another one wherever it has no lock, since interrupts are off while a
lock is taken.
-/

namespace CrapOs

open Foundation

inductive SchedulerLock where
  | sleepQueue
  | global
  | reaperQueue
  | tombstoneQueue
  /-- the lock on the ready queue of a processor -/
  | ready (cpu : Nat)
  | thread (id : ThreadId)
deriving DecidableEq, Repr

structure CpuState where
  queue : PerCpuQueue
  current : TaskId
  ticksRemaining : Nat
  forceReschedule : Bool
  kernelStack : Nat
  cr3 : Nat

structure Smp where
  global : GlobalScheduler
  threads : ThreadId → Thread
  kernelInitComplete : Bool
  sleepQueue : SleepQueue
  reaperQueue : ReaperQueue
  tombstoneQueue : TombstoneQueue
  systemTasks : SystemTaskQueue
  cpu : Nat → CpuState

namespace Smp

def view (w : Smp) (i : Nat) : Scheduler where
  global := w.global
  threads := w.threads
  queue := (w.cpu i).queue
  current := (w.cpu i).current
  ticksRemaining := (w.cpu i).ticksRemaining
  forceReschedule := (w.cpu i).forceReschedule
  kernelInitComplete := w.kernelInitComplete
  sleepQueue := w.sleepQueue
  reaperQueue := w.reaperQueue
  tombstoneQueue := w.tombstoneQueue
  systemTasks := w.systemTasks
  kernelStack := (w.cpu i).kernelStack
  cr3 := (w.cpu i).cr3

def on (i : Nat) (f : Scheduler → Scheduler) (w : Smp) : Smp :=
  let s := f (w.view i)
  { global := s.global
    threads := s.threads
    kernelInitComplete := s.kernelInitComplete
    sleepQueue := s.sleepQueue
    reaperQueue := s.reaperQueue
    tombstoneQueue := s.tombstoneQueue
    systemTasks := s.systemTasks
    cpu := Function.update w.cpu i
      ⟨s.queue, s.current, s.ticksRemaining, s.forceReschedule, s.kernelStack, s.cr3⟩ }

end Smp

inductive SchedulerCall where
  | wake (cpu : Nat) (taskId : TaskId)
  | sleep (cpu seconds : Nat)
  | yieldBlocked (cpu : Nat)
  | schedule (cpu : Nat)
  | killTask (cpu taskIdU64 : Nat)
  | killCurrentTask (cpu : Nat)
  | taskExit (cpu : Nat)
  | onTimerTick (cpu : Nat)
  | reapDyingTasks (cpu : Nat)
  | tombstoneCleanup (cpu : Nat)
deriving DecidableEq, Repr

abbrev Program := Code Smp SchedulerLock SchedulerCall

namespace Program

open Code

/-- `task.thread.upgrade().unwrap().lock().state = state` -/
def setThreadState (cpu : Nat) (thread : ThreadId) (state : ThreadState) (next : Program) : Program :=
  acquire (.thread thread) <|
  update (Smp.on cpu (·.modifyThread thread ({ · with state := state }))) <|
  release (.thread thread) next

def queueTaskReaper (cpu : Nat) (taskId : TaskId) (next : Program) : Program :=
  acquire .reaperQueue <|
  update (Smp.on cpu (·.queueTaskReaper taskId)) <|
  release .reaperQueue next

def pushReady (taskId : TaskId) (s : Scheduler) : Scheduler :=
  match s.queue.push taskId with
  | .ok queue => { s with queue := queue }
  | .error _ => s

/-- Woken tasks go to the queue of the first processor. -/
def wake (cpu : Nat) (taskId : TaskId) (next : Program) : Program :=
  acquire .global <| read fun w =>
    match w.global.getTask taskId with
    | none => release .global next
    | some task =>
      if task.state = .blocked then
        update (Smp.on cpu (·.modifyTask taskId ({ · with state := .ready }))) <|
        setThreadState cpu task.thread .active <|
        release .global <|
        acquire (.ready 0) <|
        update (Smp.on 0 (pushReady taskId)) <|
        release (.ready 0) next
      else release .global next

/-- The critical section of `yield_blocked`, and of `sleep` inside the one on its queue. -/
def markBlocked (cpu : Nat) (currentId : TaskId) (next : Program) : Program :=
  acquire .global <| read fun w =>
    match w.global.getTask currentId with
    | none => release .global next
    | some task =>
      update (Smp.on cpu (·.modifyTask currentId ({ · with ticksRemaining := taskQuantumTicks }))) <|
      update (Smp.on cpu (·.modifyTask currentId ({ · with state := .blocked }))) <|
      setThreadState cpu task.thread .waiting <|
      release .global next

def yieldBlocked (cpu : Nat) : Program :=
  read fun w => markBlocked cpu (w.cpu cpu).current <| jump (.schedule cpu)

def sleep (cpu seconds : Nat) : Program :=
  if seconds = 0 then jump (.schedule cpu)
  else read fun w =>
    let taskId := (w.cpu cpu).current
    acquire .sleepQueue <|
    update (Smp.on cpu fun s =>
      { s with sleepQueue := s.sleepQueue.insert taskId (seconds * 1000 % 2 ^ 32) }) <|
    markBlocked cpu taskId <|
    release .sleepQueue <|
    jump (.schedule cpu)

def switchIn (cpu : Nat) (nextId : TaskId) : Program :=
  update (Smp.on cpu ({ · with current := nextId })) <|
  -- the pointer to the outgoing task's `saved_rsp`
  acquire .global <| release .global <|
  acquire .global <| read fun w =>
    match w.global.getTask nextId with
    | none => halt
    | some task =>
      update (Smp.on cpu fun s =>
        if task.isUserTask then { s with kernelStack := task.kernelStackTop } else s) <|
      release .global <|
      acquire .global <| read fun w =>
        match w.global.getTask nextId with
        | none => halt
        | some task =>
          update (Smp.on cpu ({ · with ticksRemaining := task.ticksRemaining })) <|
          release .global done

def requeueOutgoing (cpu : Nat) (next : Program) : Program :=
  read fun w =>
    let outgoingId := (w.cpu cpu).current
    acquire .global <| read fun w =>
      match w.global.getTask outgoingId with
      | none => release .global next
      | some outgoing =>
        if outgoing.state = .running then
          update (Smp.on cpu (·.modifyTask outgoingId ({ · with state := .ready }))) <|
          if outgoingId ≠ .idle ∨ w.kernelInitComplete = false then
            acquire (.ready cpu) <|
            update (Smp.on cpu (pushReady outgoingId)) <|
            release (.ready cpu) <|
            release .global next
          else release .global next
        else release .global next

/-- The loop that looks for a task starts over after every candidate that is not ready. -/
def schedule (cpu : Nat) : Program :=
  acquire (.ready cpu) <| read fun w =>
    match (w.cpu cpu).queue.pop with
    | none => release (.ready cpu) <| requeueOutgoing cpu <| switchIn cpu .idle
    | some (candidate, queue) =>
      update (Smp.on cpu ({ · with queue := queue })) <|
      release (.ready cpu) <|
      acquire .global <| read fun w =>
        match w.global.getTask candidate with
        | none => release .global <| jump (.schedule cpu)
        | some task =>
          if task.state = .ready then
            update (Smp.on cpu (·.modifyTask candidate ({ · with state := .running }))) <|
            release .global <| requeueOutgoing cpu <| switchIn cpu candidate
          else release .global <| jump (.schedule cpu)

def killTask (cpu taskIdU64 : Nat) : Program :=
  let taskId := TaskId.expandTaskId taskIdU64
  read fun w =>
    let currentId := (w.cpu cpu).current
    acquire .global <| read fun w =>
      match w.global.getTask taskId with
      | none => release .global <| queueTaskReaper cpu taskId done
      | some task =>
        update (Smp.on cpu (·.modifyTask taskId ({ · with state := .dying }))) <|
        setThreadState cpu task.thread .dying <|
        release .global <|
        queueTaskReaper cpu taskId <|
        if taskId = currentId then update (Smp.on cpu ({ · with forceReschedule := true })) done
        else done

/-- `kill_current_task`, and the beginning of `task_exit`: the task is handed to the reaper
inside the critical section. -/
def killCurrent (cpu : Nat) (next : Program) : Program :=
  read fun w =>
    let currentId := (w.cpu cpu).current
    acquire .global <| read fun w =>
      match w.global.getTask currentId with
      | none => release .global next
      | some task =>
        update (Smp.on cpu (·.modifyTask currentId ({ · with state := .dying }))) <|
        setThreadState cpu task.thread .dying <|
        queueTaskReaper cpu currentId <|
        release .global next

def killCurrentTask (cpu : Nat) : Program := killCurrent cpu done

def taskExit (cpu : Nat) : Program := killCurrent cpu <| jump (.schedule cpu)

def countTick (cpu : Nat) : Program :=
  read fun w =>
    let currentId := (w.cpu cpu).current
    acquire .global <|
    update (Smp.on cpu (·.modifyTask currentId fun t => { t with ticksExecuted := t.ticksExecuted + 1 })) <|
    release .global <|
    update (Smp.on cpu fun s =>
      if s.ticksRemaining ≤ 1 then { s with ticksRemaining := taskQuantumTicks }
      else { s with ticksRemaining := s.ticksRemaining - 1 }) done

def wakeExpired (cpu : Nat) : List SleepEntry → Program
  | [] => release .sleepQueue <| countTick cpu
  | entry :: rest =>
    if entry.deltaTicks ≠ 0 then release .sleepQueue <| countTick cpu
    else
      update (Smp.on cpu ({ · with sleepQueue := ⟨rest⟩ })) <|
      wake cpu entry.taskId <|
      wakeExpired cpu rest

def onTimerTick (cpu : Nat) : Program :=
  acquire .sleepQueue <|
  update (Smp.on cpu fun s => { s with sleepQueue := s.sleepQueue.countDown }) <|
  read fun w => wakeExpired cpu w.sleepQueue.entries

/-- The loop of `reap_dying_tasks`. The queue is locked, so it pops what was in it before. -/
def reapLoop (cpu : Nat) : Nat → Program
  | 0 => release .global <| release .reaperQueue done
  | n + 1 => read fun w =>
    match w.reaperQueue.pop with
    | none => release .global <| release .reaperQueue done
    | some (taskId, queue) =>
      update (Smp.on cpu ({ · with reaperQueue := queue })) <|
      match w.global.getTask taskId with
      | none => reapLoop cpu n
      | some task =>
        if task.state = .dying then
          update (Smp.on cpu (·.modifyTask taskId ({ · with state := .dead }))) <|
          acquire .tombstoneQueue <|
          update (Smp.on cpu fun s =>
            match s.tombstoneQueue.push taskId with
            | .ok queue => { s with tombstoneQueue := queue }
            | .error _ => s) <|
          release .tombstoneQueue <|
          reapLoop cpu n
        else reapLoop cpu n

def reapDyingTasks (cpu : Nat) : Program :=
  acquire .reaperQueue <| read fun w =>
    if w.reaperQueue.len = 0 then release .reaperQueue done
    else acquire .global <| reapLoop cpu w.reaperQueue.len

def removeTask (cpu : Nat) (taskId : TaskId) (next : Program) : Program :=
  read fun w =>
    match w.global.getTask taskId with
    | none => next
    | some task =>
      acquire (.thread task.thread) <|
      update (Smp.on cpu (·.modifyThread task.thread ({ · with taskId := none, state := .dead }))) <|
      release (.thread task.thread) <|
      update (Smp.on cpu fun s => { s with global := s.global.clearSlot taskId }) next

def tombstoneLoop (cpu : Nat) : Nat → Program
  | 0 => release .global <| release .tombstoneQueue done
  | n + 1 => read fun w =>
    match w.tombstoneQueue.pop with
    | none => release .global <| release .tombstoneQueue done
    | some (taskId, queue) =>
      update (Smp.on cpu ({ · with tombstoneQueue := queue })) <|
      removeTask cpu taskId <|
      tombstoneLoop cpu n

def tombstoneCleanup (cpu : Nat) : Program :=
  acquire .tombstoneQueue <| read fun w =>
    if w.tombstoneQueue.len = 0 then release .tombstoneQueue done
    else acquire .global <| tombstoneLoop cpu w.tombstoneQueue.len

end Program

def SchedulerCall.program : SchedulerCall → Program
  | .wake cpu taskId => Program.wake cpu taskId .done
  | .sleep cpu seconds => Program.sleep cpu seconds
  | .yieldBlocked cpu => Program.yieldBlocked cpu
  | .schedule cpu => Program.schedule cpu
  | .killTask cpu taskIdU64 => Program.killTask cpu taskIdU64
  | .killCurrentTask cpu => Program.killCurrentTask cpu
  | .taskExit cpu => Program.taskExit cpu
  | .onTimerTick cpu => Program.onTimerTick cpu
  | .reapDyingTasks cpu => Program.reapDyingTasks cpu
  | .tombstoneCleanup cpu => Program.tombstoneCleanup cpu

end CrapOs
