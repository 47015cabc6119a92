import CrapOs.Foundation.RingBuffer
import CrapOs.TaskScheduler.TaskTable

/-! # The queues of the scheduler

The ready queue of the bootstrap processor, on which every task is put, the queues
of the reaper, the queue of work for the timer interrupt and the delta queue of
sleeping tasks. A ring whose cells are emptied when they are read and one whose
cells are not hold the same values, so all four rings are one structure.
-/

namespace CrapOs

open Foundation

abbrev PerCpuQueue := RingBuffer TaskId 8

namespace PerCpuQueue

def new : PerCpuQueue := .empty .idle

def push (q : PerCpuQueue) (taskId : TaskId) : Except SchedulerError PerCpuQueue :=
  q.pushOr taskId .queueFull

end PerCpuQueue

inductive ReaperError where
  | reaperQueueFull | tombstoneQueueFull | unknownTask
deriving DecidableEq, Repr

abbrev ReaperQueue := RingBuffer TaskId 6

namespace ReaperQueue

def new : ReaperQueue := .empty .idle

def push (q : ReaperQueue) (taskId : TaskId) : Except ReaperError ReaperQueue :=
  q.pushOr taskId .reaperQueueFull

end ReaperQueue

abbrev TombstoneQueue := RingBuffer TaskId 6

namespace TombstoneQueue

def new : TombstoneQueue := .empty .idle

def push (q : TombstoneQueue) (taskId : TaskId) : Except ReaperError TombstoneQueue :=
  q.pushOr taskId .tombstoneQueueFull

end TombstoneQueue

/-- `MAX_SYSTEM_TASKS` is 32. The only function ever queued is `task_killer`, so that a
system task is its argument. -/
abbrev SystemTaskQueue := RingBuffer Nat 5

namespace SystemTaskQueue

def new : SystemTaskQueue := .empty 0

def push (q : SystemTaskQueue) (funcArg : Nat) : Except String SystemTaskQueue :=
  q.pushOr funcArg "[SYSTEM_TASK] Queue full, dropping SystemTask"

end SystemTaskQueue

namespace TaskId

def compressTaskId (taskId : TaskId) : Nat :=
  taskId.slotIndex ||| (taskId.slotGeneration.toNat <<< 56)

def expandTaskId (encodedTaskId : Nat) : TaskId :=
  ⟨((encodedTaskId <<< 8) % 2 ^ 64) >>> 8, (encodedTaskId >>> 56).toUInt8⟩

theorem compress_eq {taskId : TaskId} (h : taskId.slotIndex < 2 ^ 56) :
    taskId.compressTaskId = taskId.slotGeneration.toNat * 2 ^ 56 + taskId.slotIndex := by
  rw [compressTaskId, Nat.or_comm, Nat.shiftLeft_eq, Nat.mul_comm, Nat.two_pow_add_eq_or_of_lt h]

theorem expand_compress {taskId : TaskId} (h : taskId.slotIndex < 2 ^ 56) :
    expandTaskId taskId.compressTaskId = taskId := by
  obtain ⟨slot, gen⟩ := taskId
  rw [expandTaskId, compress_eq h]
  simp only [Nat.shiftLeft_eq, Nat.shiftRight_eq_div_pow] at h ⊢
  have hslot : (gen.toNat * 2 ^ 56 + slot) * 2 ^ 8 % 2 ^ 64 / 2 ^ 8 = slot := by omega
  have hhigh : (gen.toNat * 2 ^ 56 + slot) / 2 ^ 56 = gen.toNat := by omega
  rw [hslot, hhigh, Nat.toUInt8_eq, UInt8.ofNat_toNat]

end TaskId

structure SleepEntry where
  deltaTicks : Nat
  taskId : TaskId
deriving DecidableEq, Repr

def maxSleepEntries : Nat := 256

/-- Each entry expires `deltaTicks` after the one before it. -/
structure SleepQueue where
  entries : List SleepEntry
deriving DecidableEq, Repr

namespace SleepQueue

def new : SleepQueue := ⟨[]⟩

def insertAt (taskId : TaskId) : Nat → List SleepEntry → List SleepEntry
  | remaining, [] => [⟨remaining, taskId⟩]
  | remaining, entry :: rest =>
    if remaining ≤ entry.deltaTicks then
      ⟨remaining, taskId⟩ :: { entry with deltaTicks := entry.deltaTicks - remaining } :: rest
    else entry :: insertAt taskId (remaining - entry.deltaTicks) rest

def insert (q : SleepQueue) (taskId : TaskId) (ticks : Nat) : SleepQueue :=
  if ticks = 0 then q
  else if q.entries.length = maxSleepEntries then q
  else ⟨insertAt taskId ticks q.entries⟩

def countDown (q : SleepQueue) : SleepQueue :=
  match q.entries with
  | [] => q
  | head :: rest => ⟨{ head with deltaTicks := head.deltaTicks - 1 } :: rest⟩

end SleepQueue

end CrapOs
