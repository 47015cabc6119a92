import CrapOs.Foundation.Machine
import CrapOs.MemoryManager.AddressSpace

/-! # Tasks and threads

What the scheduler keeps of a task and of the thread behind it, and how a task is
made: a kernel stack from the heap with a frame at its top that looks as if the
task had been switched away from, a kernel task right before the entry stub that
calls its function, a user task right before the `iretq` that enters user mode.
-/

namespace CrapOs

open Foundation

structure TaskId where
  slotIndex : Nat
  slotGeneration : UInt8
deriving DecidableEq, Repr

namespace TaskId

def idle : TaskId := ⟨0, 0⟩

def pending : TaskId := ⟨2 ^ 64 - 1, 0⟩

end TaskId

inductive TaskState where
  | ready | running | blocked | dying | dead
deriving DecidableEq, Repr

inductive ThreadState where
  | active | waiting | dying | dead
deriving DecidableEq, Repr

abbrev ThreadId := Nat
abbrev ProcessId := Nat

structure Thread where
  id : ThreadId
  taskId : Option TaskId
  name : String
  state : ThreadState
  process : ProcessId
deriving DecidableEq, Repr

namespace Thread

def new (id : ThreadId) (name : String) (process : ProcessId) : Thread :=
  ⟨id, none, name, .active, process⟩

def newIdle : Thread := ⟨0, none, "Idle", .active, 0⟩

end Thread

def taskStackSize : Nat := 16 * 1024
def taskQuantumTicks : Nat := 4

/-- A weak reference to a thread is its id, `stack` the address of the allocation. -/
structure Task where
  id : TaskId
  state : TaskState
  savedRsp : Nat
  kernelStackTop : Nat
  isUserTask : Bool
  cr3 : Nat
  ticksRemaining : Nat
  ticksExecuted : Nat
  thread : ThreadId
  stack : Nat
deriving DecidableEq, Repr

/-- Addresses fixed when the kernel is linked: the entry stubs of tasks, and where the
static task table keeps the `saved_rsp` of each slot. -/
structure Symbols where
  taskEntryStub : Nat
  userTaskEntryStub : Nat
  savedRsp : Nat → Nat
  taskStub_lt : taskEntryStub < 2 ^ 64
  stub_lt : userTaskEntryStub < 2 ^ 64
  savedRsp_ne_zero : ∀ slot, savedRsp slot ≠ 0

def userCsRpl3 : Nat := 0x33
def userDsRpl3 : Nat := 0x2B

def userRflags : Nat := (1 <<< 9) ||| (1 <<< 1)

structure KernelInitialFrame where
  r15 : Nat
  r14 : Nat
  r13 : Nat
  r12 : Nat
  rbx : Nat
  rbp : Nat
  rip : Nat

namespace KernelInitialFrame

def words (f : KernelInitialFrame) : List Nat :=
  [f.r15, f.r14, f.r13, f.r12, f.rbx, f.rbp, f.rip]

def size : Nat := 56

end KernelInitialFrame

structure UserInitialFrame where
  r15 : Nat
  r14 : Nat
  r13 : Nat
  r12 : Nat
  rbx : Nat
  rbp : Nat
  rip : Nat
  iretqRip : Nat
  iretqCs : Nat
  iretqRflags : Nat
  iretqRsp : Nat
  iretqSs : Nat

namespace UserInitialFrame

def words (f : UserInitialFrame) : List Nat :=
  [f.r15, f.r14, f.r13, f.r12, f.rbx, f.rbp, f.rip, f.iretqRip, f.iretqCs, f.iretqRflags, f.iretqRsp,
    f.iretqSs]

def size : Nat := 96

end UserInitialFrame

namespace Task

def userFrame (sym : Symbols) (userEntry : Nat) (space : AddressSpace) : UserInitialFrame where
  r15 := 0
  r14 := 0
  r13 := 0
  r12 := 0
  rbx := 0
  rbp := 0
  rip := sym.userTaskEntryStub
  iretqRip := userEntry
  iretqCs := userCsRpl3
  iretqRflags := userRflags
  iretqRsp := space.userStackTop
  iretqSs := userDsRpl3

def stackTop (stack : Nat) : Nat := wrap64 (stack + taskStackSize) &&& not64 0xF

def kernelFramePtr (stack : Nat) : Nat := (stackTop stack - KernelInitialFrame.size) &&& not64 0xF

def framePtr (stack : Nat) : Nat := (stackTop stack - UserInitialFrame.size) &&& not64 0xF

/-- The task of the context the kernel boots in, which has a stack already. -/
def newIdle (thread : ThreadId) (stack : Nat) : Task where
  id := .idle
  state := .running
  savedRsp := 0
  kernelStackTop := 0
  isUserTask := false
  cr3 := 0
  ticksRemaining := taskQuantumTicks
  ticksExecuted := 0
  thread := thread
  stack := stack

/-- `stack` is the address the heap gave for the kernel stack, which is cleared. -/
def newKernel (sym : Symbols) (entry arg : Nat) (thread : ThreadId) (stack : Nat) (m : Mem) :
    Task × Mem :=
  let m := m.clear stack taskStackSize
  let m := m.writeWords (kernelFramePtr stack)
    (KernelInitialFrame.mk 0 0 arg entry 0 0 sym.taskEntryStub).words
  ({ id := .pending
     state := .ready
     savedRsp := kernelFramePtr stack
     kernelStackTop := stackTop stack
     isUserTask := false
     cr3 := 0
     ticksRemaining := taskQuantumTicks
     ticksExecuted := 0
     thread := thread
     stack := stack }, m)

def newUser (sym : Symbols) (userEntry : Nat) (space : AddressSpace) (pml4Phys : Nat)
    (thread : ThreadId) (stack : Nat) (m : Mem) : Task × Mem :=
  let m := m.clear stack taskStackSize
  let m := m.writeWords (framePtr stack) (userFrame sym userEntry space).words
  ({ id := .pending
     state := .ready
     savedRsp := framePtr stack
     kernelStackTop := stackTop stack
     isUserTask := true
     cr3 := pml4Phys
     ticksRemaining := taskQuantumTicks
     ticksExecuted := 0
     thread := thread
     stack := stack }, m)

/-- Where `iretq` finds the user stack pointer once the rest of the frame is popped. -/
def userRspAddr (t : Task) : Nat := t.savedRsp + 80

theorem framePtr_bounds {stack : Nat} (h : stack + taskStackSize < 2 ^ 64) :
    stack + taskStackSize < framePtr stack + 112 ∧
      framePtr stack + UserInitialFrame.size ≤ stack + taskStackSize := by
  have htop : stackTop stack = 16 * ((stack + taskStackSize) / 16) := by
    rw [stackTop, wrap64_of_lt h]
    exact and_not64_lowMask (k := 4) h (by decide)
  have hptr : framePtr stack = 16 * ((stackTop stack - UserInitialFrame.size) / 16) := by
    refine and_not64_lowMask (k := 4) ?_ (by decide)
    omega
  rw [hptr, htop]
  simp only [taskStackSize, UserInitialFrame.size]
  omega

variable {sym : Symbols} {userEntry pml4Phys stack : Nat} {space : AddressSpace} {thread : ThreadId}
  {m : Mem}

theorem newUser_agreeOn (h : stack + taskStackSize < 2 ^ 64) {b n : Nat}
    (hout : stack + taskStackSize ≤ b ∨ b + n ≤ stack) :
    Mem.AgreeOn m (newUser sym userEntry space pml4Phys thread stack m).2 b n := by
  obtain ⟨hlow, hhigh⟩ := framePtr_bounds h
  simp only [taskStackSize, UserInitialFrame.size] at hlow hhigh hout
  refine (m.clear_agreeOn hout).trans (Mem.writeWords_agreeOn _ ?_)
  show framePtr stack + 8 * 12 ≤ b ∨ b + n ≤ framePtr stack
  omega

theorem newUser_word (hentry : userEntry < 2 ^ 64) (htop : space.userStackTop < 2 ^ 64) {k : Nat}
    (hk : k < 12) : (newUser sym userEntry space pml4Phys thread stack m).2.read64
      (framePtr stack + 8 * k) = (userFrame sym userEntry space).words[k] := by
  refine Mem.read64_writeWords _ _ (fun w hw => ?_) hk
  have hstub := sym.stub_lt
  have hcases : w = 0 ∨ w = sym.userTaskEntryStub ∨ w = userEntry ∨ w = userCsRpl3 ∨
      w = userRflags ∨ w = space.userStackTop ∨ w = userDsRpl3 := by
    simpa [UserInitialFrame.words, userFrame] using hw
  rcases hcases with rfl | rfl | rfl | rfl | rfl | rfl | rfl
  · decide
  · exact hstub
  · exact hentry
  · decide
  · decide
  · exact htop
  · decide

theorem newUser_userRsp (hentry : userEntry < 2 ^ 64) (htop : space.userStackTop < 2 ^ 64) :
    (newUser sym userEntry space pml4Phys thread stack m).2.read64
      (newUser sym userEntry space pml4Phys thread stack m).1.userRspAddr = space.userStackTop :=
  newUser_word hentry htop (k := 10) (by decide)

end Task

end CrapOs
