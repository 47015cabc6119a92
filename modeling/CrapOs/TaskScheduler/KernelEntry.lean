import CrapOs.TaskScheduler.LifecycleRuns
import CrapOs.TaskScheduler.Switcher

/-! # The first entry of a kernel task

`Task::new_kernel` leaves a frame at the top of the new stack; the first
`switch_to` into it returns to `task_entry_stub`, which calls the entry function.
The frame takes 56 bytes and is aligned down to 16, so the stack pointer above it
is 8 off a multiple of 16.
-/

namespace CrapOs

open Foundation

def taskEntryStub : List Instr := [.sti, .mov .rdi .r13]

def atCall (c : Cpu) : Cpu := Cpu.run taskEntryStub 0 (Cpu.run switchTo 0 c)

namespace Task

variable {sym : Symbols} {entry arg stack : Nat} {thread : ThreadId} {m : Mem}

def kernelFrame (sym : Symbols) (entry arg : Nat) : KernelInitialFrame :=
  ⟨0, 0, arg, entry, 0, 0, sym.taskEntryStub⟩

theorem kernelFramePtr_eq (h : stack + taskStackSize < 2 ^ 64) :
    kernelFramePtr stack = 16 * ((stack + taskStackSize) / 16) - 64 := by
  have htop : stackTop stack = 16 * ((stack + taskStackSize) / 16) := by
    rw [stackTop, wrap64_of_lt h]
    exact and_not64_lowMask (k := 4) h (by decide)
  have hptr : kernelFramePtr stack = 16 * ((stackTop stack - KernelInitialFrame.size) / 16) := by
    refine and_not64_lowMask (k := 4) ?_ (by decide)
    omega
  rw [hptr, htop]
  simp only [taskStackSize, KernelInitialFrame.size]
  omega

theorem kernelFramePtr_bounds (h : stack + taskStackSize < 2 ^ 64) :
    stack ≤ kernelFramePtr stack ∧
      kernelFramePtr stack + KernelInitialFrame.size ≤ stack + taskStackSize := by
  rw [kernelFramePtr_eq h]
  simp only [taskStackSize, KernelInitialFrame.size]
  omega

theorem newKernel_agreeOn (h : stack + taskStackSize < 2 ^ 64) {b n : Nat}
    (hout : stack + taskStackSize ≤ b ∨ b + n ≤ stack) :
    Mem.AgreeOn m (newKernel sym entry arg thread stack m).2 b n := by
  obtain ⟨hlow, hhigh⟩ := kernelFramePtr_bounds h
  refine (m.clear_agreeOn hout).trans (Mem.writeWords_agreeOn _ ?_)
  show kernelFramePtr stack + KernelInitialFrame.size ≤ b ∨ b + n ≤ kernelFramePtr stack
  omega

theorem newKernel_word (hentry : entry < 2 ^ 64) (harg : arg < 2 ^ 64) {k : Nat} (hk : k < 7) :
    (newKernel sym entry arg thread stack m).2.read64 (kernelFramePtr stack + 8 * k) =
      (kernelFrame sym entry arg).words[k] := by
  refine Mem.read64_writeWords _ _ (fun w hw => ?_) hk
  have hcases : w = 0 ∨ w = arg ∨ w = entry ∨ w = sym.taskEntryStub := by
    have hmem : w ∈ [0, 0, arg, entry, 0, 0, sym.taskEntryStub] := hw
    simp only [List.mem_cons, List.not_mem_nil, or_false] at hmem
    tauto
  rcases hcases with rfl | rfl | rfl | rfl
  · decide
  · exact harg
  · exact hentry
  · exact sym.taskStub_lt

end Task

/-- The processor calls `switch_to` for the first time into a task of `new_kernel`, whose frame is
as it was written. -/
structure FirstSwitch (sym : Symbols) (entry arg : Nat) (thread : ThreadId) (stack : Nat) (m : Mem)
    (c : Cpu) : Prop where
  rsi : c.regs .rsi = (Task.newKernel sym entry arg thread stack m).1.savedRsp
  frame : Mem.AgreeOn (Task.newKernel sym entry arg thread stack m).2 c.mem
    (c.regs .rsi) KernelInitialFrame.size
  apart : SavesApart c (c.regs .rsi) KernelInitialFrame.size

namespace FirstSwitch

variable {sym : Symbols} {entry arg stack : Nat} {thread : ThreadId} {m : Mem} {c : Cpu}

theorem saved_word (h : FirstSwitch sym entry arg thread stack m c) (hentry : entry < 2 ^ 64)
    (harg : arg < 2 ^ 64) {k : Nat} (hk : k < 7) :
    (Cpu.run saveContext 0 c).mem.read64 (c.regs .rsi + 8 * k) =
      (Task.kernelFrame sym entry arg).words[k] := by
  obtain ⟨-, hagree⟩ := run_saveContext h.apart
  have hkept := h.frame.trans hagree
  refine (Mem.read64_congr (hkept.mono (by omega) ?_)).trans ?_
  · simp only [KernelInitialFrame.size]
    omega
  · rw [h.rsi]
    exact Task.newKernel_word hentry harg hk

theorem rsi_lt (h : FirstSwitch sym entry arg thread stack m c) (hstack : stack + taskStackSize < 2 ^ 64) :
    (Cpu.run saveContext 0 c).regs .rsi + 56 < 2 ^ 64 := by
  obtain ⟨-, hhigh⟩ := Task.kernelFramePtr_bounds hstack
  rw [run_saveContext_rsi, h.rsi]
  exact Nat.lt_of_le_of_lt hhigh hstack

theorem switched_reg (h : FirstSwitch sym entry arg thread stack m c)
    (hstack : stack + taskStackSize < 2 ^ 64) (hentry : entry < 2 ^ 64) (harg : arg < 2 ^ 64) {k : Nat}
    (hk : k < poppedRegs.length) :
    (Cpu.run switchTo 0 c).regs poppedRegs[k] =
      (Task.kernelFrame sym entry arg).words.get ⟨k, Nat.lt_succ_of_lt hk⟩ := by
  rw [run_switchTo_eq, run_restoreContext_reg (h.rsi_lt hstack) hk, run_saveContext_rsi]
  exact h.saved_word hentry harg (Nat.lt_succ_of_lt hk)

theorem rsp_at_call (h : FirstSwitch sym entry arg thread stack m c)
    (hstack : stack + taskStackSize < 2 ^ 64) :
    (atCall c).regs .rsp = 16 * ((stack + taskStackSize) / 16) - 8 := by
  obtain ⟨-, -, hrsp, -⟩ := run_restoreContext (h.rsi_lt hstack)
  have hstub : (atCall c).regs .rsp = (Cpu.run switchTo 0 c).regs .rsp := rfl
  rw [hstub, run_switchTo_eq, hrsp, run_saveContext_rsi, h.rsi]
  show Task.kernelFramePtr stack + 56 = _
  rw [Task.kernelFramePtr_eq hstack]
  simp only [taskStackSize]
  omega

end FirstSwitch

/-- The first switch into a kernel task reaches the call with the entry function in R12, the
argument in RDI and zero in RBP, and all of it is written to and read from the stack allocation. The
stack pointer is 8 more than a multiple of 16 there, whatever the address of the stack is. -/
theorem first_switch_calls_entry {sym : Symbols} {entry arg stack : Nat} {thread : ThreadId} {m : Mem}
    {c : Cpu} (hstack : stack + taskStackSize < 2 ^ 64) (hentry : entry < 2 ^ 64) (harg : arg < 2 ^ 64)
    (h : FirstSwitch sym entry arg thread stack m c) :
    ((Cpu.run switchTo 0 c).rip = sym.taskEntryStub ∧
      (atCall c).regs .r12 = entry ∧ (atCall c).regs .rdi = arg ∧ (atCall c).regs .rbp = 0) ∧
    ((∀ b n, stack + taskStackSize ≤ b ∨ b + n ≤ stack →
        Mem.AgreeOn m (Task.newKernel sym entry arg thread stack m).2 b n) ∧
      stack ≤ c.regs .rsi ∧ c.regs .rsi + KernelInitialFrame.size ≤ stack + taskStackSize ∧
      Cpu.Along (Cpu.Uses (fun a => stack ≤ a ∧ a + 8 ≤ stack + taskStackSize) fun _ => True)
        restoreContext 0 (Cpu.run saveContext 0 c)) ∧
    (atCall c).regs .rsp % 16 = 8 := by
  obtain ⟨hlow, hhigh⟩ := Task.kernelFramePtr_bounds hstack
  have hrsi : c.regs .rsi = Task.kernelFramePtr stack := h.rsi
  have hlt := h.rsi_lt hstack
  refine ⟨⟨?_, ?_, ?_, ?_⟩, ⟨fun b n => Task.newKernel_agreeOn hstack, hrsi ▸ hlow, hrsi ▸ hhigh, ?_⟩, ?_⟩
  · rw [run_switchTo_eq, (run_restoreContext hlt).1, run_saveContext_rsi]
    exact h.saved_word hentry harg (k := 6) (by decide)
  · exact h.switched_reg hstack hentry harg (k := 3) (by decide)
  · exact h.switched_reg hstack hentry harg (k := 2) (by decide)
  · exact h.switched_reg hstack hentry harg (k := 5) (by decide)
  · rw [run_saveContext_rsi] at hlt
    refine along_restoreContext (by rwa [run_saveContext_rsi]) (fun a hle hge => ?_)
      fun _ => trivial
    rw [run_saveContext_rsi, hrsi] at hle hge
    simp only [KernelInitialFrame.size] at hhigh
    omega
  · rw [h.rsp_at_call hstack]
    simp only [taskStackSize]
    omega

def sampleFirstSwitch : Cpu where
  regs
    | .rsp => 0x10000
    | .rdi => 0x900
    | .rsi => 0x23fc0
    | _ => 0
  rip := 0
  cs := 8
  rflags := 2
  ss := 0
  zf := false
  cr3 := 0x1000
  mem := (Task.newKernel Processor.sampleSymbols 0x1234 7 1 0x20000 fun _ => 0).2

theorem sampleFirstSwitch_first :
    FirstSwitch Processor.sampleSymbols 0x1234 7 1 0x20000 (fun _ => 0) sampleFirstSwitch where
  rsi := by decide +kernel
  frame := .refl _ _ _
  apart := ⟨by decide, by decide, by decide, by decide⟩

theorem first_switch_calls_entry_sample :
    FirstSwitch Processor.sampleSymbols 0x1234 7 1 0x20000 (fun _ => 0) sampleFirstSwitch ∧
      (atCall sampleFirstSwitch).regs .r12 = 0x1234 ∧ (atCall sampleFirstSwitch).regs .rdi = 7 :=
  have hreach := (first_switch_calls_entry (by decide) (by decide) (by decide) sampleFirstSwitch_first).1
  ⟨sampleFirstSwitch_first, hreach.2.1, hreach.2.2.1⟩

theorem entry_called_misaligned :
    FirstSwitch Processor.sampleSymbols 0x1234 7 1 0x20000 (fun _ => 0) sampleFirstSwitch ∧
      (atCall sampleFirstSwitch).regs .rsp = 0x23ff8 ∧ ¬ 16 ∣ (atCall sampleFirstSwitch).regs .rsp := by
  have hrsp : (atCall sampleFirstSwitch).regs .rsp = 0x23ff8 :=
    sampleFirstSwitch_first.rsp_at_call (by decide)
  exact ⟨sampleFirstSwitch_first, hrsp, by rw [hrsp]; decide⟩

end CrapOs
