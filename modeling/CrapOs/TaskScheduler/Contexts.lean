import CrapOs.Foundation.PagedMachine
import CrapOs.TaskScheduler.Switcher

/-! # Suspended tasks

Any number of tasks on one processor, switched by `switch_to`. The frame of a
suspended task is the 48 bytes of registers and the return address above them;
whatever runs in between, on whatever page tables, leaves these 56 bytes alone,
and so the switch back finds what the switch away has saved.
-/

namespace CrapOs

open Foundation

def frameBottom (c : Cpu) : Nat := c.regs .rsp - 48

def returnAddress (c : Cpu) : Nat := c.mem.read64 (c.regs .rsp)

/-- The memory holds the frame of a task that called `switch_to` in the state `c`. -/
structure HoldsFrame (m : Mem) (c : Cpu) : Prop where
  room : 48 ≤ c.regs .rsp
  reg : ∀ (k : Nat) (hk : k < poppedRegs.length),
    m.read64 (frameBottom c + 8 * k) = c.regs poppedRegs[k]
  ret : m.read64 (frameBottom c + 48) = returnAddress c

theorem HoldsFrame.agree {m m' : Mem} {c : Cpu} (h : HoldsFrame m c)
    (hagree : Mem.AgreeOn m m' (frameBottom c) 56) : HoldsFrame m' c where
  room := h.room
  reg k hk := by
    have hlen : k < 6 := hk
    rw [Mem.read64_congr (hagree.mono (by omega) (by omega)), h.reg k hk]
  ret := by rw [Mem.read64_congr (hagree.mono (by omega) (by omega)), h.ret]

section Flat

variable {c : Cpu}

/-- The outgoing task: its frame is complete and its stack pointer is stored. -/
theorem saveContext_frame (hroom : 48 ≤ c.regs .rsp) (hregs : ∀ r, c.regs r < 2 ^ 64)
    (hslot : c.regs .rdi + 8 ≤ frameBottom c ∨ c.regs .rsp + 8 ≤ c.regs .rdi) :
    HoldsFrame (Cpu.run saveContext 0 c).mem c ∧
      (Cpu.run saveContext 0 c).mem.read64 (c.regs .rdi) = frameBottom c := by
  have hlt := hregs .rsp
  have hrdi := Cpu.run_regs (pushedRegs.map .push) (r := .rdi) (by decide) (by decide) 0 c
  have hrsp : _ = frameBottom c := Cpu.run_pushes_rsp pushedRegs hroom hlt
  obtain ⟨-, hret⟩ := Cpu.run_pushes pushedRegs hroom hlt (a := c.regs .rsp) (n := 8) (.inl (Nat.le_refl _))
  have hword (k : Nat) (hk : k < pushedRegs.length) := Cpu.run_pushes_word pushedRegs (by decide) hroom hlt
    hregs hk
  rw [saveContext_eq, Cpu.run_append (by decide)]
  obtain ⟨c1, hc1⟩ : ∃ c1, Cpu.run (pushedRegs.map .push) 0 c = c1 := ⟨_, rfl⟩
  rw [hc1] at hrdi hrsp hret ⊢
  simp only [hc1] at hword
  have hmem : (Cpu.run [.store .rdi .rsp] 0 c1).mem = c1.mem.write64 (c.regs .rdi) (frameBottom c) := by
    show c1.mem.write64 (c1.regs .rdi) (c1.regs .rsp) = _
    rw [hrdi, hrsp]
  have hbottom : frameBottom c + 48 = c.regs .rsp := Nat.sub_add_cancel hroom
  rw [hmem]
  refine ⟨⟨hroom, fun k hk => ?_, ?_⟩, ?_⟩
  · have hlen : k < 6 := hk
    rw [Mem.read64_write64_disjoint _ (by omega)]
    have hsource : poppedRegs[k] = pushedRegs.get ⟨5 - k, Nat.lt_succ_of_le (Nat.sub_le 5 k)⟩ := by
      revert k
      decide
    have haddr : frameBottom c + 8 * k = c.regs .rsp - 8 * (5 - k + 1) := by omega
    rw [haddr]
    exact (hword (5 - k) _).trans (congrArg c.regs hsource.symm)
  · rw [Mem.read64_write64_disjoint _ (by omega), hbottom, Mem.read64_congr hret]
    rfl
  · exact Mem.read64_write64_same _ _ (by omega)

theorem restoreContext_frame {c0 : Cpu} (hframe : HoldsFrame c.mem c0) (hrsi : c.regs .rsi = frameBottom c0)
    (hlt : c.regs .rsi + 56 < 2 ^ 64) :
    (∀ r ∈ pushedRegs, (Cpu.run restoreContext 0 c).regs r = c0.regs r) ∧
      (Cpu.run restoreContext 0 c).regs .rsp = c0.regs .rsp + 8 ∧
      (Cpu.run restoreContext 0 c).rip = returnAddress c0 := by
  obtain ⟨hrip, -, hrsp, -⟩ := run_restoreContext hlt
  have hbottom : frameBottom c0 + 48 = c0.regs .rsp := Nat.sub_add_cancel hframe.room
  refine ⟨fun r hr => ?_, ?_, ?_⟩
  · have hpopped : r ∈ poppedRegs := by
      revert r
      decide
    obtain ⟨k, hk, rfl⟩ := List.mem_iff_getElem.mp hpopped
    rw [run_restoreContext_reg hlt hk, hrsi]
    exact hframe.reg k hk
  · rw [hrsp, hrsi, ← hbottom]
  · rw [hrip, hrsi]
    exact hframe.ret

end Flat

/-- One processor and its tasks. A suspended task is known by the state in which it called
`switch_to`. -/
structure TaskContexts (ι : Type) where
  cpu : Cpu
  current : ι
  suspended : ι → Option Cpu

namespace TaskContexts

variable {ι : Type} [DecidableEq ι] (spaces K : Nat → Prop) [DecidablePred K] (phys : Nat → Nat)

/-- The current task calls `switch_to` to get to `next`, with the saved stack pointer of that task
if it is suspended. The stacks are mapped alike in the address spaces before and after, and the
call writes to no suspended frame. -/
structure Calls (tr : Translation) (next : ι) (σ : TaskContexts ι) : Prop where
  mapped : MappedAlike tr spaces K phys
  cr3 : spaces σ.cpu.cr3
  newCr3 : σ.cpu.regs .rdx ≠ 0 → spaces (σ.cpu.regs .rdx)
  regs_lt : ∀ r, σ.cpu.regs r < 2 ^ 64
  room : 48 ≤ σ.cpu.regs .rsp
  stack : ∀ a, frameBottom σ.cpu ≤ a → a < σ.cpu.regs .rsp + 8 → K a
  slot : WordIn K (σ.cpu.regs .rdi)
  slot_apart : σ.cpu.regs .rdi + 8 ≤ frameBottom σ.cpu ∨ σ.cpu.regs .rsp + 8 ≤ σ.cpu.regs .rdi
  frame : ∀ a, σ.cpu.regs .rsi ≤ a → a < σ.cpu.regs .rsi + 56 → K a
  frame_lt : σ.cpu.regs .rsi + 56 < 2 ^ 64
  saved : ∀ c, σ.suspended next = some c → σ.cpu.regs .rsi = frameBottom c
  spares : ∀ i c, σ.suspended i = some c → SavesApart σ.cpu (frameBottom c) 56

/-- A call of `switch_to`, or anything else that leaves the suspended frames as they are. -/
inductive Step : TaskContexts ι → TaskContexts ι → Prop
  | switch {σ : TaskContexts ι} {tr : Translation} {next : ι} {cpu : Cpu} :
      Calls spaces K phys tr next σ → Cpu.runVia tr switchTo 0 σ.cpu = some cpu →
      Step σ ⟨cpu, next,
        Function.update (Function.update σ.suspended σ.current (some (σ.cpu.seen K phys))) next none⟩
  | other {σ : TaskContexts ι} {cpu : Cpu} :
      (∀ i c, σ.suspended i = some c →
        Mem.AgreeOn (σ.cpu.mem.seen K phys) (cpu.mem.seen K phys) (frameBottom c) 56) →
      Step σ { σ with cpu := cpu }

def Reached (σ : TaskContexts ι) : Prop :=
  Reach (fun σ => ∀ i, σ.suspended i = none) (Step spaces K phys) σ

variable {spaces K : Nat → Prop} [DecidablePred K] {phys : Nat → Nat} {σ σ' : TaskContexts ι}
  {tr : Translation} {next : ι}

omit [DecidableEq ι] in
theorem Calls.run (h : Calls spaces K phys tr next σ) : ∃ cpu,
    Cpu.runVia tr switchTo 0 σ.cpu = some cpu ∧
      cpu.seen K phys = Cpu.run restoreContext 0 (Cpu.run saveContext 0 (σ.cpu.seen K phys)) ∧
      cpu.mem.seen K phys = (Cpu.run saveContext 0 (σ.cpu.seen K phys)).mem := by
  have hrsi := run_saveContext_rsi (σ.cpu.seen K phys)
  have hlt : (Cpu.run saveContext 0 (σ.cpu.seen K phys)).regs .rsi + 56 < 2 ^ 64 := by
    rw [hrsi]
    exact h.frame_lt
  have hsave : Cpu.Along (Cpu.Uses (WordIn K) spaces) saveContext 0 (σ.cpu.seen K phys) := by
    refine along_saveContext h.room (h.regs_lt .rsp) (fun a hlow hhigh k hk => ?_) h.slot
    rw [Cpu.seen_regs] at hhigh
    exact h.stack _ (Nat.le_add_right_of_le hlow) (by omega)
  have hrestore : Cpu.Along (Cpu.Uses (WordIn K) spaces) restoreContext 0
      (Cpu.run saveContext 0 (σ.cpu.seen K phys)) := by
    refine along_restoreContext hlt (fun a hlow hhigh k hk => ?_) ?_
    · rw [hrsi, Cpu.seen_regs] at hlow hhigh
      exact h.frame _ (Nat.le_add_right_of_le hlow) (by omega)
    · rw [run_saveContext_rdx]
      exact h.newCr3
  obtain ⟨cpu, hrun, hseen, -⟩ :=
    Cpu.runVia_seen h.mapped h.cr3 (Cpu.along_append (by decide) hsave hrestore)
  have hflat := hseen.trans (run_switchTo_eq _)
  exact ⟨cpu, hrun, hflat, (congrArg Cpu.mem hflat).trans (run_restoreContext hlt).2.2.2⟩

def Holds (K : Nat → Prop) [DecidablePred K] (phys : Nat → Nat) (σ : TaskContexts ι) : Prop :=
  ∀ i c, σ.suspended i = some c → HoldsFrame (σ.cpu.mem.seen K phys) c

omit [DecidableEq ι] in
theorem Calls.saved_frames (h : Calls spaces K phys tr next σ) (hinv : σ.Holds K phys) :
    (∀ i c, σ.suspended i = some c →
      HoldsFrame (Cpu.run saveContext 0 (σ.cpu.seen K phys)).mem c) ∧
    HoldsFrame (Cpu.run saveContext 0 (σ.cpu.seen K phys)).mem (σ.cpu.seen K phys) ∧
    (Cpu.run saveContext 0 (σ.cpu.seen K phys)).mem.read64 (σ.cpu.regs .rdi) = frameBottom σ.cpu := by
  refine ⟨fun i c hi => ?_, saveContext_frame h.room h.regs_lt h.slot_apart⟩
  obtain ⟨hroom, hlt, hstack, hslot⟩ := h.spares i c hi
  obtain ⟨-, hagree⟩ := run_saveContext (c := σ.cpu.seen K phys) ⟨hroom, hlt, hstack, hslot⟩
  exact (hinv i c hi).agree hagree

theorem holds_step (hinv : σ.Holds K phys) (hstep : Step spaces K phys σ σ') : σ'.Holds K phys := by
  cases hstep with
  | @switch tr next cpu hcall hrun =>
    obtain ⟨cpu', hrun', -, hmem⟩ := hcall.run
    cases hrun.symm.trans hrun'
    obtain ⟨hothers, hown, -⟩ := hcall.saved_frames hinv
    intro i c hi
    show HoldsFrame (cpu.mem.seen K phys) c
    rw [hmem]
    -- the task switched to is not suspended any more
    dsimp only at hi
    rw [Function.update_apply] at hi
    split at hi
    · cases hi
    · rw [Function.update_apply] at hi
      split at hi
      · cases hi
        exact hown
      · exact hothers i c hi
  | other hspares => exact fun i c hi => (hinv i c hi).agree (hspares i c hi)

theorem Reached.holds (h : σ.Reached spaces K phys) : σ.Holds K phys := by
  refine h.invariant (Holds K phys) ?_ fun _ _ => holds_step
  intro σ hnone i c hi
  rw [hnone i] at hi
  cases hi

/-- A task that is resumed gets back the six registers, the stack pointer and the return address it
had when it called `switch_to`, whatever has been switched to since. And what every call stores
is what it takes to be resumed. -/
theorem resumed_as_suspended (h : σ.Reached spaces K phys) {c : Cpu} (hc : σ.suspended next = some c)
    (hcall : Calls spaces K phys tr next σ) : ∃ cpu, Cpu.runVia tr switchTo 0 σ.cpu = some cpu ∧
      (∀ r ∈ pushedRegs, cpu.regs r = c.regs r) ∧ cpu.regs .rsp = c.regs .rsp + 8 ∧
      cpu.rip = returnAddress c ∧
      (cpu.mem.seen K phys).read64 (σ.cpu.regs .rdi) = frameBottom σ.cpu := by
  obtain ⟨hothers, -, hslot⟩ := hcall.saved_frames h.holds
  obtain ⟨cpu, hrun, hseen, hmem⟩ := hcall.run
  have hlt := hcall.frame_lt
  have hrsi : (Cpu.run saveContext 0 (σ.cpu.seen K phys)).regs .rsi = σ.cpu.regs .rsi :=
    run_saveContext_rsi _
  obtain ⟨hregs, hrsp, hrip⟩ := restoreContext_frame (hothers next c hc) (hrsi.trans (hcall.saved c hc)) hlt
  rw [← hseen] at hregs hrsp hrip
  exact ⟨cpu, hrun, hregs, hrsp, hrip, hmem ▸ hslot⟩

/-- The first megabyte is the kernel's in every address space, the rest is private. -/
def sampleTranslation : Translation := fun cr3 a => some (if a < 0x100000 then a else cr3 + a)

theorem sampleTranslation_alike :
    MappedAlike sampleTranslation (fun _ => True) (fun a => a < 0x100000) id where
  alike cr3 _ a ha := by rw [sampleTranslation, if_pos ha, id]
  apart _ _ _ _ heq := heq

def sampleCaller (rsp rsi rbx : Nat) (mem : Mem) : Cpu where
  regs
    | .rsp => rsp
    | .rdi => 0x900
    | .rsi => rsi
    | .rdx => 0x5000
    | .rbx => rbx
    | _ => 0
  rip := 0
  cs := 8
  rflags := 2
  ss := 0
  zf := false
  cr3 := 0x4000
  mem := mem

omit [DecidableEq ι] in
theorem sampleCaller_calls {rsp rsi rbx : Nat} {mem : Mem} {current next : ι}
    {suspended : ι → Option Cpu} (hrsp : 0x1000 ≤ rsp ∧ rsp < 0x80000) (hrsi : rsi < 0x80000)
    (hrbx : rbx < 2 ^ 64)
    (hsaved : ∀ c, suspended next = some c → rsi = frameBottom c)
    (hspares : ∀ i c, suspended i = some c → 0x1000 ≤ frameBottom c ∧
      (rsp ≤ frameBottom c ∨ frameBottom c + 56 ≤ rsp - 48)) :
    Calls (fun _ => True) (fun a => a < 0x100000) id sampleTranslation next
      ⟨sampleCaller rsp rsi rbx mem, current, suspended⟩ where
  mapped := sampleTranslation_alike
  cr3 := trivial
  newCr3 _ := trivial
  regs_lt r := by
    have hregs : (sampleCaller rsp rsi rbx mem).regs r ∈ [rsp, 0x900, rsi, 0x5000, rbx, 0] := by
      cases r <;> simp [sampleCaller]
    simp only [List.mem_cons, List.not_mem_nil, or_false] at hregs
    show (sampleCaller rsp rsi rbx mem).regs r < 2 ^ 64
    omega
  room := Nat.le_trans (by decide) hrsp.1
  stack a _ ha := by
    change a < rsp + 8 at ha
    show a < 0x100000
    omega
  slot k hk := by
    show 0x900 + k < 0x100000
    omega
  slot_apart := by
    show 0x900 + 8 ≤ rsp - 48 ∨ rsp + 8 ≤ 0x900
    omega
  frame a _ ha := by
    change a < rsi + 56 at ha
    show a < 0x100000
    omega
  frame_lt := by
    show rsi + 56 < 2 ^ 64
    omega
  saved := hsaved
  spares i c hi := by
    obtain ⟨hlow, hstack⟩ := hspares i c hi
    refine ⟨Nat.le_trans (by decide) hrsp.1, ?_, hstack, ?_⟩
    · show rsp < 2 ^ 64
      omega
    · show 0x900 + 8 ≤ frameBottom c ∨ _
      omega

/-- Task `true` switches to `false`, on another stack, and is switched back to. -/
theorem resumed_as_suspended_pair : ∃ (σ : TaskContexts Bool) (c cpu : Cpu),
    σ.Reached (fun _ => True) (fun a => a < 0x100000) id ∧ σ.suspended true = some c ∧
      c.regs .rbx = 7 ∧ Cpu.runVia sampleTranslation switchTo 0 σ.cpu = some cpu ∧
      cpu.regs .rbx = 7 ∧ cpu.regs .rsp = 0x10008 := by
  obtain ⟨first, hfirst⟩ : ∃ first, first = sampleCaller 0x10000 0x20000 7 fun _ => 0 := ⟨_, rfl⟩
  have haway : Calls (fun _ => True) (fun a => a < 0x100000) id sampleTranslation false
      ⟨first, true, fun _ => none⟩ := by
    rw [hfirst]
    exact sampleCaller_calls (by decide) (by decide) (by decide) (fun c hc => by cases hc)
      fun i c hc => by cases hc
  obtain ⟨cpu, hrun, -⟩ := haway.run
  have hstart : Reached (fun _ => True) (fun a => a < 0x100000) id
      (⟨first, true, fun _ => none⟩ : TaskContexts Bool) := .start fun _ => rfl
  obtain ⟨suspended, hsuspended⟩ : ∃ s : Bool → Option Cpu, s = Function.update (Function.update
    (fun _ => none) true (some (first.seen (fun a => a < 0x100000) id))) false none := ⟨_, rfl⟩
  have hswitched : Reached (fun _ => True) (fun a => a < 0x100000) id
      (⟨cpu, false, suspended⟩ : TaskContexts Bool) := by
    rw [hsuspended]
    exact hstart.step (.switch haway hrun)
  have hframe (i : Bool) (c : Cpu) (hi : suspended i = some c) : c.regs = first.regs := by
    rw [hsuspended] at hi
    cases i with
    | false => cases hi
    | true =>
      cases hi
      rfl
  have hbottom (i : Bool) (c : Cpu) (hi : suspended i = some c) : frameBottom c = 0xffd0 := by
    rw [frameBottom, hframe i c hi, hfirst]
    rfl
  -- the other task does something on its own stack and switches back
  have hreached : Reached (fun _ => True) (fun a => a < 0x100000) id
      (⟨sampleCaller 0x20100 0xffd0 0 cpu.mem, false, suspended⟩ : TaskContexts Bool) :=
    hswitched.step (.other fun i c _ => .refl _ _ _)
  have htrue : suspended true = some (first.seen (fun a => a < 0x100000) id) := by
    rw [hsuspended]
    rfl
  have hback : Calls (fun _ => True) (fun a => a < 0x100000) id sampleTranslation true
      (⟨sampleCaller 0x20100 0xffd0 0 cpu.mem, false, suspended⟩ : TaskContexts Bool) := by
    refine sampleCaller_calls (by decide) (by decide) (by decide) ?_ fun i c hi => ?_
    · intro c hc
      exact (hbottom true c hc).symm
    · rw [hbottom i c hi]
      decide
  obtain ⟨cpu', hrun', hregs, hrsp, -⟩ := resumed_as_suspended hreached htrue hback
  have hrbx : (first.seen (fun a => a < 0x100000) id).regs .rbx = 7 := by
    rw [hfirst]
    rfl
  refine ⟨_, _, cpu', hreached, htrue, hrbx, hrun', (hregs .rbx (by decide)).trans hrbx, ?_⟩
  rw [hrsp, hfirst]
  rfl

end TaskContexts

end CrapOs
