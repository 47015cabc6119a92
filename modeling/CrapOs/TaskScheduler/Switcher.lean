import CrapOs.TaskScheduler.Scheduler

/-! # The context switch

`switch_to` instruction by instruction, and the stub a user task runs into the
first time it is switched to.
-/

namespace CrapOs

open Foundation

/-- The six registers go to the outgoing stack, the stack pointer to `*old_rsp_ptr`. -/
def saveContext : List Instr :=
  [.push .rbp, .push .rbx, .push .r12, .push .r13, .push .r14, .push .r15, .store .rdi .rsp]

/-- The incoming stack, its page tables unless they are zero, its registers. -/
def restoreContext : List Instr :=
  [.mov .rsp .rsi, .test .rdx .rdx, .jz 1, .movCr3 .rdx,
    .pop .r15, .pop .r14, .pop .r13, .pop .r12, .pop .rbx, .pop .rbp, .ret]

def switchTo : List Instr := saveContext ++ restoreContext

def userTaskEntryStub : List Instr := [.sti, .iretq]

def pushedRegs : List Reg := [.rbp, .rbx, .r12, .r13, .r14, .r15]

def poppedRegs : List Reg := [.r15, .r14, .r13, .r12, .rbx, .rbp]

/-- The call `switch_to(old_rsp_ptr, new_rsp, new_cr3)` is about to run. -/
structure CalledWith (args : SwitchArgs) (c : Cpu) : Prop where
  rdi : c.regs .rdi = args.oldRspPtr
  rsi : c.regs .rsi = args.newRsp
  rdx : c.regs .rdx = args.newCr3

def switchIn (sym : Symbols) (c : Cpu) : Cpu :=
  let c := Cpu.run switchTo 0 c
  if c.rip = sym.userTaskEntryStub then Cpu.run userTaskEntryStub 0 c else c

def CallerSaved (r : Reg) : Prop :=
  r ∈ [.rax, .rcx, .rdx, .rsi, .rdi, .r8, .r9, .r10, .r11]

instance (r : Reg) : Decidable (CallerSaved r) := inferInstanceAs (Decidable (r ∈ _))

variable {sym : Symbols} {c : Cpu} {r : Reg}

theorem switchIn_callerSaved (sym : Symbols) (c : Cpu) (hr : CallerSaved r) :
    (switchIn sym c).regs r = c.regs r := by
  have hsp : r ≠ .rsp := by
    rintro rfl
    revert hr
    decide
  have hswitch : ∀ i ∈ switchTo, i.target ≠ some r := by
    revert hr
    cases r <;> decide
  have hstub : ∀ i ∈ userTaskEntryStub, i.target ≠ some r := by
    cases r <;> decide
  have hrun := Cpu.run_regs _ hsp hswitch 0 c
  unfold switchIn
  simp only
  split
  · exact (Cpu.run_regs _ hsp hstub 0 _).trans hrun
  · exact hrun

/-! ## Into a waiting frame -/

structure SavesApart (c : Cpu) (a n : Nat) : Prop where
  room : 48 ≤ c.regs .rsp
  rsp_lt : c.regs .rsp < 2 ^ 64
  stack : c.regs .rsp ≤ a ∨ a + n ≤ c.regs .rsp - 48
  slot : c.regs .rdi + 8 ≤ a ∨ a + n ≤ c.regs .rdi

theorem saveContext_eq : saveContext = pushedRegs.map .push ++ [.store .rdi .rsp] := rfl

theorem run_switchTo_eq (c : Cpu) :
    Cpu.run switchTo 0 c = Cpu.run restoreContext 0 (Cpu.run saveContext 0 c) :=
  Cpu.run_append (by decide) _ _

theorem run_saveContext_rsi (c : Cpu) : (Cpu.run saveContext 0 c).regs .rsi = c.regs .rsi :=
  Cpu.run_regs _ (by decide) (by decide) 0 c

theorem run_saveContext_rdx (c : Cpu) : (Cpu.run saveContext 0 c).regs .rdx = c.regs .rdx :=
  Cpu.run_regs _ (by decide) (by decide) 0 c

theorem run_saveContext {a n : Nat} (h : SavesApart c a n) :
    (Cpu.run saveContext 0 c).cr3 = c.cr3 ∧ Mem.AgreeOn c.mem (Cpu.run saveContext 0 c).mem a n := by
  obtain ⟨hcr3, hagree⟩ := Cpu.run_pushes pushedRegs h.room h.rsp_lt h.stack
  have hrdi := Cpu.run_regs (pushedRegs.map .push) (r := .rdi) (by decide) (by decide) 0 c
  rw [saveContext_eq, Cpu.run_append (by decide)]
  obtain ⟨c1, hc1⟩ : ∃ c1, Cpu.run (pushedRegs.map .push) 0 c = c1 := ⟨_, rfl⟩
  rw [hc1] at hcr3 hagree hrdi ⊢
  refine ⟨hcr3, hagree.trans ?_⟩
  show Mem.AgreeOn c1.mem (c1.mem.write64 (c1.regs .rdi) (c1.regs .rsp)) a n
  rw [hrdi]
  exact c1.mem.write64_agreeOn h.slot

theorem along_saveContext {A S : Nat → Prop} (hroom : 48 ≤ c.regs .rsp) (hlt : c.regs .rsp < 2 ^ 64)
    (hstack : ∀ a, c.regs .rsp - 48 ≤ a → a + 8 ≤ c.regs .rsp → A a) (hslot : A (c.regs .rdi)) :
    Cpu.Along (Cpu.Uses A S) saveContext 0 c := by
  have hlen : pushedRegs.length = 6 := rfl
  rw [saveContext_eq]
  refine Cpu.along_append (by decide) ?_ ⟨⟨fun a ha => ?_, by simp⟩, trivial⟩
  · refine Cpu.along_pushes _ hroom hlt fun c' src hlow hhigh => ⟨fun a ha => ?_, by simp⟩
    rw [Instr.accesses, Cpu.below_eq (by omega) (by omega), List.mem_singleton] at ha
    exact hstack a (by omega) (by omega)
  · rw [Instr.accesses, Cpu.run_regs _ (by decide) (by decide), List.mem_singleton] at ha
    rw [ha]
    exact hslot

theorem restoreContext_pops (c : Cpu) : ∃ c1 : Cpu,
    (Cpu.run restoreContext 0 c = Cpu.run (poppedRegs.map .pop ++ [.ret]) 0 c1 ∧
      ∀ A S : Nat → Prop, (c.regs .rdx ≠ 0 → S (c.regs .rdx)) →
        Cpu.Along (Cpu.Uses A S) (poppedRegs.map .pop ++ [.ret]) 0 c1 →
          Cpu.Along (Cpu.Uses A S) restoreContext 0 c) ∧
    c1.mem = c.mem ∧ c1.regs .rsp = c.regs .rsi ∧
      c1.cr3 = if c.regs .rdx = 0 then c.cr3 else c.regs .rdx := by
  have huses {A S : Nat → Prop} {c : Cpu} {i : Instr} (hi : i.accesses c = [])
      (hcr3 : ∀ src, i = .movCr3 src → S (c.regs src)) : Cpu.Uses A S c i :=
    ⟨by rw [hi]; exact fun a ha => absurd ha List.not_mem_nil, hcr3⟩
  by_cases hzero : c.regs .rdx = 0
  · have hzf : ((c.step (.mov .rsp .rsi)).step (.test .rdx .rdx)).zf = true := by
      simp [Cpu.step, hzero]
    refine ⟨(c.step (.mov .rsp .rsi)).step (.test .rdx .rdx), ⟨?_, fun A S _ hpops => ?_⟩, rfl, rfl, ?_⟩
    · simp [restoreContext, poppedRegs, Cpu.run, hzf]
    · refine ⟨huses rfl (by simp), huses rfl (by simp), huses rfl (by simp), ?_⟩
      rw [hzf]
      exact hpops
    · rw [if_pos hzero]
      rfl
  · have hzf : ((c.step (.mov .rsp .rsi)).step (.test .rdx .rdx)).zf = false := by
      simp [Cpu.step, hzero]
    refine ⟨((c.step (.mov .rsp .rsi)).step (.test .rdx .rdx)).step (.movCr3 .rdx),
      ⟨?_, fun A S hcr3 hpops => ?_⟩, rfl, rfl, ?_⟩
    · simp [restoreContext, poppedRegs, Cpu.run, hzf]
    · refine ⟨huses rfl (by simp), huses rfl (by simp), huses rfl (by simp), ?_⟩
      rw [hzf]
      refine ⟨huses rfl fun src hsrc => ?_, hpops⟩
      cases hsrc
      exact hcr3 hzero
    · rw [if_neg hzero]
      rfl

theorem run_restoreContext (hlt : c.regs .rsi + 56 < 2 ^ 64) :
    (Cpu.run restoreContext 0 c).rip = c.mem.read64 (c.regs .rsi + 48) ∧
      (Cpu.run restoreContext 0 c).cr3 = (if c.regs .rdx = 0 then c.cr3 else c.regs .rdx) ∧
      (Cpu.run restoreContext 0 c).regs .rsp = c.regs .rsi + 56 ∧
      (Cpu.run restoreContext 0 c).mem = c.mem := by
  obtain ⟨c1, ⟨hrun, -⟩, hmem, hsp, hcr3⟩ := restoreContext_pops c
  obtain ⟨hcr3', hmem', hsp'⟩ := Cpu.run_pops (c := c1) poppedRegs (by decide)
    (by rw [hsp]; exact Nat.lt_of_le_of_lt (by simp [poppedRegs]) hlt)
  rw [hrun, Cpu.run_append (by decide)]
  obtain ⟨c2, hc2⟩ : ∃ c2, Cpu.run (poppedRegs.map .pop) 0 c1 = c2 := ⟨_, rfl⟩
  rw [hc2] at hcr3' hmem' hsp' ⊢
  have hsp2 : c2.regs .rsp = c.regs .rsi + 48 := hsp'.trans (by rw [hsp]; rfl)
  refine ⟨?_, hcr3'.trans hcr3, ?_, hmem'.trans hmem⟩
  · show c2.mem.read64 (wrap64 (c2.regs .rsp + 8 * 0)) = _
    rw [hmem', hmem, hsp2, wrap64_of_lt (by omega)]
  · show wrap64 (c2.regs .rsp + 8) = _
    rw [hsp2, wrap64_of_lt (by omega)]

theorem run_restoreContext_reg (hlt : c.regs .rsi + 56 < 2 ^ 64) {k : Nat}
    (hk : k < poppedRegs.length) :
    (Cpu.run restoreContext 0 c).regs poppedRegs[k] = c.mem.read64 (c.regs .rsi + 8 * k) := by
  obtain ⟨c1, ⟨hrun, -⟩, hmem, hsp, -⟩ := restoreContext_pops c
  have hpops := Cpu.run_pops_reg (c := c1) poppedRegs (by decide) (by decide)
    (by rw [hsp]; exact Nat.lt_of_le_of_lt (by simp [poppedRegs]) hlt) hk
  rw [hsp, hmem] at hpops
  have hne : poppedRegs[k] ≠ .rsp := fun h => absurd (h ▸ List.getElem_mem hk) (by decide)
  rw [hrun, Cpu.run_append (by decide), ← hpops]
  exact Cpu.run_regs [.ret] hne (by simp [Instr.target]) 0 _

theorem along_restoreContext {A S : Nat → Prop} (hlt : c.regs .rsi + 56 < 2 ^ 64)
    (hframe : ∀ a, c.regs .rsi ≤ a → a ≤ c.regs .rsi + 48 → A a)
    (hcr3 : c.regs .rdx ≠ 0 → S (c.regs .rdx)) : Cpu.Along (Cpu.Uses A S) restoreContext 0 c := by
  obtain ⟨c1, ⟨-, halong⟩, -, hsp, -⟩ := restoreContext_pops c
  have hlen : poppedRegs.length = 6 := rfl
  have hpop {c' : Cpu} {i : Instr} (hi : i.accesses c' = [wrap64 (c'.regs .rsp)])
      (hcr3 : ∀ src, i ≠ .movCr3 src) (hlow : c.regs .rsi ≤ c'.regs .rsp)
      (hhigh : c'.regs .rsp ≤ c.regs .rsi + 48) : Cpu.Uses A S c' i := by
    refine ⟨fun a ha => ?_, fun src hsrc => absurd hsrc (hcr3 src)⟩
    rw [hi, wrap64_of_lt (by omega), List.mem_singleton] at ha
    rw [ha]
    exact hframe _ hlow hhigh
  refine halong A S hcr3 (Cpu.along_append (by decide) ?_ ⟨?_, trivial⟩)
  · refine Cpu.along_pops _ (by decide) (by omega) fun c' dst hlow hhigh => ?_
    exact hpop rfl (by simp) (by omega) (by omega)
  · obtain ⟨-, -, hsp'⟩ := Cpu.run_pops (c := c1) poppedRegs (by decide) (by omega)
    exact hpop rfl (by simp) (by omega) (by omega)

theorem switchTo_spec {n : Nat} (h : SavesApart c (c.regs .rsi) n) (hn : 56 ≤ n)
    (hlt : c.regs .rsi + 56 < 2 ^ 64) :
    (Cpu.run switchTo 0 c).rip = c.mem.read64 (c.regs .rsi + 48) ∧
      (Cpu.run switchTo 0 c).cr3 = (if c.regs .rdx = 0 then c.cr3 else c.regs .rdx) ∧
      (Cpu.run switchTo 0 c).regs .rsp = c.regs .rsi + 56 ∧
      Mem.AgreeOn c.mem (Cpu.run switchTo 0 c).mem (c.regs .rsi) n := by
  obtain ⟨hcr3, hagree⟩ := run_saveContext h
  have hrsi := run_saveContext_rsi c
  have hrdx := run_saveContext_rdx c
  rw [run_switchTo_eq]
  obtain ⟨c1, hc1⟩ : ∃ c1, Cpu.run saveContext 0 c = c1 := ⟨_, rfl⟩
  rw [hc1] at hcr3 hagree hrsi hrdx ⊢
  obtain ⟨hrip, hcr3', hrsp, hmem⟩ := run_restoreContext (c := c1) (by rw [hrsi]; exact hlt)
  rw [hrip, hcr3', hrsp, hmem, hrsi, hrdx, hcr3]
  exact ⟨Mem.read64_congr (hagree.mono (by omega) (by omega)), rfl, rfl, hagree⟩

theorem switchIn_stub (h : SavesApart c (c.regs .rsi) UserInitialFrame.size)
    (hlt : c.regs .rsi + UserInitialFrame.size < 2 ^ 64)
    (hstub : c.mem.read64 (c.regs .rsi + 8 * 6) = sym.userTaskEntryStub) :
    (switchIn sym c).rip = c.mem.read64 (c.regs .rsi + 8 * 7) ∧
      (switchIn sym c).cs = c.mem.read64 (c.regs .rsi + 8 * 8) ∧
      (switchIn sym c).regs .rsp = c.mem.read64 (c.regs .rsi + 8 * 10) ∧
      (switchIn sym c).cr3 = if c.regs .rdx = 0 then c.cr3 else c.regs .rdx := by
  simp only [UserInitialFrame.size] at h hlt
  obtain ⟨hrip, hcr3, hrsp, hagree⟩ := switchTo_spec h (by decide) (by omega)
  obtain ⟨c1, hc1⟩ : ∃ c1, Cpu.run switchTo 0 c = c1 := ⟨_, rfl⟩
  have hword : ∀ k < 5, ∀ c2 : Cpu, c2.regs .rsp = c1.regs .rsp → c2.mem = c1.mem →
      c2.stackWord k = c.mem.read64 (c.regs .rsi + 8 * (7 + k)) := by
    intro k hk c2 hsp hmem
    rw [hc1] at hrsp hagree
    rw [Cpu.stackWord, hsp, hmem, hrsp, wrap64_of_lt (by omega)]
    have haddr : c.regs .rsi + 56 + 8 * k = c.regs .rsi + 8 * (7 + k) := by omega
    rw [haddr]
    exact Mem.read64_congr (hagree.mono (by omega) (by omega))
  have hin : switchIn sym c = Cpu.run userTaskEntryStub 0 c1 := by
    show (if (Cpu.run switchTo 0 c).rip = sym.userTaskEntryStub then _ else _) = _
    rw [if_pos (hrip.trans hstub), hc1]
  rw [hin]
  rw [hc1] at hcr3
  exact ⟨hword 0 (by decide) _ rfl rfl, hword 1 (by decide) _ rfl rfl, hword 3 (by decide) _ rfl rfl,
    hcr3⟩

end CrapOs
