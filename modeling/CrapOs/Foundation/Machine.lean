import CrapOs.Foundation.ByteMemory
import CrapOs.Foundation.WordBits

/-! # A fragment of x86-64

The registers of one processor and the few instructions context switches are
written in. Memory is the memory of the running code, by virtual address.
-/

namespace Foundation

inductive Reg where
  | rax | rbx | rcx | rdx | rsi | rdi | rbp | rsp
  | r8 | r9 | r10 | r11 | r12 | r13 | r14 | r15
deriving DecidableEq, Repr

/-- The zero flag is kept apart from the rest of `rflags`. -/
structure Cpu where
  regs : Reg → Nat
  rip : Nat
  cs : Nat
  rflags : Nat
  ss : Nat
  zf : Bool
  cr3 : Nat
  mem : Mem

/-- `store` is `mov [base], src`; `jz` skips the next `count` instructions. -/
inductive Instr where
  | push (src : Reg)
  | pop (dst : Reg)
  | mov (dst src : Reg)
  | store (base src : Reg)
  | test (fst snd : Reg)
  | jz (count : Nat)
  | movCr3 (src : Reg)
  | sti
  | ret
  | iretq
deriving DecidableEq, Repr

namespace Cpu

def set (c : Cpu) (r : Reg) (value : Nat) : Cpu :=
  { c with regs := fun r' => if r' = r then value else c.regs r' }

@[simp] theorem set_regs (c : Cpu) (r r' : Reg) (value : Nat) :
    (c.set r value).regs r' = if r' = r then value else c.regs r' := rfl

@[simp] theorem set_mem (c : Cpu) (r : Reg) (value : Nat) : (c.set r value).mem = c.mem := rfl

@[simp] theorem set_cr3 (c : Cpu) (r : Reg) (value : Nat) : (c.set r value).cr3 = c.cr3 := rfl

@[simp] theorem set_zf (c : Cpu) (r : Reg) (value : Nat) : (c.set r value).zf = c.zf := rfl

def stackWord (c : Cpu) (k : Nat) : Nat := c.mem.read64 (wrap64 (c.regs .rsp + 8 * k))

def interruptFlag : Nat := 1 <<< 9

def below (sp : Nat) : Nat := wrap64 (sp + (2 ^ 64 - 8))

theorem below_eq {sp : Nat} (hle : 8 ≤ sp) (hlt : sp < 2 ^ 64) : below sp = sp - 8 := by
  rw [below, wrap64]
  omega

def step (c : Cpu) : Instr → Cpu
  | .push src =>
    { c.set .rsp (below (c.regs .rsp)) with
      mem := c.mem.write64 (below (c.regs .rsp)) (c.regs src) }
  | .pop dst => (c.set .rsp (wrap64 (c.regs .rsp + 8))).set dst (c.stackWord 0)
  | .mov dst src => c.set dst (c.regs src)
  | .store base src => { c with mem := c.mem.write64 (c.regs base) (c.regs src) }
  | .test fst snd => { c with zf := decide (c.regs fst &&& c.regs snd = 0) }
  | .jz _ => c
  | .movCr3 src => { c with cr3 := c.regs src }
  | .sti => { c with rflags := c.rflags ||| interruptFlag }
  | .ret => { c.set .rsp (wrap64 (c.regs .rsp + 8)) with rip := c.stackWord 0 }
  | .iretq => { c.set .rsp (c.stackWord 3) with
      rip := c.stackWord 0, cs := c.stackWord 1, rflags := c.stackWord 2, ss := c.stackWord 4 }

/-- Runs a block after skipping its first `skip` instructions. -/
def run : List Instr → Nat → Cpu → Cpu
  | [], _, c => c
  | _ :: code, skip + 1, c => run code skip c
  | .jz count :: code, 0, c => run code (if c.zf then count else 0) c
  | i :: code, 0, c => run code 0 (c.step i)

end Cpu

namespace Instr

def target : Instr → Option Reg
  | .pop dst => some dst
  | .mov dst _ => some dst
  | _ => none

def isJump : Instr → Bool
  | .jz _ => true
  | _ => false

def accesses (c : Cpu) : Instr → List Nat
  | .push _ => [Cpu.below (c.regs .rsp)]
  | .pop _ | .ret => [wrap64 (c.regs .rsp)]
  | .store base _ => [c.regs base]
  | .iretq => (List.range 5).map fun k => wrap64 (c.regs .rsp + 8 * k)
  | .mov _ _ | .test _ _ | .jz _ | .movCr3 _ | .sti => []

end Instr

/-- An instruction accesses words in `A` and loads page tables in `S` only. -/
structure Cpu.Uses (A S : Nat → Prop) (c : Cpu) (i : Instr) : Prop where
  accesses : ∀ a ∈ i.accesses c, A a
  cr3 : ∀ src, i = .movCr3 src → S (c.regs src)

/-- `P` holds of every instruction a block executes and the state it finds. -/
def Cpu.Along (P : Cpu → Instr → Prop) : List Instr → Nat → Cpu → Prop
  | [], _, _ => True
  | _ :: code, skip + 1, c => Along P code skip c
  | .jz count :: code, 0, c => P c (.jz count) ∧ Along P code (if c.zf then count else 0) c
  | i :: code, 0, c => P c i ∧ Along P code 0 (c.step i)

theorem Cpu.step_regs (c : Cpu) {i : Instr} {r : Reg} (hsp : r ≠ .rsp) (hi : i.target ≠ some r) :
    (c.step i).regs r = c.regs r := by
  have hset : ∀ (c : Cpu) {r' : Reg} (value : Nat), r ≠ r' → (c.set r' value).regs r = c.regs r :=
    fun c r' value hne => by rw [set_regs, if_neg hne]
  cases i with
  | push | ret | iretq => exact hset c _ hsp
  | pop dst =>
    have hne : r ≠ dst := fun h => hi (congrArg some h.symm)
    exact (hset _ _ hne).trans (hset c _ hsp)
  | mov dst => exact hset c _ fun h => hi (congrArg some h.symm)
  | store | test | jz | movCr3 | sti => rfl

theorem Cpu.run_regs (code : List Instr) {r : Reg} (hsp : r ≠ .rsp)
    (hcode : ∀ i ∈ code, i.target ≠ some r) (skip : Nat) (c : Cpu) :
    (run code skip c).regs r = c.regs r := by
  induction code generalizing skip c with
  | nil => rfl
  | cons i code ih =>
    have hrest := ih fun j hj => hcode j (List.mem_cons_of_mem _ hj)
    cases skip with
    | succ skip => exact hrest skip c
    | zero =>
      have hi := hcode i List.mem_cons_self
      cases i with
      | jz count => exact hrest _ c
      | push | pop | mov | store | test | movCr3 | sti | ret | iretq =>
        exact (hrest 0 _).trans (c.step_regs hsp hi)

namespace Cpu

variable {c : Cpu}

theorem run_append {code : List Instr} (hcode : ∀ i ∈ code, i.isJump = false)
    (rest : List Instr) (c : Cpu) : run (code ++ rest) 0 c = run rest 0 (run code 0 c) := by
  induction code generalizing c with
  | nil => rfl
  | cons i code ih =>
    have hrest := ih fun j hj => hcode j (List.mem_cons_of_mem _ hj)
    cases i with
    | jz n => cases hcode _ List.mem_cons_self
    | push | pop | mov | store | test | movCr3 | sti | ret | iretq => exact hrest _

theorem step_push (c : Cpu) (src : Reg) (hle : 8 ≤ c.regs .rsp) (hlt : c.regs .rsp < 2 ^ 64) :
    (c.step (.push src)).regs .rsp = c.regs .rsp - 8 ∧
      (c.step (.push src)).mem = c.mem.write64 (c.regs .rsp - 8) (c.regs src) := by
  simp [step, below_eq hle hlt]

theorem run_pushes (srcs : List Reg) (hle : 8 * srcs.length ≤ c.regs .rsp)
    (hlt : c.regs .rsp < 2 ^ 64) {a n : Nat}
    (hapart : c.regs .rsp ≤ a ∨ a + n ≤ c.regs .rsp - 8 * srcs.length) :
    (run (srcs.map .push) 0 c).cr3 = c.cr3 ∧ Mem.AgreeOn c.mem (run (srcs.map .push) 0 c).mem a n := by
  induction srcs generalizing c with
  | nil => exact ⟨rfl, .refl _ _ _⟩
  | cons src srcs ih =>
    rw [List.length_cons] at hle hapart
    obtain ⟨hsp, hmem⟩ := c.step_push src (by omega) hlt
    obtain ⟨hcr3, hagree⟩ := ih (c := c.step (.push src)) (by omega) (by omega) (by omega)
    refine ⟨hcr3, Mem.AgreeOn.trans ?_ hagree⟩
    rw [hmem]
    exact c.mem.write64_agreeOn (by omega)

theorem step_pop_rsp (c : Cpu) {dst : Reg} (hne : .rsp ≠ dst) (hlt : c.regs .rsp + 8 < 2 ^ 64) :
    (c.step (.pop dst)).regs .rsp = c.regs .rsp + 8 := by
  show (if Reg.rsp = dst then c.stackWord 0 else wrap64 (c.regs .rsp + 8)) = c.regs .rsp + 8
  rw [if_neg hne, wrap64_of_lt hlt]

theorem run_pops (dsts : List Reg) (hdsts : .rsp ∉ dsts)
    (hlt : c.regs .rsp + 8 * dsts.length < 2 ^ 64) :
    (run (dsts.map .pop) 0 c).cr3 = c.cr3 ∧ (run (dsts.map .pop) 0 c).mem = c.mem ∧
      (run (dsts.map .pop) 0 c).regs .rsp = c.regs .rsp + 8 * dsts.length := by
  induction dsts generalizing c with
  | nil => exact ⟨rfl, rfl, rfl⟩
  | cons dst dsts ih =>
    rw [List.length_cons] at hlt
    rw [List.mem_cons, not_or] at hdsts
    obtain ⟨hne, hdsts⟩ := hdsts
    have hsp : (c.step (.pop dst)).regs .rsp = c.regs .rsp + 8 := c.step_pop_rsp hne (by omega)
    obtain ⟨hcr3, hmem, hend⟩ := ih (c := c.step (.pop dst)) hdsts (by omega)
    refine ⟨hcr3, hmem, hend.trans ?_⟩
    rw [hsp, List.length_cons]
    omega

theorem run_pushes_rsp (srcs : List Reg) (hle : 8 * srcs.length ≤ c.regs .rsp)
    (hlt : c.regs .rsp < 2 ^ 64) :
    (run (srcs.map .push) 0 c).regs .rsp = c.regs .rsp - 8 * srcs.length := by
  induction srcs generalizing c with
  | nil => rfl
  | cons src srcs ih =>
    rw [List.length_cons] at hle ⊢
    obtain ⟨hsp, -⟩ := c.step_push src (by omega) hlt
    refine (ih (c := c.step (.push src)) (by omega) (by omega)).trans ?_
    omega

/-- What was pushed can be read back, the last register at the stack pointer. -/
theorem run_pushes_word (srcs : List Reg) (hsrcs : .rsp ∉ srcs) (hle : 8 * srcs.length ≤ c.regs .rsp)
    (hlt : c.regs .rsp < 2 ^ 64) (hregs : ∀ r, c.regs r < 2 ^ 64) {k : Nat} (hk : k < srcs.length) :
    (run (srcs.map .push) 0 c).mem.read64 (c.regs .rsp - 8 * (k + 1)) = c.regs srcs[k] := by
  induction srcs generalizing c k with
  | nil => cases hk
  | cons src srcs ih =>
    rw [List.length_cons] at hle hk
    rw [List.mem_cons, not_or] at hsrcs
    obtain ⟨hne, hsrcs⟩ := hsrcs
    obtain ⟨hsp, hmem⟩ := c.step_push src (by omega) hlt
    have hother {r : Reg} (hr : r ≠ .rsp) : (c.step (.push src)).regs r = c.regs r :=
      c.step_regs hr (by simp [Instr.target])
    cases k with
    | zero =>
      obtain ⟨-, hagree⟩ := run_pushes (c := c.step (.push src)) srcs (by omega) (by omega)
        (a := c.regs .rsp - 8) (n := 8) (by omega)
      refine (Mem.read64_congr hagree).trans ?_
      rw [hmem]
      exact c.mem.read64_write64_same _ (hregs src)
    | succ k =>
      have hregs' (r : Reg) : (c.step (.push src)).regs r < 2 ^ 64 := by
        by_cases hr : r = .rsp
        · rw [hr, hsp]
          omega
        · rw [hother hr]
          exact hregs r
      have hrest := ih (c := c.step (.push src)) hsrcs (by omega) (by omega) hregs'
        (k := k) (by omega)
      have hsrc : srcs[k] ≠ .rsp := fun h => hsrcs (h ▸ List.getElem_mem _)
      rw [hsp, hother hsrc] at hrest
      have haddr : c.regs .rsp - 8 * (k + 1 + 1) = c.regs .rsp - 8 - 8 * (k + 1) := by omega
      rw [haddr]
      exact hrest

theorem run_pops_reg (dsts : List Reg) (hdsts : .rsp ∉ dsts) (hnodup : dsts.Nodup)
    (hlt : c.regs .rsp + 8 * dsts.length < 2 ^ 64) {k : Nat} (hk : k < dsts.length) :
    (run (dsts.map .pop) 0 c).regs dsts[k] = c.mem.read64 (c.regs .rsp + 8 * k) := by
  induction dsts generalizing c k with
  | nil => cases hk
  | cons dst dsts ih =>
    rw [List.length_cons] at hlt hk
    rw [List.mem_cons, not_or] at hdsts
    rw [List.nodup_cons] at hnodup
    obtain ⟨hne, hdsts⟩ := hdsts
    obtain ⟨hfresh, hnodup⟩ := hnodup
    have hsp : (c.step (.pop dst)).regs .rsp = c.regs .rsp + 8 := c.step_pop_rsp hne (by omega)
    cases k with
    | zero =>
      have hkeep : ∀ i ∈ dsts.map Instr.pop, i.target ≠ some dst := by
        intro i hi htarget
        obtain ⟨r, hr, rfl⟩ := List.mem_map.mp hi
        cases htarget
        exact hfresh hr
      refine (run_regs _ (Ne.symm hne) hkeep 0 _).trans ?_
      show (if dst = dst then c.stackWord 0 else _) = _
      rw [if_pos rfl, stackWord, wrap64_of_lt (by omega)]
    | succ k =>
      have hrest := ih (c := c.step (.pop dst)) hdsts hnodup (by omega) (k := k) (by omega)
      have hmem : (c.step (.pop dst)).mem = c.mem := rfl
      refine hrest.trans (congrArg c.mem.read64 ?_)
      omega

variable {P : Cpu → Instr → Prop}

theorem along_append {code : List Instr} (hcode : ∀ i ∈ code, i.isJump = false)
    {rest : List Instr} {c : Cpu} (h : Along P code 0 c) (hrest : Along P rest 0 (run code 0 c)) :
    Along P (code ++ rest) 0 c := by
  induction code generalizing c with
  | nil => exact hrest
  | cons i code ih =>
    have hnext := ih (c := c.step i) fun j hj => hcode j (List.mem_cons_of_mem _ hj)
    cases i with
    | jz n => cases hcode _ List.mem_cons_self
    | push | pop | mov | store | test | movCr3 | sti | ret | iretq => exact ⟨h.1, hnext h.2 hrest⟩

theorem along_pushes (srcs : List Reg) (hle : 8 * srcs.length ≤ c.regs .rsp) (hlt : c.regs .rsp < 2 ^ 64)
    (h : ∀ (c' : Cpu) (src : Reg), c.regs .rsp + 8 ≤ c'.regs .rsp + 8 * srcs.length →
      c'.regs .rsp ≤ c.regs .rsp → P c' (.push src)) : Along P (srcs.map .push) 0 c := by
  induction srcs generalizing c with
  | nil => trivial
  | cons src srcs ih =>
    rw [List.length_cons] at hle h
    obtain ⟨hsp, -⟩ := c.step_push src (by omega) hlt
    refine ⟨h c src (by omega) (Nat.le_refl _), ih (by omega) (by omega) fun c' src' hlow hhigh => ?_⟩
    exact h c' src' (by omega) (by omega)

theorem along_pops (dsts : List Reg) (hdsts : .rsp ∉ dsts)
    (hlt : c.regs .rsp + 8 * dsts.length < 2 ^ 64)
    (h : ∀ (c' : Cpu) (dst : Reg), c.regs .rsp ≤ c'.regs .rsp →
      c'.regs .rsp + 8 ≤ c.regs .rsp + 8 * dsts.length → P c' (.pop dst)) :
    Along P (dsts.map .pop) 0 c := by
  induction dsts generalizing c with
  | nil => trivial
  | cons dst dsts ih =>
    rw [List.length_cons] at hlt h
    rw [List.mem_cons, not_or] at hdsts
    obtain ⟨hne, hdsts⟩ := hdsts
    have hsp : (c.step (.pop dst)).regs .rsp = c.regs .rsp + 8 := c.step_pop_rsp hne (by omega)
    refine ⟨h c dst (Nat.le_refl _) (by omega), ih hdsts (by omega) fun c' dst' hlow hhigh => ?_⟩
    exact h c' dst' (by omega) (by omega)

end Cpu

end Foundation
