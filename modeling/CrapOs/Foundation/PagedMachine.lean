import CrapOs.Foundation.Machine

/-! # The machine behind page tables

The same instructions on physical memory, with every byte of an access
translated under the current CR3. As long as a block stays on addresses that all
its address spaces map alike, it does on physical memory what the flat machine
does on the memory seen at these addresses, also across a change of CR3.
-/

namespace Foundation

abbrev Translation := Nat → Nat → Option Nat

namespace Mem

def load (translate : Nat → Option Nat) (m : Mem) (a : Nat) : Nat → Option Nat
  | 0 => some 0
  | n + 1 => do
    let p ← translate a
    let rest ← load translate m (a + 1) n
    some ((m p).toNat + 256 * rest)

def store (translate : Nat → Option Nat) (m : Mem) (a v : Nat) : Nat → Option Mem
  | 0 => some m
  | n + 1 => do
    let p ← translate a
    store translate (Function.update m p (UInt8.ofNat v)) (a + 1) (v / 256) n

end Mem

namespace Cpu

variable (tr : Translation)

def loadWord (c : Cpu) (a : Nat) : Option Nat := c.mem.load (tr c.cr3) a 8

def storeWord (c : Cpu) (a v : Nat) : Option Mem := c.mem.store (tr c.cr3) a v 8

/-- `none` is a page fault. -/
def stepVia (c : Cpu) : Instr → Option Cpu
  | .push src => do
    let mem ← c.storeWord tr (below (c.regs .rsp)) (c.regs src)
    some { c.set .rsp (below (c.regs .rsp)) with mem := mem }
  | .pop dst => do
    let word ← c.loadWord tr (wrap64 (c.regs .rsp))
    some ((c.set .rsp (wrap64 (c.regs .rsp + 8))).set dst word)
  | .store base src => do
    let mem ← c.storeWord tr (c.regs base) (c.regs src)
    some { c with mem := mem }
  | .ret => do
    let rip ← c.loadWord tr (wrap64 (c.regs .rsp))
    some { c.set .rsp (wrap64 (c.regs .rsp + 8)) with rip := rip }
  | .iretq => do
    let rip ← c.loadWord tr (wrap64 (c.regs .rsp))
    let cs ← c.loadWord tr (wrap64 (c.regs .rsp + 8))
    let rflags ← c.loadWord tr (wrap64 (c.regs .rsp + 16))
    let rsp ← c.loadWord tr (wrap64 (c.regs .rsp + 24))
    let ss ← c.loadWord tr (wrap64 (c.regs .rsp + 32))
    some { c.set .rsp rsp with rip := rip, cs := cs, rflags := rflags, ss := ss }
  | i => some (c.step i)

def runVia : List Instr → Nat → Cpu → Option Cpu
  | [], _, c => some c
  | _ :: code, skip + 1, c => runVia code skip c
  | .jz count :: code, 0, c => runVia code (if c.zf then count else 0) c
  | i :: code, 0, c => do
    let c ← c.stepVia tr i
    runVia code 0 c

end Cpu

/-- The addresses in `K` are mapped, each to a byte of its own, and by all the page tables in
`spaces` to the same one. -/
structure MappedAlike (tr : Translation) (spaces K : Nat → Prop) (phys : Nat → Nat) : Prop where
  alike : ∀ cr3, spaces cr3 → ∀ a, K a → tr cr3 a = some (phys a)
  apart : ∀ a b, K a → K b → phys a = phys b → a = b

def WordIn (K : Nat → Prop) (a : Nat) : Prop := ∀ k < 8, K (a + k)

section Seen

variable (K : Nat → Prop) [DecidablePred K] (phys : Nat → Nat)

/-- The physical memory as it is seen at the addresses in `K`. -/
def Mem.seen (m : Mem) : Mem := fun a => if K a then m (phys a) else 0

def Cpu.seen (c : Cpu) : Cpu := { c with mem := c.mem.seen K phys }

@[simp] theorem Cpu.seen_regs (c : Cpu) : (c.seen K phys).regs = c.regs := rfl

end Seen

section

variable {tr : Translation} {spaces K : Nat → Prop} [DecidablePred K] {phys : Nat → Nat}

omit [DecidablePred K] in
theorem bytes_succ {a n : Nat} (ha : ∀ k < n + 1, K (a + k)) : ∀ k < n, K (a + 1 + k) := by
  intro k hk
  rw [Nat.add_assoc, Nat.add_comm 1 k]
  exact ha (k + 1) (Nat.succ_lt_succ hk)

theorem Mem.load_seen (h : MappedAlike tr spaces K phys) {cr3 : Nat} (hcr3 : spaces cr3) (m : Mem)
    {a n : Nat} (ha : ∀ k < n, K (a + k)) :
    m.load (tr cr3) a n = some ((m.seen K phys).readLE a n) := by
  induction n generalizing a with
  | zero => rfl
  | succ n ih =>
    have hfirst : K a := ha 0 (Nat.succ_pos n)
    rw [Mem.load, h.alike cr3 hcr3 a hfirst, ih (bytes_succ ha), Mem.readLE, Mem.seen, if_pos hfirst]
    rfl

theorem Mem.seen_update (h : MappedAlike tr spaces K phys) (m : Mem) {a : Nat} (ha : K a) (x : UInt8) :
    Mem.seen K phys (Function.update m (phys a) x) = Function.update (m.seen K phys) a x := by
  funext b
  rw [Mem.seen, Function.update_apply, Function.update_apply]
  by_cases hb : K b
  · rw [if_pos hb]
    by_cases heq : b = a
    · rw [if_pos heq, if_pos (congrArg phys heq)]
    · rw [if_neg heq, if_neg fun hphys => heq (h.apart b a hb ha hphys), Mem.seen, if_pos hb]
  · have hne : b ≠ a := by
      rintro rfl
      exact hb ha
    rw [if_neg hb, if_neg hne, Mem.seen, if_neg hb]

theorem Mem.writeLE_succ (m : Mem) (a n v : Nat) :
    Mem.writeLE (Function.update m a (UInt8.ofNat v)) (a + 1) n (v / 256) = m.writeLE a (n + 1) v := by
  funext x
  rw [Mem.writeLE, Mem.writeLE, Function.update_apply]
  by_cases hin : a + 1 ≤ x ∧ x < a + 1 + n
  · rw [if_pos hin, if_pos (by omega), Nat.div_div_eq_div_mul, ← Nat.pow_succ']
    congr 3
    omega
  · rw [if_neg hin]
    by_cases hx : x = a
    · rw [if_pos hx, if_pos (by omega), hx, Nat.sub_self, Nat.pow_zero, Nat.div_one]
    · rw [if_neg hx, if_neg (by omega)]

theorem Mem.store_seen (h : MappedAlike tr spaces K phys) {cr3 : Nat} (hcr3 : spaces cr3) (m : Mem)
    {a n : Nat} (v : Nat) (ha : ∀ k < n, K (a + k)) :
    ∃ m', m.store (tr cr3) a v n = some m' ∧ m'.seen K phys = (m.seen K phys).writeLE a n v := by
  induction n generalizing m a v with
  | zero =>
    refine ⟨m, rfl, ?_⟩
    funext x
    rw [Mem.writeLE, if_neg (by omega)]
  | succ n ih =>
    have hfirst : K a := ha 0 (Nat.succ_pos n)
    obtain ⟨m', hstore, hseen⟩ := ih (Function.update m (phys a) (UInt8.ofNat v)) (v / 256)
      (bytes_succ ha)
    refine ⟨m', ?_, ?_⟩
    · rw [Mem.store, h.alike cr3 hcr3 a hfirst]
      exact hstore
    · rw [hseen, Mem.seen_update h m hfirst, Mem.writeLE_succ]

namespace Cpu

variable {c : Cpu}

theorem loadWord_seen (h : MappedAlike tr spaces K phys) (hcr3 : spaces c.cr3) {a : Nat}
    (ha : WordIn K a) : c.loadWord tr a = some ((c.seen K phys).mem.read64 a) := by
  rw [loadWord, Mem.load_seen h hcr3 c.mem ha, Mem.read64]
  rfl

theorem storeWord_seen (h : MappedAlike tr spaces K phys) (hcr3 : spaces c.cr3) {a : Nat} (v : Nat)
    (ha : WordIn K a) : ∃ m, c.storeWord tr a v = some m ∧
      m.seen K phys = (c.seen K phys).mem.write64 a v := by
  obtain ⟨m, hstore, hseen⟩ := Mem.store_seen h hcr3 c.mem v ha
  refine ⟨m, hstore, ?_⟩
  rw [hseen, Mem.write64]
  rfl

theorem stepVia_seen (h : MappedAlike tr spaces K phys) (hcr3 : spaces c.cr3) {i : Instr}
    (hi : Uses (WordIn K) spaces (c.seen K phys) i) :
    ∃ c', c.stepVia tr i = some c' ∧ c'.seen K phys = (c.seen K phys).step i ∧ spaces c'.cr3 := by
  obtain ⟨haccesses, htables⟩ := hi
  cases i with
  | push src =>
    obtain ⟨m, hstore, hseen⟩ := storeWord_seen h hcr3 (c.regs src) (haccesses _ List.mem_cons_self)
    refine ⟨{ c.set .rsp (below (c.regs .rsp)) with mem := m }, ?_, ?_, hcr3⟩
    · exact congrArg (Option.bind · _) hstore
    · exact congrArg (fun mem => { c.set .rsp (below (c.regs .rsp)) with mem := mem }) hseen
  | store base src =>
    obtain ⟨m, hstore, hseen⟩ := storeWord_seen h hcr3 (c.regs src) (haccesses _ List.mem_cons_self)
    refine ⟨{ c with mem := m }, ?_, ?_, hcr3⟩
    · exact congrArg (Option.bind · _) hstore
    · exact congrArg (fun mem => { c with mem := mem }) hseen
  | pop dst =>
    have hload := loadWord_seen h hcr3 (haccesses _ List.mem_cons_self)
    exact ⟨_, congrArg (Option.bind · _) hload, rfl, hcr3⟩
  | ret =>
    have hload := loadWord_seen h hcr3 (haccesses _ List.mem_cons_self)
    exact ⟨_, congrArg (Option.bind · _) hload, rfl, hcr3⟩
  | iretq =>
    have hload (k : Nat) (hk : k < 5) : c.loadWord tr (wrap64 (c.regs .rsp + 8 * k)) =
        some ((c.seen K phys).stackWord k) :=
      loadWord_seen h hcr3 (haccesses _ (List.mem_map.mpr ⟨k, List.mem_range.mpr hk, rfl⟩))
    refine ⟨{ (c.seen K phys).step .iretq with mem := c.mem }, ?_, rfl, hcr3⟩
    have h0 := hload 0 (by decide)
    have h1 := hload 1 (by decide)
    have h2 := hload 2 (by decide)
    have h3 := hload 3 (by decide)
    have h4 := hload 4 (by decide)
    simp only [Nat.mul_zero, Nat.add_zero, Nat.reduceMul] at h0 h1 h2 h3 h4
    simp only [stepVia, h0, h1, h2, h3, h4]
    rfl
  | movCr3 src => exact ⟨_, rfl, rfl, htables src rfl⟩
  | mov dst src => exact ⟨_, rfl, rfl, hcr3⟩
  | test fst snd => exact ⟨_, rfl, rfl, hcr3⟩
  | jz count => exact ⟨_, rfl, rfl, hcr3⟩
  | sti => exact ⟨_, rfl, rfl, hcr3⟩

theorem runVia_seen (h : MappedAlike tr spaces K phys) {code : List Instr} {skip : Nat} {c : Cpu}
    (hcr3 : spaces c.cr3) (halong : Along (Uses (WordIn K) spaces) code skip (c.seen K phys)) :
    ∃ c', runVia tr code skip c = some c' ∧ c'.seen K phys = run code skip (c.seen K phys) ∧
      spaces c'.cr3 := by
  induction code generalizing skip c with
  | nil => exact ⟨c, rfl, rfl, hcr3⟩
  | cons i code ih =>
    cases skip with
    | succ skip => exact ih hcr3 halong
    | zero =>
      cases i with
      | jz count => exact ih hcr3 halong.2
      | push | pop | mov | store | test | movCr3 | sti | ret | iretq =>
        obtain ⟨c1, hstep, hseen, hcr31⟩ := stepVia_seen h hcr3 halong.1
        have hrest := halong.2
        rw [← hseen] at hrest
        obtain ⟨c', hrun, hseen', hcr3'⟩ := ih hcr31 hrest
        refine ⟨c', ?_, ?_, hcr3'⟩
        · exact (congrArg (· >>= runVia tr code 0) hstep).trans hrun
        · rw [hseen', hseen]
          rfl

end Cpu

end

end Foundation
