import CrapOs.Foundation.Chain
import CrapOs.Foundation.Reach
import CrapOs.Globals
import Mathlib.Data.Finset.Card

/-! # Physical memory manager

`PhysicalMemoryManager` keeps the free page frames on a stack that is threaded
through the free pages themselves: the first eight bytes of a free page hold
the address of the next one, zero at the end. `FreeStack` relates that shape in
memory to a plain list, and `freePage` and `allocPage` are push and pop on it.
-/

namespace CrapOs

open Foundation

structure PhysicalMemoryManager where
  kernelStackBaseAddr : Nat
  kernelStackSize : Nat
  framebufferAddr : Nat
  framebufferSize : Nat
  memoryMapAddr : Nat
  memoryMapSize : Nat
  memoryMapDescSize : Nat
  kernelStart : Nat
  kernelEnd : Nat
  isHigherHalf : Bool
  freeListHead : Option Nat
  freePages : Nat

structure Phys where
  pmm : PhysicalMemoryManager
  mem : Mem

namespace Phys

/-- `*(ptr as *const u64)` -/
def load (s : Phys) (ptr : Nat) : Nat := s.mem.read64 (physOf ptr)

/-- `*(ptr as *mut u64) = value` -/
def store (s : Phys) (ptr value : Nat) : Phys :=
  { s with mem := s.mem.write64 (physOf ptr) value }

@[simp] theorem store_pmm (s : Phys) (ptr value : Nat) : (s.store ptr value).pmm = s.pmm := rfl

end Phys

def freePage (s : Phys) (address : Nat) : Phys :=
  let virt := virtOf s.pmm.isHigherHalf address
  let s := s.store virt (s.pmm.freeListHead.getD 0)
  { s with pmm := { s.pmm with
      freeListHead := some address
      freePages := wrap64 (s.pmm.freePages + 1) } }

def allocPage (s : Phys) : Option Nat × Phys :=
  match s.pmm.freeListHead with
  | none => (none, s)
  | some head =>
    let next := s.load (virtOf s.pmm.isHigherHalf head)
    (some head, { s with pmm := { s.pmm with
      freeListHead := if next = 0 then none else some next
      freePages := wrap64 (s.pmm.freePages + (2 ^ 64 - 1)) } })

@[simp] theorem allocPage_mem (s : Phys) : (allocPage s).2.mem = s.mem := by
  unfold allocPage
  cases s.pmm.freeListHead <;> rfl

@[simp] theorem allocPage_isHigherHalf (s : Phys) :
    (allocPage s).2.pmm.isHigherHalf = s.pmm.isHigherHalf := by
  unfold allocPage
  cases s.pmm.freeListHead <;> rfl

/-- The pages threaded from `freeListHead` are exactly `stack`, top first. -/
structure FreeStack (s : Phys) (stack : List Nat) : Prop where
  head : s.pmm.freeListHead = stack.head?
  links : Seg s.mem.read64 (stack.head?.getD 0) stack 0
  frames : ∀ a ∈ stack, IsFrame a
  nodup : stack.Nodup
  count : s.pmm.freePages = stack.length

variable {a : Nat} {s : Phys} {stack : List Nat}

theorem frames_length_le (hf : ∀ a ∈ stack, IsFrame a) (hn : stack.Nodup) :
    stack.length ≤ 2 ^ 35 := by
  have hsub : stack.toFinset ⊆ (Finset.range (2 ^ 35)).image (fun k => k * pageSize) := by
    intro a ha
    have hfr := hf a (List.mem_toFinset.mp ha)
    have hal := hfr.aligned
    have hw := hfr.window
    rw [directMapWindow_eq] at hw
    simp only [pageSize] at hal
    refine Finset.mem_image.mpr ⟨a / pageSize, Finset.mem_range.mpr ?_, ?_⟩
    · simp only [pageSize]
      omega
    · simp only [pageSize]
      omega
  calc
    stack.length = stack.toFinset.card := (List.toFinset_card_of_nodup hn).symm
    _ ≤ ((Finset.range (2 ^ 35)).image (fun k => k * pageSize)).card := Finset.card_le_card hsub
    _ ≤ (Finset.range (2 ^ 35)).card := Finset.card_image_le
    _ = 2 ^ 35 := Finset.card_range _

theorem FreeStack.congr {s' : Phys} (h : FreeStack s stack)
    (hhead : s'.pmm.freeListHead = s.pmm.freeListHead) (hcount : s'.pmm.freePages = s.pmm.freePages)
    (hmem : ∀ a ∈ stack, Mem.AgreeOn s.mem s'.mem a 8) : FreeStack s' stack where
  head := hhead.trans h.head
  links := h.links.congr (fun a ha => Mem.read64_congr (hmem a ha))
  frames := h.frames
  nodup := h.nodup
  count := hcount.trans h.count

theorem FreeStack.unique {stack' : List Nat} (h : FreeStack s stack) (h' : FreeStack s stack') :
    stack = stack' := by
  have hhead : stack.head? = stack'.head? := h.head.symm.trans h'.head
  have hlinks := h'.links
  rw [← hhead] at hlinks
  exact h.links.unique hlinks (fun h0 => (h.frames 0 h0).nonzero rfl)
    (fun h0 => (h'.frames 0 h0).nonzero rfl)

def OnFreeList (s : Phys) (p : Nat) : Prop := ∃ stack, FreeStack s stack ∧ p ∈ stack

theorem FreeStack.onFreeList_iff (h : FreeStack s stack) {p : Nat} :
    OnFreeList s p ↔ p ∈ stack := by
  constructor
  · rintro ⟨stack', h', hp⟩
    exact h'.unique h ▸ hp
  · exact fun hp => ⟨stack, h, hp⟩

theorem freePage_mem (ha : IsFrame a) :
    (freePage s a).mem = s.mem.write64 a (s.pmm.freeListHead.getD 0) := by
  have hphys := ha.physOf_virtOf s.pmm.isHigherHalf (k := 0) (by decide)
  simp only [Nat.add_zero] at hphys
  simp [freePage, Phys.store, hphys]

theorem freePage_agreeOn {b n : Nat} (ha : IsFrame a) (h : a + pageSize ≤ b ∨ b + n ≤ a) :
    Mem.AgreeOn s.mem (freePage s a).mem b n := by
  rw [freePage_mem ha]
  apply Mem.write64_agreeOn
  simp only [pageSize] at h
  omega

theorem FreeStack.headWord_lt (h : FreeStack s stack) :
    s.pmm.freeListHead.getD 0 < 2 ^ 64 := by
  rw [h.head]
  cases stack with
  | nil => decide
  | cons b rest => exact (h.frames b List.mem_cons_self).lt

theorem freePage_spec (h : FreeStack s stack) (ha : IsFrame a) (hfresh : a ∉ stack) :
    FreeStack (freePage s a) (a :: stack) where
  head := rfl
  frames := by
    intro b hb
    rcases List.mem_cons.mp hb with rfl | hb
    · exact ha
    · exact h.frames b hb
  nodup := List.nodup_cons.mpr ⟨hfresh, h.nodup⟩
  count := by
    have hlen := frames_length_le h.frames h.nodup
    show wrap64 (s.pmm.freePages + 1) = _
    rw [h.count, wrap64_of_lt (by omega), List.length_cons]
  links := by
    have hagree : ∀ b ∈ stack, Mem.AgreeOn s.mem (freePage s a).mem b 8 := by
      intro b hb
      apply freePage_agreeOn ha
      rcases ha.apart (h.frames b hb) (fun heq => hfresh (heq ▸ hb)) with hab | hba
      · exact Or.inl hab
      · simp only [pageSize] at hba
        omega
    have hnext : (freePage s a).mem.read64 a = stack.head?.getD 0 := by
      rw [freePage_mem ha, Mem.read64_write64_same _ _ h.headWord_lt, h.head]
    refine ⟨rfl, ?_⟩
    rw [hnext]
    exact h.links.congr (fun b hb => Mem.read64_congr (hagree b hb))

theorem FreeStack.next (h : FreeStack s (a :: stack)) :
    s.load (virtOf s.pmm.isHigherHalf a) = stack.head?.getD 0 := by
  have ha := h.frames a List.mem_cons_self
  have hphys := ha.physOf_virtOf s.pmm.isHigherHalf (k := 0) (by decide)
  simp only [Nat.add_zero] at hphys
  have hseg := h.links.2
  rw [Phys.load, hphys]
  cases stack with
  | nil => exact hseg
  | cons b rest => exact hseg.1

theorem allocPage_empty (h : FreeStack s []) : allocPage s = (none, s) := by
  have hhead : s.pmm.freeListHead = none := h.head
  simp [allocPage, hhead]

theorem allocPage_spec (h : FreeStack s (a :: stack)) :
    (allocPage s).1 = some a ∧ FreeStack (allocPage s).2 stack := by
  have hhead : s.pmm.freeListHead = some a := h.head
  have hnext := h.next
  have hlen := frames_length_le h.frames h.nodup
  have hcount := h.count
  rw [List.length_cons] at hlen hcount
  have heq : allocPage s = (some a, { s with pmm := { s.pmm with
      freeListHead := stack.head?
      freePages := stack.length } }) := by
    have hlink : (if s.load (virtOf s.pmm.isHigherHalf a) = 0 then none
        else some (s.load (virtOf s.pmm.isHigherHalf a))) = stack.head? := by
      rw [hnext]
      cases stack with
      | nil => rfl
      | cons b rest =>
        have hb := (h.frames b (by simp)).nonzero
        simp [hb]
    have hfree : wrap64 (s.pmm.freePages + (2 ^ 64 - 1)) = stack.length := by
      rw [wrap64, hcount]
      omega
    simp only [allocPage, hhead, hlink, hfree]
  rw [heq]
  refine ⟨rfl, rfl, ?_, fun b hb => h.frames b (List.mem_cons_of_mem a hb),
    (List.nodup_cons.mp h.nodup).2, rfl⟩
  have hseg := h.links.2
  cases stack with
  | nil => exact rfl
  | cons b rest => exact ⟨rfl, hseg.2⟩

/-- What the manager is for: a stack of free frames and the frames handed out. -/
structure Ledger where
  stack : List Nat
  inUse : List Nat

namespace Ledger

def free (l : Ledger) (a : Nat) : Ledger := ⟨a :: l.stack, l.inUse.filter (· ≠ a)⟩

def alloc (l : Ledger) : Ledger :=
  match l.stack with
  | [] => l
  | a :: rest => ⟨rest, a :: l.inUse⟩

end Ledger

def PmmStart (p : Phys × Ledger) : Prop :=
  p.1.pmm.freeListHead = none ∧ p.1.pmm.freePages = 0 ∧ p.2 = ⟨[], []⟩

/-- One call, the switch of address view, or a write that misses every free page. -/
inductive PmmStep : Phys × Ledger → Phys × Ledger → Prop
  | free {s : Phys} {l : Ledger} (a : Nat) : a < 2 ^ 64 → a % pageSize = 0 → a ≠ 0 →
      NamesSameMemory a → a ∉ l.stack → PmmStep (s, l) (freePage s a, l.free a)
  | alloc {s : Phys} {l : Ledger} : PmmStep (s, l) ((allocPage s).2, l.alloc)
  | flip {s : Phys} {l : Ledger} (hh : Bool) :
      PmmStep (s, l) ({ s with pmm := { s.pmm with isHigherHalf := hh } }, l)
  | write {s : Phys} {l : Ledger} (m : Mem) :
      (∀ a ∈ l.stack, Mem.AgreeOn s.mem m a pageSize) → PmmStep (s, l) ({ s with mem := m }, l)

/-- The stack in memory is the ledger's, and nothing in use is free. -/
def PmmInv (p : Phys × Ledger) : Prop :=
  FreeStack p.1 p.2.stack ∧ ∀ a ∈ p.2.stack, a ∉ p.2.inUse

theorem pmmInv_start {p : Phys × Ledger} (h : PmmStart p) : PmmInv p := by
  obtain ⟨s, l⟩ := p
  obtain ⟨hhead, hcount, rfl⟩ := h
  refine ⟨⟨hhead, rfl, by simp, by simp, hcount⟩, by simp⟩

theorem pmmInv_step {p p' : Phys × Ledger} (h : PmmInv p) (hs : PmmStep p p') : PmmInv p' := by
  obtain ⟨hst, hfree⟩ := h
  cases hs with
  | @free s l a hlt hal hnz hsame hfresh =>
    have ha : IsFrame a := ⟨hal, hnz, window_of_namesSameMemory hlt hsame⟩
    refine ⟨freePage_spec hst ha hfresh, ?_⟩
    intro b hb hin
    simp only [Ledger.free, List.mem_filter, decide_eq_true_eq] at hin
    rcases List.mem_cons.mp hb with rfl | hb
    · exact hin.2 rfl
    · exact hfree b hb hin.1
  | @alloc s l =>
    cases hstack : l.stack with
    | nil =>
      simp only [hstack] at hst hfree
      simp only [Ledger.alloc, hstack, allocPage_empty hst]
      exact ⟨by simpa [hstack] using hst, by simp [hstack]⟩
    | cons a rest =>
      simp only [hstack] at hst hfree
      simp only [Ledger.alloc, hstack]
      refine ⟨(allocPage_spec hst).2, ?_⟩
      intro b hb hin
      rcases List.mem_cons.mp hin with rfl | hin
      · exact (List.nodup_cons.mp hst.nodup).1 hb
      · exact hfree b (List.mem_cons_of_mem a hb) hin
  | flip hh => exact ⟨hst.congr rfl rfl (fun a _ => Mem.AgreeOn.refl _ a 8), hfree⟩
  | write m hm =>
    refine ⟨hst.congr rfl rfl (fun a ha => ?_), hfree⟩
    exact (hm a ha).mono (Nat.le_refl a) (by simp [pageSize])

/-- In every run of frees, allocations and view switches, the threaded pages are
the stack of freed and not reallocated frames, and `allocPage` pops it. -/
theorem pmm_refines_stack {s : Phys} {l : Ledger} (h : Reach PmmStart PmmStep (s, l)) :
    FreeStack s l.stack ∧ (allocPage s).1 = l.stack.head? ∧
      ((allocPage s).1 = none ↔ l.stack = []) ∧ s.pmm.freePages = l.stack.length ∧
      ∀ a, (allocPage s).1 = some a → a ∉ l.inUse := by
  have hinv : PmmInv (s, l) :=
    h.invariant PmmInv (fun _ => pmmInv_start) (fun _ _ => pmmInv_step)
  obtain ⟨hst, hfree⟩ := hinv
  have htop : (allocPage s).1 = l.stack.head? := by
    cases hstack : l.stack with
    | nil =>
      simp only [hstack] at hst
      simp [allocPage_empty hst]
    | cons a rest =>
      simp only [hstack] at hst
      simp [(allocPage_spec hst).1]
  refine ⟨hst, htop, ?_, hst.count, ?_⟩
  · rw [htop, List.head?_eq_none_iff]
  · intro a ha
    rw [htop] at ha
    exact hfree a (List.mem_of_head? ha)

def emptyPhys : Phys := ⟨⟨0, 0, 0, 0, 0, 0, 0, 0, 0, false, none, 0⟩, fun _ => 0⟩

def twoFreed : Phys :=
  let s := freePage (freePage emptyPhys 0x1000) 0x2000
  { s with pmm := { s.pmm with isHigherHalf := true } }

theorem pmm_refines_stack_of_twoFreed :
    FreeStack twoFreed [0x2000, 0x1000] ∧ (allocPage twoFreed).1 = some 0x2000 ∧
      ((allocPage twoFreed).1 = none ↔ [0x2000, 0x1000] = []) ∧ twoFreed.pmm.freePages = 2 ∧
      ∀ a, (allocPage twoFreed).1 = some a → a ∉ [] :=
  pmm_refines_stack (l := ⟨[0x2000, 0x1000], []⟩)
    (.step (.step (.step (.start ⟨rfl, rfl, rfl⟩)
      (.free 0x1000 (by decide) (by decide) (by decide) rfl (by decide)))
      (.free 0x2000 (by decide) (by decide) (by decide) rfl (by decide))) (.flip true))

end CrapOs
