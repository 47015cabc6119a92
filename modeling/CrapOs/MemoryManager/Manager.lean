import CrapOs.MemoryManager.MapPage

/-! # Memory manager

The public interface over the physical memory manager and the page tables of
the kernel and of user processes.
-/

namespace CrapOs

open Foundation

/-- The value of `pml4Phys` that selects the kernel's own tables. -/
def kernelPml4 : Nat := 0

structure MemoryManager where
  phys : Phys
  pml4 : Nat

namespace MemoryManager

def allocPage (mm : MemoryManager) : Option Nat × MemoryManager :=
  let r := CrapOs.allocPage mm.phys
  (r.1, { mm with phys := r.2 })

def selectPml4 (mm : MemoryManager) (pml4Phys : Nat) : Nat :=
  if pml4Phys = kernelPml4 then mm.pml4 else virtOf true pml4Phys

def mapPage (mm : MemoryManager) (pml4Phys virtualAddr physicalAddr flags : Nat) :
    Except Halt MemoryManager := do
  let phys ← CrapOs.mapPage mm.phys (mm.selectPml4 pml4Phys) virtualAddr physicalAddr flags true
  pure { mm with phys := phys }

def freePage (mm : MemoryManager) (addr : Nat) : MemoryManager :=
  { mm with phys := CrapOs.freePage mm.phys addr }

def getPhysicalAddr (mm : MemoryManager) (pml4Phys virtualAddr : Nat) : Option Nat :=
  CrapOs.getPhysicalAddr mm.phys (mm.selectPml4 pml4Phys) virtualAddr

def unmapPage (mm : MemoryManager) (pml4Phys virtualAddr : Nat) : Bool × MemoryManager :=
  let r := CrapOs.unmapPage mm.phys (mm.selectPml4 pml4Phys) virtualAddr
  (r.1, { mm with phys := r.2 })

def unmapAndFreePage (mm : MemoryManager) (pml4Phys virtualAddr : Nat) : MemoryManager :=
  match mm.getPhysicalAddr pml4Phys virtualAddr with
  | some phys => (mm.unmapPage pml4Phys virtualAddr).2.freePage phys
  | none => mm

def root (mm : MemoryManager) : Nat := physOf mm.pml4

structure Sound (mm : MemoryManager) (stack : List Nat) : Prop where
  paging : Paging mm.phys mm.root stack
  pml4 : ∃ hh, mm.pml4 = virtOf hh mm.root

variable {mm : MemoryManager} {stack : List Nat}

theorem allocPage_none (h : mm.Sound []) : mm.allocPage = (none, mm) := by
  simp [allocPage, allocPage_empty h.paging.free]

theorem allocPage_some {f : Nat} (h : mm.Sound (f :: stack)) :
    ∃ mm', mm.allocPage = (some f, mm') ∧ mm'.Sound stack ∧ mm'.phys.mem = mm.phys.mem ∧
      mm'.root = mm.root := by
  obtain ⟨htop, hfree⟩ := allocPage_spec h.paging.free
  refine ⟨_, Prod.ext htop rfl, ⟨⟨hfree, ?_⟩, h.pml4⟩, allocPage_mem mm.phys, rfl⟩
  show PageTree (CrapOs.allocPage mm.phys).2.mem mm.root stack
  rw [allocPage_mem]
  exact h.paging.tree.shrink (fun _ _ _ ht => ht)
    (fun p t hp ht hin => h.paging.tree.off p t hp ht (List.mem_cons_of_mem f hin))

theorem mapPage_kernel (h : mm.Sound stack) (v : Nat) {physicalAddr flags : Nat}
    (hpa : physicalAddr < 2 ^ 64) (hflags : flags < 2 ^ 64) :
    (stack.length < missing mm.phys.mem mm.root (tablePath v) ∧
      mm.mapPage kernelPml4 v physicalAddr flags =
        .error (.panic "[CRITICAL] OOM during page table walk!")) ∨
    ∃ mm' stack', mm.mapPage kernelPml4 v physicalAddr flags = .ok mm' ∧ mm'.Sound stack' ∧
      mm'.root = mm.root ∧
      Mapped mm.root (intermediateFlags true) mm.phys stack v (leafEntry physicalAddr flags)
        mm'.phys stack' := by
  obtain ⟨hh, hptr⟩ := h.pml4
  have hsel : mm.selectPml4 kernelPml4 = virtOf hh mm.root := (if_pos rfl).trans hptr
  rcases mapPage_spec h.paging hh v physicalAddr flags true hpa hflags with
    ⟨hshort, herr⟩ | ⟨s', stack', hok, hmapped⟩
  · refine .inl ⟨hshort, ?_⟩
    rw [mapPage, hsel, herr]
    rfl
  · refine .inr ⟨{ mm with phys := s' }, stack', ?_, ⟨hmapped.paging, h.pml4⟩, rfl, hmapped⟩
    rw [mapPage, hsel, hok]
    rfl

end MemoryManager

end CrapOs
