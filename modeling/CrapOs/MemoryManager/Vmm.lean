import CrapOs.MemoryManager.Pmm

/-! # Four-level page table routines

The table walks of the virtual memory manager as the kernel runs them: raw
reads and writes of 64-bit entries through the pointers it forms, with tables
taken from and returned to the physical memory manager.
-/

namespace CrapOs

open Foundation

def tableIndex (shift virtualAddr : Nat) : Nat := virtualAddr >>> shift &&& 0x1FF

def pml4Index (virtualAddr : Nat) : Nat := tableIndex 39 virtualAddr
def pdptIndex (virtualAddr : Nat) : Nat := tableIndex 30 virtualAddr
def pdIndex (virtualAddr : Nat) : Nat := tableIndex 21 virtualAddr
def ptIndex (virtualAddr : Nat) : Nat := tableIndex 12 virtualAddr

def zeroWords (s : Phys) (address n : Nat) : Phys :=
  (List.range n).foldl (fun s i => s.store (address + 8 * i) 0) s

def zeroOutPage (s : Phys) (address : Nat) : Phys := zeroWords s address 512

def getOrCreateTable (s : Phys) (table index intermediateFlags : Nat) :
    Except Halt (Nat × Phys) := do
  let entry := table + 8 * index
  let s ←
    if s.load entry &&& Flag.present = 0 then
      match allocPage s with
      | (none, _) => .error (.panic "[CRITICAL] OOM during page table walk!")
      | (some newTablePhys, s) =>
        let s := zeroOutPage s (virtOf s.pmm.isHigherHalf newTablePhys)
        pure (s.store entry (newTablePhys ||| intermediateFlags))
    else pure s
  let phys := s.load entry &&& pageMask
  pure (virtOf s.pmm.isHigherHalf phys, s)

def intermediateFlags (isUserPage : Bool) : Nat :=
  if isUserPage then Flag.present ||| Flag.writable ||| Flag.user
  else Flag.present ||| Flag.writable

def leafEntry (physicalAddr flags : Nat) : Nat :=
  (physicalAddr &&& pageMask) ||| flags ||| Flag.present

def mapPage (s : Phys) (pml4Addr virtualAddr physicalAddr flags : Nat) (isUserPage : Bool) :
    Except Halt Phys := do
  let inner := intermediateFlags isUserPage
  let (pdpt, s) ← getOrCreateTable s pml4Addr (pml4Index virtualAddr) inner
  let (pd, s) ← getOrCreateTable s pdpt (pdptIndex virtualAddr) inner
  let (pt, s) ← getOrCreateTable s pd (pdIndex virtualAddr) inner
  let pte := pt + 8 * ptIndex virtualAddr
  pure (s.store pte (leafEntry physicalAddr flags))

def tablePointer (entry : Nat) : Nat := virtOf true (entry &&& pageMask)

/-- The walk `getPhysicalAddr` and `unmapPage` begin with: `absent` as soon as one
of the four entries is not present, else `present` with the three tables below
the PML4. -/
def walkTables {α : Type} (s : Phys) (pml4Addr virtualAddr : Nat) (absent : α)
    (present : (pdpt pd pt : Nat) → α) : α :=
  let pml4e := pml4Addr + 8 * pml4Index virtualAddr
  if s.load pml4e &&& Flag.present = 0 then absent else
  let pdpt := tablePointer (s.load pml4e)
  let pdpte := pdpt + 8 * pdptIndex virtualAddr
  if s.load pdpte &&& Flag.present = 0 then absent else
  let pd := tablePointer (s.load pdpte)
  let pde := pd + 8 * pdIndex virtualAddr
  if s.load pde &&& Flag.present = 0 then absent else
  let pt := tablePointer (s.load pde)
  let pte := pt + 8 * ptIndex virtualAddr
  if s.load pte &&& Flag.present = 0 then absent else
  present pdpt pd pt

def getPhysicalAddr (s : Phys) (pml4Addr virtualAddr : Nat) : Option Nat :=
  walkTables s pml4Addr virtualAddr none fun _ _ pt =>
    let offset := virtualAddr &&& 0xFFF
    let pte := pt + 8 * ptIndex virtualAddr
    some ((s.load pte &&& pageMask) ||| offset)

def isTableEmpty (s : Phys) (table : Nat) : Bool :=
  (List.range 512).all fun i => s.load (table + 8 * i) &&& Flag.present == 0

def releaseTable (s : Phys) (entry : Nat) : Phys :=
  let tablePhys := s.load entry &&& pageMask
  freePage (s.store entry 0) tablePhys

/-- The way back up after a leaf has been cleared: each emptied table is released. -/
def reclaimTables (s : Phys) (pml4e pdpt pdpte pd pde pt : Nat) : Phys :=
  if isTableEmpty s pt then
    let s := releaseTable s pde
    if isTableEmpty s pd then
      let s := releaseTable s pdpte
      if isTableEmpty s pdpt then releaseTable s pml4e else s
    else s
  else s

/-- The TLB flush of the page has no effect on the tables and is left out. -/
def unmapPage (s : Phys) (pml4Addr virtualAddr : Nat) : Bool × Phys :=
  walkTables s pml4Addr virtualAddr (false, s) fun pdpt pd pt =>
    let pml4e := pml4Addr + 8 * pml4Index virtualAddr
    let pdpte := pdpt + 8 * pdptIndex virtualAddr
    let pde := pd + 8 * pdIndex virtualAddr
    let pte := pt + 8 * ptIndex virtualAddr
    (true, reclaimTables (s.store pte 0) pml4e pdpt pdpte pd pde pt)

theorem tableIndex_eq (shift v : Nat) : tableIndex shift v = v / 2 ^ shift % 512 :=
  shiftRight_and_lowMask v shift 9

theorem tableIndex_lt (shift v : Nat) : tableIndex shift v < 512 := by
  rw [tableIndex_eq]
  exact Nat.mod_lt _ (by decide)

theorem zeroWords_succ (s : Phys) (address n : Nat) :
    zeroWords s address (n + 1) = (zeroWords s address n).store (address + 8 * n) 0 := by
  rw [zeroWords, List.range_succ, List.foldl_append]
  rfl

theorem zeroWords_spec {s : Phys} {a : Nat} (ha : IsFrame a) (hh : Bool) {n : Nat} (hn : n ≤ 512) :
    (zeroWords s (virtOf hh a) n).pmm = s.pmm ∧
      ∀ x, (zeroWords s (virtOf hh a) n).mem x =
        if a ≤ x ∧ x < a + 8 * n then 0 else s.mem x := by
  induction n with
  | zero =>
    refine ⟨rfl, fun x => ?_⟩
    rw [if_neg (by omega)]
    rfl
  | succ n ih =>
    obtain ⟨hpmm, hmem⟩ := ih (by omega)
    rw [zeroWords_succ]
    refine ⟨hpmm, fun x => ?_⟩
    have hphys := ha.physOf_virtOf hh (k := 8 * n) (by simp only [pageSize]; omega)
    simp only [Phys.store, hphys, Mem.write64, Mem.writeLE, hmem]
    by_cases hx : a + 8 * n ≤ x ∧ x < a + 8 * n + 8
    · rw [if_pos hx, if_pos (by omega), Nat.zero_div]
      rfl
    · rw [if_neg hx]
      by_cases hlow : a ≤ x ∧ x < a + 8 * n
      · rw [if_pos hlow, if_pos (by omega)]
      · rw [if_neg hlow, if_neg (by omega)]

theorem zeroOutPage_pmm {s : Phys} {a : Nat} (ha : IsFrame a) (hh : Bool) :
    (zeroOutPage s (virtOf hh a)).pmm = s.pmm :=
  (zeroWords_spec ha hh (Nat.le_refl 512)).1

theorem zeroOutPage_mem {s : Phys} {a : Nat} (ha : IsFrame a) (hh : Bool) (x : Nat) :
    (zeroOutPage s (virtOf hh a)).mem x = if a ≤ x ∧ x < a + pageSize then 0 else s.mem x := by
  have hsize : pageSize = 8 * 512 := rfl
  rw [hsize, zeroOutPage, (zeroWords_spec ha hh (Nat.le_refl 512)).2 x]

end CrapOs
