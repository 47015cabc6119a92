import CrapOs.MemoryManager.Heap.Growth
import CrapOs.MemoryManager.TableRuns

/-! # The kernel's users of the page tables

The memory manager, the kernel heap and the user address spaces as one system.
Every call of the kernel comes down to a run of calls on the tables.
-/

namespace CrapOs

open Foundation

/-- User PML4s are never freed: `spaces` holds all that were created, the newest first. -/
structure System where
  manager : MemoryManager
  heap : KernelHeap
  heapMem : Mem
  spaces : List AddressSpace

/-- `heapWork` stands for everything the heap does between two growths. -/
inductive KernelCall where
  | allocPage
  | mapPage (pml4Phys virtualAddr physicalAddr flags : Nat)
  | unmapPage (pml4Phys virtualAddr : Nat)
  | unmapAndFreePage (pml4Phys virtualAddr : Nat)
  | createAddressSpace
  | growHeap (numPages : Nat)
  | heapWork (freeList : Nat) (mem : Mem)

namespace System

def root (σ : System) : Nat := σ.manager.root

def roots (σ : System) : List Nat := σ.spaces.map AddressSpace.pml4Phys ++ [σ.root]

def exec (σ : System) : KernelCall → Except Halt System
  | .allocPage => .ok { σ with manager := σ.manager.allocPage.2 }
  | .mapPage pml4Phys virtualAddr physicalAddr flags => do
    let manager ← σ.manager.mapPage pml4Phys virtualAddr physicalAddr flags
    pure { σ with manager := manager }
  | .unmapPage pml4Phys virtualAddr =>
    .ok { σ with manager := (σ.manager.unmapPage pml4Phys virtualAddr).2 }
  | .unmapAndFreePage pml4Phys virtualAddr =>
    .ok { σ with manager := σ.manager.unmapAndFreePage pml4Phys virtualAddr }
  | .createAddressSpace => do
    let (space, manager) ← AddressSpace.init σ.manager σ.root
    pure { σ with manager := manager, spaces := space :: σ.spaces }
  | .growHeap numPages => do
    let s ← grow ⟨σ.heap, σ.heapMem, some σ.manager⟩ numPages
    pure { σ with manager := s.manager.getD σ.manager, heap := s.heap, heapMem := s.mem }
  | .heapWork freeList mem =>
    .ok { σ with heap := { σ.heap with freeList := freeList }, heapMem := mem }

def view (σ : System) (stack : List Nat) : TableView := σ.manager.view σ.roots stack

def Live (σ : System) (stack : List Nat) : Prop := σ.manager.Live σ.roots stack

structure HeapBounds (σ : System) : Prop where
  range : σ.heap.base + σ.heap.maxSize < 2 ^ 64
  half : σ.heap.maxSize ≤ 2 ^ 47
  committed_le : σ.heap.committed ≤ σ.heap.maxSize

end System

namespace KernelCall

/-- The PML4 a call selects is live and its numbers fit their types. -/
def InRange (σ : System) : KernelCall → Prop
  | .mapPage pml4Phys _ physicalAddr flags =>
    σ.manager.rootOf pml4Phys ∈ σ.roots ∧ physicalAddr < 2 ^ 64 ∧ flags < 2 ^ 64
  | .unmapPage pml4Phys _ => σ.manager.rootOf pml4Phys ∈ σ.roots
  | .unmapAndFreePage pml4Phys _ => σ.manager.rootOf pml4Phys ∈ σ.roots
  | _ => True

/-- Another live PML4 shares the slot whose last page the call removes. -/
def EmptiesShared (σ : System) (r v : Nat) : Prop :=
  ∃ r' ∈ σ.roots, r' ≠ r ∧ SharesSlot σ.manager.phys.mem r r' (tableSlot 39 v) ∧
    Spaces.LastPage σ.manager.phys.mem r v

/-- The call unmaps no page that is the last one below a shared slot. -/
def SparesShared (σ : System) : KernelCall → Prop
  | .unmapPage pml4Phys v => ¬ EmptiesShared σ (σ.manager.rootOf pml4Phys) v
  | .unmapAndFreePage pml4Phys v => ¬ EmptiesShared σ (σ.manager.rootOf pml4Phys) v
  | _ => True

/-- The address `unmapAndFreePage` frees is a frame that is neither free nor a table. -/
def FreesFrame (σ : System) (stack : List Nat) : KernelCall → Prop
  | .unmapAndFreePage pml4Phys v => ∀ a, σ.manager.getPhysicalAddr pml4Phys v = some a →
      IsFrame a ∧ ¬ (σ.view stack).Holds a
  | _ => True

/-- The calls on the tables a call comes down to. -/
inductive Expands (σ σ' : System) : KernelCall → List TableCall → Prop
  | exhausted : Expands σ σ' .allocPage []
  | absent (pml4Phys v : Nat) : Expands σ σ' (.unmapPage pml4Phys v) []
  | absentFree (pml4Phys v : Nat) : Expands σ σ' (.unmapAndFreePage pml4Phys v) []
  | heapWork (freeList : Nat) (mem : Mem) : Expands σ σ' (.heapWork freeList mem) []
  | allocPage : Expands σ σ' .allocPage [.take]
  | mapPage (pml4Phys v pa flags : Nat) : Expands σ σ' (.mapPage pml4Phys v pa flags)
      [.map (σ.manager.rootOf pml4Phys) v pa flags true]
  | unmapPage (pml4Phys v : Nat) : Expands σ σ' (.unmapPage pml4Phys v)
      [.unmap (σ.manager.rootOf pml4Phys) v]
  | unmapAndFreePage (pml4Phys v a : Nat) : σ.manager.getPhysicalAddr pml4Phys v = some a →
      Expands σ σ' (.unmapAndFreePage pml4Phys v) [.unmap (σ.manager.rootOf pml4Phys) v, .give a]
  | createAddressSpace (space : AddressSpace) : σ'.spaces = space :: σ.spaces →
      space.userStackTop = AddressSpace.defaultStackTop →
      Expands σ σ' .createAddressSpace
        (.adopt σ.root space.pml4Phys :: (List.range' 0 AddressSpace.defaultStackPages).map
          fun j => .claim space.pml4Phys (AddressSpace.stackPage j) AddressSpace.stackFlags)
  | growHeap (n : Nat) : n * pageSize < 2 ^ 48 →
      wrap64 (σ.heap.committed + wrap64 (n * pageSize)) ≤ σ.heap.maxSize →
      Expands σ σ' (.growHeap n) ((List.range' 0 n).map fun j =>
        .claim σ.root (wrap64 (wrap64 (σ.heap.base + σ.heap.committed) + j * pageSize))
          (Flag.present ||| Flag.writable ||| Flag.nx))

end KernelCall

variable {mm mm' : MemoryManager} {roots stack : List Nat}

/-- The mapping loop of `grow` claims one page after another. -/
theorem commitPages_run {region count i : Nat} (h : mm.Live roots stack)
    (hok : commitPages region count i mm = .ok mm') :
    ∃ stack', count ≤ stack.length ∧ mm'.pml4 = mm.pml4 ∧ mm'.Live roots stack' ∧
      TableRun ((List.range' i count).map fun j => .claim mm.root (wrap64 (region + j * pageSize))
        (Flag.present ||| Flag.writable ||| Flag.nx)) (mm.view roots stack) (mm'.view roots stack') := by
  induction count generalizing i mm stack with
  | zero =>
    cases hok
    exact ⟨stack, Nat.zero_le _, rfl, h, .nil _⟩
  | succ count ih =>
    rcases h.allocPage with ⟨-, hnone⟩ | ⟨f, stack1, mm1, rfl, hsome, hptr1, h1, htake⟩
    · simp only [commitPages, hnone] at hok
      cases hok
    simp only [commitPages, hsome] at hok
    obtain ⟨mm2, hmap, hrest⟩ := bind_eq_ok.mp hok
    have hf := (h.spaces.free.frames f List.mem_cons_self).lt
    have hkernel : mm1.rootOf kernelPml4 ∈ roots := h1.root_mem
    obtain ⟨stack2, hptr2, h2, hstep⟩ := h1.mapPage hkernel hf (by decide) hmap
    obtain ⟨stack', hcount, hptr, h', hrun⟩ := ih h2 hrest
    have hroot : mm2.root = mm.root := congrArg physOf (hptr2.trans hptr1)
    have hroot1 : mm1.rootOf kernelPml4 = mm.root := congrArg physOf hptr1
    rw [hroot] at hrun
    rw [hroot1] at hstep
    have hlen : stack2.length ≤ stack1.length := by
      have htaken := congrArg List.length hstep.mapped.taken
      rw [List.length_drop] at htaken
      simp only [MemoryManager.view] at htaken
      omega
    refine ⟨stack', ?_, hptr.trans (hptr2.trans hptr1), h', ?_⟩
    · rw [List.length_cons]
      omega
    · rw [List.range'_succ, List.map_cons]
      exact .cons (.claim htake h1.spaces hstep) h2.spaces hrun

theorem insertFreeBlockSorted_relisted {s s' : HeapState} {ptr size : Nat}
    (hok : insertFreeBlockSorted s ptr size = .ok s') : Relisted s s' := by
  unfold insertFreeBlockSorted at hok
  by_cases hsmall : size < freeBlockSize
  · rw [if_pos hsmall] at hok
    cases hok
  rw [if_neg hsmall] at hok
  obtain ⟨⟨prev, next⟩, -, hret⟩ := bind_eq_ok.mp hok
  cases hret
  unfold spliceBlock
  by_cases hprev : prev = 0
  · simp only [if_pos hprev]
    exact ⟨rfl, rfl, rfl, rfl⟩
  · simp only [if_neg hprev]
    exact ⟨rfl, rfl, rfl, rfl⟩

theorem grow_eq {s s' : HeapState} {n : Nat} (hmm : s.manager = some mm)
    (hok : grow s n = .ok s') :
    ∃ mm', commitPages (wrap64 (s.heap.base + s.heap.committed)) n 0 mm = .ok mm' ∧
      s'.manager = some mm' ∧ s'.heap.base = s.heap.base ∧ s'.heap.maxSize = s.heap.maxSize ∧
      s'.heap.committed = wrap64 (s.heap.committed + wrap64 (n * pageSize)) ∧
      s'.heap.committed ≤ s.heap.maxSize := by
  unfold grow at hok
  by_cases hroom : wrap64 (s.heap.committed + wrap64 (n * pageSize)) ≤ s.heap.maxSize
  case neg =>
    simp only [if_neg hroom] at hok
    cases hok
  simp only [if_pos hroom, hmm] at hok
  obtain ⟨mm', hcommit, hinsert⟩ := bind_eq_ok.mp hok
  have hsame := insertFreeBlockSorted_relisted hinsert
  refine ⟨mm', hcommit, hsame.manager, hsame.base, hsame.maxSize, hsame.committed, ?_⟩
  rw [hsame.committed]
  exact hroom

/-! ## Calls as runs -/

namespace System

variable {σ σ' : System} {c : KernelCall}

theorem root_mem (σ : System) : σ.root ∈ σ.roots := by simp [roots]

theorem rootOf_kernel (σ : System) : σ.manager.rootOf kernelPml4 = σ.root := if_pos rfl

theorem rootOf_kernel_mem (σ : System) : σ.manager.rootOf kernelPml4 ∈ σ.roots := σ.root_mem

theorem inRange_kernel (σ : System) (v : Nat) {pa flags : Nat} (hpa : pa < 2 ^ 64)
    (hflags : flags < 2 ^ 64) : KernelCall.InRange σ (.mapPage kernelPml4 v pa flags) :=
  ⟨σ.root_mem, hpa, hflags⟩

theorem roots_eq (hspaces : σ'.spaces = σ.spaces) (hptr : σ'.manager.pml4 = σ.manager.pml4) :
    σ'.roots = σ.roots := by
  have hroot : σ'.root = σ.root := congrArg physOf hptr
  rw [roots, roots, hspaces, hroot]

theorem Live.advance {calls : List TableCall} {stack0 : List Nat} (hman : σ'.manager = mm)
    (hspaces : σ'.spaces = σ.spaces) (hptr : mm.pml4 = σ.manager.pml4) (h : mm.Live σ.roots stack)
    (hrun : TableRun calls (σ.manager.view σ.roots stack0) (mm.view σ.roots stack)) :
    σ'.root = σ.root ∧ σ'.Live stack ∧ TableRun calls (σ.view stack0) (σ'.view stack) := by
  subst hman
  refine ⟨congrArg physOf hptr, ?_, ?_⟩
  · unfold Live
    rw [roots_eq hspaces hptr]
    exact h
  · unfold view
    rw [roots_eq hspaces hptr]
    exact hrun

/-- Every call comes down to a run on the tables. -/
theorem exec_run (h : σ.Live stack) (hrange : c.InRange σ) (hshared : c.SparesShared σ)
    (hfrees : c.FreesFrame σ stack) (hok : σ.exec c = .ok σ') :
    ∃ calls stack', c.Expands σ σ' calls ∧ σ'.root = σ.root ∧ σ'.Live stack' ∧
      TableRun calls (σ.view stack) (σ'.view stack') := by
  cases c with
  | allocPage =>
    cases hok
    rcases h.allocPage with ⟨-, hnone⟩ | ⟨f, stack', mm', rfl, hsome, hptr, h', hstep⟩
    · refine ⟨[], stack, .exhausted, ?_⟩
      rw [hnone]
      exact ⟨rfl, h, .nil _⟩
    · refine ⟨[.take], stack', .allocPage, ?_⟩
      exact Live.advance (congrArg Prod.snd hsome) rfl hptr h' (.single hstep h'.spaces)
  | mapPage pml4Phys v pa flags =>
    obtain ⟨hr, hpa, hflags⟩ := hrange
    obtain ⟨mm', hmap, hret⟩ := bind_eq_ok.mp hok
    cases hret
    obtain ⟨stack', hptr, h', hstep⟩ := h.mapPage hr hpa hflags hmap
    refine ⟨_, stack', .mapPage pml4Phys v pa flags, ?_⟩
    exact Live.advance rfl rfl hptr h' (.single hstep h'.spaces)
  | unmapPage pml4Phys v =>
    cases hok
    rcases h.unmapPage hrange (fun r' hr' hne hshare hlast => hshared ⟨r', hr', hne, hshare, hlast⟩) with
      ⟨-, hrun⟩ | ⟨-, mm', stack', hrun, hptr, h', hstep⟩
    · refine ⟨[], stack, .absent _ _, ?_⟩
      rw [hrun]
      exact ⟨rfl, h, .nil _⟩
    · refine ⟨_, stack', .unmapPage pml4Phys v, ?_⟩
      exact Live.advance (congrArg Prod.snd hrun) rfl hptr h' (.single hstep h'.spaces)
  | unmapAndFreePage pml4Phys v =>
    cases hok
    cases ha : σ.manager.getPhysicalAddr pml4Phys v with
    | none =>
      have hidle : σ.manager.unmapAndFreePage pml4Phys v = σ.manager := by
        simp only [MemoryManager.unmapAndFreePage, ha]
      refine ⟨[], stack, .absentFree _ _, ?_⟩
      rw [hidle]
      exact ⟨rfl, h, .nil _⟩
    | some a =>
      obtain ⟨hframe, hout⟩ := hfrees a ha
      have hpage : entryAt σ.manager.phys.mem (σ.manager.rootOf pml4Phys) (pagePath v) ≠ none := by
        intro hnone
        rw [MemoryManager.Live.getPhysicalAddr h hrange, hnone] at ha
        cases ha
      obtain ⟨-, mm1, stack1, hrun, hptr, h1, hstep⟩ := (h.unmapPage hrange (fun r' hr' hne hshare
        hlast => hshared ⟨r', hr', hne, hshare, hlast⟩)).resolve_left fun hno => hpage hno.1
      obtain ⟨hgive, hspaces⟩ := h1.spaces.freePage hframe
        fun hin => hout (hstep.holds (by simp) hin)
      have heq : σ.manager.unmapAndFreePage pml4Phys v = mm1.freePage a := by
        simp only [MemoryManager.unmapAndFreePage, ha, hrun]
      refine ⟨_, a :: stack1, .unmapAndFreePage pml4Phys v a ha, ?_⟩
      refine Live.advance heq rfl hptr (h1.update hspaces fun _ hr => hr) ?_
      exact .cons hstep h1.spaces (.single hgive hspaces)
  | createAddressSpace =>
    obtain ⟨⟨space, mm'⟩, hinit, hret⟩ := bind_eq_ok.mp hok
    cases hret
    obtain ⟨stack', htop, -, hptr, h', hrun⟩ := AddressSpace.init_run h σ.root_mem hinit
    have hroot : mm'.root = σ.manager.root := congrArg physOf hptr
    have hroots : ({ σ with manager := mm', spaces := space :: σ.spaces } : System).roots =
        space.pml4Phys :: σ.roots := by
      simp only [roots, root, hroot, List.map_cons, List.cons_append]
    refine ⟨_, stack', .createAddressSpace space rfl htop, hroot, ?_, ?_⟩
    · unfold Live
      rw [hroots]
      exact h'
    · unfold view
      rw [hroots]
      exact hrun
  | growHeap n =>
    obtain ⟨s', hgrow, hret⟩ := bind_eq_ok.mp hok
    cases hret
    obtain ⟨mm', hcommit, hmm', -, -, hcommitted, hroom⟩ := grow_eq rfl hgrow
    rw [hcommitted] at hroom
    obtain ⟨stack', hcount, hptr, h', hrun⟩ := commitPages_run h hcommit
    have hfew := frames_length_le h.spaces.free.frames h.spaces.free.nodup
    have hman : s'.manager.getD σ.manager = mm' := by rw [hmm', Option.getD_some]
    refine ⟨_, stack', .growHeap n (by simp only [pageSize]; omega) hroom, ?_⟩
    exact Live.advance hman rfl hptr h' hrun
  | heapWork freeList mem =>
    cases hok
    exact ⟨[], stack, .heapWork _ _, rfl, h, .nil _⟩

theorem exec_heap (h : σ.HeapBounds) (hok : σ.exec c = .ok σ') :
    σ'.heap.base = σ.heap.base ∧ σ'.heap.maxSize = σ.heap.maxSize ∧ σ'.HeapBounds := by
  have hsame : ∀ {σ' : System}, σ'.heap.base = σ.heap.base → σ'.heap.maxSize = σ.heap.maxSize →
      σ'.heap.committed ≤ σ.heap.maxSize →
      σ'.heap.base = σ.heap.base ∧ σ'.heap.maxSize = σ.heap.maxSize ∧ σ'.HeapBounds := by
    intro σ' hbase hmax hle
    refine ⟨hbase, hmax, ?_, ?_, ?_⟩
    · rw [hbase, hmax]
      exact h.range
    · rw [hmax]
      exact h.half
    · rw [hmax]
      exact hle
  cases c with
  | allocPage | unmapPage | unmapAndFreePage | heapWork =>
    cases hok
    exact hsame rfl rfl h.committed_le
  | mapPage =>
    obtain ⟨mm', -, hret⟩ := bind_eq_ok.mp hok
    cases hret
    exact hsame rfl rfl h.committed_le
  | createAddressSpace =>
    obtain ⟨⟨space, mm'⟩, -, hret⟩ := bind_eq_ok.mp hok
    cases hret
    exact hsame rfl rfl h.committed_le
  | growHeap n =>
    obtain ⟨s', hgrow, hret⟩ := bind_eq_ok.mp hok
    cases hret
    obtain ⟨mm', -, -, hbase, hmax, -, hle⟩ := grow_eq rfl hgrow
    exact hsame hbase hmax hle

def Step (allowed : System → KernelCall → Prop) (σ σ' : System) : Prop :=
  ∃ c, c.InRange σ ∧ allowed σ c ∧ σ.exec c = .ok σ'

theorem run_invariant {start : System → Prop} {allowed : System → KernelCall → Prop}
    {inv : TableView → Prop}
    (hstart : ∀ σ, start σ → ∃ stack, σ.Live stack ∧ inv (σ.view stack))
    (hsafe : ∀ σ stack c, σ.Live stack → inv (σ.view stack) → c.InRange σ → allowed σ c →
      c.SparesShared σ ∧ c.FreesFrame σ stack)
    (hcalls : ∀ σ σ' stack c calls y, σ.Live stack → inv (σ.view stack) → c.InRange σ →
      allowed σ c → c.Expands σ σ' calls → TableRun calls (σ.view stack) y → inv y)
    (h : Reach start (Step allowed) σ) : ∃ stack, σ.Live stack ∧ inv (σ.view stack) := by
  refine h.invariant (fun σ => ∃ stack, σ.Live stack ∧ inv (σ.view stack)) hstart ?_
  rintro σ σ' ⟨stack, hlive, hinv⟩ ⟨c, hrange, hallowed, hok⟩
  obtain ⟨hshared, hfrees⟩ := hsafe σ stack c hlive hinv hrange hallowed
  obtain ⟨calls, stack', hexp, -, hlive', hrun⟩ := exec_run hlive hrange hshared hfrees hok
  exact ⟨stack', hlive', hcalls σ σ' stack c calls _ hlive hinv hrange hallowed hexp hrun⟩

theorem Live.allocPage_ok {f : Nat} (h : σ.Live (f :: stack)) :
    ∃ σ', σ.exec .allocPage = .ok σ' ∧ σ'.root = σ.root ∧ σ'.spaces = σ.spaces ∧ σ'.Live stack ∧
      TableStep .take (σ.view (f :: stack)) (σ'.view stack) := by
  rcases h.allocPage with ⟨hnil, -⟩ | ⟨g, stack', mm', hstack, hsome, hptr, h', hstep⟩
  · cases hnil
  obtain ⟨rfl, rfl⟩ := List.cons.inj hstack
  have hroots : ({ σ with manager := mm' } : System).roots = σ.roots := roots_eq rfl hptr
  refine ⟨{ σ with manager := mm' }, ?_, congrArg physOf hptr, rfl, ?_, ?_⟩
  · rw [exec, hsome]
  · unfold Live
    rw [hroots]
    exact h'
  · unfold view
    rw [hroots]
    exact hstep

theorem Live.mapPage_ok {pml4Phys v pa flags : Nat} (h : σ.Live stack)
    (hrange : KernelCall.InRange σ (.mapPage pml4Phys v pa flags))
    (hlen : missing σ.manager.phys.mem (σ.manager.rootOf pml4Phys) (tablePath v) ≤ stack.length) :
    ∃ σ' stack', σ.exec (.mapPage pml4Phys v pa flags) = .ok σ' ∧ σ'.root = σ.root ∧
      σ'.spaces = σ.spaces ∧ σ'.Live stack' ∧ stack.length ≤ stack'.length + 3 ∧
      TableStep (.map (σ.manager.rootOf pml4Phys) v pa flags true) (σ.view stack)
        (σ'.view stack') := by
  obtain ⟨hr, hpa, hflags⟩ := hrange
  obtain ⟨mm', -, hmap, -⟩ := MemoryManager.Live.mapPage_ok h hr hpa hflags hlen
  obtain ⟨stack', hptr, h', hstep⟩ := MemoryManager.Live.mapPage h hr hpa hflags hmap
  have hroots : ({ σ with manager := mm' } : System).roots = σ.roots := roots_eq rfl hptr
  refine ⟨{ σ with manager := mm' }, stack', bind_eq_ok.mpr ⟨mm', hmap, rfl⟩, congrArg physOf hptr,
    rfl, ?_, ?_, ?_⟩
  · unfold Live
    rw [hroots]
    exact h'
  · exact hstep.mapped.length_le
  · unfold view
    rw [hroots]
    exact hstep

theorem Live.createAddressSpace_ok (h : σ.Live stack) (hlen : 17 ≤ stack.length) :
    ∃ σ', σ.exec .createAddressSpace = .ok σ' := by
  obtain ⟨space, mm', hinit, -⟩ := AddressSpace.init_ok h σ.root_mem hlen
  exact ⟨_, bind_eq_ok.mpr ⟨(space, mm'), hinit, rfl⟩⟩

end System

theorem stackPage_slot {j : Nat} (hj : j < AddressSpace.defaultStackPages) :
    (tableSlot 39 (AddressSpace.stackPage j)).val = 255 := by
  simp only [tableSlot, tableIndex_eq, AddressSpace.stackPage, AddressSpace.defaultStackTop, pageSize]
  simp only [AddressSpace.defaultStackPages] at hj
  omega

/-- A new user PML4 has the upper half of the kernel's, which stays as it was. -/
theorem createAddressSpace_upper {σ σ' : System} {stack : List Nat} (h : σ.Live stack)
    (hok : σ.exec .createAddressSpace = .ok σ') :
    ∃ f stack', f ≠ σ.root ∧ f ∈ σ'.roots ∧ σ'.root = σ.root ∧ σ'.Live stack' ∧
      ∀ (i : Fin 512) (p : TablePath), 256 ≤ i.val → (i :: p).length ≤ 4 →
        entryAt σ'.manager.phys.mem σ.root (i :: p) = entryAt σ.manager.phys.mem σ.root (i :: p) ∧
        entryAt σ'.manager.phys.mem f (i :: p) = entryAt σ.manager.phys.mem σ.root (i :: p) := by
  obtain ⟨calls, stack', hexp, hroot, hlive, hrun⟩ := System.exec_run (c := .createAddressSpace) h
    trivial trivial trivial hok
  cases hexp with
  | createAddressSpace space hspaces _ =>
    cases hrun with
    | @cons _ _ _ y _ hadopt _ hrest =>
      have hother : ∀ i : Fin 512, 256 ≤ i.val →
          ∀ c ∈ (List.range' 0 AddressSpace.defaultStackPages).map fun j => TableCall.claim
            space.pml4Phys (AddressSpace.stackPage j) AddressSpace.stackFlags,
          c.slot ≠ some i := by
        intro i hi c hc heq
        obtain ⟨j, hj, rfl⟩ := List.mem_map.mp hc
        have hslot := stackPage_slot (j := j) (by simpa using (List.mem_range'_1.mp hj).2)
        rw [TableCall.slot, Option.some.injEq] at heq
        omega
      have hmem := hadopt.roots_mono σ.root_mem
      obtain ⟨hfree, hroots, -, hcopied⟩ := hadopt.adopted
      have hnew : space.pml4Phys ∈ y.roots := by
        rw [hroots]
        exact List.mem_cons_self
      refine ⟨space.pml4Phys, stack', ?_, ?_, hroot, hlive, fun i p hi hp => ⟨?_, ?_⟩⟩
      · intro heq
        rw [heq] at hfree
        exact h.spaces.forest.root_off σ.root_mem hfree
      · rw [System.roots, hspaces]
        simp
      · refine (hrest.other_slot hmem (hother i hi) hp).trans ?_
        exact hadopt.other_slot σ.root_mem (by simp [TableCall.slot]) hp
      · exact (hrest.other_slot hnew (hother i hi) hp).trans (hcopied i p hi hp)

theorem Paging.spaces {s : Phys} {r : Nat} (h : Paging s r stack) : Spaces s [r] stack where
  free := h.free
  forest := {
    tree := by
      intro r' hr'
      rw [List.mem_singleton.mp hr']
      exact h.tree
    apart := by
      intro a ha b hb hne
      rw [List.mem_singleton.mp ha, List.mem_singleton.mp hb] at hne
      exact absurd rfl hne }

def smallSystem : System := ⟨⟨stocked 128, virtOf true 0x1000⟩, kernelHeap, fun _ => 0, []⟩

theorem smallSystem_root : smallSystem.root = 0x1000 := by decide

theorem smallSystem_roots : smallSystem.roots = [0x1000] := by
  rfl

theorem smallSystem_live : smallSystem.Live (stockedFrames 128) := by
  refine ⟨?_, smallSystem.root_mem, true, ?_⟩
  · rw [smallSystem_roots]
    exact (stocked_paging (by decide)).spaces
  · exact congrArg (virtOf true) smallSystem_root.symm

theorem smallSystem_entry (p : TablePath) : entryAt smallSystem.manager.phys.mem 0x1000 p = none := by
  refine entryAt_of_empty (fun i => ?_) p
  rw [show tableEntry smallSystem.manager.phys.mem 0x1000 i = 0 from stocked_pml4 (by decide) i]
  rfl

theorem smallSystem_alloc : ∃ σ, smallSystem.exec .allocPage = .ok σ ∧ σ.Live (stockedFrames 127) ∧
    σ.root = 0x1000 ∧ σ.roots = [0x1000] ∧ σ.manager.phys.mem = smallSystem.manager.phys.mem := by
  obtain ⟨σ, hok, hroot, hspaces, hlive, hstep⟩ := smallSystem_live.allocPage_ok
  have hroots : σ.roots = smallSystem.roots := by rw [System.roots, System.roots, hroot, hspaces]
  exact ⟨σ, hok, hlive, hroot.trans smallSystem_root, hroots.trans smallSystem_roots, hstep.take_mem⟩

end CrapOs
