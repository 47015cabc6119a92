import CrapOs.MemoryManager.KernelHalf
import CrapOs.TaskScheduler.Processor

/-! # Processes and user threads

A user process is an address space with a list of threads; a user thread is a
task of the scheduler with a kernel stack from the heap. The records themselves
live on the heap too, but nothing depends on where: of the allocations only the
kernel stacks are modelled.
-/

namespace CrapOs

open Foundation Extents

structure Process where
  id : ProcessId
  name : String
  addressSpace : AddressSpace
  threads : List ThreadId
deriving DecidableEq, Repr

def Process.pml4Phys (p : Process) : Nat := p.addressSpace.pml4Phys

/-- The memory and the processor with the user processes that were registered;
`nextProcessId` is the counter behind `ProcessId::next`. -/
structure Kernel where
  system : System
  processor : Processor
  processes : List Process
  nextProcessId : ProcessId

namespace System

def heapState (σ : System) : HeapState := ⟨σ.heap, σ.heapMem, some σ.manager⟩

def withHeap (σ : System) (s : HeapState) : System :=
  { σ with manager := s.manager.getD σ.manager, heap := s.heap, heapMem := s.mem }

end System

/-- The part of a spawn that concerns the scheduler, with what `insert_and_queue_task` returns. -/
def Processor.insertThread (p : Processor) (name : String) (process : ProcessId) (task : Task) :
    Except Halt (Except SchedulerError TaskId × Processor) := do
  let thread := Thread.new p.nextThreadId name process
  let s := { p.sched with threads := Function.update p.sched.threads p.nextThreadId thread }
  let (inserted, s) ← s.insertAndQueueTask task
  match inserted with
  | .error e => pure (.error e, { p with sched := s, nextThreadId := p.nextThreadId + 1 })
  | .ok taskId =>
    pure (.ok taskId,
      { sched := s.modifyThread p.nextThreadId ({ · with taskId := some taskId })
        nextThreadId := p.nextThreadId + 1
        leaving := Function.update p.leaving taskId false })

theorem taskStackSize_fits : taskStackSize + 1 ≤ 2 ^ 63 := by decide

theorem one_isPowerOfTwo : ∃ k, 1 = 2 ^ k := ⟨0, rfl⟩

/-- The request behind `Vec::with_capacity(TASK_STACK_SIZE)`. -/
def stackLayout : Layout := ⟨taskStackSize, 1, one_isPowerOfTwo, taskStackSize_fits⟩

namespace Process

/-- The process and the kernel afterwards, with the thread or the scheduler's error. A task
the scheduler turns away is dropped, and its kernel stack with it. -/
def spawnUserThread (sym : Symbols) (p : Process) (name : String) (userEntry : Nat) (k : Kernel) :
    Except Halt (Except SchedulerError ThreadId × Process × Kernel) := do
  let thread := k.processor.nextThreadId
  let (stack, heap) ← allocate k.system.heapState stackLayout
  let (task, mem) := Task.newUser sym userEntry p.addressSpace p.pml4Phys thread stack heap.mem
  let system := k.system.withHeap { heap with mem := mem }
  let (inserted, processor) ← k.processor.insertThread name p.id task
  match inserted with
  | .error e =>
    let heap ← deallocate system.heapState stack
    pure (.error e, p, { k with system := system.withHeap heap, processor := processor })
  | .ok _ =>
    pure (.ok thread, { p with threads := p.threads ++ [thread] },
      { k with system := system, processor := processor })

end Process

namespace Kernel

def newUserProcess (k : Kernel) (name : String) (kernelPml4Phys : Nat) :
    Except Halt (Process × Kernel) := do
  let (space, manager) ← AddressSpace.init k.system.manager kernelPml4Phys
  let system := { k.system with manager := manager, spaces := space :: k.system.spaces }
  pure (⟨k.nextProcessId, name, space, []⟩,
    { k with system := system, nextProcessId := k.nextProcessId + 1 })

def createUserProcess (sym : Symbols) (k : Kernel) (name : String) (kernelPml4Phys userEntry : Nat) :
    Except Halt (Except SchedulerError Process × Kernel) := do
  let (process, k) ← k.newUserProcess name kernelPml4Phys
  let (spawned, process, k) ← process.spawnUserThread sym "main" userEntry k
  match spawned with
  | .error e => pure (.error e, k)
  | .ok _ => pure (.ok process, { k with processes := k.processes ++ [process] })

end Kernel

def KernelCall.IsHeapCall : KernelCall → Prop
  | .growHeap _ => True
  | .heapWork _ _ => True
  | _ => False

theorem unlinkBlock_relisted (s : HeapState) (previous next : Nat) :
    Relisted s (unlinkBlock s previous next) := by
  unfold unlinkBlock
  split <;> exact ⟨rfl, rfl, rfl, rfl⟩

theorem serveBlock_relisted {s s' : HeapState} {total offset previous current ptr : Nat}
    (hok : serveBlock s total offset previous current = .ok (ptr, s')) : Relisted s s' := by
  have hunlink := unlinkBlock_relisted s previous (s.mem.read64 (current + 8))
  obtain ⟨s1, hleft, hret⟩ := bind_eq_ok.mp hok
  have hsame : Relisted s s1 := by
    unfold returnLeftover at hleft
    split at hleft
    · exact hunlink.trans (insertFreeBlockSorted_relisted hleft)
    · cases hleft
      exact hunlink
  cases hret
  exact ⟨hsame.base, hsame.maxSize, hsame.committed, hsame.manager⟩

namespace System

variable {σ σ1 σ2 σ3 : System} {s s' : HeapState}

def HeapMoves (σ σ' : System) : Prop := Reach (· = σ) (Step fun _ c => c.IsHeapCall) σ'

theorem HeapMoves.trans (h : HeapMoves σ1 σ2) (h' : HeapMoves σ2 σ3) : HeapMoves σ1 σ3 := by
  refine h'.invariant (HeapMoves σ1) ?_ fun _ _ hmoves hstep => .step hmoves hstep
  rintro _ rfl
  exact h

theorem HeapMoves.spaces (h : HeapMoves σ1 σ2) : σ2.spaces = σ1.spaces := by
  refine h.invariant (fun σ => σ.spaces = σ1.spaces) (by rintro _ rfl; rfl) ?_
  rintro σ σ' hσ ⟨c, -, hc, hok⟩
  cases c with
  | growHeap n =>
    obtain ⟨s, -, hret⟩ := bind_eq_ok.mp hok
    cases hret
    exact hσ
  | heapWork freeList mem =>
    cases hok
    exact hσ
  | allocPage | mapPage | unmapPage | unmapAndFreePage | createAddressSpace => exact hc.elim

theorem heapMoves_of_relisted (h : Relisted s s') : HeapMoves (σ.withHeap s) (σ.withHeap s') := by
  refine .step (.start rfl) ⟨.heapWork s'.heap.freeList s'.mem, trivial, trivial, ?_⟩
  obtain ⟨⟨base, maxSize, committed, freeList⟩, mem, manager⟩ := s'
  obtain ⟨rfl, rfl, rfl, rfl⟩ := h
  rfl

theorem heapState_withHeap (hmm : s.manager ≠ none) : (σ.withHeap s).heapState = s := by
  obtain ⟨mm, hmm⟩ := Option.ne_none_iff_exists'.mp hmm
  rw [heapState, withHeap, hmm, Option.getD_some, ← hmm]

theorem heapMoves_of_grow {n : Nat} (hmm : s.manager ≠ none) (hok : grow s n = .ok s') :
    s'.manager ≠ none ∧ HeapMoves (σ.withHeap s) (σ.withHeap s') := by
  have hsame := heapState_withHeap (σ := σ) hmm
  obtain ⟨mm, hmm⟩ := Option.ne_none_iff_exists'.mp hmm
  obtain ⟨mm', -, hmm', -⟩ := grow_eq hmm hok
  refine ⟨by simp [hmm'], .step (.start rfl) ⟨.growHeap n, trivial, trivial, ?_⟩⟩
  refine bind_eq_ok.mpr ⟨s', ?_, ?_⟩
  · rw [show (⟨(σ.withHeap s).heap, (σ.withHeap s).heapMem, some (σ.withHeap s).manager⟩ : HeapState) =
      s from hsame]
    exact hok
  · simp only [withHeap, hmm', Option.getD_some]
    rfl

theorem allocateLoop_moves {total offset fuel previous current ptr : Nat}
    (hmm : s.manager ≠ none)
    (hok : allocateLoop total offset fuel s previous current = .ok (ptr, s')) :
    s'.manager ≠ none ∧ HeapMoves (σ.withHeap s) (σ.withHeap s') := by
  induction fuel generalizing s previous current with
  | zero => cases hok
  | succ fuel ih =>
    rw [allocateLoop] at hok
    split at hok
    · obtain ⟨s1, hgrow, hrest⟩ := bind_eq_ok.mp hok
      obtain ⟨hmm1, hmoves⟩ := heapMoves_of_grow hmm hgrow
      obtain ⟨hmm', hrest⟩ := ih hmm1 hrest
      exact ⟨hmm', hmoves.trans hrest⟩
    · split at hok
      · have hsame := serveBlock_relisted hok
        exact ⟨by rw [hsame.manager]; exact hmm, heapMoves_of_relisted hsame⟩
      · exact ih hmm hok

theorem withHeap_heapState (σ : System) : σ.withHeap σ.heapState = σ := rfl

theorem heapMoves_of_allocate {layout : Layout} {ptr : Nat}
    (hok : allocate σ.heapState layout = .ok (ptr, s)) (mem : Mem) :
    s.manager ≠ none ∧ HeapMoves σ (σ.withHeap { s with mem := mem }) := by
  obtain ⟨hmm, hmoves⟩ := allocateLoop_moves (σ := σ) (s := σ.heapState) (by simp [heapState]) hok
  exact ⟨hmm, hmoves.trans (heapMoves_of_relisted ⟨rfl, rfl, rfl, rfl⟩)⟩

theorem heapMoves_of_deallocate {ptr : Nat} (hok : deallocate σ.heapState ptr = .ok s) :
    HeapMoves σ (σ.withHeap s) :=
  heapMoves_of_relisted (σ := σ) (s := σ.heapState) (insertFreeBlockSorted_relisted hok)

end System

variable {name : String}

theorem Processor.spawn_of_insertThread {p p' : Processor} {process : ProcessId} {task : Task}
    {r : Except SchedulerError TaskId} (hok : p.insertThread name process task = .ok (r, p')) :
    p.spawn name process task = .ok p' := by
  obtain ⟨⟨inserted, s⟩, hinsert, hret⟩ := bind_eq_ok.mp hok
  refine bind_eq_ok.mpr ⟨(inserted, s), hinsert, ?_⟩
  cases inserted with
  | error e =>
    cases hret
    rfl
  | ok taskId =>
    cases hret
    rfl

theorem Processor.insertThread_ok {p p' : Processor} {process : ProcessId} {task : Task}
    {taskId : TaskId} (hok : p.insertThread name process task = .ok (.ok taskId, p')) :
    (p'.sched.threads p.nextThreadId).taskId = some taskId ∧
      p'.sched.find taskId = some { task with id := taskId, state := .ready } := by
  obtain ⟨⟨inserted, s⟩, hinsert, hret⟩ := bind_eq_ok.mp hok
  cases inserted with
  | error e => cases hret
  | ok id =>
    cases hret
    obtain ⟨global, queue, hglobal, -, rfl⟩ := Scheduler.insertAndQueueTask_ok hinsert
    refine ⟨by simp [Scheduler.modifyThread], ?_⟩
    exact ((GlobalScheduler.insertTask_ok hglobal).2 taskId).trans (if_pos rfl)

def Scheduler.Alive (s : Scheduler) (u : ThreadId) : Prop := ∃ a t, s.find a = some t ∧ t.thread = u

/-- The user stack pointer in the frame a thread is entered from for the first time. -/
def Kernel.userRsp (k : Kernel) (u : ThreadId) : Option Nat :=
  ((k.processor.sched.threads u).taskId.bind k.processor.sched.find).map
    fun task => k.system.heapMem.read64 task.userRspAddr

/-- What a call of `spawn_user_thread` on `p` does: the heap moves, the processor gets a task,
and the thread is listed if it found a place. -/
structure UserSpawn (p : Process) (k : Kernel) (r : Except SchedulerError ThreadId) (p' : Process)
    (k' : Kernel) : Prop where
  heap : k.system.HeapMoves k'.system
  spawned : ∃ task : Task, task.thread = k.processor.nextThreadId ∧
    Processor.Spawned k.processor task k'.processor
  processes : k'.processes = k.processes
  result : (∃ e, r = .error e ∧ p' = p) ∨
    r = .ok k.processor.nextThreadId ∧
      p' = { p with threads := p.threads ++ [k.processor.nextThreadId] } ∧
      k'.userRsp k.processor.nextThreadId = some p.addressSpace.userStackTop ∧
      k'.processor.sched.Alive k.processor.nextThreadId

theorem Process.spawnUserThread_spawns {sym : Symbols} {p p' : Process} {userEntry : Nat}
    {k k' : Kernel} {r : Except SchedulerError ThreadId} (hentry : userEntry < 2 ^ 64)
    (htop : p.addressSpace.userStackTop < 2 ^ 64)
    (hok : p.spawnUserThread sym name userEntry k = .ok (r, p', k')) : UserSpawn p k r p' k' := by
  obtain ⟨⟨stack, heap⟩, halloc, hok⟩ := bind_eq_ok.mp hok
  have hframe := @Task.newUser_userRsp sym userEntry p.pml4Phys stack p.addressSpace
    k.processor.nextThreadId heap.mem hentry htop
  have hthread : (Task.newUser sym userEntry p.addressSpace p.pml4Phys k.processor.nextThreadId stack
    heap.mem).1.thread = k.processor.nextThreadId := rfl
  obtain ⟨⟨task, mem⟩, htask⟩ : ∃ new, Task.newUser sym userEntry p.addressSpace p.pml4Phys
    k.processor.nextThreadId stack heap.mem = new := ⟨_, rfl⟩
  rw [htask] at hframe hthread
  simp only [htask] at hok
  have hmoves := (System.heapMoves_of_allocate halloc mem).2
  obtain ⟨⟨inserted, processor⟩, hinsert, hok⟩ := bind_eq_ok.mp hok
  have hspawned : ∃ task : Task, task.thread = k.processor.nextThreadId ∧
      Processor.Spawned k.processor task processor :=
    ⟨task, hthread, Processor.spawn_spawned (Processor.spawn_of_insertThread hinsert)⟩
  cases inserted with
  | error e =>
    obtain ⟨heap', hfree, hret⟩ := bind_eq_ok.mp hok
    cases hret
    exact ⟨hmoves.trans (System.heapMoves_of_deallocate hfree), hspawned, rfl, .inl ⟨e, rfl, rfl⟩⟩
  | ok taskId =>
    cases hok
    obtain ⟨htaskId, hfind⟩ := Processor.insertThread_ok hinsert
    refine ⟨hmoves, hspawned, rfl, .inr ⟨rfl, rfl, ?_, ⟨taskId, _, hfind, hthread⟩⟩⟩
    rw [Kernel.userRsp, htaskId, Option.bind_some, hfind, Option.map_some]
    exact congrArg some hframe

theorem UserSpawn.addressSpace {p p' : Process} {k k' : Kernel} {r : Except SchedulerError ThreadId}
    (h : UserSpawn p k r p' k') : p'.addressSpace = p.addressSpace := by
  rcases h.result with ⟨e, -, rfl⟩ | ⟨-, rfl, -⟩ <;> rfl

theorem Kernel.newUserProcess_ok {k k' : Kernel} {p : Process}
    (hok : k.newUserProcess name k.system.root = .ok (p, k')) :
    ∃ system, k.system.exec .createAddressSpace = .ok system ∧
      system.spaces = p.addressSpace :: k.system.spaces ∧ p.threads = [] ∧
      k' = { k with system := system, nextProcessId := k.nextProcessId + 1 } := by
  obtain ⟨⟨space, manager⟩, hinit, hret⟩ := bind_eq_ok.mp hok
  cases hret
  exact ⟨_, bind_eq_ok.mpr ⟨(space, manager), hinit, rfl⟩, rfl, rfl, rfl⟩

/-- All that is free of the heap is one block, with room for `n` bytes. -/
def System.HeapRoom (σ : System) (n : Nat) : Prop :=
  ∃ live lost b, HeapInv ⟨σ.heapState, live, lost⟩ [b] ∧ n + freeBlockSize ≤ b.size

def stackBlockSize : Nat := taskStackSize + allocHeaderSize

theorem allocationSizes_stackLayout : allocationSizes stackLayout = (stackBlockSize, allocHeaderSize) := by
  decide

namespace System.HeapRoom

variable {σ σ' : System} {n : Nat}

theorem share (h : σ.HeapRoom n) {stack : List Nat} (hlive : σ'.Live stack)
    (hheap : σ'.heap = σ.heap) (hmem : σ'.heapMem = σ.heapMem) : σ'.HeapRoom n := by
  obtain ⟨live, lost, b, hinv, hsize⟩ := h
  refine ⟨live, lost, b, ?_, hsize⟩
  have hshare := hinv.share ⟨hlive.spaces.paging σ'.root_mem, hlive.pml4⟩
  rw [heapState, hheap, hmem]
  exact hshare

theorem allocate (h : σ.HeapRoom (stackBlockSize + n)) : ∃ ptr s, σ.heap.base ≤ ptr ∧
    ptr + taskStackSize < 2 ^ 64 ∧ CrapOs.allocate σ.heapState stackLayout = .ok (ptr, s) ∧
    s.manager = some σ.manager ∧
    ∀ m : Mem, (∀ b n, ptr + taskStackSize ≤ b ∨ b + n ≤ ptr → Mem.AgreeOn s.mem m b n) →
      (σ.withHeap { s with mem := m }).HeapRoom n ∧
        ∃ s', deallocate (σ.withHeap { s with mem := m }).heapState ptr = .ok s' := by
  obtain ⟨live, lost, b, hinv, hsize⟩ := h
  have hfit : takeFit stackBlockSize [b] = some (b, []) := if_pos (by omega)
  obtain ⟨c, rest, s, htake, hok, halloc⟩ := allocate_ok hinv.shaped stackLayout (.inl (by
    rw [allocationSizes_stackLayout, hfit]
    rfl))
  have hnew := hinv.allocate htake rfl halloc
  simp only [allocationSizes_stackLayout] at htake hok halloc hnew
  have hlist : servingList σ.heapState [b] stackBlockSize = [b] := if_pos (by rw [hfit]; rfl)
  rw [hlist, hfit] at htake
  cases htake
  have hcarve : carve stackBlockSize b [] = [⟨b.start + stackBlockSize, b.size - stackBlockSize⟩] :=
    if_pos (by omega)
  rw [hcarve] at hnew
  have hmanager := (System.heapMoves_of_allocate hok s.mem).1
  refine ⟨_, s, ?_, ?_, hok, halloc.manager (by rw [hfit]; rfl), fun m hm => ?_⟩
  · exact Nat.le_trans halloc.inRange.1 (Nat.le_add_right _ _)
  · have hend := halloc.inRange.2
    have hle := halloc.shaped.committed_le
    have hrange := halloc.shaped.range
    rw [halloc.base] at hrange
    simp only [stackBlockSize] at hend
    omega
  · have hwrite := hnew.write (m := m) fun y _ _ hy => by
      have hout := hy _ List.mem_cons_self
      rw [handedOut, allocationSizes_stackLayout] at hout
      simp only [LiveBlock.data, LiveBlock.ptr, Extent.Has, Extent.stop, stackBlockSize] at hout
      exact hm y 1 (by omega) y (Nat.le_refl _) (by omega)
    rw [HeapRoom, heapState_withHeap (s := { s with mem := m }) hmanager]
    refine ⟨⟨_, _, _, hwrite, ?_⟩, ?_⟩
    · show n + freeBlockSize ≤ b.size - stackBlockSize
      omega
    · obtain ⟨s', hfree, -⟩ := hwrite.deallocate_ok List.mem_cons_self
      exact ⟨s', hfree⟩

end System.HeapRoom

namespace Process

variable {sym : Symbols} {name : String} {userEntry n : Nat} {p : Process} {k : Kernel}

theorem spawnUserThread_ok (hroom : k.system.HeapRoom (stackBlockSize + n)) {taskId : TaskId}
    {after : Processor → Prop} (hinsert : ∀ task, ∃ processor,
      k.processor.insertThread name p.id task = .ok (.ok taskId, processor) ∧ after processor) :
    ∃ p' k', p.spawnUserThread sym name userEntry k = .ok (.ok k.processor.nextThreadId, p', k') ∧
      k'.system.HeapRoom n ∧ k'.system.manager = k.system.manager ∧ after k'.processor := by
  obtain ⟨stack, heap, -, hlt, halloc, hmanager, hleft⟩ := hroom.allocate
  have hwrite := hleft _ fun b n hout => @Task.newUser_agreeOn sym userEntry p.pml4Phys stack
    p.addressSpace k.processor.nextThreadId heap.mem hlt b n hout
  obtain ⟨processor, hok, hafter⟩ := hinsert (Task.newUser sym userEntry p.addressSpace p.pml4Phys
    k.processor.nextThreadId stack heap.mem).1
  refine ⟨{ p with threads := p.threads ++ [k.processor.nextThreadId] },
    { k with system := _, processor := processor }, ?_, hwrite.1, ?_, hafter⟩
  · refine bind_eq_ok.mpr ⟨(stack, heap), halloc, ?_⟩
    exact bind_eq_ok.mpr ⟨(.ok taskId, processor), hok, rfl⟩
  · show heap.manager.getD k.system.manager = _
    rw [hmanager, Option.getD_some]

end Process

theorem Kernel.exists_newUserProcess {k : Kernel} {stack : List Nat} {n : Nat} (name : String)
    (hlive : k.system.Live stack) (hlen : 17 ≤ stack.length) (hroom : k.system.HeapRoom n) :
    ∃ p k', k.newUserProcess name k.system.root = .ok (p, k') ∧ k'.system.HeapRoom n ∧
      stack.length ≤ k'.system.manager.phys.pmm.freePages + 17 ∧ k'.processor = k.processor := by
  obtain ⟨space, manager, hinit, hfree⟩ := AddressSpace.init_ok hlive k.system.root_mem hlen
  obtain ⟨system, hsystem⟩ : ∃ system : System,
    { k.system with manager := manager, spaces := space :: k.system.spaces } = system := ⟨_, rfl⟩
  have hexec : k.system.exec .createAddressSpace = .ok system :=
    bind_eq_ok.mpr ⟨(space, manager), hinit, congrArg Except.ok hsystem⟩
  obtain ⟨-, stack', -, -, hlive', -⟩ := System.exec_run (c := .createAddressSpace) hlive trivial
    trivial trivial hexec
  have hroom' := hroom.share hlive' (hsystem ▸ rfl) (hsystem ▸ rfl)
  rw [← hsystem] at hroom'
  exact ⟨_, _, bind_eq_ok.mpr ⟨(space, manager), hinit, rfl⟩, hroom', hfree, rfl⟩

theorem Kernel.createUserProcess_ok {sym : Symbols} {name : String} {userEntry n : Nat} {k : Kernel}
    {stack : List Nat} (hlive : k.system.Live stack) (hlen : 17 ≤ stack.length)
    (hroom : k.system.HeapRoom (stackBlockSize + n)) {taskId : TaskId} {after : Processor → Prop}
    (hinsert : ∀ process task, ∃ processor,
      k.processor.insertThread "main" process task = .ok (.ok taskId, processor) ∧ after processor) :
    ∃ p k', k.createUserProcess sym name k.system.root userEntry = .ok (.ok p, k') ∧
      k'.system.HeapRoom n ∧ stack.length ≤ k'.system.manager.phys.pmm.freePages + 17 ∧
      after k'.processor := by
  obtain ⟨p, k1, hnew, hroom1, hfree, hprocessor⟩ := k.exists_newUserProcess name hlive hlen hroom
  rw [← hprocessor] at hinsert
  obtain ⟨p', k', hspawn, hleft, hmanager, hafter⟩ :=
    @Process.spawnUserThread_ok sym "main" userEntry n p k1 hroom1 _ _ (hinsert p.id)
  rw [← hmanager] at hfree
  refine ⟨p', { k' with processes := k'.processes ++ [p'] }, ?_, hleft, hfree, hafter⟩
  refine bind_eq_ok.mpr ⟨(p, k1), hnew, ?_⟩
  exact bind_eq_ok.mpr ⟨(.ok k1.processor.nextThreadId, p', k'), hspawn, rfl⟩

theorem smallSystem_room {σ : System} (hok : smallSystem.exec (.growHeap 16) = .ok σ) :
    σ.HeapRoom (stackBlockSize + (stackBlockSize + stackBlockSize)) := by
  obtain ⟨s, hgrow, hret⟩ := bind_eq_ok.mp hok
  cases hret
  have hinv := smallSystem_heap.inv.init hgrow
  obtain ⟨mm, -, hmm, -⟩ := grow_eq rfl hgrow
  refine ⟨[], 0, ⟨kernelHeapBase, 0x10000⟩, ?_, by decide⟩
  show HeapInv ⟨(smallSystem.withHeap s).heapState, [], 0⟩ _
  rw [System.heapState_withHeap (by simp [hmm])]
  exact hinv

theorem boot_insertThread (process : ProcessId) (task : Task) :
    ∃ processor, (Processor.boot 0 0 0).insertThread "main" process task =
        .ok (.ok ⟨1, 0⟩, processor) ∧ ∀ name' process' task', ∃ processor',
      processor.insertThread name' process' task' = .ok (.ok ⟨2, 0⟩, processor') :=
  ⟨_, rfl, fun _ _ _ => ⟨_, rfl⟩⟩

end CrapOs
