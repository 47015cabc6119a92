import CrapOs.MemoryManager.AfterBoot
import CrapOs.MemoryManager.FrameContents
import CrapOs.ProcessManager.UserStacks
import CrapOs.TaskScheduler.Resume
import CrapOs.TaskScheduler.Switcher

/-! # The first instruction of a user process

What ring 3 can see when a new process is entered: the general registers and the
pages open to it. The switch zeroes the registers a function has to keep and leaves
the others as the kernel had them.
-/

namespace CrapOs

open Foundation Scheduler

instance (w : Walk) : Decidable w.User := inferInstanceAs (Decidable (_ ∧ _ ∧ _ ∧ _))

def userByte (m : Mem) (root v : Nat) : Option UInt8 :=
  (walk m root v).bind fun w => if w.User then some (m (frameOf w.pte + v % pageSize)) else none

structure CreateArgs where
  name : String
  kernelPml4Phys : Nat
  userEntry : Nat
deriving DecidableEq, Repr

theorem AddressSpace.init_top {mm mm' : MemoryManager} {kernelPml4Phys : Nat} {space : AddressSpace}
    (hok : init mm kernelPml4Phys = .ok (space, mm')) : space.userStackTop = defaultStackTop := by
  obtain ⟨⟨f, mm1⟩, halloc⟩ : ∃ r, mm.allocPage = r := ⟨_, rfl⟩
  simp only [init, halloc] at hok
  cases f with
  | none => cases hok
  | some f =>
    obtain ⟨mm2, -, hret⟩ := bind_eq_ok.mp hok
    cases hret
    rfl

theorem Kernel.createUserProcess_eq_ok {sym : Symbols} {k k' : Kernel} {name : String}
    {kernelPml4Phys userEntry : Nat} {p : Process} :
    k.createUserProcess sym name kernelPml4Phys userEntry = .ok (.ok p, k') ↔
      ∃ space manager system stack heap taskId processor,
        AddressSpace.init k.system.manager kernelPml4Phys = .ok (space, manager) ∧
        { k.system with manager := manager, spaces := space :: k.system.spaces } = system ∧
        allocate system.heapState stackLayout = .ok (stack, heap) ∧
        k.processor.insertThread "main" k.nextProcessId (Task.newUser sym userEntry space
          space.pml4Phys k.processor.nextThreadId stack heap.mem).1 = .ok (.ok taskId, processor) ∧
        p = ⟨k.nextProcessId, name, space, [k.processor.nextThreadId]⟩ ∧
        k' = ⟨system.withHeap { heap with mem := (Task.newUser sym userEntry space space.pml4Phys
            k.processor.nextThreadId stack heap.mem).2 },
          processor, k.processes ++ [p], k.nextProcessId + 1⟩ := by
  constructor
  · intro hok
    obtain ⟨⟨p0, k1⟩, hnew, hok⟩ := bind_eq_ok.mp hok
    obtain ⟨⟨space, manager⟩, hinit, hret⟩ := bind_eq_ok.mp hnew
    cases hret
    obtain ⟨⟨r, p1, k2⟩, hspawn, hok⟩ := bind_eq_ok.mp hok
    obtain ⟨⟨stack, heap⟩, halloc, hspawn⟩ := bind_eq_ok.mp hspawn
    obtain ⟨⟨inserted, processor⟩, hinsert, hspawn⟩ := bind_eq_ok.mp hspawn
    cases inserted with
    | error e =>
      obtain ⟨heap', -, hret⟩ := bind_eq_ok.mp hspawn
      cases hret
      cases hok
    | ok taskId =>
      cases hspawn
      cases hok
      exact ⟨space, manager, _, stack, heap, taskId, processor, hinit, rfl, halloc, hinsert, rfl, rfl⟩
  · rintro ⟨space, manager, system, stack, heap, taskId, processor, hinit, hsystem, halloc, hinsert,
      rfl, rfl⟩
    have hspawn : Process.spawnUserThread sym ⟨k.nextProcessId, name, space, []⟩ "main" userEntry
        ⟨system, k.processor, k.processes, k.nextProcessId + 1⟩ =
          .ok (.ok k.processor.nextThreadId,
            ⟨k.nextProcessId, name, space, [k.processor.nextThreadId]⟩,
            ⟨system.withHeap _, processor, k.processes, k.nextProcessId + 1⟩) :=
      bind_eq_ok.mpr ⟨(stack, heap), halloc, bind_eq_ok.mpr ⟨(.ok taskId, processor), hinsert, rfl⟩⟩
    refine bind_eq_ok.mpr ⟨_, bind_eq_ok.mpr ⟨(space, manager), hinit, rfl⟩, ?_⟩
    rw [hsystem]
    exact bind_eq_ok.mpr ⟨_, hspawn, rfl⟩

structure StackPageOf (m : Mem) (space : AddressSpace) (j f : Nat) (σ : System) (stack : List Nat) :
    Prop where
  listed : space ∈ σ.spaces
  unheld : ¬ (σ.view stack).Holds f
  bytes : Mem.AgreeOn m σ.manager.phys.mem f pageSize
  entry : entryAt σ.manager.phys.mem space.pml4Phys (pagePath (AddressSpace.stackPage j)) =
    some (leafEntry f AddressSpace.stackFlags)

section StackPages

variable {exempt : TablePath → Prop} {σ σ' : System} {stack : List Nat} {m : Mem}
  {space : AddressSpace} {j f : Nat}

theorem System.HeapMoves.stackPageOf (hmoves : σ.HeapMoves σ') (hσ : σ.Partitioned exempt stack)
    (hj : j < AddressSpace.defaultStackPages) (hframe : IsFrame f)
    (hpage : StackPageOf m space j f σ stack) :
    ∃ stack', σ'.Partitioned exempt stack' ∧ StackPageOf m space j f σ' stack' := by
  refine hmoves.invariant (fun σ => ∃ stack, σ.Partitioned exempt stack ∧
    StackPageOf m space j f σ stack) (by rintro _ rfl; exact ⟨stack, hσ, hpage⟩) ?_
  rintro σ σ' ⟨stack, hσ, hpage⟩ ⟨c, hrange, hc, hok⟩
  obtain ⟨stack', hσ', -, hspaces⟩ := hσ.exec hrange hc.proper hok
  have hentry := hσ.stack_kept hrange hc.proper hok hpage.listed hj hpage.entry
  have hdata : ¬ (σ'.view stack').Holds f ∧
      Mem.AgreeOn σ.manager.phys.mem σ'.manager.phys.mem f pageSize := by
    cases c with
    | growHeap n => exact System.growHeap_data hσ.live hok hσ'.live hframe hpage.unheld
    | heapWork =>
      cases hok
      obtain rfl := hσ.live.spaces.free.unique hσ'.live.spaces.free
      exact ⟨hpage.unheld, .refl _ _ _⟩
    | allocPage | mapPage | unmapPage | unmapAndFreePage | createAddressSpace => exact hc.elim
  exact ⟨stack', hσ', hspaces _ hpage.listed, hdata.1, hpage.bytes.trans hdata.2, hentry⟩

/-- Ring 3 reads the bytes of the frame. -/
theorem StackPageOf.userByte (h : StackPageOf m space j f σ stack) (hσ : σ.Partitioned exempt stack)
    (hj : j < AddressSpace.defaultStackPages) (hframe : IsFrame f) {o : Nat} (ho : o < pageSize) :
    userByte σ.manager.phys.mem space.pml4Phys (AddressSpace.stackPage j + o) = some (m (f + o)) := by
  have haligned : AddressSpace.stackPage j % pageSize = 0 := by
    simp only [AddressSpace.stackPage, AddressSpace.defaultStackTop, AddressSpace.defaultStackPages,
      pageSize] at hj ⊢
    omega
  obtain ⟨w, hw, hdata, hpte⟩ := hσ.walk_page h.listed hj (pagePath_add haligned ho) h.entry
  have huser : w.User := by
    have hflag : ∀ e, e &&& (Flag.user ||| Flag.writable) = Flag.user ||| Flag.writable →
        e &&& Flag.user ≠ 0 := by
      intro e he hzero
      have hmask := congrArg (· &&& Flag.user) he
      rw [Nat.and_assoc] at hmask
      exact absurd (hzero.symm.trans hmask) (by decide)
    have hall := hdata.passable
    exact ⟨hflag _ (hall _ (by simp)), hflag _ (hall _ (by simp)), hflag _ (hall _ (by simp)),
      hflag _ (hall _ (by simp))⟩
  have hwindow := hframe.window
  rw [directMapWindow_eq] at hwindow
  have hf : frameOf w.pte = f := by
    rw [hpte]
    exact (frameOf_leafEntry hframe.aligned (by omega)
      (show AddressSpace.stackFlags &&& kernelFlags = _ by decide)).1
  have hoffset : (AddressSpace.stackPage j + o) % pageSize = o := by
    rw [Nat.add_mod, haligned, Nat.zero_add, Nat.mod_mod, Nat.mod_eq_of_lt ho]
  rw [CrapOs.userByte, hw, Option.bind_some, if_pos huser, hf, hoffset]
  exact congrArg some (h.bytes (f + o) (by omega) (by omega))

end StackPages

/-! ## Entries -/

/-- A process is created, the scheduler runs for a while, and then the new thread is switched
to for the first time. -/
structure UserEntry (sym : Symbols) where
  args : CreateArgs
  entry_lt : args.userEntry < 2 ^ 64
  before : Kernel
  reached : before.processor.Reached sym fun _ _ => True
  process : Process
  created : Kernel
  creates : before.createUserProcess sym args.name args.kernelPml4Phys args.userEntry =
    .ok (.ok process, created)
  -- the task of the new thread, as it was made
  taskId : TaskId
  task : Task
  thread : (created.processor.sched.threads before.processor.nextThreadId).taskId = some taskId
  held : created.processor.sched.find taskId = some task
  -- the history of the scheduler up to the call that selects it
  processor : Processor
  history : Reach (· = created.processor) (Processor.Step sym fun _ _ => True) processor
  event : Event
  caller : Scheduler
  rsp : Nat
  calls : processor.scheduleCall event = some (caller, rsp)
  switch : SwitchArgs
  next : Scheduler
  schedules : caller.schedule sym = .ok (some switch, next)
  selects : next.current = taskId
  -- it did not run yet: its context is the one it was made with, and so is its frame
  newRsp : switch.newRsp = task.savedRsp
  newCr3 : switch.newCr3 = task.cr3
  cpu : Cpu
  called : CalledWith switch cpu
  frame : Mem.AgreeOn created.system.heapMem cpu.mem task.savedRsp UserInitialFrame.size
  frame_lt : task.savedRsp + UserInitialFrame.size < 2 ^ 64
  -- neither the stack that is left nor the static task table overlaps the frame
  saves : SavesApart cpu task.savedRsp UserInitialFrame.size
  tableApart : ∀ slot < maxTasks, sym.savedRsp slot + 8 ≤ task.savedRsp ∨
    task.savedRsp + UserInitialFrame.size ≤ sym.savedRsp slot

structure Observation where
  regs : Reg → Nat
  memory : Nat → Option UInt8

namespace UserEntry

variable {sym : Symbols}

def first (e : UserEntry sym) : Cpu := switchIn sym e.cpu

def observed (e : UserEntry sym) : Observation :=
  ⟨e.first.regs, userByte e.created.system.manager.phys.mem e.first.cr3⟩

structure Made (e : UserEntry sym) (manager : MemoryManager) (system : System) (stack : Nat)
    (heap : HeapState) : Prop where
  init : AddressSpace.init e.before.system.manager e.args.kernelPml4Phys =
    .ok (e.process.addressSpace, manager)
  space : { e.before.system with
    manager := manager, spaces := e.process.addressSpace :: e.before.system.spaces } = system
  alloc : allocate system.heapState stackLayout = .ok (stack, heap)
  savedRsp : e.task.savedRsp = Task.framePtr stack
  cr3 : e.task.cr3 = e.process.pml4Phys
  created : e.created.system = system.withHeap { heap with mem := (Task.newUser sym e.args.userEntry
    e.process.addressSpace e.process.pml4Phys e.before.processor.nextThreadId stack heap.mem).2 }

theorem exists_made (e : UserEntry sym) : ∃ manager system stack heap,
    e.Made manager system stack heap := by
  obtain ⟨space, manager, system, stack, heap, taskId, processor, hinit, hsystem, halloc, hinsert, hp,
    hk⟩ := Kernel.createUserProcess_eq_ok.mp e.creates
  obtain ⟨hthread, hfind⟩ := Processor.insertThread_ok hinsert
  have hid : e.taskId = taskId := by
    have hown := e.thread
    rw [hk] at hown
    exact Option.some.inj (hown.symm.trans hthread)
  have htask := e.held
  rw [hk, hid] at htask
  have htask := Option.some.inj (htask.symm.trans hfind)
  have hspace : e.process.addressSpace = space := by rw [hp]
  have hpml4 : e.process.pml4Phys = space.pml4Phys := congrArg AddressSpace.pml4Phys hspace
  exact ⟨manager, system, stack, heap, by rw [hspace]; exact hinit, by rw [hspace]; exact hsystem,
    halloc, by rw [htask]; rfl, by rw [htask, hpml4]; rfl, by rw [hk, hspace, hpml4]⟩

theorem switch_eq (e : UserEntry sym) :
    e.switch.oldRspPtr = sym.savedRsp e.caller.current.slotIndex ∧ e.task.savedRsp ≠ 0 := by
  obtain ⟨nextId, s1, s2, next, -, -, -, -, hargs⟩ := Scheduler.schedule_ok e.schedules
  rw [Scheduler.switchArgs] at hargs
  split at hargs
  · cases hargs
  · rename_i hgive
    have hswitch := Option.some.inj hargs
    refine ⟨by rw [hswitch], ?_⟩
    rw [← e.newRsp, hswitch]
    exact (not_or.mp hgive).2

theorem first_regs (e : UserEntry sym) :
    e.first.regs .rdi = sym.savedRsp e.caller.current.slotIndex ∧
      e.first.regs .rsi = e.task.savedRsp ∧ e.first.regs .rdx = e.process.pml4Phys := by
  obtain ⟨manager, system, stack, heap, hmade⟩ := e.exists_made
  have hkept : ∀ r, CallerSaved r → e.first.regs r = e.cpu.regs r := fun _ =>
    switchIn_callerSaved sym e.cpu
  rw [hkept .rdi (by decide), hkept .rsi (by decide), hkept .rdx (by decide), e.called.rdi,
    e.called.rsi, e.called.rdx, e.newRsp, e.newCr3, hmade.cr3]
  exact ⟨e.switch_eq.1, rfl, rfl⟩

theorem first_ring3 (e : UserEntry sym) : e.first.rip = e.args.userEntry ∧ e.first.cs = userCsRpl3 ∧
    e.first.regs .rsp = e.process.addressSpace.userStackTop ∧
    (e.process.pml4Phys ≠ 0 → e.first.cr3 = e.process.pml4Phys) := by
  obtain ⟨manager, system, stack, heap, hmade⟩ := e.exists_made
  have htop := AddressSpace.init_top hmade.init
  have hrsi : e.cpu.regs .rsi = e.task.savedRsp := e.called.rsi.trans e.newRsp
  have hword : ∀ k (hk : k < 12), e.cpu.mem.read64 (e.cpu.regs .rsi + 8 * k) =
      (Task.userFrame sym e.args.userEntry e.process.addressSpace).words[k] := by
    intro k hk
    have hagree : Mem.AgreeOn e.created.system.heapMem e.cpu.mem (e.task.savedRsp + 8 * k) 8 :=
      e.frame.mono (by omega) (by simp only [UserInitialFrame.size]; omega)
    rw [hrsi, Mem.read64_congr hagree, hmade.created, hmade.savedRsp]
    exact @Task.newUser_word sym e.args.userEntry e.process.pml4Phys stack e.process.addressSpace
      e.before.processor.nextThreadId heap.mem e.entry_lt (by rw [htop]; decide) k hk
  have hrdx : e.cpu.regs .rdx = e.process.pml4Phys := by rw [e.called.rdx, e.newCr3, hmade.cr3]
  obtain ⟨hrip, hcs, hsp, hcr3⟩ := switchIn_stub (by rw [hrsi]; exact e.saves)
    (by rw [hrsi]; exact e.frame_lt) (hword 6 (by decide))
  refine ⟨hrip.trans (hword 7 (by decide)), hcs.trans (hword 8 (by decide)),
    hsp.trans (hword 10 (by decide)), fun hne => hcr3.trans ?_⟩
  rw [hrdx, if_neg hne]

/-- The four pages of the stack show ring 3 what four frames contained that were free when the
process was created. -/
theorem former_content (e : UserEntry sym) {exempt : TablePath → Prop} {stack : List Nat}
    (h : e.before.system.Partitioned exempt stack)
    (hroot : e.args.kernelPml4Phys = e.before.system.root) {j : Nat}
    (hj : j < AddressSpace.defaultStackPages) :
    ∃ f ∈ stack, ∀ o < pageSize, e.observed.memory (AddressSpace.stackPage j + o) =
      some (e.before.system.manager.phys.mem (f + o)) := by
  obtain ⟨manager, system, kernelStack, heap, hmade⟩ := e.exists_made
  have hinit := hmade.init
  rw [hroot] at hinit
  have hexec : e.before.system.exec .createAddressSpace = .ok system :=
    bind_eq_ok.mpr ⟨(e.process.addressSpace, manager), hinit, congrArg Except.ok hmade.space⟩
  obtain ⟨stack1, hσ1, -⟩ := h.createAddressSpace hexec
  obtain ⟨stack2, -, -, hptr, hlive, -⟩ := AddressSpace.init_run h.live e.before.system.root_mem hinit
  obtain ⟨f, hf, hframe, hunheld, hagree, hentry⟩ :=
    AddressSpace.init_pages h.live e.before.system.root_mem hinit hlive j hj
  have hroots : system.roots = e.process.addressSpace.pml4Phys :: e.before.system.roots := by
    rw [← hmade.space, System.roots, System.roots, System.root, System.root, MemoryManager.root,
      MemoryManager.root, hptr]
    rfl
  have hmanager : system.manager = manager := by rw [← hmade.space]
  have hfree := hσ1.live.spaces.free
  rw [hmanager] at hfree
  obtain rfl := hlive.spaces.free.unique hfree
  have hpage : StackPageOf e.before.system.manager.phys.mem e.process.addressSpace j f system stack2 := by
    refine ⟨?_, ?_, ?_, ?_⟩
    · rw [← hmade.space]
      exact List.mem_cons_self
    · rw [System.view, hroots, hmanager]
      exact hunheld
    · rw [hmanager]
      exact hagree
    · rw [hmanager]
      exact hentry
  have hmoves : system.HeapMoves e.created.system := by
    rw [hmade.created]
    exact (System.heapMoves_of_allocate hmade.alloc _).2
  obtain ⟨stack3, hσ3, hlast⟩ := hmoves.stackPageOf hσ1 hj hframe hpage
  have hpml4 : e.process.pml4Phys ≠ 0 :=
    (hlive.spaces.forest.frame List.mem_cons_self).nonzero
  refine ⟨f, hf, fun o ho => ?_⟩
  show userByte _ e.first.cr3 _ = _
  rw [e.first_ring3.2.2.2 hpml4]
  exact hlast.userByte hσ3 hj hframe ho

end UserEntry

/-! ## Other entries with the same arguments -/

def Processor.TurnsFrom (sym : Symbols) (q : Processor) (slot : Nat) : Prop :=
  ∀ process task, task.savedRsp ≠ 0 → ∃ taskId q' next,
    q.insertThread "main" process task = .ok (.ok taskId, q') ∧
      q'.sched.schedule sym = .ok (some ⟨sym.savedRsp slot, task.savedRsp, task.cr3⟩, next) ∧
      next.current = taskId

namespace Processor

variable {sym : Symbols}

theorem insertAndQueueTask_of_push {s : Scheduler} {task : Task} {taskId : TaskId}
    {global : GlobalScheduler} {queue : PerCpuQueue}
    (hinsert : s.global.insertTask task = .ok (taskId, global))
    (hpush : s.queue.push taskId = .ok queue) :
    s.insertAndQueueTask task = .ok (.ok taskId, { s with global := global, queue := queue }) := by
  simp only [insertAndQueueTask, hinsert, hpush]

/-- With nobody waiting, the next task is the one that is given. -/
theorem turnsFrom {q : Processor} (hqueue : q.sched.queue.entries = [])
    (hslot : q.sched.global.freeSlot ≠ none) (hcurrent : q.sched.find q.sched.current ≠ none) :
    q.TurnsFrom sym q.sched.current.slotIndex := by
  intro process task hrsp
  obtain ⟨i, hi⟩ := Option.ne_none_iff_exists'.mp hslot
  obtain ⟨taskId, global, hinsert⟩ : ∃ taskId global,
      q.sched.global.insertTask task = .ok (taskId, global) := by
    rw [GlobalScheduler.insertTask, hi]
    exact ⟨_, _, rfl⟩
  obtain ⟨-, hfind⟩ := GlobalScheduler.insertTask_ok hinsert
  cases hpush : q.sched.queue.push taskId with
  | error e =>
    have hfull := (RingBuffer.pushOr_error hpush).2
    rw [hqueue] at hfull
    cases hfull
  | ok queue =>
    have hentries : queue.entries = [taskId] := (RingBuffer.pushOr_ok hpush).trans (by rw [hqueue]; rfl)
    have hok : ∃ q', q.insertThread "main" process task = .ok (.ok taskId, q') ∧
        q'.sched.global = global ∧ q'.sched.queue = queue ∧ q'.sched.current = q.sched.current :=
      ⟨_, bind_eq_ok.mpr ⟨_, insertAndQueueTask_of_push hinsert hpush, rfl⟩, rfl, rfl, rfl⟩
    obtain ⟨q', hok, hglobal, hq, hcur⟩ := hok
    have hnew : q'.sched.find taskId = some { task with id := taskId, state := .ready } := by
      rw [Scheduler.find, hglobal, hfind, if_pos rfl]
    have hold : q'.sched.find q.sched.current ≠ none := by
      rw [Scheduler.find, hglobal, hfind]
      split
      · exact Option.some_ne_none _
      · exact hcurrent
    obtain ⟨nextId, s1, s2, hchosen, hrequeued, heq⟩ := q'.sched.schedule_eq
    -- both the new task and the current one keep their contexts while they are moved about
    have hfollow : Follows SameContext (fun _ => False) q'.sched s2 :=
      (allowsSwitch_sameContext.chosen hchosen).trans SameContext.trans
        (allowsSwitch_sameContext.requeued hrequeued)
    have hfirst : nextId = taskId := by
      have hready : q'.sched.InState taskId .ready := ⟨_, hnew, rfl⟩
      rw [hchosen.eq_firstReady, Scheduler.firstReady, hq, hentries,
        List.find?_cons_of_pos (by simpa using hready)]
      rfl
    obtain ⟨next, hnext, hsaved, -, -, hcr3⟩ := hfollow.find_after hnew not_false
    obtain ⟨out, hout⟩ := Option.ne_none_iff_exists'.mp hold
    obtain ⟨out', hout', -⟩ := hfollow.find_after hout not_false
    have hargs : s2.switchArgs sym q'.sched.current next =
        some ⟨sym.savedRsp q.sched.current.slotIndex, task.savedRsp, task.cr3⟩ := by
      rw [Scheduler.switchArgs, hcur, if_neg, hsaved, hcr3]
      rw [not_or, hout', hsaved]
      exact ⟨Option.some_ne_none _, hrsp⟩
    refine ⟨taskId, q', s2.dispatched nextId next, hok, ?_, hfirst⟩
    rw [heq sym, hfirst, hnext]
    simp only [hargs]

theorem boot_turnsFrom : (boot 0 0 0).TurnsFrom sym 0 :=
  turnsFrom (by decide) (by decide) (by decide)

theorem exists_turnsFrom (sym : Symbols) :
    ∃ q : Processor, q.Reached sym (fun _ _ => True) ∧ q.TurnsFrom sym 1 := by
  obtain ⟨q, hreached, hcurrent, hqueue, hslot, hfind⟩ := exists_reached sampleSymbols
    (fun _ _ => True) 0 0 0 [.spawn "A" 1 (sampleTask 1), .initComplete, .yield 0x7000]
    (fun q => q.sched.current = ⟨1, 0⟩ ∧ q.sched.queue.entries = [] ∧
      q.sched.global.freeSlot ≠ none ∧ q.sched.find ⟨1, 0⟩ ≠ none) (by decide +kernel)
  refine ⟨q, hreached.symbols sym, ?_⟩
  have hturns : q.TurnsFrom sym q.sched.current.slotIndex := turnsFrom hqueue hslot (hcurrent ▸ hfind)
  rwa [hcurrent] at hturns

end Processor

namespace UserEntry

variable {sym : Symbols}

def calling (args : SwitchArgs) (sp : Nat) (m : Mem) : Cpu where
  regs
    | .rdi => args.oldRspPtr
    | .rsi => args.newRsp
    | .rdx => args.newCr3
    | .rsp => sp
    | _ => 0
  rip := 0
  cs := 0
  rflags := 0
  ss := 0
  zf := false
  cr3 := 0
  mem := m

theorem exists_of_parts {k : Kernel} {args : CreateArgs} {space : AddressSpace}
    {manager : MemoryManager} {system : System} {stack slot : Nat} {heap : HeapState} {q : Processor}
    (hentry : args.userEntry < 2 ^ 64)
    (hinit : AddressSpace.init k.system.manager args.kernelPml4Phys = .ok (space, manager))
    (hsystem : { k.system with manager := manager, spaces := space :: k.system.spaces } = system)
    (halloc : allocate system.heapState stackLayout = .ok (stack, heap))
    (hne : Task.framePtr stack ≠ 0) (hlt : Task.framePtr stack + UserInitialFrame.size < 2 ^ 64)
    (htable : ∀ slot < maxTasks, sym.savedRsp slot + 8 ≤ Task.framePtr stack ∨
      Task.framePtr stack + UserInitialFrame.size ≤ sym.savedRsp slot)
    (hreached : q.Reached sym fun _ _ => True) (hslot : slot < maxTasks)
    (hturns : q.TurnsFrom sym slot) :
    ∃ e : UserEntry sym, e.args = args ∧ e.before = { k with processor := q } ∧
      e.first.regs .rdi = sym.savedRsp slot := by
  obtain ⟨taskId, q', next, hinsert, hsched, hcurrent⟩ := hturns k.nextProcessId
    (Task.newUser sym args.userEntry space space.pml4Phys q.nextThreadId stack heap.mem).1 hne
  obtain ⟨hthread, hfind⟩ := Processor.insertThread_ok hinsert
  -- a stack that is nowhere near the frame
  obtain ⟨sp, hroom, hsp, hapart⟩ : ∃ sp, 48 ≤ sp ∧ sp < 2 ^ 64 ∧
      (sp ≤ Task.framePtr stack ∨ Task.framePtr stack + UserInitialFrame.size ≤ sp - 48) := by
    simp only [UserInitialFrame.size] at hlt ⊢
    by_cases hlow : 48 ≤ Task.framePtr stack
    · exact ⟨Task.framePtr stack, hlow, by omega, .inl (Nat.le_refl _)⟩
    · exact ⟨1024, by omega, by omega, .inr (by omega)⟩
  exact ⟨{
    args := args
    entry_lt := hentry
    before := { k with processor := q }
    reached := hreached
    process := _
    created := _
    creates := Kernel.createUserProcess_eq_ok.mpr ⟨space, manager, system, stack, heap, taskId, q',
      hinit, hsystem, halloc, hinsert, rfl, rfl⟩
    taskId := taskId
    task := _
    thread := hthread
    held := hfind
    processor := q'
    history := .start rfl
    event := .yield 1
    caller := q'.sched
    rsp := 1
    calls := rfl
    switch := _
    next := next
    schedules := hsched
    selects := hcurrent
    newRsp := rfl
    newCr3 := rfl
    cpu := calling ⟨sym.savedRsp slot, Task.framePtr stack, space.pml4Phys⟩ sp _
    called := ⟨rfl, rfl, rfl⟩
    frame := .refl _ _ _
    frame_lt := hlt
    saves := ⟨hroom, hsp, hapart, htable slot hslot⟩
    tableApart := htable }, rfl, rfl, switchIn_callerSaved (r := .rdi) sym _ (by decide)⟩

/-- Whatever ring 3 sees at one entry, another one with the same arguments and on the same
memory shows it something else: the scheduler's history reaches it in `rdi`. -/
theorem exists_other (hdistinct : sym.savedRsp 0 ≠ sym.savedRsp 1) (e : UserEntry sym) :
    ∃ e' : UserEntry sym, e'.args = e.args ∧ e'.before.system = e.before.system ∧
      e'.first.regs .rdi ≠ e.first.regs .rdi := by
  obtain ⟨manager, system, stack, heap, hmade⟩ := e.exists_made
  have hother : ∀ slot < maxTasks, ∀ q : Processor, q.Reached sym (fun _ _ => True) →
      q.TurnsFrom sym slot → ∃ e' : UserEntry sym, e'.args = e.args ∧
        e'.before.system = e.before.system ∧ e'.first.regs .rdi = sym.savedRsp slot := by
    intro slot hslot q hreached hturns
    obtain ⟨e', hargs, hbefore, hrdi⟩ := exists_of_parts (k := e.before) e.entry_lt hmade.init
      hmade.space hmade.alloc (hmade.savedRsp ▸ e.switch_eq.2) (hmade.savedRsp ▸ e.frame_lt)
      (hmade.savedRsp ▸ e.tableApart) hreached hslot hturns
    exact ⟨e', hargs, by rw [hbefore], hrdi⟩
  -- one of the first two tasks of the table is not the one that was left
  by_cases hzero : e.first.regs .rdi = sym.savedRsp 0
  · obtain ⟨q, hreached, hturns⟩ := Processor.exists_turnsFrom sym
    obtain ⟨e', hargs, hsystem, hrdi⟩ := hother 1 (by decide) q hreached hturns
    exact ⟨e', hargs, hsystem, by rw [hrdi, hzero]; exact hdistinct.symm⟩
  · obtain ⟨e', hargs, hsystem, hrdi⟩ := hother 0 (by decide) _ (.start ⟨0, 0, 0, rfl⟩)
      Processor.boot_turnsFrom
    exact ⟨e', hargs, hsystem, by rw [hrdi]; exact Ne.symm hzero⟩

/-- At the first instruction of any process, ring 3 finds the arguments of `switch_to` in its
registers: the place of the stack pointer of the task that was left, the stack pointer in the
kernel, and the physical address of the page tables. On its stack it finds what the frames
contained before. And there is always another entry, with the same arguments and even the same
memory, at which it would see something else. -/
theorem first_instruction_sees_kernel (hdistinct : sym.savedRsp 0 ≠ sym.savedRsp 1)
    (e : UserEntry sym) :
    (e.first.rip = e.args.userEntry ∧ e.first.cs = userCsRpl3) ∧
      (e.first.regs .rdi = sym.savedRsp e.caller.current.slotIndex ∧
        e.first.regs .rsi = e.task.savedRsp ∧ e.first.regs .rdx = e.process.pml4Phys) ∧
      (∀ exempt stack, e.before.system.Partitioned exempt stack →
        e.args.kernelPml4Phys = e.before.system.root → ∀ j < AddressSpace.defaultStackPages,
          ∃ f ∈ stack, ∀ o < pageSize, e.observed.memory (AddressSpace.stackPage j + o) =
            some (e.before.system.manager.phys.mem (f + o))) ∧
      ∃ e' : UserEntry sym, e'.args = e.args ∧ e'.before.system = e.before.system ∧
        e'.observed ≠ e.observed := by
  obtain ⟨hrip, hcs, -⟩ := e.first_ring3
  obtain ⟨e', hargs, hsystem, hrdi⟩ := e.exists_other hdistinct
  refine ⟨⟨hrip, hcs⟩, e.first_regs, fun _ _ h hroot _ hj => e.former_content h hroot hj, e', hargs,
    hsystem, fun hsame => hrdi ?_⟩
  exact congrFun (congrArg Observation.regs hsame) .rdi

/-- On the small machine a process can be created, and entered from any task. -/
theorem exists_smallEntry : ∃ σ : System, ∀ slot < maxTasks, ∀ q : Processor,
    q.Reached Processor.sampleSymbols (fun _ _ => True) → q.TurnsFrom Processor.sampleSymbols slot →
      ∃ e : UserEntry Processor.sampleSymbols, e.args = ⟨"User Test", 0x1000, 0x400000⟩ ∧
        e.before.system = σ ∧ e.first.regs .rdi = 0x1000 + 8 * slot := by
  obtain ⟨σ, stack, hgrow, hlive, hlen⟩ := smallSystem_init
  have hstart : smallSystem.Partitioned (fun _ => False) (stockedFrames 128) :=
    System.partitioned_of_empty smallSystem_live
      (owned_of_empty smallSystem_roots smallSystem_entry) rfl
  obtain ⟨-, -, hroot, -⟩ := hstart.exec (show KernelCall.InRange smallSystem (.growHeap 16) from trivial)
    ⟨trivial, trivial, trivial, trivial⟩ hgrow
  rw [smallSystem_root] at hroot
  have hbase : σ.heap.base = kernelHeapBase := by
    obtain ⟨s, hs, hret⟩ := bind_eq_ok.mp hgrow
    cases hret
    obtain ⟨mm, -, -, hbase, -⟩ := grow_eq rfl hs
    exact hbase
  obtain ⟨space, manager, hinit, -⟩ := AddressSpace.init_ok hlive σ.root_mem (by omega)
  obtain ⟨system, hsystem⟩ : ∃ system : System,
    { σ with manager := manager, spaces := space :: σ.spaces } = system := ⟨_, rfl⟩
  have hexec : σ.exec .createAddressSpace = .ok system :=
    bind_eq_ok.mpr ⟨(space, manager), hinit, congrArg Except.ok hsystem⟩
  obtain ⟨-, stack', -, -, hlive', -⟩ := System.exec_run (c := .createAddressSpace) hlive trivial
    trivial trivial hexec
  have hroom := (smallSystem_room hgrow).share hlive' (hsystem ▸ rfl) (hsystem ▸ rfl)
  obtain ⟨kernelStack, heap, hle, hlt, halloc, -, -⟩ := hroom.allocate
  obtain ⟨hlow, hhigh⟩ := Task.framePtr_bounds hlt
  simp only [taskStackSize, UserInitialFrame.size] at hlow hhigh hle hlt
  refine ⟨σ, fun slot hslot q hreached hturns => ?_⟩
  have htable : ∀ slot < maxTasks, Processor.sampleSymbols.savedRsp slot + 8 ≤
      Task.framePtr kernelStack := by
    intro slot hslot
    simp only [Processor.sampleSymbols, maxTasks] at hslot ⊢
    omega
  obtain ⟨e, hargs, hbefore, hrdi⟩ : ∃ e : UserEntry Processor.sampleSymbols,
      e.args = ⟨"User Test", 0x1000, 0x400000⟩ ∧ e.before = ⟨σ, q, [], 1⟩ ∧ _ :=
    exists_of_parts (k := ⟨σ, q, [], 1⟩) (by decide) (hroot ▸ hinit) hsystem halloc (by omega)
      (by simp only [UserInitialFrame.size]; omega) (fun slot hslot => .inl (htable slot hslot))
      hreached hslot hturns
  exact ⟨e, hargs, by rw [hbefore], hrdi⟩

theorem first_instruction_sees_kernel_test : ∃ e e' : UserEntry Processor.sampleSymbols,
    e.args = ⟨"User Test", 0x1000, 0x400000⟩ ∧ e.first.rip = 0x400000 ∧ e'.args = e.args ∧
      e'.observed ≠ e.observed := by
  obtain ⟨σ, hentry⟩ := exists_smallEntry
  obtain ⟨e, hargs, -⟩ := hentry 0 (by decide) _ (.start ⟨0, 0, 0, rfl⟩) Processor.boot_turnsFrom
  obtain ⟨⟨hrip, -⟩, -, -, e', hargs', -, hne⟩ := first_instruction_sees_kernel (by decide) e
  exact ⟨e, e', hargs, by rw [hrip, hargs], hargs', hne⟩

/-- The same creation on the same machine, entered from the idle task and from a kernel task:
ring 3 finds a different kernel address in `rdi`. -/
theorem kernel_address_in_rdi : ∃ e e' : UserEntry Processor.sampleSymbols,
    e.args = ⟨"User Test", 0x1000, 0x400000⟩ ∧ e'.args = e.args ∧
      e'.before.system = e.before.system ∧ e.first.regs .rdi = 0x1000 ∧
      e'.first.regs .rdi = 0x1008 ∧ e'.observed ≠ e.observed := by
  obtain ⟨σ, hentry⟩ := exists_smallEntry
  obtain ⟨q, hreached, hturns⟩ := Processor.exists_turnsFrom Processor.sampleSymbols
  obtain ⟨e, hargs, hsystem, hrdi⟩ := hentry 0 (by decide) _ (.start ⟨0, 0, 0, rfl⟩)
    Processor.boot_turnsFrom
  obtain ⟨e', hargs', hsystem', hrdi'⟩ := hentry 1 (by decide) q hreached hturns
  refine ⟨e, e', hargs, hargs'.trans hargs.symm, hsystem'.trans hsystem.symm, hrdi, hrdi', ?_⟩
  intro hsame
  have hregs := congrFun (congrArg Observation.regs hsame) .rdi
  exact absurd (hrdi'.symm.trans (hregs.trans hrdi)) (by decide)

end UserEntry

end CrapOs
