import CrapOs.ProcessManager.UserStacks
import Mathlib.Data.Fintype.Card
import Mathlib.Data.Set.Lattice
import Mathlib.Order.CompletePartialOrder

/-! # Processes that could not be created

`create_user_process` sets up the address space of the process before it asks
the scheduler for a place. When the scheduler turns the main thread away the
process is dropped, but nothing gives the frames of its address space back.
-/

namespace CrapOs

open Foundation

def TableCall.Takes : TableCall → Prop
  | .unmap _ _ => False
  | .give _ => False
  | _ => True

variable {c : TableCall} {cs : List TableCall} {x y : TableView}

theorem TableStep.suffix (h : TableStep c x y) (hc : c.Takes) : y.stack <:+ x.stack := by
  induction h with
  | take => exact List.suffix_cons _ _
  | map _ hmapped =>
    rw [show _ = _ from hmapped.taken]
    exact List.drop_suffix _ _
  | claim _ _ _ ihtake ihmap => exact (ihmap trivial).trans (ihtake trivial)
  | unmap => exact hc.elim
  | give => exact hc.elim
  | adopt => exact List.suffix_cons _ _

theorem TableRun.suffix (h : TableRun cs x y) (hcs : ∀ c ∈ cs, c.Takes) : y.stack <:+ x.stack := by
  induction h with
  | nil => exact List.suffix_rfl
  | cons hc _ _ ih =>
    have hrest := ih fun c hin => hcs c (List.mem_cons_of_mem _ hin)
    exact hrest.trans (hc.suffix (hcs _ List.mem_cons_self))

namespace System

variable {σ σ' : System} {stack : List Nat}

theorem HeapMoves.suffix (h : σ.HeapMoves σ') (hlive : σ.Live stack) :
    ∃ stack', σ'.Live stack' ∧ stack' <:+ stack := by
  refine h.invariant (fun σ' => ∃ stack', σ'.Live stack' ∧ stack' <:+ stack) ?_ ?_
  · intro σ' hσ'
    rw [hσ']
    exact ⟨stack, hlive, List.suffix_rfl⟩
  · intro σ1 σ2 hσ1 hstep
    obtain ⟨stack1, hlive1, hsuffix⟩ := hσ1
    obtain ⟨call, hrange, hcall, hok⟩ := hstep
    obtain ⟨hshared, hfrees⟩ : call.SparesShared σ1 ∧ call.FreesFrame σ1 stack1 := by
      cases call with
      | growHeap | heapWork => exact ⟨trivial, trivial⟩
      | _ => exact hcall.elim
    obtain ⟨calls, stack2, hexp, -, hlive2, hrun⟩ := exec_run hlive1 hrange hshared hfrees hok
    refine ⟨stack2, hlive2, (hrun.suffix fun t ht => ?_).trans hsuffix⟩
    cases hexp with
    | heapWork => cases ht
    | growHeap =>
      obtain ⟨j, -, rfl⟩ := List.mem_map.mp ht
      trivial
    | _ => exact hcall.elim

theorem Live.createAddressSpace_takes (hlive : σ.Live stack)
    (hok : σ.exec .createAddressSpace = .ok σ') :
    ∃ f rest stack', stack = f :: rest ∧ σ'.Live stack' ∧ stack' <:+ rest := by
  obtain ⟨calls, stack', hexp, -, hlive', hrun⟩ :=
    exec_run (c := .createAddressSpace) hlive trivial trivial trivial hok
  cases hexp with
  | createAddressSpace space =>
    generalize hx : σ.view stack = x at hrun
    cases hrun with
    | cons hadopt _ hclaims =>
      have hsuffix := hclaims.suffix fun t ht => by
        obtain ⟨j, -, rfl⟩ := List.mem_map.mp ht
        trivial
      cases hadopt with
      | @adopt s s' roots rest =>
        exact ⟨_, rest, stack', congrArg TableView.stack hx, hlive', hsuffix⟩

end System

namespace Kernel

def freeFrames (k : Kernel) : Set Nat := {f | OnFreeList k.system.manager.phys f}

def freePages (k : Kernel) : Nat := k.system.manager.phys.pmm.freePages

/-- A call that took the kernel from `k` to `k'` left no trace in the memory manager and the
list of processes. -/
structure Undone (k k' : Kernel) : Prop where
  frames : k'.freeFrames = k.freeFrames
  count : k'.freePages = k.freePages
  processes : k'.processes = k.processes

variable {sym : Symbols} {k k' : Kernel} {p p' : Process} {name : String} {userEntry : Nat}
  {e : SchedulerError} {stack stack' : List Nat}

theorem freeFrames_eq (h : k.system.Live stack) : k.freeFrames = {f | f ∈ stack} :=
  Set.ext fun _ => h.spaces.free.onFreeList_iff

theorem freePages_eq (h : k.system.Live stack) : k.freePages = stack.length := h.spaces.free.count

theorem spawnUserThread_error (hok : p.spawnUserThread sym name userEntry k = .ok (.error e, p', k')) :
    k.system.HeapMoves k'.system ∧ k'.processes = k.processes := by
  obtain ⟨⟨kernelStack, heap⟩, halloc, hok⟩ := bind_eq_ok.mp hok
  have hmoves := (System.heapMoves_of_allocate halloc (Task.newUser sym userEntry p.addressSpace
    p.pml4Phys k.processor.nextThreadId kernelStack heap.mem).2).2
  obtain ⟨⟨inserted, processor⟩, -, hok⟩ := bind_eq_ok.mp hok
  cases inserted with
  | error e' =>
    obtain ⟨heap', hfree, hret⟩ := bind_eq_ok.mp hok
    cases hret
    exact ⟨hmoves.trans (System.heapMoves_of_deallocate hfree), rfl⟩
  | ok taskId => cases hok

theorem freeFrames_ssubset {f : Nat} {rest : List Nat} (hlive : k.system.Live stack)
    (hlive' : k'.system.Live stack') (hstack : stack = f :: rest) (hsuffix : stack' <:+ rest) :
    k'.freeFrames ⊂ k.freeFrames ∧ k'.freePages < k.freePages := by
  have hnodup := hlive.spaces.free.nodup
  rw [hstack, List.nodup_cons] at hnodup
  rw [freeFrames_eq hlive, freeFrames_eq hlive', freePages_eq hlive, freePages_eq hlive', hstack]
  refine ⟨⟨fun a ha => List.mem_cons_of_mem f (hsuffix.subset ha), fun hsub => ?_⟩, ?_⟩
  · exact hnodup.1 (hsuffix.subset (hsub List.mem_cons_self))
  · exact Nat.lt_succ_of_le hsuffix.length_le

theorem createUserProcess_error (hlive : k.system.Live stack)
    (hok : k.createUserProcess sym name k.system.root userEntry = .ok (.error e, k')) :
    k'.processes = k.processes ∧ k'.freeFrames ⊂ k.freeFrames ∧ k'.freePages < k.freePages := by
  obtain ⟨⟨p, k1⟩, hnew, hok⟩ := bind_eq_ok.mp hok
  obtain ⟨system, hexec, -, -, rfl⟩ := newUserProcess_ok hnew
  obtain ⟨f, rest, stack1, hstack, hlive1, hsuffix1⟩ := hlive.createAddressSpace_takes hexec
  obtain ⟨⟨r, p', k2⟩, hspawn, hret⟩ := bind_eq_ok.mp hok
  cases r with
  | ok u => cases hret
  | error e' =>
    cases hret
    obtain ⟨hmoves, hprocesses⟩ := spawnUserThread_error hspawn
    obtain ⟨stack', hlive', hsuffix'⟩ := hmoves.suffix hlive1
    exact ⟨hprocesses, freeFrames_ssubset hlive hlive' hstack (hsuffix'.trans hsuffix1)⟩

end Kernel

namespace GlobalScheduler

variable {g g' : GlobalScheduler} {task : Task} {taskId : TaskId}

def vacant (g : GlobalScheduler) : Finset (Fin maxTasks) :=
  Finset.univ.filter fun i => (g.tasks i).task = none

theorem freeSlot_eq_none_iff : g.freeSlot = none ↔ g.vacant = ∅ := by
  simp [freeSlot, vacant, Finset.filter_eq_empty_iff]

theorem insertTask_of_vacant (h : g.vacant ≠ ∅) (task : Task) :
    ∃ taskId g', g.insertTask task = .ok (taskId, g') ∧ g'.vacant.card + 1 = g.vacant.card := by
  cases hslot : g.freeSlot with
  | none => exact absurd (freeSlot_eq_none_iff.mp hslot) h
  | some i =>
    have hfree : (g.tasks i).task = none := by simpa using List.find?_some hslot
    refine ⟨_, _, by rw [insertTask, hslot], ?_⟩
    have herase : (g.setSlot i { g.tasks i with task := some { task with
        id := ⟨i.val, (g.tasks i).slotGeneration⟩, state := .ready } }).vacant = g.vacant.erase i := by
      ext j
      by_cases hj : j = i
      · subst hj
        simp [vacant, setSlot]
      · simp [vacant, setSlot, hj]
    rw [herase]
    exact Finset.card_erase_add_one (by simp [vacant, hfree])

end GlobalScheduler

namespace UserRun

variable {sym : Symbols} {exempt : TablePath → Prop} {cond : Kernel → Process → Prop} {w : UserRun}

structure CanFill (w : UserRun) (n : Nat) : Prop where
  vacant : w.kernel.processor.sched.global.vacant.card = n
  room : w.kernel.processor.sched.queue.entries.length + n ≤ 2 ^ 8
  here : w.kernel.processor.leaving w.kernel.processor.sched.current = false

/-- Kernel threads are spawned until the task table is full. -/
theorem CanFill.exists_full {n : Nat} (h : w.CanFill n) (hreach : w.Reached sym exempt cond) :
    ∃ w' : UserRun, w'.Reached sym exempt cond ∧ w'.kernel.system = w.kernel.system ∧
      w'.kernel.processor.sched.global.freeSlot = none := by
  induction n generalizing w with
  | zero =>
    refine ⟨w, hreach, rfl, ?_⟩
    exact GlobalScheduler.freeSlot_eq_none_iff.mpr (Finset.card_eq_zero.mp h.vacant)
  | succ n ih =>
    have hvacant : w.kernel.processor.sched.global.vacant ≠ ∅ := by
      intro hnone
      have hcard := h.vacant
      rw [hnone] at hcard
      cases hcard
    have hroom := h.room
    have hcard := h.vacant
    obtain ⟨taskId, g, hinsert, hless⟩ := GlobalScheduler.insertTask_of_vacant hvacant
      (Processor.sampleTask w.kernel.processor.nextThreadId)
    obtain ⟨q, hpush, hentries⟩ := w.kernel.processor.sched.queue.pushOr_of_room
      SchedulerError.queueFull (by omega) taskId
    have hen : w.kernel.processor.Enabled
        (.spawn "A" 1 (Processor.sampleTask w.kernel.processor.nextThreadId)) :=
      ⟨h.here, rfl, Processor.sampleTask_isNew _⟩
    have hhere : Function.update w.kernel.processor.leaving taskId false
        w.kernel.processor.sched.current = false := by
      rw [Function.update_apply]
      split
      · rfl
      · exact h.here
    obtain ⟨p, hspawn, hglobal, hqueue, hleaving⟩ : ∃ p, w.kernel.processor.spawn "A" 1
        (Processor.sampleTask w.kernel.processor.nextThreadId) = .ok p ∧
        p.sched.global = g ∧ p.sched.queue = q ∧ p.leaving p.sched.current = false :=
      ⟨_, Processor.spawn_eq "A" 1 hinsert hpush, rfl, rfl, hhere⟩
    refine ih (w := { w with kernel := { w.kernel with processor := p } }) ⟨?_, ?_, hleaving⟩
      (.step hreach (.event hen hspawn))
    · rw [hglobal]
      omega
    · rw [hqueue, hentries, List.length_append, List.length_singleton]
      omega

end UserRun

theorem Processor.insertThread_full {p : Processor} (hfull : p.sched.global.freeSlot = none)
    (name : String) (process : ProcessId) (task : Task) :
    ∃ p', p.insertThread name process task = .ok (.error .taskTableFull, p') := by
  have hinsert : p.sched.global.insertTask task = .error .taskTableFull := by
    rw [GlobalScheduler.insertTask, hfull]
  rw [insertThread, Scheduler.insertAndQueueTask]
  rw [hinsert]
  exact ⟨_, rfl⟩

namespace Kernel

variable {sym : Symbols} {k : Kernel} {stack : List Nat} {n : Nat}

theorem createUserProcess_full (name : String) (userEntry : Nat) (hlive : k.system.Live stack)
    (hlen : 17 ≤ stack.length) (hroom : k.system.HeapRoom (stackBlockSize + n))
    (hfull : k.processor.sched.global.freeSlot = none) :
    ∃ k', k.createUserProcess sym name k.system.root userEntry =
      .ok (.error .taskTableFull, k') := by
  obtain ⟨p, k1, hnew, hroom1, -, hprocessor⟩ := k.exists_newUserProcess name hlive hlen hroom
  rw [← hprocessor] at hfull
  obtain ⟨kernelStack, heap, -, hlt, halloc, -, hleft⟩ := hroom1.allocate
  obtain ⟨heap', hfree⟩ := (hleft _ fun b n hout => @Task.newUser_agreeOn sym userEntry p.pml4Phys
    kernelStack p.addressSpace k1.processor.nextThreadId heap.mem hlt b n hout).2
  obtain ⟨processor, hinsert⟩ := Processor.insertThread_full hfull "main" p.id (Task.newUser sym
    userEntry p.addressSpace p.pml4Phys k1.processor.nextThreadId kernelStack heap.mem).1
  have hspawn : p.spawnUserThread sym "main" userEntry k1 = .ok (.error .taskTableFull, p, _) :=
    bind_eq_ok.mpr ⟨(kernelStack, heap), halloc, bind_eq_ok.mpr
      ⟨(.error .taskTableFull, processor), hinsert, bind_eq_ok.mpr ⟨heap', hfree, rfl⟩⟩⟩
  exact ⟨_, bind_eq_ok.mpr ⟨(p, k1), hnew, bind_eq_ok.mpr ⟨_, hspawn, rfl⟩⟩⟩

theorem exists_failed_creation : ∃ (w : UserRun) (stack : List Nat) (k' : Kernel),
    w.Reached Processor.sampleSymbols (fun _ => False) (fun _ _ => True) ∧ w.kernel.system.Live stack ∧
      w.kernel.createUserProcess Processor.sampleSymbols "User Test" w.kernel.system.root 0x400000 =
        .ok (.error .taskTableFull, k') := by
  obtain ⟨σ, stack, hreach, hlive, hlen, hroom⟩ :=
    UserRun.exists_booted Processor.sampleSymbols fun _ _ => True
  have hcard := Finset.card_le_univ (Processor.boot 0 0 0).sched.global.vacant
  rw [Fintype.card_fin] at hcard
  have hfill : UserRun.CanFill ⟨⟨σ, .boot 0 0 0, [], 1⟩, fun _ => none⟩ _ :=
    ⟨rfl, (Nat.zero_add _).trans_le hcard, rfl⟩
  obtain ⟨w, hw, hsystem, hfull⟩ := hfill.exists_full hreach
  rw [← show w.kernel.system = σ from hsystem] at hlive hroom
  obtain ⟨k', hok⟩ := createUserProcess_full "User Test" 0x400000 hlive (by omega) hroom hfull
  exact ⟨w, stack, k', hw, hlive, hok⟩

/-- Whenever `create_user_process` returns an error the list of processes is as before, but
frames that were free are not free any more. -/
theorem failed_creation_not_undone {k' : Kernel} {name : String} {userEntry : Nat}
    {e : SchedulerError} (hlive : k.system.Live stack)
    (hok : k.createUserProcess sym name k.system.root userEntry = .ok (.error e, k')) :
    ¬ k.Undone k' ∧ k'.processes = k.processes ∧ k'.freeFrames ⊂ k.freeFrames ∧
      k'.freePages < k.freePages := by
  obtain ⟨hprocesses, hframes, hcount⟩ := createUserProcess_error hlive hok
  exact ⟨fun hundone => hframes.ne hundone.frames, hprocesses, hframes, hcount⟩

theorem failed_creation_not_undone_full : ∃ (w : UserRun) (k' : Kernel),
    w.kernel.createUserProcess Processor.sampleSymbols "User Test" w.kernel.system.root 0x400000 =
        .ok (.error .taskTableFull, k') ∧ k'.freePages < w.kernel.freePages := by
  obtain ⟨w, stack, k', -, hlive, hok⟩ := exists_failed_creation
  exact ⟨w, k', hok, (failed_creation_not_undone hlive hok).2.2.2⟩

/-- With 256 tasks in the table the call fails and keeps frames that were free. -/
theorem full_table_keeps_frames : ∃ (w : UserRun) (k' : Kernel),
    w.Reached Processor.sampleSymbols (fun _ => False) (fun _ _ => True) ∧
      w.kernel.createUserProcess Processor.sampleSymbols "User Test" w.kernel.system.root 0x400000 =
        .ok (.error .taskTableFull, k') ∧
      ¬ w.kernel.Undone k' := by
  obtain ⟨w, stack, k', hreach, hlive, hok⟩ := exists_failed_creation
  obtain ⟨-, hframes, -⟩ := createUserProcess_error hlive hok
  exact ⟨w, k', hreach, hok, fun hundone => hframes.ne hundone.frames⟩

end Kernel

end CrapOs
