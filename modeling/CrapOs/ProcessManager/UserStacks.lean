import CrapOs.MemoryManager.UserHalf
import CrapOs.ProcessManager.Process
import CrapOs.TaskScheduler.LifecycleRuns

/-! # The stacks of user threads

`AddressSpace.init` maps one stack, and every thread of the process starts at its
top. The stacks of different processes are apart; those of two threads of one
process are the same.
-/

namespace CrapOs

open Foundation

namespace Scheduler

variable {s s' : Scheduler} {u : ThreadId}

theorem Follows.alive {D : TaskId → Prop} (h : Follows SameThread D s s') (hu : s'.Alive u) :
    s.Alive u := by
  obtain ⟨a, t', ht', rfl⟩ := hu
  obtain ⟨t, ht, hthread⟩ := h.find_before ht'
  exact ⟨a, t, ht, hthread.symm⟩

end Scheduler

namespace Processor

open Scheduler

variable {p p' : Processor} {sym : Symbols} {e : Event} {task : Task} {u : ThreadId}

theorem Spawned.alive (h : Spawned p task p') (hu : p'.sched.Alive u) :
    p.sched.Alive u ∨ u = task.thread := by
  obtain ⟨a, t, ht, rfl⟩ := hu
  cases h with
  | refused => exact .inl ⟨a, t, ht, rfl⟩
  | placed _ hfind =>
    rw [show Scheduler.find _ a = _ from hfind a] at ht
    split_ifs at ht
    · cases ht
      exact .inr rfl
    · exact .inl ⟨a, t, ht, rfl⟩

theorem Spawned.still_alive (h : Spawned p task p') (hu : p.sched.Alive u) : p'.sched.Alive u := by
  obtain ⟨a, t, ht, rfl⟩ := hu
  cases h with
  | refused => exact ⟨a, t, ht, rfl⟩
  | placed hnew hfind =>
    refine ⟨a, t, (hfind a).trans ((if_neg ?_).trans ht), rfl⟩
    rintro rfl
    cases hnew.symm.trans ht

theorem Spawned.nextThreadId (h : Spawned p task p') : p'.nextThreadId = p.nextThreadId + 1 := by
  cases h <;> rfl

theorem exec_alive (hen : p.Enabled e) (hok : p.exec sym e = .ok p') :
    p.nextThreadId ≤ p'.nextThreadId ∧
      ∀ u, p'.sched.Alive u → p.sched.Alive u ∨ u = p.nextThreadId := by
  rcases exec_sameThread hok with ⟨name, process, task, rfl⟩ | ⟨hfollow, hnext⟩
  · have hspawn := spawn_spawned hok
    refine ⟨hspawn.nextThreadId ▸ Nat.le_succ _, fun u hu => ?_⟩
    rw [← hen.2.1]
    exact hspawn.alive hu
  · exact ⟨Nat.le_of_eq hnext.symm, fun u hu => .inl (hfollow.alive hu)⟩

end Processor

/-- The kernel, and the stack pointer each user thread was created with. -/
structure UserRun where
  kernel : Kernel
  given : ThreadId → Option Nat

def UserRun.created (w : UserRun) (k' : Kernel) : UserRun :=
  ⟨k', Function.update w.given w.kernel.processor.nextThreadId
    (k'.userRsp w.kernel.processor.nextThreadId)⟩

/-- `create_user_process` is given the kernel's PML4; `spawn_user_thread` is called on processes
that exist, subject to `cond`. In between tasks are scheduled, and the rest of the kernel
works with the memory manager. -/
inductive UserStep (sym : Symbols) (exempt : TablePath → Prop) (cond : Kernel → Process → Prop)
    (w : UserRun) : UserRun → Prop
  | create {name : String} {userEntry : Nat} {r : Except SchedulerError Process} {k' : Kernel} :
      userEntry < 2 ^ 64 →
      w.kernel.createUserProcess sym name w.kernel.system.root userEntry = .ok (r, k') →
      UserStep sym exempt cond w (w.created k')
  | spawn {i : Nat} {p p' : Process} {name : String} {userEntry : Nat}
      {r : Except SchedulerError ThreadId} {k' : Kernel} :
      w.kernel.processes[i]? = some p → cond w.kernel p → userEntry < 2 ^ 64 →
      p.spawnUserThread sym name userEntry w.kernel = .ok (r, p', k') →
      UserStep sym exempt cond w (w.created { k' with processes := k'.processes.set i p' })
  | event {e : Event} {processor : Processor} : w.kernel.processor.Enabled e →
      w.kernel.processor.exec sym e = .ok processor →
      UserStep sym exempt cond w { w with kernel := { w.kernel with processor := processor } }
  | memory {c : KernelCall} {system : System} : c.InRange w.kernel.system →
      c.Proper exempt w.kernel.system → w.kernel.system.exec c = .ok system →
      UserStep sym exempt cond w { w with kernel := { w.kernel with system := system } }

structure UserRun.Start (exempt : TablePath → Prop) (w : UserRun) : Prop where
  memory : ∃ stack, w.kernel.system.Live stack ∧ Owned exempt (w.kernel.system.view stack)
  noSpaces : w.kernel.system.spaces = []
  noProcesses : w.kernel.processes = []

def UserRun.Reached (sym : Symbols) (exempt : TablePath → Prop) (cond : Kernel → Process → Prop) :
    UserRun → Prop :=
  Reach (UserRun.Start exempt) (UserStep sym exempt cond)

/-! ## What every run keeps -/

theorem KernelCall.IsHeapCall.proper {exempt : TablePath → Prop} {σ : System} {c : KernelCall}
    (h : c.IsHeapCall) : c.Proper exempt σ := by
  cases c with
  | growHeap | heapWork => exact ⟨trivial, trivial, trivial, trivial⟩
  | allocPage | mapPage | unmapPage | unmapAndFreePage | createAddressSpace => exact h.elim

theorem System.HeapMoves.partitioned {exempt : TablePath → Prop} {σ σ' : System} {stack : List Nat}
    (h : σ.HeapMoves σ') (hσ : σ.Partitioned exempt stack) : ∃ stack', σ'.Partitioned exempt stack' := by
  refine h.invariant (fun σ => ∃ stack, σ.Partitioned exempt stack) (by rintro _ rfl; exact ⟨stack, hσ⟩) ?_
  rintro σ σ' ⟨stack, hσ⟩ ⟨c, hrange, hc, hok⟩
  obtain ⟨stack', hσ', -⟩ := hσ.exec hrange hc.proper hok
  exact ⟨stack', hσ'⟩

/-- A thread that a process lists: its number has been given out, and it started at the top
of the stack of the address space. -/
def UserRun.Listed (w : UserRun) (u : ThreadId) : Prop :=
  u < w.kernel.processor.nextThreadId ∧ w.given u = some AddressSpace.defaultStackTop

/-- The address spaces of the processes are apart, and each thread was given the stack of its
process. -/
structure UserRun.Settled (exempt : TablePath → Prop) (w : UserRun) : Prop where
  memory : ∃ stack, w.kernel.system.Partitioned exempt stack
  spaces : ∀ p ∈ w.kernel.processes, p.addressSpace ∈ w.kernel.system.spaces
  apart : (w.kernel.processes.map Process.pml4Phys).Nodup
  listed : ∀ p ∈ w.kernel.processes, ∀ u ∈ p.threads, w.Listed u

namespace UserRun

variable {sym : Symbols} {exempt : TablePath → Prop} {cond : Kernel → Process → Prop} {w w' : UserRun}
  {k' : Kernel} {p p' : Process} {r : Except SchedulerError ThreadId} {u : ThreadId}

theorem created_given_self (w : UserRun) (k' : Kernel) :
    (w.created k').given w.kernel.processor.nextThreadId =
      k'.userRsp w.kernel.processor.nextThreadId :=
  Function.update_self ..

theorem created_given_of_ne (k' : Kernel) (hu : u ≠ w.kernel.processor.nextThreadId) :
    (w.created k').given u = w.given u :=
  Function.update_of_ne hu ..

theorem Listed.created (h : w.Listed u) (hnext : k'.processor.nextThreadId =
    w.kernel.processor.nextThreadId + 1) : (w.created k').Listed u := by
  refine ⟨?_, (created_given_of_ne k' (Nat.ne_of_lt h.1)).trans h.2⟩
  show u < k'.processor.nextThreadId
  rw [hnext]
  exact Nat.lt_succ_of_lt h.1

theorem listed_spawned (hspawn : UserSpawn p w.kernel r p' k') {processes : List Process}
    (htop : p.addressSpace.userStackTop = AddressSpace.defaultStackTop)
    (hold : ∀ u ∈ p.threads, w.Listed u) :
    ∀ u ∈ p'.threads, (w.created { k' with processes := processes }).Listed u := by
  obtain ⟨task, -, hspawned⟩ := hspawn.spawned
  have hnext := hspawned.nextThreadId
  intro u hu
  rcases hspawn.result with ⟨e, -, rfl⟩ | ⟨-, rfl, hrsp, -⟩
  · exact (hold u hu).created hnext
  · rcases List.mem_append.mp hu with hu | hu
    · exact (hold u hu).created hnext
    · rw [List.mem_singleton.mp hu]
      refine ⟨?_, (created_given_self w _).trans ?_⟩
      · show w.kernel.processor.nextThreadId < k'.processor.nextThreadId
        rw [hnext]
        exact Nat.lt_succ_self _
      · rw [← htop]
        exact hrsp

variable {i : Nat}

theorem set_of_getElem? {α : Type} {l : List α} {a : α} (h : l[i]? = some a) :
    l.set i a = l := by
  obtain ⟨hi, rfl⟩ := List.getElem?_eq_some_iff.mp h
  exact List.set_getElem_self hi

theorem spawned_pml4s (hspawn : UserSpawn p w.kernel r p' k') (hi : w.kernel.processes[i]? = some p) :
    (k'.processes.set i p').map Process.pml4Phys = w.kernel.processes.map Process.pml4Phys := by
  have hsame : p'.pml4Phys = p.pml4Phys := congrArg AddressSpace.pml4Phys hspawn.addressSpace
  rw [hspawn.processes, List.map_set, hsame]
  apply set_of_getElem?
  rw [List.getElem?_map, hi, Option.map_some]

theorem Settled.spawn (h : w.Settled exempt) (hi : w.kernel.processes[i]? = some p)
    (hspawn : UserSpawn p w.kernel r p' k') :
    (w.created { k' with processes := k'.processes.set i p' }).Settled exempt := by
  have hp : p ∈ w.kernel.processes := List.mem_of_getElem? hi
  obtain ⟨stack, hmem⟩ := h.memory
  have htop := (hmem.userStack _ (h.spaces p hp)).1
  obtain ⟨task, -, hspawned⟩ := hspawn.spawned
  have hcases : ∀ q ∈ k'.processes.set i p', q = p' ∨ q ∈ w.kernel.processes := by
    intro q hq
    rw [hspawn.processes] at hq
    exact (List.mem_or_eq_of_mem_set hq).symm
  refine ⟨hspawn.heap.partitioned hmem, fun q hq => ?_, ?_, fun q hq => ?_⟩
  · show q.addressSpace ∈ k'.system.spaces
    rw [hspawn.heap.spaces]
    rcases hcases q hq with rfl | hq
    · rw [hspawn.addressSpace]
      exact h.spaces p hp
    · exact h.spaces q hq
  · show ((k'.processes.set i p').map Process.pml4Phys).Nodup
    rw [spawned_pml4s hspawn hi]
    exact h.apart
  · rcases hcases q hq with rfl | hq
    · exact listed_spawned hspawn htop (h.listed p hp)
    · exact fun u hu => (h.listed q hq u hu).created hspawned.nextThreadId

def withProcess (w : UserRun) (system : System) (p : Process) : UserRun :=
  { w with kernel := { w.kernel with system := system, processes := w.kernel.processes ++ [p] } }

/-- What `create_user_process` does: it makes an address space, spawns a thread on it, and
registers the process unless the thread was turned away. -/
inductive Creates (w : UserRun) : Except SchedulerError Process → Kernel → Prop
  | intro {system : System} {p p' : Process} {r : Except SchedulerError ThreadId}
      {result : Except SchedulerError Process} {k' : Kernel} :
      w.kernel.system.exec .createAddressSpace = .ok system →
      system.spaces = p.addressSpace :: w.kernel.system.spaces → p.threads = [] →
      UserSpawn p (w.withProcess system p).kernel r p' { k' with
        processes := w.kernel.processes ++ [p] } →
      result = (r.map fun _ => p') →
      k'.processes = w.kernel.processes ++ result.toOption.toList →
      Creates w result k'

theorem createUserProcess_creates {stack : List Nat} (h : w.kernel.system.Partitioned exempt stack)
    {name : String} {userEntry : Nat} {result : Except SchedulerError Process}
    (hentry : userEntry < 2 ^ 64)
    (hok : w.kernel.createUserProcess sym name w.kernel.system.root userEntry = .ok (result, k')) :
    w.Creates result k' := by
  obtain ⟨⟨p, k1⟩, hnew, hok⟩ := bind_eq_ok.mp hok
  obtain ⟨system, hexec, hspaces, hthreads, rfl⟩ := Kernel.newUserProcess_ok hnew
  obtain ⟨stack1, hsystem, -⟩ := h.createAddressSpace hexec
  obtain ⟨⟨r, p', k2⟩, hspawn, hret⟩ := bind_eq_ok.mp hok
  have htop := (hsystem.userStack p.addressSpace (hspaces ▸ List.mem_cons_self)).1
  have hspawned := Process.spawnUserThread_spawns hentry (by rw [htop]; decide) hspawn
  -- the list of processes plays no part in the spawn
  cases r with
  | error e =>
    cases hret
    refine .intro hexec hspaces hthreads
      ⟨hspawned.heap, hspawned.spawned, rfl, hspawned.result⟩ rfl ?_
    exact hspawned.processes.trans (List.append_nil _).symm
  | ok u =>
    cases hret
    refine .intro hexec hspaces hthreads
      ⟨hspawned.heap, hspawned.spawned, rfl, hspawned.result⟩ rfl ?_
    rw [show k2.processes = w.kernel.processes from hspawned.processes]
    rfl

theorem Settled.withProcess (h : w.Settled exempt) {system : System}
    (hexec : w.kernel.system.exec .createAddressSpace = .ok system)
    (hspaces : system.spaces = p.addressSpace :: w.kernel.system.spaces) (hnone : p.threads = []) :
    (w.withProcess system p).Settled exempt := by
  obtain ⟨stack, hmem⟩ := h.memory
  obtain ⟨stack', hmem', -, hsub⟩ := hmem.createAddressSpace hexec
  have hapart := hmem'.apart
  rw [System.roots, hspaces, List.map_cons, List.cons_append, List.nodup_cons] at hapart
  refine ⟨⟨stack', hmem'⟩, fun q hq => ?_, ?_, fun q hq u hu => ?_⟩
  · rcases List.mem_append.mp hq with hq | hq
    · exact hsub _ (h.spaces q hq)
    · rw [List.mem_singleton.mp hq]
      exact hspaces ▸ List.mem_cons_self
  · show ((w.kernel.processes ++ [p]).map Process.pml4Phys).Nodup
    rw [List.map_append]
    refine List.nodup_append'.mpr ⟨h.apart, List.nodup_singleton _, ?_⟩
    intro a ha hap
    obtain ⟨q, hq, rfl⟩ := List.mem_map.mp ha
    refine hapart.1 (List.mem_append_left _ (List.mem_map.mpr ⟨q.addressSpace, h.spaces q hq, ?_⟩))
    exact List.mem_singleton.mp hap
  · rcases List.mem_append.mp hq with hq | hq
    · exact h.listed q hq u hu
    · rw [List.mem_singleton.mp hq, hnone] at hu
      cases hu

theorem Settled.sublist (h : w.Settled exempt) {processes : List Process}
    (hsub : processes.Sublist w.kernel.processes) :
    ({ w with kernel := { w.kernel with processes := processes } } : UserRun).Settled exempt where
  memory := h.memory
  spaces p hp := h.spaces p (hsub.subset hp)
  apart := h.apart.sublist (hsub.map _)
  listed p hp := h.listed p (hsub.subset hp)

theorem sublist_of_created {l : List Process} {result : Except SchedulerError Process}
    (h : result = r.map fun _ => p') :
    (l ++ result.toOption.toList).Sublist ((l ++ [p]).set l.length p') := by
  have hset : (l ++ [p]).set l.length p' = l ++ [p'] := by
    rw [List.set_append_right _ _ (Nat.le_refl _), Nat.sub_self]
    rfl
  rw [hset, h]
  cases r with
  | error e => exact (List.nil_sublist _).append_left l
  | ok u => exact List.Sublist.refl _

theorem Settled.create (h : w.Settled exempt) (hcreate : w.Creates result k') :
    (w.created k').Settled exempt := by
  cases hcreate with
  | intro hexec hspaces hnone hspawn hresult hlist =>
    have hspawned := (h.withProcess hexec hspaces hnone).spawn List.getElem?_concat_length hspawn
    exact hspawned.sublist (hlist ▸ sublist_of_created hresult)

theorem Creates.registered (h : w.Creates (.ok p) k') :
    k'.processes = w.kernel.processes ++ [p] ∧ ∃ u ∈ p.threads, k'.processor.sched.Alive u := by
  cases h with
  | intro _ _ _ hspawn hresult hlist =>
    obtain ⟨e, rfl, -⟩ | ⟨rfl, hp', -, halive⟩ := hspawn.result
    · cases hresult
    cases hresult
    refine ⟨hlist, _, ?_, halive⟩
    rw [hp']
    exact List.mem_append_right _ (List.mem_singleton_self _)

theorem Creates.still_alive {result : Except SchedulerError Process} (h : w.Creates result k')
    (hu : w.kernel.processor.sched.Alive u) : k'.processor.sched.Alive u := by
  cases h with
  | intro _ _ _ hspawn =>
    obtain ⟨task, -, hspawned⟩ := hspawn.spawned
    exact hspawned.still_alive hu

theorem Settled.spawns (h : w.Settled exempt) (hi : w.kernel.processes[i]? = some p) {name : String}
    {userEntry : Nat} (hentry : userEntry < 2 ^ 64)
    (hok : p.spawnUserThread sym name userEntry w.kernel = .ok (r, p', k')) :
    UserSpawn p w.kernel r p' k' := by
  obtain ⟨stack, hmem⟩ := h.memory
  have htop := (hmem.userStack _ (h.spaces p (List.mem_of_getElem? hi))).1
  exact Process.spawnUserThread_spawns hentry (by rw [htop]; decide) hok

theorem Settled.step (h : w.Settled exempt) (hstep : UserStep sym exempt cond w w') :
    w'.Settled exempt := by
  cases hstep with
  | create hentry hok =>
    obtain ⟨stack, hmem⟩ := h.memory
    exact h.create (createUserProcess_creates hmem hentry hok)
  | spawn hi _ hentry hok => exact h.spawn hi (h.spawns hi hentry hok)
  | event hen hok =>
    obtain ⟨hnext, -⟩ := Processor.exec_alive hen hok
    refine ⟨h.memory, h.spaces, h.apart, fun p hp u hu => ?_⟩
    obtain ⟨hlt, hgiven⟩ := h.listed p hp u hu
    exact ⟨Nat.lt_of_lt_of_le hlt hnext, hgiven⟩
  | memory hrange hproper hok =>
    obtain ⟨stack, hmem⟩ := h.memory
    obtain ⟨stack', hmem', -, hspaces⟩ := hmem.exec hrange hproper hok
    exact ⟨⟨stack', hmem'⟩, fun p hp => hspaces _ (h.spaces p hp), h.apart, h.listed⟩

theorem settled_of_reached (h : w.Reached sym exempt cond) : w.Settled exempt := by
  refine h.invariant (Settled exempt) (fun w hw => ?_) fun _ _ h hstep => h.step hstep
  obtain ⟨stack, hlive, howned⟩ := hw.memory
  refine ⟨⟨stack, System.partitioned_of_empty hlive howned hw.noSpaces⟩, ?_, ?_, ?_⟩
  · simp [hw.noProcesses]
  · simp [hw.noProcesses]
  · simp [hw.noProcesses]

def Idle (k : Kernel) (p : Process) : Prop := ∀ u ∈ p.threads, ¬ k.processor.sched.Alive u

def Solitary (k : Kernel) : Prop :=
  ∀ p ∈ k.processes, ∀ u ∈ p.threads, ∀ u' ∈ p.threads, k.processor.sched.Alive u →
    k.processor.sched.Alive u' → u = u'

theorem Solitary.spawn (h : Solitary w.kernel) (hsettled : w.Settled exempt)
    (hi : w.kernel.processes[i]? = some p) (hidle : Idle w.kernel p)
    (hspawn : UserSpawn p w.kernel r p' k') :
    Solitary { k' with processes := k'.processes.set i p' } := by
  obtain ⟨task, hthread, hspawned⟩ := hspawn.spawned
  -- a thread that was listed before is alive only if it was
  have hback : ∀ {u}, w.Listed u → k'.processor.sched.Alive u → w.kernel.processor.sched.Alive u := by
    intro u hu halive
    refine (hspawned.alive halive).resolve_right fun heq => Nat.ne_of_lt hu.1 (heq.trans hthread)
  intro q hq u hu u' hu' halive halive'
  have hq' : q = p' ∨ q ∈ w.kernel.processes := by
    rw [show Kernel.processes _ = _ from rfl, hspawn.processes] at hq
    exact (List.mem_or_eq_of_mem_set hq).symm
  rcases hq' with rfl | hq'
  · have hp := List.mem_of_getElem? hi
    have hnew : ∀ u ∈ q.threads, k'.processor.sched.Alive u → u = w.kernel.processor.nextThreadId := by
      intro u hu halive
      have hdead : u ∉ p.threads := fun hin => hidle u hin (hback (hsettled.listed p hp u hin) halive)
      rcases hspawn.result with ⟨e, -, rfl⟩ | ⟨-, rfl, -⟩
      · exact absurd hu hdead
      · exact List.mem_singleton.mp ((List.mem_append.mp hu).resolve_left hdead)
    exact (hnew u hu halive).trans (hnew u' hu' halive').symm
  · exact h q hq' u hu u' hu' (hback (hsettled.listed q hq' u hu) halive)
      (hback (hsettled.listed q hq' u' hu') halive')

theorem Solitary.create (h : Solitary w.kernel) (hsettled : w.Settled exempt)
    (hcreate : w.Creates result k') : Solitary k' := by
  cases hcreate with
  | @intro system p p' r _ _ hexec hspaces hnone hspawn hresult hlist =>
    have hempty : Idle (w.withProcess system p).kernel p := fun u hu => by
      rw [hnone] at hu
      cases hu
    have hmid : Solitary (w.withProcess system p).kernel := by
      intro q hq
      rcases List.mem_append.mp hq with hq | hq
      · exact h q hq
      · intro u hu
        rw [List.mem_singleton.mp hq, hnone] at hu
        cases hu
    have hspawned := hmid.spawn (hsettled.withProcess hexec hspaces hnone)
      List.getElem?_concat_length hempty hspawn
    exact fun q hq => hspawned q ((sublist_of_created hresult).subset (hlist ▸ hq))

theorem Solitary.step (h : Solitary w.kernel) (hsettled : w.Settled exempt)
    (hstep : UserStep sym exempt Idle w w') : Solitary w'.kernel := by
  obtain ⟨stack, hmem⟩ := hsettled.memory
  cases hstep with
  | create hentry hok => exact h.create hsettled (createUserProcess_creates hmem hentry hok)
  | spawn hi hidle hentry hok => exact h.spawn hsettled hi hidle (hsettled.spawns hi hentry hok)
  | event hen hok =>
    obtain ⟨-, halive⟩ := Processor.exec_alive hen hok
    have hback : ∀ {p u}, p ∈ w.kernel.processes → u ∈ p.threads → _ → w.kernel.processor.sched.Alive u :=
      fun hp hu hlive => (halive _ hlive).resolve_right
        (Nat.ne_of_lt (hsettled.listed _ hp _ hu).1)
    exact fun p hp u hu u' hu' hlive hlive' =>
      h p hp u hu u' hu' (hback hp hu hlive) (hback hp hu' hlive')
  | memory _ _ _ => exact h

theorem solitary_of_reached (h : w.Reached sym exempt Idle) : Solitary w.kernel := by
  refine (h.invariant (fun w => w.Settled exempt ∧ Solitary w.kernel) (fun w hw => ?_) ?_).2
  · have hstart : w.Reached sym exempt Idle := .start hw
    refine ⟨settled_of_reached hstart, ?_⟩
    simp [Solitary, hw.noProcesses]
  · rintro w w' ⟨hsettled, h⟩ hstep
    exact ⟨hsettled.step hstep, h.step hsettled hstep⟩

/-! ## Stacks -/

/-- The stacks of live threads are mapped for user code, those of threads that share an
address space do not overlap, and those of different processes have no frame in common. -/
structure StacksApart (w : UserRun) : Prop where
  mapped : ∀ p ∈ w.kernel.processes, ∀ u ∈ p.threads, w.kernel.processor.sched.Alive u →
    ∃ top, w.given u = some top ∧ ∀ v, InStack top v →
      ∃ x, walk w.kernel.system.manager.phys.mem p.pml4Phys v = some x ∧ x.IsUserData
  disjoint : ∀ p ∈ w.kernel.processes, ∀ p' ∈ w.kernel.processes, p.pml4Phys = p'.pml4Phys →
    ∀ u ∈ p.threads, ∀ u' ∈ p'.threads, u ≠ u' → w.kernel.processor.sched.Alive u →
      w.kernel.processor.sched.Alive u' → ∀ top top', w.given u = some top →
        w.given u' = some top' → ∀ v, InStack top v → ¬ InStack top' v
  frames : ∀ p ∈ w.kernel.processes, ∀ p' ∈ w.kernel.processes, p ≠ p' →
    ∀ u ∈ p.threads, ∀ u' ∈ p'.threads, w.kernel.processor.sched.Alive u →
      w.kernel.processor.sched.Alive u' → ∀ top top', w.given u = some top →
        w.given u' = some top' → ∀ v v' x x', InStack top v → InStack top' v' →
          walk w.kernel.system.manager.phys.mem p.pml4Phys v = some x →
          walk w.kernel.system.manager.phys.mem p'.pml4Phys v' = some x' →
            frameOf x.pte ≠ frameOf x'.pte

theorem Settled.eq_of_pml4Phys (h : w.Settled exempt) (hp : p ∈ w.kernel.processes)
    (hp' : p' ∈ w.kernel.processes) (heq : p.pml4Phys = p'.pml4Phys) : p = p' :=
  List.inj_on_of_nodup_map h.apart hp hp' heq

theorem Settled.stacksApart (h : w.Settled exempt) (hsolitary : Solitary w.kernel)
    (hcounts : ∀ j < AddressSpace.defaultStackPages, ¬ exempt (pagePath (AddressSpace.stackPage j))) :
    w.StacksApart := by
  obtain ⟨stack, hmem⟩ := h.memory
  have hgiven : ∀ {p u top}, p ∈ w.kernel.processes → u ∈ p.threads → w.given u = some top →
      top = AddressSpace.defaultStackTop := fun hp hu htop =>
    Option.some.inj (htop.symm.trans (h.listed _ hp _ hu).2)
  refine ⟨fun p hp u hu _ => ?_, ?_, ?_⟩
  · exact ⟨_, (h.listed p hp u hu).2, fun v hv => hmem.walk_stack (h.spaces p hp) hv⟩
  · intro p hp p' hp' heq u hu u' hu' hne halive halive'
    obtain rfl := h.eq_of_pml4Phys hp hp' heq
    exact absurd (hsolitary p hp u hu u' hu' halive halive') hne
  · intro p hp p' hp' hne u hu u' hu' _ _ top top' htop htop' v v' x x' hv hv' hx hx'
    rw [hgiven hp hu htop] at hv
    rw [hgiven hp' hu' htop'] at hv'
    exact hmem.frames_apart hcounts (h.spaces p hp) (h.spaces p' hp')
      (fun heq => hne (h.eq_of_pml4Phys hp hp' heq)) hv hv' hx hx'

theorem Settled.spawn_clash (h : w.Settled exempt) (hi : w.kernel.processes[i]? = some p)
    {u0 : ThreadId} (hspawn : UserSpawn p w.kernel (.ok u) p' k') (hu0 : u0 ∈ p.threads)
    (halive0 : w.kernel.processor.sched.Alive u0) :
    u0 ∈ p'.threads ∧ u ∈ p'.threads ∧ u0 ≠ u ∧ k'.processor.sched.Alive u0 ∧
      k'.processor.sched.Alive u ∧ p' ∈ k'.processes.set i p' := by
  obtain ⟨e, herr, -⟩ | ⟨hu, rfl, -, halive⟩ := hspawn.result
  · cases herr
  cases hu
  obtain ⟨task, -, hspawned⟩ := hspawn.spawned
  obtain ⟨hlt, -⟩ := List.getElem?_eq_some_iff.mp hi
  refine ⟨List.mem_append_left _ hu0, List.mem_append_right _ (List.mem_singleton_self _),
    Nat.ne_of_lt (h.listed p (List.mem_of_getElem? hi) u0 hu0).1, hspawned.still_alive halive0, halive, ?_⟩
  exact List.mem_set (by rwa [hspawn.processes]) _

theorem Settled.not_stacksApart (h : w.Settled exempt) (hp : p ∈ w.kernel.processes) {u' : ThreadId}
    (hu : u ∈ p.threads) (hu' : u' ∈ p.threads) (hne : u ≠ u')
    (halive : w.kernel.processor.sched.Alive u) (halive' : w.kernel.processor.sched.Alive u') :
    ¬ w.StacksApart := by
  intro hapart
  have htop : InStack AddressSpace.defaultStackTop (AddressSpace.defaultStackTop - 1) :=
    ⟨by decide, by decide⟩
  exact hapart.disjoint p hp p hp rfl u hu u' hu' hne halive halive' _ _ (h.listed p hp u hu).2
    (h.listed p hp u' hu').2 _ htop htop

/-- As long as `spawn_user_thread` is only called on processes whose threads have ended, the
stacks of all user threads are mapped and apart. A spawn that succeeds keeps it so if and
only if the process had no live thread: every thread of a process is given the one stack its
address space was made with. -/
theorem user_stacks_apart (h : w.Reached sym exempt Idle)
    (hcounts : ∀ j < AddressSpace.defaultStackPages, ¬ exempt (pagePath (AddressSpace.stackPage j))) :
    w.StacksApart ∧ ∀ (i : Nat) (p p' : Process) (name : String) (userEntry : Nat) (u : ThreadId)
      (k' : Kernel), w.kernel.processes[i]? = some p → userEntry < 2 ^ 64 →
      p.spawnUserThread sym name userEntry w.kernel = .ok (.ok u, p', k') →
      ((w.created { k' with processes := k'.processes.set i p' }).StacksApart ↔ Idle w.kernel p) := by
  have hsettled := settled_of_reached h
  refine ⟨hsettled.stacksApart (solitary_of_reached h) hcounts, ?_⟩
  intro i p p' name userEntry u k' hi hentry hok
  constructor
  · intro hapart u0 hu0 halive0
    have hspawn := hsettled.spawns hi hentry hok
    obtain ⟨hu0', hu', hne, halive0', halive', hp'⟩ := hsettled.spawn_clash hi hspawn hu0 halive0
    exact (hsettled.spawn hi hspawn).not_stacksApart hp' hu0' hu' hne halive0' halive' hapart
  · intro hidle
    have hnext : (w.created { k' with processes := k'.processes.set i p' }).Reached sym exempt Idle :=
      .step h (.spawn hi hidle hentry hok)
    exact (settled_of_reached hnext).stacksApart (solitary_of_reached hnext) hcounts

theorem exists_booted (sym : Symbols) (cond : Kernel → Process → Prop) : ∃ (σ : System) (stack : List Nat),
    UserRun.Reached sym (fun _ => False) cond ⟨⟨σ, .boot 0 0 0, [], 1⟩, fun _ => none⟩ ∧
      σ.Live stack ∧ 34 ≤ stack.length ∧
      σ.HeapRoom (stackBlockSize + (stackBlockSize + stackBlockSize)) := by
  obtain ⟨σ, stack, hinit, hlive, hlen⟩ := smallSystem_init
  have hstart : UserRun.Start (fun _ => False) ⟨⟨smallSystem, .boot 0 0 0, [], 1⟩, fun _ => none⟩ :=
    ⟨⟨_, smallSystem_live, owned_of_empty smallSystem_roots smallSystem_entry⟩, rfl, rfl⟩
  refine ⟨σ, stack, .step (.start hstart) ?_, hlive, by omega, smallSystem_room hinit⟩
  exact .memory (c := .growHeap 16) trivial ⟨trivial, trivial, trivial, trivial⟩ hinit

/-- One process, with room for another one or for another thread. -/
theorem exists_created (cond : Kernel → Process → Prop) : ∃ (w : UserRun) (p : Process) (u : ThreadId),
    w.Reached Processor.sampleSymbols (fun _ => False) cond ∧ w.kernel.processes = [p] ∧
      u ∈ p.threads ∧ w.kernel.processor.sched.Alive u ∧
      w.kernel.system.HeapRoom (stackBlockSize + stackBlockSize) ∧
      17 ≤ w.kernel.system.manager.phys.pmm.freePages ∧
      ∀ name process task, ∃ processor,
        w.kernel.processor.insertThread name process task = .ok (.ok ⟨2, 0⟩, processor) := by
  obtain ⟨σ, stack, hreach, hlive, hlen, hroom⟩ := exists_booted Processor.sampleSymbols cond
  obtain ⟨p, k', hcreate, hroom, hfree, hinsert⟩ := @Kernel.createUserProcess_ok
    Processor.sampleSymbols "User Test" 0x400000 _ ⟨σ, .boot 0 0 0, [], 1⟩ _ hlive (by omega) hroom _ _
    boot_insertThread
  have hentry : 0x400000 < 2 ^ 64 := by decide
  obtain ⟨hmem, -⟩ := settled_of_reached hreach
  obtain ⟨stack', hmem⟩ := hmem
  obtain ⟨hprocesses, u, hu, halive⟩ := (createUserProcess_creates hmem hentry hcreate).registered
  refine ⟨_, p, u, .step hreach (.create hentry hcreate), hprocesses, hu, halive, hroom, ?_, hinsert⟩
  show 17 ≤ k'.system.manager.phys.pmm.freePages
  omega

/-- Two processes, each with a live thread. -/
theorem user_stacks_apart_created : ∃ (w : UserRun) (p p' : Process) (u u' : ThreadId),
    w.kernel.processes = [p, p'] ∧ p.pml4Phys ≠ p'.pml4Phys ∧ u ∈ p.threads ∧ u' ∈ p'.threads ∧
      w.kernel.processor.sched.Alive u ∧ w.kernel.processor.sched.Alive u' ∧ w.StacksApart := by
  obtain ⟨w, p, u, hreach, hi, hu, halive, hroom, hfree, hinsert⟩ := exists_created Idle
  obtain ⟨stack, hmem⟩ := (settled_of_reached hreach).memory
  rw [hmem.live.spaces.free.count] at hfree
  obtain ⟨p', k', hcreate, -⟩ : ∃ p' k', w.kernel.createUserProcess Processor.sampleSymbols
      "User Test" w.kernel.system.root 0x400000 = .ok (.ok p', k') ∧ _ ∧ _ ∧ True :=
    Kernel.createUserProcess_ok hmem.live hfree hroom fun process task =>
      (hinsert "main" process task).imp fun _ h => ⟨h, trivial⟩
  have hentry : 0x400000 < 2 ^ 64 := by decide
  have hnext : UserRun.Reached Processor.sampleSymbols (fun _ => False) Idle (w.created k') :=
    .step hreach (.create hentry hcreate)
  have hcreates := createUserProcess_creates hmem hentry hcreate
  obtain ⟨hprocesses, u', hu', halive'⟩ := hcreates.registered
  rw [hi] at hprocesses
  have hapart := (settled_of_reached hnext).apart
  rw [show (w.created k').kernel.processes = [p, p'] from hprocesses] at hapart
  refine ⟨w.created k', p, p', u, u', hprocesses, ?_, hu, hu', hcreates.still_alive halive, halive',
    (user_stacks_apart hnext fun _ _ h => h).1⟩
  exact fun heq => (List.nodup_cons.mp hapart).1 (List.mem_singleton.mpr heq)

/-- A second thread of a process gets the stack of the first, which is still alive. -/
theorem second_thread_shares_stack : ∃ (w : UserRun) (p : Process) (u u' : ThreadId),
    w.Reached Processor.sampleSymbols (fun _ => False) (fun _ _ => True) ∧
      p ∈ w.kernel.processes ∧ u ∈ p.threads ∧ u' ∈ p.threads ∧ u ≠ u' ∧
      w.kernel.processor.sched.Alive u ∧ w.kernel.processor.sched.Alive u' ∧
      w.given u = some AddressSpace.defaultStackTop ∧
      w.given u' = some AddressSpace.defaultStackTop ∧ ¬ w.StacksApart := by
  obtain ⟨w, p, u, hreach, hi, hu, halive, hroom, -, hinsert⟩ := exists_created fun _ _ => True
  have hfirst : w.kernel.processes[0]? = some p := by
    rw [hi]
    rfl
  obtain ⟨p', k', hspawn, -⟩ : ∃ p' k', p.spawnUserThread Processor.sampleSymbols "second" 0x400000
      w.kernel = .ok (.ok w.kernel.processor.nextThreadId, p', k') ∧ _ ∧ _ ∧ True :=
    Process.spawnUserThread_ok hroom fun task =>
      (hinsert "second" p.id task).imp fun _ h => ⟨h, trivial⟩
  have hentry : 0x400000 < 2 ^ 64 := by decide
  have hnext : UserRun.Reached Processor.sampleSymbols (fun _ => False) (fun _ _ => True)
      (w.created { k' with processes := k'.processes.set 0 p' }) :=
    .step hreach (.spawn hfirst trivial hentry hspawn)
  have hsettled := settled_of_reached hnext
  have hclash := (settled_of_reached hreach).spawns hfirst hentry hspawn
  obtain ⟨hu0, hu', hne, halive0, halive', hp'⟩ :=
    (settled_of_reached hreach).spawn_clash hfirst hclash hu halive
  exact ⟨_, p', u, _, hnext, hp', hu0, hu', hne, halive0, halive', (hsettled.listed p' hp' _ hu0).2,
    (hsettled.listed p' hp' _ hu').2, hsettled.not_stacksApart hp' hu0 hu' hne halive0 halive'⟩

end UserRun

end CrapOs
