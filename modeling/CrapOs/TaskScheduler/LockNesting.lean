import CrapOs.TaskScheduler.LifecycleRuns
import CrapOs.TaskScheduler.LockPrograms

/-! # The order of the scheduler's locks

Which locks each function takes while it holds which others, and whether
processors that execute these functions can come to wait for each other.
-/

namespace CrapOs

open Foundation Relation

inductive LockKind where
  | sleepQueue | global | reaperQueue | tombstoneQueue | ready | thread
deriving DecidableEq, Repr

def SchedulerLock.kind : SchedulerLock → LockKind
  | sleepQueue => .sleepQueue
  | global => .global
  | reaperQueue => .reaperQueue
  | tombstoneQueue => .tombstoneQueue
  | ready _ => .ready
  | thread _ => .thread

inductive SchedulerFunction where
  | wake | sleep | yieldBlocked | schedule | killTask | killCurrentTask | taskExit | onTimerTick
  | reapDyingTasks | tombstoneCleanup
deriving DecidableEq, Repr

def SchedulerCall.function : SchedulerCall → SchedulerFunction
  | wake _ _ => .wake
  | sleep _ _ => .sleep
  | yieldBlocked _ => .yieldBlocked
  | schedule _ => .schedule
  | killTask _ _ => .killTask
  | killCurrentTask _ => .killCurrentTask
  | taskExit _ => .taskExit
  | onTimerTick _ => .onTimerTick
  | reapDyingTasks _ => .reapDyingTasks
  | tombstoneCleanup _ => .tombstoneCleanup

/-- The locks a function takes, each with one it holds meanwhile; what `schedule` does at the
end of a function is listed there only. -/
def SchedulerFunction.nestings : SchedulerFunction → List (LockKind × LockKind)
  | wake => [(.global, .thread)]
  | sleep => [(.sleepQueue, .global), (.sleepQueue, .thread), (.global, .thread)]
  | yieldBlocked => [(.global, .thread)]
  | schedule => [(.global, .ready)]
  | killTask => [(.global, .thread)]
  | killCurrentTask => [(.global, .thread), (.global, .reaperQueue)]
  | taskExit => [(.global, .thread), (.global, .reaperQueue)]
  | onTimerTick =>
    [(.sleepQueue, .global), (.sleepQueue, .thread), (.sleepQueue, .ready), (.global, .thread)]
  | reapDyingTasks =>
    [(.reaperQueue, .global), (.reaperQueue, .tombstoneQueue), (.global, .tombstoneQueue)]
  | tombstoneCleanup => [(.tombstoneQueue, .global), (.tombstoneQueue, .thread), (.global, .thread)]

/-! ## Every program keeps to the table -/

namespace Program

open Code

variable {r : SchedulerLock → SchedulerLock → Prop} {G : SchedulerCall → Prop}
  {held : List SchedulerLock} {next : Program} {cpu : Nat} {taskId : TaskId}

theorem ordered_setThreadState {u : ThreadId} {state : ThreadState}
    (hthread : ∀ a ∈ held, r a (.thread u)) (hnext : next.Ordered r G held) :
    (setThreadState cpu u state next).Ordered r G held :=
  ⟨hthread, held, rfl, hnext⟩

theorem ordered_queueTaskReaper (hreaper : ∀ a ∈ held, r a .reaperQueue)
    (hnext : next.Ordered r G held) : (queueTaskReaper cpu taskId next).Ordered r G held :=
  ⟨hreaper, held, rfl, hnext⟩

theorem ordered_wake (hglobal : ∀ a ∈ held, r a .global)
    (hthread : ∀ u, ∀ a ∈ .global :: held, r a (.thread u)) (hready : ∀ a ∈ held, r a (.ready 0))
    (hnext : next.Ordered r G held) : (wake cpu taskId next).Ordered r G held := by
  refine ⟨hglobal, fun w => ?_⟩
  beta_reduce
  cases w.global.getTask taskId with
  | none => exact ⟨held, rfl, hnext⟩
  | some task =>
    dsimp only
    split
    · refine ordered_setThreadState (hthread task.thread) ⟨held, rfl, hready, ?_⟩
      exact ⟨held, rfl, hnext⟩
    · exact ⟨held, rfl, hnext⟩

theorem ordered_markBlocked (hglobal : ∀ a ∈ held, r a .global)
    (hthread : ∀ u, ∀ a ∈ .global :: held, r a (.thread u)) (hnext : next.Ordered r G held) :
    (markBlocked cpu taskId next).Ordered r G held := by
  refine ⟨hglobal, fun w => ?_⟩
  beta_reduce
  cases w.global.getTask taskId with
  | none => exact ⟨held, rfl, hnext⟩
  | some task => exact ordered_setThreadState (hthread task.thread) ⟨held, rfl, hnext⟩

theorem ordered_switchIn : (switchIn cpu taskId).Ordered r G [] := by
  refine ⟨nofun, [], rfl, nofun, fun w => ?_⟩
  beta_reduce
  cases w.global.getTask taskId with
  | none => trivial
  | some task =>
    refine ⟨[], rfl, nofun, fun w => ?_⟩
    beta_reduce
    cases w.global.getTask taskId with
    | none => trivial
    | some task => exact ⟨[], rfl, rfl⟩

theorem ordered_requeueOutgoing (hready : r .global (.ready cpu)) (hnext : next.Ordered r G []) :
    (requeueOutgoing cpu next).Ordered r G [] := by
  refine fun w => ⟨nofun, fun w' => ?_⟩
  beta_reduce
  cases w'.global.getTask (w.cpu cpu).current with
  | none => exact ⟨[], rfl, hnext⟩
  | some outgoing =>
    dsimp only
    split
    · show Ordered r G [.global] (if _ then _ else _)
      split
      · exact ⟨by simpa using hready, _, rfl, [], rfl, hnext⟩
      · exact ⟨[], rfl, hnext⟩
    · exact ⟨[], rfl, hnext⟩

theorem ordered_schedule (hready : r .global (.ready cpu)) (hjump : G (.schedule cpu)) :
    (schedule cpu).Ordered r G [] := by
  refine ⟨nofun, fun w => ?_⟩
  beta_reduce
  cases (w.cpu cpu).queue.pop with
  | none => exact ⟨[], rfl, ordered_requeueOutgoing hready ordered_switchIn⟩
  | some popped =>
    refine ⟨[], rfl, nofun, fun w => ?_⟩
    beta_reduce
    cases w.global.getTask popped.1 with
    | none => exact ⟨[], rfl, rfl, hjump⟩
    | some task =>
      dsimp only
      split
      · exact ⟨[], rfl, ordered_requeueOutgoing hready ordered_switchIn⟩
      · exact ⟨[], rfl, rfl, hjump⟩

theorem ordered_killTask {arg : Nat} (hthread : ∀ u, r .global (.thread u)) :
    (killTask cpu arg).Ordered r G [] := by
  refine fun w => ⟨nofun, fun w' => ?_⟩
  beta_reduce
  cases w'.global.getTask (.expandTaskId arg) with
  | none => exact ⟨[], rfl, ordered_queueTaskReaper nofun rfl⟩
  | some task =>
    refine ordered_setThreadState (by simpa using hthread task.thread) ⟨[], rfl, ?_⟩
    refine ordered_queueTaskReaper nofun ?_
    split <;> rfl

theorem ordered_killCurrent (hthread : ∀ u, r .global (.thread u)) (hreaper : r .global .reaperQueue)
    (hnext : next.Ordered r G []) : (killCurrent cpu next).Ordered r G [] := by
  refine fun w => ⟨nofun, fun w' => ?_⟩
  beta_reduce
  cases w'.global.getTask (w.cpu cpu).current with
  | none => exact ⟨[], rfl, hnext⟩
  | some task =>
    refine ordered_setThreadState (by simpa using hthread task.thread) ?_
    exact ordered_queueTaskReaper (by simpa using hreaper) ⟨[], rfl, hnext⟩

theorem ordered_wakeExpired (hglobal : r .sleepQueue .global)
    (hthread : ∀ u, r .global (.thread u) ∧ r .sleepQueue (.thread u))
    (hready : r .sleepQueue (.ready 0)) (entries : List SleepEntry) :
    (wakeExpired cpu entries).Ordered r G [.sleepQueue] := by
  have hcount : (countTick cpu).Ordered r G [] := fun w => ⟨nofun, [], rfl, rfl⟩
  induction entries with
  | nil => exact ⟨[], rfl, hcount⟩
  | cons entry rest ih =>
    rw [wakeExpired]
    split
    · exact ⟨[], rfl, hcount⟩
    · exact ordered_wake (by simpa using hglobal) (by simpa using hthread) (by simpa using hready) ih

theorem ordered_reapLoop (htomb : r .global .tombstoneQueue ∧ r .reaperQueue .tombstoneQueue) (n : Nat) :
    (reapLoop cpu n).Ordered r G [.global, .reaperQueue] := by
  have hend : (release .global <| release .reaperQueue done : Program).Ordered r G
      [.global, .reaperQueue] := ⟨_, rfl, [], rfl, rfl⟩
  induction n with
  | zero => exact hend
  | succ n ih =>
    intro w
    beta_reduce
    cases w.reaperQueue.pop with
    | none => exact hend
    | some popped =>
      dsimp only
      cases w.global.getTask popped.1 with
      | none => exact ih
      | some task =>
        dsimp only
        split
        · exact ⟨by simpa using htomb, _, rfl, ih⟩
        · exact ih

theorem ordered_tombstoneLoop (hthread : ∀ u, r .global (.thread u) ∧ r .tombstoneQueue (.thread u))
    (n : Nat) : (tombstoneLoop cpu n).Ordered r G [.global, .tombstoneQueue] := by
  have hend : (release .global <| release .tombstoneQueue done : Program).Ordered r G
      [.global, .tombstoneQueue] := ⟨_, rfl, [], rfl, rfl⟩
  induction n with
  | zero => exact hend
  | succ n ih =>
    intro w
    beta_reduce
    cases w.tombstoneQueue.pop with
    | none => exact hend
    | some popped =>
      intro w
      beta_reduce
      cases w.global.getTask popped.1 with
      | none => exact ih
      | some task => exact ⟨by simpa using hthread task.thread, _, rfl, ih⟩

end Program

namespace SchedulerCall

variable {F : Set SchedulerFunction} {r : SchedulerLock → SchedulerLock → Prop}

def Executed (F : Set SchedulerFunction) (c : SchedulerCall) : Prop :=
  c.function ∈ F ∨ c.function = .schedule

def Covers (F : Set SchedulerFunction) (r : SchedulerLock → SchedulerLock → Prop) : Prop :=
  ∀ f, f ∈ F ∨ f = .schedule → ∀ p ∈ f.nestings, ∀ a b : SchedulerLock, a.kind = p.1 → b.kind = p.2 → r a b

theorem program_ordered (hr : Covers F r) {c : SchedulerCall} (hc : Executed F c) :
    c.program.Ordered r (Executed F) [] := by
  have hschedule : ∀ cpu, Executed F (.schedule cpu) := fun _ => .inr rfl
  cases c with
  | wake cpu taskId =>
    have hthread := fun u => hr .wake hc (.global, .thread) (by decide) .global (.thread u) rfl rfl
    exact Program.ordered_wake nofun (by simpa using hthread) nofun rfl
  | sleep cpu seconds =>
    have hglobal := hr .sleep hc (.sleepQueue, .global) (by decide) .sleepQueue .global rfl rfl
    have hthread := fun u => hr .sleep hc (.global, .thread) (by decide) .global (.thread u) rfl rfl
    have hinner := fun u =>
      hr .sleep hc (.sleepQueue, .thread) (by decide) .sleepQueue (.thread u) rfl rfl
    rw [program, Program.sleep]
    split
    · exact ⟨rfl, hschedule cpu⟩
    · refine fun w => ⟨nofun, Program.ordered_markBlocked (by simpa using hglobal) (fun u => ?_)
        ⟨[], rfl, rfl, hschedule cpu⟩⟩
      simpa using ⟨hthread u, hinner u⟩
  | yieldBlocked cpu =>
    have hthread := fun u => hr .yieldBlocked hc (.global, .thread) (by decide) .global (.thread u) rfl rfl
    exact fun w => Program.ordered_markBlocked nofun (by simpa using hthread) ⟨rfl, hschedule cpu⟩
  | schedule cpu =>
    have hready := hr .schedule hc (.global, .ready) (by decide) .global (.ready cpu) rfl rfl
    exact Program.ordered_schedule hready (hschedule cpu)
  | killTask cpu taskIdU64 =>
    have hthread := fun u => hr .killTask hc (.global, .thread) (by decide) .global (.thread u) rfl rfl
    exact Program.ordered_killTask hthread
  | killCurrentTask cpu =>
    have hthread := fun u =>
      hr .killCurrentTask hc (.global, .thread) (by decide) .global (.thread u) rfl rfl
    have hreaper := hr .killCurrentTask hc (.global, .reaperQueue) (by decide) .global .reaperQueue rfl rfl
    exact Program.ordered_killCurrent hthread hreaper rfl
  | taskExit cpu =>
    have hthread := fun u => hr .taskExit hc (.global, .thread) (by decide) .global (.thread u) rfl rfl
    have hreaper := hr .taskExit hc (.global, .reaperQueue) (by decide) .global .reaperQueue rfl rfl
    exact Program.ordered_killCurrent hthread hreaper ⟨rfl, hschedule cpu⟩
  | onTimerTick cpu =>
    have hglobal := hr .onTimerTick hc (.sleepQueue, .global) (by decide) .sleepQueue .global rfl rfl
    have hthread := fun u => hr .onTimerTick hc (.global, .thread) (by decide) .global (.thread u) rfl rfl
    have hinner := fun u =>
      hr .onTimerTick hc (.sleepQueue, .thread) (by decide) .sleepQueue (.thread u) rfl rfl
    have hready := hr .onTimerTick hc (.sleepQueue, .ready) (by decide) .sleepQueue (.ready 0) rfl rfl
    exact ⟨nofun, fun w => Program.ordered_wakeExpired hglobal (fun u => ⟨hthread u, hinner u⟩) hready _⟩
  | reapDyingTasks cpu =>
    have hglobal := hr .reapDyingTasks hc (.reaperQueue, .global) (by decide) .reaperQueue .global rfl rfl
    have hinner := hr .reapDyingTasks hc (.global, .tombstoneQueue) (by decide) .global .tombstoneQueue
      rfl rfl
    have htomb := hr .reapDyingTasks hc (.reaperQueue, .tombstoneQueue) (by decide) .reaperQueue
      .tombstoneQueue rfl rfl
    refine ⟨nofun, fun w => ?_⟩
    beta_reduce
    split
    · exact ⟨[], rfl, rfl⟩
    · exact ⟨by simpa using hglobal, Program.ordered_reapLoop ⟨hinner, htomb⟩ _⟩
  | tombstoneCleanup cpu =>
    have hglobal := hr .tombstoneCleanup hc (.tombstoneQueue, .global) (by decide) .tombstoneQueue
      .global rfl rfl
    have hthread := fun u =>
      hr .tombstoneCleanup hc (.global, .thread) (by decide) .global (.thread u) rfl rfl
    have hinner := fun u => hr .tombstoneCleanup hc (.tombstoneQueue, .thread) (by decide)
      .tombstoneQueue (.thread u) rfl rfl
    refine ⟨nofun, fun w => ?_⟩
    beta_reduce
    split
    · exact ⟨[], rfl, rfl⟩
    · exact ⟨by simpa using hglobal,
        Program.ordered_tombstoneLoop (fun u => ⟨hthread u, hinner u⟩) _⟩

end SchedulerCall

/-- Contexts are numbered; each call says which processor it is made on. -/
abbrev SchedulerSystem := LockSystem Smp SchedulerLock SchedulerCall Nat

namespace SchedulerSystem

open SchedulerCall

variable {F : Set SchedulerFunction} {m : SchedulerSystem}

def Reached (F : Set SchedulerFunction) : SchedulerSystem → Prop :=
  LockSystem.Reached program fun c => c.function ∈ F

/-- Lock `b` is acquired while lock `a` is held. -/
def AcquiredWhile (F : Set SchedulerFunction) : SchedulerLock → SchedulerLock → Prop :=
  LockSystem.AcquiredWhile Nat program fun c => c.function ∈ F

def rankWithoutReaper : LockKind → Nat
  | .sleepQueue | .tombstoneQueue => 0
  | .global => 1
  | .ready | .thread | .reaperQueue => 2

/-- An order for the reaper, and for the functions that neither hand a task to it with the
task table locked nor lock the tombstones first. -/
def rankWithReaper : LockKind → Nat
  | .sleepQueue | .reaperQueue => 0
  | .global => 1
  | .ready | .thread | .tombstoneQueue => 2

theorem rankWithoutReaper_lt {f : SchedulerFunction} (hf : f ≠ .reapDyingTasks) :
    ∀ p ∈ f.nestings, rankWithoutReaper p.1 < rankWithoutReaper p.2 := by
  cases f with
  | reapDyingTasks => exact absurd rfl hf
  | _ => decide

theorem rankWithReaper_lt {f : SchedulerFunction} (hkill : f ≠ .killCurrentTask) (hexit : f ≠ .taskExit)
    (htomb : f ≠ .tombstoneCleanup) : ∀ p ∈ f.nestings, rankWithReaper p.1 < rankWithReaper p.2 := by
  cases f with
  | killCurrentTask => exact absurd rfl hkill
  | taskExit => exact absurd rfl hexit
  | tombstoneCleanup => exact absurd rfl htomb
  | _ => decide

theorem acyclic_of_rank {rank : LockKind → Nat}
    (h : ∀ f, f ∈ F ∨ f = .schedule → ∀ p ∈ f.nestings, rank p.1 < rank p.2) (a : SchedulerLock) :
    ¬ TransGen (AcquiredWhile F) a a := by
  have hcovers : Covers F fun a b => rank a.kind < rank b.kind := by
    intro f hf p hp a b ha hb
    rw [ha, hb]
    exact h f hf p hp
  have hordered := fun c hc => program_ordered hcovers (c := c) hc
  exact LockSystem.acyclic_of_rank hordered (fun _ => .inl) a

/-- The reaper is not executed, or nothing that takes its locks or those it takes the other
way round. -/
def Consistent (F : Set SchedulerFunction) : Prop :=
  .reapDyingTasks ∉ F ∨ (.killCurrentTask ∉ F ∧ .taskExit ∉ F ∧ .tombstoneCleanup ∉ F)

theorem acyclic_of_consistent (h : Consistent F) (a : SchedulerLock) :
    ¬ TransGen (AcquiredWhile F) a a := by
  rcases h with hreap | ⟨hkill, hexit, htomb⟩
  · refine acyclic_of_rank (fun f hf => rankWithoutReaper_lt ?_) a
    rintro rfl
    exact hf.elim hreap nofun
  · refine acyclic_of_rank (fun f hf => rankWithReaper_lt ?_ ?_ ?_) a
    · rintro rfl
      exact hf.elim hkill nofun
    · rintro rfl
      exact hf.elim hexit nofun
    · rintro rfl
      exact hf.elim htomb nofun

def start (s : Scheduler) : SchedulerSystem where
  state :=
    { global := s.global
      threads := s.threads
      kernelInitComplete := s.kernelInitComplete
      sleepQueue := s.sleepQueue
      reaperQueue := s.reaperQueue
      tombstoneQueue := s.tombstoneQueue
      systemTasks := s.systemTasks
      cpu := fun i =>
        if i = 0 then ⟨s.queue, s.current, s.ticksRemaining, s.forceReschedule, s.kernelStack, s.cr3⟩
        else ⟨.new, .idle, taskQuantumTicks, false, 0, s.cr3⟩ }
  owner := fun _ => none
  code := fun _ => .done

theorem start_idle (s : Scheduler) : (start s).Idle := ⟨fun _ => rfl, fun _ => rfl⟩

instance (m : SchedulerSystem) (k k' : Nat) (a b : SchedulerLock) : Decidable (m.Stuck k k' a b) :=
  inferInstanceAs (Decidable ((_ = _ ∧ _ = _) ∧ _ = _ ∧ _ = _))

def meet (n : Nat) (c : SchedulerCall) (n' : Nat) : List (Turn SchedulerCall Nat) :=
  .call 1 (.reapDyingTasks 1) :: List.replicate n (.go 1) ++ .call 0 c :: List.replicate n' (.go 0)

def tombAndReaper : List Event :=
  [.spawn "A" 1 (Processor.sampleTask 1), .spawn "B" 1 (Processor.sampleTask 2),
    .spawn "C" 1 (Processor.sampleTask 3), .initComplete, .yield 0x7000, .exit 0x4f00, .tick 0x7000,
    .exit 0x4f00]

theorem exists_stuck : ∃ p, Processor.Reached Processor.sampleSymbols (fun _ _ => True) p ∧
    ((runEvents (LockSystem.exec program) (start p.sched) (meet 2 (.killCurrentTask 0) 7)).any
      (fun m => decide (m.Stuck 0 1 .global .reaperQueue)) = true) ∧
    ((runEvents (LockSystem.exec program) (start p.sched) (meet 2 (.taskExit 0) 7)).any
      (fun m => decide (m.Stuck 0 1 .global .reaperQueue)) = true) ∧
    ((runEvents (LockSystem.exec program) (start p.sched) (meet 6 (.tombstoneCleanup 0) 2)).any
      (fun m => decide (m.Stuck 0 1 .tombstoneQueue .global)) = true) :=
  Processor.exists_reached Processor.sampleSymbols (fun _ _ => True) 0 0 0 tombAndReaper _
    (by decide +kernel)

theorem meet_within {n n' : Nat} {c : SchedulerCall} (hreap : .reapDyingTasks ∈ F)
    (hc : c.function ∈ F) :
    ∀ t ∈ meet n c n', LockSystem.Within (fun c : SchedulerCall => c.function ∈ F) t := by
  have hgo : ∀ k j : Nat, ∀ t ∈ List.replicate j (Turn.go k),
      LockSystem.Within (fun c : SchedulerCall => c.function ∈ F) t := by
    intro k j t ht
    rw [List.eq_of_mem_replicate ht]
    trivial
  rw [meet, List.cons_append, List.forall_mem_cons, List.forall_mem_append, List.forall_mem_cons]
  exact ⟨hreap, hgo 1 n, hc, hgo 0 n'⟩

theorem exists_circularWait {s : Scheduler} {n n' : Nat} {c : SchedulerCall} {a b : SchedulerLock}
    (hreap : .reapDyingTasks ∈ F) (hc : c.function ∈ F)
    (h : (runEvents (LockSystem.exec program) (start s) (meet n c n')).any
      (fun m => decide (m.Stuck 0 1 a b)) = true) :
    ∃ m, SchedulerSystem.Reached F m ∧ m.CircularWait := by
  obtain ⟨m, hrun, hstuck⟩ := (Option.any_eq_true _ _).mp h
  refine ⟨m, LockSystem.Reached.run (.start (start_idle s)) (meet_within hreap hc) hrun, ?_⟩
  exact (of_decide_eq_true hstuck).circularWait

/-- The relation between the locks has no cycle, and no contexts ever wait for each other in a
circle, exactly if the functions that are executed are consistent. -/
theorem lock_order_acyclic_iff (F : Set SchedulerFunction) :
    ((∀ a, ¬ TransGen (AcquiredWhile F) a a) ∧
      ∀ m, SchedulerSystem.Reached F m → ¬ m.CircularWait) ↔ Consistent F := by
  constructor
  · intro h
    obtain ⟨p, -, hkill, hexit, htomb⟩ := exists_stuck
    by_contra hnot
    obtain ⟨hreap, hother⟩ := not_or.mp hnot
    obtain ⟨m, hm, hwait⟩ : ∃ m, SchedulerSystem.Reached F m ∧ m.CircularWait := by
      by_cases hkillF : .killCurrentTask ∈ F
      · exact exists_circularWait (c := .killCurrentTask 0) (not_not.mp hreap) hkillF hkill
      by_cases hexitF : .taskExit ∈ F
      · exact exists_circularWait (c := .taskExit 0) (not_not.mp hreap) hexitF hexit
      · refine exists_circularWait (c := .tombstoneCleanup 0) (not_not.mp hreap) ?_ htomb
        by_contra htombF
        exact hother ⟨hkillF, hexitF, htombF⟩
    exact h.2 m hm hwait
  · intro h
    exact ⟨acyclic_of_consistent h, fun m => LockSystem.not_circularWait (acyclic_of_consistent h)⟩

/-- One processor ends its task while another one reaps: the first has the task table and waits
for the queue of the reaper, the second has the queue and waits for the table. -/
theorem exit_and_reaper_wait_for_each_other : ∃ (p : Processor) (m : SchedulerSystem),
    p.Reached Processor.sampleSymbols (fun _ _ => True) ∧
      Reach (· = start p.sched) (LockSystem.Step program fun _ => True) m ∧
      m.Stuck 0 1 .global .reaperQueue ∧ m.CircularWait := by
  obtain ⟨p, hp, -, hexit, -⟩ := exists_stuck
  obtain ⟨m, hm, hstuck⟩ : ∃ m, Reach (· = start p.sched) (LockSystem.Step program fun _ => True) m ∧
      m.Stuck 0 1 .global .reaperQueue := by
    refine Reach.exists_run (fun m t m' hstep => ⟨t, ?_, hstep⟩) ?_ _ _ hexit
    · rfl
    · cases t <;> trivial
  exact ⟨p, m, hp, hm, hstuck, hstuck.circularWait⟩

end SchedulerSystem

end CrapOs
