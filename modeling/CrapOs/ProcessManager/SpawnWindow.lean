import CrapOs.TaskScheduler.ThreadMirror

/-! # Spawning a thread step by step

`spawn_kernel_thread` puts the new task into the table, queues it, and only then writes
its id into the thread. Interrupts are on between these steps, so other tasks can run
there, the new one among them.
-/

namespace CrapOs

open Foundation Scheduler

inductive SpawnPoint where
  | outside
  /-- its task is in the table -/
  | inserted (thread : ThreadId) (taskId : TaskId)
  /-- and in the ready queue -/
  | queued (thread : ThreadId) (taskId : TaskId)
deriving DecidableEq, Repr

/-- `returned` are the threads whose spawn has returned. -/
structure SpawnSystem where
  processor : Processor
  point : TaskId → SpawnPoint
  returned : ThreadId → Bool

inductive SpawnEvent where
  /-- an interrupt, or what a task does that is not spawning -/
  | other (e : Event)
  /-- up to the end of `insert_task` -/
  | insert (name : String) (process : ProcessId) (task : Task)
  | push (thread : ThreadId) (taskId : TaskId)
  /-- the write-back, after which nothing else concerns the scheduler -/
  | link (thread : ThreadId) (taskId : TaskId)

/-- What the process manager relies on: a thread is `Dead` when and only when its id is gone,
and an id it has stands for its own task. -/
structure Scheduler.Lawful (s : Scheduler) (thread : ThreadId) : Prop where
  dead_iff : (s.threads thread).state = .dead ↔ (s.threads thread).taskId = none
  resolves : s.Held thread

namespace SpawnSystem

variable {k k' : SpawnSystem} {sym : Symbols} {e : SpawnEvent} {thread u : ThreadId} {taskId : TaskId}

def boot (idleStack kernelStack cr3 : Nat) : SpawnSystem :=
  ⟨.boot idleStack kernelStack cr3, fun _ => .outside, fun _ => false⟩

def insert (k : SpawnSystem) (name : String) (process : ProcessId) (task : Task) : SpawnSystem :=
  let p := k.processor
  let s := { p.sched with
    threads := Function.update p.sched.threads p.nextThreadId (.new p.nextThreadId name process) }
  match s.global.insertTask task with
  | .error _ => { k with processor := { p with sched := s, nextThreadId := p.nextThreadId + 1 } }
  | .ok (taskId, global) => { k with
      processor :=
        { sched := { s with global := global }
          nextThreadId := p.nextThreadId + 1
          leaving := Function.update p.leaving taskId false }
      point := Function.update (Function.update k.point taskId .outside) p.sched.current
        (.inserted p.nextThreadId taskId) }

def push (k : SpawnSystem) (thread : ThreadId) (taskId : TaskId) : Except Halt SpawnSystem :=
  match k.processor.sched.queue.push taskId with
  | .error _ => .error (.panic "[SCHEDULER] Task inserted into table but CPU Ready queue is full")
  | .ok queue => pure { k with
      processor := { k.processor with sched := { k.processor.sched with queue := queue } }
      point := Function.update k.point k.processor.sched.current (.queued thread taskId) }

def link (k : SpawnSystem) (thread : ThreadId) (taskId : TaskId) : SpawnSystem where
  processor := { k.processor with
    sched := k.processor.sched.modifyThread thread ({ · with taskId := some taskId }) }
  point := Function.update k.point k.processor.sched.current .outside
  returned := Function.update k.returned thread true

def exec (sym : Symbols) (k : SpawnSystem) : SpawnEvent → Except Halt SpawnSystem
  | .other e => do
    let p ← k.processor.exec sym e
    pure { k with processor := p }
  | .insert name process task => pure (k.insert name process task)
  | .push thread taskId => k.push thread taskId
  | .link thread taskId => pure (k.link thread taskId)

/-- A task that spawns does nothing else in between, but it can be interrupted. -/
def Enabled (k : SpawnSystem) : SpawnEvent → Prop
  | .other (.spawn ..) => False
  | .other (.tick rsp) => k.processor.Enabled (.tick rsp)
  | .other (.keyboard _) => True
  | .other e => k.processor.Enabled e ∧ k.point k.processor.sched.current = .outside
  | .insert name process task => k.processor.Enabled (.spawn name process task) ∧
      k.point k.processor.sched.current = .outside
  | .push thread taskId => k.point k.processor.sched.current = .inserted thread taskId
  | .link thread taskId => k.point k.processor.sched.current = .queued thread taskId

def Reached (sym : Symbols) (cond : SpawnSystem → SpawnEvent → Prop) (k : SpawnSystem) : Prop :=
  Reach (fun k => ∃ idleStack kernelStack cr3, k = boot idleStack kernelStack cr3)
    (fun k k' => ∃ e, k.Enabled e ∧ cond k e ∧ k.exec sym e = .ok k') k

/-- The new task is still in the table when its id is written into its thread. -/
def LinksInTime (k : SpawnSystem) : SpawnEvent → Prop
  | .link thread taskId => ∃ t, k.processor.sched.find taskId = some t ∧ t.thread = thread
  | _ => True

instance (k : SpawnSystem) : (e : SpawnEvent) → Decidable (k.Enabled e)
  | .other (.spawn ..) => .isFalse id
  | .other (.tick rsp) => inferInstanceAs (Decidable (k.processor.Enabled (.tick rsp)))
  | .other (.keyboard _) => .isTrue trivial
  | .other .block | .other (.sleep _) | .other (.yield _) | .other (.exit _)
  | .other (.exitThread _) | .other .initComplete => inferInstanceAs (Decidable (_ ∧ _))
  | .insert .. => inferInstanceAs (Decidable (_ ∧ _))
  | .push .. | .link .. => inferInstanceAs (Decidable (_ = _))

instance (k : SpawnSystem) : (e : SpawnEvent) → Decidable (LinksInTime k e)
  | .link thread taskId =>
    decidable_of_iff ((k.processor.sched.find taskId).map Task.thread = some thread)
      (by rw [LinksInTime, Option.map_eq_some_iff])
  | .other _ | .insert .. | .push .. => .isTrue trivial

end SpawnSystem

/-! ## What keeps a thread lawful -/

namespace Scheduler

variable {s' : Scheduler} {w : Registry} {u : ThreadId}

theorem Lawful.touch (h : w.sched.Lawful u) (hmirror : w.Mirror) (htouch : Touch w.sched s') :
    s'.Lawful u := by
  refine ⟨?_, h.resolves.touch htouch⟩
  cases htouch with
  | inner a f hfind hthreads hf =>
    rw [hthreads]
    exact h.dead_iff
  | @marked a f t ht hfind hthread hthreads =>
    rw [hthreads]
    by_cases hu : u = t.thread
    · -- the task is in the table, so that its thread was and stays alive
      have halive : (w.sched.threads u).state ≠ .dead := by
        rw [hu, hmirror.shown ht]
        cases t.state <;> decide
      rw [if_pos hu]
      refine iff_of_false ?_ (h.dead_iff.not.mp halive)
      cases (f t).state <;> nofun
    · rw [if_neg hu]
      exact h.dead_iff
  | @removed a t ht hfind hthreads =>
    rw [hthreads]
    by_cases hu : u = t.thread
    · rw [if_pos hu]
      exact ⟨fun _ => rfl, fun _ => rfl⟩
    · rw [if_neg hu]
      exact h.dead_iff

theorem Lawful.sections (h : w.sched.Lawful u) (hw : w.Reached) (hsections : Sections w.sched s') :
    s'.Lawful u := by
  induction hsections with
  | refl => exact h
  | @tail s1 s2 hbefore hlocked ih =>
    have hmirror := (Processor.registry_sections hw hbefore).mirror
    exact ih.touch (w := { w with sched := s1 }) hmirror hlocked.touch

end Scheduler

namespace SpawnSystem

variable {k k' : SpawnSystem} {sym : Symbols} {e : SpawnEvent} {thread u : ThreadId} {taskId : TaskId}
variable {cond : SpawnSystem → SpawnEvent → Prop}

def Registered (k : SpawnSystem) : Prop :=
  ∃ w : Registry, w.Reached ∧ w.sched = k.processor.sched ∧ w.nextThreadId = k.processor.nextThreadId

theorem insert_cases (k : SpawnSystem) (name : String) (process : ProcessId) (task : Task) :
    (k.insert name process task).processor.nextThreadId = k.processor.nextThreadId + 1 ∧
    (k.insert name process task).returned = k.returned ∧
    (∀ u, u ≠ k.processor.nextThreadId →
      (k.insert name process task).processor.sched.threads u = k.processor.sched.threads u) ∧
    ((k.insert name process task).processor.sched.global = k.processor.sched.global ∨
      ∃ taskId t, k.processor.sched.find taskId = none ∧
        ∀ b, (k.insert name process task).processor.sched.find b =
          if b = taskId then some t else k.processor.sched.find b) := by
  rw [insert]
  cases hinsert : k.processor.sched.global.insertTask task with
  | error => exact ⟨rfl, rfl, fun u hu => Function.update_of_ne hu _ _, .inl rfl⟩
  | ok r =>
    obtain ⟨taskId, global⟩ := r
    obtain ⟨hnew, hfind⟩ := GlobalScheduler.insertTask_ok hinsert
    exact ⟨rfl, rfl, fun u hu => Function.update_of_ne hu _ _, .inr ⟨taskId, _, hnew, hfind⟩⟩

theorem Registered.insert (h : Registered k) {name : String} {process : ProcessId} {task : Task}
    (hthread : task.thread = k.processor.nextThreadId) : Registered (k.insert name process task) := by
  obtain ⟨w, hw, hsched, hnext⟩ := h
  have hmade := Reach.step hw (.newThread name process)
  rw [hsched, hnext] at hmade
  rw [SpawnSystem.insert]
  cases hinsert : k.processor.sched.global.insertTask task with
  | error => exact ⟨_, hmade, rfl, rfl⟩
  | ok r =>
    exact ⟨_, .step hmade (.insert (.inr hthread) hinsert), rfl, rfl⟩

theorem push_ok (hok : k.push thread taskId = .ok k') : ∃ queue, k' = { k with
    processor := { k.processor with sched := { k.processor.sched with queue := queue } }
    point := Function.update k.point k.processor.sched.current (.queued thread taskId) } := by
  rw [push] at hok
  cases hpush : k.processor.sched.queue.push taskId with
  | error =>
    rw [hpush] at hok
    cases hok
  | ok queue =>
    rw [hpush] at hok
    cases hok
    exact ⟨queue, rfl⟩

theorem other_sections {e : Event} (hen : k.Enabled (.other e)) (hok : k.exec sym (.other e) = .ok k') :
    Sections k.processor.sched k'.processor.sched ∧
      k'.processor.nextThreadId = k.processor.nextThreadId ∧ k'.returned = k.returned := by
  obtain ⟨p, hexec, hret⟩ := bind_eq_ok.mp hok
  cases hret
  rcases Processor.exec_sections hexec with ⟨name, process, task, rfl⟩ | ⟨hsections, hnext⟩
  · cases hen
  · exact ⟨hsections, hnext, rfl⟩

theorem Registered.step (h : Registered k) (hen : k.Enabled e) (hok : k.exec sym e = .ok k') :
    Registered k' := by
  cases e with
  | other e =>
    obtain ⟨w, hw, hsched, hnext⟩ := h
    obtain ⟨hsections, hnext', -⟩ := other_sections hen hok
    rw [← hsched] at hsections
    exact ⟨_, Processor.registry_sections hw hsections, rfl, hnext.trans hnext'.symm⟩
  | insert name process task =>
    cases hok
    exact h.insert hen.1.2.1
  | push thread taskId =>
    obtain ⟨w, hw, hsched, hnext⟩ := h
    obtain ⟨queue, rfl⟩ := push_ok hok
    have hlocked : w.sched.Locked { k.processor.sched with queue := queue } :=
      .elsewhere (by rw [hsched]) (by rw [hsched])
    exact ⟨_, .step hw (.locked hlocked), rfl, hnext⟩
  | link thread taskId =>
    cases hok
    obtain ⟨w, hw, hsched, hnext⟩ := h
    have hlinked := Reach.step hw (.link thread taskId)
    rw [hsched] at hlinked
    exact ⟨_, hlinked, rfl, hnext⟩

theorem lawful_link_iff (h : Registered k) :
    (k.link thread taskId).processor.sched.Lawful thread ↔ LinksInTime k (.link thread taskId) := by
  have hthread : (k.link thread taskId).processor.sched.threads thread =
      { k.processor.sched.threads thread with taskId := some taskId } := Function.update_self _ _ _
  constructor
  · intro hlaw
    exact hlaw.resolves taskId (by rw [hthread])
  · rintro ⟨t, ht, rfl⟩
    obtain ⟨w, hw, hsched, -⟩ := h
    have hshown := hw.mirror.shown (hsched ▸ ht)
    rw [hsched] at hshown
    refine ⟨?_, fun a ha => ?_⟩
    · rw [hthread]
      rw [hshown]
      cases t.state <;> simp [TaskState.shown]
    · rw [hthread] at ha
      cases ha
      exact ⟨t, ht, rfl⟩

def Orderly (k : SpawnSystem) : Prop :=
  ∀ u, k.returned u = true → u < k.processor.nextThreadId ∧ k.processor.sched.Lawful u

theorem Orderly.step (h : Orderly k) (hreg : Registered k) (hen : k.Enabled e) (hcond : LinksInTime k e)
    (hok : k.exec sym e = .ok k') : Orderly k' := by
  intro u hu
  cases e with
  | other e =>
    obtain ⟨hsections, hnext, hreturned⟩ := other_sections hen hok
    rw [hreturned] at hu
    rw [hnext]
    obtain ⟨hknown, hlaw⟩ := h u hu
    obtain ⟨w, hw, hsched, -⟩ := hreg
    rw [← hsched] at hlaw hsections
    exact ⟨hknown, hlaw.sections hw hsections⟩
  | insert name process task =>
    cases hok
    obtain ⟨hnext, hreturned, hthreads, hglobal⟩ := k.insert_cases name process task
    rw [hreturned] at hu
    obtain ⟨hknown, hlaw⟩ := h u hu
    have hsame := hthreads u (Nat.ne_of_lt hknown)
    refine ⟨hnext ▸ Nat.lt_succ_of_lt hknown, by rw [hsame]; exact hlaw.dead_iff, ?_⟩
    rcases hglobal with hglobal | ⟨taskId, t, hnew, hfind⟩
    · intro a ha
      rw [hsame] at ha
      rw [find, hglobal]
      exact hlaw.resolves a ha
    · exact hlaw.resolves.insert hnew hfind hsame
  | push thread taskId =>
    obtain ⟨queue, rfl⟩ := push_ok hok
    obtain ⟨hknown, hlaw⟩ := h u hu
    exact ⟨hknown, hlaw.dead_iff, hlaw.resolves⟩
  | link thread taskId =>
    cases hok
    by_cases hthread : u = thread
    · subst hthread
      obtain ⟨t, ht, rfl⟩ := hcond
      obtain ⟨w, hw, hsched, hnext⟩ := hreg
      refine ⟨hnext ▸ hw.mirror.known (hsched ▸ ht), ?_⟩
      exact (lawful_link_iff ⟨w, hw, hsched, hnext⟩).mpr ⟨t, ht, rfl⟩
    · have hret : k.returned u = true := (Function.update_of_ne hthread _ _).symm.trans hu
      have hsame : (k.link thread taskId).processor.sched.threads u = k.processor.sched.threads u :=
        Function.update_of_ne hthread _ _
      obtain ⟨hknown, hlaw⟩ := h u hret
      refine ⟨hknown, ?_, fun a ha => ?_⟩
      · rw [hsame]
        exact hlaw.dead_iff
      · rw [hsame] at ha
        exact hlaw.resolves a ha

/-- If a new task is always still in the table when its id is written into its thread, every
thread whose spawn has returned is lawful. The write-back makes a thread lawful in no other case. -/
theorem returned_threads_lawful (h : Reached sym LinksInTime k) :
    (∀ u, k.returned u = true → k.processor.sched.Lawful u) ∧
      ∀ thread taskId k', k.Enabled (.link thread taskId) →
        k.exec sym (.link thread taskId) = .ok k' →
        (k'.processor.sched.Lawful thread ↔
          ∃ t, k.processor.sched.find taskId = some t ∧ t.thread = thread) := by
  have hboth : Registered k ∧ Orderly k := by
    refine h.invariant (fun k => Registered k ∧ Orderly k) ?_ ?_
    · rintro _ ⟨idleStack, kernelStack, cr3, rfl⟩
      exact ⟨⟨_, .start ⟨idleStack, kernelStack, cr3, rfl⟩, rfl, rfl⟩, nofun⟩
    · rintro k k' ⟨hreg, hk⟩ ⟨e, hen, hcond, hok⟩
      exact ⟨hreg.step hen hok, hk.step hreg hen hcond hok⟩
  refine ⟨fun u hu => (hboth.2 u hu).2, fun thread taskId k' _ hok => ?_⟩
  cases hok
  exact lawful_link_iff hboth.1

def attempt (sym : Symbols) (cond : SpawnSystem → SpawnEvent → Prop) [∀ k e, Decidable (cond k e)]
    (k : SpawnSystem) (e : SpawnEvent) : Option SpawnSystem :=
  if k.Enabled e ∧ cond k e then (k.exec sym e).toOption else none

theorem exists_reached (sym : Symbols) (cond : SpawnSystem → SpawnEvent → Prop)
    [∀ k e, Decidable (cond k e)] (es : List SpawnEvent) (q : SpawnSystem → Prop) [DecidablePred q]
    (h : (runEvents (attempt sym cond) (boot 0 0 0) es).any (fun k => decide (q k)) = true) :
    ∃ k, Reached sym cond k ∧ q k := by
  refine Reach.exists_run ?_ ⟨0, 0, 0, rfl⟩ es q h
  intro k e k' hattempt
  obtain ⟨⟨hen, hcond⟩, hok⟩ := Option.ite_none_right_eq_some.mp hattempt
  exact ⟨e, hen, hcond, Processor.ok_of_toOption hok⟩

def spawnOfB : List SpawnEvent :=
  [.insert "A" 1 (Processor.sampleTask 1), .push 1 ⟨1, 0⟩, .link 1 ⟨1, 0⟩, .other .initComplete,
    .other (.yield 0x7000), .insert "B" 1 (Processor.sampleTask 2), .push 2 ⟨2, 0⟩]

/-- B is queued and linked before anything else happens. -/
theorem returned_threads_lawful_linked : ∃ k, Reached Processor.sampleSymbols LinksInTime k ∧
    k.returned 2 = true ∧ k.processor.sched.Lawful 2 := by
  obtain ⟨k, hk, hreturned⟩ := exists_reached Processor.sampleSymbols LinksInTime
    (spawnOfB ++ [.link 2 ⟨2, 0⟩]) (fun k => k.returned 2 = true) (by decide +kernel)
  exact ⟨k, hk, hreturned, (returned_threads_lawful hk).1 2 hreturned⟩

/-- A is interrupted before the write-back for as long as it takes B to run, exit and be removed;
the thread of B is then `Dead` with an id that stands for nothing. -/
theorem dead_thread_keeps_id : ∃ k, Reached Processor.sampleSymbols (fun _ _ => True) k ∧
    k.returned 2 = true ∧ (k.processor.sched.threads 2).state = .dead ∧
      (k.processor.sched.threads 2).taskId = some ⟨2, 0⟩ ∧ k.processor.sched.InState ⟨1, 0⟩ .running ∧
      (k.processor.sched.find ⟨2, 0⟩).isNone :=
  exists_reached Processor.sampleSymbols (fun _ _ => True)
    (spawnOfB ++ List.replicate 4 (.other (.tick 0x4f00)) ++
      [.other (.exit 0x5f00), .other (.tick 0x4f00), .other (.tick 0x4f00), .link 2 ⟨2, 0⟩])
    (fun k => k.returned 2 = true ∧ (k.processor.sched.threads 2).state = .dead ∧
      (k.processor.sched.threads 2).taskId = some ⟨2, 0⟩ ∧ k.processor.sched.InState ⟨1, 0⟩ .running ∧
      (k.processor.sched.find ⟨2, 0⟩).isNone)
    (by decide +kernel)

end SpawnSystem

end CrapOs
