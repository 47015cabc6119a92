import CrapOs.Foundation.Alternation
import CrapOs.TaskScheduler.Rotation

/-! # Round robin

Tasks that neither block nor end are chosen in turn: between two choices of one
of them every other is chosen once. Other tasks may do as they like; they are
chosen in between.
-/

namespace CrapOs

open Foundation Scheduler

namespace Scheduler

variable {s s' : Scheduler} {a : TaskId} {sym : Symbols} {rsp : Nat}

structure WithinQuantum (s : Scheduler) : Prop where
  cpu : s.ticksRemaining ≤ taskQuantumTicks
  tasks : ∀ a t, s.find a = some t → t.ticksRemaining ≤ taskQuantumTicks

def KeepsQuantum (t t' : Task) : Prop :=
  t.ticksRemaining ≤ taskQuantumTicks → t'.ticksRemaining ≤ taskQuantumTicks

theorem allowsSwitch_keepsQuantum : AllowsSwitch KeepsQuantum where
  refl _ := id
  trans _ _ _ h h' hle := h' (h hle)
  select _ _ := id
  requeue _ _ := id

theorem allowsTimer_keepsQuantum : AllowsTimer KeepsQuantum where
  refl _ := id
  trans _ _ _ h h' hle := h' (h hle)
  wake _ _ := id
  count _ := id
  kill _ := id
  reap _ _ := id

namespace WithinQuantum

theorem follows {D : TaskId → Prop} (h : WithinQuantum s) (hfollow : Follows KeepsQuantum D s s')
    (hcpu : s'.ticksRemaining ≤ taskQuantumTicks) : WithinQuantum s' := by
  refine ⟨hcpu, fun a t' ht' => ?_⟩
  obtain ⟨t, ht, hkeeps⟩ := hfollow.find_before ht'
  exact hkeeps (h.tasks a t ht)

theorem reschedule (h : WithinQuantum s) (hok : s.reschedule sym rsp = .ok s') : WithinQuantum s' := by
  have hR := allowsSwitch_keepsQuantum
  have hfollow : Follows KeepsQuantum (fun _ => False) s s' := hR.reschedule (fun _ _ => id) hok
  refine h.follows hfollow ?_
  obtain ⟨args, s1, hsched, hcase⟩ := reschedule_ok hok
  obtain ⟨nextId, s2, s3, next, hchosen, hrequeued, hnext, rfl, -⟩ := schedule_ok hsched
  have hswitch : Follows KeepsQuantum (fun _ => False) s s3 :=
    (hR.chosen hchosen).trans hR.trans (hR.requeued hrequeued)
  obtain ⟨t, ht, hkeeps⟩ := hswitch.find_before hnext
  rcases hcase with ⟨-, rfl⟩ | ⟨x, -, rfl⟩
  · exact hkeeps (h.tasks nextId t ht)
  · exact hkeeps (h.tasks nextId t ht)

end WithinQuantum

/-- The timer interrupt counts down, and asks for `schedule` when nothing is left. -/
theorem timerWork_ticksRemaining (s : Scheduler) :
    s.timerWork.2.ticksRemaining =
        (if s.ticksRemaining ≤ 1 then taskQuantumTicks else s.ticksRemaining - 1) ∧
      (s.timerWork.1 = false → 1 < s.ticksRemaining) := by
  have hslept : s.tickSleepQueue.ticksRemaining = s.ticksRemaining := by
    refine wakeExpired_inv (P := fun s' => s'.ticksRemaining = s.ticksRemaining) (fun s' a hs => ?_)
      (fun _ _ hs => hs) _ rfl
    obtain ⟨_, _, _, heq⟩ := s'.wake_frame a
    rw [heq]
    exact hs
  have hcounted : (s.tickSleepQueue.modifyTask s.tickSleepQueue.current fun t =>
      { t with ticksExecuted := t.ticksExecuted + 1 }).ticksRemaining = s.ticksRemaining := hslept
  obtain ⟨_, _, _, _, _, hdrain⟩ := s.onTimerTick.2.drainSystemTasks_frame
  obtain ⟨_, _, _, hbury⟩ := s.onTimerTick.2.drainSystemTasks.tombstoneCleanup_frame
  obtain ⟨_, _, _, hreap⟩ := s.onTimerTick.2.drainSystemTasks.tombstoneCleanup.reapDyingTasks_frame
  have hwork : s.timerWork.2.ticksRemaining = s.onTimerTick.2.ticksRemaining := by
    rw [timerWork]
    dsimp only
    rw [hreap, hbury, hdrain]
  have hflag : s.timerWork.1 = false → s.onTimerTick.1 = false := by
    exact fun h => (Bool.or_eq_false_iff.mp h).1
  rw [hwork]
  by_cases hlow : s.ticksRemaining ≤ 1
  · rw [onTimerTick] at hflag ⊢
    simp only [hcounted, hlow, if_true] at hflag ⊢
    exact ⟨trivial, fun h => by cases hflag h⟩
  · rw [onTimerTick]
    simp only [hcounted, hlow, if_false]
    exact ⟨trivial, fun _ => by omega⟩

theorem WithinQuantum.timerWork (h : WithinQuantum s) : WithinQuantum s.timerWork.2 := by
  refine h.follows (allowsTimer_keepsQuantum.timerWork s) ?_
  rw [s.timerWork_ticksRemaining.1]
  have hcpu := h.cpu
  split
  · exact Nat.le_refl _
  · exact Nat.le_trans (Nat.sub_le _ _) hcpu

theorem WithinQuantum.markBlocked (h : WithinQuantum s) : WithinQuantum s.markBlocked := by
  obtain ⟨_, _, heq⟩ := s.markBlocked_frame
  have hfollow : Follows KeepsQuantum (fun _ => False) s s.markBlocked :=
    .of_map (fun _ => id) s.find_markBlocked fun _ _ _ => Nat.le_refl _
  refine h.follows hfollow ?_
  rw [heq]
  exact h.cpu

theorem reschedule_current_mem {l : List TaskId} (hn : 2 ≤ l.length) (hnodup : l.Nodup)
    (hturns : ∀ a ∈ l, s.Turns a) (hok : s.reschedule sym rsp = .ok s') :
    s'.current ∈ s.queue.entries := by
  obtain ⟨pre, tail, hpre, -, hsplit⟩ := reschedule_queue hok
  rcases hsplit with ⟨rest, hsplit, -⟩ | ⟨-, hall, -⟩
  · rw [hsplit]
    exact List.mem_append_right _ List.mem_cons_self
  · -- one of the two is not the current one and waits in the queue
    obtain ⟨b, hb, hne⟩ : ∃ b ∈ l, s.current ≠ b := by
      by_contra hall
      push Not at hall
      have hsub : l ⊆ [s.current] := fun b hb => List.mem_singleton.mpr (hall b hb).symm
      have hle := (hnodup.subperm hsub).length_le
      rw [List.length_singleton] at hle
      omega
    have hmem := (hturns b hb).mem_queue hne
    exact absurd ((hturns b hb).ready hmem) (hpre b (hall ▸ hmem))

end Scheduler

namespace Processor

variable {p p' : Processor} {sym : Symbols} {e : Event} {l : List TaskId} {a b : TaskId}

/-- The tasks in `l` do not block and do not end, by themselves or on request. Besides, new tasks
have at most a full quantum, nobody calls `exit_thread` on the idle thread, and the idle task is not
queued when the kernel is declared initialised. -/
def KeepsRunning (l : List TaskId) (p : Processor) : Event → Prop
  | .block | .sleep _ | .exit _ => p.sched.current ∉ l
  | .exitThread thread => thread ≠ 0 ∧ ∀ a ∈ l, (p.sched.threads thread).taskId ≠ some a
  | .spawn _ _ task => task.ticksRemaining ≤ taskQuantumTicks
  | .initComplete => TaskId.idle ∉ p.sched.queue.entries
  | .yield _ | .keyboard _ | .tick _ => True

instance (l : List TaskId) (p : Processor) : (e : Event) → Decidable (KeepsRunning l p e)
  | .block | .sleep _ | .exit _ => inferInstanceAs (Decidable (p.sched.current ∉ l))
  | .exitThread thread =>
    inferInstanceAs (Decidable (thread ≠ 0 ∧ ∀ a ∈ l, (p.sched.threads thread).taskId ≠ some a))
  | .spawn _ _ task => inferInstanceAs (Decidable (task.ticksRemaining ≤ taskQuantumTicks))
  | .initComplete => inferInstanceAs (Decidable (TaskId.idle ∉ p.sched.queue.entries))
  | .yield _ | .keyboard _ | .tick _ => .isTrue trivial

theorem KeepsRunning.sparesIdle (h : KeepsRunning l p e) : SparesIdle p e := by
  cases e with
  | exitThread => exact h.1
  | spawn | block | sleep | yield | exit | keyboard | tick | initComplete => exact trivial

theorem KeepsRunning.nil (h : KeepsRunning l p e) : KeepsRunning [] p e := by
  cases e with
  | exitThread => exact ⟨h.1, fun a ha => absurd ha List.not_mem_nil⟩
  | block | sleep | exit => exact List.not_mem_nil
  | spawn | initComplete => exact h
  | yield | keyboard | tick => exact trivial

structure Rotating (l : List TaskId) (p : Processor) : Prop where
  lively : Lively p
  idle : IdleUnqueued p.sched
  placed : ∀ a ∈ l, p.sched.Turns a ∨ p.sched.Absent a
  requests : ∀ arg ∈ p.sched.systemTasks.entries, .expandTaskId arg ∉ l
  quantum : WithinQuantum p.sched

theorem rotating_boot (hidle : .idle ∉ l) (idleStack kernelStack cr3 : Nat) :
    Rotating l (boot idleStack kernelStack cr3) := by
  refine ⟨lively_boot .., fun hinit => ?_, fun a ha => .inr ⟨?_, ?_, List.not_mem_nil⟩, ?_, ?_⟩
  · cases hinit
  · cases hfind : (boot idleStack kernelStack cr3).sched.find a with
    | none => rfl
    | some t => exact absurd ((boot_find hfind).1 ▸ ha) hidle
  · rintro rfl
    exact hidle ha
  · exact fun arg harg => absurd harg List.not_mem_nil
  · refine ⟨Nat.le_refl _, fun a t ht => ?_⟩
    rw [(boot_find ht).2]
    exact Nat.le_refl _

theorem Spawned.untouched {task : Task} (h : Spawned p task p') (ha : ∃ t, p.sched.find a = some t) :
    Untouched [a] p.sched p'.sched := by
  cases h with
  | refused _ _ => exact .of_state rfl rfl fun _ _ => rfl
  | @placed taskId global threads queue hnew hfind _ _ hqueue =>
    have hother : a ≠ taskId := by
      rintro rfl
      obtain ⟨t, ht⟩ := ha
      cases hnew.symm.trans ht
    refine ⟨rfl, ⟨[taskId], hqueue, fun b hb hmem => ?_⟩, fun b hb => ?_⟩
    · exact hother ((List.mem_singleton.mp hb).symm.trans (List.mem_singleton.mp hmem))
    · rw [List.mem_singleton.mp hb]
      exact congrArg (Option.map Task.state) ((hfind a).trans (if_neg hother))

theorem Spawned.absent {task : Task} (h : Spawned p task p') (habsent : p.sched.Absent a) :
    p'.sched.Turns a ∨ p'.sched.Absent a := by
  cases h with
  | refused _ _ => exact .inr ⟨habsent.find, habsent.current, habsent.queue⟩
  | @placed taskId global threads queue hnew hfind _ _ hqueue =>
    by_cases heq : a = taskId
    · refine .inl (.waiting habsent.current ⟨_, (hfind a).trans (if_pos heq), rfl⟩ ?_)
      rw [show RingBuffer.entries _ = _ from hqueue, List.count_append, heq, List.count_singleton_self,
        List.count_eq_zero.mpr (heq ▸ habsent.queue)]
    · refine .inr ⟨((hfind a).trans (if_neg heq)).trans habsent.find, habsent.current, ?_⟩
      rw [show RingBuffer.entries _ = _ from hqueue, List.mem_append, not_or]
      exact ⟨habsent.queue, fun hmem => heq (List.mem_singleton.mp hmem)⟩

namespace Rotating

theorem untouched_timerWork (h : Rotating l p) : Untouched l p.sched p.sched.timerWork.2 :=
  Scheduler.untouched_timerWork h.placed h.requests h.lively.orderly.tombs

theorem untouched_scheduleCall (h : Rotating l p) (hcond : KeepsRunning l p e) {s : Scheduler}
    {rsp : Nat} (hcall : p.scheduleCall e = some (s, rsp)) : Untouched l p.sched s := by
  cases scheduleCall_called hcall with
  | yield => exact .refl _ _
  | exit =>
    obtain ⟨_, _, _, heq⟩ := p.sched.killCurrentTask_frame
    refine .of_state (by rw [heq]) (by rw [heq]) fun a ha => ?_
    rw [find_killCurrentTask, if_neg]
    rintro rfl
    exact hcond ha
  | tick => exact h.untouched_timerWork

theorem untouched_markBlocked {s : Scheduler} (h : s.current ∉ l) : Untouched l s s.markBlocked := by
  obtain ⟨_, _, heq⟩ := s.markBlocked_frame
  refine .of_state (by rw [heq]) (by rw [heq]) fun a ha => ?_
  rw [find_markBlocked, if_neg]
  rintro rfl
  exact h ha

theorem untouched_exec (h : Rotating l p) (hcond : KeepsRunning l p e) (hcall : p.scheduleCall e = none)
    (hspawn : ∀ name process task, e ≠ .spawn name process task) (hok : p.exec sym e = .ok p') :
    Untouched l p.sched p'.sched := by
  cases exec_done hok with
  | spawned _ => exact absurd rfl (hspawn _ _ _)
  | @blocked _ q he =>
    have hsame : Untouched l p.sched { p.sched with sleepQueue := q } := .of_state rfl rfl fun _ _ => rfl
    refine hsame.trans (untouched_markBlocked ?_)
    rcases he with ⟨rfl, -⟩ | ⟨_, rfl, -⟩ <;> exact hcond
  | asked thread =>
    obtain ⟨_, heq⟩ := p.sched.exitThread_frame thread
    rw [heq]
    exact .of_state rfl rfl fun _ _ => rfl
  | woken taskId =>
    refine untouched_wake (fun a ha => not_inState (h.placed a ha) ?_) taskId
    simp [TaskState.Runnable]
  | initialised => exact .of_state rfl rfl fun _ _ => rfl
  | ticked _ => exact h.untouched_timerWork
  | scheduled hcall' _ => cases hcall.symm.trans hcall'

theorem place_exec (h : Rotating l p) (hidle : .idle ∉ l) (hen : p.Enabled e) (hcond : KeepsRunning l p e)
    (ha : a ∈ l) (hok : p.exec sym e = .ok p') : (p.sched.Turns a → p'.sched.Turns a) ∧
      (p.sched.Absent a → p'.sched.Turns a ∨ p'.sched.Absent a) := by
  have hne : a ≠ .idle := fun heq => hidle (heq ▸ ha)
  cases hcall : p.scheduleCall e with
  | some call =>
    have hbefore := h.untouched_scheduleCall hcond hcall
    have hresched := exec_reschedule hcall hok
    have horderly := h.lively.scheduleCall_orderly hen hcall
    exact ⟨fun hturns => (hbefore.turns ha hturns).reschedule hne hresched,
      fun habsent => .inr ((hbefore.absent ha habsent).reschedule horderly hresched)⟩
  | none =>
    by_cases hspawn : ∃ name process task, e = .spawn name process task
    · obtain ⟨name, process, task, rfl⟩ := hspawn
      have hspawned := spawn_spawned hok
      exact ⟨fun hturns => (hspawned.untouched hturns.exists_find).turns List.mem_cons_self hturns,
        hspawned.absent⟩
    · have hnot : ∀ name process task, e ≠ .spawn name process task :=
        fun name process task heq => hspawn ⟨name, process, task, heq⟩
      have huntouched := h.untouched_exec hcond hcall hnot hok
      exact ⟨huntouched.turns ha, fun habsent => .inr (huntouched.absent ha habsent)⟩

theorem placed_exec (h : Rotating l p) (hidle : .idle ∉ l) (hen : p.Enabled e)
    (hcond : KeepsRunning l p e) (hok : p.exec sym e = .ok p') :
    ∀ a ∈ l, p'.sched.Turns a ∨ p'.sched.Absent a := by
  intro a ha
  obtain ⟨hstays, hstarts⟩ := h.place_exec hidle hen hcond ha hok
  exact (h.placed a ha).elim (.inl ∘ hstays) hstarts

/-- Nobody asks one of the tasks to end. -/
theorem requests_exec (h : Rotating l p) (hcond : KeepsRunning l p e) (hok : p.exec sym e = .ok p') :
    ∀ arg ∈ p'.sched.systemTasks.entries, .expandTaskId arg ∉ l := by
  cases e with
  | exitThread thread =>
    cases hok
    rw [Scheduler.exitThread]
    split
    · exact h.requests
    cases htask : (p.sched.threads thread).taskId with
    | none => exact h.requests
    | some taskId =>
      obtain ⟨queue, heq, hentries⟩ := p.sched.queueSystemTask_eq taskId.compressTaskId
      obtain ⟨t, ht, -⟩ := h.lively.orderly.linked.task_thread htask
      have hslot : taskId.slotIndex < 2 ^ 56 :=
        Nat.lt_trans (GlobalScheduler.slotIndex_lt ht) (by decide)
      dsimp only
      rw [heq]
      intro arg harg
      rw [show RingBuffer.entries _ = _ from hentries] at harg
      rcases List.mem_append.mp (List.mem_of_mem_take harg) with hmem | hmem
      · exact h.requests arg hmem
      · rw [List.mem_singleton.mp hmem, TaskId.expand_compress hslot]
        exact fun hin => hcond.2 taskId hin htask
  | tick rsp =>
    rw [tick_entries hok]
    exact fun arg harg => absurd harg List.not_mem_nil
  | spawn | block | sleep | yield | exit | keyboard | initComplete =>
    rw [(exec_queues hok (by simp)).1 (by simp)]
    exact h.requests

theorem quantum_exec (h : Rotating l p) (hcond : KeepsRunning l p e) (hok : p.exec sym e = .ok p') :
    WithinQuantum p'.sched := by
  have hT := allowsTimer_keepsQuantum
  cases exec_done hok with
  | spawned hspawned =>
    cases hspawned with
    | refused _ _ => exact ⟨h.quantum.cpu, h.quantum.tasks⟩
    | @placed taskId global threads queue hnew hfind _ _ _ =>
      refine ⟨h.quantum.cpu, fun a t ht => ?_⟩
      rw [show Scheduler.find _ a = _ from hfind a] at ht
      split at ht
      · cases ht
        exact hcond
      · exact h.quantum.tasks a t ht
  | @blocked _ q _ =>
    have hsame : WithinQuantum { p.sched with sleepQueue := q } := ⟨h.quantum.cpu, h.quantum.tasks⟩
    exact hsame.markBlocked
  | asked thread =>
    obtain ⟨_, heq⟩ := p.sched.exitThread_frame thread
    rw [heq]
    exact ⟨h.quantum.cpu, h.quantum.tasks⟩
  | woken taskId =>
    obtain ⟨_, _, _, heq⟩ := p.sched.wake_frame taskId
    have hfollow : Follows KeepsQuantum (fun _ => False) p.sched (p.sched.wake taskId).2 :=
      .wake hT.refl hT.wake
    exact h.quantum.follows hfollow (by rw [heq]; exact h.quantum.cpu)
  | initialised => exact ⟨h.quantum.cpu, h.quantum.tasks⟩
  | ticked _ => exact h.quantum.timerWork
  | scheduled hcall hresched =>
    cases scheduleCall_called hcall with
    | yield => exact h.quantum.reschedule hresched
    | exit =>
      obtain ⟨_, _, _, heq⟩ := p.sched.killCurrentTask_frame
      have hfollow : Follows KeepsQuantum (fun _ => False) p.sched p.sched.killCurrentTask :=
        .killCurrentTask hT.refl fun t _ => hT.kill t
      have hkilled := h.quantum.follows hfollow (by rw [heq]; exact h.quantum.cpu)
      exact hkilled.reschedule hresched
    | tick => exact h.quantum.timerWork.reschedule hresched

theorem step (h : Rotating l p) (hidle : .idle ∉ l) (hen : p.Enabled e) (hcond : KeepsRunning l p e)
    (hok : p.exec sym e = .ok p') : Rotating l p' where
  lively := (h.lively.step hen hcond.sparesIdle hok).1
  idle := by
    refine idleUnqueued_exec h.idle h.lively ?_ hok
    rintro rfl
    exact hcond
  placed := h.placed_exec hidle hen hcond hok
  requests := h.requests_exec hcond hok
  quantum := h.quantum_exec hcond hok

end Rotating

theorem Reached.rotating (hidle : .idle ∉ l) (h : p.Reached sym (KeepsRunning l)) : Rotating l p := by
  refine h.invariant (Rotating l) ?_ ?_
  · rintro _ ⟨idleStack, kernelStack, cr3, rfl⟩
    exact rotating_boot hidle idleStack kernelStack cr3
  · rintro p p' hp ⟨e, hen, hcond, hok⟩
    exact hp.step hidle hen hcond hok

/-! ## Ticks and yields -/

def IsTurn : Event → Prop
  | .tick rsp | .yield rsp => rsp ≠ 0
  | _ => False

/-- The tasks `schedule` chooses along a run, with the state at its end. -/
def selections (sym : Symbols) : Processor → List Event → Except Halt (List TaskId × Processor)
  | p, [] => pure ([], p)
  | p, e :: es => do
    let p' ← p.exec sym e
    let (chosen, q) ← selections sym p' es
    pure (if (p.scheduleCall e).isSome then p'.sched.current :: chosen else chosen, q)

def Stays (sym : Symbols) (a : TaskId) : Processor → List Event → Prop
  | _, [] => True
  | p, e :: es => p.sched.current = a ∧ ∀ p', p.exec sym e = .ok p' → Stays sym a p' es

structure Underway (l : List TaskId) (p : Processor) : Prop where
  rotating : Rotating l p
  turns : ∀ a ∈ l, p.sched.Turns a
  init : p.sched.kernelInitComplete = true

theorem IsTurn.enabled (h : IsTurn e) : p.Enabled e := by
  cases e with
  | tick | yield => exact h
  | spawn | block | sleep | exit | exitThread | keyboard | initComplete => cases h

theorem IsTurn.keepsRunning (h : IsTurn e) : KeepsRunning l p e := by
  cases e with
  | tick | yield => exact trivial
  | spawn | block | sleep | exit | exitThread | keyboard | initComplete => cases h

namespace Underway

theorem exists_exec (h : Underway l p) (he : IsTurn e) (sym : Symbols) :
    ∃ p', p.exec sym e = .ok p' := by
  have hresched {s : Scheduler} (ho : Orderly s) (rsp : Nat) : ∃ s', s.reschedule sym rsp = .ok s' := by
    obtain ⟨⟨args, s1⟩, hsched⟩ := schedule_isOk ho sym
    cases args with
    | none => exact ⟨_, bind_eq_ok.mpr ⟨_, hsched, rfl⟩⟩
    | some args => exact ⟨_, bind_eq_ok.mpr ⟨_, hsched, rfl⟩⟩
  cases e with
  | yield rsp =>
    obtain ⟨s', hs'⟩ := hresched h.rotating.lively.orderly rsp
    exact ⟨_, bind_eq_ok.mpr ⟨s', hs', rfl⟩⟩
  | tick rsp =>
    have hlive := h.rotating.lively
    obtain ⟨ho, -⟩ := ticked_timerWork hlive.orderly hlive.requests hlive.runs
    obtain ⟨s', hs'⟩ : ∃ s', p.sched.handlerApicTimer sym rsp = .ok s' := by
      rw [handlerApicTimer]
      dsimp only
      split
      · exact hresched ho rsp
      · exact ⟨_, rfl⟩
    exact ⟨_, bind_eq_ok.mpr ⟨s', hs', rfl⟩⟩
  | spawn | block | sleep | exit | exitThread | keyboard | initComplete => cases he

theorem exec (h : Underway l p) (hidle : .idle ∉ l) (he : IsTurn e) (hok : p.exec sym e = .ok p') :
    Underway l p' := by
  refine ⟨h.rotating.step hidle he.enabled he.keepsRunning hok,
    fun a ha => (h.rotating.place_exec hidle he.enabled he.keepsRunning ha hok).1 (h.turns a ha), ?_⟩
  have hwork : p.sched.timerWork.2.kernelInitComplete = true := by
    obtain ⟨_, _, _, _, _, _, _, _, heq⟩ := p.sched.timerWork_frame
    rw [heq]
    exact h.init
  cases e with
  | yield rsp =>
    obtain ⟨_, _, _, _, _, _, heq⟩ := reschedule_frame (exec_reschedule rfl hok)
    rw [heq]
    exact h.init
  | tick rsp =>
    obtain ⟨s', htick, hret⟩ := bind_eq_ok.mp hok
    cases hret
    rcases handlerApicTimer_ok htick with ⟨-, hresched⟩ | ⟨-, rfl⟩
    · obtain ⟨_, _, _, _, _, _, heq⟩ := reschedule_frame hresched
      rw [heq]
      exact hwork
    · exact hwork
  | spawn | block | sleep | exit | exitThread | keyboard | initComplete => cases he

theorem selects (h : Underway l p) (hn : 2 ≤ l.length) (hnodup : l.Nodup) (he : IsTurn e)
    (hcall : p.scheduleCall e ≠ none) (hok : p.exec sym e = .ok p') :
    p'.sched.current ≠ .idle ∧
      (p.sched.current ∈ l ∨ p.sched.current = .idle → p'.sched.current ≠ p.sched.current) := by
  obtain ⟨⟨s, rsp⟩, hcall⟩ := Option.ne_none_iff_exists'.mp hcall
  have huntouched := h.rotating.untouched_scheduleCall he.keepsRunning hcall
  have hturns (a : TaskId) (ha : a ∈ l) := huntouched.turns ha (h.turns a ha)
  have hmem := reschedule_current_mem hn hnodup hturns (exec_reschedule hcall hok)
  have hidle : TaskId.idle ∉ s.queue.entries :=
    idleUnqueued_scheduleCall h.rotating.idle h.rotating.lively.orderly hcall
      ((kernelInitComplete_scheduleCall hcall).trans h.init)
  refine ⟨fun heq => hidle (heq ▸ hmem), fun hcases heq => ?_⟩
  rw [heq] at hmem
  rcases hcases with hin | hcurrent
  · cases hturns _ hin with
    | running _ _ hout => exact hout hmem
    | waiting hne _ _ => exact hne huntouched.current
  · exact hidle (hcurrent ▸ hmem)

/-- The one of two tasks that is in front is chosen next, and then the other. -/
theorem firstOf_exec (h : Underway l p) (ha : a ∈ l) (hb : b ∈ l) (hne : a ≠ b)
    (he : IsTurn e) (hok : p.exec sym e = .ok p') :
    (p.scheduleCall e = none ∨ p'.sched.current ≠ a ∧ p'.sched.current ≠ b →
        p'.sched.firstOf a b = p.sched.firstOf a b) ∧
      (p.scheduleCall e ≠ none → p'.sched.current = a ∨ p'.sched.current = b →
        p.sched.firstOf a b = some p'.sched.current) := by
  cases hcall : p.scheduleCall e with
  | none =>
    have hnot : ∀ name process task, e ≠ .spawn name process task := by
      rintro name process task rfl
      cases he
    have huntouched := h.rotating.untouched_exec he.keepsRunning hcall hnot hok
    exact ⟨fun _ => firstOf_untouched huntouched (h.turns a ha) (h.turns b hb) hne,
      fun hsome => absurd rfl hsome⟩
  | some call =>
    have huntouched := h.rotating.untouched_scheduleCall he.keepsRunning hcall
    have hfirst := firstOf_untouched huntouched (h.turns a ha) (h.turns b hb) hne
    obtain ⟨hchosen, hother⟩ := firstOf_reschedule (huntouched.turns ha (h.turns a ha))
      (huntouched.turns hb (h.turns b hb)) hne (exec_reschedule hcall hok)
    rw [hfirst] at hchosen hother
    refine ⟨fun hcases => ?_, fun _ => hchosen⟩
    rcases hcases with hnone | ⟨hna, hnb⟩
    · cases hnone
    · exact hother hna hnb

end Underway

theorem selections_cons {es : List Event} {chosen : List TaskId} {q : Processor}
    (h : selections sym p (e :: es) = .ok (chosen, q)) : ∃ p' rest, p.exec sym e = .ok p' ∧
      selections sym p' es = .ok (rest, q) ∧
      chosen = if (p.scheduleCall e).isSome then p'.sched.current :: rest else rest := by
  obtain ⟨p', hok, hrest⟩ := bind_eq_ok.mp h
  obtain ⟨⟨rest, q'⟩, hrun, hret⟩ := bind_eq_ok.mp hrest
  cases hret
  exact ⟨p', rest, hok, hrun, rfl⟩

namespace Underway

variable {es : List Event} {chosen : List TaskId} {q : Processor}

theorem exists_selections (h : Underway l p) (hidle : .idle ∉ l) (hes : ∀ e ∈ es, IsTurn e)
    (sym : Symbols) : ∃ chosen q, selections sym p es = .ok (chosen, q) ∧ Underway l q := by
  induction es generalizing p with
  | nil => exact ⟨[], p, rfl, h⟩
  | cons e es ih =>
    have he := hes e List.mem_cons_self
    obtain ⟨p', hok⟩ := h.exists_exec he sym
    obtain ⟨rest, q, hrest, hq⟩ := ih (h.exec hidle he hok) fun e' he' => hes e' (List.mem_cons_of_mem _ he')
    exact ⟨_, q, bind_eq_ok.mpr ⟨p', hok, bind_eq_ok.mpr ⟨(rest, q), hrest, rfl⟩⟩, hq⟩

/-- Two tasks are chosen alternately. -/
theorem alternates (h : Underway l p) (hidle : .idle ∉ l) (ha : a ∈ l) (hb : b ∈ l) (hne : a ≠ b)
    (hes : ∀ e ∈ es, IsTurn e) (hrun : selections sym p es = .ok (chosen, q)) {x y : TaskId}
    (hxy : x = a ∧ y = b ∨ x = b ∧ y = a) (hfirst : p.sched.firstOf a b = some x) :
    Alternates x y (occurrences a b chosen) := by
  induction es generalizing p chosen x y with
  | nil =>
    cases hrun
    trivial
  | cons e es ih =>
    obtain ⟨p', rest, hok, hrest, rfl⟩ := selections_cons hrun
    have he := hes e List.mem_cons_self
    have hafter := h.exec hidle he hok
    have hlater := fun e' he' => hes e' (List.mem_cons_of_mem _ he')
    obtain ⟨hkept, hchosen⟩ := h.firstOf_exec ha hb hne he hok
    cases hcall : p.scheduleCall e with
    | none => exact ih hafter hlater hrest hxy ((hkept (.inl hcall)).trans hfirst)
    | some call =>
      have hsome : p.scheduleCall e ≠ none := by
        rw [hcall]
        exact Option.some_ne_none call
      by_cases hone : p'.sched.current = a ∨ p'.sched.current = b
      · have heq : p'.sched.current = x := Option.some.inj ((hchosen hsome hone).symm.trans hfirst)
        have hother : p'.sched.firstOf a b = some y := by
          rcases hxy with ⟨rfl, rfl⟩ | ⟨rfl, rfl⟩
          · exact (firstOf_of_current (hafter.turns _ ha) (hafter.turns _ hb) hne heq).1
          · exact (firstOf_of_current (hafter.turns _ hb) (hafter.turns _ ha) hne.symm heq).2
        refine .cons_of_mem heq (ih hafter hlater hrest (hxy.symm.imp And.symm And.symm) hother) ?_
        exact hxy.imp And.left And.left
      · have hnot := not_or.mp hone
        show Alternates x y (occurrences a b (p'.sched.current :: rest))
        rw [occurrences_cons_of_not_mem hone]
        exact ih hafter hlater hrest hxy ((hkept (.inr hnot)).trans hfirst)

theorem idle_not_selected (h : Underway l p) (hidle : .idle ∉ l) (hn : 2 ≤ l.length) (hnodup : l.Nodup)
    (hes : ∀ e ∈ es, IsTurn e) (hrun : selections sym p es = .ok (chosen, q)) : .idle ∉ chosen := by
  induction es generalizing p chosen with
  | nil =>
    cases hrun
    exact List.not_mem_nil
  | cons e es ih =>
    obtain ⟨p', rest, hok, hrest, rfl⟩ := selections_cons hrun
    have he := hes e List.mem_cons_self
    have hlater := ih (h.exec hidle he hok) (fun e' he' => hes e' (List.mem_cons_of_mem _ he')) hrest
    split
    · rename_i hsome
      have hselects := h.selects hn hnodup he (Option.isSome_iff_ne_none.mp hsome) hok
      rw [List.mem_cons, not_or]
      exact ⟨hselects.1.symm, hlater⟩
    · exact hlater

/-- A task that stays current sees at most as many ticks as are left of its quantum. -/
theorem ticks_le (h : Underway l p) (hidle : .idle ∉ l) (hn : 2 ≤ l.length) (hnodup : l.Nodup)
    (hes : ∀ e ∈ es, IsTurn e) (ha : a ∈ l ∨ a = .idle) (hstays : Stays sym a p es) :
    es.countP isTick ≤ max 1 p.sched.ticksRemaining := by
  induction es generalizing p with
  | nil => exact Nat.zero_le _
  | cons e es ih =>
    have he := hes e List.mem_cons_self
    obtain ⟨hcurrent, hstays⟩ := hstays
    obtain ⟨p', hok⟩ := h.exists_exec he sym
    have hrest := hstays p' hok
    have hafter := h.exec hidle he hok
    cases hcall : p.scheduleCall e with
    | some call =>
      -- another task is current now, so this was the last event
      have hsome : p.scheduleCall e ≠ none := by
        rw [hcall]
        exact Option.some_ne_none call
      have hselects := (h.selects hn hnodup he hsome hok).2 (by rw [hcurrent]; exact ha)
      cases es with
      | nil =>
        refine Nat.le_trans (Nat.le_trans List.countP_le_length ?_) (Nat.le_max_left _ _)
        rfl
      | cons e' es => exact absurd (hrest.1.trans hcurrent.symm) hselects
    | none =>
      have hlater := ih hafter (fun e' he' => hes e' (List.mem_cons_of_mem _ he')) hrest
      cases e with
      | tick rsp =>
        obtain ⟨s', htick, hret⟩ := bind_eq_ok.mp hok
        cases hret
        rw [scheduleCall, ite_eq_right_iff] at hcall
        obtain ⟨hticks, hlow⟩ := p.sched.timerWork_ticksRemaining
        rcases handlerApicTimer_ok htick with ⟨hshould, -⟩ | ⟨hstay, rfl⟩
        · cases hcall hshould
        · have hgt := hlow hstay
          rw [hticks, if_neg (by omega)] at hlater
          rw [List.countP_cons_of_pos rfl]
          omega
      | yield => cases hcall
      | spawn | block | sleep | exit | exitThread | keyboard | initComplete => cases he

end Underway

/-- Each of the tasks is the current one and running, or it is ready and has one place in the
queue; nobody has asked it to end. -/
structure InPlace (l : List TaskId) (p : Processor) : Prop where
  turns : ∀ a ∈ l, p.sched.Turns a
  requests : ∀ arg ∈ p.sched.systemTasks.entries, .expandTaskId arg ∉ l

theorem Reached.inPlace (hidle : .idle ∉ l) (h : p.Reached sym (KeepsRunning l))
    (hlive : ∀ a ∈ l, ∃ t, p.sched.find a = some t) : p.InPlace l := by
  have hrotating := h.rotating hidle
  refine ⟨fun a ha => (hrotating.placed a ha).resolve_right fun habsent => ?_, hrotating.requests⟩
  obtain ⟨t, ht⟩ := hlive a ha
  rw [habsent.find] at ht
  cases ht

theorem InPlace.underway (h : p.InPlace l) (hreached : p.Reached sym (KeepsRunning []))
    (hinit : p.sched.kernelInitComplete = true) : Underway l p := by
  obtain ⟨hlively, hunqueued, -, -, hquantum⟩ := hreached.rotating List.not_mem_nil
  exact ⟨⟨hlively, hunqueued, fun a ha => .inl (h.turns a ha), h.requests, hquantum⟩, h.turns, hinit⟩

/-- Tasks that have never blocked and have not been asked to end are in place. In an initialised
kernel with at least two tasks in place, over any sequence of timer interrupts and yields: between two
choices of one of them every other is chosen exactly once, the idle task is never chosen, and
none of them stays current for more ticks than a quantum has. -/
theorem tasks_take_turns (sym : Symbols) (hn : 2 ≤ l.length) (hnodup : l.Nodup) (hidle : .idle ∉ l) :
    (∀ p : Processor, p.Reached sym (KeepsRunning l) → (∀ a ∈ l, ∃ t, p.sched.find a = some t) →
      p.InPlace l) ∧
    ∀ p : Processor, p.Reached sym (KeepsRunning []) → p.sched.kernelInitComplete = true →
      p.InPlace l → ∀ es, (∀ e ∈ es, IsTurn e) → ∃ chosen q, selections sym p es = .ok (chosen, q) ∧
        (∀ a ∈ l, ∀ b ∈ l, a ≠ b → ∀ u m v, chosen = u ++ a :: (m ++ a :: v) → a ∉ m →
          m.count b = 1) ∧
        .idle ∉ chosen ∧
        ∀ u m v before p', es = u ++ m ++ v → selections sym p u = .ok (before, p') →
          ∀ a, a ∈ l ∨ a = .idle → Stays sym a p' m → m.countP isTick ≤ taskQuantumTicks := by
  refine ⟨fun p h hlive => h.inPlace hidle hlive, fun p hreached hinit hplace es hes => ?_⟩
  have hunder := hplace.underway hreached hinit
  obtain ⟨chosen, q, hrun, -⟩ := hunder.exists_selections hidle hes sym
  refine ⟨chosen, q, hrun, ?_, hunder.idle_not_selected hidle hn hnodup hes hrun, ?_⟩
  · rintro a ha b hb hne u m v rfl hm
    obtain ⟨x, hfirst, hx⟩ := exists_firstOf (hplace.turns a ha) (hplace.turns b hb) hne
    rcases hx with rfl | rfl
    · have halt := hunder.alternates hidle ha hb hne hes hrun (.inl ⟨rfl, rfl⟩) hfirst
      exact halt.count_between hne (.inl ⟨rfl, rfl⟩) hm
    · have halt := hunder.alternates hidle ha hb hne hes hrun (.inr ⟨rfl, rfl⟩) hfirst
      exact halt.count_between hne (.inr ⟨rfl, rfl⟩) hm
  · rintro u m v before p' rfl hbefore a ha hstays
    have hu : ∀ e ∈ u, IsTurn e :=
      fun e he => hes e (List.mem_append_left _ (List.mem_append_left _ he))
    have hm : ∀ e ∈ m, IsTurn e :=
      fun e he => hes e (List.mem_append_left _ (List.mem_append_right _ he))
    obtain ⟨before', p'', hrun', hunder'⟩ := hunder.exists_selections hidle hu sym
    cases hbefore.symm.trans hrun'
    have hticks := hunder'.ticks_le hidle hn hnodup hm ha hstays
    have hcpu := hunder'.rotating.quantum.cpu
    exact Nat.le_trans hticks (Nat.max_le.mpr ⟨by decide, hcpu⟩)

/-- Two tasks over two yields and a quantum. -/
theorem tasks_take_turns_pair : ∃ (p q : Processor) (chosen : List TaskId),
    p.Reached sampleSymbols (KeepsRunning [⟨1, 0⟩, ⟨2, 0⟩]) ∧
      selections sampleSymbols p [.yield 0x7000, .yield 0x8000, .tick 0x9000, .tick 0x9000, .tick 0x9000,
        .tick 0x9000] = .ok (chosen, q) ∧
      chosen = [⟨1, 0⟩, ⟨2, 0⟩, ⟨1, 0⟩] ∧ .idle ∉ chosen := by
  obtain ⟨p, hp, hinit, hfirst, hsecond, hchosen⟩ := exists_reached sampleSymbols
    (KeepsRunning [⟨1, 0⟩, ⟨2, 0⟩]) 0 0 0
    [.spawn "A" 1 (sampleTask 1), .spawn "B" 1 (sampleTask 2), .initComplete]
    (fun p => p.sched.kernelInitComplete = true ∧ (p.sched.find ⟨1, 0⟩).isSome ∧
      (p.sched.find ⟨2, 0⟩).isSome ∧ (selections sampleSymbols p [.yield 0x7000, .yield 0x8000,
        .tick 0x9000, .tick 0x9000, .tick 0x9000, .tick 0x9000]).toOption.map Prod.fst =
          some [⟨1, 0⟩, ⟨2, 0⟩, ⟨1, 0⟩])
    (by decide +kernel)
  have hlive : ∀ a ∈ ([⟨1, 0⟩, ⟨2, 0⟩] : List TaskId), ∃ t, p.sched.find a = some t := by
    intro a ha
    rcases List.mem_pair.mp ha with rfl | rfl
    · exact Option.isSome_iff_exists.mp hfirst
    · exact Option.isSome_iff_exists.mp hsecond
  have hes : ∀ e ∈ ([.yield 0x7000, .yield 0x8000, .tick 0x9000, .tick 0x9000, .tick 0x9000,
      .tick 0x9000] : List Event), IsTurn e := by simp [IsTurn]
  obtain ⟨hplace, hturns⟩ := tasks_take_turns sampleSymbols (l := [⟨1, 0⟩, ⟨2, 0⟩]) (by decide) (by decide)
    (by decide)
  have hany : p.Reached sampleSymbols (KeepsRunning []) := hp.mono fun p e => KeepsRunning.nil
  obtain ⟨chosen, q, hrun, -, hidle, -⟩ := hturns p hany hinit (hplace p hp hlive) _ hes
  rw [hrun] at hchosen
  exact ⟨p, q, chosen, hp, hrun, Option.some.inj hchosen, hidle⟩

end Processor

end CrapOs
