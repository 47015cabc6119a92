import CrapOs.TaskScheduler.LifecycleRuns

/-! # What a switch resumes

The stack pointer a task is resumed with, and the page tables and kernel stack the
processor uses while a user task is current.
-/

namespace CrapOs

open Foundation

namespace Scheduler

variable {s s' : Scheduler} {a : TaskId} {t : Task} {sym : Symbols}

def SameContext (t t' : Task) : Prop :=
  t'.savedRsp = t.savedRsp ∧ t'.kernelStackTop = t.kernelStackTop ∧ t'.isUserTask = t.isUserTask ∧
    t'.cr3 = t.cr3

theorem SameContext.refl (t : Task) : SameContext t t := ⟨rfl, rfl, rfl, rfl⟩

theorem SameContext.trans (t t' t'' : Task) (h : SameContext t t') (h' : SameContext t' t'') :
    SameContext t t'' :=
  ⟨h'.1.trans h.1, h'.2.1.trans h.2.1, h'.2.2.1.trans h.2.2.1, h'.2.2.2.trans h.2.2.2⟩

theorem allowsSwitch_sameContext : AllowsSwitch SameContext where
  refl := .refl
  trans := .trans
  select t _ := .refl t
  requeue t _ := .refl t

def KeepsContexts (s s' : Scheduler) : Prop := Follows SameContext (fun _ => True) s s'

namespace KeepsContexts

theorem of_find (h : ∀ b, s'.find b = s.find b) : KeepsContexts s s' :=
  Follows.of_find SameContext.refl h

theorem of_map {f : Task → Task} (h : ∀ b, s'.find b = if b = a then (s.find b).map f else s.find b)
    (hf : ∀ t, SameContext t (f t)) : KeepsContexts s s' :=
  Follows.of_map SameContext.refl h fun t _ => hf t

theorem trans {s'' : Scheduler} (h : KeepsContexts s s') (h' : KeepsContexts s' s'') :
    KeepsContexts s s'' :=
  Follows.trans SameContext.trans h h'

theorem markBlocked (s : Scheduler) : KeepsContexts s s.markBlocked :=
  .of_map s.find_markBlocked .refl

theorem killCurrentTask (s : Scheduler) : KeepsContexts s s.killCurrentTask :=
  .of_map s.find_killCurrentTask .refl

theorem timerWork (s : Scheduler) : KeepsContexts s s.timerWork.2 :=
  AllowsTimer.timerWork ⟨.refl, .trans, fun t _ => .refl t, fun t => .refl t, fun t => .refl t,
    fun t _ => .refl t⟩ s

theorem schedule {args : Option SwitchArgs} (h : s.schedule sym = .ok (args, s')) :
    KeepsContexts s s' :=
  allowsSwitch_sameContext.schedule h

end KeepsContexts

end Scheduler

open Scheduler

namespace Processor

variable {p p' : Processor} {e : Event} {sym : Symbols}

structure SameCurrent (s s' : Scheduler) : Prop where
  contexts : KeepsContexts s s'
  current : s'.current = s.current
  cr3 : s'.cr3 = s.cr3
  kernelStack : s'.kernelStack = s.kernelStack

/-- An event makes a new task, or leaves the current task where it is, or calls `schedule`. -/
inductive Moved (sym : Symbols) (p : Processor) : Event → Processor → Prop
  | spawned {name : String} {process : ProcessId} {task : Task} {p' : Processor} :
      Spawned p task p' → Moved sym p (.spawn name process task) p'
  | stayed {e : Event} {p' : Processor} : p.scheduleCall e = none → SameCurrent p.sched p'.sched →
      Moved sym p e p'
  | scheduled {e : Event} {p' : Processor} {s s' : Scheduler} {rsp : Nat} {args : Option SwitchArgs} :
      p.scheduleCall e = some (s, rsp) → SameCurrent p.sched s → s.schedule sym = .ok (args, s') →
      (args = none ∧ p'.sched = s' ∨
        ∃ x, args = some x ∧ p'.sched = s'.switched p.sched.current rsp x) → Moved sym p e p'

theorem SameCurrent.refl (s : Scheduler) : SameCurrent s s := ⟨.of_find fun _ => rfl, rfl, rfl, rfl⟩

theorem sameCurrent_killCurrentTask (s : Scheduler) : SameCurrent s s.killCurrentTask := by
  obtain ⟨global, threads, queue, heq⟩ := s.killCurrentTask_frame
  exact ⟨.killCurrentTask s, by rw [heq], by rw [heq], by rw [heq]⟩

theorem sameCurrent_markBlocked (s : Scheduler) : SameCurrent s s.markBlocked := by
  obtain ⟨global, threads, heq⟩ := s.markBlocked_frame
  exact ⟨.markBlocked s, by rw [heq], by rw [heq], by rw [heq]⟩

theorem sameCurrent_exitThread (s : Scheduler) (thread : ThreadId) :
    SameCurrent s (s.exitThread thread) := by
  rw [Scheduler.exitThread]
  split
  · exact .refl s
  cases (s.threads thread).taskId with
  | none => exact .refl s
  | some taskId =>
    simp only [queueSystemTask]
    cases s.systemTasks.push taskId.compressTaskId with
    | error => exact .refl s
    | ok queue => exact ⟨.of_find fun _ => rfl, rfl, rfl, rfl⟩

theorem sameCurrent_timerWork (s : Scheduler) : SameCurrent s s.timerWork.2 := by
  obtain ⟨_, _, _, _, _, _, _, _, heq⟩ := s.timerWork_frame
  exact ⟨.timerWork s, by rw [heq], by rw [heq], by rw [heq]⟩

theorem exec_moved (hok : p.exec sym e = .ok p') : Moved sym p e p' := by
  cases exec_done hok with
  | spawned hspawned => exact .spawned hspawned
  | @blocked _ q he =>
    obtain ⟨hkeeps, hcurrent, hcr3, hstack⟩ := sameCurrent_markBlocked { p.sched with sleepQueue := q }
    have hfirst : KeepsContexts p.sched { p.sched with sleepQueue := q } := .of_find fun _ => rfl
    refine .stayed ?_ ⟨hfirst.trans hkeeps, hcurrent, hcr3, hstack⟩
    rcases he with ⟨rfl, -⟩ | ⟨seconds, rfl, -⟩ <;> rfl
  | asked thread => exact .stayed rfl (sameCurrent_exitThread p.sched thread)
  | woken taskId =>
    obtain ⟨global, threads, queue, heq⟩ := p.sched.wake_frame taskId
    have hkeeps : KeepsContexts p.sched (p.sched.wake taskId).2 :=
      Follows.wake SameContext.refl fun t _ => .refl t
    exact .stayed rfl ⟨hkeeps, by rw [heq], by rw [heq], by rw [heq]⟩
  | initialised => exact .stayed rfl ⟨.of_find fun _ => rfl, rfl, rfl, rfl⟩
  | ticked hstay =>
    refine .stayed ?_ (sameCurrent_timerWork p.sched)
    rw [scheduleCall, if_neg (by rw [hstay]; decide)]
  | @scheduled _ s _ _ _ hcall hresched =>
    have hsame : SameCurrent p.sched s := by
      cases scheduleCall_called hcall with
      | yield => exact .refl p.sched
      | exit => exact sameCurrent_killCurrentTask p.sched
      | tick => exact sameCurrent_timerWork p.sched
    obtain ⟨args, s1, hsched, hcase⟩ := reschedule_ok hresched
    rw [hsame.current] at hcase
    exact .scheduled hcall hsame hsched hcase

/-! ## The stack pointer a task is resumed with -/

def suspension (sym : Symbols) (p : Processor) (e : Event) : Option Nat :=
  match p.scheduleCall e with
  | none => none
  | some (s, rsp) =>
    match s.schedule sym with
    | .ok (some _, _) => some rsp
    | _ => none

/-- A processor with a record of the stack pointer each task was last suspended with, or of
its initial frame if it never ran. -/
structure Traced where
  processor : Processor
  suspendedAt : TaskId → Nat

namespace Traced

def after (sym : Symbols) (w : Traced) (e : Event) (p' : Processor) : Traced where
  processor := p'
  suspendedAt := fun a =>
    match w.processor.sched.find a, p'.sched.find a with
    | none, some task => task.savedRsp
    | _, _ =>
      if a = w.processor.sched.current then (w.processor.suspension sym e).getD (w.suspendedAt a)
      else w.suspendedAt a

def Reached (sym : Symbols) (w : Traced) : Prop :=
  Reach (fun w => ∃ idleStack kernelStack cr3, w = ⟨boot idleStack kernelStack cr3, fun _ => 0⟩)
    (fun w w' => ∃ e p', w.processor.Enabled e ∧ w.processor.exec sym e = .ok p' ∧
      w' = w.after sym e p') w

variable {w : Traced}

theorem exists_reached (h : Processor.Reached sym (fun _ _ => True) p) : ∃ w : Traced,
    w.processor = p ∧ w.Reached sym := by
  refine Reach.invariant (fun p => ∃ w : Traced, w.processor = p ∧ w.Reached sym) ?_ ?_ h
  · rintro _ ⟨idleStack, kernelStack, cr3, rfl⟩
    exact ⟨_, rfl, .start ⟨idleStack, kernelStack, cr3, rfl⟩⟩
  · rintro _ p' ⟨w, rfl, hw⟩ ⟨e, hen, -, hok⟩
    exact ⟨w.after sym e p', rfl, .step hw ⟨e, p', hen, hok, rfl⟩⟩

def Recorded (w : Traced) : Prop :=
  ∀ a t, w.processor.sched.find a = some t → t.savedRsp = w.suspendedAt a

theorem Recorded.keeps (h : w.Recorded) {s : Scheduler}
    (hkeeps : KeepsContexts w.processor.sched s) {a : TaskId} {t : Task} (ht : s.find a = some t) :
    t.savedRsp = w.suspendedAt a := by
  obtain ⟨u, hu, hsame, -⟩ := hkeeps.find_before ht
  exact hsame.trans (h a u hu)

theorem after_of_found {a : TaskId} {t : Task} (ht : w.processor.sched.find a = some t) :
    (w.after sym e p').suspendedAt a =
      if a = w.processor.sched.current then (w.processor.suspension sym e).getD (w.suspendedAt a)
      else w.suspendedAt a := by
  simp only [after, ht]

theorem Recorded.step (h : w.Recorded) (hok : w.processor.exec sym e = .ok p') :
    (w.after sym e p').Recorded := by
  intro a t ht
  cases hold : w.processor.sched.find a with
  | none => simp only [after, hold, show p'.sched.find a = some t from ht]
  | some u =>
    rw [after_of_found hold]
    cases exec_moved hok with
    | spawned hspawn =>
      have hkept : p'.sched.find a = some u := by
        cases hspawn with
        | refused => exact hold
        | placed hnew hfind =>
          refine (hfind a).trans ?_
          rw [if_neg]
          · exact hold
          · rintro rfl
            rw [hnew] at hold
            cases hold
      rw [show p'.sched.find a = some t from ht] at hkept
      cases hkept
      simp only [suspension, scheduleCall, Option.getD_none, ite_self]
      exact h a t hold
    | stayed hcall hsame =>
      simp only [suspension, hcall, Option.getD_none, ite_self]
      exact h.keeps hsame.contexts ht
    | @scheduled _ _ s s' rsp args hcall hsame hsched hcase =>
      have hkeeps := hsame.contexts.trans (.schedule hsched)
      rcases hcase with ⟨rfl, heq⟩ | ⟨x, rfl, heq⟩
      · simp only [suspension, hcall, hsched, Option.getD_none, ite_self]
        exact h.keeps hkeeps (heq ▸ ht)
      · simp only [suspension, hcall, hsched, Option.getD_some]
        have hfind : (s'.switched w.processor.sched.current rsp x).find a = some t := heq ▸ ht
        rw [switched] at hfind
        rw [show Scheduler.find _ a = _ from s'.find_modifyTask w.processor.sched.current a _]
          at hfind
        by_cases ha : a = w.processor.sched.current
        · rw [if_pos ha] at hfind ⊢
          obtain ⟨v, -, rfl⟩ := Option.map_eq_some_iff.mp hfind
          rfl
        · rw [if_neg ha] at hfind ⊢
          exact h.keeps hkeeps hfind

theorem Reached.recorded (h : w.Reached sym) : w.Recorded := by
  refine h.invariant Recorded ?_ ?_
  · rintro _ ⟨idleStack, kernelStack, cr3, rfl⟩ a t ht
    obtain ⟨-, rfl⟩ := boot_find ht
    rfl
  · rintro w _ hw ⟨e, p', -, hok, rfl⟩
    exact hw.step hok

end Traced

/-- The task that calls `schedule` is itself the first ready task in the ready queue, or it is
the idle task and no task in the queue is ready. -/
def CurrentIsNext (s : Scheduler) : Prop :=
  s.firstReady = some s.current ∨ s.firstReady = none ∧ s.current = .idle

instance (s : Scheduler) : Decidable (CurrentIsNext s) :=
  inferInstanceAs (Decidable (_ ∨ _))

/-- Whenever `schedule` reaches `switch_to`, the stack pointer it passes is the one of the
incoming task's last suspension, this one included, unless the task that is executing is
selected again: then it is an older one. -/
theorem switch_resumes_last_suspension_iff {w : Traced} (h : w.Reached sym)
    {s s' : Scheduler} {rsp : Nat} {args : SwitchArgs}
    (hcall : w.processor.scheduleCall e = some (s, rsp)) (hexec : ∃ p', w.processor.exec sym e = .ok p')
    (hsched : s.schedule sym = .ok (some args, s')) :
    args.newRsp = Function.update w.suspendedAt s.current rsp s'.current ↔
      ¬ CurrentIsNext s ∨ w.suspendedAt s.current = rsp := by
  have hrecorded := h.recorded
  obtain ⟨p', hok⟩ := hexec
  have hsame : SameCurrent w.processor.sched s := by
    cases exec_moved hok with
    | spawned => cases hcall
    | stayed hnone =>
      rw [hnone] at hcall
      cases hcall
    | scheduled hcall' hsame =>
      rw [hcall'] at hcall
      cases hcall
      exact hsame
  obtain ⟨nextId, s1, s2, next, hchosen, hrequeued, hnext, rfl, hargs⟩ := schedule_ok hsched
  have hfirst := hchosen.eq_firstReady
  have hkeeps2 : KeepsContexts s s2 := (allowsSwitch_sameContext.chosen hchosen).trans
    SameContext.trans (allowsSwitch_sameContext.requeued hrequeued)
  have hrsp : args.newRsp = w.suspendedAt nextId := by
    rw [switchArgs] at hargs
    split at hargs
    · cases hargs
    · cases hargs
      exact hrecorded.keeps (hsame.contexts.trans hkeeps2) hnext
  have hself : CurrentIsNext s ↔ nextId = s.current := by
    rw [CurrentIsNext, hfirst]
    cases s.firstReady with
    | none => simp [eq_comm]
    | some a => simp
  rw [hrsp, hself]
  show w.suspendedAt nextId = Function.update w.suspendedAt s.current rsp nextId ↔ _
  by_cases hcurrent : nextId = s.current
  · rw [hcurrent, Function.update_self]
    simp
  · rw [Function.update_of_ne hcurrent]
    simp [hcurrent]

def switchSummary (sym : Symbols) (p : Processor) (e : Event) : Option (Nat × TaskId × TaskId) := do
  let (s, _) ← p.scheduleCall e
  let (args, s') ← (s.schedule sym).toOption
  let x ← args
  pure (x.newRsp, s.current, s'.current)

theorem switchSummary_eq_some {x : Nat × TaskId × TaskId} (h : p.switchSummary sym e = some x) :
    ∃ s s' rsp args, p.scheduleCall e = some (s, rsp) ∧ s.schedule sym = .ok (some args, s') ∧
      args.newRsp = x.1 ∧ s.current = x.2.1 ∧ s'.current = x.2.2 := by
  obtain ⟨⟨s, rsp⟩, hcall, h⟩ := Option.bind_eq_some_iff.mp h
  obtain ⟨⟨args, s'⟩, hsched, h⟩ := Option.bind_eq_some_iff.mp h
  obtain ⟨args, rfl, h⟩ := Option.bind_eq_some_iff.mp h
  cases h
  exact ⟨s, s', rsp, args, hcall, ok_of_toOption hsched, rfl, rfl, rfl⟩

/-- The first switch to a new task loads its initial frame. -/
theorem switch_resumes_last_suspension_first : ∃ (w : Traced) (s s' : Scheduler) (args : SwitchArgs),
    w.Reached sampleSymbols ∧ s.schedule sampleSymbols = .ok (some args, s') ∧
      s'.current = ⟨1, 0⟩ ∧ args.newRsp = Function.update w.suspendedAt s.current 0x7000 s'.current := by
  obtain ⟨p, hp, hsummary, hexec, hother⟩ := exists_reached sampleSymbols (fun _ _ => True) 0 0 0
    [.spawn "A" 1 (sampleTask 1), .initComplete]
    (fun p => p.switchSummary sampleSymbols (.yield 0x7000) = some (0x5000, .idle, ⟨1, 0⟩) ∧
      (p.exec sampleSymbols (.yield 0x7000)).toOption.isSome ∧ ¬ CurrentIsNext p.sched)
    (by decide +kernel)
  obtain ⟨w, rfl, hw⟩ := Traced.exists_reached hp
  obtain ⟨s, s', rsp, args, hcall, hsched, -, -, hnext⟩ := switchSummary_eq_some hsummary
  obtain ⟨p', hp'⟩ := Option.isSome_iff_exists.mp hexec
  cases hcall
  exact ⟨w, _, s', args, hw, hsched, hnext,
    (switch_resumes_last_suspension_iff hw rfl ⟨p', ok_of_toOption hp'⟩ hsched).mpr (.inl hother)⟩

/-- A key is pressed after a task has been marked as blocked and before it calls `schedule`:
it is woken, selected again at once, and `switch_to` is passed the stack pointer of the time
it was suspended before. -/
theorem woken_task_resumed_where_it_was_before : ∃ (w : Traced) (s s' : Scheduler) (args : SwitchArgs),
    w.Reached sampleSymbols ∧ w.processor.Enabled (.yield 0x4d00) ∧
      w.processor.scheduleCall (.yield 0x4d00) = some (s, 0x4d00) ∧
      s.schedule sampleSymbols = .ok (some args, s') ∧ s.current = ⟨1, 0⟩ ∧ s'.current = s.current ∧
      args.newRsp = 0x4e00 ∧ args.newRsp ≠ Function.update w.suspendedAt s.current 0x4d00 s'.current := by
  obtain ⟨p, hp, hsummary⟩ := exists_reached sampleSymbols (fun _ _ => True) 0 0 0
    [.spawn "A" 1 (sampleTask 1), .initComplete, .yield 0x7000, .yield 0x4e00, .yield 0x7000,
      .block, .keyboard ⟨1, 0⟩]
    (fun p => p.switchSummary sampleSymbols (.yield 0x4d00) = some (0x4e00, ⟨1, 0⟩, ⟨1, 0⟩))
    (by decide +kernel)
  obtain ⟨w, rfl, hw⟩ := Traced.exists_reached hp
  obtain ⟨s, s', rsp, args, hcall, hsched, hrsp, hcurrent, hnext⟩ := switchSummary_eq_some hsummary
  cases hcall
  have hself := hnext.trans hcurrent.symm
  refine ⟨w, _, s', args, hw, ?_, rfl, hsched, hcurrent, hself, hrsp, ?_⟩
  · show 0x4d00 ≠ 0
    decide
  · rw [hself, Function.update_self, hrsp]
    decide

/-! ## Page tables and kernel stack of the current task -/

/-- A user task has page tables and a frame to resume from, and while it is current the
processor uses its tables and its kernel stack. -/
structure UserReady (s : Scheduler) : Prop where
  tables : ∀ a t, s.find a = some t → t.isUserTask = true → t.cr3 ≠ 0 ∧ t.savedRsp ≠ 0
  current : ∀ t, s.find s.current = some t → t.isUserTask = true →
    s.cr3 = t.cr3 ∧ s.kernelStack = t.kernelStackTop

theorem UserReady.sameCurrent {s s' : Scheduler} (h : UserReady s) (hsame : SameCurrent s s') :
    UserReady s' where
  tables a t ht huser := by
    obtain ⟨u, hu, hrsp, -, hkind, hcr3⟩ := hsame.contexts.find_before ht
    rw [hrsp, hcr3]
    exact h.tables a u hu (hkind ▸ huser)
  current t ht huser := by
    obtain ⟨u, hu, -, hstack, hkind, hcr3⟩ := hsame.contexts.find_before ht
    rw [hsame.current] at hu
    rw [hsame.cr3, hsame.kernelStack, hcr3, hstack]
    exact h.current u hu (hkind ▸ huser)

theorem UserReady.schedule {s s' : Scheduler} {args : Option SwitchArgs} {rsp : Nat} (h : UserReady s)
    (hfound : ∃ t, s.find s.current = some t) (hrsp : rsp ≠ 0)
    (hsched : s.schedule sym = .ok (args, s')) :
    (args = none → UserReady s') ∧ ∀ x, args = some x → UserReady (s'.switched s.current rsp x) := by
  have hkeeps := KeepsContexts.schedule hsched
  have htables : ∀ a t, s'.find a = some t → t.isUserTask = true → t.cr3 ≠ 0 ∧ t.savedRsp ≠ 0 := by
    intro a t ht huser
    obtain ⟨u, hu, hsaved, -, hkind, hcr3⟩ := hkeeps.find_before ht
    rw [hsaved, hcr3]
    exact h.tables a u hu (hkind ▸ huser)
  obtain ⟨nextId, s1, s2, next, hchosen, hrequeued, hnext, rfl, rfl⟩ := schedule_ok hsched
  have hout : s2.find s.current ≠ none := by
    obtain ⟨t, ht⟩ := hfound
    have hR := allowsSwitch_shuffled
    have hfollow : Follows Shuffled (fun _ => False) s s2 :=
      (hR.chosen hchosen).trans hR.trans (hR.requeued hrequeued)
    obtain ⟨u, hu, -⟩ := hfollow.find_after ht not_false
    rw [hu]
    exact Option.some_ne_none u
  refine ⟨fun hnone => ⟨htables, ?_⟩, fun x hx => ⟨?_, ?_⟩⟩
  · -- nothing is switched only if the incoming task has no frame, which a user task has
    intro t ht huser
    cases hnext.symm.trans ht
    rw [switchArgs, if_neg] at hnone
    · cases hnone
    · rw [not_or]
      exact ⟨hout, (htables nextId next hnext huser).2⟩
  · intro a t ht huser
    rw [switched, show Scheduler.find _ a = _ from find_modifyTask _ s.current a _] at ht
    split at ht
    · obtain ⟨u, hu, rfl⟩ := Option.map_eq_some_iff.mp ht
      exact ⟨(htables a u hu huser).1, hrsp⟩
    · exact htables a t ht huser
  · intro t ht huser
    have hcontext : t.isUserTask = next.isUserTask ∧ t.cr3 = next.cr3 ∧
        t.kernelStackTop = next.kernelStackTop := by
      have hfind : (s2.modifyTask s.current ({ · with savedRsp := rsp })).find nextId = some t := ht
      rw [find_modifyTask, hnext] at hfind
      split at hfind
      · cases hfind
        exact ⟨rfl, rfl, rfl⟩
      · cases hfind
        exact ⟨rfl, rfl, rfl⟩
    obtain ⟨hkind, hcr3, hstack⟩ := hcontext
    rw [hkind] at huser
    have hargs : x.newCr3 = next.cr3 := by
      rw [switchArgs] at hx
      split at hx
      · cases hx
      · cases hx
        rfl
    refine ⟨?_, ?_⟩
    · show (if x.newCr3 = 0 then s2.cr3 else x.newCr3) = t.cr3
      rw [hargs, if_neg (htables nextId next hnext huser).1, hcr3]
    · show (if next.isUserTask then next.kernelStackTop else s2.kernelStack) = t.kernelStackTop
      rw [if_pos huser, hstack]

theorem Lively.scheduleCall_found (h : Lively p) {s : Scheduler} {rsp : Nat}
    (hcall : p.scheduleCall e = some (s, rsp)) : ∃ t, s.find s.current = some t := by
  cases scheduleCall_called hcall with
  | yield => exact h.orderly.current
  | exit =>
    obtain ⟨t, ht, -⟩ := h.runs
    obtain ⟨queue, heq, -⟩ :=
      (p.sched.setStates p.sched.current t.thread .dying .dying).queueTaskReaper_eq p.sched.current
    rw [killCurrentTask_eq ht, heq]
    show ∃ u, (p.sched.setStates p.sched.current t.thread .dying .dying).find p.sched.current = some u
    rw [find_setStates, if_pos rfl, ht]
    exact ⟨_, rfl⟩
  | tick => exact (ticked_timerWork h.orderly h.requests h.runs).1.current

theorem UserReady.step (h : UserReady p.sched) (hlive : Lively p) (hen : p.Enabled e)
    (hok : p.exec sym e = .ok p') : UserReady p'.sched := by
  cases exec_moved hok with
  | spawned hspawn =>
    obtain ⟨-, -, hnew⟩ := hen
    have hcurrent := hlive.orderly.current
    cases hspawn with
    | refused => exact ⟨h.tables, h.current⟩
    | placed hfresh hfind =>
      refine ⟨fun a t ht huser => ?_, fun t ht huser => ?_⟩
      · rw [show Scheduler.find _ a = _ from hfind a] at ht
        split at ht
        · cases ht
          refine ⟨fun hzero => ?_, hnew.savedRsp_ne_zero⟩
          rw [show Task.isUserTask _ = false from hnew.cr3_eq_zero.mp hzero] at huser
          cases huser
        · exact h.tables a t ht huser
      · rw [show Scheduler.find _ _ = _ from hfind p.sched.current, if_neg] at ht
        · exact h.current t ht huser
        · intro heq
          rw [heq, hfresh] at hcurrent
          obtain ⟨u, hu⟩ := hcurrent
          cases hu
  | stayed _ hsame => exact h.sameCurrent hsame
  | @scheduled _ _ s s' rsp args hcall hsame hsched hcase =>
    have hrsp : rsp ≠ 0 := by
      cases scheduleCall_called hcall with
      | yield | tick => exact hen
      | exit => exact hen.2.2
    obtain ⟨hstay, hswitch⟩ :=
      (h.sameCurrent hsame).schedule (hlive.scheduleCall_found hcall) hrsp hsched
    rcases hcase with ⟨hnone, heq⟩ | ⟨x, hx, heq⟩
    · rw [heq]
      exact hstay hnone
    · rw [heq, ← hsame.current]
      exact hswitch x hx

/-- While the idle thread is spared, CR3 and the kernel stack of the processor are those of the
current task whenever that is a user task. -/
theorem user_task_has_own_tables (h : Reached sym SparesIdle p) {t : Task}
    (ht : p.sched.find p.sched.current = some t) (huser : t.isUserTask = true) :
    p.sched.cr3 = t.cr3 ∧ p.sched.kernelStack = t.kernelStackTop := by
  have hinv : Lively p ∧ UserReady p.sched := by
    refine h.invariant (fun p => Lively p ∧ UserReady p.sched) ?_ ?_
    · rintro _ ⟨idleStack, kernelStack, cr3, rfl⟩
      refine ⟨lively_boot idleStack kernelStack cr3, fun a t ht huser => ?_, fun t ht huser => ?_⟩
      · obtain ⟨-, rfl⟩ := boot_find ht
        cases huser
      · obtain ⟨-, rfl⟩ := boot_find ht
        cases huser
    · rintro p p' ⟨hlive, hready⟩ ⟨e, hen, hcond, hok⟩
      exact ⟨(hlive.step hen hcond hok).1, hready.step hlive hen hok⟩
  exact hinv.2.current t ht huser

def sampleUserTask (thread : ThreadId) : Task :=
  { sampleTask thread with isUserTask := true, cr3 := 0x9000 }

/-- A user task that was switched to. -/
theorem user_task_has_own_tables_switched : ∃ (p : Processor) (t : Task),
    Reached sampleSymbols SparesIdle p ∧ p.sched.find p.sched.current = some t ∧
      t.isUserTask = true ∧ p.sched.cr3 = t.cr3 ∧ p.sched.kernelStack = t.kernelStackTop := by
  obtain ⟨p, hp, hcurrent⟩ := exists_reached sampleSymbols SparesIdle 0 0 0x1000
    [.spawn "A" 1 (sampleUserTask 1), .initComplete, .yield 0x7000]
    (fun p => (p.sched.find p.sched.current).map Task.isUserTask = some true) (by decide +kernel)
  obtain ⟨t, ht, huser⟩ := Option.map_eq_some_iff.mp hcurrent
  exact ⟨p, t, hp, ht, huser, user_task_has_own_tables hp ht huser⟩

/-- After `exit_thread` on the idle thread its task is removed while it is current. The next
`schedule` makes a user task current and sets its kernel stack, but gives up before it loads
CR3. -/
theorem user_task_current_with_foreign_tables : ∃ (p : Processor) (t : Task),
    Reached sampleSymbols (fun _ _ => True) p ∧ p.sched.find p.sched.current = some t ∧
      t.isUserTask = true ∧ p.sched.cr3 ≠ t.cr3 := by
  obtain ⟨p, hp, hcurrent⟩ := exists_reached sampleSymbols (fun _ _ => True) 0 0 0x1000
    [.initComplete, .exitThread 0, .tick 0x7000, .tick 0x7000, .spawn "A" 1 (sampleUserTask 1),
      .tick 0x7000, .tick 0x7000, .tick 0x7000]
    (fun p => (p.sched.find p.sched.current).map (fun t => (t.isUserTask, decide (p.sched.cr3 = t.cr3)))
      = some (true, false)) (by decide +kernel)
  obtain ⟨t, ht, hpair⟩ := Option.map_eq_some_iff.mp hcurrent
  exact ⟨p, t, hp, ht, congrArg Prod.fst hpair, of_decide_eq_false (congrArg Prod.snd hpair)⟩

end Processor

end CrapOs
