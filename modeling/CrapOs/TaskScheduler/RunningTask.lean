import CrapOs.TaskScheduler.Sleepers

/-! # Which task is running

`schedule` marks the task it takes from the ready queue as running and the outgoing one as
ready. No task but the current one is ever running. The current one need not be: the
idle task, chosen because the queue holds nothing ready, is not marked, a task that is
chosen again is marked ready after it was marked running, and a task that is woken
before it has left the processor becomes ready there.
-/

namespace CrapOs

open Foundation

namespace Scheduler

variable {s s' : Scheduler} {a b : TaskId} {sym : Symbols} {rsp : Nat}

def OnlyCurrentRuns (s : Scheduler) : Prop := ∀ b, s.InState b .running → b = s.current

theorem Chosen.running_iff (h : Chosen s a s') :
    s'.InState b .running ↔ s.firstReady = some b ∨ s.InState b .running := by
  cases h with
  | @ready pre rest _ queue hsplit hpre hready hrest =>
    have hfirst : s.firstReady = some a := by
      rw [firstReady, hsplit, List.find?_append, List.find?_eq_none.mpr (by simpa using hpre),
        Option.none_or, List.find?_cons_of_pos (by simpa using hready)]
    obtain ⟨t, ht, -⟩ := hready
    refine (inState_modifyTask (s := { s with queue := queue }) (b := b) ⟨t, ht⟩).trans ?_
    rw [hfirst]
    by_cases hb : b = a
    · rw [if_pos hb, hb]
      simp
    · rw [if_neg hb, Option.some_inj]
      exact ⟨.inr, Or.rec (fun h => absurd h.symm hb) id⟩
  | idle hnone _ =>
    have hfirst : s.firstReady = none := List.find?_eq_none.mpr (by simpa using hnone)
    rw [hfirst]
    exact ⟨.inr, Or.rec (fun h => by cases h) id⟩

theorem Requeued.running_iff (h : Requeued s a s') :
    s'.InState b .running ↔ b ≠ a ∧ s.InState b .running := by
  have hready (hrun : s.InState a .running) :
      (s.modifyTask a ({ · with state := .ready })).InState b .running ↔
        b ≠ a ∧ s.InState b .running := by
    obtain ⟨t, ht, -⟩ := hrun
    rw [inState_modifyTask ⟨t, ht⟩]
    by_cases hb : b = a
    · simp [hb]
    · simp [hb]
  cases h with
  | idle hnot =>
    refine ⟨fun hb => ⟨?_, hb⟩, And.right⟩
    rintro rfl
    exact hnot hb
  | queued hrun _ _ => exact hready hrun
  | full hrun _ _ => exact hready hrun
  | unqueued hrun _ _ => exact hready hrun

theorem inState_switched (s : Scheduler) (a b : TaskId) (rsp : Nat) (args : SwitchArgs) (x : TaskState) :
    (s.switched a rsp args).InState b x ↔ s.InState b x := by
  have hfind : (s.switched a rsp args).find b =
      if b = a then (s.find b).map ({ · with savedRsp := rsp }) else s.find b := s.find_modifyTask a b _
  rw [InState, InState, hfind]
  by_cases hb : b = a
  · rw [if_pos hb]
    cases s.find b <;> simp
  · rw [if_neg hb]

theorem OnlyCurrentRuns.reschedule (h : s.OnlyCurrentRuns) (hok : s.reschedule sym rsp = .ok s') :
    s'.current = s.firstReady.getD .idle ∧
      ∀ b, s'.InState b .running ↔ s.firstReady = some b ∧ b ≠ s.current := by
  obtain ⟨args, s1, hsched, hcase⟩ := reschedule_ok hok
  obtain ⟨nextId, s2, s3, next, hchosen, hrequeued, -, rfl, -⟩ := schedule_ok hsched
  have hrunning (b : TaskId) :
      (s3.dispatched nextId next).InState b .running ↔ s.firstReady = some b ∧ b ≠ s.current := by
    change s3.InState b .running ↔ _
    rw [hrequeued.running_iff, hchosen.running_iff, and_comm]
    refine and_congr_left fun hne => ⟨Or.rec id fun hb => absurd (h b hb) hne, .inl⟩
  rcases hcase with ⟨-, rfl⟩ | ⟨x, -, rfl⟩
  · exact ⟨hchosen.eq_firstReady, hrunning⟩
  · exact ⟨hchosen.eq_firstReady, fun b => (inState_switched _ _ _ _ _ _).trans (hrunning b)⟩

theorem onlyCurrentRuns_reschedule (h : s.OnlyCurrentRuns) (hok : s.reschedule sym rsp = .ok s') :
    s'.OnlyCurrentRuns := by
  obtain ⟨hcurrent, hrunning⟩ := h.reschedule hok
  intro b hb
  rw [hcurrent, ((hrunning b).mp hb).1]
  rfl

theorem current_running_iff (h : s.OnlyCurrentRuns) (hok : s.reschedule sym rsp = .ok s') :
    s'.InState s'.current .running ↔ ∃ a, s.firstReady = some a ∧ a ≠ s.current := by
  obtain ⟨hcurrent, hrunning⟩ := h.reschedule hok
  constructor
  · intro hrun
    exact ⟨_, (hrunning _).mp hrun⟩
  · rintro ⟨a, hfirst, hne⟩
    rw [hcurrent, hfirst]
    exact (hrunning a).mpr ⟨hfirst, hne⟩

theorem current_ready_or_running (ho : Orderly s) (hok : s.reschedule sym rsp = .ok s') :
    s'.InState s'.current .ready ∨ s'.InState s'.current .running := by
  obtain ⟨args, s1, hsched, hcase⟩ := reschedule_ok hok
  obtain ⟨t, ht, hrunnable⟩ := schedule_current ho hsched
  have hstate : s1.InState s1.current .ready ∨ s1.InState s1.current .running :=
    hrunnable.imp (fun h => ⟨t, ht, h⟩) fun h => ⟨t, ht, h⟩
  rcases hcase with ⟨-, rfl⟩ | ⟨x, -, rfl⟩
  · exact hstate
  · exact hstate.imp (inState_switched _ _ _ _ _ _).mpr (inState_switched _ _ _ _ _ _).mpr

theorem InState.unique {x y : TaskState} (h : s.InState a x) (h' : s.InState a y) : x = y := by
  obtain ⟨t, ht, rfl⟩ := h
  obtain ⟨t', ht', rfl⟩ := h'
  cases ht.symm.trans ht'
  rfl

def NoNewRunning (t t' : Task) : Prop := t'.state = .running → t.state = .running

theorem allowsTimer_noNewRunning : AllowsTimer NoNewRunning where
  refl _ := id
  trans _ _ _ h h' hrun := h (h' hrun)
  wake _ _ hrun := by cases hrun
  count _ := id
  kill _ hrun := by cases hrun
  reap _ _ hrun := by cases hrun

theorem OnlyCurrentRuns.follows {D : TaskId → Prop} (h : s.OnlyCurrentRuns)
    (hcurrent : s'.current = s.current) (hfollow : Follows NoNewRunning D s s') : s'.OnlyCurrentRuns := by
  rintro b ⟨t', ht', hrun⟩
  obtain ⟨t, ht, hback⟩ := hfollow.find_before ht'
  rw [hcurrent]
  exact h b ⟨t, ht, hback hrun⟩

theorem OnlyCurrentRuns.markBlocked (h : s.OnlyCurrentRuns) : s.markBlocked.OnlyCurrentRuns := by
  obtain ⟨_, _, heq⟩ := s.markBlocked_frame
  have hfollow : Follows NoNewRunning (fun _ => False) s s.markBlocked :=
    .of_map (fun _ => id) s.find_markBlocked fun t _ hrun => by cases hrun
  exact h.follows (by rw [heq]) hfollow

def Keeps (x : TaskState) (t t' : Task) : Prop :=
  (t.state = x → t'.state = x ∨ t'.state.Ending) ∧ (t.state.Ending → t'.state.Ending)

theorem allowsWork_keeps (x : TaskState) : AllowsWork (Keeps x) where
  refl _ := ⟨.inl, id⟩
  trans _ _ _ h h' := ⟨fun hx => (h.1 hx).elim h'.1 fun hend => .inr (h'.2 hend), fun hend => h'.2 (h.2 hend)⟩
  count _ := ⟨.inl, id⟩
  kill _ := ⟨fun _ => .inr (.inl rfl), fun _ => .inl rfl⟩
  reap _ _ := ⟨fun _ => .inr (.inr rfl), fun _ => .inr rfl⟩

theorem allowsTimer_keeps_running : AllowsTimer (Keeps .running) where
  refl := (allowsWork_keeps _).refl
  trans := (allowsWork_keeps _).trans
  wake t h := by
    refine ⟨fun hrun => ?_, fun hend => ?_⟩
    · rw [h] at hrun
      cases hrun
    · rw [h] at hend
      exact absurd hend not_ending_blocked
  count := (allowsWork_keeps _).count
  kill := (allowsWork_keeps _).kill
  reap := (allowsWork_keeps _).reap

theorem find_wake_of_ne (h : b ≠ a) : (s.wake a).2.find b = s.find b := by
  have hwoken := s.wake_woken a
  generalize (s.wake a).2 = s' at hwoken ⊢
  cases hwoken with
  | idle _ => rfl
  | @queued task queue _ _ _ => exact (s.find_setStates a b task.thread .ready .active).trans (if_neg h)
  | @full task _ _ _ => exact (s.find_setStates a b task.thread .ready .active).trans (if_neg h)

theorem find_wakeExpired {l : List SleepEntry} (h : ¬ SleepQueue.Holds (SleepQueue.expired l) a)
    (s : Scheduler) : (wakeExpired l s).find a = s.find a := by
  induction l generalizing s with
  | nil => rfl
  | cons entry rest ih =>
    rw [wakeExpired]
    by_cases hzero : entry.deltaTicks = 0
    · rw [SleepQueue.expired, List.takeWhile_cons_of_pos (by simpa using hzero), SleepQueue.holds_cons,
        not_or] at h
      rw [if_neg (not_not.mpr hzero), ih h.2]
      exact find_wake_of_ne fun heq => h.1 heq.symm
    · rw [if_pos hzero]

end Scheduler

namespace Processor

open Scheduler SleepQueue

variable {p p' : Processor} {sym : Symbols} {e : Event}

/-- The current task is running, or it has marked itself as blocked, dying or dead. -/
def CurrentMarked (p : Processor) : Prop :=
  ∃ t, p.sched.find p.sched.current = some t ∧ (t.state = .running ∨
    t.state = .blocked ∧ p.leaving p.sched.current = true ∨ t.state.Ending)

def CurrentDue (p : Processor) : Prop :=
  Holds (expired p.sched.sleepQueue.countDown.entries) p.sched.current

/-- The event wakes the current task, which has marked itself blocked, and does not call `schedule`. -/
def WokenHere (p : Processor) : Event → Prop
  | .keyboard taskId => taskId = p.sched.current ∧ p.sched.InState p.sched.current .blocked
  | .tick _ => p.CurrentDue ∧ p.sched.InState p.sched.current .blocked
  | _ => False

/-- If the event calls `schedule`, there is a ready task other than the current one in the queue;
if not, it does not wake the current task. -/
def SelectsAnother (p : Processor) (e : Event) : Prop :=
  (∀ call ∈ p.scheduleCall e, ∃ a, call.1.firstReady = some a ∧ a ≠ call.1.current) ∧
    (p.scheduleCall e = none → ¬ p.WokenHere e)

instance (p : Processor) : (e : Event) → Decidable (p.WokenHere e)
  | .keyboard taskId =>
    inferInstanceAs (Decidable (taskId = p.sched.current ∧ p.sched.InState p.sched.current .blocked))
  | .tick _ =>
    inferInstanceAs (Decidable (Holds _ _ ∧ p.sched.InState p.sched.current .blocked))
  | .spawn .. | .block | .sleep _ | .yield _ | .exit _ | .exitThread _ | .initComplete => .isFalse id

instance (p : Processor) (e : Event) : Decidable (p.SelectsAnother e) :=
  decidable_of_iff ((∀ call ∈ p.scheduleCall e, call.1.firstReady.any (· ≠ call.1.current) = true) ∧
    (p.scheduleCall e = none → ¬ p.WokenHere e)) (by simp [SelectsAnother, Option.any_eq_true])

theorem currentMarked_iff (h : CurrentRuns p.sched) :
    p.CurrentMarked ↔ p.sched.InState p.sched.current .running ∨
      p.sched.InState p.sched.current .blocked ∧ p.leaving p.sched.current = true := by
  obtain ⟨t, ht, hnot⟩ := h
  constructor
  · rintro ⟨t', ht', hrun | ⟨hblocked, hleaving⟩ | hend⟩
    · exact .inl ⟨t', ht', hrun⟩
    · exact .inr ⟨⟨t', ht', hblocked⟩, hleaving⟩
    · cases ht.symm.trans ht'
      exact absurd hend hnot
  · rintro (⟨t', ht', hrun⟩ | ⟨⟨t', ht', hblocked⟩, hleaving⟩)
    · exact ⟨t', ht', .inl hrun⟩
    · exact ⟨t', ht', .inr (.inl ⟨hblocked, hleaving⟩)⟩

variable {rsp : Nat} {s : Scheduler}

theorem onlyCurrentRuns_scheduleCall (h : p.sched.OnlyCurrentRuns)
    (hcall : p.scheduleCall e = some (s, rsp)) : s.OnlyCurrentRuns := by
  have hT := allowsTimer_noNewRunning
  cases scheduleCall_called hcall with
  | yield => exact h
  | exit =>
    obtain ⟨_, _, _, heq⟩ := p.sched.killCurrentTask_frame
    have hfollow : Follows NoNewRunning (fun _ => False) p.sched p.sched.killCurrentTask :=
      .killCurrentTask hT.refl fun t _ => hT.kill t
    exact h.follows (by rw [heq]) hfollow
  | tick =>
    obtain ⟨_, _, _, _, _, _, _, _, heq⟩ := p.sched.timerWork_frame
    exact h.follows (by rw [heq]) (hT.timerWork p.sched)

theorem exec_reschedule (hcall : p.scheduleCall e = some (s, rsp)) (hok : p.exec sym e = .ok p') :
    s.reschedule sym rsp = .ok p'.sched := by
  cases exec_done hok with
  | scheduled hcall' hresched =>
    cases hcall.symm.trans hcall'
    exact hresched
  | ticked hstay =>
    rw [scheduleCall, hstay] at hcall
    cases hcall
  | blocked he => rcases he with ⟨rfl, -⟩ | ⟨_, rfl, -⟩ <;> cases hcall
  | spawned | asked | woken | initialised => cases hcall

theorem onlyCurrentRuns_exec (h : p.sched.OnlyCurrentRuns) (hok : p.exec sym e = .ok p') :
    p'.sched.OnlyCurrentRuns := by
  have hT := allowsTimer_noNewRunning
  cases exec_done hok with
  | spawned hspawned =>
    cases hspawned with
    | refused _ _ => exact h
    | @placed taskId global threads queue hnew hfind _ _ _ =>
      rintro b ⟨t, ht, hrun⟩
      rw [show Scheduler.find _ b = _ from hfind b] at ht
      split at ht
      · cases ht
        cases hrun
      · exact h b ⟨t, ht, hrun⟩
  | @blocked _ q _ => exact OnlyCurrentRuns.markBlocked (s := { p.sched with sleepQueue := q }) h
  | asked thread =>
    obtain ⟨queue, heq⟩ := p.sched.exitThread_frame thread
    rw [heq]
    exact h
  | woken taskId =>
    obtain ⟨_, _, _, heq⟩ := p.sched.wake_frame taskId
    have hfollow : Follows NoNewRunning (fun _ => False) p.sched (p.sched.wake taskId).2 :=
      .wake hT.refl hT.wake
    exact h.follows (by rw [heq]) hfollow
  | initialised => exact h
  | ticked _ =>
    obtain ⟨_, _, _, _, _, _, _, _, heq⟩ := p.sched.timerWork_frame
    exact h.follows (by rw [heq]) (hT.timerWork p.sched)
  | scheduled hcall hresched =>
    exact onlyCurrentRuns_reschedule (onlyCurrentRuns_scheduleCall h hcall) hresched

theorem onlyCurrentRuns_boot (idleStack kernelStack cr3 : Nat) :
    (boot idleStack kernelStack cr3).sched.OnlyCurrentRuns := by
  rintro b ⟨t, ht, -⟩
  exact (boot_find ht).1

theorem Reached.onlyCurrentRuns (h : p.Reached sym (fun _ _ => True)) : p.sched.OnlyCurrentRuns := by
  refine h.invariant (fun p => p.sched.OnlyCurrentRuns) ?_ ?_
  · rintro _ ⟨idleStack, kernelStack, cr3, rfl⟩
    exact onlyCurrentRuns_boot idleStack kernelStack cr3
  · rintro p p' hp ⟨e, -, -, hok⟩
    exact onlyCurrentRuns_exec hp hok

/-! ## Whether the current task is marked -/

theorem timerWork_current (h : Lively p) (hstay : p.sched.timerWork.1 = false) :
    (p.sched.timerWork.2.InState p.sched.current .running ↔ p.sched.InState p.sched.current .running) ∧
    (p.sched.timerWork.2.InState p.sched.current .blocked ↔
      p.sched.InState p.sched.current .blocked ∧ ¬ p.CurrentDue) := by
  obtain ⟨ho, -, hcurrent, hending, -⟩ := ticked_timerWork h.orderly h.requests h.runs
  obtain ⟨t', ht'⟩ := ho.current
  rw [hcurrent] at ht'
  have hnot : ¬ t'.state.Ending := by
    intro hend
    rw [hending t' ht' hend] at hstay
    cases hstay
  refine ⟨⟨?_, ?_⟩, ?_, ?_⟩
  · rintro ⟨u, hu, hrun⟩
    obtain ⟨t, ht, hback⟩ := (allowsTimer_noNewRunning.timerWork p.sched).find_before hu
    exact ⟨t, ht, hback hrun⟩
  · rintro ⟨t, ht, hrun⟩
    obtain ⟨u, hu, hkeeps⟩ := (allowsTimer_keeps_running.timerWork p.sched).find_before ht'
    cases ht.symm.trans hu
    exact ⟨t', ht', (hkeeps.1 hrun).resolve_right hnot⟩
  · intro hblocked
    refine ⟨blocked_of_follows (allowsTimer_noNewBlocked.timerWork p.sched) hblocked, fun hdue => ?_⟩
    refine not_blocked_wakeExpired hdue p.sched ?_
    exact blocked_of_follows (allowsTimer_noNewBlocked.work.afterSleepers p.sched) hblocked
  · rintro ⟨⟨t, ht, hblocked⟩, hnotDue⟩
    have hasleep : p.sched.tickSleepQueue.find p.sched.current = some t :=
      (find_wakeExpired hnotDue p.sched).trans ht
    obtain ⟨u, hu, hkeeps⟩ := ((allowsWork_keeps .blocked).afterSleepers p.sched).find_before ht'
    cases hasleep.symm.trans hu
    exact ⟨t', ht', (hkeeps.1 hblocked).resolve_right hnot⟩

theorem currentMarked_reschedule_iff (ho : Orderly s) (honly : s.OnlyCurrentRuns)
    (hok : s.reschedule sym rsp = .ok p'.sched) :
    p'.CurrentMarked ↔ ∃ a, s.firstReady = some a ∧ a ≠ s.current := by
  obtain ⟨-, hruns, -⟩ := reschedule_spec ho hok
  rw [currentMarked_iff hruns, ← current_running_iff honly hok, or_iff_left]
  rintro ⟨hblocked, -⟩
  rcases current_ready_or_running ho hok with hready | hrunning
  · cases hready.unique hblocked
  · cases hrunning.unique hblocked

theorem CurrentMarked.congr (h : p.CurrentMarked) (hcurrent : p'.sched.current = p.sched.current)
    (hfind : p'.sched.find p.sched.current = p.sched.find p.sched.current)
    (hleaving : p'.leaving p.sched.current = p.leaving p.sched.current) : p'.CurrentMarked := by
  rw [CurrentMarked, hcurrent, hfind, hleaving]
  exact h

theorem currentMarked_markBlocked (h : ∃ t, s.find s.current = some t) (n : Nat) :
    (⟨s.markBlocked, n, Function.update p.leaving s.current true⟩ : Processor).CurrentMarked := by
  obtain ⟨t, ht⟩ := h
  obtain ⟨_, _, heq⟩ := s.markBlocked_frame
  have hcurrent : s.markBlocked.current = s.current := by rw [heq]
  refine ⟨{ t with ticksRemaining := taskQuantumTicks, state := .blocked }, ?_, .inr (.inl ⟨rfl, ?_⟩)⟩
  · dsimp only
    rw [hcurrent, find_markBlocked, if_pos rfl, ht]
    rfl
  · dsimp only
    rw [hcurrent, Function.update_self]

theorem currentMarked_wake_iff (hmarked : p.CurrentMarked) (taskId : TaskId)
    (h : CurrentRuns (p.sched.wake taskId).2) :
    ({ p with sched := (p.sched.wake taskId).2 } : Processor).CurrentMarked ↔
      ¬ p.WokenHere (.keyboard taskId) := by
  obtain ⟨_, _, _, heq⟩ := p.sched.wake_frame taskId
  have hcurrent : (p.sched.wake taskId).2.current = p.sched.current := by rw [heq]
  by_cases hwoken : p.WokenHere (.keyboard taskId)
  · refine iff_of_false ?_ (not_not.mpr hwoken)
    obtain ⟨rfl, hblocked⟩ := hwoken
    rw [currentMarked_iff h]
    rw [hcurrent]
    rintro (⟨t', ht', hrun⟩ | ⟨hstill, -⟩)
    · have hT := allowsTimer_noNewRunning
      have hfollow : Follows NoNewRunning (fun _ => False) p.sched (p.sched.wake p.sched.current).2 :=
        .wake hT.refl hT.wake
      obtain ⟨t, ht, hback⟩ := hfollow.find_before ht'
      cases hblocked.unique ⟨t, ht, hback hrun⟩
    · exact p.sched.not_blocked_wake _ hstill
  · refine iff_of_true (hmarked.congr hcurrent ?_ rfl) hwoken
    by_cases hother : p.sched.current = taskId
    · have hnot : ¬ p.sched.InState taskId .blocked := by
        intro hblocked
        exact hwoken ⟨hother.symm, hother ▸ hblocked⟩
      have hcase := p.sched.wake_woken taskId
      generalize (p.sched.wake taskId).2 = s' at hcase
      cases hcase with
      | idle _ => rfl
      | queued hfind hblocked _ => exact absurd ⟨_, hfind, hblocked⟩ hnot
      | full hfind hblocked _ => exact absurd ⟨_, hfind, hblocked⟩ hnot
    · exact find_wake_of_ne hother

theorem currentMarked_stay_iff (h : Lively p) (h' : CurrentRuns p'.sched) (hmarked : p.CurrentMarked)
    (hcall : p.scheduleCall e = none) (hok : p.exec sym e = .ok p') :
    p'.CurrentMarked ↔ ¬ p.WokenHere e := by
  cases exec_done hok with
  | spawned hspawned =>
    refine iff_of_true ?_ id
    cases hspawned with
    | refused _ _ => exact hmarked
    | @placed taskId global threads queue hnew hfind _ _ _ =>
      have hne : p.sched.current ≠ taskId := by
        rintro rfl
        obtain ⟨t, ht⟩ := h.orderly.current
        rw [hnew] at ht
        cases ht
      exact hmarked.congr rfl ((hfind _).trans (if_neg hne)) (Function.update_of_ne hne _ _)
  | @blocked _ q he =>
    have hafter := currentMarked_markBlocked (p := p) (s := { p.sched with sleepQueue := q }) h.orderly.current
      p.nextThreadId
    rcases he with ⟨rfl, -⟩ | ⟨_, rfl, -⟩ <;> exact iff_of_true hafter id
  | asked thread =>
    refine iff_of_true ?_ id
    obtain ⟨_, heq⟩ := p.sched.exitThread_frame thread
    rw [heq]
    exact hmarked
  | woken taskId => exact currentMarked_wake_iff hmarked taskId h'
  | initialised => exact iff_of_true hmarked id
  | ticked hstay =>
    obtain ⟨hrunning, hblocked⟩ := timerWork_current h hstay
    have hbefore := (currentMarked_iff h.runs).mp hmarked
    obtain ⟨_, _, _, _, _, _, _, _, heq⟩ := p.sched.timerWork_frame
    have hcurrent : p.sched.timerWork.2.current = p.sched.current := by rw [heq]
    rw [currentMarked_iff h']
    rw [hcurrent, hrunning, hblocked, WokenHere]
    constructor
    · rintro (hrun | ⟨⟨-, hnotDue⟩, -⟩) ⟨hdue, hasleep⟩
      · cases hrun.unique hasleep
      · exact hnotDue hdue
    · intro hnot
      rcases hbefore with hrun | ⟨hasleep, hleaving⟩
      · exact .inl hrun
      · exact .inr ⟨⟨hasleep, fun hdue => hnot ⟨hdue, hasleep⟩⟩, hleaving⟩
  | scheduled hcall' _ => cases hcall.symm.trans hcall'

theorem currentMarked_exec_iff (h : Lively p) (honly : p.sched.OnlyCurrentRuns) (hmarked : p.CurrentMarked)
    (hen : p.Enabled e) (hspares : SparesIdle p e) (hok : p.exec sym e = .ok p') :
    p'.CurrentMarked ↔ p.SelectsAnother e := by
  rw [SelectsAnother]
  cases hcall : p.scheduleCall e with
  | none =>
    have hruns := (h.step hen hspares hok).1.runs
    rw [currentMarked_stay_iff h hruns hmarked hcall hok]
    simp
  | some call =>
    have horderly := h.scheduleCall_orderly hen hcall
    have hrunning := onlyCurrentRuns_scheduleCall honly hcall
    rw [currentMarked_reschedule_iff horderly hrunning (exec_reschedule hcall hok)]
    simp

theorem Reached.currentMarked
    (h : p.Reached sym (fun p e => SparesIdle p e ∧ p.SelectsAnother e)) :
    Lively p ∧ p.sched.OnlyCurrentRuns ∧ p.CurrentMarked := by
  refine h.invariant (fun p => Lively p ∧ p.sched.OnlyCurrentRuns ∧ p.CurrentMarked) ?_ ?_
  · rintro _ ⟨idleStack, kernelStack, cr3, rfl⟩
    have hboot := onlyCurrentRuns_boot idleStack kernelStack cr3
    exact ⟨lively_boot idleStack kernelStack cr3, hboot, _, rfl, .inl rfl⟩
  · rintro p p' ⟨hlive, honly, hmarked⟩ ⟨e, hen, ⟨hspares, hselects⟩, hok⟩
    have hmarked' := (currentMarked_exec_iff hlive honly hmarked hen hspares hok).mpr hselects
    exact ⟨(hlive.step hen hspares hok).1, onlyCurrentRuns_exec honly hok, hmarked'⟩

/-- In every state no task but the current one is running. As long as every call of `schedule`
finds another ready task in the queue and no task is woken before it has left the processor, the
current one is running unless it has marked itself; the first event for which this fails is one
after which it is not. -/
theorem current_is_marked_running_iff (sym : Symbols) :
    (∀ p : Processor, p.Reached sym (fun _ _ => True) → p.sched.OnlyCurrentRuns) ∧
    ∀ p : Processor, p.Reached sym (fun p e => SparesIdle p e ∧ p.SelectsAnother e) →
      p.CurrentMarked ∧ ∀ e p', p.Enabled e → SparesIdle p e → p.exec sym e = .ok p' →
        (p'.CurrentMarked ↔ p.SelectsAnother e) := by
  refine ⟨fun p h => h.onlyCurrentRuns, fun p h => ?_⟩
  obtain ⟨hlive, honly, hmarked⟩ := h.currentMarked
  exact ⟨hmarked, fun e p' hen hspares hok =>
    currentMarked_exec_iff hlive honly hmarked hen hspares hok⟩

/-- Two tasks that take turns. -/
theorem current_is_marked_running_iff_turns : ∃ p : Processor,
    p.Reached sampleSymbols (fun p e => SparesIdle p e ∧ p.SelectsAnother e) ∧
      p.sched.current ≠ .idle ∧ p.CurrentMarked := by
  obtain ⟨p, hp, hcurrent⟩ := exists_reached sampleSymbols
    (fun p e => SparesIdle p e ∧ p.SelectsAnother e) 0 0 0
    [.spawn "A" 1 (sampleTask 1), .spawn "B" 1 (sampleTask 2), .initComplete, .yield 0x7000,
      .tick 0x8000, .yield 0x8000, .block, .yield 0x9000]
    (fun p => p.sched.current ≠ .idle) (by decide +kernel)
  exact ⟨p, hp, hcurrent, ((current_is_marked_running_iff sampleSymbols).2 p hp).1⟩

/-- One task is spawned, runs and blocks. The queue is empty then, and `schedule` falls back on the
idle task, which it marked ready when that task was left: it is current and ready. -/
theorem idle_current_but_ready : ∃ p : Processor, p.Reached sampleSymbols SparesIdle ∧
    p.sched.current = .idle ∧ p.sched.InState .idle .ready ∧ p.leaving .idle = false :=
  exists_reached sampleSymbols SparesIdle 0 0 0
    [.spawn "A" 1 (sampleTask 1), .initComplete, .yield 0x7000, .block, .yield 0x8000] _
    (by decide +kernel)

end Processor

end CrapOs
