import CrapOs.TaskScheduler.Reaper

/-! # Runs in which the reaper keeps up

As long as the queue of the reaper has room for every task that ends, no task is
lost between `Dying` and the moment its slot and stack are released, and that
moment is at most two timer interrupts away.
-/

namespace CrapOs

open Foundation Scheduler

/-- The queue of the reaper has room for the task that ends, or for all that are to be killed. -/
def RoomToReap (p : Processor) : Event → Prop
  | .exit _ => p.sched.reaperQueue.entries.length < 64
  | .tick _ => p.sched.reaperQueue.entries.length + p.sched.systemTasks.entries.length ≤ 64
  | _ => True

instance (p : Processor) : (e : Event) → Decidable (RoomToReap p e)
  | .exit _ => inferInstanceAs (Decidable (_ < _))
  | .tick _ => inferInstanceAs (Decidable (_ ≤ _))
  | .spawn .. | .block | .sleep _ | .yield _ | .exitThread _ | .keyboard _ | .initComplete =>
    .isTrue trivial

namespace Processor

variable {p p' : Processor} {sym : Symbols} {e : Event} {task : Task} {a : TaskId}

structure Tidy (p : Processor) : Prop where
  accounted : Accounted p.sched
  safe : CurrentSafe p.sched

/-- What an event makes of the tasks that end: a timer interrupt removes the dead ones and
leaves no other dying, and nothing else touches them. -/
def Releases (p : Processor) (e : Event) (p' : Processor) : Prop :=
  match e with
  | .tick _ => (∀ a, p.sched.InState a .dead → p'.sched.find a = none) ∧
      ∀ a, p.sched.InState a .dying → p'.sched.find a = none ∨ p'.sched.InState a .dead
  | _ => ∀ a x, x.Ending → p.sched.InState a x → p'.sched.InState a x

theorem tidy_boot (idleStack kernelStack cr3 : Nat) : Tidy (boot idleStack kernelStack cr3) := by
  have hlive : ∀ {a t}, (boot idleStack kernelStack cr3).sched.find a = some t → ¬ t.state.Ending := by
    intro a t ht
    obtain ⟨-, rfl⟩ := boot_find ht
    exact TaskState.Runnable.not_ending (.inr rfl)
  refine ⟨⟨?_, ?_⟩, fun t ht hend => absurd hend (hlive ht)⟩
  · rintro a ⟨t, ht, hdying⟩
    exact absurd (.inl hdying) (hlive ht)
  · rintro a ⟨t, ht, hdead⟩
    exact absurd (.inr hdead) (hlive ht)

/-! ## One event -/

variable {rsp : Nat} {s : Scheduler}

theorem inState_of_undisturbed {s' : Scheduler}
    (hfollow : Follows Undisturbed (fun _ => False) s s') {x : TaskState} (hx : x.Ending)
    (h : s.InState a x) : s'.InState a x := by
  obtain ⟨t, ht, rfl⟩ := h
  obtain ⟨t', ht', -, hsame⟩ := hfollow.find_after ht not_false
  exact ⟨t', ht', hsame (.inl hx)⟩

theorem Tidy.undisturbed (h : Tidy p) {leaving : TaskId → Bool}
    (hfollow : Follows Undisturbed (fun _ => False) p.sched s)
    (hreaper : s.reaperQueue = p.sched.reaperQueue)
    (htombs : s.tombstoneQueue = p.sched.tombstoneQueue) (hcurrent : s.current = p.sched.current) :
    Tidy { p with sched := s, leaving := leaving } := by
  have hold := hfollow.mono Undisturbed.noNewEnding fun _ => id
  exact ⟨h.accounted.follows hold (by rw [hreaper]; exact fun _ => id)
    (by rw [htombs]; exact fun _ => id), h.safe.follows hcurrent hold⟩

theorem Tidy.spawn (h : Tidy p) (hspawn : Spawned p task p') :
    Tidy p' ∧ ∀ a x, p.sched.InState a x → p'.sched.InState a x := by
  cases hspawn with
  | refused => exact ⟨⟨⟨h.accounted.dying, h.accounted.dead⟩, h.safe⟩, fun _ _ => id⟩
  | @placed taskId global threads queue hnew hfind =>
    obtain ⟨s', hs'⟩ : ∃ s' : Scheduler,
      { p.sched with global := global, threads := threads, queue := queue } = s' := ⟨_, rfl⟩
    have hfind' : ∀ b, s'.find b = if b = taskId then
        some { task with id := taskId, state := .ready } else p.sched.find b := by
      rw [← hs']
      exact hfind
    have hsame : s'.reaperQueue = p.sched.reaperQueue ∧ s'.tombstoneQueue = p.sched.tombstoneQueue ∧
        s'.current = p.sched.current := hs' ▸ ⟨rfl, rfl, rfl⟩
    -- whatever ends was there before
    have hold : ∀ {b t}, s'.find b = some t → t.state.Ending → p.sched.find b = some t := by
      intro b t ht hend
      rw [hfind'] at ht
      split_ifs at ht with hb
      · cases ht
        exact absurd hend (TaskState.Runnable.not_ending (.inl rfl))
      · exact ht
    rw [hs']
    refine ⟨⟨⟨?_, ?_⟩, ?_⟩, ?_⟩
    · rintro b ⟨t, ht, hdying⟩
      rw [hsame.1]
      exact h.accounted.dying b ⟨t, hold ht (.inl hdying), hdying⟩
    · rintro b ⟨t, ht, hdead⟩
      rw [hsame.2.1]
      exact h.accounted.dead b ⟨t, hold ht (.inr hdead), hdead⟩
    · intro t ht hend
      have hbefore := hold ht hend
      rw [hsame.2.2] at hbefore ⊢
      exact h.safe t hbefore hend
    · rintro b x ⟨t, ht, hx⟩
      refine ⟨t, ?_, hx⟩
      rw [hfind', if_neg]
      · exact ht
      · rintro rfl
        rw [hnew] at ht
        cases ht

theorem follows_markBlocked (h : CurrentSafe s) (hidle : s.current ≠ .idle) :
    Follows Undisturbed (fun _ => False) s s.markBlocked := by
  refine .of_map allowsSwitch_undisturbed.refl s.find_markBlocked fun t ht => ?_
  have hlive : ¬ t.state.Ending := fun hend => hidle (h t ht hend)
  exact ⟨rfl, fun hend => (hend.elim hlive not_ending_blocked).elim⟩

theorem Tidy.markBlocked (h : Tidy p) (hidle : p.sched.current ≠ .idle) (leaving : TaskId → Bool) :
    Tidy { p with sched := p.sched.markBlocked, leaving := leaving } := by
  obtain ⟨global, threads, heq⟩ := markBlocked_frame p.sched
  exact h.undisturbed (follows_markBlocked h.safe hidle) (by rw [heq]) (by rw [heq]) (by rw [heq])

theorem tidy_reschedule {s' : Scheduler} (h : Accounted s) (hok : s.reschedule sym rsp = .ok s') :
    Accounted s' ∧ CurrentSafe s' ∧ Follows Undisturbed (fun _ => False) s s' := by
  have hfollow : Follows Undisturbed (fun _ => False) s s' :=
    allowsSwitch_undisturbed.reschedule (fun _ _ => ⟨rfl, fun _ => rfl⟩) hok
  obtain ⟨global, queue, current, kernelStack, ticks, cr3, heq⟩ := reschedule_frame hok
  refine ⟨h.follows (hfollow.mono Undisturbed.noNewEnding fun _ => id)
    (by rw [heq]; exact fun _ => id) (by rw [heq]; exact fun _ => id), ?_, hfollow⟩
  obtain ⟨args, s1, hsched, hcase⟩ := reschedule_ok hok
  obtain ⟨hsafe, hsafeSwitch⟩ := currentSafe_schedule hsched rsp
  rcases hcase with ⟨-, rfl⟩ | ⟨x, -, rfl⟩
  · exact hsafe
  · exact hsafeSwitch x

theorem Tidy.exit (h : Tidy p) (hidle : p.sched.current ≠ .idle)
    (hroom : p.sched.reaperQueue.entries.length < 64) (hok : Processor.exit sym p.sched rsp = .ok s) :
    Tidy { p with sched := s } ∧ ∀ a x, x.Ending → p.sched.InState a x → s.InState a x := by
  obtain ⟨hacc, hsafe, hfollow⟩ :=
    tidy_reschedule (h.accounted.killCurrentTask hroom) (exit_reschedule hok)
  -- the task that exits did not end before
  have hmark : Follows (fun t t' => t.state.Ending → t'.state = t.state) (fun _ => False) p.sched
      p.sched.killCurrentTask :=
    .killCurrentTask (fun _ _ => rfl) fun t ht hend => absurd (h.safe t ht hend) hidle
  refine ⟨⟨hacc, hsafe⟩, fun a x hx hax => inState_of_undisturbed hfollow hx ?_⟩
  obtain ⟨t, ht, rfl⟩ := hax
  obtain ⟨t', ht', hsame⟩ := hmark.find_after ht not_false
  exact ⟨t', ht', hsame hx⟩

theorem Tidy.exitThread (h : Tidy p) (thread : ThreadId) :
    Tidy { p with sched := p.sched.exitThread thread } ∧
      ∀ a, (p.sched.exitThread thread).find a = p.sched.find a := by
  rw [Scheduler.exitThread]
  split
  · exact ⟨h, fun _ => rfl⟩
  cases (p.sched.threads thread).taskId with
  | none => exact ⟨h, fun _ => rfl⟩
  | some taskId =>
    simp only [queueSystemTask]
    cases p.sched.systemTasks.push taskId.compressTaskId with
    | error => exact ⟨h, fun _ => rfl⟩
    | ok queue => exact ⟨⟨⟨h.accounted.dying, h.accounted.dead⟩, h.safe⟩, fun _ => rfl⟩

/-- A timer interrupt takes every task that ends one step further. -/
theorem Tidy.tick (h : Tidy p)
    (hroom : p.sched.reaperQueue.entries.length + p.sched.systemTasks.entries.length ≤ 64)
    (hok : p.sched.handlerApicTimer sym rsp = .ok s) :
    Tidy { p with sched := s } ∧ (∀ a, p.sched.InState a .dead → s.find a = none) ∧
      ∀ a, p.sched.InState a .dying → s.find a = none ∨ s.InState a .dead := by
  obtain ⟨hacc, hreaped, hremoved, hending, hmarked⟩ :=
    settled_timerWork h.accounted h.safe hroom
  have hR := allowsSwitch_undisturbed
  -- what is left to do never touches a task that ends
  have hrest : Tidy { p with sched := s } ∧ Follows Undisturbed (fun _ => False) p.sched.timerWork.2 s := by
    rcases handlerApicTimer_ok hok with ⟨-, hresched⟩ | ⟨hstay, rfl⟩
    · obtain ⟨hacc', hsafe, hfollow⟩ := tidy_reschedule hacc hresched
      exact ⟨⟨hacc', hsafe⟩, hfollow⟩
    · refine ⟨⟨hacc, fun t ht hend => ?_⟩, .of_find hR.refl fun _ => rfl⟩
      refine (hmarked t ht hend).resolve_right fun hshould => ?_
      rw [hstay] at hshould
      cases hshould
  obtain ⟨htidy, hfollow⟩ := hrest
  refine ⟨htidy, fun a ha => hfollow.find_none (hremoved a (h.accounted.dead a ha)), ?_⟩
  rintro a ⟨t, ht, hdying⟩
  have ha := hending a
  rw [ht] at ha
  generalize hx : p.sched.timerWork.2.find a = x at ha
  cases ha with
  | removed => exact .inl (hfollow.find_none hx)
  | kept hstays =>
    refine .inr (inState_of_undisturbed hfollow (.inr rfl) ⟨_, hx, ?_⟩)
    rcases hstays (.inl hdying) with hstill | hdead
    · have hmem := hacc.dying a ⟨_, hx, hstill⟩
      rw [hreaped] at hmem
      cases hmem
    · exact hdead

theorem Tidy.step (h : Tidy p) (hen : p.Enabled e) (hcond : RoomToReap p e)
    (hok : p.exec sym e = .ok p') : Tidy p' ∧ p.Releases e p' := by
  have hR := allowsSwitch_undisturbed
  cases e with
  | spawn name process task =>
    obtain ⟨htidy, hkept⟩ := h.spawn (spawn_spawned hok)
    exact ⟨htidy, fun a x _ => hkept a x⟩
  | block =>
    cases hok
    exact ⟨h.markBlocked hen.2 _, fun a x => inState_of_undisturbed (follows_markBlocked h.safe hen.2)⟩
  | sleep seconds =>
    cases hok
    obtain ⟨q, hq⟩ := p.sched.markSleeping_eq seconds
    have hslept : Tidy { p with sched := { p.sched with sleepQueue := q } } :=
      ⟨⟨h.accounted.dying, h.accounted.dead⟩, h.safe⟩
    rw [hq]
    exact ⟨hslept.markBlocked hen.2.1 _,
      fun a x => inState_of_undisturbed (follows_markBlocked hslept.safe hen.2.1)⟩
  | yield rsp =>
    obtain ⟨s, hresched, hret⟩ := bind_eq_ok.mp hok
    cases hret
    obtain ⟨hacc, hsafe, hfollow⟩ := tidy_reschedule h.accounted hresched
    exact ⟨⟨hacc, hsafe⟩, fun a x => inState_of_undisturbed hfollow⟩
  | exit rsp =>
    obtain ⟨s, hexit, hret⟩ := bind_eq_ok.mp hok
    cases hret
    exact h.exit hen.2.1 hcond hexit
  | exitThread thread =>
    cases hok
    obtain ⟨htidy, hfind⟩ := h.exitThread thread
    refine ⟨htidy, fun a x _ hax => ?_⟩
    obtain ⟨t, ht, hx⟩ := hax
    exact ⟨t, (hfind a).trans ht, hx⟩
  | keyboard taskId =>
    cases hok
    have hfollow : Follows Undisturbed (fun _ => False) p.sched (p.sched.wake taskId).2 :=
      .wake hR.refl Undisturbed.wake
    obtain ⟨global, threads, queue, heq⟩ := p.sched.wake_frame taskId
    exact ⟨h.undisturbed hfollow (by rw [heq]) (by rw [heq]) (by rw [heq]),
      fun a x => inState_of_undisturbed hfollow⟩
  | tick rsp =>
    obtain ⟨s, htick, hret⟩ := bind_eq_ok.mp hok
    cases hret
    exact h.tick hcond htick
  | initComplete =>
    cases hok
    exact ⟨⟨⟨h.accounted.dying, h.accounted.dead⟩, h.safe⟩, fun _ _ _ => id⟩

theorem tidy_of_reached (h : Reached sym RoomToReap p) : Tidy p := by
  refine h.invariant Tidy ?_ ?_
  · rintro _ ⟨idleStack, kernelStack, cr3, rfl⟩
    exact tidy_boot idleStack kernelStack cr3
  · rintro p p' hp ⟨e, hen, hcond, hok⟩
    exact (hp.step hen hcond hok).1

def isTick : Event → Bool
  | .tick _ => true
  | _ => false

def ticksLeft (x : TaskState) : Nat := if x = .dead then 1 else 2

/-- A task that ends is gone at the latest with the last timer interrupt left to it. -/
theorem Tidy.released (h : Tidy p) {es : List Event} (hrun : p.runs sym RoomToReap es = some p')
    {x : TaskState} (hx : x.Ending) (ha : p.sched.InState a x)
    (hticks : ticksLeft x ≤ es.countP isTick) :
    ∃ es1 es2 p1, es = es1 ++ es2 ∧ es1.countP isTick ≤ ticksLeft x ∧
      p.runs sym RoomToReap es1 = some p1 ∧ p1.sched.find a = none := by
  induction es generalizing p x with
  | nil =>
    have hpos : 0 < ticksLeft x := by
      unfold ticksLeft
      split <;> decide
    exact absurd hticks (Nat.not_le_of_lt hpos)
  | cons e rest ih =>
    obtain ⟨p1, hen, hcond, hexec, hrest⟩ := runs_cons.mp hrun
    obtain ⟨htidy, hreleases⟩ := h.step hen hcond hexec
    -- the task is still there after this event, in a state with fewer timer interrupts to go
    have hlater : ∀ {y : TaskState}, y.Ending → p1.sched.InState a y →
        ticksLeft y + [e].countP isTick ≤ ticksLeft x → ticksLeft y ≤ rest.countP isTick →
        ∃ es1 es2 p2, e :: rest = es1 ++ es2 ∧ es1.countP isTick ≤ ticksLeft x ∧
          p.runs sym RoomToReap es1 = some p2 ∧ p2.sched.find a = none := by
      intro y hy hay hfewer hleft
      obtain ⟨es1, es2, p2, rfl, hcount, hrun1, hgone⟩ := ih htidy hrest hy hay hleft
      refine ⟨e :: es1, es2, p2, rfl, ?_, runs_cons.mpr ⟨p1, hen, hcond, hexec, hrun1⟩, hgone⟩
      rw [List.countP_cons]
      rw [List.countP_singleton] at hfewer
      omega
    by_cases htick : isTick e
    · cases e with
      | tick rsp =>
        obtain ⟨hdead, hdying⟩ := hreleases
        have hnow : p1.sched.find a = none → ∃ es1 es2 p2, Event.tick rsp :: rest = es1 ++ es2 ∧
            es1.countP isTick ≤ ticksLeft x ∧
            p.runs sym RoomToReap es1 = some p2 ∧ p2.sched.find a = none := by
          refine fun hgone => ⟨[.tick rsp], rest, p1, rfl, ?_,
            runs_cons.mpr ⟨p1, hen, hcond, hexec, rfl⟩, hgone⟩
          rcases hx with rfl | rfl <;> simp [isTick, ticksLeft]
        rcases hx with rfl | rfl
        · rcases hdying a ha with hgone | hdead
          · exact hnow hgone
          · rw [List.countP_cons_of_pos htick] at hticks
            exact hlater (.inr rfl) hdead (by simp [ticksLeft, isTick])
              (Nat.le_of_succ_le_succ hticks)
        · exact hnow (hdead a ha)
      | spawn | block | sleep | yield | exit | exitThread | keyboard | initComplete => cases htick
    · have hsame : p1.sched.InState a x := by
        cases e with
        | tick => exact absurd rfl htick
        | spawn | block | sleep | yield | exit | exitThread | keyboard | initComplete =>
          exact hreleases a x hx ha
      rw [List.countP_cons_of_neg htick] at hticks
      exact hlater hx hsame (by simp [htick]) hticks

/-- As long as the queue of the reaper has room for every task that ends, every task that is
`Dying` is in it and every task that is `Dead` has a tombstone; and in every continuation
the task is removed from its slot, and its stack freed, by the second timer interrupt. -/
theorem ending_tasks_are_accounted_for (h : Reached sym RoomToReap p) :
    (∀ a, p.sched.InState a .dying → a ∈ p.sched.reaperQueue.entries) ∧
      (∀ a, p.sched.InState a .dead → a ∈ p.sched.tombstoneQueue.entries) ∧
      ∀ a, p.sched.InState a .dying ∨ p.sched.InState a .dead →
        ∀ es p', p.runs sym RoomToReap es = some p' → 2 ≤ es.countP isTick →
          ∃ es₁ es₂ p₁, es = es₁ ++ es₂ ∧ es₁.countP isTick ≤ 2 ∧
            p.runs sym RoomToReap es₁ = some p₁ ∧ p₁.sched.find a = none := by
  have htidy := tidy_of_reached h
  refine ⟨htidy.accounted.dying, htidy.accounted.dead, fun a ha es p' hrun hticks => ?_⟩
  rcases ha with ha | ha
  · exact htidy.released hrun (.inl rfl) ha hticks
  · obtain ⟨es₁, es₂, p₁, hsplit, hcount, hgone⟩ :=
      htidy.released hrun (.inr rfl) ha (Nat.le_of_succ_le hticks)
    exact ⟨es₁, es₂, p₁, hsplit, Nat.le_succ_of_le hcount, hgone⟩

/-- A task that has just exited. -/
theorem ending_tasks_are_accounted_for_exited : ∃ p, Reached sampleSymbols RoomToReap p ∧
    p.sched.InState ⟨1, 0⟩ .dying ∧ (⟨1, 0⟩ : TaskId) ∈ p.sched.reaperQueue.entries ∧
      ∃ es p', p.runs sampleSymbols RoomToReap es = some p' ∧ es.countP isTick ≤ 2 ∧
        p'.sched.find ⟨1, 0⟩ = none := by
  obtain ⟨p, hp, hdying, hruns⟩ := exists_reached sampleSymbols RoomToReap 0 0 0
    [.spawn "A" 1 (sampleTask 1), .initComplete, .yield 0x7000, .exit 0x4f00]
    (fun p => p.sched.InState ⟨1, 0⟩ .dying ∧
      (p.runs sampleSymbols RoomToReap [.tick 0x7000, .tick 0x7000]).isSome)
    (by decide +kernel)
  obtain ⟨hreaper, -, hreleased⟩ := ending_tasks_are_accounted_for hp
  obtain ⟨p', hp'⟩ := Option.isSome_iff_exists.mp hruns
  obtain ⟨es1, -, p1, -, hcount, hrun, hgone⟩ :=
    hreleased ⟨1, 0⟩ (.inl hdying) [.tick 0x7000, .tick 0x7000] p' hp' (by decide)
  exact ⟨p, hp, hdying, hreaper _ hdying, es1, p1, hrun, hcount, hgone⟩

def crowd (n : Nat) : List Event :=
  (List.range n).map fun i => .spawn "A" 1 (sampleTask (i + 1))

/-- Of 65 tasks that exit between two timer interrupts the last is dying but not in the queue
of the reaper. -/
theorem reaper_queue_overflows : ∃ p, Reached sampleSymbols (fun _ _ => True) p ∧
    p.sched.InState ⟨65, 0⟩ .dying ∧ (⟨65, 0⟩ : TaskId) ∉ p.sched.reaperQueue.entries :=
  exists_reached sampleSymbols (fun _ _ => True) 0 0 0
    (crowd 65 ++ [.initComplete, .yield 0x7000] ++ List.replicate 65 (.exit 0x4f00))
    (fun p => p.sched.InState ⟨65, 0⟩ .dying ∧ (⟨65, 0⟩ : TaskId) ∉ p.sched.reaperQueue.entries)
    (by decide +kernel)

end Processor

end CrapOs
