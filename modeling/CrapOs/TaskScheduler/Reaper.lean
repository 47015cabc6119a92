import CrapOs.TaskScheduler.Resume

/-! # The reaper

Every task that is `Dying` waits in the queue of the reaper and every task that is
`Dead` has a tombstone, as long as the queue of the reaper never overflows; it
holds 64 tasks, the table 256.
-/

namespace CrapOs

open Foundation

namespace Scheduler

variable {s s' : Scheduler} {a b : TaskId} {t : Task} {sym : Symbols}

structure Accounted (s : Scheduler) : Prop where
  dying : ∀ a, s.InState a .dying → a ∈ s.reaperQueue.entries
  dead : ∀ a, s.InState a .dead → a ∈ s.tombstoneQueue.entries

def NoNewEnding (t t' : Task) : Prop := t'.state.Ending → t.state = t'.state

theorem Undisturbed.noNewEnding (t t' : Task) (h : Undisturbed t t') : NoNewEnding t t' :=
  fun hend => (h.2 (.inr hend)).symm

namespace Accounted

theorem follows {D : TaskId → Prop} (h : Accounted s) (hfollow : Follows NoNewEnding D s s')
    (hreaper : ∀ a ∈ s.reaperQueue.entries, a ∈ s'.reaperQueue.entries)
    (htombs : ∀ a ∈ s.tombstoneQueue.entries, a ∈ s'.tombstoneQueue.entries) : Accounted s' where
  dying a ha := by
    obtain ⟨t', ht', hdying⟩ := ha
    obtain ⟨t, ht, hsame⟩ := hfollow.find_before ht'
    exact hreaper a (h.dying a ⟨t, ht, (hsame (.inl hdying)).trans hdying⟩)
  dead a ha := by
    obtain ⟨t', ht', hdead⟩ := ha
    obtain ⟨t, ht, hsame⟩ := hfollow.find_before ht'
    exact htombs a (h.dead a ⟨t, ht, (hsame (.inr hdead)).trans hdead⟩)

theorem kill (h : Accounted s) (ht : s.find a = some t) {queue : ReaperQueue} {force : Bool}
    (hqueue : queue.entries = s.reaperQueue.entries ++ [a]) :
    Accounted { s.setStates a t.thread .dying .dying with
      reaperQueue := queue, forceReschedule := force } where
  dying b hb := by
    show b ∈ queue.entries
    rw [hqueue, List.mem_append, List.mem_singleton]
    have hstate := (inState_setStates ht t.thread .dying .dying .dying).mp hb
    by_cases hba : b = a
    · exact .inr hba
    · rw [if_neg hba] at hstate
      exact .inl (h.dying b hstate)
  dead b hb := by
    have hstate := (inState_setStates ht t.thread .dying .dying .dead).mp hb
    by_cases hba : b = a
    · rw [if_pos hba] at hstate
      cases hstate
    · rw [if_neg hba] at hstate
      exact h.dead b hstate

theorem killCurrentTask (h : Accounted s) (hroom : s.reaperQueue.entries.length < 64) :
    Accounted s.killCurrentTask := by
  cases ht : s.find s.current with
  | none =>
    rw [Scheduler.killCurrentTask, ht]
    exact h
  | some t =>
    obtain ⟨queue, heq, hqueue⟩ :=
      (s.setStates s.current t.thread .dying .dying).queueTaskReaper_eq s.current
    rw [killCurrentTask_eq ht, heq]
    rcases hqueue with hqueue | ⟨-, hfull⟩
    · exact h.kill ht hqueue
    · exact absurd hfull (Nat.ne_of_lt hroom)

theorem killTask (h : Accounted s) (hroom : s.reaperQueue.entries.length < 64) (arg : Nat) :
    Accounted (s.killTask arg) ∧
      (s.killTask arg).reaperQueue.entries.length = s.reaperQueue.entries.length + 1 := by
  cases ht : s.find (.expandTaskId arg) with
  | none =>
    obtain ⟨queue, heq, hqueue⟩ := s.queueTaskReaper_eq (.expandTaskId arg)
    rw [Scheduler.killTask, ht]
    rw [heq]
    rcases hqueue with hqueue | ⟨-, hfull⟩
    · refine ⟨h.follows (D := fun _ => False) (.of_find (fun _ _ => rfl) fun _ => rfl)
        (fun a ha => ?_) fun _ => id, ?_⟩
      · rw [hqueue]
        exact List.mem_append_left _ ha
      · show queue.entries.length = _
        rw [hqueue, List.length_append]
        rfl
    · exact absurd hfull (Nat.ne_of_lt hroom)
  | some t =>
    obtain ⟨queue, heq, hqueue⟩ := killTask_eq ht
    rw [heq]
    rcases hqueue with hqueue | ⟨-, hfull⟩
    · refine ⟨h.kill ht hqueue, ?_⟩
      show queue.entries.length = _
      rw [hqueue, List.length_append]
      rfl
    · exact absurd hfull (Nat.ne_of_lt hroom)

theorem drainSystemTasks (h : Accounted s)
    (hroom : s.reaperQueue.entries.length + s.systemTasks.entries.length ≤ 64) :
    Accounted s.drainSystemTasks := by
  refine (drainLoop_inv (P := fun s => Accounted s ∧
    s.reaperQueue.entries.length + s.systemTasks.entries.length ≤ 64) ?_ _ ⟨h, hroom⟩).1
  rintro s arg queue ⟨h, hroom⟩ hpop
  have hlen := congrArg List.length (RingBuffer.entries_pop hpop)
  rw [List.length_cons] at hlen
  have hpopped : Accounted { s with systemTasks := queue } :=
    h.follows (D := fun _ => False) (.of_find (fun _ _ => rfl) fun _ => rfl) (fun _ => id) fun _ => id
  obtain ⟨hkilled, hmore⟩ := hpopped.killTask (by show s.reaperQueue.entries.length < 64; omega) arg
  obtain ⟨global, threads, reaperQueue, force, heq⟩ :=
    killTask_frame { s with systemTasks := queue } arg
  refine ⟨hkilled, ?_⟩
  rw [hmore, heq]
  show s.reaperQueue.entries.length + 1 + queue.entries.length ≤ 64
  omega

theorem removeTask (h : Accounted s) {queue : TombstoneQueue}
    (hentries : s.tombstoneQueue.entries = a :: queue.entries) :
    Accounted ({ s with tombstoneQueue := queue }.removeTask a) := by
  obtain ⟨global, threads, heq⟩ := removeTask_frame { s with tombstoneQueue := queue } a
  have hstate : ∀ {b x}, ({ s with tombstoneQueue := queue }.removeTask a).InState b x →
      b ≠ a ∧ s.InState b x := by
    rintro b x ⟨t, ht, hx⟩
    rw [find_removeTask] at ht
    split at ht
    · cases ht
    · rename_i hb
      exact ⟨hb, t, ht, hx⟩
  have hreaper : ({ s with tombstoneQueue := queue }.removeTask a).reaperQueue = s.reaperQueue := by
    rw [heq]
  have htombs : ({ s with tombstoneQueue := queue }.removeTask a).tombstoneQueue = queue := by
    rw [heq]
  refine ⟨fun b hb => ?_, fun b hb => ?_⟩
  · rw [hreaper]
    exact h.dying b (hstate hb).2
  · rw [htombs]
    obtain ⟨hne, hdead⟩ := hstate hb
    have hmem := h.dead b hdead
    rw [hentries, List.mem_cons] at hmem
    exact hmem.resolve_left hne

theorem tombstoneCleanup (h : Accounted s) : Accounted s.tombstoneCleanup :=
  tombstoneLoop_inv (fun _ _ _ hs hpop => hs.removeTask (RingBuffer.entries_pop hpop)) _ h

/-- The reaper gives the next task a tombstone. -/
theorem reapTask (h : Accounted s) {queue : ReaperQueue}
    (hentries : s.reaperQueue.entries = a :: queue.entries)
    (hroom : s.tombstoneQueue.entries.length + s.reaperQueue.entries.length ≤ 64) :
    Accounted ({ s with reaperQueue := queue }.reapTask a) ∧
      ({ s with reaperQueue := queue }.reapTask a).tombstoneQueue.entries.length +
        queue.entries.length ≤ 64 := by
  have hlen := congrArg List.length hentries
  rw [List.length_cons] at hlen
  have hrest : ∀ b, b ≠ a → s.InState b .dying → b ∈ queue.entries := by
    intro b hb hdying
    have hmem := h.dying b hdying
    rw [hentries, List.mem_cons] at hmem
    exact hmem.resolve_left hb
  -- unless the task is dying, taking it off the queue loses nothing
  have hskip : ¬ s.InState a .dying → Accounted { s with reaperQueue := queue } := by
    refine fun hnot => ⟨fun b hb => hrest b ?_ hb, h.dead⟩
    rintro rfl
    exact hnot hb
  rw [Scheduler.reapTask]
  cases ht : ({ s with reaperQueue := queue } : Scheduler).find a with
  | none =>
    refine ⟨hskip ?_, by show s.tombstoneQueue.entries.length + _ ≤ 64; omega⟩
    rintro ⟨t, ht', -⟩
    cases ht.symm.trans ht'
  | some t =>
    by_cases hdying : t.state = .dying
    · simp only [hdying, if_true]
      obtain ⟨tombs, hpush, htombs⟩ := s.tombstoneQueue.pushOr_of_room ReaperError.tombstoneQueueFull
        (by show _ < 64; omega) a
      have hpush' : (({ s with reaperQueue := queue } : Scheduler).modifyTask a
          ({ · with state := .dead })).tombstoneQueue.push a = .ok tombs := hpush
      rw [hpush']
      have hstate : ∀ {b x}, (s.modifyTask a ({ · with state := .dead })).InState b x →
          b = a ∧ x = .dead ∨ b ≠ a ∧ s.InState b x := by
        rintro b x ⟨u, hu, hx⟩
        rw [find_modifyTask] at hu
        split at hu
        · rename_i hb
          obtain ⟨v, -, rfl⟩ := Option.map_eq_some_iff.mp hu
          exact .inl ⟨hb, hx.symm⟩
        · rename_i hb
          exact .inr ⟨hb, u, hu, hx⟩
      refine ⟨⟨fun b hb => ?_, fun b hb => ?_⟩, ?_⟩
      · rcases hstate hb with ⟨-, hx⟩ | ⟨hne, hb'⟩
        · cases hx
        · exact hrest b hne hb'
      · show b ∈ tombs.entries
        rw [htombs, List.mem_append, List.mem_singleton]
        rcases hstate hb with ⟨rfl, -⟩ | ⟨-, hb'⟩
        · exact .inr rfl
        · exact .inl (h.dead b hb')
      · show tombs.entries.length + _ ≤ 64
        rw [htombs, List.length_append, List.length_singleton]
        omega
    · simp only [hdying, if_false]
      refine ⟨hskip ?_, by show s.tombstoneQueue.entries.length + _ ≤ 64; omega⟩
      rintro ⟨u, hu, hstate⟩
      cases ht.symm.trans hu
      exact hdying hstate

theorem reapDyingTasks (h : Accounted s) (hempty : s.tombstoneQueue.entries = []) :
    Accounted s.reapDyingTasks := by
  have hroom : s.tombstoneQueue.entries.length + s.reaperQueue.entries.length ≤ 64 := by
    rw [hempty]
    have := s.reaperQueue.entries_length_le
    simpa using this
  refine (reapLoop_inv (P := fun s => Accounted s ∧
    s.tombstoneQueue.entries.length + s.reaperQueue.entries.length ≤ 64) ?_ _ ⟨h, hroom⟩).1
  rintro s a queue ⟨h, hroom⟩ hpop
  obtain ⟨hreaped, hless⟩ := h.reapTask (RingBuffer.entries_pop hpop) hroom
  obtain ⟨global, tombs, heq⟩ := reapTask_frame { s with reaperQueue := queue } a
  refine ⟨hreaped, ?_⟩
  rw [heq] at hless ⊢
  exact hless

end Accounted

/-! ## What a timer interrupt leaves behind -/

def EndingStays (t t' : Task) : Prop := t.state.Ending → t'.state.Ending

def CurrentSafe (s : Scheduler) : Prop :=
  ∀ t, s.find s.current = some t → t.state.Ending → s.current = .idle

def CurrentMarked (s : Scheduler) : Prop :=
  ∀ t, s.find s.current = some t → t.state.Ending → s.current = .idle ∨ s.forceReschedule = true

theorem CurrentSafe.follows {D : TaskId → Prop} (h : CurrentSafe s) (hcurrent : s'.current = s.current)
    (hfollow : Follows NoNewEnding D s s') : CurrentSafe s' := by
  intro t' ht' hend
  obtain ⟨t, ht, hsame⟩ := hfollow.find_before ht'
  rw [hcurrent] at ht ⊢
  exact h t ht ((hsame hend).symm ▸ hend)

theorem CurrentMarked.killTask (h : CurrentMarked s) (arg : Nat) : CurrentMarked (s.killTask arg) := by
  cases ht : s.find (.expandTaskId arg) with
  | none =>
    obtain ⟨queue, heq, -⟩ := s.queueTaskReaper_eq (.expandTaskId arg)
    rw [Scheduler.killTask, ht]
    rw [heq]
    exact h
  | some t =>
    obtain ⟨queue, heq, -⟩ := killTask_eq ht
    rw [heq]
    intro u hu hend
    by_cases hcurrent : .expandTaskId arg = s.current
    · exact .inr (if_pos hcurrent)
    · have hfind : (s.setStates (.expandTaskId arg) t.thread .dying .dying).find s.current = some u := hu
      rw [find_setStates, if_neg (fun heq => hcurrent heq.symm)] at hfind
      refine (h u hfind hend).imp id fun hforce => ?_
      show (if .expandTaskId arg = s.current then true else s.forceReschedule) = true
      rw [if_neg hcurrent]
      exact hforce

theorem CurrentMarked.removeTask (h : CurrentMarked s) (queue : TombstoneQueue) (a : TaskId) :
    CurrentMarked ({ s with tombstoneQueue := queue }.removeTask a) := by
  obtain ⟨global, threads, heq⟩ := removeTask_frame { s with tombstoneQueue := queue } a
  intro t ht hend
  rw [find_removeTask] at ht
  split at ht
  · cases ht
  · rw [heq] at ht ⊢
    exact h t ht hend

theorem CurrentMarked.reapTask (h : CurrentMarked s) (queue : ReaperQueue) (a : TaskId) :
    CurrentMarked ({ s with reaperQueue := queue }.reapTask a) := by
  have hfollow : Follows Mirrored (fun _ => False) { s with reaperQueue := queue }
      ({ s with reaperQueue := queue }.reapTask a) :=
    .reapTask (fun _ => ⟨rfl, id⟩) fun _ hdying => ⟨rfl, fun _ => .inl hdying⟩
  obtain ⟨global, tombs, heq⟩ := reapTask_frame { s with reaperQueue := queue } a
  rw [heq] at hfollow ⊢
  intro t' ht' hend
  obtain ⟨t, ht, -, hback⟩ := hfollow.find_before ht'
  exact h t ht (hback hend)

theorem tombstoneCleanup_find (s : Scheduler) (ha : a ∈ s.tombstoneQueue.entries) :
    s.tombstoneCleanup.find a = none := by
  have hinv : a ∈ s.tombstoneCleanup.tombstoneQueue.entries ∨ s.tombstoneCleanup.find a = none := by
    refine tombstoneLoop_inv (P := fun s => a ∈ s.tombstoneQueue.entries ∨ s.find a = none) ?_ _ (.inl ha)
    intro s b queue h hpop
    obtain ⟨global, threads, heq⟩ := removeTask_frame { s with tombstoneQueue := queue } b
    have hfind := find_removeTask { s with tombstoneQueue := queue } b a
    by_cases hab : a = b
    · rw [if_pos hab] at hfind
      exact .inr hfind
    · rw [if_neg hab] at hfind
      rcases h with hmem | hnone
      · rw [RingBuffer.entries_pop hpop, List.mem_cons] at hmem
        rw [heq]
        exact .inl (hmem.resolve_left hab)
      · exact .inr (hfind.trans hnone)
  rcases hinv with hmem | hnone
  · rw [tombstoneCleanup_empty] at hmem
    cases hmem
  · exact hnone

structure Settled (s0 s : Scheduler) (should : Bool) : Prop where
  accounted : Accounted s
  /-- no task is left `Dying` -/
  reaped : s.reaperQueue.entries = []
  /-- tasks with a tombstone are gone -/
  removed : ∀ a ∈ s0.tombstoneQueue.entries, s.find a = none
  ending : Follows EndingStays (fun _ => True) s0 s
  marked : ∀ t, s.find s.current = some t → t.state.Ending → s.current = .idle ∨ should = true

theorem settled_timerWork (h : Accounted s) (hsafe : CurrentSafe s)
    (hroom : s.reaperQueue.entries.length + s.systemTasks.entries.length ≤ 64) :
    Settled s s.timerWork.2 s.timerWork.1 := by
  have htrans : ∀ t t' t'', EndingStays t t' → EndingStays t' t'' → EndingStays t t'' :=
    fun _ _ _ h h' hend => h' (h hend)
  have hcalm := s.follows_onTimerTick
  obtain ⟨global1, threads1, queue1, sleep1, ticks1, heq1⟩ := s.onTimerTick_frame
  have hreaper1 : s.onTimerTick.2.reaperQueue = s.reaperQueue := by rw [heq1]
  have htombs1 : s.onTimerTick.2.tombstoneQueue = s.tombstoneQueue := by rw [heq1]
  have hsystem1 : s.onTimerTick.2.systemTasks = s.systemTasks := by rw [heq1]
  have hcurrent1 : s.onTimerTick.2.current = s.current := by rw [heq1]
  rw [timerWork]
  generalize s.onTimerTick = r at *
  obtain ⟨should, s1⟩ := r
  dsimp only at *
  have hold : Follows NoNewEnding (fun _ => False) s s1 := hcalm.mono Undisturbed.noNewEnding fun _ => id
  have hacc1 : Accounted s1 := h.follows hold (by rw [hreaper1]; exact fun _ => id)
    (by rw [htombs1]; exact fun _ => id)
  have hmarked1 : CurrentMarked s1 := fun t ht hend => .inl (hsafe.follows hcurrent1 hold t ht hend)
  have hending1 : Follows EndingStays (fun _ => True) s s1 := hcalm.mono
    (fun _ _ h hend => (h.2 (.inl hend)).symm ▸ hend) fun _ => False.elim
  -- the requests
  have hacc2 : Accounted s1.drainSystemTasks :=
    hacc1.drainSystemTasks (by rw [hreaper1, hsystem1]; exact hroom)
  have hmarked2 : CurrentMarked s1.drainSystemTasks :=
    drainLoop_inv (P := CurrentMarked)
      (fun s arg queue hs _ => CurrentMarked.killTask (s := { s with systemTasks := queue }) hs arg) _
      hmarked1
  have hending2 : Follows EndingStays (fun _ => True) s1 s1.drainSystemTasks :=
    drainLoop_inv (P := Follows EndingStays (fun _ => True) s1)
      (fun s arg queue hs _ => hs.trans htrans (.killTask (s := { s with systemTasks := queue }) (fun _ => id) (fun _ _ => .inl rfl) arg)) _
      (.of_find (fun _ => id) fun _ => rfl)
  obtain ⟨global2, threads2, reaper2, force2, system2, heq2⟩ := s1.drainSystemTasks_frame
  have htombs2 : s1.drainSystemTasks.tombstoneQueue = s.tombstoneQueue := by
    rw [heq2]
    exact htombs1
  generalize s1.drainSystemTasks = s2 at *
  -- the tombstones
  have hacc3 := hacc2.tombstoneCleanup
  have hmarked3 : CurrentMarked s2.tombstoneCleanup :=
    tombstoneLoop_inv (P := CurrentMarked) (fun _ a queue hs _ => hs.removeTask queue a) _ hmarked2
  have hending3 : Follows EndingStays (fun _ => True) s2 s2.tombstoneCleanup :=
    tombstoneLoop_inv (P := Follows EndingStays (fun _ => True) s2)
      (fun s a queue hs _ => hs.trans htrans
        (Follows.removeTask (s := { s with tombstoneQueue := queue }) (fun _ => id) trivial)) _
      (.of_find (fun _ => id) fun _ => rfl)
  have hgone : ∀ a ∈ s.tombstoneQueue.entries, s2.tombstoneCleanup.find a = none :=
    fun a ha => s2.tombstoneCleanup_find (htombs2 ▸ ha)
  have hempty := s2.tombstoneCleanup_empty
  generalize s2.tombstoneCleanup = s3 at *
  -- the reaper
  have hacc4 := hacc3.reapDyingTasks hempty
  have hmarked4 : CurrentMarked s3.reapDyingTasks :=
    reapLoop_inv (P := CurrentMarked) (fun _ a queue hs _ => hs.reapTask queue a) _ hmarked3
  have hending4 : Follows EndingStays (fun _ => False) s3 s3.reapDyingTasks :=
    reapLoop_inv (P := Follows EndingStays (fun _ => False) s3)
      (fun s a queue hs _ => hs.trans htrans
        (.reapTask (s := { s with reaperQueue := queue }) (fun _ => id) fun _ _ _ => .inr rfl)) _
      (.of_find (fun _ => id) fun _ => rfl)
  have hreaped := s3.reapDyingTasks_empty
  refine ⟨⟨hacc4.dying, hacc4.dead⟩, hreaped, ?_, ?_, ?_⟩
  · exact fun a ha => hending4.find_none (hgone a ha)
  · exact ((hending1.trans htrans hending2).trans htrans hending3).trans htrans
      (hending4.mono (fun _ _ => id) fun _ => False.elim)
  · intro t ht hend
    refine (hmarked4 t ht hend).imp id fun hforce => ?_
    rw [hforce, Bool.or_true]

theorem currentSafe_schedule {args : Option SwitchArgs} (hok : s.schedule sym = .ok (args, s'))
    (rsp : Nat) : CurrentSafe s' ∧ ∀ x, CurrentSafe (s'.switched s.current rsp x) := by
  have hsafe : CurrentSafe s' := by
    obtain ⟨nextId, s1, s2, next, hchosen, hrequeued, hnext, rfl, -⟩ := schedule_ok hok
    intro t ht hend
    cases hnext.symm.trans ht
    have hfollow : Follows Shuffled (fun _ => False) s1 s2 := allowsSwitch_shuffled.requeued hrequeued
    obtain ⟨u, hu, hshuffled⟩ := hfollow.find_before hnext
    have hend' := hshuffled.mirrored.2 hend
    cases hchosen with
    | ready _ _ hready _ =>
      obtain ⟨v, hv, -⟩ := hready
      rw [find_modifyTask, if_pos rfl, show Scheduler.find _ nextId = some v from hv] at hu
      cases hu
      exact absurd hend' (TaskState.Runnable.not_ending (.inr rfl))
    | idle => rfl
  refine ⟨hsafe, fun x => hsafe.follows (D := fun _ => False) rfl ?_⟩
  exact follows_switched (fun _ _ => rfl) (fun _ _ _ => rfl) s' s.current rsp x

end Scheduler

end CrapOs
