import CrapOs.TaskScheduler.Processor

/-! # The life of a task

Tasks and threads refer to each other, a task that ends goes through `Dying` and
`Dead` and is then removed, and the idle task stays. All of this holds as long as
nobody calls `exit_thread` on the idle thread.
-/

namespace CrapOs

open Foundation

namespace TaskState

def Runnable (x : TaskState) : Prop := x = .ready ∨ x = .running

def Ending (x : TaskState) : Prop := x = .dying ∨ x = .dead

theorem Runnable.not_ending {x : TaskState} (h : x.Runnable) : ¬ x.Ending := by
  rcases h with rfl | rfl <;> simp [Ending]

end TaskState

namespace Scheduler

variable {s s' : Scheduler} {t : Task} {a : TaskId} {sym : Symbols}

/-- A task's thread knows its id, and a task that ends has marked its thread. -/
structure Linked (s : Scheduler) : Prop where
  thread_task : ∀ {a t}, s.find a = some t → (s.threads t.thread).taskId = some a
  task_thread : ∀ {u a}, (s.threads u).taskId = some a → ∃ t, s.find a = some t ∧ t.thread = u
  ending : ∀ {a t}, s.find a = some t → t.state.Ending → (s.threads t.thread).state = .dying

def Shuffled (t t' : Task) : Prop :=
  t'.thread = t.thread ∧ (t'.state = t.state ∨ t.state.Runnable ∧ t'.state.Runnable)

theorem allowsSwitch_shuffled : AllowsSwitch Shuffled where
  refl _ := ⟨rfl, .inl rfl⟩
  trans := by
    rintro t t' t'' ⟨hthread, hstate⟩ ⟨hthread', hstate'⟩
    refine ⟨hthread'.trans hthread, ?_⟩
    rcases hstate with heq | ⟨hrun, hrun'⟩
    · rw [← heq]
      exact hstate'
    · refine .inr ⟨hrun, ?_⟩
      rcases hstate' with heq' | ⟨-, hrun''⟩
      · rw [heq']
        exact hrun'
      · exact hrun''
  select _ h := ⟨rfl, .inr ⟨.inl h, .inr rfl⟩⟩
  requeue _ h := ⟨rfl, .inr ⟨.inr h, .inl rfl⟩⟩

def Mirrored (t t' : Task) : Prop := t'.thread = t.thread ∧ (t'.state.Ending → t.state.Ending)

theorem Shuffled.mirrored {t t' : Task} (h : Shuffled t t') : Mirrored t t' := by
  refine ⟨h.1, fun hend => ?_⟩
  rcases h.2 with heq | ⟨-, hrun⟩
  · rwa [← heq]
  · exact absurd hend hrun.not_ending

namespace Linked

theorem thread_inj (h : Linked s) {b : TaskId} {u : Task} (ht : s.find a = some t)
    (hu : s.find b = some u) (heq : t.thread = u.thread) : a = b := by
  have hb := h.thread_task hu
  rw [← heq, h.thread_task ht] at hb
  exact Option.some.inj hb

theorem follows (h : Linked s) (hthreads : s'.threads = s.threads)
    (hfollow : Follows Mirrored (fun _ => False) s s') : Linked s' where
  thread_task hfind := by
    obtain ⟨t, ht, hthread, -⟩ := hfollow.find_before hfind
    rw [hthreads, hthread]
    exact h.thread_task ht
  task_thread htask := by
    rw [hthreads] at htask
    obtain ⟨t, ht, hthread⟩ := h.task_thread htask
    obtain ⟨t', ht', hthread', -⟩ := hfollow.find_after ht not_false
    exact ⟨t', ht', hthread'.trans hthread⟩
  ending hfind hend := by
    obtain ⟨t, ht, hthread, hstate⟩ := hfollow.find_before hfind
    rw [hthreads, hthread]
    exact h.ending ht (hstate hend)

theorem setStates (h : Linked s) (ht : s.find a = some t) {x : TaskState} {y : ThreadState}
    (hxy : x.Ending → y = .dying) : Linked (s.setStates a t.thread x y) := by
  have htaskId : ∀ u, ((s.setStates a t.thread x y).threads u).taskId = (s.threads u).taskId := by
    intro u
    rw [threads_setStates]
    split <;> rfl
  refine ⟨?_, ?_, ?_⟩
  · intro b u hfind
    rw [htaskId]
    rw [find_setStates] at hfind
    by_cases hb : b = a
    · subst hb
      rw [if_pos rfl, ht] at hfind
      cases hfind
      show (s.threads t.thread).taskId = some b
      exact h.thread_task ht
    · rw [if_neg hb] at hfind
      exact h.thread_task hfind
  · intro u b htask
    rw [htaskId] at htask
    obtain ⟨v, hv, hthread⟩ := h.task_thread htask
    rw [find_setStates]
    by_cases hb : b = a
    · subst hb
      exact ⟨{ v with state := x }, by rw [if_pos rfl, hv]; rfl, hthread⟩
    · exact ⟨v, by rw [if_neg hb, hv], hthread⟩
  · intro b u hfind hend
    rw [find_setStates] at hfind
    rw [threads_setStates]
    by_cases hb : b = a
    · subst hb
      rw [if_pos rfl, ht] at hfind
      cases hfind
      rw [if_pos rfl]
      exact hxy hend
    · rw [if_neg hb] at hfind
      have hne : u.thread ≠ t.thread := fun heq => hb (h.thread_inj hfind ht heq)
      rw [if_neg hne]
      exact h.ending hfind hend

theorem removeTask (h : Linked s) (ht : s.find a = some t) : Linked (s.removeTask a) := by
  have hthreads : ∀ u, (s.removeTask a).threads u =
      if u = t.thread then { s.threads u with taskId := none, state := .dead } else s.threads u := by
    intro u
    by_cases hu : u = t.thread
    · simp [Scheduler.removeTask, ht, modifyThread, hu]
    · simp [Scheduler.removeTask, ht, modifyThread, hu]
  have hother : ∀ {b u}, (s.removeTask a).find b = some u → s.find b = some u ∧ u.thread ≠ t.thread := by
    intro b u hfind
    rw [find_removeTask] at hfind
    by_cases hb : b = a
    · rw [if_pos hb] at hfind
      cases hfind
    · rw [if_neg hb] at hfind
      exact ⟨hfind, fun heq => hb (h.thread_inj hfind ht heq)⟩
  refine ⟨?_, ?_, ?_⟩
  · intro b u hfind
    obtain ⟨hu, hne⟩ := hother hfind
    rw [hthreads, if_neg hne]
    exact h.thread_task hu
  · intro u b htask
    rw [hthreads] at htask
    by_cases hu : u = t.thread
    · rw [if_pos hu] at htask
      cases htask
    · rw [if_neg hu] at htask
      obtain ⟨v, hv, hthread⟩ := h.task_thread htask
      have hb : b ≠ a := by
        rintro rfl
        rw [ht] at hv
        cases hv
        exact hu hthread.symm
      refine ⟨v, ?_, hthread⟩
      rw [find_removeTask, if_neg hb, hv]
  · intro b u hfind hend
    obtain ⟨hu, hne⟩ := hother hfind
    rw [hthreads, if_neg hne]
    exact h.ending hu hend

end Linked

/-! ## The scheduler in order -/

/-- Tasks with a tombstone are dead, the idle task can run, and the current task exists. -/
structure Orderly (s : Scheduler) : Prop where
  linked : Linked s
  tombs : ∀ a ∈ s.tombstoneQueue.entries, s.InState a .dead
  nodup : s.tombstoneQueue.entries.Nodup
  idle : ∃ t, s.find .idle = some t ∧ t.thread = 0 ∧ t.state.Runnable
  current : ∃ t, s.find s.current = some t

/-- Every pending request to kill names a task that is not dead yet, and not the idle task. -/
def Requests (s : Scheduler) : Prop :=
  ∀ arg ∈ s.systemTasks.entries, ∃ t, s.find (.expandTaskId arg) = some t ∧ t.state ≠ .dead ∧
    TaskId.expandTaskId arg ≠ .idle

namespace Orderly

theorem congr (h : Orderly s) (hglobal : s'.global = s.global) (hthreads : s'.threads = s.threads)
    (htombs : s'.tombstoneQueue = s.tombstoneQueue) (hcurrent : s'.current = s.current) :
    Orderly s' := by
  have hfind : ∀ a, s'.find a = s.find a := fun a => congrArg (·.getTask a) hglobal
  have hfollow : Follows Shuffled (fun _ => False) s s' := .of_find allowsSwitch_shuffled.refl hfind
  refine ⟨h.linked.follows hthreads (hfollow.mono (fun _ _ => Shuffled.mirrored) fun _ => id),
    ?_, ?_, ?_, ?_⟩
  · rw [htombs]
    intro a ha
    obtain ⟨t, ht, hstate⟩ := h.tombs a ha
    exact ⟨t, (hfind a).trans ht, hstate⟩
  · rw [htombs]
    exact h.nodup
  · obtain ⟨t, ht, hrest⟩ := h.idle
    exact ⟨t, (hfind _).trans ht, hrest⟩
  · obtain ⟨t, ht⟩ := h.current
    exact ⟨t, by rw [hcurrent, hfind, ht]⟩

theorem idle_not_dead (h : Orderly s) (ha : s.InState a .dead) : a ≠ .idle := by
  rintro rfl
  obtain ⟨t, ht, -, hrun⟩ := h.idle
  obtain ⟨u, hu, hdead⟩ := ha
  rw [ht] at hu
  cases hu
  exact hrun.not_ending (.inr hdead)

theorem follows (h : Orderly s) (hthreads : s'.threads = s.threads)
    (htombs : s'.tombstoneQueue = s.tombstoneQueue)
    (hfollow : Follows Shuffled (fun _ => False) s s') (hcurrent : ∃ t, s'.find s'.current = some t) :
    Orderly s' := by
  refine ⟨h.linked.follows hthreads (hfollow.mono (fun _ _ => Shuffled.mirrored) fun _ => id),
    ?_, ?_, ?_, hcurrent⟩
  · rw [htombs]
    intro a ha
    obtain ⟨t, ht, hdead⟩ := h.tombs a ha
    obtain ⟨t', ht', -, hstate⟩ := hfollow.find_after ht not_false
    refine ⟨t', ht', ?_⟩
    rcases hstate with heq | ⟨hrun, -⟩
    · rw [heq, hdead]
    · exact absurd (.inr hdead) hrun.not_ending
  · rw [htombs]
    exact h.nodup
  · obtain ⟨t, ht, hzero, hrun⟩ := h.idle
    obtain ⟨t', ht', hthread, hstate⟩ := hfollow.find_after ht not_false
    refine ⟨t', ht', hthread.trans hzero, ?_⟩
    rcases hstate with heq | ⟨-, hrun'⟩
    · rwa [heq]
    · exact hrun'

theorem setStates (h : Orderly s) (ht : s.find a = some t) {x : TaskState} {y : ThreadState}
    (hxy : x.Ending → y = .dying) (hlive : t.state ≠ .dead) (hidle : a ≠ .idle) :
    Orderly (s.setStates a t.thread x y) := by
  have hother : ∀ b, b ≠ a → (s.setStates a t.thread x y).find b = s.find b := by
    intro b hb
    rw [find_setStates, if_neg hb]
  refine ⟨h.linked.setStates ht hxy, ?_, h.nodup, ?_, ?_⟩
  · intro b hb
    obtain ⟨u, hu, hdead⟩ := h.tombs b hb
    have hne : b ≠ a := by
      rintro rfl
      rw [ht] at hu
      cases hu
      exact hlive hdead
    exact ⟨u, (hother b hne).trans hu, hdead⟩
  · obtain ⟨u, hu, hrest⟩ := h.idle
    exact ⟨u, (hother _ hidle.symm).trans hu, hrest⟩
  · obtain ⟨u, hu⟩ := h.current
    show ∃ v, (s.setStates a t.thread x y).find s.current = some v
    rw [find_setStates, hu]
    split
    · exact ⟨_, rfl⟩
    · exact ⟨u, rfl⟩

theorem wake (h : Orderly s) (a : TaskId) : Orderly (s.wake a).2 := by
  have hwoken := s.wake_woken a
  have hset : ∀ {task : Task}, s.find a = some task → task.state = .blocked →
      Orderly (s.setStates a task.thread .ready .active) := by
    intro task hfind hblocked
    refine h.setStates hfind (fun hend => ?_) ?_ ?_
    · rcases hend with h | h <;> cases h
    · rw [hblocked]
      decide
    · rintro rfl
      obtain ⟨t, ht, -, hrun⟩ := h.idle
      rw [hfind] at ht
      cases ht
      rcases hrun with hrun | hrun <;> rw [hblocked] at hrun <;> cases hrun
  generalize (s.wake a).2 = s' at hwoken ⊢
  cases hwoken with
  | idle => exact h
  | queued hfind hblocked => exact (hset hfind hblocked).congr rfl rfl rfl rfl
  | full hfind hblocked => exact hset hfind hblocked

theorem modifyTask (h : Orderly s) (a : TaskId) {f : Task → Task}
    (hf : ∀ t, (f t).thread = t.thread ∧ (f t).state = t.state) : Orderly (s.modifyTask a f) := by
  have hfollow : Follows Shuffled (fun _ => False) s (s.modifyTask a f) :=
    .modifyTask allowsSwitch_shuffled.refl fun t _ => ⟨(hf t).1, .inl (hf t).2⟩
  refine h.follows rfl rfl hfollow ?_
  obtain ⟨t, ht⟩ := h.current
  obtain ⟨t', ht', -⟩ := hfollow.find_after ht not_false
  exact ⟨t', ht'⟩

theorem onTimerTick (h : Orderly s) : Orderly s.onTimerTick.2 :=
  onTimerTick_inv (fun _ a hs => hs.wake a) (fun _ _ hs => hs.congr rfl rfl rfl rfl)
    (fun s hs => hs.modifyTask s.current fun _ => ⟨rfl, rfl⟩) (fun _ _ hs => hs.congr rfl rfl rfl rfl) h

theorem removeTask (h : Orderly s) {queue : TombstoneQueue}
    (hentries : s.tombstoneQueue.entries = a :: queue.entries) (hcurrent : s.current ≠ a) :
    Orderly ({ s with tombstoneQueue := queue }.removeTask a) := by
  obtain ⟨t, ht, hdead⟩ := h.tombs a (hentries ▸ List.mem_cons_self)
  have hidle := h.idle_not_dead ⟨t, ht, hdead⟩
  have hnodup := h.nodup
  rw [hentries, List.nodup_cons] at hnodup
  have hother : ∀ b, b ≠ a →
      ({ s with tombstoneQueue := queue }.removeTask a).find b = s.find b := by
    intro b hb
    rw [find_removeTask, if_neg hb]
  have hsame : ({ s with tombstoneQueue := queue }.removeTask a).tombstoneQueue = queue ∧
      ({ s with tombstoneQueue := queue }.removeTask a).current = s.current := by
    simp [Scheduler.removeTask, ht, modifyThread]
  have hlinked : Linked { s with tombstoneQueue := queue } :=
    h.linked.follows rfl (.of_find (fun _ => ⟨rfl, id⟩) fun _ => rfl)
  refine ⟨hlinked.removeTask ht, ?_, ?_, ?_, ?_⟩
  · rw [hsame.1]
    intro b hb
    obtain ⟨u, hu, hdead'⟩ := h.tombs b (hentries ▸ List.mem_cons_of_mem a hb)
    have hne : b ≠ a := fun heq => hnodup.1 (heq ▸ hb)
    exact ⟨u, (hother b hne).trans hu, hdead'⟩
  · rw [hsame.1]
    exact hnodup.2
  · obtain ⟨u, hu, hrest⟩ := h.idle
    exact ⟨u, (hother _ hidle.symm).trans hu, hrest⟩
  · obtain ⟨u, hu⟩ := h.current
    rw [hsame.2, hother _ hcurrent]
    exact ⟨u, hu⟩

theorem markDead (h : Orderly s) (ht : s.find a = some t) (hdying : t.state = .dying) :
    Orderly (s.modifyTask a ({ · with state := .dead })) := by
  have hother : ∀ b, b ≠ a → (s.modifyTask a ({ · with state := .dead })).find b = s.find b := by
    intro b hb
    rw [find_modifyTask, if_neg hb]
  have hfollow : Follows Mirrored (fun _ => False) s (s.modifyTask a ({ · with state := .dead })) := by
    refine .modifyTask (fun _ => ⟨rfl, id⟩) fun u hu => ⟨rfl, fun _ => ?_⟩
    rw [ht] at hu
    cases hu
    exact .inl hdying
  refine ⟨h.linked.follows rfl hfollow, ?_, h.nodup, ?_, ?_⟩
  · intro b hb
    obtain ⟨u, hu, hdead⟩ := h.tombs b hb
    have hne : b ≠ a := by
      rintro rfl
      rw [ht] at hu
      cases hu
      rw [hdying] at hdead
      cases hdead
    exact ⟨u, (hother b hne).trans hu, hdead⟩
  · obtain ⟨u, hu, hzero, hrun⟩ := h.idle
    have hne : .idle ≠ a := by
      rintro rfl
      rw [ht] at hu
      cases hu
      exact hrun.not_ending (.inl hdying)
    exact ⟨u, (hother _ hne).trans hu, hzero, hrun⟩
  · obtain ⟨u, hu⟩ := h.current
    obtain ⟨v, hv, -⟩ := hfollow.find_after hu not_false
    exact ⟨v, hv⟩

theorem bury (h : Orderly s) {queue : TombstoneQueue} (ha : s.InState a .dead)
    (hnew : a ∉ s.tombstoneQueue.entries) (hqueue : queue.entries = s.tombstoneQueue.entries ++ [a]) :
    Orderly { s with tombstoneQueue := queue } := by
  have hlinked : Linked { s with tombstoneQueue := queue } :=
    h.linked.follows rfl (.of_find (fun _ => ⟨rfl, id⟩) fun _ => rfl)
  refine ⟨hlinked, ?_, ?_, h.idle, h.current⟩
  · intro b hb
    rw [hqueue, List.mem_append, List.mem_singleton] at hb
    rcases hb with hb | rfl
    · exact h.tombs b hb
    · exact ha
  · rw [hqueue]
    exact List.nodup_append'.mpr ⟨h.nodup, List.nodup_singleton a, by simpa using hnew⟩

theorem reapTask (h : Orderly s) (a : TaskId) : Orderly (s.reapTask a) := by
  rw [Scheduler.reapTask]
  cases ht : s.find a with
  | none => exact h
  | some t =>
    by_cases hdying : t.state = .dying
    · simp only [hdying, if_true]
      have hdead := h.markDead ht hdying
      cases hpush : (s.modifyTask a ({ · with state := .dead })).tombstoneQueue.push a with
      | error => exact hdead
      | ok queue =>
        refine hdead.bury ?_ ?_ (RingBuffer.pushOr_ok hpush)
        · rw [InState, find_modifyTask, if_pos rfl, ht]
          exact ⟨_, rfl, rfl⟩
        · intro hmem
          obtain ⟨u, hu, hstate⟩ := h.tombs a hmem
          rw [ht] at hu
          cases hu
          rw [hdying] at hstate
          cases hstate
    · simp only [hdying, if_false]
      exact h

end Orderly

/-! ## A timer interrupt -/

def Ageing (t t' : Task) : Prop :=
  t'.thread = t.thread ∧ (t.state.Ending → t'.state = t.state ∨ t'.state = .dead)

theorem Ageing.refl (t : Task) : Ageing t t := ⟨rfl, fun _ => .inl rfl⟩

theorem Ageing.trans (t t' t'' : Task) (h : Ageing t t') (h' : Ageing t' t'') : Ageing t t'' := by
  refine ⟨h'.1.trans h.1, fun hend => ?_⟩
  rcases h.2 hend with heq | hdead
  · rw [← heq]
    exact h'.2 (heq ▸ hend)
  · rcases h'.2 (.inr hdead) with heq' | hdead'
    · exact .inr (heq'.trans hdead)
    · exact .inr hdead'

def Undisturbed (t t' : Task) : Prop :=
  t'.thread = t.thread ∧ (t.state.Ending ∨ t'.state.Ending → t'.state = t.state)

theorem Undisturbed.of_not_ending {t : Task} {x : TaskState} (ht : ¬ t.state.Ending)
    (hx : ¬ x.Ending) : Undisturbed t { t with state := x } :=
  ⟨rfl, fun h => (h.elim ht hx).elim⟩

theorem not_ending_blocked : ¬ TaskState.blocked.Ending := by
  rintro (h | h) <;> cases h

theorem Undisturbed.wake (t : Task) (h : t.state = .blocked) :
    Undisturbed t { t with state := .ready } :=
  .of_not_ending (h ▸ not_ending_blocked) (TaskState.Runnable.not_ending (.inl rfl))

theorem allowsSwitch_undisturbed : AllowsSwitch Undisturbed where
  refl _ := ⟨rfl, fun _ => rfl⟩
  trans := by
    rintro t t' t'' ⟨hthread, h⟩ ⟨hthread', h'⟩
    refine ⟨hthread'.trans hthread, ?_⟩
    rintro (hend | hend)
    · have heq := h (.inl hend)
      exact (h' (.inl (heq ▸ hend))).trans heq
    · have heq' := h' (.inr hend)
      exact heq'.trans (h (.inr (heq' ▸ hend)))
  select t h := .of_not_ending (TaskState.Runnable.not_ending (.inl h))
    (TaskState.Runnable.not_ending (.inr rfl))
  requeue t h := .of_not_ending (TaskState.Runnable.not_ending (.inr h))
    (TaskState.Runnable.not_ending (.inl rfl))

theorem Undisturbed.ageing (t t' : Task) (h : Undisturbed t t') : Ageing t t' :=
  ⟨h.1, fun hend => .inl (h.2 (.inl hend))⟩

theorem Linked.taskId_eq_none {D : TaskId → Prop} (h : Linked s) (h' : Linked s')
    (hfollow : Follows Ageing D s s') {u : ThreadId} (hnone : (s.threads u).taskId = none) :
    (s'.threads u).taskId = none := by
  cases htask : (s'.threads u).taskId with
  | none => rfl
  | some a =>
    obtain ⟨t', ht', hu⟩ := h'.task_thread htask
    obtain ⟨t, ht, hthread, -⟩ := hfollow.find_before ht'
    have hlink := h.thread_task ht
    rw [← hthread, hu, hnone] at hlink
    cases hlink

theorem follows_onTimerTick (s : Scheduler) : Follows Undisturbed (fun _ => False) s s.onTimerTick.2 := by
  have hR := allowsSwitch_undisturbed
  refine onTimerTick_inv (P := fun s' => Follows Undisturbed (fun _ => False) s s') ?_ ?_ ?_ ?_
    (.of_find hR.refl fun _ => rfl)
  · exact fun _ _ h => h.trans hR.trans (.wake hR.refl Undisturbed.wake)
  · exact fun _ _ h => h.trans hR.trans (.of_find hR.refl fun _ => rfl)
  · exact fun _ h => h.trans hR.trans (.modifyTask hR.refl fun _ _ => ⟨rfl, fun _ => rfl⟩)
  · exact fun _ _ h => h.trans hR.trans (.of_find hR.refl fun _ => rfl)

/-- The current task exists and has not ended, or is about to be switched away from. -/
def CurrentLive (s : Scheduler) : Prop :=
  ∃ t, s.find s.current = some t ∧ t.state ≠ .dead ∧ (t.state = .dying → s.forceReschedule = true)

theorem Requests.follows (h : Requests s) (hsame : s'.systemTasks = s.systemTasks)
    (hfollow : Follows Undisturbed (fun _ => False) s s') : Requests s' := by
  intro arg harg
  rw [hsame] at harg
  obtain ⟨t, ht, hlive, hidle⟩ := h arg harg
  obtain ⟨t', ht', hsafe⟩ := hfollow.find_after ht not_false
  refine ⟨t', ht', fun hdead => hlive ?_, hidle⟩
  rw [← hsafe.2 (.inr (.inr hdead)), hdead]

/-- Draining kills tasks that are not dead; the current one only with the order to
reschedule. -/
structure Drained (s0 s : Scheduler) : Prop where
  orderly : Orderly s
  requests : Requests s
  live : CurrentLive s
  follows : Follows Ageing (fun _ => False) s0 s

theorem Drained.killTask {s0 : Scheduler} (h : Drained s0 s) {arg : Nat} {queue : SystemTaskQueue}
    (hpop : s.systemTasks.pop = some (arg, queue)) :
    Drained s0 ({ s with systemTasks := queue }.killTask arg) := by
  have hentries := RingBuffer.entries_pop hpop
  obtain ⟨t, ht, hlive, hidle⟩ := h.requests arg (hentries ▸ List.mem_cons_self)
  have hfind : ({ s with systemTasks := queue } : Scheduler).find (.expandTaskId arg) = some t := ht
  obtain ⟨reaperQueue, heq, -⟩ := killTask_eq hfind
  have hfollow : Follows Ageing (fun _ => False) s
      (s.setStates (.expandTaskId arg) t.thread .dying .dying) := by
    refine .setStates Ageing.refl fun u hu => ⟨rfl, fun hend => .inl ?_⟩
    rw [ht] at hu
    cases hu
    rcases hend with hdying | hdead
    · exact hdying.symm
    · exact absurd hdead hlive
  rw [heq]
  refine ⟨?_, ?_, ?_, ?_⟩
  · exact (h.orderly.setStates ht (fun _ => rfl) hlive hidle).congr rfl rfl rfl rfl
  · intro arg' harg'
    obtain ⟨u, hu, hlive', hidle'⟩ := h.requests arg' (hentries ▸ List.mem_cons_of_mem arg harg')
    show ∃ v, (s.setStates (.expandTaskId arg) t.thread .dying .dying).find (.expandTaskId arg') = some v ∧ _
    rw [find_setStates, hu]
    split
    · exact ⟨_, rfl, nofun, hidle'⟩
    · exact ⟨u, rfl, hlive', hidle'⟩
  · obtain ⟨u, hu, hdead, hforce⟩ := h.live
    show ∃ v, (s.setStates (.expandTaskId arg) t.thread .dying .dying).find s.current = some v ∧
      v.state ≠ .dead ∧ (v.state = .dying →
        (if .expandTaskId arg = s.current then true else s.forceReschedule) = true)
    rw [find_setStates, hu]
    by_cases hcurrent : s.current = .expandTaskId arg
    · rw [if_pos hcurrent, if_pos hcurrent.symm]
      exact ⟨_, rfl, nofun, fun _ => rfl⟩
    · rw [if_neg hcurrent, if_neg (fun h => hcurrent h.symm)]
      exact ⟨u, rfl, hdead, hforce⟩
  · exact h.follows.trans Ageing.trans
      (hfollow.trans Ageing.trans (.of_find Ageing.refl fun _ => rfl))

/-- What the timer interrupt does before it may call `schedule`: only tasks with a tombstone are
removed, and a current task that ends is switched away from. -/
structure Ticked (s0 s : Scheduler) : Prop where
  orderly : Orderly s
  current : s.current = s0.current
  ending : ∀ t, s.find s.current = some t → t.state.Ending → s.forceReschedule = true
  follows : Follows Ageing (· ∈ s0.tombstoneQueue.entries) s0 s

theorem ticked_tombstoneCleanup (h : Orderly s) (hlive : CurrentLive s) :
    Ticked s s.tombstoneCleanup := by
  -- the tombstones still to come are among those there were
  have hinv : Orderly s.tombstoneCleanup ∧ CurrentLive s.tombstoneCleanup ∧
      (∀ a ∈ s.tombstoneCleanup.tombstoneQueue.entries, a ∈ s.tombstoneQueue.entries) ∧
      Follows Ageing (· ∈ s.tombstoneQueue.entries) s s.tombstoneCleanup := by
    refine tombstoneLoop_inv (P := fun s' => Orderly s' ∧ CurrentLive s' ∧
      (∀ a ∈ s'.tombstoneQueue.entries, a ∈ s.tombstoneQueue.entries) ∧
      Follows Ageing (· ∈ s.tombstoneQueue.entries) s s') ?_ _
      ⟨h, hlive, fun _ => id, .of_find Ageing.refl fun _ => rfl⟩
    rintro s' a queue ⟨ho, ⟨t, ht, hdead, hforce⟩, hsub, hfollow⟩ hpop
    have hentries := RingBuffer.entries_pop hpop
    have ha : a ∈ s'.tombstoneQueue.entries := hentries ▸ List.mem_cons_self
    have hne : s'.current ≠ a := by
      rintro rfl
      obtain ⟨u, hu, hstate⟩ := ho.tombs _ ha
      rw [ht] at hu
      cases hu
      exact hdead hstate
    obtain ⟨global, threads, heq⟩ := removeTask_frame { s' with tombstoneQueue := queue } a
    refine ⟨ho.removeTask hentries hne, ?_, ?_, ?_⟩
    · have hfind := find_removeTask { s' with tombstoneQueue := queue } a s'.current
      rw [if_neg hne] at hfind
      rw [heq] at hfind ⊢
      exact ⟨t, hfind.trans ht, hdead, hforce⟩
    · rw [heq]
      intro b hb
      exact hsub b (hentries ▸ List.mem_cons_of_mem a hb)
    · refine hfollow.trans Ageing.trans ?_
      exact .removeTask (s := { s' with tombstoneQueue := queue }) Ageing.refl (hsub a ha)
  obtain ⟨ho, ⟨t, ht, hdead, hforce⟩, -, hfollow⟩ := hinv
  refine ⟨ho, ?_, ?_, hfollow⟩
  · obtain ⟨global, threads, queue, heq⟩ := tombstoneCleanup_frame s
    rw [heq]
  · intro u hu hend
    rw [ht] at hu
    cases hu
    rcases hend with hdying | hdead'
    · exact hforce hdying
    · exact absurd hdead' hdead

theorem Ticked.reapTask {s0 : Scheduler} (h : Ticked s0 s) (queue : ReaperQueue) (a : TaskId) :
    Ticked s0 ({ s with reaperQueue := queue }.reapTask a) := by
  have ho : Orderly { s with reaperQueue := queue } := h.orderly.congr rfl rfl rfl rfl
  obtain ⟨global, tombs, heq⟩ := reapTask_frame { s with reaperQueue := queue } a
  have hfollow : Follows (fun t t' => Ageing t t' ∧ (t'.state.Ending → t.state.Ending))
      (fun _ => False) { s with reaperQueue := queue } ({ s with reaperQueue := queue }.reapTask a) := by
    have hrefl : ∀ t : Task, Ageing t t ∧ (t.state.Ending → t.state.Ending) :=
      fun t => ⟨.refl t, id⟩
    rw [Scheduler.reapTask]
    cases ht : ({ s with reaperQueue := queue } : Scheduler).find a with
    | none => exact .of_find hrefl fun _ => rfl
    | some t =>
      by_cases hdying : t.state = .dying
      · simp only [hdying, if_true]
        have hmap : ∀ u, s.find a = some u → Ageing u { u with state := .dead } ∧
            (({ u with state := .dead } : Task).state.Ending → u.state.Ending) := by
          intro u hu
          cases hu.symm.trans ht
          exact ⟨⟨rfl, fun _ => .inr rfl⟩, fun _ => .inl hdying⟩
        cases (({ s with reaperQueue := queue } : Scheduler).modifyTask a
            ({ · with state := .dead })).tombstoneQueue.push a with
        | error => exact .modifyTask hrefl hmap
        | ok tombs => exact .of_map hrefl (fun b => s.find_modifyTask a b _) hmap
      · simp only [hdying, if_false]
        exact .of_find hrefl fun _ => rfl
  refine ⟨ho.reapTask a, ?_, ?_, ?_⟩
  · rw [heq]
    exact h.current
  · intro t' ht' hend
    obtain ⟨t, ht, -, hback⟩ := hfollow.find_before ht'
    have hcurrent : ({ s with reaperQueue := queue }.reapTask a).current = s.current := by rw [heq]
    rw [hcurrent] at ht
    have hforce := h.ending t ht (hback hend)
    rw [heq]
    exact hforce
  · refine h.follows.trans Ageing.trans ?_
    exact hfollow.mono (fun _ _ h => h.1) fun _ h => h.elim

def CurrentRuns (s : Scheduler) : Prop := ∃ t, s.find s.current = some t ∧ ¬ t.state.Ending

theorem CurrentRuns.follows (h : CurrentRuns s) (hcurrent : s'.current = s.current)
    (hfollow : Follows Undisturbed (fun _ => False) s s') : CurrentRuns s' := by
  obtain ⟨t, ht, hruns⟩ := h
  obtain ⟨t', ht', hsafe⟩ := hfollow.find_after ht not_false
  refine ⟨t', hcurrent ▸ ht', fun hend => hruns ?_⟩
  rw [← hsafe.2 (.inr hend)]
  exact hend

theorem CurrentRuns.live (h : CurrentRuns s) : CurrentLive s := by
  obtain ⟨t, ht, hruns⟩ := h
  exact ⟨t, ht, fun hdead => hruns (.inr hdead), fun hdying => absurd (.inl hdying) hruns⟩

theorem drained_drainSystemTasks (h : Orderly s) (hrequests : Requests s) (hlive : CurrentLive s) :
    Drained s s.drainSystemTasks :=
  drainLoop_inv (fun _ _ _ hs hpop => Drained.killTask hs hpop) _
    ⟨h, hrequests, hlive, .of_find Ageing.refl fun _ => rfl⟩

theorem ticked_timerWork (h : Orderly s) (hrequests : Requests s) (hruns : CurrentRuns s) :
    Orderly s.timerWork.2 ∧ s.timerWork.2.systemTasks.entries = [] ∧
      s.timerWork.2.current = s.current ∧
      (∀ t, s.timerWork.2.find s.current = some t → t.state.Ending → s.timerWork.1 = true) ∧
      Follows Ageing (· ∈ s.tombstoneQueue.entries) s s.timerWork.2 := by
  have ho1 := h.onTimerTick
  have hcalm := s.follows_onTimerTick
  obtain ⟨global1, threads1, queue1, sleep1, ticks1, heq1⟩ := s.onTimerTick_frame
  have hcurrent1 : s.onTimerTick.2.current = s.current := by rw [heq1]
  have htombs1 : s.onTimerTick.2.tombstoneQueue = s.tombstoneQueue := by rw [heq1]
  have hreq1 : Requests s.onTimerTick.2 := hrequests.follows (by rw [heq1]) hcalm
  have hlive1 := (hruns.follows hcurrent1 hcalm).live
  rw [timerWork]
  generalize s.onTimerTick = r at *
  obtain ⟨should, s1⟩ := r
  dsimp only at *
  have hdrained := drained_drainSystemTasks ho1 hreq1 hlive1
  have hempty := s1.drainSystemTasks_empty
  obtain ⟨global2, threads2, reaper2, force2, system2, heq2⟩ := s1.drainSystemTasks_frame
  have htombs2 : s1.drainSystemTasks.tombstoneQueue = s.tombstoneQueue := by
    rw [heq2]
    exact htombs1
  have hcurrent2 : s1.drainSystemTasks.current = s.current := by
    rw [heq2]
    exact hcurrent1
  generalize s1.drainSystemTasks = s2 at *
  have hfollow : Follows Ageing (· ∈ s.tombstoneQueue.entries) s s2 :=
    ((hcalm.mono (Undisturbed.ageing) fun _ => False.elim).trans
      Ageing.trans (hdrained.follows.mono (fun _ _ => id) fun _ => False.elim))
  have hburied := ticked_tombstoneCleanup hdrained.orderly hdrained.live
  obtain ⟨global3, threads3, tombs3, heq3⟩ := s2.tombstoneCleanup_frame
  have hempty3 : s2.tombstoneCleanup.systemTasks.entries = [] := by
    rw [heq3]
    exact hempty
  generalize s2.tombstoneCleanup = s3 at *
  have hreaped : Ticked s2 s3.reapDyingTasks :=
    reapLoop_inv (fun _ a queue hs _ => hs.reapTask queue a) _ hburied
  obtain ⟨global4, tombs4, reaper4, heq4⟩ := s3.reapDyingTasks_frame
  have hempty4 : s3.reapDyingTasks.systemTasks.entries = [] := by
    rw [heq4]
    exact hempty3
  refine ⟨hreaped.orderly.congr rfl rfl rfl rfl, hempty4, hreaped.current.trans hcurrent2, ?_, ?_⟩
  · intro t ht hend
    rw [hreaped.ending t (by rw [hreaped.current, hcurrent2]; exact ht) hend, Bool.or_true]
  · have hrest := hreaped.follows
    rw [htombs2] at hrest
    exact hfollow.trans Ageing.trans hrest

theorem schedule_current {args : Option SwitchArgs} (h : Orderly s)
    (hok : s.schedule sym = .ok (args, s')) : ∃ t, s'.find s'.current = some t ∧ t.state.Runnable := by
  obtain ⟨nextId, s1, s2, next, hchosen, hrequeued, hnext, rfl, -⟩ := schedule_ok hok
  refine ⟨next, hnext, ?_⟩
  have hR := allowsSwitch_shuffled
  have hrun1 : ∀ t, s1.find nextId = some t → t.state.Runnable := by
    intro t ht
    cases hchosen with
    | ready _ _ hready _ =>
      obtain ⟨u, hu, -⟩ := hready
      rw [find_modifyTask, if_pos rfl] at ht
      rw [show Scheduler.find _ nextId = some u from hu] at ht
      cases ht
      exact .inr rfl
    | idle =>
      obtain ⟨u, hu, -, hrun⟩ := h.idle
      cases hu.symm.trans ht
      exact hrun
  have hfollow : Follows Shuffled (fun _ => False) s1 s2 := hR.requeued hrequeued
  obtain ⟨t, ht, -, hstate⟩ := hfollow.find_before hnext
  rcases hstate with heq | ⟨-, hrun⟩
  · rw [heq]
    exact hrun1 t ht
  · exact hrun

theorem schedule_isOk (h : Orderly s) (sym : Symbols) : ∃ r, s.schedule sym = .ok r := by
  obtain ⟨nextId, s1, s2, hchosen, hrequeued, heq⟩ := s.schedule_eq
  have hR := allowsSwitch_shuffled
  have hfollow : Follows Shuffled (fun _ => False) s s2 :=
    (hR.chosen hchosen).trans hR.trans (hR.requeued hrequeued)
  have hfound : ∃ t, s.find nextId = some t := by
    cases hchosen with
    | ready _ _ hready _ =>
      obtain ⟨t, ht, -⟩ := hready
      exact ⟨t, ht⟩
    | idle =>
      obtain ⟨t, ht, -⟩ := h.idle
      exact ⟨t, ht⟩
  obtain ⟨t, ht⟩ := hfound
  obtain ⟨next, hnext, -⟩ := hfollow.find_after ht not_false
  rw [hnext] at heq
  exact ⟨_, heq sym⟩

theorem Orderly.schedule {args : Option SwitchArgs} (h : Orderly s)
    (hok : s.schedule sym = .ok (args, s')) (rsp : Nat) :
    (Orderly s' ∧ ∀ x, Orderly (s'.switched s.current rsp x)) ∧
      (CurrentRuns s' ∧ ∀ x, CurrentRuns (s'.switched s.current rsp x)) := by
  obtain ⟨t, ht, hrun⟩ := schedule_current h hok
  have hR := allowsSwitch_shuffled
  have hfollow : Follows Shuffled (fun _ => False) s s' := hR.schedule hok
  obtain ⟨global, queue, current, kernelStack, ticks, heq⟩ := schedule_frame hok
  have ho : Orderly s' := h.follows (by rw [heq]) (by rw [heq]) hfollow ⟨t, ht⟩
  have hswitch : ∀ x, Follows Shuffled (fun _ => False) s' (s'.switched s.current rsp x) :=
    fun x => follows_switched hR.refl (fun _ _ => ⟨rfl, .inl rfl⟩) s' _ rsp x
  have hafter : ∀ x, ∃ t', (s'.switched s.current rsp x).find s'.current = some t' ∧
      t'.state.Runnable := by
    intro x
    obtain ⟨t', ht', -, hstate⟩ := (hswitch x).find_after ht not_false
    refine ⟨t', ht', ?_⟩
    rcases hstate with hsame | ⟨-, hrun'⟩
    · rw [hsame]
      exact hrun
    · exact hrun'
  refine ⟨⟨ho, fun x => ?_⟩, ⟨t, ht, hrun.not_ending⟩, fun x => ?_⟩
  · obtain ⟨t', ht', -⟩ := hafter x
    exact ho.follows rfl rfl (hswitch x) ⟨t', ht'⟩
  · obtain ⟨t', ht', hrun'⟩ := hafter x
    exact ⟨t', ht', hrun'.not_ending⟩

theorem Requests.setStates (h : Requests s) (a : TaskId) (thread : ThreadId) {x : TaskState}
    (hx : x ≠ .dead) (y : ThreadState) : Requests (s.setStates a thread x y) := by
  intro arg harg
  obtain ⟨t, ht, hlive, hidle⟩ := h arg harg
  rw [find_setStates, ht]
  split
  · exact ⟨_, rfl, hx, hidle⟩
  · exact ⟨t, rfl, hlive, hidle⟩

theorem Requests.congr (h : Requests s) (hglobal : s'.global = s.global)
    (hsame : s'.systemTasks = s.systemTasks) : Requests s' := by
  refine h.follows hsame (.of_find allowsSwitch_undisturbed.refl fun a => ?_)
  exact congrArg (·.getTask a) hglobal

theorem markBlocked_eq (h : s.find s.current = some t) : s.markBlocked =
    (s.modifyTask s.current ({ · with ticksRemaining := taskQuantumTicks })).setStates
      s.current t.thread .blocked .waiting := by
  rw [markBlocked, h]
  rfl

end Scheduler

end CrapOs
