import CrapOs.TaskScheduler.ReaperRuns
import CrapOs.TaskScheduler.ThreadMirror

/-! # Requests to end a thread

`exit_thread` only puts a request into a ring of 32 places, and the next timer interrupt
carries out what it finds there. A request that finds the ring full is dropped.
-/

namespace CrapOs

open Foundation

namespace Scheduler

variable {s s' : Scheduler} {a b : TaskId} {u : ThreadId} {us : List ThreadId}

def LiveThread (s : Scheduler) (u : ThreadId) (a : TaskId) : Prop :=
  (s.threads u).state ≠ .dead ∧ (s.threads u).state ≠ .dying ∧ (s.threads u).taskId = some a

def Ends (s : Scheduler) (u : ThreadId) (a : TaskId) : Prop :=
  ∃ t, s.find a = some t ∧ t.thread = u ∧ (t.state = .dying ∨ t.state = .dead)

/-- The timer interrupt up to the end of `drain_system_tasks`. -/
def afterDrain (s : Scheduler) : Scheduler := s.onTimerTick.2.drainSystemTasks

instance (s : Scheduler) (u : ThreadId) (a : TaskId) : Decidable (s.LiveThread u a) :=
  inferInstanceAs (Decidable (_ ∧ _ ∧ _))

instance (s : Scheduler) (u : ThreadId) (a : TaskId) : Decidable (s.Ends u a) :=
  decidable_of_iff ((s.find a).any fun t =>
    decide (t.thread = u ∧ (t.state = .dying ∨ t.state = .dead)) = true)
    (by simp [Ends, Option.any_eq_true])

theorem queueSystemTask_eq (s : Scheduler) (arg : Nat) : ∃ queue,
    s.queueSystemTask arg = { s with systemTasks := queue } ∧
      queue.entries = (s.systemTasks.entries ++ [arg]).take 32 := by
  rw [queueSystemTask]
  cases hpush : s.systemTasks.push arg with
  | error e =>
    have hfull : s.systemTasks.entries.length = 32 := (RingBuffer.pushOr_error hpush).2
    exact ⟨s.systemTasks, rfl, (List.take_left' hfull).symm⟩
  | ok queue =>
    have hentries := RingBuffer.pushOr_ok hpush
    have hroom : queue.entries.length ≤ 32 := queue.entries_length_le
    refine ⟨queue, rfl, ?_⟩
    rw [← hentries, List.take_of_length_le hroom]

theorem exitThread_live (h : s.LiveThread u a) : s.exitThread u = s.queueSystemTask a.compressTaskId := by
  rw [exitThread, if_neg (not_or.mpr ⟨h.1, h.2.1⟩), h.2.2]

theorem exitThread_entries (s : Scheduler) (u : ThreadId) :
    s.systemTasks.entries ⊆ (s.exitThread u).systemTasks.entries ∧
      (s.exitThread u).systemTasks.entries.length ≤ s.systemTasks.entries.length + 1 := by
  have hsame : s.systemTasks.entries ⊆ s.systemTasks.entries ∧
      s.systemTasks.entries.length ≤ s.systemTasks.entries.length + 1 :=
    ⟨List.Subset.refl _, Nat.le_succ _⟩
  rw [exitThread]
  split
  · exact hsame
  · cases (s.threads u).taskId with
    | none => exact hsame
    | some taskId =>
      obtain ⟨queue, heq, hentries⟩ := s.queueSystemTask_eq taskId.compressTaskId
      have hle : s.systemTasks.entries.length ≤ 32 := s.systemTasks.entries_length_le
      rw [List.take_append, List.take_of_length_le hle] at hentries
      dsimp only
      rw [heq]
      rw [hentries]
      refine ⟨List.subset_append_left _ _, ?_⟩
      rw [List.length_append]
      exact Nat.add_le_add_left (List.length_take_le' _ _) _

theorem take_append_take {α : Type} (n : Nat) (l m : List α) :
    (l.take n ++ m).take n = (l ++ m).take n := by
  rw [List.take_append, List.take_take, Nat.min_self, List.length_take, List.take_append]
  congr 2
  omega

theorem exitThread_burst {tasks : ThreadId → TaskId} (hlive : ∀ u ∈ us, s.LiveThread u (tasks u)) :
    ∃ queue, us.foldl exitThread s = { s with systemTasks := queue } ∧
      queue.entries =
        (s.systemTasks.entries ++ us.map fun u => (tasks u).compressTaskId).take 32 := by
  induction us generalizing s with
  | nil =>
    refine ⟨s.systemTasks, rfl, ?_⟩
    rw [List.map_nil, List.append_nil]
    exact (List.take_of_length_le s.systemTasks.entries_length_le).symm
  | cons u us ih =>
    obtain ⟨q1, heq1, hentries1⟩ := s.queueSystemTask_eq (tasks u).compressTaskId
    rw [← exitThread_live (hlive u List.mem_cons_self)] at heq1
    have hrest : ∀ v ∈ us, (s.exitThread u).LiveThread v (tasks v) := by
      intro v hv
      rw [heq1]
      exact hlive v (List.mem_cons_of_mem _ hv)
    obtain ⟨q2, heq2, hentries2⟩ := ih hrest
    rw [heq1] at heq2 hentries2
    refine ⟨q2, ?_, ?_⟩
    · rw [List.foldl_cons, heq1, heq2]
    · rw [hentries2, List.map_cons]
      rw [hentries1]
      rw [take_append_take, ← List.append_cons]

theorem find_drainSystemTasks (s : Scheduler) (b : TaskId) : s.drainSystemTasks.find b =
    if b ∈ s.systemTasks.entries.map .expandTaskId then (s.find b).map ({ · with state := .dying })
    else s.find b := by
  refine drainLoop_drains.run systemTasks_killTask (C := fun s s' => s'.find b =
    if b ∈ s.systemTasks.entries.map .expandTaskId then (s.find b).map ({ · with state := .dying })
    else s.find b) (fun s hnil => ?_) (fun s s' arg queue hentries hdrained => ?_) s
  · rw [hnil]
    rfl
  · rw [hdrained, systemTasks_killTask, find_killTask, hentries, List.map_cons]
    by_cases hb : b = .expandTaskId arg
    · rw [if_pos hb, if_pos (List.mem_cons.mpr (.inl hb)), Option.map_map]
      exact ite_self _
    · rw [if_neg hb]
      simp only [List.mem_cons, hb, false_or]

theorem ends_of_request (hfind : ∃ t, s.find a = some t ∧ t.thread = u)
    (hrequest : a.compressTaskId ∈ s.systemTasks.entries) : s.afterDrain.Ends u a := by
  obtain ⟨t, ht, hthread⟩ := hfind
  obtain ⟨global, threads, queue, sleep, ticks, heq⟩ := s.onTimerTick_frame
  have hsame : s.onTimerTick.2.systemTasks = s.systemTasks := by rw [heq]
  obtain ⟨t', ht', hthread', -⟩ := s.follows_onTimerTick.find_after ht not_false
  have hslot : a.slotIndex < 2 ^ 56 :=
    Nat.lt_of_lt_of_le (GlobalScheduler.slotIndex_lt ht) (by decide)
  have hmem : a ∈ s.systemTasks.entries.map .expandTaskId :=
    List.mem_map.mpr ⟨_, hrequest, TaskId.expand_compress hslot⟩
  refine ⟨{ t' with state := .dying }, ?_, hthread'.trans hthread, .inl rfl⟩
  rw [afterDrain, find_drainSystemTasks, hsame, if_pos hmem, ht']
  rfl

theorem not_ends_of_no_request {t : Task} (ht : s.find a = some t) (hlive : ¬ t.state.Ending)
    (hrequest : a ∉ s.systemTasks.entries.map .expandTaskId) : ¬ s.afterDrain.Ends u a := by
  obtain ⟨global, threads, queue, sleep, ticks, heq⟩ := s.onTimerTick_frame
  have hsame : s.onTimerTick.2.systemTasks = s.systemTasks := by rw [heq]
  obtain ⟨t', ht', -, hstate⟩ := s.follows_onTimerTick.find_after ht not_false
  rintro ⟨t'', ht'', -, hend⟩
  rw [afterDrain, find_drainSystemTasks, hsame, if_neg hrequest, ht'] at ht''
  cases ht''
  exact hlive (hstate (.inr hend) ▸ hend)

end Scheduler

namespace Processor

open Scheduler

variable {p p' p₀ : Processor} {sym : Symbols} {e : Event} {cond : Processor → Event → Prop}
variable {task : Task} {a : TaskId} {u : ThreadId}

/-! ## Between two timer interrupts -/

theorem Spawned.held (h : Spawned p task p') (hthread : task.thread = p.nextThreadId)
    (hheld : ∀ u, p.sched.Held u) (u : ThreadId) : p'.sched.Held u := by
  cases h with
  | refused hthreads hnone =>
    intro b hb
    by_cases hu : u = p.nextThreadId
    · rw [hu, show Scheduler.threads _ _ = _ from rfl] at hb
      cases hnone.symm.trans hb
    · exact hheld u b ((congrArg Thread.taskId (hthreads u hu)).symm.trans hb)
  | @placed taskId global threads queue hnew hfind hthreads hlink hqueue =>
    by_cases hu : u = p.nextThreadId
    · intro b hb
      subst hu
      cases hlink.symm.trans hb
      exact ⟨_, (hfind taskId).trans (if_pos rfl), hthread⟩
    · exact (hheld u).insert hnew hfind (hthreads u hu)

theorem Reached.held (h : Reached sym cond p) (u : ThreadId) : p.sched.Held u := by
  refine h.invariant (fun p => ∀ u, p.sched.Held u) ?_ ?_ u
  · rintro _ ⟨idleStack, kernelStack, cr3, rfl⟩ u a hu
    by_cases hidle : u = 0
    · subst hidle
      cases hu
      exact ⟨_, GlobalScheduler.getTask_insertIdleTask _ _, rfl⟩
    · have hthread : (boot idleStack kernelStack cr3).sched.threads u = .new u "" 0 := by
        simp [boot, Scheduler.initIdle, hidle]
      rw [hthread] at hu
      cases hu
  · rintro p p' hp ⟨e, hen, -, hok⟩
    rcases exec_sections hok with ⟨name, process, task, rfl⟩ | ⟨hsections, -⟩
    · exact (spawn_spawned hok).held hen.2.1 hp
    · exact fun u => (hp u).sections hsections

def isExitThread : Event → Bool
  | .exitThread _ => true
  | _ => false

/-- What an event other than a timer interrupt does to the ring. -/
theorem exec_entries (htick : isTick e = false) (hok : p.exec sym e = .ok p') :
    p.sched.systemTasks.entries ⊆ p'.sched.systemTasks.entries ∧
      p'.sched.systemTasks.entries.length ≤
        p.sched.systemTasks.entries.length + [e].countP isExitThread := by
  cases e with
  | exitThread thread =>
    cases hok
    exact p.sched.exitThread_entries thread
  | tick => cases htick
  | spawn | block | sleep | yield | exit | keyboard | initComplete =>
    rw [(exec_queues hok nofun).1 nofun]
    exact ⟨List.Subset.refl _, Nat.le_add_right _ _⟩

theorem exec_keeps (hen : p.Enabled e) (htick : isTick e = false) (hok : p.exec sym e = .ok p')
    (h : ∃ t, p.sched.find a = some t ∧ t.thread = u) :
    ∃ t, p'.sched.find a = some t ∧ t.thread = u := by
  obtain ⟨t, ht, hthread⟩ := h
  rcases exec_sameThread hok with ⟨name, process, task, rfl⟩ | ⟨hfollow, -⟩
  · cases spawn_spawned hok with
    | refused => exact ⟨t, ht, hthread⟩
    | placed hnew hfind =>
      refine ⟨t, (hfind a).trans ((if_neg ?_).trans ht), hthread⟩
      rintro rfl
      cases hnew.symm.trans ht
  · have hstays : ¬ ∃ rsp, e = .tick rsp := by
      rintro ⟨rsp, rfl⟩
      cases htick
    obtain ⟨t', ht', hsame⟩ := hfollow.find_after ht hstays
    exact ⟨t', ht', hsame.trans hthread⟩

theorem runs_keeps {es : List Event} (htick : ∀ e ∈ es, isTick e = false)
    (hrun : p.runs sym (fun _ _ => True) es = some p')
    (hrequest : a.compressTaskId ∈ p.sched.systemTasks.entries)
    (h : ∃ t, p.sched.find a = some t ∧ t.thread = u) : p'.sched.afterDrain.Ends u a := by
  induction es generalizing p with
  | nil =>
    cases hrun
    exact ends_of_request h hrequest
  | cons e rest ih =>
    obtain ⟨p1, hen, -, hexec, hrest⟩ := runs_cons.mp hrun
    have he := htick e List.mem_cons_self
    exact ih (fun e' he' => htick e' (List.mem_cons_of_mem _ he')) hrest
      ((exec_entries he hexec).1 hrequest) (exec_keeps hen he hexec h)

theorem runs_entries_length {es : List Event} (htick : ∀ e ∈ es, isTick e = false)
    (hrun : p.runs sym (fun _ _ => True) es = some p') :
    p'.sched.systemTasks.entries.length ≤
      p.sched.systemTasks.entries.length + es.countP isExitThread := by
  induction es generalizing p with
  | nil =>
    cases hrun
    exact Nat.le_add_right _ _
  | cons e rest ih =>
    obtain ⟨p1, -, -, hexec, hrest⟩ := runs_cons.mp hrun
    have hone := (exec_entries (htick e List.mem_cons_self) hexec).2
    have hmany := ih (fun e' he' => htick e' (List.mem_cons_of_mem _ he')) hrest
    rw [List.countP_cons]
    rw [List.countP_singleton] at hone
    omega

theorem exitThread_served {rest : List Event} {q : Processor} (hheld : p.sched.Held u)
    (hlive : p.sched.LiveThread u a) (hroom : p.sched.systemTasks.entries.length < 32)
    (htick : ∀ e ∈ rest, isTick e = false)
    (hrun : p.runs sym (fun _ _ => True) (.exitThread u :: rest) = some q) :
    q.sched.afterDrain.Ends u a := by
  obtain ⟨p1, hen, -, hexec, hrest⟩ := runs_cons.mp hrun
  refine runs_keeps htick hrest ?_ (exec_keeps hen rfl hexec (hheld a hlive.2.2))
  cases hexec
  obtain ⟨queue, heq, hentries⟩ := p.sched.queueSystemTask_eq a.compressTaskId
  show a.compressTaskId ∈ (p.sched.exitThread u).systemTasks.entries
  rw [exitThread_live hlive, heq]
  rw [hentries, List.take_of_length_le (by rw [List.length_append]; exact hroom)]
  exact List.mem_append_right _ (List.mem_singleton_self _)

theorem runs_burst {us : List ThreadId}
    (hrun : p.runs sym (fun _ _ => True) (us.map .exitThread) = some p') :
    p'.sched = us.foldl exitThread p.sched := by
  induction us generalizing p with
  | nil =>
    cases hrun
    rfl
  | cons u us ih =>
    obtain ⟨p1, -, -, hexec, hrest⟩ := runs_cons.mp hrun
    cases hexec
    exact ih hrest

theorem runs_append {es es' : List Event} (h : p.runs sym (fun _ _ => True) (es ++ es') = some p') :
    ∃ q, p.runs sym (fun _ _ => True) es = some q ∧ q.runs sym (fun _ _ => True) es' = some p' := by
  induction es generalizing p with
  | nil => exact ⟨p, rfl, h⟩
  | cons e es ih =>
    obtain ⟨p1, hen, hcond, hexec, hrest⟩ := runs_cons.mp h
    obtain ⟨q, hq, hq'⟩ := ih hrest
    exact ⟨q, runs_cons.mpr ⟨p1, hen, hcond, hexec, hq⟩, hq'⟩

theorem tick_entries {rsp : Nat} (hok : p.exec sym (.tick rsp) = .ok p') :
    p'.sched.systemTasks.entries = [] := by
  obtain ⟨s, htick, hret⟩ := bind_eq_ok.mp hok
  cases hret
  have hwork : p.sched.timerWork.2.systemTasks.entries = [] := by
    have hempty := p.sched.onTimerTick.2.drainSystemTasks_empty
    obtain ⟨_, _, _, hbury⟩ := p.sched.onTimerTick.2.drainSystemTasks.tombstoneCleanup_frame
    obtain ⟨_, _, _, hreap⟩ :=
      p.sched.onTimerTick.2.drainSystemTasks.tombstoneCleanup.reapDyingTasks_frame
    rw [timerWork]
    dsimp only
    rw [hreap, hbury]
    exact hempty
  rcases handlerApicTimer_ok htick with ⟨-, hresched⟩ | ⟨-, rfl⟩
  · obtain ⟨_, _, _, _, _, _, heq⟩ := reschedule_frame hresched
    rw [heq]
    exact hwork
  · exact hwork

/-- In a burst of calls from an empty ring exactly the first 32 are carried out. -/
theorem burst_served_iff {us : List ThreadId} {tasks : ThreadId → TaskId} (h : Reached sym cond p)
    (hempty : p.sched.systemTasks.entries = [])
    (hlive : ∀ u ∈ us, p.sched.LiveThread u (tasks u)) (hu : u ∈ us) :
    (us.foldl exitThread p.sched).afterDrain.Ends u (tasks u) ↔ u ∈ us.take 32 := by
  obtain ⟨queue, heq, hentries⟩ := exitThread_burst hlive
  rw [hempty, List.nil_append, ← List.map_take] at hentries
  have htask : ∀ v ∈ us, ∃ t, p.sched.find (tasks v) = some t ∧ t.thread = v := fun v hv =>
    h.held v (tasks v) (hlive v hv).2.2
  have hslot : ∀ v ∈ us, (tasks v).slotIndex < 2 ^ 56 := by
    intro v hv
    obtain ⟨t, ht, -⟩ := htask v hv
    exact Nat.lt_of_lt_of_le (GlobalScheduler.slotIndex_lt ht) (by decide)
  rw [heq]
  constructor
  · intro hends
    by_contra hlate
    obtain ⟨t, ht, hthread⟩ := htask u hu
    obtain ⟨w, hw, hsched, -⟩ := h.registry
    have hshown := hw.mirror.shown (hsched ▸ ht)
    rw [hsched, hthread] at hshown
    refine not_ends_of_no_request (t := t) (u := u) (s := { p.sched with systemTasks := queue }) ht ?_ ?_ hends
    · rintro (hstate | hstate)
      · exact (hlive u hu).2.1 (by rw [hshown, hstate]; rfl)
      · exact (hlive u hu).2.1 (by rw [hshown, hstate]; rfl)
    · dsimp only
      rw [hentries, List.map_map, List.mem_map]
      rintro ⟨v, hv, hsame⟩
      have hvus := List.mem_of_mem_take hv
      rw [Function.comp_apply, TaskId.expand_compress (hslot v hvus)] at hsame
      obtain ⟨t', ht', hthread'⟩ := htask v hvus
      rw [hsame, ht] at ht'
      cases ht'
      exact hlate (hthread.symm.trans hthread' ▸ hv)
  · intro hearly
    refine ends_of_request (s := { p.sched with systemTasks := queue }) (htask u hu) ?_
    rw [hentries]
    exact List.mem_map.mpr ⟨u, hearly, rfl⟩

/-- After a timer interrupt, as long as `exit_thread` is called at most 32 times before the next
one, every call on a live thread is carried out, whatever else happens in between. Of calls on
distinct live threads with nothing in between all are carried out only if there are at most 32. -/
theorem exit_requests_served_iff (h₀ : Reached sym (fun _ _ => True) p₀) {rsp : Nat} (hrsp : rsp ≠ 0)
    (htick : p₀.exec sym (.tick rsp) = .ok p) :
    (∀ es p', (∀ e ∈ es, isTick e = false) → es.countP isExitThread ≤ 32 →
      p.runs sym (fun _ _ => True) es = some p' →
      ∀ pre u post q a, es = pre ++ .exitThread u :: post → p.runs sym (fun _ _ => True) pre = some q →
        q.sched.LiveThread u a → p'.sched.afterDrain.Ends u a) ∧
    ∀ (us : List ThreadId) (tasks : ThreadId → TaskId) (p' : Processor), us.Nodup →
      (∀ u ∈ us, p.sched.LiveThread u (tasks u)) →
      p.runs sym (fun _ _ => True) (us.map .exitThread) = some p' →
      ((∀ u ∈ us, p'.sched.afterDrain.Ends u (tasks u)) ↔ us.length ≤ 32) := by
  have hp : Reached sym (fun _ _ => True) p := .step h₀ ⟨.tick rsp, hrsp, trivial, htick⟩
  have hempty := tick_entries htick
  refine ⟨?_, ?_⟩
  · rintro _ p' hquiet hcount hrun pre u post q a rfl hpre hlive
    obtain ⟨q', hq', hrest⟩ := runs_append hrun
    cases hpre.symm.trans hq'
    have hlen := runs_entries_length (fun e he => hquiet e (List.mem_append_left _ he)) hpre
    rw [hempty, List.length_nil] at hlen
    rw [List.countP_append, List.countP_cons_of_pos rfl] at hcount
    exact exitThread_served ((hp.runs hpre).held u) hlive (by omega)
      (fun e he => hquiet e (List.mem_append_right _ (List.mem_cons_of_mem _ he))) hrest
  · intro us tasks p' hnodup hlive hrun
    rw [runs_burst hrun]
    constructor
    · intro hall
      have hsub : us ⊆ us.take 32 := fun u hu =>
        (burst_served_iff hp hempty hlive hu).mp (hall u hu)
      have hlen := (List.subperm_of_subset hnodup hsub).length_le
      rw [List.length_take] at hlen
      omega
    · intro hle u hu
      rw [burst_served_iff hp hempty hlive hu, List.take_of_length_le hle]
      exact hu

theorem exists_tick (es : List Event) (q : Processor → Prop) [DecidablePred q]
    (h : ((boot 0 0 0).runs sampleSymbols (fun _ _ => True) es).any (fun p₀ => decide
      ((p₀.exec sampleSymbols (.tick 0x7000)).toOption.any (fun p => decide (q p)) = true)) = true) :
    ∃ p₀ p, Reached sampleSymbols (fun _ _ => True) p₀ ∧
      p₀.exec sampleSymbols (.tick 0x7000) = .ok p ∧ q p := by
  obtain ⟨p₀, hp0, hnext⟩ := exists_reached sampleSymbols (fun _ _ => True) 0 0 0 es
    (fun p₀ => (p₀.exec sampleSymbols (.tick 0x7000)).toOption.any (fun p => decide (q p)) = true) h
  obtain ⟨p, hp, hq⟩ := (Option.any_eq_true _ _).mp hnext
  exact ⟨p₀, p, hp0, ok_of_toOption hp, of_decide_eq_true hq⟩

/-- Two threads are asked to end after a timer interrupt. -/
theorem exit_requests_served_iff_two : ∃ p₀ p p', Reached sampleSymbols (fun _ _ => True) p₀ ∧
    p₀.exec sampleSymbols (.tick 0x7000) = .ok p ∧
    p.runs sampleSymbols (fun _ _ => True) ([1, 2].map .exitThread) = some p' ∧
    ∀ u ∈ [1, 2], p'.sched.afterDrain.Ends u ⟨u, 0⟩ := by
  obtain ⟨p₀, p, hp₀, htick, hlive, hruns⟩ := exists_tick (crowd 2 ++ [.initComplete])
    (fun p => (∀ u ∈ ([1, 2] : List ThreadId), p.sched.LiveThread u ⟨u, 0⟩) ∧
      (p.runs sampleSymbols (fun _ _ => True) ([1, 2].map .exitThread)).isSome) (by decide +kernel)
  obtain ⟨p', hrun⟩ := Option.isSome_iff_exists.mp hruns
  obtain ⟨-, hburst⟩ := exit_requests_served_iff hp₀ (by decide) htick
  exact ⟨p₀, p, p', hp₀, htick, hrun, (hburst [1, 2] (⟨·, 0⟩) p' (by decide) hlive hrun).mpr (by decide)⟩

def manyThreads : List ThreadId := (List.range 33).map (· + 1)

/-- Of 33 live threads that are asked to end between two timer interrupts the last goes on. -/
theorem request_of_last_thread_lost : ∃ p₀ p p', Reached sampleSymbols (fun _ _ => True) p₀ ∧
    p₀.exec sampleSymbols (.tick 0x7000) = .ok p ∧
    (∀ u ∈ manyThreads, p.sched.LiveThread u ⟨u, 0⟩) ∧
    p.runs sampleSymbols (fun _ _ => True) (manyThreads.map .exitThread) = some p' ∧
    p'.sched.afterDrain.InState ⟨33, 0⟩ .ready := by
  obtain ⟨p₀, p, hp₀, htick, hlive, hruns⟩ := exists_tick (crowd 33 ++ [.initComplete])
    (fun p => (∀ u ∈ manyThreads, p.sched.LiveThread u ⟨u, 0⟩) ∧
      (p.runs sampleSymbols (fun _ _ => True) (manyThreads.map .exitThread)).any
        (fun p' => decide (p'.sched.afterDrain.InState ⟨33, 0⟩ .ready)) = true) (by decide +kernel)
  obtain ⟨p', hrun, hready⟩ := (Option.any_eq_true _ _).mp hruns
  exact ⟨p₀, p, p', hp₀, htick, hlive, hrun, of_decide_eq_true hready⟩

end Processor

end CrapOs
