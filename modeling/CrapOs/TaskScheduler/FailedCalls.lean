import CrapOs.Helpers.Interrupts
import CrapOs.TaskScheduler.LifecycleRuns

/-! # Calls that fail

`wake` can fail after it has made its task ready, and `schedule` can give up after it has
chosen a task, changed states and turned interrupts off. Neither takes back what it has
done. For both the states are named in which nothing is left to take back.
-/

namespace CrapOs

open Foundation

namespace Scheduler

variable {s s' : Scheduler} {task : Task} {a b : TaskId} {sym : Symbols}

def SameStates (s s' : Scheduler) : Prop :=
  ∀ b, (s'.find b).map Task.state = (s.find b).map Task.state

theorem SameStates.inState (h : SameStates s s') {x : TaskState} : s'.InState a x ↔ s.InState a x := by
  rw [InState, InState, ← Option.map_eq_some_iff, ← Option.map_eq_some_iff, h a]

theorem wake_of_not_blocked (hfind : s.find a = some task) (hstate : task.state ≠ .blocked) :
    s.wake a = (.ok (), s) := by
  rw [wake, hfind]
  exact if_neg hstate

theorem wake_of_blocked (hfind : s.find a = some task) (hstate : task.state = .blocked) :
    s.wake a =
      match s.queue.push a with
      | .error e => (.error e, s.setStates a task.thread .ready .active)
      | .ok queue => (.ok (), { s.setStates a task.thread .ready .active with queue := queue }) := by
  rw [wake, hfind]
  exact if_pos hstate

theorem wake_full (h : s.InState a .blocked) (hfull : s.queue.entries.length = 256) :
    ∃ s', s.wake a = (.error .queueFull, s') ∧ s'.InState a .ready ∧ s'.queue = s.queue ∧
      s'.wake a = (.ok (), s') := by
  obtain ⟨task, hfind, hstate⟩ := h
  have hpush : s.queue.push a = .error .queueFull := by
    rw [PerCpuQueue.push, RingBuffer.pushOr, RingBuffer.push_eq_none.mpr hfull]
  have hwake := wake_of_blocked hfind hstate
  rw [hpush] at hwake
  have hfind' : (s.setStates a task.thread .ready .active).find a =
      some { task with state := .ready } := by
    rw [find_setStates, if_pos rfl, hfind]
    rfl
  refine ⟨_, hwake, ⟨_, hfind', rfl⟩, rfl, wake_of_not_blocked hfind' ?_⟩
  intro hstate'
  cases hstate'

/-- A call of `wake` that fails has changed nothing exactly if it has not found the task blocked and
the ready queue full. -/
theorem wake_error_unchanged_iff (s : Scheduler) (a : TaskId) :
    (∀ e s', s.wake a = (.error e, s') → SameStates s s' ∧
      (∀ u, (s'.threads u).state = (s.threads u).state) ∧ s'.queue.entries = s.queue.entries) ↔
    ¬ (s.InState a .blocked ∧ s.queue.entries.length = 256) := by
  constructor
  · rintro hkept ⟨hblocked, hfull⟩
    obtain ⟨s', hwake, hready, -⟩ := wake_full hblocked hfull
    obtain ⟨task, hfind, hstate⟩ := hready
    obtain ⟨task', hfind', hstate'⟩ := (hkept _ _ hwake).1.inState.mpr hblocked
    rw [hfind] at hfind'
    cases hfind'
    rw [hstate] at hstate'
    cases hstate'
  · intro hroom e s' herr
    cases hfind : s.find a with
    | none =>
      rw [wake, hfind] at herr
      cases herr
      exact ⟨fun _ => rfl, fun _ => rfl, rfl⟩
    | some task =>
      by_cases hstate : task.state = .blocked
      · have hfull : s.queue.entries.length ≠ 256 := fun h => hroom ⟨⟨task, hfind, hstate⟩, h⟩
        obtain ⟨queue, hpush, -⟩ := RingBuffer.pushOr_of_room SchedulerError.queueFull
          (Nat.lt_of_le_of_ne s.queue.entries_length_le hfull) a
        rw [wake_of_blocked hfind hstate, PerCpuQueue.push, hpush] at herr
        cases herr
      · rw [wake_of_not_blocked hfind hstate] at herr
        cases herr

def fullQueue : PerCpuQueue where
  cells _ := ⟨2, 0⟩
  head := 0
  tail := 0
  len := 256
  head_lt := Nat.two_pow_pos 8
  len_le := Nat.le_refl _
  tail_eq := (Nat.mod_self _).symm

theorem wake_loses_task : ∃ (s s' : Scheduler) (a : TaskId), s.InState a .blocked ∧
    s.wake a = (.error .queueFull, s') ∧ s'.InState a .ready ∧ a ∉ s'.queue.entries ∧
    s'.wake a = (.ok (), s') := by
  obtain ⟨p, -, hblocked⟩ := Processor.exists_reached Processor.sampleSymbols (fun _ _ => True) 0 0 0
    [.spawn "A" 1 (Processor.sampleTask 1), .initComplete, .yield 0x7000, .block]
    (fun p => p.sched.InState ⟨1, 0⟩ .blocked) (by decide +kernel)
  have hstate : { p.sched with queue := fullQueue }.InState ⟨1, 0⟩ .blocked := hblocked
  obtain ⟨s', hwake, hready, hqueue, hagain⟩ := wake_full hstate (RingBuffer.entries_length _)
  refine ⟨_, s', ⟨1, 0⟩, hstate, hwake, hready, ?_, hagain⟩
  rw [hqueue]
  change ⟨1, 0⟩ ∉ fullQueue.entries
  decide +kernel

/-! ## Giving up -/

/-- `schedule` with the flags register. Where it gives up it returns as it is; where it does not,
the saved flags wait on the stack of the outgoing task for `switch_to` to return. -/
def scheduleCall (sym : Symbols) (s : Scheduler) (rflags : BitVec 64) :
    Except Halt (Option (SwitchArgs × BitVec 64) × Scheduler × BitVec 64) := do
  let (flags, rflags) := disableInterruptsSave rflags
  let (args, s) ← s.schedule sym
  pure (args.map (·, flags), s, rflags)

/-- Nothing is popped and the idle task stays as it is, or the current task, which is ready, is
taken from the queue and put back. -/
def NothingToDo (s : Scheduler) (task : Task) : Prop :=
  s.queue.entries = [] ∧ s.current = .idle ∧ task.state ≠ .running ∨
    s.queue.entries ≠ [] ∧ (∀ b ∈ s.queue.entries, b = s.current) ∧ task.state = .ready ∧
      (s.current ≠ .idle ∨ s.kernelInitComplete = false)

theorem quantum_modifyTask (s : Scheduler) (a b : TaskId) (x : TaskState) :
    ((s.modifyTask a ({ · with state := x })).find b).map Task.ticksRemaining =
      (s.find b).map Task.ticksRemaining := by
  rw [find_modifyTask]
  by_cases hb : b = a
  · rw [if_pos hb, Option.map_map]
    rfl
  · rw [if_neg hb]

theorem Chosen.quantum (h : Chosen s a s') (b : TaskId) :
    (s'.find b).map Task.ticksRemaining = (s.find b).map Task.ticksRemaining := by
  cases h with
  | ready _ _ _ _ => exact quantum_modifyTask _ a b .running
  | idle _ _ => rfl

theorem Requeued.quantum (h : Requeued s a s') (b : TaskId) :
    (s'.find b).map Task.ticksRemaining = (s.find b).map Task.ticksRemaining := by
  cases h with
  | idle _ => rfl
  | queued _ _ _ => exact quantum_modifyTask s a b .ready
  | full _ _ _ => exact quantum_modifyTask s a b .ready
  | unqueued _ _ _ => exact quantum_modifyTask s a b .ready

theorem sameStates_put_back (h : s.InState a .ready) (queue queue' : PerCpuQueue) :
    SameStates s { ({ s with queue := queue }.modifyTask a ({ · with state := .running })).modifyTask a
      ({ · with state := .ready }) with queue := queue' } := by
  obtain ⟨task, hfind, hstate⟩ := h
  intro b
  rw [find_modifyTask, find_modifyTask]
  by_cases hb : b = a
  · subst hb
    rw [if_pos rfl, if_pos rfl, hfind]
    exact congrArg some hstate.symm
  · rw [if_neg hb, if_neg hb]

theorem not_sameStates_ready (h : s.InState a .running) (queue : PerCpuQueue) :
    ¬ SameStates s { s.modifyTask a ({ · with state := .ready }) with queue := queue } := by
  intro hsame
  obtain ⟨task, hfind, hstate⟩ := hsame.inState.mpr h
  have hready : (s.modifyTask a ({ · with state := .ready })).find a = some task := hfind
  rw [find_modifyTask, if_pos rfl] at hready
  obtain ⟨task', -, rfl⟩ := Option.map_eq_some_iff.mp hready
  cases hstate

theorem cons_eq_concat_iff {α : Type} {x : α} {l : List α} : x :: l = l ++ [x] ↔ ∀ y ∈ l, y = x := by
  constructor
  · intro h
    induction l with
    | nil =>
      intro y hy
      cases hy
    | cons y l ih =>
      obtain ⟨rfl, htail⟩ := List.cons.inj h
      intro z hz
      rcases List.mem_cons.mp hz with rfl | hz
      · rfl
      · exact ih htail z hz
  · intro h
    rw [List.eq_replicate_of_mem h, ← List.replicate_succ, List.replicate_succ']

theorem inState_running (h : s.InState a .ready) (queue : PerCpuQueue) :
    ({ s with queue := queue }.modifyTask a ({ · with state := .running })).InState a .running := by
  obtain ⟨task, hfind, -⟩ := h
  refine (inState_modifyTask (s := { s with queue := queue }) ⟨task, hfind⟩).mpr ?_
  rw [if_pos rfl]

theorem Chosen.nothingToDo {s1 s2 : Scheduler} (hchosen : Chosen s s.current s1)
    (hrequeued : Requeued s1 s.current s2) (hfind : s.find s.current = some task)
    (hstates : SameStates s s2) (hqueue : s2.queue.entries = s.queue.entries) : s.NothingToDo task := by
  have hroom := s.queue.entries_length_le
  have hin {x : TaskState} (h : s.InState s.current x) : task.state = x := by
    obtain ⟨task', hfind', hstate⟩ := h
    rw [hfind] at hfind'
    cases hfind'
    exact hstate
  unfold NothingToDo
  generalize s.current = a at *
  cases hchosen with
  | @ready pre rest _ queue hsplit hpre hready hrest =>
    have hlen : pre.length + (rest.length + 1) = s.queue.entries.length := by
      rw [hsplit, List.length_append, List.length_cons]
    cases hrequeued with
    | idle hnot => exact absurd (inState_running hready queue) hnot
    | queued _ hcond hentries =>
      have hback : s.queue.entries = rest ++ [a] := by
        rw [← hqueue, ← hrest]
        exact hentries
      have hnil : pre = [] := by
        rw [hback, List.length_append, List.length_singleton] at hlen
        exact List.length_eq_zero_iff.mp (by omega)
      rw [hnil, List.nil_append] at hsplit
      have hall := cons_eq_concat_iff.mp (hsplit.symm.trans hback)
      refine .inr ⟨?_, fun b hb => ?_, hin hready, hcond⟩
      · rw [hsplit]
        exact List.cons_ne_nil a rest
      · rw [hsplit] at hb
        rcases List.mem_cons.mp hb with rfl | hb
        · rfl
        · exact hall b hb
    | full _ _ hfull =>
      have hfull' : queue.entries.length = 256 := hfull
      rw [hrest] at hfull'
      omega
    | unqueued _ _ _ =>
      have hless : rest.length = s.queue.entries.length := by
        rw [← hqueue, ← hrest]
        rfl
      omega
  | @idle queue hnone hempty =>
    cases hrequeued with
    | idle hnot =>
      refine .inl ⟨hqueue.symm.trans hempty, rfl, fun hrunning => hnot ⟨task, hfind, hrunning⟩⟩
    | @queued queue' hrun _ _ => exact absurd hstates (not_sameStates_ready hrun queue')
    | full _ _ hfull =>
      have hfull' : queue.entries.length = 256 := hfull
      rw [hempty] at hfull'
      cases hfull'
    | unqueued hrun _ _ => exact absurd hstates (not_sameStates_ready hrun queue)

/-- And where there is nothing to do, `schedule` does nothing. -/
theorem NothingToDo.unchanged {nextId : TaskId} {s1 s2 : Scheduler} (h : s.NothingToDo task)
    (hfind : s.find s.current = some task) (hchosen : Chosen s nextId s1)
    (hrequeued : Requeued s1 s.current s2) :
    nextId = s.current ∧ SameStates s s2 ∧ s2.queue.entries = s.queue.entries := by
  have hroom := s.queue.entries_length_le
  rcases h with ⟨hempty, hidle, hstate⟩ | ⟨hne, hall, hstate, hcond⟩
  · cases hchosen with
    | ready hsplit _ _ _ =>
      rw [hempty] at hsplit
      exact absurd hsplit.symm (List.append_ne_nil_of_right_ne_nil _ (List.cons_ne_nil _ _))
    | @idle queue hnone hnil =>
      have hnot : ¬ ({ s with queue := queue }).InState s.current .running := by
        rintro ⟨task', hfind', hrunning⟩
        cases hfind.symm.trans hfind'
        exact hstate hrunning
      cases hrequeued with
      | idle _ => exact ⟨hidle.symm, fun _ => rfl, hnil.trans hempty.symm⟩
      | queued hrun _ _ => exact absurd hrun hnot
      | full hrun _ _ => exact absurd hrun hnot
      | unqueued hrun _ _ => exact absurd hrun hnot
  · have hready : s.InState s.current .ready := ⟨task, hfind, hstate⟩
    cases hchosen with
    | @ready pre rest _ queue hsplit hpre hin hrest =>
      have hmem : nextId ∈ s.queue.entries := by
        rw [hsplit]
        exact List.mem_append_right _ List.mem_cons_self
      obtain rfl := hall nextId hmem
      have hnil : pre = [] := by
        refine List.eq_nil_iff_forall_not_mem.mpr fun b hb => hpre b hb ?_
        rw [hall b (hsplit ▸ List.mem_append_left _ hb)]
        exact hready
      rw [hnil, List.nil_append] at hsplit
      have hrotate := cons_eq_concat_iff.mpr fun b hb => hall b (hsplit ▸ List.mem_cons_of_mem _ hb)
      cases hrequeued with
      | idle hnot => exact absurd (inState_running hready queue) hnot
      | @queued queue' _ _ hentries =>
        refine ⟨rfl, sameStates_put_back hready queue queue', ?_⟩
        rw [hsplit, hrotate, ← hrest]
        exact hentries
      | full _ _ hfull =>
        have hfull' : queue.entries.length = 256 := hfull
        rw [hrest] at hfull'
        rw [hsplit, List.length_cons] at hroom
        omega
      | unqueued _ hidle hinit =>
        have hinit' : s.kernelInitComplete = true := hinit
        rw [hidle, hinit'] at hcond
        simp at hcond
    | idle hnone _ =>
      obtain ⟨b, hb⟩ := List.exists_mem_of_ne_nil _ hne
      have hnot := hnone b hb
      rw [hall b hb] at hnot
      exact absurd hready hnot

theorem schedule_unchanged_iff {args : Option SwitchArgs} (h : s.schedule sym = .ok (args, s')) :
    (s'.current = s.current ∧ SameStates s s' ∧ s'.queue.entries = s.queue.entries ∧
      s'.ticksRemaining = s.ticksRemaining) ↔
    ∃ task, s.find s.current = some task ∧ task.ticksRemaining = s.ticksRemaining ∧
      s.NothingToDo task := by
  obtain ⟨nextId, s1, s2, next, hchosen, hrequeued, hnext, rfl, -⟩ := schedule_ok h
  have hquantum : (s.find nextId).map Task.ticksRemaining = some next.ticksRemaining := by
    rw [← hchosen.quantum, ← hrequeued.quantum, hnext]
    rfl
  obtain ⟨task, hfind, hsame⟩ := Option.map_eq_some_iff.mp hquantum
  change (nextId = s.current ∧ SameStates s s2 ∧ s2.queue.entries = s.queue.entries ∧
    next.ticksRemaining = s.ticksRemaining) ↔ _
  constructor
  · rintro ⟨rfl, hstates, hqueue, hticks⟩
    exact ⟨task, hfind, hsame.trans hticks, hchosen.nothingToDo hrequeued hfind hstates hqueue⟩
  · rintro ⟨task', hfind', hticks, hnothing⟩
    obtain ⟨rfl, hstates, hqueue⟩ := hnothing.unchanged hfind' hchosen hrequeued
    rw [hfind] at hfind'
    cases hfind'
    exact ⟨rfl, hstates, hqueue, hsame.symm.trans hticks⟩

/-- Where `schedule` gives up, it has left everything as it was exactly if interrupts were off, there
was nothing to do and the current task has the quantum that the processor counts. -/
theorem schedule_gives_up_unchanged_iff {rflags rflags' : BitVec 64}
    (h : s.scheduleCall sym rflags = .ok (none, s', rflags')) :
    (s'.current = s.current ∧ SameStates s s' ∧ s'.queue.entries = s.queue.entries ∧
      s'.ticksRemaining = s.ticksRemaining ∧ interruptsEnabled rflags' = interruptsEnabled rflags) ↔
    interruptsEnabled rflags = false ∧ ∃ task, s.find s.current = some task ∧
      task.ticksRemaining = s.ticksRemaining ∧ s.NothingToDo task := by
  obtain ⟨⟨args, s1⟩, hschedule, hret⟩ := bind_eq_ok.mp h
  cases args with
  | some args => cases hret
  | none =>
    cases hret
    have hunchanged := schedule_unchanged_iff hschedule
    have hflag : interruptsEnabled (clearInterruptFlag rflags) = interruptsEnabled rflags ↔
        interruptsEnabled rflags = false := by
      rw [interruptsEnabled_cli]
      exact eq_comm
    constructor
    · rintro ⟨hcurrent, hstates, hqueue, hticks, hflags⟩
      exact ⟨hflag.mp hflags, hunchanged.mp ⟨hcurrent, hstates, hqueue, hticks⟩⟩
    · rintro ⟨hoff, hnothing⟩
      obtain ⟨hcurrent, hstates, hqueue, hticks⟩ := hunchanged.mpr hnothing
      exact ⟨hcurrent, hstates, hqueue, hticks, hflag.mpr hoff⟩

def atBoot : Scheduler := initIdle 0 0 0

/-- A call that finds the idle task ready and in the queue, as an earlier one has left it. -/
theorem schedule_gives_up_again : ∃ (s s' : Scheduler) (rflags : BitVec 64),
    s.scheduleCall Processor.sampleSymbols 0x2#64 = .ok (none, s', rflags) ∧ s.queue.entries = [.idle] ∧
    s'.current = s.current ∧ SameStates s s' ∧ s'.queue.entries = s.queue.entries := by
  have hboot : (atBoot.schedule Processor.sampleSymbols).toOption.any (fun r => decide
      (r.2.current = .idle ∧ r.2.queue.entries = [.idle] ∧ r.2.kernelInitComplete = false ∧
        (r.2.find .idle).any (fun t => decide (t.state = .ready ∧ t.ticksRemaining = r.2.ticksRemaining)) ∧
        (r.2.schedule Processor.sampleSymbols).toOption.map Prod.fst = some none)) = true := by
    decide +kernel
  obtain ⟨⟨args, s⟩, -, hs⟩ := (Option.any_eq_true _ _).mp hboot
  obtain ⟨hcurrent, hentries, hinit, hidle, hnone⟩ := of_decide_eq_true hs
  obtain ⟨task, hfind, htask⟩ := (Option.any_eq_true _ _).mp hidle
  obtain ⟨hstate, hticks⟩ := of_decide_eq_true htask
  obtain ⟨⟨args', s'⟩, hschedule, rfl⟩ := Option.map_eq_some_iff.mp hnone
  have hcall : s.scheduleCall Processor.sampleSymbols 0x2#64 = .ok (none, s', _) :=
    bind_eq_ok.mpr ⟨_, Processor.ok_of_toOption hschedule, rfl⟩
  have hnothing : s.NothingToDo task := by
    refine .inr ⟨?_, fun b hb => ?_, hstate, .inr hinit⟩
    · rw [hentries]
      exact List.cons_ne_nil _ _
    · rw [hentries] at hb
      exact (List.mem_singleton.mp hb).trans hcurrent.symm
  rw [← hcurrent] at hfind
  obtain ⟨hsame, hstates, hqueue, -⟩ :=
    (schedule_gives_up_unchanged_iff hcall).mpr ⟨rfl, task, hfind, hticks, hnothing⟩
  exact ⟨s, s', _, hcall, hentries, hsame, hstates, hqueue⟩

/-- The first call at boot: the idle task, which goes on running, is marked ready and put into the
queue, and interrupts stay off. -/
theorem schedule_gives_up_at_boot : ∃ (s' : Scheduler) (rflags : BitVec 64),
    atBoot.scheduleCall Processor.sampleSymbols 0x202#64 = .ok (none, s', rflags) ∧
    atBoot.InState .idle .running ∧ s'.InState .idle .ready ∧
    atBoot.queue.entries = [] ∧ s'.queue.entries = [.idle] ∧
    interruptsEnabled 0x202#64 = true ∧ interruptsEnabled rflags = false :=
  ⟨_, _, rfl, by decide +kernel, by decide +kernel, rfl, by decide +kernel, rfl, rfl⟩

end Scheduler

end CrapOs
