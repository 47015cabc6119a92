import CrapOs.TaskScheduler.Sleepers

/-! # Runs with sleeping tasks

As long as `sleep` finds a place in the queue, every task it has put to sleep has an entry
and is woken when the entry expires.
-/

namespace CrapOs

open Foundation

/-- `asleep` are the tasks that `sleep` has blocked and that have not been woken since. -/
structure Sleepers where
  processor : Processor
  asleep : TaskId → Bool

/-- The sleep queue has a place for the task that calls `sleep`, or an entry for it already. -/
def RoomToSleep (p : Processor) : Event → Prop
  | .sleep seconds => seconds ≤ 4294967 ∧ (p.sched.sleepQueue.entries.length < 256 ∨
      SleepQueue.Holds p.sched.sleepQueue.entries p.sched.current)
  | _ => True

instance (p : Processor) : (e : Event) → Decidable (RoomToSleep p e)
  | .sleep _ => inferInstanceAs (Decidable (_ ∧ (_ ∨ _)))
  | .spawn .. | .block | .yield _ | .exit _ | .exitThread _ | .keyboard _ | .tick _ | .initComplete =>
    .isTrue trivial

namespace Sleepers

variable {w w' : Sleepers} {sym : Symbols} {cond : Processor → Event → Prop}

def boot (idleStack kernelStack cr3 : Nat) : Sleepers :=
  ⟨.boot idleStack kernelStack cr3, fun _ => false⟩

def after (w : Sleepers) (e : Event) (p' : Processor) : Sleepers where
  processor := p'
  asleep a := decide (p'.sched.InState a .blocked) &&
    (w.asleep a || e.isSleep && decide (a = w.processor.sched.current))

def Reached (sym : Symbols) (cond : Processor → Event → Prop) (w : Sleepers) : Prop :=
  Reach (fun w => ∃ idleStack kernelStack cr3, w = boot idleStack kernelStack cr3)
    (fun w w' => ∃ e p', w.processor.Enabled e ∧ cond w.processor e ∧
      w.processor.exec sym e = .ok p' ∧ w' = w.after e p') w

theorem exists_reached {p : Processor} (h : p.Reached sym cond) :
    ∃ w : Sleepers, w.processor = p ∧ w.Reached sym cond := by
  refine h.invariant (fun p => ∃ w : Sleepers, w.processor = p ∧ w.Reached sym cond) ?_ ?_
  · rintro _ ⟨idleStack, kernelStack, cr3, rfl⟩
    exact ⟨boot idleStack kernelStack cr3, rfl, .start ⟨idleStack, kernelStack, cr3, rfl⟩⟩
  · rintro _ p' ⟨w, rfl, hw⟩ ⟨e, hen, hcond, hok⟩
    exact ⟨w.after e p', rfl, .step hw ⟨e, p', hen, hcond, hok, rfl⟩⟩

theorem asleep_after {e : Event} {p' : Processor} {a : TaskId} (h : (w.after e p').asleep a = true) :
    p'.sched.InState a .blocked ∧ (w.asleep a = true ∨
      (∃ seconds, e = .sleep seconds) ∧ a = w.processor.sched.current) := by
  simp only [after, Bool.and_eq_true, Bool.or_eq_true, decide_eq_true_eq] at h
  obtain ⟨hblocked, hold | ⟨hsleep, hcurrent⟩⟩ := h
  · exact ⟨hblocked, .inl hold⟩
  · cases e with
    | sleep seconds => exact ⟨hblocked, .inr ⟨⟨seconds, rfl⟩, hcurrent⟩⟩
    | spawn | block | yield | exit | exitThread | keyboard | tick | initComplete => cases hsleep

end Sleepers

namespace Sleepers

open Scheduler SleepQueue

variable {w w' : Sleepers} {sym : Symbols}

structure Sound (w : Sleepers) : Prop where
  counting : Counting w.processor.sched.sleepQueue.entries
  length : w.processor.sched.sleepQueue.entries.length ≤ 256
  entry : ∀ a, w.asleep a = true → Holds w.processor.sched.sleepQueue.entries a

theorem Sound.step (h : Sound w) {e : Event} {p' : Processor} (hen : w.processor.Enabled e)
    (hcond : RoomToSleep w.processor e) (hok : w.processor.exec sym e = .ok p') : Sound (w.after e p') := by
  refine ⟨Processor.counting_exec h.counting hok, Processor.length_exec h.length hok, fun a ha => ?_⟩
  obtain ⟨hblocked, hcase⟩ := asleep_after ha
  rcases hcase with hold | ⟨⟨seconds, rfl⟩, rfl⟩
  · have hentry := h.entry a hold
    show Holds p'.sched.sleepQueue.entries a
    rcases Processor.exec_sleepQueue hok with ⟨seconds, -, heq⟩ | ⟨⟨rsp, rfl⟩, heq⟩ | ⟨-, -, heq⟩
    · rw [heq, SleepQueue.insert]
      split
      · exact hentry
      · split
        · exact hentry
        · exact holds_insertAt.mpr (.inr hentry)
    · rw [heq]
      refine (holds_expired_or ((holds_countDown _).mpr hentry)).resolve_left fun hexpired => ?_
      exact Processor.not_blocked_tick hexpired hok hblocked
    · rw [heq]
      exact hentry
  · exact (Processor.holds_after_sleep_iff hen.2.2.1 hcond.1 h.length hok).mpr hcond.2

theorem Reached.sound (h : w.Reached sym RoomToSleep) : Sound w := by
  refine h.invariant Sound ?_ ?_
  · rintro _ ⟨idleStack, kernelStack, cr3, rfl⟩
    exact ⟨nofun, Nat.zero_le _, nofun⟩
  · rintro w _ hw ⟨e, p', hen, hcond, hok, rfl⟩
    exact hw.step hen hcond hok

/-- If every call of `sleep` finds a free place in the sleep queue, or an entry for its task, then
every task that is asleep has an entry, and in every continuation with enough timer interrupts
it does not stay blocked. A call of `sleep` leaves an entry for its task in no other case. -/
theorem sleepers_have_entries (h : w.Reached sym RoomToSleep) :
    (∀ a, w.asleep a = true →
      (∃ entry ∈ w.processor.sched.sleepQueue.entries, entry.taskId = a) ∧
      ∃ n, ∀ es p', w.processor.runs sym (fun _ _ => True) es = some p' → n ≤ es.countP Processor.isTick →
        ∃ es₁ es₂ p₁, es = es₁ ++ es₂ ∧ w.processor.runs sym (fun _ _ => True) es₁ = some p₁ ∧
          ¬ p₁.sched.InState a .blocked) ∧
    ∀ seconds p', w.processor.Enabled (.sleep seconds) → seconds ≤ 4294967 →
      w.processor.exec sym (.sleep seconds) = .ok p' →
      ((∃ entry ∈ p'.sched.sleepQueue.entries, entry.taskId = w.processor.sched.current) ↔
        w.processor.sched.sleepQueue.entries.length < 256 ∨
          ∃ entry ∈ w.processor.sched.sleepQueue.entries,
            entry.taskId = w.processor.sched.current) := by
  have hw := h.sound
  refine ⟨fun a ha => ⟨hw.entry a ha, ?_⟩, fun seconds p' hen hshort hok => ?_⟩
  · obtain ⟨n, hdue⟩ := (hw.entry a ha).dueWithin
    exact ⟨n, fun es p' hrun hticks => Processor.woken_in_time hdue hw.counting hrun hticks⟩
  · exact Processor.holds_after_sleep_iff hen.2.2.1 hshort hw.length hok

/-- A task sleeps for a second. -/
theorem sleepers_have_entries_second : ∃ w : Sleepers, w.Reached Processor.sampleSymbols RoomToSleep ∧
    w.asleep ⟨1, 0⟩ = true ∧ ∃ entry ∈ w.processor.sched.sleepQueue.entries, entry.taskId = ⟨1, 0⟩ := by
  obtain ⟨p, hp, hcurrent, hblocked⟩ := Processor.exists_reached Processor.sampleSymbols RoomToSleep 0 0 0
    [.spawn "A" 1 (Processor.sampleTask 1), .initComplete, .yield 0x7000]
    (fun p => p.sched.current = ⟨1, 0⟩ ∧
      (p.exec Processor.sampleSymbols (.sleep 1)).toOption.any (fun p' =>
        decide (p.Enabled (.sleep 1) ∧ RoomToSleep p (.sleep 1) ∧ p'.sched.InState ⟨1, 0⟩ .blocked)) = true)
    (by decide +kernel)
  obtain ⟨p', hexec, hp'⟩ := (Option.any_eq_true _ _).mp hblocked
  obtain ⟨hen, hcond, hstate⟩ := of_decide_eq_true hp'
  obtain ⟨w, rfl, hw⟩ := exists_reached hp
  have hnext : (w.after (.sleep 1) p').Reached Processor.sampleSymbols RoomToSleep :=
    .step hw ⟨.sleep 1, p', hen, hcond, Processor.ok_of_toOption hexec, rfl⟩
  have hasleep : (w.after (.sleep 1) p').asleep ⟨1, 0⟩ = true := by
    simp [after, Event.isSleep, hstate, hcurrent]
  exact ⟨_, hnext, hasleep, ((sleepers_have_entries hnext).1 _ hasleep).1⟩

/-! ## Entries that outlive their tasks

A task that is ended while it sleeps leaves its entry behind. One task, the clerk,
spawns guests that ask to be ended and go to sleep, until the queue is full of
entries of tasks that are gone.
-/

def guests (u : ThreadId) : List Event :=
  (List.range 16).map (fun i => .spawn "Guest" 1 (Processor.sampleTask (u + i))) ++ .yield 0x4f00 ::
    (List.range 16).flatMap (fun i => [.exitThread (u + i), .sleep (4294967 - (u + i)), .yield 0x5f00]) ++
    [.tick 0x4f00, .tick 0x4f00]

def visits (n : Nat) : List Event :=
  [.spawn "Clerk" 1 (Processor.sampleTask 1), .initComplete, .yield 0x7000] ++
    (List.range n).flatMap fun i => guests (16 * i + 2)

-- The run is carried out as it stands: with sixteen guests at a time neither the updates of the
-- task table nor the generations of its slots pile up.
theorem exists_stale : ∃ p : Processor, p.Reached Processor.sampleSymbols ShortSleeps ∧
    p.sched.current = ⟨1, 0⟩ ∧ p.leaving ⟨1, 0⟩ = false ∧ (p.sched.find ⟨1, 0⟩).isSome ∧
    p.sched.sleepQueue.entries.length = 256 ∧ ¬ SleepQueue.Holds p.sched.sleepQueue.entries ⟨1, 0⟩ :=
  Processor.exists_reached Processor.sampleSymbols ShortSleeps 0 0 0 (visits 16) _ (by decide +kernel)

/-- The queue is full of entries of tasks that are gone, and the clerk, which calls `sleep` for
the first time, is blocked without an entry. -/
theorem sleeper_without_entry : ∃ w : Sleepers, w.Reached Processor.sampleSymbols ShortSleeps ∧
    w.asleep ⟨1, 0⟩ = true ∧ ¬ ∃ entry ∈ w.processor.sched.sleepQueue.entries, entry.taskId = ⟨1, 0⟩ := by
  obtain ⟨p, hp, hcurrent, hleaving, hfound, hlength, hstale⟩ := exists_stale
  obtain ⟨w, rfl, hw⟩ := exists_reached hp
  obtain ⟨t, ht⟩ := Option.isSome_iff_exists.mp hfound
  have hen : w.processor.Enabled (.sleep 1) :=
    ⟨hcurrent ▸ hleaving, by rw [hcurrent]; decide, by decide, by decide⟩
  refine ⟨_, .step hw ⟨.sleep 1, _, hen, (by decide : 1 ≤ 4294967), rfl, rfl⟩, ?_, ?_⟩
  · have hblocked : (w.processor.sched.markSleeping 1).InState ⟨1, 0⟩ .blocked := by
      refine ⟨{ t with ticksRemaining := taskQuantumTicks, state := .blocked }, ?_, rfl⟩
      refine (find_markBlocked _ _).trans ((if_pos hcurrent.symm).trans ?_)
      exact Option.map_eq_some_iff.mpr ⟨t, ht, rfl⟩
    simp [after, Event.isSleep, hblocked, hcurrent]
  · have hok : w.processor.exec Processor.sampleSymbols (.sleep 1) = .ok _ := rfl
    have hiff := Processor.holds_after_sleep_iff (by decide) (by decide) (Nat.le_of_eq hlength) hok
    rw [hcurrent, hlength] at hiff
    exact fun hholds => (hiff.mp hholds).elim (Nat.lt_irrefl _) hstale

end Sleepers

end CrapOs
