import CrapOs.TaskScheduler.LifecycleRuns

/-! # Scancodes and the task that reads them

The keyboard interrupt puts a scancode into a ring and wakes the keyboard task;
the task empties the ring and blocks. Both run on the processor of the scheduler,
next to all other tasks.
-/

namespace CrapOs

open Foundation Scheduler

abbrev ScancodeBuffer := RingBuffer UInt8 8

namespace ScancodeBuffer

def new : ScancodeBuffer := .empty 0

def push (buffer : ScancodeBuffer) (scancode : UInt8) : ScancodeBuffer :=
  (RingBuffer.push buffer scancode).getD buffer

end ScancodeBuffer

inductive ReaderPoint where
  /-- not registered yet -/
  | starting
  /-- about to pop a scancode -/
  | draining
  /-- has found the buffer empty and is about to call `yield_blocked` -/
  | emptied
  /-- in `yield_blocked`, about to call `schedule` -/
  | leaving
deriving DecidableEq, Repr

structure KeyboardSystem where
  processor : Processor
  scancodeBuffer : ScancodeBuffer
  keyboardTaskId : Option TaskId
  point : ReaderPoint

inductive KeyboardEvent where
  /-- a timer interrupt, or what another task does -/
  | other (e : Event)
  /-- the keyboard interrupt -/
  | scancode (code : UInt8)
  | setTaskId
  | popScancode
  /-- `yield_blocked` up to its call of `schedule` -/
  | block
  | yield (rsp : Nat)

namespace KeyboardSystem

variable {k k' : KeyboardSystem} {sym : Symbols} {reader : TaskId} {e : KeyboardEvent}

def boot (idleStack kernelStack cr3 : Nat) : KeyboardSystem :=
  ⟨.boot idleStack kernelStack cr3, .new, none, .starting⟩

/-- `keyboard_push_scancode`; the result of `wake` is ignored. -/
def pushScancode (sym : Symbols) (k : KeyboardSystem) (code : UInt8) : Except Halt KeyboardSystem :=
  let k := { k with scancodeBuffer := k.scancodeBuffer.push code }
  match k.keyboardTaskId with
  | none => pure k
  | some taskId => do
    let p ← k.processor.exec sym (.keyboard taskId)
    pure { k with processor := p }

/-- `keyboard_pop_scancode` in the condition of the loop. -/
def popScancode (k : KeyboardSystem) : KeyboardSystem :=
  match k.scancodeBuffer.pop with
  | none => { k with point := .emptied }
  | some (_, buffer) => { k with scancodeBuffer := buffer }

def exec (sym : Symbols) (k : KeyboardSystem) : KeyboardEvent → Except Halt KeyboardSystem
  | .other e => do
    let p ← k.processor.exec sym e
    pure { k with processor := p }
  | .scancode code => k.pushScancode sym code
  | .setTaskId => pure { k with keyboardTaskId := some k.processor.sched.current, point := .draining }
  | .popScancode => pure k.popScancode
  | .block => do
    let p ← k.processor.exec sym .block
    pure { k with processor := p, point := .leaving }
  | .yield rsp => do
    let p ← k.processor.exec sym (.yield rsp)
    pure { k with processor := p, point := .draining }

/-- The keyboard task, whose id is `reader`, does what its loop says whenever it is current.
Interrupts can come between any two of its steps. -/
def Enabled (reader : TaskId) (k : KeyboardSystem) : KeyboardEvent → Prop
  | .other (.tick rsp) => k.processor.Enabled (.tick rsp)
  | .other (.keyboard _) => False
  | .other e => k.processor.Enabled e ∧ k.processor.sched.current ≠ reader
  | .scancode _ => True
  | .setTaskId => k.processor.sched.current = reader ∧ k.point = .starting
  | .popScancode => k.processor.sched.current = reader ∧ k.point = .draining
  | .block => k.processor.sched.current = reader ∧ k.point = .emptied ∧ k.processor.Enabled .block
  | .yield rsp => k.processor.sched.current = reader ∧ k.point = .leaving ∧
      k.processor.Enabled (.yield rsp)

def Reached (sym : Symbols) (reader : TaskId) (cond : KeyboardSystem → KeyboardEvent → Prop)
    (k : KeyboardSystem) : Prop :=
  Reach (fun k => ∃ idleStack kernelStack cr3, k = boot idleStack kernelStack cr3)
    (fun k k' => ∃ e, k.Enabled reader e ∧ cond k e ∧ k.exec sym e = .ok k') k

/-- No key is pressed between the moment the task finds the buffer empty and the moment it is
marked as blocked. -/
def NoKeyInWindow (k : KeyboardSystem) : KeyboardEvent → Prop
  | .scancode _ => k.point ≠ .emptied
  | _ => True

instance (k : KeyboardSystem) : (e : KeyboardEvent) → Decidable (k.Enabled reader e)
  | .other (.tick rsp) => inferInstanceAs (Decidable (k.processor.Enabled (.tick rsp)))
  | .other (.keyboard _) => .isFalse id
  | .other (.spawn ..) | .other .block | .other (.sleep _) | .other (.yield _) | .other (.exit _)
  | .other (.exitThread _) | .other .initComplete => inferInstanceAs (Decidable (_ ∧ _))
  | .scancode _ => .isTrue trivial
  | .setTaskId | .popScancode => inferInstanceAs (Decidable (_ ∧ _))
  | .block | .yield _ => inferInstanceAs (Decidable (_ ∧ _ ∧ _))

instance (k : KeyboardSystem) : (e : KeyboardEvent) → Decidable (NoKeyInWindow k e)
  | .scancode _ => inferInstanceAs (Decidable (k.point ≠ .emptied))
  | .other _ | .setTaskId | .popScancode | .block | .yield _ => .isTrue trivial

structure Attentive (reader : TaskId) (k : KeyboardSystem) : Prop where
  taskId : k.keyboardTaskId = if k.point = .starting then none else some reader
  emptied : k.point = .emptied → k.scancodeBuffer.entries = []
  blocked : k.processor.sched.InState reader .blocked →
    k.point ≠ .starting ∧ k.scancodeBuffer.entries = []

theorem attentive_boot (idleStack kernelStack cr3 : Nat) :
    Attentive reader (boot idleStack kernelStack cr3) := by
  refine ⟨rfl, nofun, ?_⟩
  rintro ⟨t, ht, hblocked⟩
  obtain ⟨-, rfl⟩ := Processor.boot_find ht
  cases hblocked

theorem Attentive.pushScancode (h : Attentive reader k) (hpoint : k.point ≠ .emptied) {code : UInt8}
    (hok : k.pushScancode sym code = .ok k') : Attentive reader k' := by
  rw [KeyboardSystem.pushScancode] at hok
  by_cases hstart : k.point = .starting
  · have hid := h.taskId
    rw [if_pos hstart] at hid
    rw [hid] at hok
    cases hok
    exact ⟨(if_pos hstart).symm, fun hemptied => absurd hemptied hpoint,
      fun hblocked => absurd hstart (h.blocked hblocked).1⟩
  · have hid := h.taskId
    rw [if_neg hstart] at hid
    rw [hid] at hok
    cases hok
    exact ⟨(if_neg hstart).symm, fun hemptied => absurd hemptied hpoint,
      fun hblocked => absurd hblocked (not_blocked_wake _ reader)⟩

theorem Attentive.step (h : Attentive reader k) (hen : k.Enabled reader e) (hcond : NoKeyInWindow k e)
    (hok : k.exec sym e = .ok k') : Attentive reader k' := by
  cases e with
  | other e =>
    obtain ⟨p, hexec, hret⟩ := bind_eq_ok.mp hok
    cases hret
    refine ⟨h.taskId, h.emptied, fun hblocked => h.blocked (Processor.blocked_before ?_ hexec hblocked)⟩
    rintro (rfl | ⟨seconds, rfl⟩)
    · exact hen.2
    · exact hen.2
  | scancode code => exact h.pushScancode hcond hok
  | setTaskId =>
    cases hok
    refine ⟨?_, nofun, fun hblocked => absurd hen.2 (h.blocked hblocked).1⟩
    show some k.processor.sched.current = _
    rw [hen.1]
    rfl
  | popScancode =>
    cases hok
    have htaskId := h.taskId
    rw [hen.2] at htaskId
    rw [KeyboardSystem.popScancode]
    cases hpop : k.scancodeBuffer.pop with
    | none =>
      have hempty := RingBuffer.pop_eq_none.mp hpop
      exact ⟨htaskId, fun _ => hempty, fun _ => ⟨nofun, hempty⟩⟩
    | some popped =>
      have hentries := RingBuffer.entries_pop hpop
      refine ⟨h.taskId, fun hemptied => ?_, fun hblocked => ?_⟩
      · cases hen.2.symm.trans hemptied
      · rw [(h.blocked hblocked).2] at hentries
        cases hentries
  | block =>
    obtain ⟨p, -, hret⟩ := bind_eq_ok.mp hok
    cases hret
    have htaskId := h.taskId
    rw [hen.2.1] at htaskId
    exact ⟨htaskId, nofun, fun _ => ⟨nofun, h.emptied hen.2.1⟩⟩
  | yield rsp =>
    obtain ⟨p, hexec, hret⟩ := bind_eq_ok.mp hok
    cases hret
    have htaskId := h.taskId
    rw [hen.2.1] at htaskId
    refine ⟨htaskId, nofun, fun hblocked => ⟨nofun, (h.blocked ?_).2⟩⟩
    refine Processor.blocked_before ?_ hexec hblocked
    rintro (heq | ⟨seconds, heq⟩) <;> cases heq

/-- If no key is pressed between the moment the keyboard task finds the buffer empty and the
moment it is marked as blocked, then no scancode waits while it is blocked. -/
theorem blocked_reader_leaves_no_scancode (h : Reached sym reader NoKeyInWindow k)
    (hblocked : k.processor.sched.InState reader .blocked) : k.scancodeBuffer.entries = [] := by
  have hinv : Attentive reader k := by
    refine h.invariant (Attentive reader) ?_ ?_
    · rintro _ ⟨idleStack, kernelStack, cr3, rfl⟩
      exact attentive_boot idleStack kernelStack cr3
    · rintro k k' hk ⟨e, hen, hcond, hok⟩
      exact hk.step hen hcond hok
  exact (hinv.blocked hblocked).2

def attempt (sym : Symbols) (reader : TaskId) (cond : KeyboardSystem → KeyboardEvent → Prop)
    [∀ k e, Decidable (cond k e)] (k : KeyboardSystem) (e : KeyboardEvent) : Option KeyboardSystem :=
  if k.Enabled reader e ∧ cond k e then (k.exec sym e).toOption else none

theorem exists_reached (sym : Symbols) (reader : TaskId)
    (cond : KeyboardSystem → KeyboardEvent → Prop) [∀ k e, Decidable (cond k e)]
    (es : List KeyboardEvent) (q : KeyboardSystem → Prop) [DecidablePred q]
    (h : (runEvents (attempt sym reader cond) (boot 0 0 0) es).any (fun k => decide (q k)) = true) :
    ∃ k, Reached sym reader cond k ∧ q k := by
  refine Reach.exists_run ?_ ⟨0, 0, 0, rfl⟩ es q h
  intro k e k' hattempt
  obtain ⟨⟨hen, hcond⟩, hok⟩ := Option.ite_none_right_eq_some.mp hattempt
  exact ⟨e, hen, hcond, Processor.ok_of_toOption hok⟩

/-- A key is pressed and read, and the task blocks. -/
theorem blocked_reader_leaves_no_scancode_read : ∃ k, Reached Processor.sampleSymbols ⟨1, 0⟩ NoKeyInWindow k ∧
    k.processor.sched.InState ⟨1, 0⟩ .blocked ∧ k.scancodeBuffer.entries = [] := by
  obtain ⟨k, hk, hblocked⟩ := exists_reached Processor.sampleSymbols ⟨1, 0⟩ NoKeyInWindow
    [.other (.spawn "Keyboard reader" 1 (Processor.sampleTask 1)), .other .initComplete,
      .other (.yield 0x7000), .setTaskId, .scancode 0x1e, .popScancode, .popScancode, .block,
      .yield 0x4f00]
    (fun k => k.processor.sched.InState ⟨1, 0⟩ .blocked) (by decide +kernel)
  exact ⟨k, hk, hblocked, blocked_reader_leaves_no_scancode hk hblocked⟩

/-- A key that is pressed after the task has found the buffer empty and before it is marked as
blocked waits for the next one. -/
theorem key_in_window_waits : ∃ k, Reached Processor.sampleSymbols ⟨1, 0⟩ (fun _ _ => True) k ∧
    k.processor.sched.InState ⟨1, 0⟩ .blocked ∧ k.scancodeBuffer.entries = [0x1e] :=
  exists_reached Processor.sampleSymbols ⟨1, 0⟩ (fun _ _ => True)
    [.other (.spawn "Keyboard reader" 1 (Processor.sampleTask 1)), .other .initComplete,
      .other (.yield 0x7000), .setTaskId, .popScancode, .scancode 0x1e, .block, .yield 0x4f00]
    (fun k => k.processor.sched.InState ⟨1, 0⟩ .blocked ∧ k.scancodeBuffer.entries = [0x1e])
    (by decide +kernel)

/-- The scancode an event adds to the buffer; it is dropped if 256 others wait. -/
def stored (k : KeyboardSystem) : KeyboardEvent → List UInt8
  | .scancode code => if k.scancodeBuffer.entries.length = 256 then [] else [code]
  | _ => []

def taken (k : KeyboardSystem) : KeyboardEvent → List UInt8
  | .popScancode => (k.scancodeBuffer.pop.map Prod.fst).toList
  | _ => []

/-- What is stored and what is taken along a run, and the state at its end. -/
def traffic (sym : Symbols) :
    KeyboardSystem → List KeyboardEvent → Except Halt (List UInt8 × List UInt8 × KeyboardSystem)
  | k, [] => pure ([], [], k)
  | k, e :: es => do
    let k' ← k.exec sym e
    let (ins, outs, q) ← traffic sym k' es
    pure (k.stored e ++ ins, k.taken e ++ outs, q)

theorem entries_pushScancode {code : UInt8} (hok : k.pushScancode sym code = .ok k') :
    k'.scancodeBuffer.entries = k.scancodeBuffer.entries ++ k.stored (.scancode code) := by
  have hbuffer : k'.scancodeBuffer = k.scancodeBuffer.push code := by
    rw [pushScancode] at hok
    split at hok
    · cases hok
      rfl
    · obtain ⟨p, -, hret⟩ := bind_eq_ok.mp hok
      cases hret
      rfl
  rw [hbuffer, stored, ScancodeBuffer.push]
  cases hpush : RingBuffer.push k.scancodeBuffer code with
  | none => simp [RingBuffer.push_eq_none.mp hpush]
  | some buffer =>
    have hroom : k.scancodeBuffer.entries.length ≠ 256 := by
      intro hfull
      rw [RingBuffer.push_eq_none.mpr hfull] at hpush
      cases hpush
    rw [if_neg hroom]
    exact RingBuffer.entries_push hpush

theorem entries_exec (hok : k.exec sym e = .ok k') :
    k.scancodeBuffer.entries ++ k.stored e = k.taken e ++ k'.scancodeBuffer.entries := by
  cases e with
  | scancode code => exact (entries_pushScancode hok).symm
  | popScancode =>
    cases hok
    show _ ++ [] = (k.scancodeBuffer.pop.map Prod.fst).toList ++ k.popScancode.scancodeBuffer.entries
    rw [popScancode, List.append_nil]
    cases hpop : k.scancodeBuffer.pop with
    | none => rfl
    | some popped => exact RingBuffer.entries_pop hpop
  | setTaskId =>
    cases hok
    exact List.append_nil _
  | other | block | yield =>
    obtain ⟨p, -, hret⟩ := bind_eq_ok.mp hok
    cases hret
    exact List.append_nil _

/-- Whatever happens in between, the keyboard task takes the scancodes in the order they came in,
each of them once; only those that find 256 others waiting are lost. -/
theorem scancodes_taken_in_order {es : List KeyboardEvent} {ins outs : List UInt8} {q : KeyboardSystem}
    (hrun : k.traffic sym es = .ok (ins, outs, q)) :
    k.scancodeBuffer.entries ++ ins = outs ++ q.scancodeBuffer.entries := by
  induction es generalizing k ins outs with
  | nil =>
    cases hrun
    exact List.append_nil _
  | cons e es ih =>
    obtain ⟨k', hok, hrest⟩ := bind_eq_ok.mp hrun
    obtain ⟨⟨ins', outs', q'⟩, hrun', hret⟩ := bind_eq_ok.mp hrest
    cases hret
    rw [← List.append_assoc, entries_exec hok, List.append_assoc, ih hrun', List.append_assoc]

theorem scancodes_taken_in_order_two : ∃ ins outs q,
    (boot 0 0 0).traffic Processor.sampleSymbols [.scancode 30, .scancode 158, .popScancode] =
      .ok (ins, outs, q) ∧ [] ++ ins = outs ++ q.scancodeBuffer.entries := by
  obtain ⟨⟨ins, outs, q⟩, hrun⟩ : ∃ r, (boot 0 0 0).traffic Processor.sampleSymbols
      [.scancode 30, .scancode 158, .popScancode] = .ok r := ⟨_, rfl⟩
  exact ⟨ins, outs, q, hrun, scancodes_taken_in_order hrun⟩

end KeyboardSystem

end CrapOs
