import CrapOs.Checked
import CrapOs.TaskScheduler.Sleepers

/-! # The sleep queue in its array

`SleepQueue` as the kernel stores it: 256 slots, the entries at the front and the other
slots empty. Entries are moved one slot at a time, with `take`, to make room for a new
one and to close the gap an expired one leaves. Every index is checked and so is every
subtraction; none of the checks fails, and the array holds the list of the queue.
-/

namespace CrapOs

open Foundation Checked

structure SleepSlots where
  entries : Array (Option SleepEntry)
  queueLen : Nat

namespace SleepSlots

def new : SleepSlots := ⟨Array.replicate maxSleepEntries none, 0⟩

/-- `entries[i].as_ref().unwrap()` -/
def entryAt (xs : Array (Option SleepEntry)) (i : Nat) : Except Halt SleepEntry := do
  match ← Checked.get xs i with
  | some entry => pure entry
  | none => .error (.panic "called `Option::unwrap()` on a `None` value")

/-- `entries[dst] = entries[src].take()` -/
def moveSlot (xs : Array (Option SleepEntry)) (src dst : Nat) :
    Except Halt (Array (Option SleepEntry)) := do
  let entry ← Checked.get xs src
  let xs ← Checked.set xs src none
  Checked.set xs dst entry

/-- The walk over the last `count` entries, the first of them in slot `i`: the slot for the
new entry, and what is left of its ticks there. -/
def findSlot (xs : Array (Option SleepEntry)) : Nat → Nat → Nat → Except Halt (Nat × Nat)
  | 0, i, remaining => pure (i, remaining)
  | count + 1, i, remaining => do
    let entry ← entryAt xs i
    if remaining ≤ entry.deltaTicks then pure (i, remaining)
    else do
      let remaining ← Checked.sub remaining entry.deltaTicks
      findSlot xs count (i + 1) remaining

def shiftRight (insertPos : Nat) :
    Nat → Array (Option SleepEntry) → Except Halt (Array (Option SleepEntry))
  | 0, xs => pure xs
  | i + 1, xs =>
    if insertPos < i + 1 then do
      let xs ← moveSlot xs i (i + 1)
      shiftRight insertPos i xs
    else pure xs

def fixSuccessor (xs : Array (Option SleepEntry)) (queueLen i remaining : Nat) :
    Except Halt (Array (Option SleepEntry)) := do
  if i < queueLen then
    match ← Checked.get xs i with
    | none => pure xs
    | some next => do
      let deltaTicks ← Checked.sub next.deltaTicks remaining
      Checked.set xs i (some { next with deltaTicks := deltaTicks })
  else pure xs

def insert (q : SleepSlots) (taskId : TaskId) (ticks : Nat) : Except Halt SleepSlots := do
  if ticks = 0 then pure q
  else if q.queueLen = maxSleepEntries then pure q
  else do
    let (insertPos, remaining) ← findSlot q.entries q.queueLen 0 ticks
    let xs ← shiftRight insertPos q.queueLen q.entries
    let xs ← Checked.set xs insertPos (some ⟨remaining, taskId⟩)
    let queueLen := q.queueLen + 1
    let xs ← fixSuccessor xs queueLen (insertPos + 1) remaining
    pure ⟨xs, queueLen⟩

def countDown (xs : Array (Option SleepEntry)) : Except Halt (Array (Option SleepEntry)) := do
  match ← Checked.get xs 0 with
  | none => pure xs
  | some head =>
    if 0 < head.deltaTicks then do
      let deltaTicks ← Checked.sub head.deltaTicks 1
      Checked.set xs 0 (some { head with deltaTicks := deltaTicks })
    else pure xs

/-- The loop that pops expired entries, with `queue_len` counting its turns. The ids are those
`wake` is called with, in this order. -/
def popExpired : Nat → Array (Option SleepEntry) → Except Halt (List TaskId × SleepSlots)
  | 0, xs => pure ([], ⟨xs, 0⟩)
  | n + 1, xs => do
    let head ← Checked.get xs 0
    let delta := (head.map SleepEntry.deltaTicks).getD 1
    if delta ≠ 0 then pure ([], ⟨xs, n + 1⟩)
    else do
      let entry ← entryAt xs 0
      let xs ← Checked.set xs 0 none
      let xs ← (List.range n).foldlM (fun xs i => moveSlot xs (i + 1) i) xs
      let (woken, q) ← popExpired n xs
      pure (entry.taskId :: woken, q)

def tick (q : SleepSlots) : Except Halt (List TaskId × SleepSlots) := do
  if q.queueLen = 0 then pure ([], q)
  else do
    let xs ← countDown q.entries
    popExpired q.queueLen xs

/-- The entries of `l` at the front of the array, and nothing behind them. -/
structure Stores (xs : Array (Option SleepEntry)) (l : List SleepEntry) : Prop where
  size_eq : xs.size = maxSleepEntries
  length_le : l.length ≤ maxSleepEntries
  slot : ∀ j, j < maxSleepEntries → xs[j]? = some l[j]?

variable {xs : Array (Option SleepEntry)} {l pre post : List SleepEntry} {i j n pos : Nat}

theorem stores_new : Stores new.entries [] where
  size_eq := Array.size_replicate
  length_le := Nat.zero_le _
  slot j hj := by
    rw [new, Array.getElem?_replicate, if_pos hj]
    rfl

theorem get_of_slot {x : Option SleepEntry} (h : xs[i]? = some x) : Checked.get xs i = .ok x := by
  rw [Checked.get, h]

theorem Stores.get (h : Stores xs l) (hi : i < maxSleepEntries) : Checked.get xs i = .ok l[i]? :=
  get_of_slot (h.slot i hi)

variable {entry : SleepEntry}

theorem Stores.entry_lt (h : Stores xs (pre ++ entry :: post)) :
    pre.length < maxSleepEntries := by
  have hle := h.length_le
  rw [List.length_append, List.length_cons] at hle
  omega

theorem Stores.get_entry (h : Stores xs (pre ++ entry :: post)) :
    Checked.get xs pre.length = .ok (some entry) := by
  rw [h.get h.entry_lt]
  simp

theorem Stores.entryAt (h : Stores xs (pre ++ entry :: post)) :
    SleepSlots.entryAt xs pre.length = .ok entry := by
  rw [SleepSlots.entryAt, h.get_entry]
  rfl

theorem Stores.set {old : SleepEntry} (h : Stores xs (pre ++ old :: post)) (new : SleepEntry) :
    ∃ ys, Checked.set xs pre.length (some new) = .ok ys ∧ Stores ys (pre ++ new :: post) := by
  have hlt := h.entry_lt
  refine ⟨_, set_ok _ (by rw [h.size_eq]; exact hlt), ?_, ?_, fun j hj => ?_⟩
  · rw [Array.size_setIfInBounds, h.size_eq]
  · have hle := h.length_le
    simpa using hle
  · rw [Array.getElem?_setIfInBounds, h.size_eq, if_pos hlt, h.slot j hj]
    by_cases hj' : pre.length = j
    · subst hj'
      simp
    · rw [if_neg hj', List.getElem?_append, List.getElem?_append]
      split
      · rfl
      · have hpos : j - pre.length ≠ 0 := by omega
        rw [List.getElem?_cons, List.getElem?_cons, if_neg hpos, if_neg hpos]

theorem moveSlot_spec {src dst : Nat} (hsrc : src < xs.size) (hdst : dst < xs.size) :
    ∃ ys, moveSlot xs src dst = .ok ys ∧ ys.size = xs.size ∧
      ∀ j, ys[j]? = if j = dst then xs[src]? else if j = src then some none else xs[j]? := by
  refine ⟨(xs.setIfInBounds src none).setIfInBounds dst xs[src], ?_, ?_, fun j => ?_⟩
  · rw [moveSlot, get_ok hsrc]
    change Checked.set xs src none >>= _ = _
    rw [set_ok _ hsrc]
    change Checked.set _ dst xs[src] = _
    rw [set_ok _ (by rw [Array.size_setIfInBounds]; exact hdst)]
  · rw [Array.size_setIfInBounds, Array.size_setIfInBounds]
  · rw [Array.getElem?_setIfInBounds, Array.size_setIfInBounds, if_pos hdst,
      Array.getElem?_setIfInBounds, if_pos hsrc, Array.getElem?_eq_getElem hsrc]
    simp only [eq_comm]

theorem shiftRight_spec (hn : n < xs.size) (hpos : pos ≤ n) :
    ∃ ys, shiftRight pos n xs = .ok ys ∧ ys.size = xs.size ∧
      ∀ j, ys[j]? = if pos < j ∧ j ≤ n then xs[j - 1]?
        else if j = pos ∧ pos < n then some none else xs[j]? := by
  induction n generalizing xs with
  | zero =>
    refine ⟨xs, rfl, rfl, fun j => ?_⟩
    rw [if_neg (by omega), if_neg (by omega)]
  | succ n ih =>
    rw [shiftRight]
    by_cases hlt : pos < n + 1
    · obtain ⟨ys, hmove, hsize, hslot⟩ := moveSlot_spec (Nat.lt_of_succ_lt hn) hn
      have hn' : n < ys.size := by omega
      obtain ⟨zs, hshift, hsize', hslot'⟩ := ih hn' (by omega)
      refine ⟨zs, ?_, hsize'.trans hsize, fun j => ?_⟩
      · rw [if_pos hlt, hmove]
        exact hshift
      · rw [hslot' j, hslot (j - 1), hslot j]
        by_cases hj : j = n + 1
        · subst hj
          rw [if_neg (by omega), if_neg (by omega), if_pos rfl, if_pos (by omega)]
          rfl
        · by_cases hin : pos < j ∧ j ≤ n
          · rw [if_pos hin, if_neg (by omega), if_neg (by omega), if_pos (by omega)]
          · rw [if_neg hin, if_neg (c := pos < j ∧ j ≤ n + 1) (by omega)]
            by_cases hp : j = pos
            · subst hp
              by_cases hjn : j < n
              · rw [if_pos (by omega), if_pos (by omega)]
              · rw [if_neg (by omega), if_neg hj, if_pos (by omega), if_pos (by omega)]
            · rw [if_neg (by omega), if_neg hj, if_neg (by omega), if_neg (by omega)]
    · refine ⟨xs, if_neg hlt, rfl, fun j => ?_⟩
      rw [if_neg (by omega), if_neg (by omega)]

/-- Closing the gap in slot 0. -/
theorem shiftLeft_spec (hgap : xs[0]? = some none) (hn : n < xs.size) :
    ∃ ys, (List.range n).foldlM (fun xs i => moveSlot xs (i + 1) i) xs = .ok ys ∧
      ys.size = xs.size ∧
      ∀ j, ys[j]? = if j < n then xs[j + 1]? else if j = n then some none else xs[j]? := by
  induction n with
  | zero =>
    refine ⟨xs, rfl, rfl, fun j => ?_⟩
    by_cases hj : j = 0
    · subst hj
      rw [if_neg (by omega), if_pos rfl, hgap]
    · rw [if_neg (by omega), if_neg hj]
  | succ n ih =>
    obtain ⟨ys, hshift, hsize, hslot⟩ := ih (Nat.lt_of_succ_lt hn)
    have hsrc : n + 1 < ys.size := by omega
    have hdst : n < ys.size := by omega
    obtain ⟨zs, hmove, hsize', hslot'⟩ := moveSlot_spec hsrc hdst
    refine ⟨zs, ?_, hsize'.trans hsize, fun j => ?_⟩
    · rw [List.range_succ, List.foldlM_append, hshift]
      change List.foldlM (fun xs i => moveSlot xs (i + 1) i) ys [n] = _
      rw [List.foldlM_cons, hmove]
      rfl
    · rw [hslot' j, hslot (n + 1), hslot j]
      by_cases hj : j = n
      · subst hj
        rw [if_pos rfl, if_neg (by omega), if_neg (by omega), if_pos (by omega)]
      · rw [if_neg hj]
        by_cases hnext : j = n + 1
        · rw [if_pos hnext, if_neg (by omega), if_pos hnext]
        · rw [if_neg hnext, if_neg hj, if_neg hnext]
          by_cases hlt : j < n
          · rw [if_pos hlt, if_pos (by omega)]
          · rw [if_neg hlt, if_neg (by omega)]

/-- Room for one more entry behind `pre`. -/
theorem Stores.makeRoom (h : Stores xs (pre ++ post)) (hroom : (pre ++ post).length < maxSleepEntries)
    (entry : SleepEntry) :
    ∃ ys zs, shiftRight pre.length (pre ++ post).length xs = .ok ys ∧
      Checked.set ys pre.length (some entry) = .ok zs ∧ Stores zs (pre ++ entry :: post) := by
  have hle : pre.length ≤ (pre ++ post).length := by
    rw [List.length_append]
    omega
  have hend : (pre ++ post).length < xs.size := by
    rw [h.size_eq]
    exact hroom
  obtain ⟨ys, hshift, hsize, hslot⟩ := shiftRight_spec hend hle
  have hlt : pre.length < ys.size := by
    omega
  refine ⟨ys, _, hshift, set_ok _ hlt, ?_, ?_, fun j hj => ?_⟩
  · rw [Array.size_setIfInBounds, hsize, h.size_eq]
  · rw [List.length_append, List.length_cons]
    rw [List.length_append] at hroom
    omega
  · rw [Array.getElem?_setIfInBounds, if_pos hlt, hslot j]
    rw [List.length_append] at hroom ⊢
    by_cases hbefore : j < pre.length
    · rw [if_neg (by omega), if_neg (by omega), if_neg (by omega), h.slot j hj,
        List.getElem?_append_left hbefore, List.getElem?_append_left hbefore]
    · rw [List.getElem?_append_right (Nat.le_of_not_lt hbefore), List.getElem?_cons]
      by_cases hat : pre.length = j
      · subst hat
        rw [if_pos rfl, if_pos (Nat.sub_self _)]
      · have hnz : j - pre.length ≠ 0 := by omega
        rw [if_neg hat, if_neg hnz]
        by_cases hin : j ≤ pre.length + post.length
        · rw [if_pos (by omega), h.slot (j - 1) (by omega),
            List.getElem?_append_right (by omega)]
          congr 2
          omega
        · rw [if_neg (by omega), if_neg (by omega), h.slot j hj,
            List.getElem?_eq_none (by rw [List.length_append]; omega), List.getElem?_eq_none (by omega)]

theorem Stores.closeGap (h : Stores xs (entry :: l)) :
    ∃ ys zs, Checked.set xs 0 none = .ok ys ∧
      (List.range l.length).foldlM (fun xs i => moveSlot xs (i + 1) i) ys = .ok zs ∧ Stores zs l := by
  have hle := h.length_le
  rw [List.length_cons] at hle
  have hpos : 0 < xs.size := by
    rw [h.size_eq]
    omega
  have hgap : (xs.setIfInBounds 0 none)[0]? = some none := by
    rw [Array.getElem?_setIfInBounds, if_pos rfl, if_pos hpos]
  have hend : l.length < (xs.setIfInBounds 0 none).size := by
    rw [Array.size_setIfInBounds, h.size_eq]
    exact hle
  obtain ⟨zs, hshift, hsize, hslot⟩ := shiftLeft_spec hgap hend
  refine ⟨_, zs, set_ok _ hpos, hshift, ?_, Nat.le_of_succ_le hle, fun j hj => ?_⟩
  · rw [hsize, Array.size_setIfInBounds, h.size_eq]
  · rw [hslot j, Array.getElem?_setIfInBounds, Array.getElem?_setIfInBounds]
    by_cases hlt : j < l.length
    · rw [if_pos hlt, if_neg (by omega), h.slot (j + 1) (by omega), List.getElem?_cons_succ]
    · rw [if_neg hlt, List.getElem?_eq_none (Nat.le_of_not_lt hlt)]
      by_cases heq : j = l.length
      · rw [if_pos heq]
      · rw [if_neg heq, if_neg (by omega), h.slot j hj,
          List.getElem?_eq_none (by rw [List.length_cons]; omega)]

/-- The first entry is counted from `remaining` ticks later on. -/
def lowerHead (remaining : Nat) : List SleepEntry → List SleepEntry
  | [] => []
  | entry :: rest => { entry with deltaTicks := entry.deltaTicks - remaining } :: rest

theorem findSlot_step {remaining : Nat} (h : entryAt xs i = .ok entry) :
    findSlot xs (n + 1) i remaining =
      if remaining ≤ entry.deltaTicks then .ok (i, remaining)
      else findSlot xs n (i + 1) (remaining - entry.deltaTicks) := by
  rw [findSlot, h]
  by_cases hle : remaining ≤ entry.deltaTicks
  · rw [if_pos hle]
    exact if_pos hle
  · rw [if_neg hle]
    refine (if_neg hle).trans ?_
    rw [sub_ok (by omega)]
    rfl

/-- The walk stops where the list inserts. -/
theorem findSlot_spec (h : Stores xs (pre ++ post)) (remaining : Nat) :
    ∃ before after left, post = before ++ after ∧
      findSlot xs post.length pre.length remaining = .ok ((pre ++ before).length, left) ∧
      (∀ taskId, SleepQueue.insertAt taskId remaining post =
        before ++ ⟨left, taskId⟩ :: lowerHead left after) ∧
      ∀ entry ∈ after.head?, left ≤ entry.deltaTicks := by
  induction post generalizing pre remaining with
  | nil =>
    refine ⟨[], [], remaining, rfl, ?_, fun _ => rfl, ?_⟩
    · rw [List.append_nil]
      rfl
    · intro entry hentry
      cases hentry
  | cons entry post ih =>
    rw [List.length_cons, findSlot_step h.entryAt]
    by_cases hle : remaining ≤ entry.deltaTicks
    · refine ⟨[], entry :: post, remaining, rfl, ?_, fun taskId => ?_, ?_⟩
      · rw [if_pos hle, List.append_nil]
      · rw [SleepQueue.insertAt, if_pos hle]
        rfl
      · intro e he
        cases he
        exact hle
    · have hstores : Stores xs (pre ++ [entry] ++ post) := by
        rw [List.append_assoc]
        exact h
      have hlen : (pre ++ [entry]).length = pre.length + 1 := List.length_append
      obtain ⟨before, after, left, rfl, hfind, hinsert, hleft⟩ :=
        ih hstores (remaining - entry.deltaTicks)
      refine ⟨entry :: before, after, left, rfl, ?_, fun taskId => ?_, hleft⟩
      · rw [if_neg hle]
        rw [hlen, List.append_assoc] at hfind
        exact hfind
      · rw [SleepQueue.insertAt, if_neg hle, hinsert]
        rfl

theorem Stores.fixSuccessor {new : SleepEntry} (h : Stores xs (pre ++ new :: post))
    (hle : ∀ entry ∈ post.head?, new.deltaTicks ≤ entry.deltaTicks) :
    ∃ ys, SleepSlots.fixSuccessor xs ((pre ++ post).length + 1) (pre.length + 1) new.deltaTicks =
        .ok ys ∧
      Stores ys (pre ++ new :: lowerHead new.deltaTicks post) := by
  cases post with
  | nil =>
    rw [List.append_nil]
    exact ⟨xs, if_neg (Nat.lt_irrefl _), h⟩
  | cons entry post =>
    have hbehind : Stores xs (pre ++ [new] ++ entry :: post) := by
      rw [List.append_assoc]
      exact h
    have hlen : (pre ++ [new]).length = pre.length + 1 := List.length_append
    obtain ⟨ys, hset, hstores⟩ :=
      hbehind.set { entry with deltaTicks := entry.deltaTicks - new.deltaTicks }
    have hget := hbehind.get_entry
    rw [hlen] at hset hget
    rw [List.append_assoc] at hstores
    have hlt : pre.length + 1 < (pre ++ entry :: post).length + 1 := by
      rw [List.length_append, List.length_cons]
      omega
    refine ⟨ys, (if_pos hlt).trans (bind_eq_ok.mpr ⟨_, hget, ?_⟩), hstores⟩
    exact bind_eq_ok.mpr ⟨_, sub_ok (hle entry rfl), hset⟩

structure Represents (q : SleepSlots) (l : List SleepEntry) : Prop where
  stores : Stores q.entries l
  queueLen_eq : q.queueLen = l.length

variable {q : SleepSlots}

theorem represents_new : Represents new SleepQueue.new.entries := ⟨stores_new, rfl⟩

theorem Represents.insert (h : Represents q l) (taskId : TaskId) (ticks : Nat) :
    ∃ q', q.insert taskId ticks = .ok q' ∧
      Represents q' (SleepQueue.insert ⟨l⟩ taskId ticks).entries := by
  unfold SleepSlots.insert SleepQueue.insert
  rw [h.queueLen_eq]
  by_cases hzero : ticks = 0
  · rw [if_pos hzero, if_pos hzero]
    exact ⟨q, rfl, h⟩
  rw [if_neg hzero, if_neg hzero]
  by_cases hfull : l.length = maxSleepEntries
  · rw [if_pos hfull, if_pos hfull]
    exact ⟨q, rfl, h⟩
  rw [if_neg hfull, if_neg hfull]
  have hroom : l.length < maxSleepEntries := Nat.lt_of_le_of_ne h.stores.length_le hfull
  have hstart : Stores q.entries ([] ++ l) := h.stores
  obtain ⟨before, after, left, rfl, hfind, hinsert, hleft⟩ := findSlot_spec hstart ticks
  obtain ⟨ys, zs, hshift, hset, hstores⟩ := h.stores.makeRoom hroom ⟨left, taskId⟩
  obtain ⟨xs, hfix, hfixed⟩ := hstores.fixSuccessor hleft
  refine ⟨⟨xs, (before ++ after).length + 1⟩, ?_, ?_, ?_⟩
  · refine bind_eq_ok.mpr ⟨_, hfind, bind_eq_ok.mpr ⟨ys, hshift, bind_eq_ok.mpr ⟨zs, hset, ?_⟩⟩⟩
    exact bind_eq_ok.mpr ⟨xs, hfix, rfl⟩
  · rw [hinsert]
    exact hfixed
  · exact SleepQueue.length_insertAt.symm

theorem Stores.countDown (h : Stores xs l) :
    ∃ ys, SleepSlots.countDown xs = .ok ys ∧ Stores ys (SleepQueue.countDown ⟨l⟩).entries := by
  rw [SleepSlots.countDown, h.get (by decide)]
  cases l with
  | nil => exact ⟨xs, rfl, h⟩
  | cons head rest =>
    by_cases hpos : 0 < head.deltaTicks
    · have hhead : Stores xs ([] ++ head :: rest) := h
      obtain ⟨ys, hset, hstores⟩ := hhead.set { head with deltaTicks := head.deltaTicks - 1 }
      refine ⟨ys, (if_pos hpos).trans ?_, hstores⟩
      exact bind_eq_ok.mpr ⟨_, sub_ok hpos, hset⟩
    · refine ⟨xs, if_neg hpos, ?_⟩
      have hsame : head.deltaTicks - 1 = head.deltaTicks := by omega
      change Stores xs ({ head with deltaTicks := head.deltaTicks - 1 } :: rest)
      rw [hsame]
      exact h

theorem Stores.popExpired (h : Stores xs l) :
    ∃ q, SleepSlots.popExpired l.length xs = .ok ((SleepQueue.expired l).map SleepEntry.taskId, q) ∧
      Represents q (SleepQueue.remaining l) := by
  induction l generalizing xs with
  | nil => exact ⟨⟨xs, 0⟩, rfl, h, rfl⟩
  | cons entry rest ih =>
    have hhead : Stores xs ([] ++ entry :: rest) := h
    unfold SleepQueue.expired SleepQueue.remaining
    by_cases hzero : entry.deltaTicks = 0
    · rw [List.takeWhile_cons_of_pos (by simpa using hzero),
        List.dropWhile_cons_of_pos (by simpa using hzero)]
      obtain ⟨ys, zs, hset, hshift, hstores⟩ := h.closeGap
      obtain ⟨q, hpop, hq⟩ := ih hstores
      refine ⟨q, bind_eq_ok.mpr ⟨_, hhead.get_entry, (if_neg (not_not.mpr hzero)).trans ?_⟩, hq⟩
      refine bind_eq_ok.mpr ⟨_, hhead.entryAt, bind_eq_ok.mpr ⟨ys, hset, ?_⟩⟩
      exact bind_eq_ok.mpr ⟨zs, hshift, bind_eq_ok.mpr ⟨_, hpop, rfl⟩⟩
    · rw [List.takeWhile_cons_of_neg (by simpa using hzero),
        List.dropWhile_cons_of_neg (by simpa using hzero)]
      exact ⟨⟨xs, rest.length + 1⟩, bind_eq_ok.mpr ⟨_, hhead.get_entry, if_pos hzero⟩, h, rfl⟩

theorem Represents.tick (h : Represents q l) :
    ∃ q', q.tick =
        .ok ((SleepQueue.expired (SleepQueue.countDown ⟨l⟩).entries).map SleepEntry.taskId, q') ∧
      Represents q' (SleepQueue.remaining (SleepQueue.countDown ⟨l⟩).entries) := by
  rw [SleepSlots.tick, h.queueLen_eq]
  cases l with
  | nil => exact ⟨q, rfl, h⟩
  | cons head rest =>
    obtain ⟨ys, hcount, hstores⟩ := h.stores.countDown
    obtain ⟨q', hpop, hq'⟩ := hstores.popExpired
    exact ⟨q', (if_neg (Nat.succ_ne_zero _)).trans (bind_eq_ok.mpr ⟨ys, hcount, hpop⟩), hq'⟩

end SleepSlots

end CrapOs
