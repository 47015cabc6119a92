import Mathlib.Data.List.Perm.Subperm
import CrapOs.TaskScheduler.Task

/-! # The task table

`GLOBAL_SCHEDULER` is a table of slots. A `TaskId` names a slot together with the
generation the slot had when the id was issued, so that the table is a partial
function from ids to tasks: `getTask` says which, and the lemmas below say what
each operation does to it.
-/

namespace CrapOs

def maxTasks : Nat := 256

structure TaskSlot where
  task : Option Task
  slotGeneration : UInt8

inductive SchedulerError where
  | queueFull | taskTableFull | unknownTask
deriving DecidableEq, Repr

structure GlobalScheduler where
  tasks : Fin maxTasks → TaskSlot

namespace GlobalScheduler

def new : GlobalScheduler := ⟨fun _ => ⟨none, 0⟩⟩

def setSlot (g : GlobalScheduler) (i : Fin maxTasks) (slot : TaskSlot) : GlobalScheduler :=
  ⟨fun j => if j = i then slot else g.tasks j⟩

def insertIdleTask (g : GlobalScheduler) (idleTask : Task) : GlobalScheduler :=
  g.setSlot ⟨0, by decide⟩ ⟨some idleTask, 0⟩

def freeSlot (g : GlobalScheduler) : Option (Fin maxTasks) :=
  (List.finRange maxTasks).find? fun i => (g.tasks i).task.isNone

def insertTask (g : GlobalScheduler) (task : Task) : Except SchedulerError (TaskId × GlobalScheduler) :=
  match g.freeSlot with
  | none => .error .taskTableFull
  | some i =>
    let slot := g.tasks i
    let taskId : TaskId := ⟨i.val, slot.slotGeneration⟩
    .ok (taskId, g.setSlot i { slot with task := some { task with id := taskId, state := .ready } })

def getTask (g : GlobalScheduler) (taskId : TaskId) : Option Task :=
  if h : taskId.slotIndex < maxTasks then
    let slot := g.tasks ⟨taskId.slotIndex, h⟩
    if slot.slotGeneration = taskId.slotGeneration then slot.task else none
  else none

/-- What is done to the task behind `get_task_mut`, nothing if there is none. -/
def modifyTask (g : GlobalScheduler) (taskId : TaskId) (f : Task → Task) : GlobalScheduler :=
  if h : taskId.slotIndex < maxTasks then
    let slot := g.tasks ⟨taskId.slotIndex, h⟩
    if slot.slotGeneration = taskId.slotGeneration then
      g.setSlot ⟨taskId.slotIndex, h⟩ { slot with task := slot.task.map f }
    else g
  else g

/-- What `remove_task` does to the table once it has found a task: the slot is emptied and
moves on to the next generation. -/
def clearSlot (g : GlobalScheduler) (taskId : TaskId) : GlobalScheduler :=
  if h : taskId.slotIndex < maxTasks then
    let slot := g.tasks ⟨taskId.slotIndex, h⟩
    g.setSlot ⟨taskId.slotIndex, h⟩ ⟨none, slot.slotGeneration + 1⟩
  else g

variable {g g' : GlobalScheduler} {task t : Task} {taskId a b : TaskId} {e : SchedulerError}

theorem getTask_eq_some : g.getTask taskId = some t ↔
    ∃ h : taskId.slotIndex < maxTasks, (g.tasks ⟨taskId.slotIndex, h⟩).task = some t ∧
      (g.tasks ⟨taskId.slotIndex, h⟩).slotGeneration = taskId.slotGeneration := by
  rw [getTask]
  by_cases h : taskId.slotIndex < maxTasks
  · rw [dif_pos h]
    by_cases hgen : (g.tasks ⟨taskId.slotIndex, h⟩).slotGeneration = taskId.slotGeneration
    · simp [hgen, h]
    · simp [hgen]
  · simp [h]

theorem slotIndex_lt (h : g.getTask taskId = some t) : taskId.slotIndex < maxTasks :=
  (getTask_eq_some.mp h).1

theorem eq_of_slotIndex_eq {u : Task} (ha : g.getTask a = some t) (hb : g.getTask b = some u)
    (heq : a.slotIndex = b.slotIndex) : a = b := by
  obtain ⟨i, ga⟩ := a
  obtain ⟨j, gb⟩ := b
  obtain rfl : i = j := heq
  obtain ⟨_, _, hga⟩ := getTask_eq_some.mp ha
  obtain ⟨_, _, hgb⟩ := getTask_eq_some.mp hb
  rw [hga] at hgb
  exact congrArg (TaskId.mk i) hgb

theorem getTask_setSlot (g : GlobalScheduler) (i : Fin maxTasks) (slot : TaskSlot) (a : TaskId) :
    (g.setSlot i slot).getTask a =
      if a.slotIndex = i.val then if slot.slotGeneration = a.slotGeneration then slot.task else none
      else g.getTask a := by
  by_cases hidx : a.slotIndex = i.val
  · have hlt : a.slotIndex < maxTasks := hidx ▸ i.isLt
    have hi : (⟨a.slotIndex, hlt⟩ : Fin maxTasks) = i := Fin.ext hidx
    rw [if_pos hidx, getTask, dif_pos hlt]
    simp [setSlot, hi]
  · rw [if_neg hidx, getTask, getTask]
    by_cases hlt : a.slotIndex < maxTasks
    · have hi : (⟨a.slotIndex, hlt⟩ : Fin maxTasks) ≠ i := fun h => hidx (congrArg Fin.val h)
      simp [setSlot, hi, hlt]
    · simp [hlt]

theorem getTask_insertIdleTask (g : GlobalScheduler) (idleTask : Task) :
    (g.insertIdleTask idleTask).getTask .idle = some idleTask := by
  rfl

theorem getTask_modifyTask (g : GlobalScheduler) (a b : TaskId) (f : Task → Task) :
    (g.modifyTask a f).getTask b = if b = a then (g.getTask b).map f else g.getTask b := by
  rw [modifyTask]
  by_cases hlt : a.slotIndex < maxTasks
  · rw [dif_pos hlt]
    by_cases hgen : (g.tasks ⟨a.slotIndex, hlt⟩).slotGeneration = a.slotGeneration
    · simp only [hgen, if_true]
      rw [getTask_setSlot]
      by_cases hidx : b.slotIndex = a.slotIndex
      · rw [if_pos hidx]
        by_cases hb : b = a
        · subst hb
          simp [getTask, hlt, hgen]
        · have hne : a.slotGeneration ≠ b.slotGeneration := fun h =>
            hb (by cases a; cases b; simp_all)
          have hnone : g.getTask b = none := by
            simp [getTask, hidx, hlt, hgen, hne]
          rw [if_neg hb, hnone]
          exact if_neg hne
      · have hb : b ≠ a := fun h => hidx (congrArg TaskId.slotIndex h)
        rw [if_neg hidx, if_neg hb]
    · have hnone : g.getTask a = none := by simp [getTask, hlt, hgen]
      by_cases hb : b = a
      · subst hb
        simp [hgen, hnone]
      · simp [hgen, hb]
  · have hnone : g.getTask a = none := by simp [getTask, hlt]
    by_cases hb : b = a
    · subst hb
      simp [hlt, hnone]
    · simp [hlt, hb]

theorem getTask_clearSlot (h : g.getTask a = some t) (b : TaskId) :
    (g.clearSlot a).getTask b = if b = a then none else g.getTask b := by
  obtain ⟨hlt, htask, hgen⟩ := getTask_eq_some.mp h
  rw [clearSlot, dif_pos hlt, getTask_setSlot]
  by_cases hidx : b.slotIndex = a.slotIndex
  · rw [if_pos hidx]
    by_cases hb : b = a
    · simp [hb]
    · have hnone : g.getTask b = none := by
        cases hfound : g.getTask b with
        | none => rfl
        | some u => exact absurd (eq_of_slotIndex_eq hfound h hidx) hb
      simp [hb, hnone]
  · have hb : b ≠ a := fun h => hidx (congrArg TaskId.slotIndex h)
    rw [if_neg hidx, if_neg hb]

theorem insertTask_ok (h : g.insertTask task = .ok (taskId, g')) :
    g.getTask taskId = none ∧ ∀ b, g'.getTask b =
      if b = taskId then some { task with id := taskId, state := .ready } else g.getTask b := by
  unfold insertTask at h
  cases hslot : g.freeSlot with
  | none =>
    rw [hslot] at h
    cases h
  | some i =>
    rw [hslot] at h
    cases h
    have hfree : (g.tasks i).task = none := by
      have := List.find?_some hslot
      simpa using this
    have hnone : ∀ b : TaskId, b.slotIndex = i.val → g.getTask b = none := by
      intro b hb
      have hlt : b.slotIndex < maxTasks := hb ▸ i.isLt
      have hi : (⟨b.slotIndex, hlt⟩ : Fin maxTasks) = i := Fin.ext hb
      simp [getTask, hlt, hi, hfree]
    refine ⟨hnone _ rfl, fun b => ?_⟩
    rw [getTask_setSlot]
    by_cases hidx : b.slotIndex = i.val
    · rw [if_pos hidx, hnone b hidx]
      by_cases hb : b = ⟨i.val, (g.tasks i).slotGeneration⟩
      · simp [hb]
      · have hne : (g.tasks i).slotGeneration ≠ b.slotGeneration := fun h =>
          hb (by cases b; simp_all)
        rw [if_neg hb]
        exact if_neg hne
    · have hb : b ≠ ⟨i.val, (g.tasks i).slotGeneration⟩ := fun h =>
        hidx (congrArg TaskId.slotIndex h)
      rw [if_neg hidx, if_neg hb]

theorem length_le_maxTasks (g : GlobalScheduler) {l : List TaskId} (hnodup : l.Nodup)
    (hfound : ∀ a ∈ l, ∃ t, g.getTask a = some t) : l.length ≤ maxTasks := by
  have hinj : (l.map TaskId.slotIndex).Nodup := by
    refine (List.nodup_map_iff_inj_on hnodup).mpr fun a ha b hb heq => ?_
    obtain ⟨t, ht⟩ := hfound a ha
    obtain ⟨u, hu⟩ := hfound b hb
    exact eq_of_slotIndex_eq ht hu heq
  have hsub : l.map TaskId.slotIndex ⊆ List.range maxTasks := by
    intro i hi
    obtain ⟨a, ha, rfl⟩ := List.mem_map.mp hi
    obtain ⟨t, ht⟩ := hfound a ha
    exact List.mem_range.mpr (slotIndex_lt ht)
  have hlen := (List.subperm_of_subset hinj hsub).length_le
  rwa [List.length_map, List.length_range] at hlen

end GlobalScheduler

end CrapOs
