import CrapOs.TaskScheduler.TaskTable

/-! # How long an id names its task

A slot moves on to the next generation whenever its task is removed, and an id
resolves only while slot and id agree on the generation. Generations are bytes,
so that a slot comes back to the generation of an old id after 256 removals.
-/

namespace CrapOs

inductive TableOp where
  | insert (task : Task)
  | remove (taskId : TaskId)

namespace GlobalScheduler

/-- `remove_task` without what it does to the thread. -/
def removeTask (g : GlobalScheduler) (taskId : TaskId) : GlobalScheduler :=
  match g.getTask taskId with
  | none => g
  | some _ => g.clearSlot taskId

def apply (g : GlobalScheduler) : TableOp → GlobalScheduler
  | .insert task =>
    match g.insertTask task with
    | .error _ => g
    | .ok (_, g') => g'
  | .remove taskId => g.removeTask taskId

def applyAll (g : GlobalScheduler) (ops : List TableOp) : GlobalScheduler := ops.foldl apply g

def Occupied (g : GlobalScheduler) (i : Fin maxTasks) : Prop := (g.tasks i).task.isSome

def Frees (g : GlobalScheduler) (i : Fin maxTasks) : TableOp → Prop
  | .insert _ => False
  | .remove taskId => taskId.slotIndex = i.val ∧ (g.getTask taskId).isSome

instance (g : GlobalScheduler) (i : Fin maxTasks) : (op : TableOp) → Decidable (g.Frees i op)
  | .insert _ => .isFalse id
  | .remove taskId =>
    inferInstanceAs (Decidable (taskId.slotIndex = i.val ∧ (g.getTask taskId).isSome))

def removals (i : Fin maxTasks) : GlobalScheduler → List TableOp → Nat
  | _, [] => 0
  | g, op :: rest => (if g.Frees i op then 1 else 0) + removals i (g.apply op) rest

variable {g g' : GlobalScheduler} {i : Fin maxTasks} {task t : Task} {taskId : TaskId}

theorem insertTask_slot (h : g.insertTask task = .ok (taskId, g')) (i : Fin maxTasks) :
    (g'.tasks i).slotGeneration = (g.tasks i).slotGeneration ∧
      ∀ t, (g.tasks i).task = some t → (g'.tasks i).task = some t := by
  unfold insertTask at h
  cases hslot : g.freeSlot with
  | none =>
    rw [hslot] at h
    cases h
  | some j =>
    rw [hslot] at h
    cases h
    have hfree : (g.tasks j).task = none := by
      have hfound := List.find?_some hslot
      simpa using hfound
    by_cases hij : i = j
    · subst hij
      simp [setSlot, hfree]
    · simp [setSlot, hij]

theorem insertTask_issued (h : g.insertTask task = .ok (taskId, g')) :
    ∃ i : Fin maxTasks, taskId.slotIndex = i.val ∧
      g'.tasks i = ⟨some { task with id := taskId, state := .ready }, taskId.slotGeneration⟩ := by
  unfold insertTask at h
  cases hslot : g.freeSlot with
  | none =>
    rw [hslot] at h
    cases h
  | some i =>
    rw [hslot] at h
    cases h
    exact ⟨i, rfl, by simp [setSlot]⟩

theorem apply_slot (g : GlobalScheduler) (i : Fin maxTasks) (op : TableOp) :
    if g.Frees i op then (g.apply op).tasks i = ⟨none, (g.tasks i).slotGeneration + 1⟩
    else ((g.apply op).tasks i).slotGeneration = (g.tasks i).slotGeneration ∧
      ∀ t, (g.tasks i).task = some t → ((g.apply op).tasks i).task = some t := by
  cases op with
  | insert task =>
    have hkeeps : ¬ g.Frees i (.insert task) := id
    rw [if_neg hkeeps, apply]
    cases hinsert : g.insertTask task with
    | error e => exact ⟨rfl, fun _ ht => ht⟩
    | ok r => exact insertTask_slot hinsert i
  | remove taskId =>
    rw [apply, removeTask]
    cases hfind : g.getTask taskId with
    | none =>
      have hkeeps : ¬ g.Frees i (.remove taskId) := by
        intro hfrees
        rw [Frees, hfind] at hfrees
        cases hfrees.2
      rw [if_neg hkeeps]
      exact ⟨rfl, fun _ ht => ht⟩
    | some t =>
      have hlt := slotIndex_lt hfind
      rw [clearSlot, dif_pos hlt]
      by_cases hidx : taskId.slotIndex = i.val
      · have hi : (⟨taskId.slotIndex, hlt⟩ : Fin maxTasks) = i := Fin.ext hidx
        have hfrees : g.Frees i (.remove taskId) := ⟨hidx, by rw [hfind]; rfl⟩
        rw [if_pos hfrees, hi]
        simp [setSlot]
      · have hi : i ≠ ⟨taskId.slotIndex, hlt⟩ := fun heq => hidx (congrArg Fin.val heq).symm
        have hkeeps : ¬ g.Frees i (.remove taskId) := fun hfrees => hidx hfrees.1
        rw [if_neg hkeeps]
        simp [setSlot, hi]

theorem slotGeneration_applyAll (i : Fin maxTasks) (ops : List TableOp) (g : GlobalScheduler) :
    ((g.applyAll ops).tasks i).slotGeneration =
      (g.tasks i).slotGeneration + UInt8.ofNat (removals i g ops) := by
  induction ops generalizing g with
  | nil => simp [applyAll, removals]
  | cons op rest ih =>
    have hslot := g.apply_slot i op
    have hrest := ih (g.apply op)
    rw [applyAll, List.foldl_cons, removals]
    by_cases hfrees : g.Frees i op
    · rw [if_pos hfrees] at hslot ⊢
      rw [hslot] at hrest
      rw [UInt8.ofNat_add, ← UInt8.add_assoc]
      exact hrest
    · rw [if_neg hfrees] at hslot ⊢
      rw [hslot.1] at hrest
      rw [Nat.zero_add]
      exact hrest

theorem task_applyAll (ops : List TableOp) (h : (g.tasks i).task = some t)
    (hnone : removals i g ops = 0) : ((g.applyAll ops).tasks i).task = some t := by
  induction ops generalizing g with
  | nil => exact h
  | cons op rest ih =>
    rw [removals] at hnone
    by_cases hfrees : g.Frees i op
    · rw [if_pos hfrees] at hnone
      omega
    · have hslot := g.apply_slot i op
      rw [if_neg hfrees] at hslot hnone
      exact ih (hslot.2 t h) (by omega)

theorem ofNat_eq_zero (k : Nat) : UInt8.ofNat k = 0 ↔ 256 ∣ k := by
  rw [← UInt8.toNat_inj, UInt8.toNat_ofNat', Nat.dvd_iff_mod_eq_zero]
  rfl

/-- An id resolves if and only if its slot is occupied and the number of tasks removed from the
slot since is a multiple of 256. So it stands for its own task until that is removed, and for
nothing during the 255 removals from there on. -/
theorem issued_id_resolves_iff (h : g.insertTask task = .ok (taskId, g')) (ops : List TableOp) :
    ∃ i : Fin maxTasks, taskId.slotIndex = i.val ∧
      (((g'.applyAll ops).getTask taskId).isSome ↔
        (g'.applyAll ops).Occupied i ∧ 256 ∣ removals i g' ops) ∧
      (removals i g' ops = 0 →
        (g'.applyAll ops).getTask taskId = some { task with id := taskId, state := .ready }) ∧
      (1 ≤ removals i g' ops → removals i g' ops ≤ 255 → (g'.applyAll ops).getTask taskId = none) := by
  obtain ⟨i, hidx, hissued⟩ := insertTask_issued h
  have hlt : taskId.slotIndex < maxTasks := hidx ▸ i.isLt
  have hi : (⟨taskId.slotIndex, hlt⟩ : Fin maxTasks) = i := Fin.ext hidx
  have hgen := slotGeneration_applyAll i ops g'
  rw [hissued] at hgen
  have hget : (g'.applyAll ops).getTask taskId =
      if 256 ∣ removals i g' ops then ((g'.applyAll ops).tasks i).task else none := by
    rw [getTask, dif_pos hlt, hi]
    by_cases hdvd : 256 ∣ removals i g' ops
    · rw [if_pos hdvd]
      rw [(ofNat_eq_zero _).mpr hdvd, UInt8.add_zero] at hgen
      exact if_pos hgen
    · rw [if_neg hdvd]
      refine if_neg fun heq => hdvd ((ofNat_eq_zero _).mp ?_)
      rw [hgen] at heq
      exact UInt8.left_eq_add.mp heq.symm
  refine ⟨i, hidx, ?_, fun hzero => ?_, fun hpos hle => ?_⟩
  · rw [hget, Occupied]
    by_cases hdvd : 256 ∣ removals i g' ops
    · simp [hdvd]
    · simp [hdvd]
  · rw [hget, if_pos (hzero ▸ Nat.dvd_zero 256)]
    exact task_applyAll ops (by rw [hissued]) hzero
  · rw [hget, if_neg fun hdvd => by have := Nat.le_of_dvd hpos hdvd; omega]

/-- The first task after the idle one, before and after it is removed. -/
theorem issued_id_resolves_iff_first : ∃ g' : GlobalScheduler,
    (new.insertIdleTask (.newIdle 0 0)).insertTask (.newIdle 1 0) = .ok (⟨1, 0⟩, g') ∧
      g'.getTask ⟨1, 0⟩ = some { Task.newIdle 1 0 with id := ⟨1, 0⟩, state := .ready } ∧
      (g'.applyAll [.remove ⟨1, 0⟩]).getTask ⟨1, 0⟩ = none := by
  have hinsert : (new.insertIdleTask (.newIdle 0 0)).insertTask (.newIdle 1 0) = .ok (⟨1, 0⟩, _) := rfl
  refine ⟨_, hinsert, ?_, ?_⟩
  · obtain ⟨i, -, -, hown, -⟩ := issued_id_resolves_iff hinsert []
    exact hown rfl
  · obtain ⟨i, hidx, -, -, hgone⟩ := issued_id_resolves_iff hinsert [.remove ⟨1, 0⟩]
    obtain rfl : i = ⟨1, by decide⟩ := Fin.ext hidx.symm
    exact hgone (by decide) (by decide)

end GlobalScheduler

end CrapOs
