import CrapOs.HardwareManager.Acpi

/-! # The bytes of the MADT that are read

An entry is looked at from its length alone, which need not fit into the table. Only
the last entry can reach behind the end; then the fields of it are read from there.
-/

namespace CrapOs.Acpi

open Foundation

def MadtEntry.reads (e : MadtEntry) (known : Bool) : List Nat :=
  [e.start + 1, e.start] ++
    if e.entryType = 0 ∧ 8 ≤ e.length then [e.start + 3, e.start + 2] ++ List.range' (e.start + 4) 4
    else if e.entryType = 1 ∧ 12 ≤ e.length ∧ known = false then
      List.range' (e.start + 4) 4 ++ List.range' (e.start + 8) 4
    else []

theorem MadtEntry.reads_within (e : MadtEntry) (known : Bool) (lo hi : Nat) :
    (∀ a ∈ e.reads known, lo ≤ a ∧ a < hi) ↔ lo ≤ e.start ∧ e.start + e.lookedAt known ≤ hi := by
  unfold reads lookedAt
  split
  next =>
    simp only [List.range', List.forall_mem_append, List.forall_mem_cons, List.not_mem_nil,
      false_implies, implies_true, and_true]
    omega
  next =>
    split
    next =>
      simp only [List.range', List.forall_mem_append, List.forall_mem_cons, List.not_mem_nil,
        false_implies, implies_true, and_true]
      omega
    next =>
      simp only [List.append_nil, List.forall_mem_cons, List.not_mem_nil,
        false_implies, implies_true, and_true]
      omega

namespace MadtWalk

variable {m : Mem} {entriesEnd : Nat}

theorem localApic_reads (w : MadtWalk) (cursor : Nat) :
    (w.localApic m cursor).reads =
      w.reads ++ ([cursor + 3, cursor + 2] ++ List.range' (cursor + 4) 4) := by
  unfold localApic read
  dsimp only
  split
  next => simp [List.range']
  next => simp [List.range']

theorem ioApicEntry_reads (w : MadtWalk) (cursor : Nat) :
    (w.ioApicEntry m cursor).reads =
      w.reads ++ if w.ioApic.isSome = false then List.range' (cursor + 4) 4 ++ List.range' (cursor + 8) 4
        else [] := by
  unfold ioApicEntry ioApic read
  by_cases hnone : w.ioApicPhys = 0
  · simp [hnone]
  · simp [hnone]

theorem visit_reads (w : MadtWalk) (e : MadtEntry) :
    (w.visit m e).reads = w.reads ++ e.reads w.ioApic.isSome := by
  have hheader : ((w.read (e.start + 1) 1).read e.start 1).reads = w.reads ++ [e.start + 1, e.start] := by
    simp [read, List.range']
  have hio : ((w.read (e.start + 1) 1).read e.start 1).ioApic = w.ioApic := rfl
  unfold visit dispatch MadtEntry.reads
  rw [← List.append_assoc, ← hheader]
  by_cases hlocal : e.entryType = 0 ∧ 8 ≤ e.length
  · rw [if_pos hlocal, if_pos hlocal, localApic_reads]
  · rw [if_neg hlocal, if_neg hlocal]
    by_cases hentry : e.entryType = 1 ∧ 12 ≤ e.length
    · rw [if_pos hentry, ioApicEntry_reads, hio]
      simp only [hentry, true_and]
    · rw [if_neg hentry, if_neg fun h => hentry ⟨h.1, h.2.1⟩, List.append_nil]

/-- Whatever holds of all bytes that are read holds of those of each entry. -/
theorem forall_foldl_reads (P : Nat → Prop) (entries : List MadtEntry) (w : MadtWalk) :
    (∀ a ∈ (entries.foldl (visit m) w).reads, P a) ↔
      (∀ a ∈ w.reads, P a) ∧ ∀ before e after, entries = before ++ e :: after →
        ∀ a ∈ e.reads (w.ioApic.or (before.findSome? (·.ioApic m))).isSome, P a := by
  induction entries generalizing w with
  | nil => simp
  | cons e entries ih =>
    rw [List.foldl_cons, ih, visit_reads, visit_ioApic, List.forall_mem_append, and_assoc]
    refine and_congr_right fun _ => ?_
    constructor
    · intro h before f after heq
      cases before with
      | nil =>
        rw [List.nil_append, List.cons.injEq] at heq
        rw [List.findSome?_nil, Option.or_none, ← heq.1]
        exact h.1
      | cons b before =>
        rw [List.cons_append, List.cons.injEq] at heq
        have hlater := h.2 before f after heq.2
        rw [Option.or_assoc, heq.1, ← findSome?_cons_or] at hlater
        exact hlater
    · intro h
      constructor
      · have hfirst := h [] e entries rfl
        rw [List.findSome?_nil, Option.or_none] at hfirst
        exact hfirst
      · intro before f after heq
        have hlater := h (e :: before) f after (by rw [heq, List.cons_append])
        rw [findSome?_cons_or, ← Option.or_assoc] at hlater
        exact hlater

theorem le_foldl_cursor {c : Nat} {entries : List MadtEntry} (hentries : ∀ e ∈ entries, c ≤ e.start)
    {w : MadtWalk} (hw : c ≤ w.cursor) : c ≤ (entries.foldl (visit m) w).cursor := by
  induction entries generalizing w with
  | nil => exact hw
  | cons e entries ih =>
    have hstart := hentries e List.mem_cons_self
    refine ih (fun f hf => hentries f (List.mem_cons_of_mem e hf)) ?_
    exact Nat.le_trans hstart (Nat.le_add_right _ _)

theorem forall_close_reads {lo hi : Nat} {w : MadtWalk} (hw : lo ≤ w.cursor) :
    (∀ a ∈ (w.close hi).reads, lo ≤ a ∧ a < hi) ↔ ∀ a ∈ w.reads, lo ≤ a ∧ a < hi := by
  unfold close
  split
  next hin =>
    simp only [read, List.range', List.forall_mem_append, List.forall_mem_cons, List.not_mem_nil,
      false_implies, implies_true, and_true, and_iff_left_iff_imp]
    omega
  next => exact Iff.rfl

end MadtWalk

theorem start_of_mem {m : Mem} {entriesEnd cursor : Nat} {e : MadtEntry}
    (he : e ∈ madtEntries m entriesEnd cursor) : cursor ≤ e.start := by
  fun_induction madtEntries m entriesEnd cursor with
  | case1 cursor h ih =>
    cases he with
    | head => exact Nat.le_refl _
    | tail _ he => exact Nat.le_trans (Nat.le_add_right _ _) (ih he)
  | case2 => cases he

/-- The bytes that are read are in the table only as far as the entries that are looked at are: the
last entry may begin in the table and end behind it. -/
theorem parseMadt_reads_iff {m : Mem} {table fuel : Nat} (hspace : table + sdtLen m table + 255 < 2 ^ 64)
    (hfuel : sdtLen m table < fuel) (hlength : 44 ≤ sdtLen m table) (bspApicId : UInt32) :
    ∃ result reads, parseMadt fuel m table bspApicId = .ok (result, reads) ∧
      ((∀ a ∈ reads, table ≤ a ∧ a < table + sdtLen m table) ↔
        ∀ before e after, tableEntries m table = before ++ e :: after →
          e.start + e.lookedAt (before.findSome? (·.ioApic m)).isSome ≤ table + sdtLen m table) := by
  refine ⟨_, _, parseMadt_eq hspace hfuel bspApicId, ?_⟩
  have hstart : ∀ e ∈ tableEntries m table, table ≤ e.start := by
    intro e he
    exact Nat.le_trans (Nat.le_add_right _ _) (start_of_mem he)
  unfold tableWalk
  rw [MadtWalk.forall_close_reads (MadtWalk.le_foldl_cursor hstart (Nat.le_add_right _ _)),
    MadtWalk.forall_foldl_reads]
  have hheader : ∀ a ∈ List.range' (table + 4) 4 ++ List.range' (table + 36) 4,
      table ≤ a ∧ a < table + sdtLen m table := by
    intro a ha
    rw [List.mem_append, List.mem_range'_1, List.mem_range'_1] at ha
    omega
  constructor
  · intro h before e after hsplit
    exact ((e.reads_within _ _ _).mp (h.2 before e after hsplit)).2
  · intro h
    refine ⟨hheader, fun before e after hsplit => ?_⟩
    have hmem : e ∈ tableEntries m table := by
      rw [hsplit]
      exact List.mem_append_right _ List.mem_cons_self
    exact (e.reads_within _ _ _).mpr ⟨hstart e hmem, h before e after hsplit⟩

theorem parseMadt_reads_iff_two_entries :
    ∃ result reads, parseMadt 65 twoEntries 0x1000 3 = .ok (result, reads) ∧
      ((∀ a ∈ reads, 0x1000 ≤ a ∧ a < 0x1000 + sdtLen twoEntries 0x1000) ↔
        ∀ before e after, tableEntries twoEntries 0x1000 = before ++ e :: after →
          e.start + e.lookedAt (before.findSome? (·.ioApic twoEntries)).isSome ≤
            0x1000 + sdtLen twoEntries 0x1000) :=
  parseMadt_reads_iff (by decide +kernel) (by decide +kernel) (by decide +kernel) 3

def truncatedTable : Mem :=
  tableAt ([65, 80, 73, 67, 46, 0, 0, 0] ++ List.replicate 28 0 ++ [0, 0, 0xE0, 0xFE, 1, 0, 0, 0] ++ [0, 8])

/-- The flags of the processor are read behind the end. -/
theorem parseMadt_reads_outside :
    44 ≤ sdtLen truncatedTable 0x1000 ∧
      ∃ result reads, parseMadt 47 truncatedTable 0x1000 0 = .ok (result, reads) ∧
        0x1000 + 51 ∈ reads ∧ ¬ 0x1000 + 51 < 0x1000 + sdtLen truncatedTable 0x1000 := by
  have hread : (parseMadt 47 truncatedTable 0x1000 0).map (fun r => r.2.elem (0x1000 + 51)) = .ok true := by
    decide +kernel
  refine ⟨by decide +kernel, ?_⟩
  cases hparse : parseMadt 47 truncatedTable 0x1000 0 with
  | error e =>
    rw [hparse] at hread
    cases hread
  | ok r =>
    rw [hparse] at hread
    exact ⟨r.1, r.2, rfl, List.elem_iff.mp (Except.ok.inj hread), by decide +kernel⟩

end CrapOs.Acpi
