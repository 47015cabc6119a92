import CrapOs.Globals

/-! # The MADT

The table of interrupt controllers is a list of entries that give their own length.
`parse_madt` walks over them and collects the processors and the first I/O APIC. The
walk keeps track of the bytes it reads, which may lie behind the end of the table.
-/

namespace CrapOs.Acpi

open Foundation

def maxCpus : Nat := 64

structure CpuInfo where
  apicId : UInt32
  acpiUid : UInt8
  enabled : Bool
  onlineCapable : Bool
deriving DecidableEq, Repr

def CpuInfo.empty : CpuInfo := ⟨0, 0, false, false⟩

@[ext]
structure CpuTopology where
  bspApicId : UInt32
  cpuCount : Nat
  cpus : Vector CpuInfo maxCpus
  count_le : cpuCount ≤ maxCpus

namespace CpuTopology

def new (bspApicId : UInt32) : CpuTopology :=
  ⟨bspApicId, 0, Vector.replicate maxCpus CpuInfo.empty, Nat.zero_le _⟩

def push (t : CpuTopology) (cpuInfo : CpuInfo) : CpuTopology :=
  if h : t.cpuCount < maxCpus then
    { t with
      cpus := t.cpus.set t.cpuCount cpuInfo h
      cpuCount := t.cpuCount + 1
      count_le := h }
  else t

end CpuTopology

structure ApicInfo where
  localApicPhys : Nat
  ioApicPhys : Nat
  ioApicGsiBase : UInt32
deriving DecidableEq, Repr

def sdtHeaderSize : Nat := 36

def madtHeaderSize : Nat := 8

structure MadtWalk where
  cursor : Nat
  ioApicPhys : Nat
  ioApicGsiBase : UInt32
  topology : CpuTopology
  /-- The addresses of the bytes read so far. -/
  reads : List Nat

namespace MadtWalk

def read (w : MadtWalk) (address size : Nat) : MadtWalk :=
  { w with reads := w.reads ++ List.range' address size }

def localApic (m : Mem) (cursor : Nat) (w : MadtWalk) : MadtWalk :=
  let apicId := m (cursor + 3)
  let acpiUid := m (cursor + 2)
  let flags := m.read32 (cursor + 4)
  let w := ((w.read (cursor + 3) 1).read (cursor + 2) 1).read (cursor + 4) 4
  let enabled := flags &&& 0x1 ≠ 0
  let onlineCapable := flags &&& 0x2 ≠ 0
  if enabled ∨ onlineCapable then
    { w with topology := w.topology.push ⟨apicId.toUInt32, acpiUid, enabled, onlineCapable⟩ }
  else w

/-- An entry of type 1: only the first I/O APIC counts. -/
def ioApicEntry (m : Mem) (cursor : Nat) (w : MadtWalk) : MadtWalk :=
  if w.ioApicPhys = 0 then
    { (w.read (cursor + 4) 4).read (cursor + 8) 4 with
      ioApicPhys := m.read32 (cursor + 4)
      ioApicGsiBase := UInt32.ofNat (m.read32 (cursor + 8)) }
  else w

def dispatch (m : Mem) (cursor : Nat) (entryType : UInt8) (entryLen : Nat) (w : MadtWalk) : MadtWalk :=
  if entryType = 0 ∧ 8 ≤ entryLen then w.localApic m cursor
  else if entryType = 1 ∧ 12 ≤ entryLen then w.ioApicEntry m cursor
  else w

/-- One turn of the loop. A length of 0 or 1 ends it. -/
def turn (m : Mem) (entriesEnd : Nat) (w : MadtWalk) : ForInStep MadtWalk :=
  if wrap64 (w.cursor + 2) ≤ entriesEnd then
    let entryLen := (m (w.cursor + 1)).toNat
    let w := w.read (w.cursor + 1) 1
    if entryLen < 2 then .done w
    else
      let entryType := m w.cursor
      let w := (w.read w.cursor 1).dispatch m w.cursor entryType entryLen
      .yield { w with cursor := wrap64 (w.cursor + entryLen) }
  else .done w

def loop (m : Mem) (entriesEnd : Nat) : Nat → MadtWalk → Except Halt MadtWalk
  | 0, _ => .error .outOfFuel
  | fuel + 1, w =>
    match w.turn m entriesEnd with
    | .done w => .ok w
    | .yield w => loop m entriesEnd fuel w

end MadtWalk

def sdtLen (m : Mem) (madtSdt : Nat) : Nat := m.read32 (madtSdt + 4)

/-- What the function returns, and the bytes it has read. -/
def parseMadt (fuel : Nat) (m : Mem) (madtSdt : Nat) (bspApicId : UInt32) :
    Except Halt (Option (ApicInfo × CpuTopology) × List Nat) := do
  let localApicAddr := m.read32 (madtSdt + sdtHeaderSize)
  let entriesStart := wrap64 (madtSdt + sdtHeaderSize + madtHeaderSize)
  let entriesEnd := wrap64 (madtSdt + sdtLen m madtSdt)
  let start : MadtWalk := ⟨entriesStart, 0, 0, CpuTopology.new bspApicId, []⟩
  let w ← ((start.read (madtSdt + 4) 4).read (madtSdt + sdtHeaderSize) 4).loop m entriesEnd fuel
  if w.ioApicPhys = 0 then return (none, w.reads)
  else return (some (⟨localApicAddr, w.ioApicPhys, w.ioApicGsiBase⟩, w.topology), w.reads)

structure MadtEntry where
  start : Nat
  entryType : UInt8
  length : Nat

/-- The entries from an address on, up to the end of the table or the first one shorter than its header. -/
def madtEntries (m : Mem) (entriesEnd cursor : Nat) : List MadtEntry :=
  if cursor + 2 ≤ entriesEnd ∧ 2 ≤ (m (cursor + 1)).toNat then
    ⟨cursor, m cursor, (m (cursor + 1)).toNat⟩ ::
      madtEntries m entriesEnd (cursor + (m (cursor + 1)).toNat)
  else []
termination_by entriesEnd - cursor

namespace MadtEntry

def cpu (m : Mem) (e : MadtEntry) : Option CpuInfo :=
  let flags := m.read32 (e.start + 4)
  let enabled := flags.testBit 0
  let onlineCapable := flags.testBit 1
  if e.entryType = 0 ∧ 8 ≤ e.length ∧ (enabled ∨ onlineCapable) then
    some ⟨(m (e.start + 3)).toUInt32, m (e.start + 2), enabled, onlineCapable⟩
  else none

def ioApic (m : Mem) (e : MadtEntry) : Option (Nat × UInt32) :=
  let address := m.read32 (e.start + 4)
  if e.entryType = 1 ∧ 12 ≤ e.length ∧ address ≠ 0 then
    some (address, UInt32.ofNat (m.read32 (e.start + 8)))
  else none

/-- How far an entry is looked at; an I/O APIC only while none is known. -/
def lookedAt (e : MadtEntry) (known : Bool) : Nat :=
  if e.entryType = 0 ∧ 8 ≤ e.length then 8
  else if e.entryType = 1 ∧ 12 ≤ e.length ∧ known = false then 12
  else 2

end MadtEntry

/-- The topology with the first 64 of the given processors. -/
def CpuTopology.ofList (bspApicId : UInt32) (cpus : List CpuInfo) : CpuTopology :=
  ⟨bspApicId, min cpus.length maxCpus, Vector.ofFn fun i => cpus.getD i CpuInfo.empty, Nat.min_le_right _ _⟩

theorem CpuTopology.new_eq (bspApicId : UInt32) : new bspApicId = ofList bspApicId [] := by
  ext i hi
  · rfl
  · rfl
  · simp [new, ofList]

theorem getD_concat (cpus : List CpuInfo) (c : CpuInfo) (i : Nat) :
    (cpus ++ [c]).getD i CpuInfo.empty = if cpus.length = i then c else cpus.getD i CpuInfo.empty := by
  simp only [List.getD_eq_getElem?_getD, List.getElem?_append, List.getElem?_singleton]
  grind

theorem CpuTopology.push_ofList (bspApicId : UInt32) (cpus : List CpuInfo) (c : CpuInfo) :
    (ofList bspApicId cpus).push c = ofList bspApicId (cpus ++ [c]) := by
  have hcount : (ofList bspApicId cpus).cpuCount = min cpus.length maxCpus := rfl
  unfold push
  split
  next hroom =>
    have hlength : (ofList bspApicId cpus).cpuCount = cpus.length := by omega
    ext i hi
    · rfl
    · simp only [ofList, List.length_append, List.length_singleton]
      omega
    · simp only [hlength, Vector.getElem_set]
      simp only [ofList, Vector.getElem_ofFn, getD_concat]
  next hfull =>
    ext i hi
    · rfl
    · simp only [ofList, List.length_append, List.length_singleton]
      omega
    · simp only [ofList, Vector.getElem_ofFn, getD_concat]
      rw [if_neg (by omega)]

example : ((CpuTopology.new 3).push ⟨3, 0, true, true⟩).cpuCount = 1 := by decide +kernel

namespace MadtWalk

def ioApic (w : MadtWalk) : Option (Nat × UInt32) :=
  if w.ioApicPhys = 0 then none else some (w.ioApicPhys, w.ioApicGsiBase)

def visit (m : Mem) (w : MadtWalk) (e : MadtEntry) : MadtWalk :=
  { ((w.read (e.start + 1) 1).read e.start 1).dispatch m e.start e.entryType e.length with
    cursor := e.start + e.length }

/-- The end of the loop: the length of an entry that is shorter than its header has been read. -/
def close (entriesEnd : Nat) (w : MadtWalk) : MadtWalk :=
  if w.cursor + 2 ≤ entriesEnd then w.read (w.cursor + 1) 1 else w

variable {m : Mem} {entriesEnd : Nat}

theorem dispatch_cursor (w : MadtWalk) (cursor : Nat) (entryType : UInt8) (entryLen : Nat) :
    (w.dispatch m cursor entryType entryLen).cursor = w.cursor := by
  unfold dispatch localApic ioApicEntry
  dsimp only
  split
  next =>
    split
    next => rfl
    next => rfl
  next =>
    split
    next =>
      split
      next => rfl
      next => rfl
    next => rfl

def entryAt (m : Mem) (cursor : Nat) : MadtEntry := ⟨cursor, m cursor, (m (cursor + 1)).toNat⟩

theorem turn_end {w : MadtWalk} (hlt : w.cursor + 2 < 2 ^ 64) (hend : ¬ w.cursor + 2 ≤ entriesEnd) :
    w.turn m entriesEnd = .done w := by
  rw [turn, wrap64_of_lt hlt, if_neg hend]

theorem turn_short {w : MadtWalk} (hlt : w.cursor + 2 < 2 ^ 64) (hin : w.cursor + 2 ≤ entriesEnd)
    (hshort : (m (w.cursor + 1)).toNat < 2) :
    w.turn m entriesEnd = .done (w.read (w.cursor + 1) 1) := by
  rw [turn, wrap64_of_lt hlt, if_pos hin]
  exact if_pos hshort

theorem turn_entry {w : MadtWalk} (hlt : w.cursor + 255 < 2 ^ 64) (hin : w.cursor + 2 ≤ entriesEnd)
    (hlong : 2 ≤ (m (w.cursor + 1)).toNat) :
    w.turn m entriesEnd = .yield (w.visit m (entryAt m w.cursor)) := by
  have hbyte := (m (w.cursor + 1)).toNat_lt
  rw [turn, wrap64_of_lt (by omega), if_pos hin]
  refine (if_neg (Nat.not_lt.mpr hlong)).trans ?_
  dsimp only
  rw [dispatch_cursor, wrap64_of_lt]
  · rfl
  · change w.cursor + _ < _
    omega

theorem madtEntries_cons {cursor : Nat} (hin : cursor + 2 ≤ entriesEnd)
    (hlong : 2 ≤ (m (cursor + 1)).toNat) :
    madtEntries m entriesEnd cursor =
      entryAt m cursor :: madtEntries m entriesEnd (cursor + (m (cursor + 1)).toNat) := by
  rw [madtEntries, if_pos ⟨hin, hlong⟩]
  rfl

theorem madtEntries_nil {cursor : Nat} (hend : ¬ (cursor + 2 ≤ entriesEnd ∧ 2 ≤ (m (cursor + 1)).toNat)) :
    madtEntries m entriesEnd cursor = [] := by
  rw [madtEntries, if_neg hend]

theorem loop_eq (hspace : entriesEnd + 255 < 2 ^ 64) {fuel : Nat} {w : MadtWalk}
    (hcursor : w.cursor ≤ entriesEnd + 253) (hfuel : entriesEnd + 2 ≤ w.cursor + 2 * fuel) (hpos : fuel ≠ 0) :
    w.loop m entriesEnd fuel =
      .ok (((madtEntries m entriesEnd w.cursor).foldl (visit m) w).close entriesEnd) := by
  induction fuel generalizing w with
  | zero => exact absurd rfl hpos
  | succ fuel ih =>
    have hbyte := (m (w.cursor + 1)).toNat_lt
    rw [loop]
    by_cases hin : w.cursor + 2 ≤ entriesEnd
    · by_cases hshort : (m (w.cursor + 1)).toNat < 2
      · rw [turn_short (by omega) hin hshort, madtEntries_nil fun h => Nat.not_lt.mpr h.2 hshort,
          List.foldl_nil, close, if_pos hin]
      · have hlong := Nat.not_lt.mp hshort
        have hnext : (w.visit m (entryAt m w.cursor)).cursor = w.cursor + (m (w.cursor + 1)).toNat := rfl
        rw [turn_entry (by omega) hin hlong, madtEntries_cons hin hlong, List.foldl_cons, ← hnext]
        exact ih (by omega) (by omega) (by omega)
    · rw [turn_end (by omega) hin, madtEntries_nil fun h => hin h.1, List.foldl_nil, close, if_neg hin]

theorem and_two_pow_ne_zero (flags i : Nat) : flags &&& 2 ^ i ≠ 0 ↔ flags.testBit i = true := by
  rw [Nat.and_two_pow]
  cases flags.testBit i with
  | false => simp
  | true => simp

theorem localApic_topology (w : MadtWalk) {e : MadtEntry} (h : e.entryType = 0 ∧ 8 ≤ e.length) :
    (w.localApic m e.start).topology = (e.cpu m).elim w.topology w.topology.push := by
  have henabled := and_two_pow_ne_zero (m.read32 (e.start + 4)) 0
  have hcapable := and_two_pow_ne_zero (m.read32 (e.start + 4)) 1
  unfold localApic MadtEntry.cpu
  simp only [h, true_and, pow_zero, pow_one] at henabled hcapable ⊢
  simp only [henabled, hcapable, Bool.decide_eq_true]
  split
  next => rfl
  next => rfl

theorem localApic_ioApic (w : MadtWalk) (cursor : Nat) : (w.localApic m cursor).ioApic = w.ioApic := by
  unfold localApic
  dsimp only
  split
  next => rfl
  next => rfl

theorem ioApicEntry_topology (w : MadtWalk) (cursor : Nat) :
    (w.ioApicEntry m cursor).topology = w.topology := by
  unfold ioApicEntry
  split
  next => rfl
  next => rfl

theorem ioApicEntry_ioApic (w : MadtWalk) {e : MadtEntry} (h : e.entryType = 1 ∧ 12 ≤ e.length) :
    (w.ioApicEntry m e.start).ioApic = w.ioApic.or (e.ioApic m) := by
  unfold ioApicEntry
  by_cases hnone : w.ioApicPhys = 0
  · have hw : w.ioApic = none := if_pos hnone
    rw [if_pos hnone, hw, Option.none_or]
    by_cases hzero : m.read32 (e.start + 4) = 0
    · simp [ioApic, MadtEntry.ioApic, hzero]
    · simp [ioApic, MadtEntry.ioApic, hzero, h]
  · have hw : w.ioApic = some (w.ioApicPhys, w.ioApicGsiBase) := if_neg hnone
    rw [if_neg hnone, hw, Option.some_or]

theorem visit_topology (w : MadtWalk) (e : MadtEntry) :
    (w.visit m e).topology = (e.cpu m).elim w.topology w.topology.push := by
  unfold visit dispatch
  split
  next hlocal => exact localApic_topology ((w.read (e.start + 1) 1).read e.start 1) hlocal
  next hlocal =>
    have hnone : e.cpu m = none := if_neg fun h => hlocal ⟨h.1, h.2.1⟩
    rw [hnone]
    split
    next => exact ioApicEntry_topology ((w.read (e.start + 1) 1).read e.start 1) e.start
    next => rfl

theorem visit_ioApic (w : MadtWalk) (e : MadtEntry) :
    (w.visit m e).ioApic = w.ioApic.or (e.ioApic m) := by
  have hcursor (u : MadtWalk) (c : Nat) : ioApic { u with cursor := c } = u.ioApic := rfl
  unfold visit dispatch
  rw [hcursor]
  by_cases hio : e.entryType = 1 ∧ 12 ≤ e.length
  · have hlocal : ¬ (e.entryType = 0 ∧ 8 ≤ e.length) := by
      intro h
      rw [hio.1] at h
      exact absurd h.1 (by decide)
    rw [if_neg hlocal, if_pos hio]
    exact ioApicEntry_ioApic ((w.read (e.start + 1) 1).read e.start 1) hio
  · have hnone : e.ioApic m = none := if_neg fun h => hio ⟨h.1, h.2.1⟩
    rw [hnone, Option.or_none, if_neg hio]
    split
    next => exact localApic_ioApic ((w.read (e.start + 1) 1).read e.start 1) e.start
    next => rfl

theorem foldl_topology (bspApicId : UInt32) (entries : List MadtEntry) {w : MadtWalk} {cpus : List CpuInfo}
    (hw : w.topology = .ofList bspApicId cpus) :
    (entries.foldl (visit m) w).topology = .ofList bspApicId (cpus ++ entries.filterMap (·.cpu m)) := by
  induction entries generalizing w cpus with
  | nil => rw [List.foldl_nil, List.filterMap_nil, List.append_nil, hw]
  | cons e entries ih =>
    have hvisit := visit_topology (m := m) w e
    rw [List.foldl_cons]
    cases he : e.cpu m with
    | none =>
      rw [he, Option.elim_none, hw] at hvisit
      rw [ih hvisit, List.filterMap_cons_none he]
    | some c =>
      rw [he, Option.elim_some, hw, CpuTopology.push_ofList] at hvisit
      rw [ih hvisit, List.filterMap_cons_some he, List.append_assoc]
      rfl

theorem findSome?_cons_or (e : MadtEntry) (entries : List MadtEntry) :
    (e :: entries).findSome? (·.ioApic m) = (e.ioApic m).or (entries.findSome? (·.ioApic m)) := by
  rw [List.findSome?_cons]
  cases e.ioApic m with
  | none => rw [Option.none_or]
  | some a => rw [Option.some_or]

theorem foldl_ioApic (entries : List MadtEntry) (w : MadtWalk) :
    (entries.foldl (visit m) w).ioApic = w.ioApic.or (entries.findSome? (·.ioApic m)) := by
  induction entries generalizing w with
  | nil => rw [List.foldl_nil, List.findSome?_nil, Option.or_none]
  | cons e entries ih =>
    rw [List.foldl_cons, ih, visit_ioApic, Option.or_assoc, findSome?_cons_or]

theorem close_ioApic (w : MadtWalk) : (w.close entriesEnd).ioApic = w.ioApic := by
  unfold close
  split
  next => rfl
  next => rfl

theorem close_topology (w : MadtWalk) : (w.close entriesEnd).topology = w.topology := by
  unfold close
  split
  next => rfl
  next => rfl

end MadtWalk

section Parse

variable {m : Mem} {table fuel : Nat}

def tableEntries (m : Mem) (table : Nat) : List MadtEntry :=
  madtEntries m (table + sdtLen m table) (table + 44)

def tableWalk (m : Mem) (table : Nat) (bspApicId : UInt32) : MadtWalk :=
  let start : MadtWalk := ⟨table + 44, 0, 0, CpuTopology.new bspApicId, []⟩
  ((tableEntries m table).foldl (MadtWalk.visit m) ((start.read (table + 4) 4).read (table + 36) 4)).close
    (table + sdtLen m table)

theorem parseMadt_eq (hspace : table + sdtLen m table + 255 < 2 ^ 64) (hfuel : sdtLen m table < fuel)
    (bspApicId : UInt32) :
    parseMadt fuel m table bspApicId =
      .ok ((tableWalk m table bspApicId).ioApic.map fun io =>
        (⟨m.read32 (table + 36), io.1, io.2⟩, (tableWalk m table bspApicId).topology),
        (tableWalk m table bspApicId).reads) := by
  have hloop := MadtWalk.loop_eq (m := m) hspace
    (w := ((⟨table + 44, 0, 0, CpuTopology.new bspApicId, []⟩ : MadtWalk).read (table + 4) 4).read (table + 36) 4)
    (show table + 44 ≤ _ by omega) (show _ ≤ table + 44 + 2 * fuel by omega) (by omega)
  unfold parseMadt
  simp only [sdtHeaderSize, madtHeaderSize]
  rw [wrap64_of_lt (show table + 36 + 8 < 2 ^ 64 by omega), wrap64_of_lt (by omega)]
  refine (congrArg (· >>= _) hloop).trans ?_
  change (if (tableWalk m table bspApicId).ioApicPhys = 0 then _ else _) = _
  unfold MadtWalk.ioApic
  split
  next => rfl
  next => rfl

theorem CpuTopology.ofList_take (bspApicId : UInt32) (cpus : List CpuInfo) :
    ofList bspApicId (cpus.take maxCpus) = ofList bspApicId cpus := by
  ext i hi
  · rfl
  · simp only [ofList, List.length_take]
    omega
  · simp [ofList]

theorem tableWalk_ioApic (m : Mem) (table : Nat) (bspApicId : UInt32) :
    (tableWalk m table bspApicId).ioApic = (tableEntries m table).findSome? (·.ioApic m) := by
  unfold tableWalk
  rw [MadtWalk.close_ioApic, MadtWalk.foldl_ioApic]
  exact Option.none_or

theorem tableWalk_topology (m : Mem) (table : Nat) (bspApicId : UInt32) :
    (tableWalk m table bspApicId).topology =
      .ofList bspApicId (((tableEntries m table).filterMap (·.cpu m)).take maxCpus) := by
  unfold tableWalk
  rw [MadtWalk.close_topology, MadtWalk.foldl_topology bspApicId _ (CpuTopology.new_eq bspApicId),
    List.nil_append, CpuTopology.ofList_take]

/-- Every run of `parse_madt` ends. It returns the first 64 processors that can be used in the order
of the table, and the first I/O APIC with an address; without one it returns `None`. -/
theorem parseMadt_result (hspace : table + sdtLen m table + 255 < 2 ^ 64) (hfuel : sdtLen m table < fuel)
    (bspApicId : UInt32) :
    ∃ result reads, parseMadt fuel m table bspApicId = .ok (result, reads) ∧
      (result = ((tableEntries m table).findSome? (·.ioApic m)).map fun io =>
        (⟨m.read32 (table + 36), io.1, io.2⟩,
          .ofList bspApicId (((tableEntries m table).filterMap (·.cpu m)).take maxCpus))) ∧
      (result = none ↔
        ¬ ∃ e ∈ tableEntries m table, e.entryType = 1 ∧ 12 ≤ e.length ∧ m.read32 (e.start + 4) ≠ 0) := by
  refine ⟨_, _, parseMadt_eq hspace hfuel bspApicId, ?_, ?_⟩
  · rw [tableWalk_ioApic, tableWalk_topology]
  · rw [tableWalk_ioApic, Option.map_eq_none_iff, List.findSome?_eq_none_iff]
    simp only [MadtEntry.ioApic, ite_eq_right_iff, reduceCtorEq, imp_false, not_exists, not_and]

end Parse

def tableAt (bytes : List UInt8) : Mem := fun a => bytes.getD (a - 0x1000) 0

def twoEntries : Mem :=
  tableAt ([65, 80, 73, 67, 64, 0, 0, 0] ++ List.replicate 28 0 ++ [0, 0, 0xE0, 0xFE, 1, 0, 0, 0] ++
    [1, 12, 2, 0, 0, 0, 0xC0, 0xFE, 0, 0, 0, 0] ++ [0, 8, 1, 3, 1, 0, 0, 0])

theorem parseMadt_result_two_entries :
    ∃ result reads, parseMadt 65 twoEntries 0x1000 3 = .ok (result, reads) ∧
      (result = ((tableEntries twoEntries 0x1000).findSome? (·.ioApic twoEntries)).map fun io =>
        (⟨twoEntries.read32 (0x1000 + 36), io.1, io.2⟩,
          .ofList 3 (((tableEntries twoEntries 0x1000).filterMap (·.cpu twoEntries)).take maxCpus))) ∧
      (result = none ↔ ¬ ∃ e ∈ tableEntries twoEntries 0x1000,
        e.entryType = 1 ∧ 12 ≤ e.length ∧ twoEntries.read32 (e.start + 4) ≠ 0) :=
  parseMadt_result (by decide +kernel) (by decide +kernel) 3

end CrapOs.Acpi
