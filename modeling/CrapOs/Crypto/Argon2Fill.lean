import CrapOs.Crypto.Argon2Params
import CrapOs.Foundation.Placement

/-! # The order in which the memory is filled

The three loops around the loop of `fill_segment` make one list of turns, each of which
fills a block. What a turn reads is settled by the turns before it: a block is filled
once one of them has written to it, and the first two blocks of a lane from the start.
-/

namespace CrapOs.Argon2

open Foundation
open Checked (Returns)

/-- A turn of the innermost loop, for block `s` of a segment. -/
structure Turn where
  pass : Nat
  slice : Nat
  lane : Nat
  s : Nat

namespace Turn

def column (turn : Turn) (segmentLen : Nat) : Nat := turn.slice * segmentLen + turn.s

def absIdx (turn : Turn) (laneLen segmentLen : Nat) : Nat :=
  turn.lane * laneLen + turn.slice * segmentLen + turn.s

/-- The first two blocks of a lane are there already in the first pass. -/
def Skipped (turn : Turn) (segmentLen : Nat) : Prop := turn.pass = 0 ∧ turn.column segmentLen < 2

structure Visited (turn : Turn) (tCost p segmentLen : Nat) : Prop where
  pass_lt : turn.pass < tCost
  slice_lt : turn.slice < 4
  lane_lt : turn.lane < p
  s_lt : turn.s < segmentLen

def Before (a b : Turn) : Prop :=
  a.pass < b.pass ∨ a.pass = b.pass ∧ (a.slice < b.slice ∨ a.slice = b.slice ∧
    (a.lane < b.lane ∨ a.lane = b.lane ∧ a.s < b.s))

theorem Before.irrefl (a : Turn) : ¬ a.Before a := by
  unfold Before
  omega

theorem Before.asymm {a b : Turn} (h : a.Before b) : ¬ b.Before a := by
  unfold Before at *
  omega

end Turn

def turns (tCost p segmentLen : Nat) : List Turn :=
  (List.range tCost).flatMap fun pass =>
    (List.range 4).flatMap fun slice =>
      (List.range p).flatMap fun lane =>
        (List.range segmentLen).map fun s => ⟨pass, slice, lane, s⟩

theorem mem_turns {turn : Turn} {tCost p segmentLen : Nat} :
    turn ∈ turns tCost p segmentLen ↔ turn.Visited tCost p segmentLen := by
  simp only [turns, List.mem_flatMap, List.mem_map, List.mem_range]
  constructor
  · rintro ⟨pass, hpass, slice, hslice, lane, hlane, s, hs, rfl⟩
    exact ⟨hpass, hslice, hlane, hs⟩
  · intro h
    exact ⟨_, h.pass_lt, _, h.slice_lt, _, h.lane_lt, _, h.s_lt, rfl⟩

theorem turns_pairwise (tCost p segmentLen : Nat) : (turns tCost p segmentLen).Pairwise Turn.Before := by
  -- one loop after the other, from the outside; the turns of different rounds are told apart by it
  refine List.pairwise_flatMap.mpr ⟨fun pass _ => ?_, List.pairwise_lt_range.imp ?_⟩
  · refine List.pairwise_flatMap.mpr ⟨fun slice _ => ?_, List.pairwise_lt_range.imp ?_⟩
    · refine List.pairwise_flatMap.mpr ⟨fun lane _ => ?_, List.pairwise_lt_range.imp ?_⟩
      · refine List.pairwise_map.mpr (List.pairwise_lt_range.imp ?_)
        intro s s' hlt
        exact .inr ⟨rfl, .inr ⟨rfl, .inr ⟨rfl, hlt⟩⟩⟩
      · intro lane lane' hlt x hx y hy
        simp only [List.mem_map] at hx hy
        obtain ⟨s, -, rfl⟩ := hx
        obtain ⟨s', -, rfl⟩ := hy
        exact .inr ⟨rfl, .inr ⟨rfl, .inl hlt⟩⟩
    · intro slice slice' hlt x hx y hy
      simp only [List.mem_flatMap, List.mem_map] at hx hy
      obtain ⟨lane, -, s, -, rfl⟩ := hx
      obtain ⟨lane', -, s', -, rfl⟩ := hy
      exact .inr ⟨rfl, .inl hlt⟩
  · intro pass pass' hlt x hx y hy
    simp only [List.mem_flatMap, List.mem_map] at hx hy
    obtain ⟨slice, -, lane, -, s, -, rfl⟩ := hx
    obtain ⟨slice', -, lane', -, s', -, rfl⟩ := hy
    exact .inl hlt

theorem mem_of_before {tCost p segmentLen : Nat} {before after : List Turn} {turn q : Turn}
    (hturns : turns tCost p segmentLen = before ++ turn :: after)
    (hq : q.Visited tCost p segmentLen) (hbefore : q.Before turn) : q ∈ before := by
  have hmem := mem_turns.mpr hq
  have hsorted := turns_pairwise tCost p segmentLen
  rw [hturns] at hmem hsorted
  obtain ⟨-, hafter, -⟩ := List.pairwise_append.mp hsorted
  rcases List.mem_append.mp hmem with hin | hin
  · exact hin
  · cases hin with
    | head => exact absurd hbefore (Turn.Before.irrefl turn)
    | tail _ hin => exact absurd hbefore (((List.pairwise_cons.mp hafter).1 q hin).asymm)

def segmentRands (tCost p segmentLen : Nat) (turn : Turn) : Array UInt64 :=
  if turn.pass = 0 ∧ turn.slice < 2 then
    computePseudoRands turn.pass turn.lane turn.slice segmentLen p tCost
  else #[]

def fillTurn (laneLen segmentLen p tCost : Nat) (memory : Array Block) (turn : Turn) :
    Except Halt (Array Block) :=
  fillBlock (segmentRands tCost p segmentLen turn) (turn.pass = 0 ∧ turn.slice < 2) turn.pass turn.lane
    turn.slice laneLen segmentLen p memory turn.s

theorem foldlM_flatMap {α β : Type} {f : α → List β} {g : Array Block → β → Except Halt (Array Block)}
    (l : List α) (memory : Array Block) :
    (l.flatMap f).foldlM g memory = l.foldlM (fun memory a => (f a).foldlM g memory) memory := by
  induction l generalizing memory with
  | nil => rfl
  | cons a l ih =>
    rw [List.flatMap_cons, List.foldlM_append, List.foldlM_cons]
    exact bind_congr ih

/-- The four loops are one loop over the turns. -/
theorem fillMemory_eq_foldlM (laneLen segmentLen p tCost : Nat) (memory : Array Block) :
    fillMemory laneLen segmentLen p tCost memory =
      (turns tCost p segmentLen).foldlM (fillTurn laneLen segmentLen p tCost) memory := by
  simp only [turns, foldlM_flatMap, List.foldlM_map]
  rfl

/-- The number that is reduced to the reference area, from the low half of the word. -/
def spread (pseudoRand : UInt64) : Nat :=
  let x := pseudoRand &&& 0xFFFFFFFF
  let y := (x * x) >>> 32
  ((x + y) >>> 1).toNat

namespace Turn

def area (turn : Turn) (laneLen segmentLen p : Nat) : Nat :=
  if turn.pass = 0 then turn.column segmentLen - 1 else p * laneLen - segmentLen + turn.s - 1

def areaStart (turn : Turn) (segmentLen : Nat) : Nat :=
  if turn.pass = 0 then 0 else (turn.slice + 1) % 4 * segmentLen

def phi (turn : Turn) (laneLen segmentLen p : Nat) (pseudoRand : UInt64) : Nat :=
  turn.area laneLen segmentLen p - 1 - spread pseudoRand % turn.area laneLen segmentLen p

def refIdx (turn : Turn) (laneLen segmentLen p : Nat) (pseudoRand : UInt64) : Nat :=
  (turn.lane * laneLen + turn.areaStart segmentLen + turn.phi laneLen segmentLen p pseudoRand) %
    (p * laneLen)

end Turn

section Layout

variable {size p laneLen segmentLen tCost : Nat} {turn : Turn}

theorem LaidOut.area_pos (h : LaidOut size p laneLen segmentLen) (hlane : turn.lane < p)
    (hnew : ¬ turn.Skipped segmentLen) : 0 < turn.area laneLen segmentLen p := by
  have hsegments := h.segments
  have hnonempty := h.nonempty
  have hlanes : 1 * laneLen ≤ p * laneLen := Nat.mul_le_mul_right laneLen (by omega)
  unfold Turn.area Turn.Skipped at *
  split
  next hpass => omega
  next hpass => omega

theorem referenceArea_turn (h : LaidOut size p laneLen segmentLen) (hlane : turn.lane < p)
    (hnew : ¬ turn.Skipped segmentLen) :
    referenceArea turn.pass turn.lane turn.slice laneLen segmentLen p (turn.absIdx laneLen segmentLen) =
      .ok (turn.area laneLen segmentLen p) := by
  have hsegments := h.segments
  have hfirst : turn.pass = 0 → 2 ≤ turn.slice * segmentLen + turn.s := by
    intro hpass
    by_contra hlt
    exact hnew ⟨hpass, Nat.not_le.mp hlt⟩
  unfold Turn.absIdx Turn.area Turn.column
  rw [referenceArea_eq h (Nat.lt_of_le_of_lt (Nat.zero_le _) hlane) hfirst]
  congr 1
  split
  next => rfl
  next =>
    have hlanes : p * laneLen = (p - 1) * laneLen + laneLen := by
      rw [← Nat.succ_mul, Nat.succ_eq_add_one, Nat.sub_add_cancel (by omega)]
    have hnonempty := h.nonempty
    omega

theorem indexAlpha_eq (h : LaidOut size p laneLen segmentLen) (hlane : turn.lane < p)
    (hnew : ¬ turn.Skipped segmentLen) (pseudoRand : UInt64) :
    indexAlpha pseudoRand turn.pass turn.lane turn.slice laneLen segmentLen p
      (turn.absIdx laneLen segmentLen) = .ok (turn.refIdx laneLen segmentLen p pseudoRand) := by
  have hpos := h.area_pos hlane hnew
  have hsegments := h.segments
  have hnonempty := h.nonempty
  have hback : spread pseudoRand % turn.area laneLen segmentLen p ≤ turn.area laneLen segmentLen p - 1 :=
    Nat.le_sub_one_of_lt (Nat.mod_lt _ hpos)
  have hlanes : p * laneLen ≠ 0 := Nat.mul_ne_zero (by omega) (by omega)
  unfold indexAlpha
  rw [Checked.bind_of_ok (referenceArea_turn h hlane hnew), if_neg hpos.ne']
  refine (Checked.bind_of_ok (Checked.sub_ok hpos)).trans ?_
  refine (Checked.bind_of_ok (Checked.rem_ok hpos.ne')).trans ?_
  refine (Checked.bind_of_ok (Checked.sub_ok hback)).trans ?_
  refine (Checked.rem_ok hlanes).trans ?_
  unfold Turn.refIdx Turn.areaStart
  split
  next => rfl
  next => rfl

theorem refIdx_lt (h : LaidOut size p laneLen segmentLen) (hlane : turn.lane < p) (pseudoRand : UInt64) :
    turn.refIdx laneLen segmentLen p pseudoRand < p * laneLen := by
  have hsegments := h.segments
  have hnonempty := h.nonempty
  exact Nat.mod_lt _ (Nat.mul_pos (by omega) (by omega))

theorem refIdx_first (h : LaidOut size p laneLen segmentLen) (hturn : turn.Visited tCost p segmentLen)
    (hpass : turn.pass = 0) (pseudoRand : UInt64) :
    turn.refIdx laneLen segmentLen p pseudoRand =
      turn.lane * laneLen +
        (turn.column segmentLen - 2 - spread pseudoRand % (turn.column segmentLen - 1)) := by
  have hin := h.in_segment hturn.slice_lt hturn.s_lt
  have hlane := h.in_lane hturn.lane_lt hin
  rw [h.lanes] at hlane
  unfold Turn.refIdx Turn.areaStart Turn.phi Turn.area
  have htwo : turn.column segmentLen - 1 - 1 = turn.column segmentLen - 2 := by omega
  rw [if_pos hpass, if_pos hpass, Nat.add_zero, htwo]
  apply Nat.mod_eq_of_lt
  unfold Turn.column at *
  omega

theorem mod_eq_iff {n a i : Nat} (ha : a < 2 * n) (hi : i < n) : a % n = i ↔ a = i ∨ a = i + n := by
  rcases Nat.lt_or_ge a n with hlt | hge
  · rw [Nat.mod_eq_of_lt hlt]
    omega
  · rw [Nat.mod_eq_sub_mod hge, Nat.mod_eq_of_lt (by omega)]
    omega

/-- In the last slice of a later pass the reference area goes through the block itself. -/
def Turn.SelfReference (turn : Turn) (laneLen segmentLen p : Nat) (pseudoRand : UInt64) : Prop :=
  turn.pass ≠ 0 ∧ turn.slice = 3 ∧ 2 ≤ p ∧
    spread pseudoRand % turn.area laneLen segmentLen p = (p - 1) * laneLen - 2

theorem refIdx_eq_absIdx_iff (h : LaidOut size p laneLen segmentLen)
    (hturn : turn.Visited tCost p segmentLen) (hnew : ¬ turn.Skipped segmentLen) (pseudoRand : UInt64) :
    turn.refIdx laneLen segmentLen p pseudoRand = turn.absIdx laneLen segmentLen ↔
      turn.SelfReference laneLen segmentLen p pseudoRand := by
  have hpos := h.area_pos hturn.lane_lt hnew
  have hsegments := h.segments
  have hs := hturn.s_lt
  unfold Turn.SelfReference
  by_cases hpass : turn.pass = 0
  · rw [refIdx_first h hturn hpass]
    unfold Turn.area Turn.column Turn.absIdx at *
    rw [if_pos hpass] at hpos
    constructor
    · intro heq
      omega
    · intro hself
      exact absurd hpass hself.1
  · have hlt := hturn.lane_lt
    have hback := Nat.mod_lt (spread pseudoRand) hpos
    have hlane : turn.lane * laneLen + laneLen ≤ p * laneLen := by
      rw [← Nat.succ_mul]
      exact Nat.mul_le_mul_right laneLen hlt
    have hothers : p * laneLen = (p - 1) * laneLen + laneLen := by
      rw [← Nat.succ_mul, Nat.succ_eq_add_one, Nat.sub_add_cancel (by omega)]
    have hmany : 2 ≤ p ∧ laneLen ≤ (p - 1) * laneLen ∨ p = 1 ∧ (p - 1) * laneLen = 0 := by
      rcases Nat.lt_or_ge p 2 with hone | htwo
      · have hp : p = 1 := by omega
        exact .inr ⟨hp, by rw [hp, Nat.sub_self, Nat.zero_mul]⟩
      · exact .inl ⟨htwo, Nat.le_mul_of_pos_left laneLen (by omega)⟩
    unfold Turn.refIdx Turn.areaStart Turn.phi Turn.absIdx
    rw [if_neg hpass]
    unfold Turn.area at *
    rw [if_neg hpass] at *
    have hslice := hturn.slice_lt
    -- the reference area starts with the next segment, which for the last one is the first
    by_cases hlast : turn.slice = 3
    · rw [hlast, mod_eq_iff (by omega) (by omega)]
      omega
    · have hnext : (turn.slice + 1) % 4 * segmentLen = turn.slice * segmentLen + segmentLen := by
        rw [Nat.mod_eq_of_lt (by omega), Nat.succ_mul]
      have hthree : turn.slice * segmentLen ≤ 2 * segmentLen := Nat.mul_le_mul_right segmentLen (by omega)
      rw [hnext, mod_eq_iff (by omega) (by omega)]
      omega

/-- A block is filled from the start if it is one of the first two of a lane, and otherwise when a
turn has written it. -/
def Filled (p laneLen segmentLen : Nat) (before : List Turn) (i : Nat) : Prop :=
  (∃ lane < p, ∃ c < 2, i = lane * laneLen + c) ∨
    ∃ q ∈ before, ¬ q.Skipped segmentLen ∧ q.absIdx laneLen segmentLen = i

def firstTurn (segmentLen lane c : Nat) : Turn := ⟨0, c / segmentLen, lane, c % segmentLen⟩

theorem column_firstTurn (segmentLen lane c : Nat) :
    (firstTurn segmentLen lane c).column segmentLen = c := Nat.div_add_mod' c segmentLen

theorem filled_of_firstTurn (h : LaidOut size p laneLen segmentLen) {before after : List Turn}
    (hturns : turns tCost p segmentLen = before ++ turn :: after) {lane c : Nat} (hlane : lane < p)
    (hc : c < laneLen) (hbefore : (firstTurn segmentLen lane c).Before turn) :
    Filled p laneLen segmentLen before (lane * laneLen + c) := by
  have hcolumn := column_firstTurn segmentLen lane c
  rcases Nat.lt_or_ge c 2 with hfew | hmany
  · exact .inl ⟨lane, hlane, c, hfew, rfl⟩
  · have hturn : turn.Visited tCost p segmentLen := mem_turns.mp (by simp [hturns])
    have hvisited : (firstTurn segmentLen lane c).Visited tCost p segmentLen := by
      constructor
      case pass_lt => exact Nat.lt_of_le_of_lt (Nat.zero_le _) hturn.pass_lt
      case slice_lt =>
        apply Nat.div_lt_of_lt_mul
        rw [Nat.mul_comm, ← h.segments]
        exact hc
      case lane_lt => exact hlane
      case s_lt => exact Nat.mod_lt c h.nonempty
    refine .inr ⟨_, mem_of_before hturns hvisited hbefore, ?_, ?_⟩
    · intro hskipped
      have hlt := hskipped.2
      omega
    · unfold Turn.absIdx
      unfold Turn.column at hcolumn
      rw [Nat.add_assoc, hcolumn]
      rfl

/-- What `index_alpha` points to has been filled before. -/
theorem filled_refIdx (h : LaidOut size p laneLen segmentLen) {before after : List Turn}
    (hturns : turns tCost p segmentLen = before ++ turn :: after) (hnew : ¬ turn.Skipped segmentLen)
    (pseudoRand : UInt64) :
    Filled p laneLen segmentLen before (turn.refIdx laneLen segmentLen p pseudoRand) := by
  have hturn : turn.Visited tCost p segmentLen := mem_turns.mp (by simp [hturns])
  have hsegments := h.segments
  have hnonempty := h.nonempty
  by_cases hpass : turn.pass = 0
  · have hin := h.in_segment hturn.slice_lt hturn.s_lt
    have hcolumn : 2 ≤ turn.column segmentLen := by
      by_contra hlt
      exact hnew ⟨hpass, Nat.not_le.mp hlt⟩
    rw [refIdx_first h hturn hpass]
    generalize hc : turn.column segmentLen - 2 - spread pseudoRand % (turn.column segmentLen - 1) = c
    have hlt : c < turn.slice * segmentLen + turn.s := by
      unfold Turn.column at hc hcolumn
      omega
    refine filled_of_firstTurn h hturns hturn.lane_lt (by omega) (.inr ⟨hpass.symm, ?_⟩)
    have hs := hturn.s_lt
    have hle : c / segmentLen < turn.slice + 1 := by
      apply Nat.div_lt_of_lt_mul
      rw [Nat.mul_comm, Nat.succ_mul]
      omega
    have hsplit := Nat.div_add_mod' c segmentLen
    rcases Nat.lt_or_eq_of_le (Nat.le_of_lt_succ hle) with hslice | hslice
    · exact .inl hslice
    · rw [hslice] at hsplit
      exact .inr ⟨hslice, .inr ⟨rfl, Nat.lt_of_add_lt_add_left (hsplit ▸ hlt)⟩⟩
  · have hlt := refIdx_lt h hturn.lane_lt pseudoRand
    generalize turn.refIdx laneLen segmentLen p pseudoRand = i at *
    have hlane : i / laneLen < p := by
      apply Nat.div_lt_of_lt_mul
      rw [Nat.mul_comm]
      exact hlt
    rw [← Nat.div_add_mod' i laneLen]
    refine filled_of_firstTurn h hturns hlane (Nat.mod_lt i (by omega)) (.inl ?_)
    exact Nat.pos_of_ne_zero hpass

end Layout

theorem layout_of_visited {password salt : List UInt8} {mCost tCost pCost : UInt32}
    (hvalid : validateParams password salt mCost tCost pCost = .ok ()) {turn : Turn}
    (hturn : turn.Visited tCost.toNat pCost.toNat (segmentBlocks mCost pCost)) :
    LaidOut (totalBlocks mCost pCost) pCost.toNat (laneBlocks mCost pCost) (segmentBlocks mCost pCost) := by
  have hp := lanes_pos (validateParams_eq_ok.mp hvalid).2.2.2.1
  have hs := hturn.s_lt
  rw [segmentBlocks_eq hp] at hs
  apply layout_of_costs hp
  by_contra hfew
  rw [Nat.div_eq_of_lt (Nat.not_le.mp hfew)] at hs
  omega

/-- The block `index_alpha` chooses is one of the memory that has been filled before. It is another
one than the block being written, but for one value in the last slice of the later passes if there
are several lanes. -/
theorem indexAlpha_filled {password salt : List UInt8} {mCost tCost pCost : UInt32}
    (hvalid : validateParams password salt mCost tCost pCost = .ok ()) {before after : List Turn}
    {turn : Turn}
    (hturns : turns tCost.toNat pCost.toNat (segmentBlocks mCost pCost) = before ++ turn :: after)
    (hnew : ¬ turn.Skipped (segmentBlocks mCost pCost)) (pseudoRand : UInt64) :
    ∃ i, indexAlpha pseudoRand turn.pass turn.lane turn.slice (laneBlocks mCost pCost)
        (segmentBlocks mCost pCost) pCost.toNat
        (turn.absIdx (laneBlocks mCost pCost) (segmentBlocks mCost pCost)) = .ok i ∧
      i < totalBlocks mCost pCost ∧
      Filled pCost.toNat (laneBlocks mCost pCost) (segmentBlocks mCost pCost) before i ∧
      (i = turn.absIdx (laneBlocks mCost pCost) (segmentBlocks mCost pCost) ↔
        turn.SelfReference (laneBlocks mCost pCost) (segmentBlocks mCost pCost) pCost.toNat pseudoRand) := by
  have hturn : turn.Visited _ _ _ := mem_turns.mp (hturns ▸ List.mem_append_right before List.mem_cons_self)
  have hlayout := layout_of_visited hvalid hturn
  refine ⟨_, indexAlpha_eq hlayout hturn.lane_lt hnew pseudoRand, ?_, ?_, ?_⟩
  · rw [hlayout.lanes]
    exact refIdx_lt hlayout hturn.lane_lt pseudoRand
  · exact filled_refIdx hlayout hturns hnew pseudoRand
  · exact refIdx_eq_absIdx_iff hlayout hturn hnew pseudoRand

/-- Two lanes of eight blocks: the first block that is computed, after four turns without effect. -/
theorem indexAlpha_filled_third_block :
    ∃ i, indexAlpha 7 0 0 1 8 2 2 2 = .ok i ∧ i < 16 ∧
      Filled 2 8 2 [⟨0, 0, 0, 0⟩, ⟨0, 0, 0, 1⟩, ⟨0, 0, 1, 0⟩, ⟨0, 0, 1, 1⟩] i ∧
      (i = 2 ↔ (⟨0, 1, 0, 0⟩ : Turn).SelfReference 8 2 2 7) :=
  @indexAlpha_filled (ascii "password") (ascii "saltsalt") 16 2 2 (by decide)
    [⟨0, 0, 0, 0⟩, ⟨0, 0, 0, 1⟩, ⟨0, 0, 1, 0⟩, ⟨0, 0, 1, 1⟩] ((turns 2 2 2).drop 5) ⟨0, 1, 0, 0⟩ rfl
    (fun hskipped => absurd hskipped.2 (by decide)) 7

/-- In the last slice of the second pass the word 12 makes the first lane refer to block 6 for
block 6. -/
theorem indexAlpha_self :
    validateParams (ascii "password") (ascii "saltsalt") 16 2 2 = .ok () ∧
    laneBlocks 16 2 = 8 ∧ segmentBlocks 16 2 = 2 ∧
    (⟨1, 3, 0, 0⟩ : Turn).Visited 2 2 2 ∧
    indexAlpha 12 1 0 3 8 2 2 ((⟨1, 3, 0, 0⟩ : Turn).absIdx 8 2) = .ok 6 ∧
    (⟨1, 3, 0, 0⟩ : Turn).absIdx 8 2 = 6 := by
  refine ⟨by decide, by decide, by decide, ⟨by decide, by decide, by decide, by decide⟩, ?_, by decide⟩
  decide

def blockAt (memory : Array Block) (i : Nat) : Block := memory.getD i zeroBlock

theorem get_eq_blockAt {memory : Array Block} {i : Nat} (h : i < memory.size) :
    Checked.get memory i = .ok (blockAt memory i) := by
  rw [Checked.get_ok h, blockAt, Array.getD_eq_getD_getElem?, Array.getElem?_eq_getElem h, Option.getD_some]

theorem blockAt_set_other {memory : Array Block} {i j : Nat} (h : i ≠ j) (block : Block) :
    blockAt (memory.setIfInBounds i block) j = blockAt memory j := by
  simp [blockAt, Array.getD_eq_getD_getElem?, Array.getElem?_setIfInBounds_ne h]

theorem first_lt : 0 < 128 := Nat.succ_pos 127

def firstWord (block : Block) : UInt64 := block.get ⟨0, first_lt⟩

/-- The block that is compressed for the word of a turn without a look at the memory. -/
def wordInput (turn : Turn) (p tCost : Nat) : Block :=
  zeroBlock
    |>.setIfInBounds 0 (UInt64.ofNat turn.pass)
    |>.setIfInBounds 1 (UInt64.ofNat turn.lane)
    |>.setIfInBounds 2 (UInt64.ofNat turn.slice)
    |>.setIfInBounds 3 (UInt64.ofNat turn.s + 1)
    |>.setIfInBounds 4 (UInt64.ofNat tCost)
    |>.setIfInBounds 5 (UInt64.ofNat p)
    |>.setIfInBounds 6 (UInt64.ofNat argon2TypeId)

namespace Turn

def prevIdx (turn : Turn) (laneLen segmentLen : Nat) : Nat :=
  if turn.column segmentLen = 0 then turn.lane * laneLen + laneLen - 1
  else turn.absIdx laneLen segmentLen - 1

def word (turn : Turn) (laneLen segmentLen p tCost : Nat) (memory : Array Block) : UInt64 :=
  if turn.pass = 0 ∧ turn.slice < 2 then firstWord (compress zeroBlock (wordInput turn p tCost))
  else firstWord (blockAt memory (turn.prevIdx laneLen segmentLen))

def chosen (turn : Turn) (laneLen segmentLen p tCost : Nat) (memory : Array Block) : Nat :=
  turn.refIdx laneLen segmentLen p (turn.word laneLen segmentLen p tCost memory)

def stored (turn : Turn) (laneLen segmentLen p tCost : Nat) (memory : Array Block) : Block :=
  compress (blockAt memory (turn.prevIdx laneLen segmentLen))
    (blockAt memory (turn.chosen laneLen segmentLen p tCost memory))

end Turn

section Turns

variable {size p laneLen segmentLen tCost : Nat} {turn : Turn} {memory : Array Block}

theorem prevIdx_lt (h : LaidOut size p laneLen segmentLen) (hturn : turn.Visited tCost p segmentLen) :
    turn.prevIdx laneLen segmentLen < size := by
  have hin := h.in_lane hturn.lane_lt (h.in_segment hturn.slice_lt hturn.s_lt)
  have hlast := h.in_lane hturn.lane_lt (i := laneLen - 1)
  unfold Turn.prevIdx Turn.column Turn.absIdx
  split
  next => omega
  next => omega

theorem absIdx_lt (h : LaidOut size p laneLen segmentLen) (hturn : turn.Visited tCost p segmentLen) :
    turn.absIdx laneLen segmentLen < size := by
  unfold Turn.absIdx
  rw [Nat.add_assoc]
  exact h.in_lane hturn.lane_lt (h.in_segment hturn.slice_lt hturn.s_lt)

theorem previousIndex_eq (h : LaidOut size p laneLen segmentLen) :
    previousIndex turn.lane laneLen (turn.absIdx laneLen segmentLen) =
      .ok (turn.prevIdx laneLen segmentLen) := by
  have hsegments := h.segments
  have hnonempty := h.nonempty
  unfold previousIndex Turn.prevIdx Turn.column Turn.absIdx
  split
  next hfirst => rw [if_pos (by omega), Checked.sub_ok (by omega)]
  next hfirst => rw [if_neg (by omega), Checked.sub_ok (by omega)]

theorem pseudoRandAt_eq (h : LaidOut size p laneLen segmentLen) (hturn : turn.Visited tCost p segmentLen)
    (hsize : memory.size = size) :
    pseudoRandAt (segmentRands tCost p segmentLen turn) (turn.pass = 0 ∧ turn.slice < 2) memory
      (turn.prevIdx laneLen segmentLen) turn.s = .ok (turn.word laneLen segmentLen p tCost memory) := by
  have hprev := prevIdx_lt h hturn
  unfold pseudoRandAt Turn.word segmentRands
  by_cases hdata : turn.pass = 0 ∧ turn.slice < 2
  · have hs : turn.s < (computePseudoRands turn.pass turn.lane turn.slice segmentLen p tCost).size := by
      rw [computePseudoRands, Array.size_map, Array.size_range]
      exact hturn.s_lt
    rw [if_pos (decide_eq_true hdata), if_pos hdata, if_pos hdata, Checked.get_ok hs]
    simp only [computePseudoRands, Array.getElem_map, Array.getElem_range, set_eq_setIfInBounds]
    rfl
  · rw [if_neg (by simpa using hdata), if_neg hdata, Checked.bind_of_ok (get_eq_blockAt (by omega))]
    rfl

theorem fillTurn_skipped (hskipped : turn.Skipped segmentLen) :
    fillTurn laneLen segmentLen p tCost memory turn = .ok memory := by
  unfold Turn.Skipped Turn.column at hskipped
  exact if_pos ⟨hskipped.1, by omega⟩

theorem fillTurn_eq (h : LaidOut size p laneLen segmentLen) (hturn : turn.Visited tCost p segmentLen)
    (hnew : ¬ turn.Skipped segmentLen) (hsize : memory.size = size) :
    fillTurn laneLen segmentLen p tCost memory turn =
      .ok (memory.setIfInBounds (turn.absIdx laneLen segmentLen)
        (turn.stored laneLen segmentLen p tCost memory)) := by
  have hprev := prevIdx_lt h hturn
  have habs := absIdx_lt h hturn
  have href := refIdx_lt h hturn.lane_lt (turn.word laneLen segmentLen p tCost memory)
  rw [← h.lanes] at href
  refine (if_neg ?_).trans ?_
  · unfold Turn.Skipped Turn.column at hnew
    omega
  refine (Checked.bind_of_ok (previousIndex_eq h)).trans ?_
  refine (Checked.bind_of_ok (pseudoRandAt_eq h hturn hsize)).trans ?_
  refine (Checked.bind_of_ok (indexAlpha_eq h hturn.lane_lt hnew _)).trans ?_
  refine (Checked.bind_of_ok (get_eq_blockAt (by omega))).trans ?_
  refine (Checked.bind_of_ok (get_eq_blockAt (by omega))).trans ?_
  exact Checked.set_ok _ (Nat.lt_of_lt_of_eq habs hsize.symm)

theorem foldlM_fillTurn_keeps (h : LaidOut size p laneLen segmentLen) {l : List Turn} {i : Nat}
    {block : Block} (hvisited : ∀ q ∈ l, q.Visited tCost p segmentLen)
    (hother : ∀ q ∈ l, ¬ q.Skipped segmentLen → q.absIdx laneLen segmentLen ≠ i)
    (hsize : memory.size = size) (hblock : blockAt memory i = block) :
    Returns (l.foldlM (fillTurn laneLen segmentLen p tCost) memory) fun memory =>
      memory.size = size ∧ blockAt memory i = block := by
  refine .foldlM ⟨hsize, hblock⟩ fun memory q hq hmemory => ?_
  by_cases hskipped : q.Skipped segmentLen
  · exact .of_eq (fillTurn_skipped hskipped) hmemory
  · refine .of_eq (fillTurn_eq h (hvisited q hq) hskipped hmemory.1) ⟨?_, ?_⟩
    · rw [Array.size_setIfInBounds, hmemory.1]
    · rw [blockAt_set_other (hother q hq hskipped), hmemory.2]

end Turns

end CrapOs.Argon2
