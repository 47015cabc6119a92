import CrapOs.Crypto.Argon2Fill
import CrapOs.Crypto.Argon2Compression

/-! # Reference blocks, in the code and in RFC 9106

The code takes every reference block by walking from the lane it is in over all the memory;
the RFC chooses a lane by one half of the word and a block of that lane by the other half.
Both are given here as a lane and a column, so that the two can be compared.
-/

namespace CrapOs.Argon2

open Foundation

/-! ## The windows of the RFC -/

namespace Turn

def windowStart (turn : Turn) (segmentLen : Nat) : Nat :=
  if turn.pass = 0 then 0 else (turn.slice + 1) * segmentLen

def finishedSize (turn : Turn) (segmentLen : Nat) : Nat :=
  if turn.pass = 0 then turn.slice * segmentLen else 3 * segmentLen

/-- The size of the window in the own lane or in another one. -/
def windowSize (turn : Turn) (own : Bool) (segmentLen : Nat) : Nat :=
  if own then turn.finishedSize segmentLen + turn.s - 1
  else if turn.s = 0 then turn.finishedSize segmentLen - 1
  else turn.finishedSize segmentLen

def windowColumn (turn : Turn) (segmentLen i : Nat) : Nat :=
  (turn.windowStart segmentLen + i) % (4 * segmentLen)

end Turn

theorem dropLast_map_range {f : Nat → Nat} (n : Nat) :
    ((List.range n).map f).dropLast = (List.range (n - 1)).map f := by
  cases n with
  | zero => rfl
  | succ n =>
    rw [List.range_succ, List.map_append, List.map_singleton, List.dropLast_concat, Nat.add_sub_cancel]

section Window

variable {tCost p segmentLen : Nat} {turn : Turn}

theorem finished_eq (hturn : turn.Visited tCost p segmentLen) :
    Rfc9106.finished turn.pass turn.slice segmentLen =
      (List.range (turn.finishedSize segmentLen)).map (turn.windowColumn segmentLen) := by
  unfold Rfc9106.finished Turn.finishedSize Turn.windowColumn Turn.windowStart
  split
  next hpass =>
    -- nothing has gone around in the first pass
    have hle : turn.slice * segmentLen ≤ 4 * segmentLen :=
      Nat.mul_le_mul_right segmentLen (Nat.le_of_lt hturn.slice_lt)
    refine (List.map_id _).symm.trans (List.map_congr_left fun i hi => ?_)
    have hlt := List.mem_range.mp hi
    rw [Nat.zero_add, Nat.mod_eq_of_lt (by omega), id]
  next hpass => rfl

theorem segment_eq (hturn : turn.Visited tCost p segmentLen) :
    (List.range turn.s).map (turn.slice * segmentLen + ·) =
      (List.range turn.s).map fun i =>
        turn.windowColumn segmentLen (turn.finishedSize segmentLen + i) := by
  refine List.map_congr_left fun i hi => ?_
  have hlt := List.mem_range.mp hi
  have hs := hturn.s_lt
  have hle : turn.slice * segmentLen ≤ 3 * segmentLen :=
    Nat.mul_le_mul_right segmentLen (Nat.le_of_lt_succ hturn.slice_lt)
  unfold Turn.windowColumn Turn.finishedSize Turn.windowStart
  split
  next hpass => rw [Nat.zero_add, Nat.mod_eq_of_lt (by omega)]
  next hpass =>
    have hround : (turn.slice + 1) * segmentLen + (3 * segmentLen + i) =
        turn.slice * segmentLen + i + 4 * segmentLen := by
      rw [Nat.succ_mul]
      omega
    rw [hround, Nat.add_mod_right, Nat.mod_eq_of_lt (by omega)]

theorem window_eq (hturn : turn.Visited tCost p segmentLen) (own : Bool) :
    Rfc9106.window own turn.pass turn.slice turn.s segmentLen =
      (List.range (turn.windowSize own segmentLen)).map (turn.windowColumn segmentLen) := by
  unfold Rfc9106.window Turn.windowSize
  rw [finished_eq hturn, segment_eq hturn]
  split
  next =>
    rw [← dropLast_map_range, List.range_add, List.map_append, List.map_map]
    rfl
  next =>
    split
    next => exact dropLast_map_range _
    next => rfl

def Turn.rfcLane (turn : Turn) (p : Nat) (word : UInt64) : Nat :=
  Rfc9106.referenceLane word turn.pass turn.lane turn.slice p

def Turn.rfcColumn (turn : Turn) (segmentLen p : Nat) (word : UInt64) : Nat :=
  turn.windowColumn segmentLen
    (Rfc9106.position (turn.windowSize (turn.rfcLane p word = turn.lane) segmentLen) word)

theorem position_lt {size : Nat} (hpos : 0 < size) (word : UInt64) : Rfc9106.position size word < size := by
  simp only [Rfc9106.position]
  omega

theorem windowSize_pos (hturn : turn.Visited tCost p segmentLen) (hnew : ¬ turn.Skipped segmentLen)
    {own : Bool} (hown : turn.pass = 0 → own = true) : 0 < turn.windowSize own segmentLen := by
  have hs := hturn.s_lt
  unfold Turn.Skipped Turn.column at hnew
  unfold Turn.windowSize Turn.finishedSize
  by_cases hpass : turn.pass = 0
  · rw [if_pos (hown hpass), if_pos hpass]
    omega
  · rw [if_neg hpass]
    split
    next => omega
    next =>
      split
      next => omega
      next => omega

end Window

section Reference

variable {size p laneLen segmentLen tCost : Nat} {turn : Turn}

theorem getD_window (hturn : turn.Visited tCost p segmentLen) (hnew : ¬ turn.Skipped segmentLen) (own : Bool)
    (word : UInt64) :
    (Rfc9106.window own turn.pass turn.slice turn.s segmentLen).getD
        (Rfc9106.position (Rfc9106.window own turn.pass turn.slice turn.s segmentLen).length word) 0 =
      turn.windowColumn segmentLen (Rfc9106.position (turn.windowSize own segmentLen) word) := by
  rw [window_eq hturn, List.length_map, List.length_range]
  rcases Nat.eq_zero_or_pos (turn.windowSize own segmentLen) with hempty | hpos
  · -- there is nothing to choose from, and the first block of the lane stands in for it
    have hpass : turn.pass = 0 := by
      by_contra hpass
      exact Nat.ne_of_gt (windowSize_pos hturn hnew fun h => absurd h hpass) hempty
    simp [hempty, Rfc9106.position, Turn.windowColumn, Turn.windowStart, hpass]
  · simp [List.getD_eq_getElem?_getD, position_lt hpos word]

theorem referenceIndex_eq (hturn : turn.Visited tCost p segmentLen) (hnew : ¬ turn.Skipped segmentLen)
    (word : UInt64) :
    Rfc9106.referenceIndex word turn.pass turn.lane turn.slice turn.s segmentLen p =
      turn.rfcLane p word * (4 * segmentLen) + turn.rfcColumn segmentLen p word :=
  congrArg (turn.rfcLane p word * (4 * segmentLen) + ·) (getD_window hturn hnew _ word)

theorem rfcColumn_lt (hturn : turn.Visited tCost p segmentLen) (word : UInt64) :
    turn.rfcColumn segmentLen p word < 4 * segmentLen := by
  have hs := hturn.s_lt
  exact Nat.mod_lt _ (by omega)

theorem rfcLane_lt (hturn : turn.Visited tCost p segmentLen) (word : UInt64) : turn.rfcLane p word < p := by
  have hlane := hturn.lane_lt
  unfold Turn.rfcLane Rfc9106.referenceLane
  split
  · exact hlane
  · exact Nat.mod_lt _ (by omega)

theorem mul_add_eq_iff {a b x y n : Nat} (hx : x < n) (hy : y < n) :
    a * n + x = b * n + y ↔ a = b ∧ x = y := by
  constructor
  · intro h
    have hn : 0 < n := by omega
    have hdiv := congrArg (· / n) h
    simp only [Nat.mul_comm _ n, Nat.mul_add_div hn, Nat.div_eq_of_lt hx, Nat.div_eq_of_lt hy] at hdiv
    have hab : a = b := hdiv
    subst hab
    exact ⟨rfl, Nat.add_left_cancel h⟩
  · rintro ⟨rfl, rfl⟩
    rfl

theorem add_mod_eq_iff {a k r n : Nat} (ha : a < n) (hk : k < n) (hr : r < n) :
    (a + k) % n = r ↔ k = (r + (n - a)) % n := by
  have hleft : (a + k) % n = if a + k < n then a + k else a + k - n := by
    split
    next h => exact Nat.mod_eq_of_lt h
    next h => rw [Nat.mod_eq_sub_mod (Nat.not_lt.mp h), Nat.mod_eq_of_lt (by omega)]
  have hright : (r + (n - a)) % n = if r < a then r + (n - a) else r - a := by
    split
    next h => exact Nat.mod_eq_of_lt (by omega)
    next h => rw [Nat.mod_eq_sub_mod (by omega), Nat.mod_eq_of_lt (by omega)]; omega
  rw [hleft, hright]
  split <;> split <;> omega

/-- How far the RFC's block is above the start of the reference area, around the end of the memory. -/
def Turn.rfcAhead (turn : Turn) (laneLen segmentLen p : Nat) (rfcWord : UInt64) : Nat :=
  (turn.rfcLane p rfcWord * laneLen + turn.rfcColumn segmentLen p rfcWord +
    (p * laneLen - (turn.lane * laneLen + turn.areaStart segmentLen))) % (p * laneLen)

theorem refIdx_eq_iff_residue (h : LaidOut size p laneLen segmentLen)
    (hturn : turn.Visited tCost p segmentLen) (hnew : ¬ turn.Skipped segmentLen) (word rfcWord : UInt64) :
    turn.refIdx laneLen segmentLen p word =
        Rfc9106.referenceIndex rfcWord turn.pass turn.lane turn.slice turn.s segmentLen p ↔
      turn.rfcAhead laneLen segmentLen p rfcWord < turn.area laneLen segmentLen p ∧
        spread word % turn.area laneLen segmentLen p =
          turn.area laneLen segmentLen p - 1 - turn.rfcAhead laneLen segmentLen p rfcWord := by
  have hpos := h.area_pos hturn.lane_lt hnew
  have hback := Nat.mod_lt (spread word) hpos
  have hcolumn := rfcColumn_lt hturn rfcWord
  rw [← h.segments] at hcolumn
  have hlane : turn.lane * laneLen + laneLen ≤ p * laneLen := by
    rw [← Nat.succ_mul]
    exact Nat.mul_le_mul_right laneLen hturn.lane_lt
  have hrfc : turn.rfcLane p rfcWord * laneLen + laneLen ≤ p * laneLen := by
    rw [← Nat.succ_mul]
    exact Nat.mul_le_mul_right laneLen (rfcLane_lt hturn rfcWord)
  have hs := hturn.s_lt
  have hstart : turn.areaStart segmentLen < laneLen := by
    unfold Turn.areaStart
    split
    · omega
    · exact h.in_segment (Nat.mod_lt _ (by decide)) h.nonempty
  have harea : turn.area laneLen segmentLen p < p * laneLen := by
    have hin := h.in_segment hturn.slice_lt hs
    unfold Turn.area Turn.column
    split <;> omega
  rw [referenceIndex_eq hturn hnew, ← h.segments, Turn.refIdx, add_mod_eq_iff (by omega) (by
    unfold Turn.phi
    omega) (by omega), Turn.phi, ← Turn.rfcAhead]
  omega

/-- How far the RFC goes back in the first pass, from the newest block of the window. -/
def Turn.rfcBack (turn : Turn) (segmentLen : Nat) (rfcWord : UInt64) : Nat :=
  (turn.column segmentLen - 1) * (Rfc9106.j1 rfcWord ^ 2 / 2 ^ 32) / 2 ^ 32

theorem rfcBack_lt (hcolumn : 2 ≤ turn.column segmentLen) (rfcWord : UInt64) :
    turn.rfcBack segmentLen rfcWord < turn.column segmentLen - 1 := by
  have hj1 : Rfc9106.j1 rfcWord < 2 ^ 32 := Nat.mod_lt _ (by decide)
  have hx : Rfc9106.j1 rfcWord ^ 2 / 2 ^ 32 < 2 ^ 32 := by
    apply Nat.div_lt_of_lt_mul
    exact Nat.pow_lt_pow_left hj1 (by decide)
  apply Nat.div_lt_of_lt_mul
  rw [Nat.mul_comm]
  exact Nat.mul_lt_mul_of_pos_right hx (by omega)

theorem rfcColumn_first (hturn : turn.Visited tCost p segmentLen) (hpass : turn.pass = 0) {rfcWord : UInt64}
    (hlane : turn.rfcLane p rfcWord = turn.lane) :
    turn.rfcColumn segmentLen p rfcWord =
      turn.column segmentLen - 2 - turn.rfcBack segmentLen rfcWord := by
  have hs := hturn.s_lt
  have hle : turn.slice * segmentLen ≤ 3 * segmentLen :=
    Nat.mul_le_mul_right segmentLen (Nat.le_of_lt_succ hturn.slice_lt)
  have hsize : turn.windowSize (turn.rfcLane p rfcWord = turn.lane) segmentLen =
      turn.column segmentLen - 1 := by
    unfold Turn.windowSize Turn.finishedSize Turn.column
    rw [if_pos (decide_eq_true hlane), if_pos hpass]
  unfold Turn.rfcColumn Turn.windowColumn Turn.windowStart
  rw [hsize, if_pos hpass, Nat.zero_add]
  refine (Nat.mod_eq_of_lt ?_).trans (congrArg (· - _) (Nat.sub_sub _ 1 1))
  refine Nat.lt_of_le_of_lt ((Nat.sub_le _ _).trans (Nat.sub_le _ _)) ?_
  unfold Turn.column
  omega

theorem refIdx_eq_iff_first (h : LaidOut size p laneLen segmentLen)
    (hturn : turn.Visited tCost p segmentLen) (hnew : ¬ turn.Skipped segmentLen) (hpass : turn.pass = 0)
    (word rfcWord : UInt64) :
    turn.refIdx laneLen segmentLen p word =
        Rfc9106.referenceIndex rfcWord turn.pass turn.lane turn.slice turn.s segmentLen p ↔
      turn.rfcLane p rfcWord = turn.lane ∧
        spread word % (turn.column segmentLen - 1) = turn.rfcBack segmentLen rfcWord := by
  have hin : turn.column segmentLen < laneLen := h.in_segment hturn.slice_lt hturn.s_lt
  have hcolumn : 2 ≤ turn.column segmentLen := by
    by_contra hlt
    exact hnew ⟨hpass, Nat.not_le.mp hlt⟩
  have hback : spread word % (turn.column segmentLen - 1) < turn.column segmentLen - 1 :=
    Nat.mod_lt _ (by omega)
  have hrfcBack := rfcBack_lt hcolumn rfcWord
  have hrfcColumn := rfcColumn_lt hturn rfcWord
  rw [← h.segments] at hrfcColumn
  rw [referenceIndex_eq hturn hnew, ← h.segments, refIdx_first h hturn hpass,
    mul_add_eq_iff (by omega) hrfcColumn, eq_comm]
  refine and_congr_right fun hlane => ?_
  rw [rfcColumn_first hturn hpass hlane]
  omega

end Reference

namespace Turn

def rfcWord (turn : Turn) (laneLen segmentLen tCost : Nat) (memory : Array Block) : UInt64 :=
  Rfc9106.pseudoRandom (blockAt memory (turn.prevIdx laneLen segmentLen)) turn.pass turn.lane turn.slice
    turn.s memory.size tCost

def rfcChosen (turn : Turn) (laneLen segmentLen p tCost : Nat) (memory : Array Block) : Nat :=
  Rfc9106.referenceIndex (turn.rfcWord laneLen segmentLen tCost memory) turn.pass turn.lane turn.slice turn.s
    segmentLen p

end Turn

theorem word_eq_rfcWord {laneLen segmentLen p tCost : Nat} {memory : Array Block} {turn : Turn}
    (hdata : ¬ (turn.pass = 0 ∧ turn.slice < 2)) :
    turn.word laneLen segmentLen p tCost memory = turn.rfcWord laneLen segmentLen tCost memory := by
  unfold Turn.word Turn.rfcWord Rfc9106.pseudoRandom
  rw [if_neg hdata, if_neg hdata]
  rfl

theorem getElem_rowsOf (z : Block) {i k : Nat} (hi : i < 8) (hk : k < 16) :
    (rowsOf z)[i][k] = z[Rfc9106.rowWord ⟨i, hi⟩ ⟨k, hk⟩] := by
  simp [rowsOf, gather]

theorem row_first : 0 < 8 := Nat.succ_pos 7

theorem place_first : 0 < 16 := Nat.succ_pos 15

def corner (rows : Rows) : UInt64 := (rows.get ⟨0, row_first⟩).get ⟨0, place_first⟩

theorem corner_rowsOf (z : Block) : corner (rowsOf z) = firstWord z :=
  getElem_rowsOf z row_first place_first

theorem compress_first (x y : Block) :
    firstWord (compress x y) =
      corner (permuteShuffled (rowsOf (Rfc9106.xor x y))) ^^^ corner (rowsOf (Rfc9106.xor x y)) := by
  rw [← rowsOf_shuffled, compress_eq_columns, codeColumns_eq, corner_rowsOf, corner_rowsOf]
  simp [firstWord, get_eq_getElem, Rfc9106.xor, unshuffle, gather, registerPlace]

theorem zero_xor (z : Block) : Rfc9106.xor Rfc9106.zero z = z := by
  ext i hi
  simp [Rfc9106.xor, Rfc9106.zero]

def fourthTurn : Turn := ⟨0, 1, 0, 1⟩

theorem rowsOf_wordInput :
    rowsOf (wordInput fourthTurn 1 1) = inputRows #v[0, 0, 1, 2, 1, 1, 2, 0, 0, 0, 0, 0, 0, 0, 0, 0] := by
  decide +kernel

theorem rowsOf_addressInput :
    rowsOf (Rfc9106.addressInput 0 0 1 8 1 1) =
      inputRows #v[0, 0, 1, 8, 1, 2, 1, 0, 0, 0, 0, 0, 0, 0, 0, 0] := by
  decide +kernel

theorem compress_wordInput :
    firstWord (compress zeroBlock (wordInput fourthTurn 1 1)) = 13757739248013064334 := by
  have hzero : Rfc9106.xor zeroBlock (wordInput fourthTurn 1 1) = wordInput fourthTurn 1 1 := zero_xor _
  rw [compress_first, hzero, rowsOf_wordInput]
  decide +kernel

theorem addressBlock_second :
    (Rfc9106.addressBlock 0 0 1 8 1 1).get ⟨1, Rfc9106.address_lt 1⟩ = 14306048619828749799 := by
  have hword : (Rfc9106.addressBlock 0 0 1 8 1 1).get ⟨1, Rfc9106.address_lt 1⟩ =
      (rowsOf (Rfc9106.addressBlock 0 0 1 8 1 1))[0][1] := by
    rw [getElem_rowsOf]
    rfl
  rw [hword, Rfc9106.addressBlock, rowsOf_compression, zero_xor, rowsOf_compression, zero_xor,
    rowsOf_addressInput]
  decide +kernel

theorem word_fourthTurn (memory : Array Block) : fourthTurn.word 8 2 1 1 memory = 13757739248013064334 := by
  rw [Turn.word, if_pos (by decide)]
  exact compress_wordInput

theorem rfcWord_fourthTurn {memory : Array Block} (hsize : memory.size = 8) :
    fourthTurn.rfcWord 8 2 1 memory = 14306048619828749799 := by
  rw [Turn.rfcWord, hsize, Rfc9106.pseudoRandom, if_pos (by decide)]
  exact addressBlock_second

/-- A turn takes the reference block of the RFC for one residue of its word only: the one that leads
to the RFC's block, if that is in the reference area at all. In the first pass that is where the RFC
stays in the lane and two ways of reducing a word agree. -/
theorem chosen_eq_rfcChosen_iff {password salt : List UInt8} {mCost tCost pCost : UInt32}
    (hvalid : validateParams password salt mCost tCost pCost = .ok ()) {turn : Turn}
    (hturn : turn.Visited tCost.toNat pCost.toNat (segmentBlocks mCost pCost))
    (hnew : ¬ turn.Skipped (segmentBlocks mCost pCost)) {memory : Array Block}
    (hsize : memory.size = totalBlocks mCost pCost) :
    let laneLen := laneBlocks mCost pCost
    let segmentLen := segmentBlocks mCost pCost
    let word := turn.word laneLen segmentLen pCost.toNat tCost.toNat memory
    let rfcWord := turn.rfcWord laneLen segmentLen tCost.toNat memory
    let chosen := turn.chosen laneLen segmentLen pCost.toNat tCost.toNat memory
    let rfcChosen := turn.rfcChosen laneLen segmentLen pCost.toNat tCost.toNat memory
    fillTurn laneLen segmentLen pCost.toNat tCost.toNat memory turn =
        .ok (memory.setIfInBounds (turn.absIdx laneLen segmentLen)
          (compress (blockAt memory (turn.prevIdx laneLen segmentLen)) (blockAt memory chosen))) ∧
      (¬ (turn.pass = 0 ∧ turn.slice < 2) → word = rfcWord) ∧
      (chosen = rfcChosen ↔
        turn.rfcAhead laneLen segmentLen pCost.toNat rfcWord < turn.area laneLen segmentLen pCost.toNat ∧
          spread word % turn.area laneLen segmentLen pCost.toNat =
            turn.area laneLen segmentLen pCost.toNat - 1 -
              turn.rfcAhead laneLen segmentLen pCost.toNat rfcWord) ∧
      (turn.pass = 0 → (chosen = rfcChosen ↔
        turn.rfcLane pCost.toNat rfcWord = turn.lane ∧
          spread word % (turn.column segmentLen - 1) = turn.rfcBack segmentLen rfcWord)) := by
  have hlayout := layout_of_visited hvalid hturn
  exact ⟨fillTurn_eq hlayout hturn hnew hsize, word_eq_rfcWord,
    refIdx_eq_iff_residue hlayout hturn hnew _ _,
    fun hpass => refIdx_eq_iff_first hlayout hturn hnew hpass _ _⟩

/-- The first block of the second pass, after a block with the first word 1: both take block 6. -/
theorem chosen_eq_rfcChosen_iff_second_pass :
    let memory := (Array.replicate 8 zeroBlock).setIfInBounds 7 oneBlock
    (⟨1, 0, 0, 0⟩ : Turn).rfcWord 8 2 2 memory = 1 ∧
      (⟨1, 0, 0, 0⟩ : Turn).chosen 8 2 1 2 memory = (⟨1, 0, 0, 0⟩ : Turn).rfcChosen 8 2 1 2 memory := by
  intro memory
  have hsegment : segmentBlocks 8 1 = 2 := by decide
  have hblocks : laneBlocks 8 1 = 8 := by decide
  have hone : (1 : UInt32).toNat = 1 := rfl
  have htwo : (2 : UInt32).toNat = 2 := rfl
  have hiff := @chosen_eq_rfcChosen_iff (ascii "password") (ascii "saltsalt") 8 2 1 (by decide) ⟨1, 0, 0, 0⟩
    ⟨by decide, by decide, by decide, by decide⟩ (fun hskipped => absurd hskipped.1 (by decide))
    memory (by simp [memory]; decide)
  simp only [hsegment, hblocks, hone, htwo] at hiff
  have hrfc : (⟨1, 0, 0, 0⟩ : Turn).rfcWord 8 2 2 memory = 1 := by decide +kernel
  refine ⟨hrfc, hiff.2.2.1.mpr ?_⟩
  decide

/-- The fourth block, with one lane of eight: the code takes the first block of the memory and the
RFC the second, whatever they hold. -/
theorem fillTurn_other_reference :
    validateParams (ascii "password") (ascii "saltsalt") 8 1 1 = .ok () ∧
    fourthTurn.Visited 1 1 2 ∧
    ∀ memory : Array Block, memory.size = 8 →
      fillTurn 8 2 1 1 memory fourthTurn =
          .ok (memory.setIfInBounds 3 (compress (blockAt memory 2) (blockAt memory 0))) ∧
        fourthTurn.rfcChosen 8 2 1 1 memory = 1 := by
  have hturn : fourthTurn.Visited 1 1 2 := ⟨by decide, by decide, by decide, by decide⟩
  have hnew : ¬ fourthTurn.Skipped 2 := fun hskipped => absurd hskipped.2 (by decide)
  have hlayout : LaidOut 8 1 8 2 := ⟨by decide, by decide, by decide⟩
  refine ⟨by decide, hturn, fun memory hsize => ⟨?_, ?_⟩⟩
  · have hchosen : fourthTurn.chosen 8 2 1 1 memory = 0 := by
      rw [Turn.chosen, word_fourthTurn]
      decide +kernel
    have habs : fourthTurn.absIdx 8 2 = 3 := rfl
    have hprev : fourthTurn.prevIdx 8 2 = 2 := rfl
    rw [fillTurn_eq hlayout hturn hnew hsize, Turn.stored, hchosen, habs, hprev]
  · rw [Turn.rfcChosen, rfcWord_fourthTurn hsize]
    decide +kernel

end CrapOs.Argon2
