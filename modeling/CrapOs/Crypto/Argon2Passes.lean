import CrapOs.Crypto.Argon2Fill
import CrapOs.Crypto.Blake2bStream

/-! # The passes after the first

Version 0x13 of Argon2, which the strings name, keeps what a block was in a later pass:
the new value is xored with it. The code overwrites the block.
-/

namespace CrapOs.Argon2

open Foundation
open Checked (Returns)

theorem length_blake (outLen : Blake2b.OutLen) (input : List UInt8) :
    (Rfc9106.blake outLen input).length = outLen := by
  rw [← Blake2b.digest_eq, Blake2b.length_digest]

theorem wordAt_zero_append {a b : List UInt8} (h : 8 ≤ a.length) : wordAt (a ++ b) 0 = wordAt a 0 := by
  simp [wordAt, List.take_append_of_le_length h]

theorem wordAt_variableHash {tau : Nat} (htau : 64 < tau) (input : List UInt8) :
    wordAt (Rfc9106.variableHash tau input) 0 = wordAt (Rfc9106.link tau input 0) 0 := by
  have hlength : (Rfc9106.link tau input 0).length = 64 := length_blake ⟨64, Nat.le_refl _⟩ _
  obtain ⟨r, hr⟩ : ∃ r, (tau + 31) / 32 - 2 = r + 1 := ⟨(tau + 31) / 32 - 3, by omega⟩
  have htake : wordAt ((Rfc9106.link tau input 0).take 32) 0 = wordAt (Rfc9106.link tau input 0) 0 := by
    simp [wordAt, List.take_take]
  unfold Rfc9106.variableHash
  rw [if_neg (Nat.not_le.mpr htau), hr]
  dsimp only
  rw [List.range_succ_eq_map, List.flatMap_cons, List.append_assoc,
    wordAt_zero_append (by simp [hlength]), htake]

theorem hPrime1024_word {h0 : Vector UInt8 64} {blockIdx lane : Nat} {block : Block}
    (h : hPrime1024 h0 blockIdx lane = .ok block) :
    firstWord block = wordAt (Rfc9106.blake 64
      (leBytes 4 blockSize ++ (h0.toList ++ leBytes 4 blockIdx ++ leBytes 4 lane))) 0 := by
  unfold hPrime1024 bytesToBlock at h
  rw [Blake2b.length_hPrime, if_neg (by decide)] at h
  rw [← Except.ok.inj h, firstWord, get_eq_getElem, Fin.getElem_fin, Vector.getElem_ofFn,
    Blake2b.hPrime_of_gt (by decide)]
  exact wordAt_variableHash (by decide) _

theorem toList_computeH0 (password salt : List UInt8) (mCost tCost pCost : UInt32) :
    (computeH0 password salt mCost tCost pCost).toList =
      Rfc9106.blake 64 (h0Input password salt mCost tCost pCost) := by
  rw [computeH0, Blake2b.toList_blake2b512, Blake2b.digest_eq]

theorem firstWord_ne_zero :
    wordAt (Rfc9106.blake 64 (leBytes 4 blockSize ++
      (Rfc9106.blake 64 (h0Input (ascii "password") (ascii "saltsalt") 8 2 1) ++ leBytes 4 0 ++
        leBytes 4 0))) 0 ≠ 0 := by
  decide +kernel

theorem firstBlock_word {block : Block}
    (h : hPrime1024 (computeH0 (ascii "password") (ascii "saltsalt") 8 2 1) 0 0 = .ok block) :
    firstWord block ≠ 0 := by
  rw [hPrime1024_word h, toList_computeH0]
  exact firstWord_ne_zero

theorem firstBlock_ne_zero {block : Block}
    (h : hPrime1024 (computeH0 (ascii "password") (ascii "saltsalt") 8 2 1) 0 0 = .ok block) :
    block ≠ zeroBlock := by
  intro hzero
  apply firstBlock_word h
  rw [hzero, zeroBlock, firstWord, get_eq_getElem, Fin.getElem_fin, Vector.getElem_replicate]

theorem initLane_eq {h0 : Vector UInt8 64} {laneLen l : Nat} {memory : Array Block} {block0 block1 : Block}
    (hblock0 : hPrime1024 h0 0 l = .ok block0) (hblock1 : hPrime1024 h0 1 l = .ok block1)
    (hsize : l * laneLen + 1 < memory.size) :
    initLane h0 laneLen memory l =
      .ok ((memory.setIfInBounds (l * laneLen) block0).setIfInBounds (l * laneLen + 1) block1) := by
  unfold initLane
  rw [Checked.bind_of_ok hblock0, Checked.bind_of_ok hblock1,
    Checked.bind_of_ok (Checked.set_ok block0 (by omega))]
  apply Checked.set_ok
  rw [Array.size_setIfInBounds]
  exact hsize

theorem absIdx_ne_zero {q : Turn} (hpass : q.pass = 0) (hnew : ¬ q.Skipped 2) : q.absIdx 8 2 ≠ 0 := by
  unfold Turn.Skipped Turn.column at hnew
  unfold Turn.absIdx
  omega

theorem xor_eq_self_iff (z old : Block) : Rfc9106.xor z old = z ↔ old = zeroBlock := by
  constructor
  · intro h
    ext i hi : 1
    have hword := congrArg (fun v : Block => v[i]) h
    simp only [Rfc9106.xor, Vector.getElem_zipWith] at hword
    have hzero : old[i] = 0 :=
      calc old[i] = z[i] ^^^ (z[i] ^^^ old[i]) := by
            rw [← UInt64.xor_assoc, UInt64.xor_self, UInt64.zero_xor]
        _ = 0 := by rw [hword, UInt64.xor_self]
    simpa [zeroBlock] using hzero
  · intro h
    ext i hi : 1
    simp [h, Rfc9106.xor, zeroBlock]

/-- In a later pass the block is what version 0x13 asks for only if it was zero before. -/
theorem fillTurn_overwrites_iff {password salt : List UInt8} {mCost tCost pCost : UInt32}
    (hvalid : validateParams password salt mCost tCost pCost = .ok ()) {turn : Turn}
    (hturn : turn.Visited tCost.toNat pCost.toNat (segmentBlocks mCost pCost)) (hpass : 1 ≤ turn.pass)
    {memory : Array Block} (hsize : memory.size = totalBlocks mCost pCost) :
    ∃ previous reference,
      previous = blockAt memory (turn.prevIdx (laneBlocks mCost pCost) (segmentBlocks mCost pCost)) ∧
      reference = blockAt memory
        (turn.chosen (laneBlocks mCost pCost) (segmentBlocks mCost pCost) pCost.toNat tCost.toNat memory) ∧
      fillTurn (laneBlocks mCost pCost) (segmentBlocks mCost pCost) pCost.toNat tCost.toNat memory turn =
        .ok (memory.setIfInBounds (turn.absIdx (laneBlocks mCost pCost) (segmentBlocks mCost pCost))
          (compress previous reference)) ∧
      (compress previous reference = Rfc9106.xor (compress previous reference)
          (blockAt memory (turn.absIdx (laneBlocks mCost pCost) (segmentBlocks mCost pCost))) ↔
        blockAt memory (turn.absIdx (laneBlocks mCost pCost) (segmentBlocks mCost pCost)) = zeroBlock) := by
  have hlayout := layout_of_visited hvalid hturn
  have hnew : ¬ turn.Skipped (segmentBlocks mCost pCost) := by
    intro hskipped
    have hfirst := hskipped.1
    omega
  refine ⟨_, _, rfl, rfl, fillTurn_eq hlayout hturn hnew hsize, ?_⟩
  rw [eq_comm, xor_eq_self_iff]

/-- In a memory where only the block that is filled is zero there is no difference. -/
theorem fillTurn_overwrites_iff_zero_block : ∃ memory previous reference,
    memory = (Array.replicate 8 (Vector.replicate 128 7)).setIfInBounds 0 zeroBlock ∧
    fillTurn 8 2 1 2 memory ⟨1, 0, 0, 0⟩ = .ok (memory.setIfInBounds 0 (compress previous reference)) ∧
    compress previous reference = Rfc9106.xor (compress previous reference) (blockAt memory 0) := by
  have hlane : laneBlocks 8 1 = 8 := by decide
  have hsegment : segmentBlocks 8 1 = 2 := by decide
  have htotal : totalBlocks 8 1 = 8 := by decide
  obtain ⟨previous, reference, -, -, hrun, hiff⟩ :=
    @fillTurn_overwrites_iff (ascii "password") (ascii "saltsalt") 8 2 1 (by decide) ⟨1, 0, 0, 0⟩
      ⟨by decide, by decide, by decide, by decide⟩ (by decide)
      ((Array.replicate 8 (Vector.replicate 128 7)).setIfInBounds 0 zeroBlock) (by simp [htotal])
  exact ⟨_, previous, reference, rfl, hrun, hiff.mpr (by simp [blockAt, Turn.absIdx])⟩

/-- With eight blocks in one lane and two passes, the very first block of the second pass is
overwritten. -/
theorem fillTurn_overwrites :
    validateParams (ascii "password") (ascii "saltsalt") 8 2 1 = .ok () ∧
    laneBlocks 8 1 = 8 ∧ segmentBlocks 8 1 = 2 ∧ (turns 2 1 2)[8]? = some ⟨1, 0, 0, 0⟩ ∧
    ∃ filled memory stored,
      (List.range 1).foldlM (initLane (computeH0 (ascii "password") (ascii "saltsalt") 8 2 1) 8)
        (Array.replicate 8 zeroBlock) = .ok filled ∧
      ((turns 2 1 2).take 8).foldlM (fillTurn 8 2 1 2) filled = .ok memory ∧
      fillMemory 8 2 1 2 filled = ((turns 2 1 2).drop 8).foldlM (fillTurn 8 2 1 2) memory ∧
      fillTurn 8 2 1 2 memory ⟨1, 0, 0, 0⟩ = .ok (memory.setIfInBounds 0 stored) ∧
      stored ≠ Rfc9106.xor stored (blockAt memory 0) := by
  have hlayout : LaidOut 8 1 8 2 := ⟨rfl, rfl, by decide⟩
  obtain ⟨block0, hblock0, -⟩ :=
    hPrime1024_returns (computeH0 (ascii "password") (ascii "saltsalt") 8 2 1) 0 0
  obtain ⟨block1, hblock1, -⟩ :=
    hPrime1024_returns (computeH0 (ascii "password") (ascii "saltsalt") 8 2 1) 1 0
  obtain ⟨filled, hfilled, hfilledSize, hfirst⟩ : ∃ filled,
      (List.range 1).foldlM (initLane (computeH0 (ascii "password") (ascii "saltsalt") 8 2 1) 8)
        (Array.replicate 8 zeroBlock) = .ok filled ∧ filled.size = 8 ∧ blockAt filled 0 = block0 := by
    have hinit := initLane_eq hblock0 hblock1 (by simp : 0 * 8 + 1 < (Array.replicate 8 zeroBlock).size)
    rw [List.range_one, List.foldlM_cons, Checked.bind_of_ok hinit, List.foldlM_nil]
    exact ⟨_, rfl, by simp, by simp [blockAt]⟩
  have hpass : ∀ q ∈ (turns 2 1 2).take 8, q.pass = 0 := by decide
  obtain ⟨memory, hrun, hsize, hkept⟩ : Returns (((turns 2 1 2).take 8).foldlM (fillTurn 8 2 1 2) filled)
      fun memory => memory.size = 8 ∧ blockAt memory 0 = block0 :=
    foldlM_fillTurn_keeps hlayout (fun q hq => mem_turns.mp (List.mem_of_mem_take hq))
      (fun q hq hnew => absIdx_ne_zero (hpass q hq) hnew) hfilledSize hfirst
  have hturn : (⟨1, 0, 0, 0⟩ : Turn).Visited 2 1 2 := ⟨by decide, by decide, by decide, by decide⟩
  have hnew : ¬ (⟨1, 0, 0, 0⟩ : Turn).Skipped 2 := fun hskipped => absurd hskipped.1 (by decide)
  have hfill : fillMemory 8 2 1 2 filled = ((turns 2 1 2).drop 8).foldlM (fillTurn 8 2 1 2) memory := by
    rw [fillMemory_eq_foldlM, ← List.take_append_drop 8 (turns 2 1 2), List.foldlM_append,
      Checked.bind_of_ok hrun, List.take_append_drop]
  refine ⟨by decide, by decide, by decide, rfl, filled, memory, _, hfilled, hrun, hfill,
    fillTurn_eq hlayout hturn hnew hsize, ?_⟩
  rw [hkept]
  intro hsame
  exact firstBlock_ne_zero hblock0 ((xor_eq_self_iff _ _).mp hsame.symm)

end CrapOs.Argon2
