import CrapOs.Foundation.ByteStrings

/-! # The random number generator

Each word that is drawn is a word of the hardware with a word of the pool on it. The
pool has four words and a draw takes the next one of them, so that 32 bytes show all
of it to an observer who knows the words of the hardware.
-/

namespace CrapOs.Rng

open Foundation

def reseedInterval : UInt32 := 64

abbrev Pool := Vector UInt8 32

structure CpuRngState where
  pool : Pool
  callCount : UInt32
  poolCursor : Nat
  cursor_mem : poolCursor ∈ [0, 8, 16, 24]

/-- A processor, and the number of words the hardware has delivered. -/
structure Machine where
  state : CpuRngState
  wordsRead : Nat

/-- `u64::from_le_bytes(pool[offset..offset + 8])` -/
def poolWord (pool : Pool) (offset : Nat) : UInt64 :=
  UInt64.ofNat (natOfLe ((pool.toList.drop offset).take 8))

def xorMix (dst src : Pool) : Pool :=
  fixedBytes 32 (wordBytes ((List.range 4).map fun i => poolWord dst (i * 8) ^^^ poolWord src (i * 8)))

theorem next_cursor_mem {cursor : Nat} (h : cursor ∈ [0, 8, 16, 24]) :
    (cursor + 8) &&& 0x18 ∈ [0, 8, 16, 24] := by
  revert cursor
  decide

section Draws

-- the words of the hardware, from whatever source they come
variable (hw : Nat → UInt64)

def bestHardwareWord (r : Machine) : UInt64 × Machine :=
  (hw r.wordsRead, { r with wordsRead := r.wordsRead + 1 })

def fillSeedBuffer (r : Machine) : Pool × Machine :=
  let (word0, r) := bestHardwareWord hw r
  let (word1, r) := bestHardwareWord hw r
  let (word2, r) := bestHardwareWord hw r
  let (word3, r) := bestHardwareWord hw r
  (fixedBytes 32 (wordBytes [word0, word1, word2, word3]), r)

def rngDraw8Bytes (r : Machine) : List UInt8 × Machine :=
  let cursor := r.state.poolCursor
  let word := poolWord r.state.pool cursor
  let r := { r with
    state := { r.state with poolCursor := (cursor + 8) &&& 0x18, cursor_mem := next_cursor_mem r.state.cursor_mem } }
  let (hardwareWord, r) := bestHardwareWord hw r
  (leBytes 8 (hardwareWord ^^^ word).toNat, r)

/-- The loop over the buffer and what is left of it. -/
def fillBuffer (remaining : Nat) (r : Machine) : List UInt8 × Machine :=
  if 8 ≤ remaining then
    let (word, r) := rngDraw8Bytes hw r
    let (rest, r) := fillBuffer (remaining - 8) r
    (word ++ rest, r)
  else if remaining = 0 then ([], r)
  else
    let (word, r) := rngDraw8Bytes hw r
    (word.take remaining, r)
termination_by remaining

/-- `reseed_cpu`, and the reseed within `get_random_bytes`. -/
def reseedCpu (r : Machine) : Machine :=
  let (fresh, r) := fillSeedBuffer hw r
  { r with state := { r.state with pool := xorMix r.state.pool fresh } }

def getRandomBytes (length : Nat) (r : Machine) : List UInt8 × Machine :=
  if length = 0 then ([], r)
  else
    let r := if r.state.callCount % reseedInterval = 0 then reseedCpu hw r else r
    let r := { r with state := { r.state with callCount := r.state.callCount + 1 } }
    fillBuffer hw length r

inductive Call where
  | getRandomBytes (length : Nat)
  | reseedCpu

def Call.exec (r : Machine) : Call → List UInt8 × Machine
  | .getRandomBytes length => Rng.getRandomBytes hw length r
  | .reseedCpu => ([], Rng.reseedCpu hw r)

def run : List Call → Machine → List (List UInt8)
  | [], _ => []
  | call :: calls, r => (call.exec hw r).1 :: run calls (call.exec hw r).2

end Draws

theorem poolWord_eq (pool : Pool) (i : Nat) : poolWord pool (i * 8) = wordAt pool.toList i := rfl

theorem eq_of_poolWord {p q : Pool} (h : ∀ i < 4, poolWord p (i * 8) = poolWord q (i * 8)) : p = q := by
  rw [← Vector.toList_inj]
  exact eq_of_wordAt (n := 4) Vector.length_toList Vector.length_toList h

theorem poolWord_wordBytes {words : List UInt64} (hlength : words.length = 4) {i : Nat}
    (hi : i < words.length) : poolWord (fixedBytes 32 (wordBytes words)) (i * 8) = words[i] := by
  rw [poolWord_eq, toList_fixedBytes (by rw [length_wordBytes, hlength]), wordAt_wordBytes hi]

theorem poolWord_xorMix (dst src : Pool) {i : Nat} (hi : i < 4) :
    poolWord (xorMix dst src) (i * 8) = poolWord dst (i * 8) ^^^ poolWord src (i * 8) := by
  have hlength : ((List.range 4).map fun i => poolWord dst (i * 8) ^^^ poolWord src (i * 8)).length = 4 := by
    rw [List.length_map, List.length_range]
  rw [xorMix, poolWord_wordBytes hlength (by omega), List.getElem_map, List.getElem_range]

theorem xorMix_right_cancel {p q src : Pool} (h : xorMix p src = xorMix q src) : p = q := by
  apply eq_of_poolWord
  intro i hi
  have hword := congrArg (fun pool => poolWord pool (i * 8)) h
  simp only [poolWord_xorMix _ _ hi] at hword
  exact (UInt64.xor_left_inj _).mp hword

def CpuRngState.view (s : CpuRngState) (i : Nat) : UInt64 := poolWord s.pool ((s.poolCursor + 8 * i) % 32)

theorem cursor_eq (s : CpuRngState) : ∃ k < 4, s.poolCursor = k * 8 := by
  have hall : ∀ c ∈ [0, 8, 16, 24], ∃ k < 4, c = k * 8 := by decide
  exact hall _ s.cursor_mem

theorem pool_eq_of_view {s t : CpuRngState} (hcursor : s.poolCursor = t.poolCursor)
    (hview : ∀ i < 4, s.view i = t.view i) : s.pool = t.pool := by
  obtain ⟨k, hk, hcursor_eq⟩ := cursor_eq s
  apply eq_of_poolWord
  intro j hj
  have hword := hview ((j + 4 - k) % 4) (Nat.mod_lt _ (by decide))
  have hindex : (k * 8 + 8 * ((j + 4 - k) % 4)) % 32 = j * 8 := by omega
  rw [CpuRngState.view, CpuRngState.view, ← hcursor, hcursor_eq, hindex] at hword
  exact hword

section Draws

variable (hw : Nat → UInt64)

theorem rngDraw8Bytes_fst (r : Machine) :
    (rngDraw8Bytes hw r).1 = leBytes 8 (hw r.wordsRead ^^^ r.state.view 0).toNat := by
  obtain ⟨k, hk, hcursor⟩ := cursor_eq r.state
  have hindex : (r.state.poolCursor + 8 * 0) % 32 = r.state.poolCursor := by omega
  rw [CpuRngState.view, hindex]
  rfl

theorem rngDraw8Bytes_view (r : Machine) (i : Nat) :
    (rngDraw8Bytes hw r).2.state.view i = r.state.view (i + 1) := by
  have hall : ∀ c ∈ [0, 8, 16, 24], (c + 8) &&& 0x18 = (c + 8) % 32 := by decide
  have hnext := hall _ r.state.cursor_mem
  have hindex : ((r.state.poolCursor + 8) % 32 + 8 * i) % 32 = (r.state.poolCursor + 8 * (i + 1)) % 32 := by
    omega
  rw [CpuRngState.view, CpuRngState.view, ← hindex, ← hnext]
  rfl

theorem rngDraw8Bytes_wordsRead (r : Machine) : (rngDraw8Bytes hw r).2.wordsRead = r.wordsRead + 1 := rfl

theorem fillBuffer_word (remaining : Nat) (r : Machine) :
    fillBuffer hw (remaining + 8) r =
      ((rngDraw8Bytes hw r).1 ++ (fillBuffer hw remaining (rngDraw8Bytes hw r).2).1,
        (fillBuffer hw remaining (rngDraw8Bytes hw r).2).2) := by
  rw [fillBuffer, if_pos (Nat.le_add_left 8 remaining), Nat.add_sub_cancel]

theorem fillBuffer_words (n : Nat) (r : Machine) :
    (fillBuffer hw (8 * n) r).1 =
      wordBytes ((List.range n).map fun i => hw (r.wordsRead + i) ^^^ r.state.view i) := by
  induction n generalizing r with
  | zero =>
    rw [fillBuffer]
    rfl
  | succ n ih =>
    have hshift (i : Nat) : r.wordsRead + 1 + i = r.wordsRead + (i + 1) := by omega
    rw [Nat.mul_succ, fillBuffer_word, ih, rngDraw8Bytes_fst, rngDraw8Bytes_wordsRead,
      List.range_succ_eq_map, List.map_cons, List.map_map, wordBytes_cons]
    simp only [Function.comp_def, rngDraw8Bytes_view, hshift, Nat.add_zero, Nat.succ_eq_add_one]

variable {r u : Machine}

theorem view_eq_of_fillBuffer {n : Nat} (hread : r.wordsRead = u.wordsRead)
    (h : (fillBuffer hw (8 * n) r).1 = (fillBuffer hw (8 * n) u).1) :
    ∀ i < n, r.state.view i = u.state.view i := by
  rw [fillBuffer_words, fillBuffer_words, hread] at h
  have hwords := wordBytes_inj h (by rw [List.length_map, List.length_map])
  intro i hi
  have hword := List.map_inj_left.mp hwords i (List.mem_range.mpr hi)
  exact (UInt64.xor_right_inj _).mp hword

def beforeDraws (r : Machine) : Machine :=
  let r := if r.state.callCount % reseedInterval = 0 then reseedCpu hw r else r
  { r with state := { r.state with callCount := r.state.callCount + 1 } }

theorem getRandomBytes_eq {length : Nat} (hlength : length ≠ 0) (r : Machine) :
    getRandomBytes hw length r = fillBuffer hw length (beforeDraws hw r) := if_neg hlength

/-- Machines of which only the pools may differ. -/
structure SameCalls (r u : Machine) : Prop where
  callCount : r.state.callCount = u.state.callCount
  poolCursor : r.state.poolCursor = u.state.poolCursor
  wordsRead : r.wordsRead = u.wordsRead

theorem SameCalls.eq (h : SameCalls r u) (hpool : r.state.pool = u.state.pool) : r = u := by
  obtain ⟨⟨pool, callCount, poolCursor, cursor_mem⟩, wordsRead⟩ := r
  obtain ⟨hcallCount, hpoolCursor, hwordsRead⟩ := h
  subst hcallCount hpoolCursor hwordsRead hpool
  rfl

theorem reseedCpu_eq (r : Machine) :
    reseedCpu hw r =
      { state := { r.state with pool := xorMix r.state.pool (fillSeedBuffer hw r).1 }
        wordsRead := r.wordsRead + 4 } := rfl

theorem SameCalls.reseedCpu (h : SameCalls r u) :
    SameCalls (reseedCpu hw r) (reseedCpu hw u) := by
  rw [reseedCpu_eq, reseedCpu_eq]
  exact ⟨h.callCount, h.poolCursor, congrArg (· + 4) h.wordsRead⟩

theorem SameCalls.beforeDraws (h : SameCalls r u) :
    SameCalls (beforeDraws hw r) (beforeDraws hw u) := by
  have hcounted {r u : Machine} (h : SameCalls r u) :
      SameCalls { r with state := { r.state with callCount := r.state.callCount + 1 } }
        { u with state := { u.state with callCount := u.state.callCount + 1 } } :=
    ⟨congrArg (· + 1) h.callCount, h.poolCursor, h.wordsRead⟩
  unfold Rng.beforeDraws
  rw [h.callCount]
  split
  · exact hcounted (h.reseedCpu hw)
  · exact hcounted h

theorem fillSeedBuffer_fst (hread : r.wordsRead = u.wordsRead) :
    (fillSeedBuffer hw r).1 = (fillSeedBuffer hw u).1 := by
  simp only [fillSeedBuffer, bestHardwareWord, hread]

theorem pool_eq_of_beforeDraws (h : SameCalls r u)
    (hpool : (beforeDraws hw r).state.pool = (beforeDraws hw u).state.pool) :
    r.state.pool = u.state.pool := by
  unfold beforeDraws at hpool
  rw [h.callCount] at hpool
  split at hpool
  · have hmixed : xorMix r.state.pool (fillSeedBuffer hw r).1 = xorMix u.state.pool (fillSeedBuffer hw u).1 := hpool
    rw [fillSeedBuffer_fst hw h.wordsRead] at hmixed
    exact xorMix_right_cancel hmixed
  · exact hpool

theorem eq_of_getRandomBytes (hsame : SameCalls r u)
    (hbytes : (getRandomBytes hw 32 r).1 = (getRandomBytes hw 32 u).1) : r = u := by
  have hbefore := hsame.beforeDraws hw
  have hview := view_eq_of_fillBuffer hw (n := 4) hbefore.wordsRead hbytes
  exact hsame.eq (pool_eq_of_beforeDraws hw hsame (pool_eq_of_view hbefore.poolCursor hview))

/-- One result of 32 bytes determines the pool, and with it all that comes later,
whatever the words of the hardware are. -/
theorem getRandomBytes_reveals {r u : Machine} (hsame : SameCalls r u)
    (hbytes : (getRandomBytes hw 32 r).1 = (getRandomBytes hw 32 u).1) :
    r.state.pool = u.state.pool ∧
      ∀ calls, run hw calls (getRandomBytes hw 32 r).2 = run hw calls (getRandomBytes hw 32 u).2 := by
  have heq := eq_of_getRandomBytes hw hsame hbytes
  exact ⟨by rw [heq], fun calls => by rw [heq]⟩

end Draws

def freshMachine (pool : Pool) : Machine where
  state := { pool, callCount := 0, poolCursor := 0, cursor_mem := by decide }
  wordsRead := 0

def sampleWords (n : Nat) : UInt64 := UInt64.ofNat (n * n + 5)

def countingPool : Pool := Vector.ofFn fun i => UInt8.ofNat (i.val + 1)

/-- A pool that seeds were mixed into twice shows the same bytes as the pool it was, and is the
same pool; another pool shows others. -/
theorem getRandomBytes_reveals_mixed : ∃ r u : Machine,
    r = freshMachine countingPool ∧
      u = freshMachine (xorMix (xorMix countingPool (Vector.replicate 32 9)) (Vector.replicate 32 9)) ∧
      (∀ calls, run sampleWords calls (getRandomBytes sampleWords 32 r).2 =
        run sampleWords calls (getRandomBytes sampleWords 32 u).2) ∧
      (getRandomBytes sampleWords 32 r).1 ≠
        (getRandomBytes sampleWords 32 (freshMachine (Vector.replicate 32 9))).1 := by
  refine ⟨_, _, rfl, rfl, ?_, fun hbytes => ?_⟩
  · exact (getRandomBytes_reveals sampleWords ⟨rfl, rfl, rfl⟩ (by decide +kernel)).2
  · have hsame : SameCalls (freshMachine countingPool) (freshMachine (Vector.replicate 32 9)) :=
      ⟨rfl, rfl, rfl⟩
    exact absurd (getRandomBytes_reveals sampleWords hsame hbytes).1 (by decide)

/-- For a hardware that delivers zeros there are no two pools as the documentation asks for. -/
theorem getRandomBytes_zeros_reveals :
    ¬ ∃ r u : Machine, SameCalls r u ∧
      (getRandomBytes (fun _ => 0) 32 r).1 = (getRandomBytes (fun _ => 0) 32 u).1 ∧
      ∃ calls, run (fun _ => 0) calls (getRandomBytes (fun _ => 0) 32 r).2 ≠
        run (fun _ => 0) calls (getRandomBytes (fun _ => 0) 32 u).2 := by
  rintro ⟨r, u, hsame, hbytes, calls, hdiffer⟩
  rw [eq_of_getRandomBytes _ hsame hbytes] at hdiffer
  exact hdiffer rfl

end CrapOs.Rng
