import CrapOs.Checked
import CrapOs.Crypto.Blake2b

/-! # Argon2id

The memory is one array of blocks, `p` lanes of four segments each. Every access to
it is checked here as it is in the kernel; that the array can be allocated is taken
for granted.
-/

namespace CrapOs.Argon2

open Foundation
open Blake2b (rotateRight hPrime blake2b512)
open Checked (Returns Panics)

def argon2Version : Nat := 19

def argon2TypeId : Nat := 2

def blockSize : Nat := 1024

def hashLen : Nat := 32

abbrev Block := Vector UInt64 128

def zeroBlock : Block := Vector.replicate 128 0

def trunc32 (x : UInt64) : UInt64 := x &&& 0xFFFFFFFF

def mulAdd (x y : UInt64) : UInt64 := x + y + 2 * (trunc32 x * trunc32 y)

def gMix (v : Block) (a b c d : Fin 128) : Block :=
  let v := v.set a (mulAdd v[a] v[b])
  let v := v.set d (rotateRight (v[d] ^^^ v[a]) 32)
  let v := v.set c (mulAdd v[c] v[d])
  let v := v.set b (rotateRight (v[b] ^^^ v[c]) 24)
  let v := v.set a (mulAdd v[a] v[b])
  let v := v.set d (rotateRight (v[d] ^^^ v[a]) 16)
  let v := v.set c (mulAdd v[c] v[d])
  v.set b (rotateRight (v[b] ^^^ v[c]) 63)

/-- Sixteen words are given by their places in the block. -/
def pCol (v : Block) (i : Fin 16 → Fin 128) : Block :=
  let v := gMix v (i 0) (i 4) (i 8) (i 12)
  let v := gMix v (i 1) (i 5) (i 9) (i 13)
  let v := gMix v (i 2) (i 6) (i 10) (i 14)
  let v := gMix v (i 3) (i 7) (i 11) (i 15)
  let v := gMix v (i 0) (i 5) (i 10) (i 15)
  let v := gMix v (i 1) (i 6) (i 11) (i 12)
  let v := gMix v (i 2) (i 7) (i 8) (i 13)
  gMix v (i 3) (i 4) (i 9) (i 14)

theorem row_lt (row : Fin 8) (i : Fin 16) : row.val * 16 + i.val < 128 := by omega

theorem column_lt (col : Fin 8) (i : Fin 16) : col.val + i.val * 8 < 128 := by omega

def rowIndex (row : Fin 8) (i : Fin 16) : Fin 128 := ⟨row.val * 16 + i.val, row_lt row i⟩

def columnIndex (col : Fin 8) (i : Fin 16) : Fin 128 := ⟨col.val + i.val * 8, column_lt col i⟩

def compress (x y : Block) : Block :=
  let r := Vector.zipWith (· ^^^ ·) x y
  let z := (List.finRange 8).foldl (fun z row => pCol z (rowIndex row)) r
  let z := (List.finRange 8).foldl (fun z col => pCol z (columnIndex col)) z
  Vector.zipWith (· ^^^ ·) z r

/-- Too few bytes are a panic, as the slice of the last word is out of range. -/
def bytesToBlock (bytes : List UInt8) : Except Halt Block :=
  if bytes.length < blockSize then .error (.panic "range end index out of range for slice")
  else .ok (Vector.ofFn fun i => wordAt bytes i)

def blockToBytes (block : Block) : List UInt8 := wordBytes block.toList

def h0Input (password salt : List UInt8) (mCost tCost pCost : UInt32) : List UInt8 :=
  leBytes 4 pCost.toNat ++ leBytes 4 hashLen ++ leBytes 4 mCost.toNat ++ leBytes 4 tCost.toNat ++
    leBytes 4 argon2Version ++ leBytes 4 argon2TypeId ++
    leBytes 4 password.length ++ password ++ leBytes 4 salt.length ++ salt ++
    leBytes 4 0 ++ leBytes 4 0

def computeH0 (password salt : List UInt8) (mCost tCost pCost : UInt32) : Vector UInt8 64 :=
  blake2b512 (h0Input password salt mCost tCost pCost)

def hPrime1024 (h0 : Vector UInt8 64) (blockIdx lane : Nat) : Except Halt Block :=
  bytesToBlock (hPrime (h0.toList ++ leBytes 4 blockIdx ++ leBytes 4 lane) blockSize)

/-- The pseudo-random words of a segment that is filled without a look at the memory. -/
def computePseudoRands (pass lane slice segmentLen p tCost : Nat) : Array UInt64 :=
  (Array.range segmentLen).map fun s =>
    let inputBlock := zeroBlock
      |>.set 0 (UInt64.ofNat pass)
      |>.set 1 (UInt64.ofNat lane)
      |>.set 2 (UInt64.ofNat slice)
      |>.set 3 (UInt64.ofNat s + 1)
      |>.set 4 (UInt64.ofNat tCost)
      |>.set 5 (UInt64.ofNat p)
      |>.set 6 (UInt64.ofNat argon2TypeId)
    (compress zeroBlock inputBlock)[0]

def referenceArea (pass lane slice laneLen segmentLen p absIdx : Nat) : Except Halt Nat :=
  if pass = 0 then
    if slice = 0 then do
      let inLane ← Checked.sub absIdx (lane * laneLen)
      Checked.sub inLane 1
    else do
      let inLane ← Checked.sub absIdx (lane * laneLen)
      let inSlice ← Checked.sub inLane (slice * segmentLen)
      Checked.sub (slice * segmentLen + inSlice) 1
  else do
    let rest ← Checked.sub laneLen segmentLen
    let inLane ← Checked.sub absIdx (lane * laneLen)
    let inSlice ← Checked.sub inLane (slice * segmentLen)
    let own ← Checked.sub (rest + inSlice) 1
    let others ← Checked.sub p 1
    return own + others * laneLen

def indexAlpha (pseudoRand : UInt64) (pass lane slice laneLen segmentLen p absIdx : Nat) :
    Except Halt Nat := do
  let area ← referenceArea pass lane slice laneLen segmentLen p absIdx
  if area = 0 then return lane * laneLen
  let x := pseudoRand &&& 0xFFFFFFFF
  let y := (x * x) >>> 32
  let z := (x + y) >>> 1
  let last ← Checked.sub area 1
  let back ← Checked.rem z.toNat area
  let phi ← Checked.sub last back
  let start :=
    if pass = 0 then lane * laneLen else lane * laneLen + (slice + 1) % 4 * segmentLen
  Checked.rem (start + phi) (p * laneLen)

def previousIndex (lane laneLen absIdx : Nat) : Except Halt Nat :=
  if absIdx = lane * laneLen then Checked.sub (lane * laneLen + laneLen) 1 else Checked.sub absIdx 1

/-- A word of the stream that was computed before, or the first word of the previous block. -/
def pseudoRandAt (pseudoRands : Array UInt64) (dataIndependent : Bool) (memory : Array Block)
    (prevIdx s : Nat) : Except Halt UInt64 :=
  if dataIndependent then Checked.get pseudoRands s
  else do
    let prev ← Checked.get memory prevIdx
    return prev[0]

/-- One turn of the loop in `fill_segment`. The first two blocks of a lane are there already
in the first pass. -/
def fillBlock (pseudoRands : Array UInt64) (dataIndependent : Bool)
    (pass lane slice laneLen segmentLen p : Nat) (memory : Array Block) (s : Nat) :
    Except Halt (Array Block) := do
  let absIdx := lane * laneLen + slice * segmentLen + s
  if pass = 0 ∧ absIdx < lane * laneLen + 2 then return memory
  let prevIdx ← previousIndex lane laneLen absIdx
  let pseudoRand ← pseudoRandAt pseudoRands dataIndependent memory prevIdx s
  let refIdx ← indexAlpha pseudoRand pass lane slice laneLen segmentLen p absIdx
  let prev ← Checked.get memory prevIdx
  let refb ← Checked.get memory refIdx
  Checked.set memory absIdx (compress prev refb)

def fillSegment (memory : Array Block) (pass lane slice laneLen segmentLen p tCost : Nat) :
    Except Halt (Array Block) :=
  let dataIndependent := pass = 0 ∧ slice < 2
  let pseudoRands :=
    if dataIndependent then computePseudoRands pass lane slice segmentLen p tCost else #[]
  (List.range segmentLen).foldlM
    (fillBlock pseudoRands dataIndependent pass lane slice laneLen segmentLen p) memory

def initLane (h0 : Vector UInt8 64) (laneLen : Nat) (memory : Array Block) (l : Nat) :
    Except Halt (Array Block) := do
  let block0 ← hPrime1024 h0 0 l
  let block1 ← hPrime1024 h0 1 l
  let memory ← Checked.set memory (l * laneLen) block0
  Checked.set memory (l * laneLen + 1) block1

def fillMemory (laneLen segmentLen p tCost : Nat) (memory : Array Block) : Except Halt (Array Block) :=
  (List.range tCost).foldlM (fun memory pass =>
    (List.range 4).foldlM (fun memory slice =>
      (List.range p).foldlM (fun memory lane =>
        fillSegment memory pass lane slice laneLen segmentLen p tCost) memory) memory) memory

def xorLast (memory : Array Block) (laneLen : Nat) (finalBlock : Block) (l : Nat) : Except Halt Block := do
  let back ← Checked.sub laneLen 1
  let last ← Checked.get memory (l * laneLen + back)
  return Vector.zipWith (· ^^^ ·) finalBlock last

def argon2idRaw (password salt : List UInt8) (mCost tCost pCost : UInt32) :
    Except Halt (Vector UInt8 hashLen) := do
  let h0 := computeH0 password salt mCost tCost pCost
  let p := pCost.toNat
  let rows ← Checked.div mCost.toNat (4 * p)
  let totalBlocks := rows * (4 * p)
  let laneLen ← Checked.div totalBlocks p
  let segmentLen := laneLen / 4
  let memory := Array.replicate totalBlocks zeroBlock
  let memory ← (List.range p).foldlM (initLane h0 laneLen) memory
  let memory ← fillMemory laneLen segmentLen p tCost.toNat memory
  let finalBlock ← (List.range p).foldlM (xorLast memory laneLen) zeroBlock
  let digest := hPrime (blockToBytes finalBlock) hashLen
  if digest.length < hashLen then .error (.panic "range end index out of range for slice")
  else return fixedBytes hashLen digest

/-! ## Bounds -/

theorem hPrime1024_returns (h0 : Vector UInt8 64) (blockIdx lane : Nat) :
    Returns (hPrime1024 h0 blockIdx lane) fun _ => True := by
  unfold hPrime1024 bytesToBlock
  rw [Blake2b.length_hPrime, if_neg (by decide)]
  exact .of_eq rfl trivial

/-- The memory has `p` lanes of four segments, and none of these is empty. -/
structure LaidOut (size p laneLen segmentLen : Nat) : Prop where
  lanes : size = p * laneLen
  segments : laneLen = 4 * segmentLen
  nonempty : 1 ≤ segmentLen

section Bounds

variable {size p laneLen segmentLen : Nat}

theorem LaidOut.in_lane (h : LaidOut size p laneLen segmentLen) {lane i : Nat} (hlane : lane < p)
    (hi : i < laneLen) : lane * laneLen + i < size := by
  have hnext : (lane + 1) * laneLen ≤ p * laneLen := Nat.mul_le_mul_right laneLen hlane
  rw [Nat.add_mul, Nat.one_mul] at hnext
  have hsize := h.lanes
  omega

theorem LaidOut.in_segment (h : LaidOut size p laneLen segmentLen) {slice s : Nat} (hslice : slice < 4)
    (hs : s < segmentLen) : slice * segmentLen + s < laneLen := by
  have hnext : (slice + 1) * segmentLen ≤ 4 * segmentLen := Nat.mul_le_mul_right segmentLen hslice
  rw [Nat.add_mul, Nat.one_mul] at hnext
  have hlane := h.segments
  omega

theorem referenceArea_eq (h : LaidOut size p laneLen segmentLen) {pass lane slice s : Nat} (hp : 1 ≤ p)
    (hnew : pass = 0 → 2 ≤ slice * segmentLen + s) :
    referenceArea pass lane slice laneLen segmentLen p (lane * laneLen + slice * segmentLen + s) =
      .ok (if pass = 0 then slice * segmentLen + s - 1
        else laneLen - segmentLen + s - 1 + (p - 1) * laneLen) := by
  have hlane : lane * laneLen + slice * segmentLen + s - lane * laneLen = slice * segmentLen + s := by
    omega
  have hslice : slice * segmentLen + s - slice * segmentLen = s := by omega
  have hsegments := h.segments
  have hnonempty := h.nonempty
  unfold referenceArea
  by_cases hpass : pass = 0
  · have harea := hnew hpass
    rw [if_pos hpass, if_pos hpass]
    by_cases hzero : slice = 0
    · rw [if_pos hzero]
      refine bind_eq_ok.mpr ⟨_, Checked.sub_ok (by omega), ?_⟩
      rw [hlane]
      exact Checked.sub_ok (by omega)
    · rw [if_neg hzero]
      refine bind_eq_ok.mpr ⟨_, Checked.sub_ok (by omega), ?_⟩
      rw [hlane]
      refine bind_eq_ok.mpr ⟨_, Checked.sub_ok (by omega), ?_⟩
      rw [hslice]
      exact Checked.sub_ok (by omega)
  · rw [if_neg hpass, if_neg hpass]
    refine bind_eq_ok.mpr ⟨_, Checked.sub_ok (by omega), ?_⟩
    refine bind_eq_ok.mpr ⟨_, Checked.sub_ok (by omega), ?_⟩
    rw [hlane]
    refine bind_eq_ok.mpr ⟨_, Checked.sub_ok (by omega), ?_⟩
    rw [hslice]
    refine bind_eq_ok.mpr ⟨_, Checked.sub_ok (by omega), ?_⟩
    exact bind_eq_ok.mpr ⟨_, Checked.sub_ok hp, rfl⟩

theorem indexAlpha_returns (h : LaidOut size p laneLen segmentLen) {pass lane slice s : Nat}
    (hlane : lane < p) (hnew : pass = 0 → 2 ≤ slice * segmentLen + s) (pseudoRand : UInt64) :
    Returns (indexAlpha pseudoRand pass lane slice laneLen segmentLen p
      (lane * laneLen + slice * segmentLen + s)) (· < size) := by
  have hp : 1 ≤ p := Nat.lt_of_le_of_lt (Nat.zero_le lane) hlane
  have hsegments := h.segments
  have hnonempty := h.nonempty
  have hpos : 0 < p * laneLen := Nat.mul_pos hp (by omega)
  refine .next (referenceArea_eq h hp hnew) ?_
  generalize (if pass = 0 then slice * segmentLen + s - 1
    else laneLen - segmentLen + s - 1 + (p - 1) * laneLen) = area
  by_cases harea : area = 0
  · rw [if_pos harea]
    exact .of_eq rfl (h.in_lane (i := 0) hlane (by omega))
  · rw [if_neg harea]
    refine .next (Checked.sub_ok (by omega)) (.next (Checked.rem_ok harea) ?_)
    refine .next (Checked.sub_ok (Nat.le_sub_one_of_lt (Nat.mod_lt _ (by omega)))) ?_
    refine .of_eq (Checked.rem_ok hpos.ne') ?_
    rw [h.lanes]
    exact Nat.mod_lt _ hpos

theorem previousIndex_returns (h : LaidOut size p laneLen segmentLen) {lane i : Nat} (hlane : lane < p)
    (hi : i < laneLen) : Returns (previousIndex lane laneLen (lane * laneLen + i)) (· < size) := by
  unfold previousIndex
  split
  next =>
    have hlast := h.in_lane hlane (i := laneLen - 1) (by omega)
    exact .of_eq (Checked.sub_ok (by omega)) (by omega)
  next =>
    have habs := h.in_lane hlane hi
    exact .of_eq (Checked.sub_ok (by omega)) (by omega)

theorem pseudoRandAt_returns {pseudoRands : Array UInt64} {dataIndependent : Bool} {memory : Array Block}
    {prevIdx s : Nat} (hs : dataIndependent = true → s < pseudoRands.size)
    (hprev : prevIdx < memory.size) :
    Returns (pseudoRandAt pseudoRands dataIndependent memory prevIdx s) fun _ => True := by
  unfold pseudoRandAt
  split
  next hdata => exact .of_eq (Checked.get_ok (hs hdata)) trivial
  next => exact .next (Checked.get_ok hprev) (.of_eq rfl trivial)

/-- A turn of the loop stays within the memory. -/
theorem fillBlock_returns (h : LaidOut size p laneLen segmentLen) {pass lane slice s : Nat}
    (hlane : lane < p) (hslice : slice < 4) (hs : s < segmentLen) {pseudoRands : Array UInt64}
    {dataIndependent : Bool} (hrands : dataIndependent = true → s < pseudoRands.size)
    {memory : Array Block} (hsize : memory.size = size) :
    Returns (fillBlock pseudoRands dataIndependent pass lane slice laneLen segmentLen p memory s)
      (·.size = size) := by
  have hinLane := h.in_segment hslice hs
  have habs : lane * laneLen + slice * segmentLen + s < memory.size := by
    rw [hsize, Nat.add_assoc]
    exact h.in_lane hlane hinLane
  unfold fillBlock
  dsimp only
  split
  next => exact .of_eq rfl hsize
  next hold =>
    have hnew : pass = 0 → 2 ≤ slice * segmentLen + s := fun hpass => by omega
    rw [Nat.add_assoc]
    refine (previousIndex_returns h hlane hinLane).bind fun prevIdx hprev => ?_
    rw [← hsize] at hprev
    refine (pseudoRandAt_returns hrands hprev).bind fun pseudoRand _ => ?_
    rw [← Nat.add_assoc]
    refine (indexAlpha_returns h hlane hnew pseudoRand).bind fun refIdx href => ?_
    rw [← hsize] at href
    refine .next (Checked.get_ok hprev) (.next (Checked.get_ok href) ?_)
    refine .of_eq (Checked.set_ok _ habs) ?_
    rw [Array.size_setIfInBounds, hsize]

theorem fillSegment_returns (h : LaidOut size p laneLen segmentLen) {pass lane slice tCost : Nat}
    (hlane : lane < p) (hslice : slice < 4) {memory : Array Block} (hsize : memory.size = size) :
    Returns (fillSegment memory pass lane slice laneLen segmentLen p tCost) (·.size = size) := by
  refine .foldlM hsize fun memory s hs hsize => ?_
  refine fillBlock_returns h hlane hslice (List.mem_range.mp hs) (fun hdata => ?_) hsize
  rw [if_pos (of_decide_eq_true hdata), computePseudoRands, Array.size_map, Array.size_range]
  exact List.mem_range.mp hs

theorem fillMemory_returns (h : LaidOut size p laneLen segmentLen) (tCost : Nat) {memory : Array Block}
    (hsize : memory.size = size) :
    Returns (fillMemory laneLen segmentLen p tCost memory) (·.size = size) := by
  -- one loop in the other: the passes, the slices, the lanes
  refine .foldlM hsize fun memory pass _ hsize => ?_
  refine .foldlM hsize fun memory slice hslice hsize => ?_
  refine .foldlM hsize fun memory lane hlane hsize => ?_
  exact fillSegment_returns h (List.mem_range.mp hlane) (List.mem_range.mp hslice) hsize

theorem initLane_returns (h : LaidOut size p laneLen segmentLen) {h0 : Vector UInt8 64} {l : Nat}
    (hl : l < p) {memory : Array Block} (hsize : memory.size = size) :
    Returns (initLane h0 laneLen memory l) (·.size = size) := by
  have hsegments := h.segments
  have hnonempty := h.nonempty
  have hsecond : l * laneLen + 1 < size := h.in_lane hl (by omega)
  refine (hPrime1024_returns h0 0 l).bind fun block0 _ => ?_
  refine (hPrime1024_returns h0 1 l).bind fun block1 _ => ?_
  refine .next (Checked.set_ok block0 (by omega)) ?_
  refine .of_eq (Checked.set_ok block1 ?_) ?_
  · rw [Array.size_setIfInBounds, hsize]
    exact hsecond
  · rw [Array.size_setIfInBounds, Array.size_setIfInBounds, hsize]

theorem xorLast_returns (h : LaidOut size p laneLen segmentLen) {l : Nat} (hl : l < p)
    {memory : Array Block} (hsize : memory.size = size) (finalBlock : Block) :
    Returns (xorLast memory laneLen finalBlock l) fun _ => True := by
  have hsegments := h.segments
  have hnonempty := h.nonempty
  have hlast : l * laneLen + (laneLen - 1) < size := h.in_lane hl (by omega)
  refine .next (Checked.sub_ok (by omega)) ?_
  exact .next (Checked.get_ok (by omega)) (.of_eq rfl trivial)

end Bounds

theorem laneLen_eq {p : Nat} (hp : 1 ≤ p) (rows : Nat) : rows * (4 * p) / p = 4 * rows := by
  rw [← Nat.mul_assoc, Nat.mul_comm rows 4]
  exact Nat.mul_div_cancel _ hp

theorem laidOut {rows : Nat} (hrows : 1 ≤ rows) (p : Nat) : LaidOut (rows * (4 * p)) p (4 * rows) rows where
  lanes := by rw [Nat.mul_left_comm, Nat.mul_comm rows p, Nat.mul_left_comm]
  segments := rfl
  nonempty := hrows

theorem argon2idRaw_returns (password salt : List UInt8) {mCost pCost : UInt32} (tCost : UInt32)
    (hp : 1 ≤ pCost.toNat) (hm : 4 * pCost.toNat ≤ mCost.toNat) :
    Returns (argon2idRaw password salt mCost tCost pCost) fun _ => True := by
  have hlayout := laidOut (Nat.div_pos hm (by omega)) pCost.toNat
  refine .next (Checked.div_ok (by omega)) ?_
  generalize mCost.toNat / (4 * pCost.toNat) = rows at hlayout ⊢
  refine .next (Checked.div_ok (by omega)) ?_
  rw [laneLen_eq hp, Nat.mul_div_cancel_left rows (by decide : 0 < 4)]
  refine Returns.bind (P := (·.size = rows * (4 * pCost.toNat))) (.foldlM ?_ ?_) fun memory hsize => ?_
  · exact Array.size_replicate
  · exact fun memory l hl hsize => initLane_returns hlayout (List.mem_range.mp hl) hsize
  refine (fillMemory_returns hlayout tCost.toNat hsize).bind fun memory hsize => ?_
  refine Returns.bind (P := fun _ => True) (.foldlM trivial ?_) fun finalBlock _ => ?_
  · exact fun finalBlock l hl _ => xorLast_returns hlayout (List.mem_range.mp hl) hsize finalBlock
  rw [if_neg]
  · exact .of_eq rfl trivial
  · rw [Blake2b.length_hPrime]
    decide

theorem initLane_error (h0 : Vector UInt8 64) {laneLen l : Nat} {memory : Array Block}
    (hsize : memory.size ≤ l * laneLen) :
    initLane h0 laneLen memory l = .error (.panic "index out of bounds") := by
  obtain ⟨block0, hblock0, -⟩ := hPrime1024_returns h0 0 l
  obtain ⟨block1, hblock1, -⟩ := hPrime1024_returns h0 1 l
  have hset := Checked.set_error block0 (Nat.not_lt.mpr hsize)
  unfold initLane
  rw [Checked.bind_of_ok hblock0, Checked.bind_of_ok hblock1, Checked.bind_of_error hset]

theorem argon2idRaw_empty (password salt : List UInt8) {mCost pCost : UInt32} (tCost : UInt32)
    (hp : 1 ≤ pCost.toNat) (hm : mCost.toNat < 4 * pCost.toNat) :
    argon2idRaw password salt mCost tCost pCost = .error (.panic "index out of bounds") := by
  have hrows : Checked.div mCost.toNat (4 * pCost.toNat) = .ok 0 := by
    rw [Checked.div_ok (by omega), Nat.div_eq_of_lt hm]
  have hlane : Checked.div (0 * (4 * pCost.toNat)) pCost.toNat = .ok 0 := by
    rw [Checked.div_ok (by omega), Nat.zero_mul, Nat.zero_div]
  have hrange : List.range pCost.toNat = 0 :: (List.range (pCost.toNat - 1)).map Nat.succ := by
    rw [← List.range_succ_eq_map, Nat.sub_add_cancel hp]
  have hfirst : initLane (computeH0 password salt mCost tCost pCost) 0
      (Array.replicate (0 * (4 * pCost.toNat)) zeroBlock) 0 = .error (.panic "index out of bounds") :=
    initLane_error _ (by simp)
  refine (Checked.bind_of_ok hrows).trans ((Checked.bind_of_ok hlane).trans ?_)
  rw [hrange]
  exact Checked.bind_of_error (Checked.bind_of_error hfirst)

theorem argon2idRaw_panics (password salt : List UInt8) {mCost pCost : UInt32} (tCost : UInt32)
    (h : ¬ (1 ≤ pCost.toNat ∧ 4 * pCost.toNat ≤ mCost.toNat)) :
    Panics (argon2idRaw password salt mCost tCost pCost) := by
  by_cases hp : 1 ≤ pCost.toNat
  · exact ⟨_, argon2idRaw_empty password salt tCost hp (by omega)⟩
  · have hzero : pCost.toNat = 0 := by omega
    refine Panics.bind ⟨_, if_pos ?_⟩ _
    rw [hzero]

end CrapOs.Argon2
