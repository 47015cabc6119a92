import CrapOs.Crypto.Argon2
import CrapOs.Crypto.Blake2bStream

/-! # The compression function of Argon2 against RFC 9106

The permutation of sixteen words is that of the RFC, and so is the order of the words
in a row. The columns are not: a column of the code has word `col` and word `col + 8`
of every row, a column of the RFC has a register of two neighbouring words.
-/

namespace CrapOs.Argon2

open Foundation
open Blake2b (rotateRight rotateRight_eq)

section Steps

variable {n : Nat}

def mulAddAt (v : Vector UInt64 n) (a b : Fin n) : Vector UInt64 n :=
  put v a (mulAdd (v.get a) (v.get b))

def rotateAt (v : Vector UInt64 n) (d a : Fin n) (r : UInt64) : Vector UInt64 n :=
  put v d (rotateRight (v.get d ^^^ v.get a) r)

def mixAt (v : Vector UInt64 n) (a b c d : Fin n) : Vector UInt64 n :=
  let v := mulAddAt v a b
  let v := rotateAt v d a 32
  let v := mulAddAt v c d
  let v := rotateAt v b c 24
  let v := mulAddAt v a b
  let v := rotateAt v d a 16
  let v := mulAddAt v c d
  rotateAt v b c 63

end Steps

theorem gMix_eq (v : Block) (a b c d : Fin 128) : gMix v a b c d = mixAt v a b c d := rfl

theorem toNat_trunc32 (x : UInt64) : (trunc32 x).toNat = x.toNat % 2 ^ 32 := by
  exact Nat.and_two_pow_sub_one_eq_mod x.toNat 32

theorem trunc32_eq (x : UInt64) : trunc32 x = Rfc9106.trunc x := by
  apply UInt64.toNat_inj.mp
  have hlt : x.toNat % 2 ^ 32 < 2 ^ 64 := Nat.lt_of_lt_of_le (Nat.mod_lt _ (by decide)) (by decide)
  rw [Rfc9106.trunc, UInt64.toNat_ofNat_of_lt' hlt, toNat_trunc32]

theorem mulAdd_eq (x y : UInt64) : mulAdd x y = x + y + 2 * Rfc9106.trunc x * Rfc9106.trunc y := by
  rw [mulAdd, trunc32_eq, trunc32_eq, UInt64.mul_assoc]

theorem gb_eq (v : Vector UInt64 16) (a b c d : Fin 16) : Rfc9106.gb v a b c d = mixAt v a b c d := by
  have h32 (x) := rotateRight_eq x (n := 32) (by decide) (by decide)
  have h24 (x) := rotateRight_eq x (n := 24) (by decide) (by decide)
  have h16 (x) := rotateRight_eq x (n := 16) (by decide) (by decide)
  have h63 (x) := rotateRight_eq x (n := 63) (by decide) (by decide)
  simp only [Rfc9106.gb, mixAt, mulAddAt, rotateAt, mulAdd_eq, h32, h24, h16, h63]

section Places

variable {m n : Nat} {places : Fin m → Fin n}

theorem gather_mulAddAt (hinj : Function.Injective places) (v : Vector UInt64 n) (a b : Fin m) :
    gather (mulAddAt v (places a) (places b)) places = mulAddAt (gather v places) a b := by
  unfold mulAddAt
  rw [gather_put hinj, get_gather, get_gather]

theorem gather_rotateAt (hinj : Function.Injective places) (v : Vector UInt64 n) (d a : Fin m)
    (r : UInt64) : gather (rotateAt v (places d) (places a) r) places = rotateAt (gather v places) d a r := by
  unfold rotateAt
  rw [gather_put hinj, get_gather, get_gather]

theorem gather_mixAt (hinj : Function.Injective places) (v : Vector UInt64 n) (a b c d : Fin m) :
    gather (mixAt v (places a) (places b) (places c) (places d)) places =
      mixAt (gather v places) a b c d := by
  unfold mixAt
  rw [gather_rotateAt hinj, gather_mulAddAt hinj, gather_rotateAt hinj, gather_mulAddAt hinj,
    gather_rotateAt hinj, gather_mulAddAt hinj, gather_rotateAt hinj, gather_mulAddAt hinj]

theorem mixAt_other {v : Vector UInt64 n} {a b c d i : Fin n} (ha : a ≠ i) (hb : b ≠ i) (hc : c ≠ i)
    (hd : d ≠ i) : (mixAt v a b c d).get i = v.get i := by
  have hmul {v : Vector UInt64 n} {x y : Fin n} (hx : x ≠ i) : (mulAddAt v x y).get i = v.get i :=
    get_put_other hx v _
  have hrot {v : Vector UInt64 n} {x y : Fin n} {r : UInt64} (hx : x ≠ i) :
      (rotateAt v x y r).get i = v.get i := get_put_other hx v _
  unfold mixAt
  rw [hrot hb, hmul hc, hrot hd, hmul ha, hrot hb, hmul hc, hrot hd, hmul ha]

end Places

theorem pCol_eq {places : Fin 16 → Fin 128} (hinj : Function.Injective places) (v : Block) :
    pCol v places = applyAt Rfc9106.permutation v places := by
  apply eq_scatter hinj
  · simp only [pCol, Rfc9106.permutation, gMix_eq, gb_eq, gather_mixAt hinj]
  · intro i hi
    simp only [pCol, gMix_eq, mixAt_other (hi _) (hi _) (hi _) (hi _)]

theorem rowIndex_eq : rowIndex = Rfc9106.rowWord := by
  funext row k
  apply Fin.ext
  simp only [rowIndex, Rfc9106.rowWord, Rfc9106.registerWord]
  omega

theorem apart_rowWord : Apart Rfc9106.rowWord := by
  apply apart_of_val
  intro i j k l h
  simp only [Rfc9106.rowWord, Rfc9106.registerWord] at h
  omega

theorem apart_columnWord : Apart Rfc9106.columnWord := by
  apply apart_of_val
  intro i j k l h
  simp only [Rfc9106.columnWord, Rfc9106.registerWord] at h
  omega

theorem apart_columnIndex : Apart columnIndex := by
  apply apart_of_val
  intro i j k l h
  simp only [columnIndex] at h
  omega

theorem columnIndex_cover (w : Fin 128) : ∃ col k, columnIndex col k = w := by
  refine ⟨⟨w.val % 8, by omega⟩, ⟨w.val / 8, by omega⟩, ?_⟩
  apply Fin.ext
  simp only [columnIndex]
  omega

theorem rows_eq (r : Block) :
    (List.finRange 8).foldl (fun z row => pCol z (rowIndex row)) r = Rfc9106.permuteRows r := by
  simp only [rowIndex_eq, pCol_eq (apart_rowWord.injective _)]
  rfl

/-- The columns as the code takes them. -/
def codeColumns (q : Block) : Block :=
  (List.finRange 8).foldl (fun z col => pCol z (columnIndex col)) q

variable (q : Block)

theorem gather_codeColumns (col : Fin 8) :
    gather (codeColumns q) (columnIndex col) = Rfc9106.permutation (gather q (columnIndex col)) := by
  simp only [codeColumns, pCol_eq (apart_columnIndex.injective _)]
  exact gather_foldl apart_columnIndex _ (List.nodup_finRange 8) (List.mem_finRange col) q

theorem gather_permuteColumns (col : Fin 8) :
    gather (Rfc9106.permuteColumns q) (Rfc9106.columnWord col) =
      Rfc9106.permutation (gather q (Rfc9106.columnWord col)) :=
  gather_foldl apart_columnWord _ (List.nodup_finRange 8) (List.mem_finRange col) q

theorem compress_eq_columns (x y : Block) :
    compress x y =
      Rfc9106.xor (codeColumns (Rfc9106.permuteRows (Rfc9106.xor x y))) (Rfc9106.xor x y) := by
  unfold compress
  simp only [rows_eq]
  rfl

theorem registerPlace_lt (w : Fin 128) : w.val / 16 * 16 + w.val % 8 * 2 + w.val % 16 / 8 < 128 := by
  omega

theorem codePlace_lt (w : Fin 128) : w.val / 16 * 16 + w.val % 2 * 8 + w.val % 16 / 2 < 128 := by
  omega

/-- Where the standard has the word that the code has at `w`, counted along the columns. -/
def registerPlace (w : Fin 128) : Fin 128 :=
  ⟨w.val / 16 * 16 + w.val % 8 * 2 + w.val % 16 / 8, registerPlace_lt w⟩

def codePlace (w : Fin 128) : Fin 128 :=
  ⟨w.val / 16 * 16 + w.val % 2 * 8 + w.val % 16 / 2, codePlace_lt w⟩

/-- The two halves of every row, word by word, become the registers of the row. -/
def shuffle (q : Block) : Block := gather q codePlace

def unshuffle (q : Block) : Block := gather q registerPlace

theorem codePlace_columnWord (col : Fin 8) (k : Fin 16) :
    codePlace (Rfc9106.columnWord col k) = columnIndex col k := by
  apply Fin.ext
  simp only [codePlace, Rfc9106.columnWord, Rfc9106.registerWord, columnIndex]
  omega

theorem registerPlace_columnIndex (col : Fin 8) (k : Fin 16) :
    registerPlace (columnIndex col k) = Rfc9106.columnWord col k := by
  apply Fin.ext
  simp only [registerPlace, Rfc9106.columnWord, Rfc9106.registerWord, columnIndex]
  omega

theorem registerPlace_codePlace : ∀ w : Fin 128, registerPlace (codePlace w) = w := by decide

theorem codePlace_registerPlace : ∀ w : Fin 128, codePlace (registerPlace w) = w := by decide

theorem gather_shuffle (col : Fin 8) :
    gather (shuffle q) (Rfc9106.columnWord col) = gather q (columnIndex col) := by
  simp only [shuffle, gather_gather, codePlace_columnWord]

theorem gather_unshuffle (col : Fin 8) :
    gather (unshuffle q) (columnIndex col) = gather q (Rfc9106.columnWord col) := by
  simp only [unshuffle, gather_gather, registerPlace_columnIndex]

theorem unshuffle_shuffle : unshuffle (shuffle q) = q := by
  simp only [shuffle, unshuffle, gather_gather, codePlace_registerPlace, gather_id]

theorem shuffle_unshuffle : shuffle (unshuffle q) = q := by
  simp only [shuffle, unshuffle, gather_gather, registerPlace_codePlace, gather_id]

theorem codeColumns_eq :
    codeColumns q = unshuffle (Rfc9106.permuteColumns (shuffle q)) := by
  apply eq_of_gather columnIndex_cover
  intro col
  rw [gather_codeColumns, gather_unshuffle, gather_permuteColumns, gather_shuffle]

theorem xor_xor_right (a r : Block) : Rfc9106.xor (Rfc9106.xor a r) r = a := by
  ext i hi : 1
  simp only [Rfc9106.xor, Vector.getElem_zipWith]
  rw [UInt64.xor_assoc, UInt64.xor_self, UInt64.xor_zero]

theorem xor_right_cancel (a b r : Block) : Rfc9106.xor a r = Rfc9106.xor b r ↔ a = b := by
  constructor
  · intro h
    rw [← xor_xor_right a r, h, xor_xor_right]
  · intro h
    rw [h]

/-! ## Blocks by rows

Word by word the two functions are computed on eight rows of sixteen words.
-/

abbrev Rows := Vector (Vector UInt64 16) 8

def rowsOf (z : Block) : Rows := Vector.ofFn fun i => gather z (Rfc9106.rowWord i)

def columnsOf (z : Block) : Rows := Vector.ofFn fun j => gather z (Rfc9106.columnWord j)

theorem transposed_lt (j : Fin 8) (k : Fin 16) : 2 * j.val + k.val % 2 < 16 := by omega

def transpose (q : Rows) : Rows :=
  Vector.ofFn fun j => Vector.ofFn fun k =>
    q[(⟨k.val / 2, Rfc9106.half_lt k⟩ : Fin 8)][(⟨2 * j.val + k.val % 2, transposed_lt j k⟩ : Fin 16)]

theorem rowWord_transposed (j : Fin 8) (k : Fin 16) :
    Rfc9106.rowWord ⟨k.val / 2, Rfc9106.half_lt k⟩ ⟨2 * j.val + k.val % 2, transposed_lt j k⟩ =
      Rfc9106.columnWord j k := by
  apply Fin.ext
  simp only [Rfc9106.rowWord, Rfc9106.columnWord, Rfc9106.registerWord]
  omega

theorem columnWord_transposed (i : Fin 8) (k : Fin 16) :
    Rfc9106.columnWord ⟨k.val / 2, Rfc9106.half_lt k⟩ ⟨2 * i.val + k.val % 2, transposed_lt i k⟩ =
      Rfc9106.rowWord i k := by
  apply Fin.ext
  simp only [Rfc9106.rowWord, Rfc9106.columnWord, Rfc9106.registerWord]
  omega

theorem transpose_rowsOf (z : Block) : transpose (rowsOf z) = columnsOf z := by
  simp only [transpose, rowsOf, columnsOf, gather, Fin.getElem_fin, Vector.getElem_ofFn,
    rowWord_transposed]

theorem transpose_columnsOf (z : Block) : transpose (columnsOf z) = rowsOf z := by
  simp only [transpose, rowsOf, columnsOf, gather, Fin.getElem_fin, Vector.getElem_ofFn,
    columnWord_transposed]

theorem rowsOf_permuteRows (r : Block) :
    rowsOf (Rfc9106.permuteRows r) = (rowsOf r).map Rfc9106.permutation := by
  ext i hi : 1
  simp only [rowsOf, Vector.getElem_ofFn, Vector.getElem_map]
  exact gather_foldl apart_rowWord _ (List.nodup_finRange 8) (List.mem_finRange _) r

theorem columnsOf_permuteColumns :
    columnsOf (Rfc9106.permuteColumns q) = (columnsOf q).map Rfc9106.permutation := by
  ext j hj : 1
  simp only [columnsOf, Vector.getElem_ofFn, Vector.getElem_map]
  exact gather_permuteColumns q ⟨j, hj⟩

theorem rowsOf_permuteColumns :
    rowsOf (Rfc9106.permuteColumns q) = transpose ((transpose (rowsOf q)).map Rfc9106.permutation) := by
  rw [transpose_rowsOf, ← columnsOf_permuteColumns, transpose_columnsOf]

def permuteBoth (r : Rows) : Rows := transpose ((transpose (r.map Rfc9106.permutation)).map Rfc9106.permutation)

theorem rowsOf_permuted (r : Block) :
    rowsOf (Rfc9106.permuteColumns (Rfc9106.permuteRows r)) = permuteBoth (rowsOf r) := by
  rw [rowsOf_permuteColumns, rowsOf_permuteRows, permuteBoth]

theorem shuffled_lt (k : Fin 16) : k.val % 2 * 8 + k.val / 2 < 16 := by omega

def shuffleRow (v : Vector UInt64 16) : Vector UInt64 16 :=
  Vector.ofFn fun k => v[(⟨k.val % 2 * 8 + k.val / 2, shuffled_lt k⟩ : Fin 16)]

theorem codePlace_rowWord : ∀ (i : Fin 8) (k : Fin 16),
    codePlace (Rfc9106.rowWord i k) = Rfc9106.rowWord i ⟨k.val % 2 * 8 + k.val / 2, shuffled_lt k⟩ := by
  decide

theorem rowsOf_shuffle : rowsOf (shuffle q) = (rowsOf q).map shuffleRow := by
  ext i hi : 1
  simp only [rowsOf, shuffle, gather_gather, codePlace_rowWord, Vector.getElem_ofFn,
    Vector.getElem_map, shuffleRow, getElem_gather]
  rfl

def xorRows (a b : Rows) : Rows := Vector.zipWith (Vector.zipWith (· ^^^ ·)) a b

theorem rowsOf_xor (x y : Block) : rowsOf (Rfc9106.xor x y) = xorRows (rowsOf x) (rowsOf y) := by
  ext i hi k hk
  simp [rowsOf, xorRows, Rfc9106.xor, gather]

theorem rowsOf_compression (x y : Block) :
    rowsOf (Rfc9106.compression x y) =
      xorRows (permuteBoth (rowsOf (Rfc9106.xor x y))) (rowsOf (Rfc9106.xor x y)) := by
  rw [Rfc9106.compression, rowsOf_xor, rowsOf_permuted]

def permuteShuffled (r : Rows) : Rows :=
  transpose ((transpose ((r.map Rfc9106.permutation).map shuffleRow)).map Rfc9106.permutation)

theorem rowsOf_shuffled (r : Block) :
    rowsOf (Rfc9106.permuteColumns (shuffle (Rfc9106.permuteRows r))) = permuteShuffled (rowsOf r) := by
  rw [rowsOf_permuteColumns, rowsOf_shuffle, rowsOf_permuteRows, permuteShuffled]

theorem compress_eq_compression_iff (x y : Block) :
    compress x y = Rfc9106.compression x y ↔
      Rfc9106.permuteColumns (shuffle (Rfc9106.permuteRows (Rfc9106.xor x y))) =
        shuffle (Rfc9106.permuteColumns (Rfc9106.permuteRows (Rfc9106.xor x y))) := by
  rw [compress_eq_columns, Rfc9106.compression, xor_right_cancel, codeColumns_eq]
  constructor
  · intro h
    rw [← h, shuffle_unshuffle]
  · intro h
    rw [h, unshuffle_shuffle]

theorem quarter_lt (i : Fin 16) : i.val / 4 < 4 := by omega

/-- Each of four words four times. -/
def quarters (w : Vector UInt64 4) : Vector UInt64 16 := gather w fun i => ⟨i.val / 4, quarter_lt i⟩

theorem slant_lt (t : Fin 2) (c k : Fin 4) : 4 * k.val + (c.val + t.val * k.val) % 4 < 16 := by omega

/-- The columns and the diagonals of the sixteen words in `P`. -/
def slant (t : Fin 2) (c k : Fin 4) : Fin 16 := ⟨4 * k.val + (c.val + t.val * k.val) % 4, slant_lt t c k⟩

theorem apart_slant (t : Fin 2) : Apart (slant t) := by
  have hall : ∀ t c d k l, slant t c k = slant t d l → c = d ∧ k = l := by decide
  intro p q h
  obtain ⟨hc, hk⟩ := hall t p.1 q.1 p.2 q.2 h
  exact Prod.ext hc hk

theorem slant_quarter : ∀ t c k, (slant t c k).val / 4 = k.val := by decide

theorem slant_cover : ∀ t i, ∃ c k, slant t c k = i := by decide

theorem permutation_eq (v : Vector UInt64 16) :
    Rfc9106.permutation v = [0, 1].foldl (fun v t => (List.finRange 4).foldl
      (fun v c => Rfc9106.gb v (slant t c 0) (slant t c 1) (slant t c 2) (slant t c 3)) v) v := by
  unfold Rfc9106.permutation
  generalize Rfc9106.gb = g
  rfl

/-- All columns, and then all diagonals, have the same four words. -/
theorem foldl_slant_quarters (w : Vector UInt64 4) (t : Fin 2) :
    (List.finRange 4).foldl
        (fun v c => Rfc9106.gb v (slant t c 0) (slant t c 1) (slant t c 2) (slant t c 3)) (quarters w) =
      quarters (mixAt w 0 1 2 3) := by
  have hinj := (apart_slant t).injective
  have hmix (v : Vector UInt64 16) (c : Fin 4) :
      Rfc9106.gb v (slant t c 0) (slant t c 1) (slant t c 2) (slant t c 3) =
        applyAt (mixAt · 0 1 2 3) v (slant t c) := by
    rw [gb_eq]
    exact eq_scatter (hinj c) (gather_mixAt (hinj c) v 0 1 2 3)
      fun i hi => mixAt_other (hi 0) (hi 1) (hi 2) (hi 3)
  have hgather (w : Vector UInt64 4) (c : Fin 4) : gather (quarters w) (slant t c) = w := by
    simp only [quarters, gather_gather, slant_quarter]
    exact gather_id w
  simp only [hmix]
  apply eq_of_gather (slant_cover t)
  intro c
  rw [gather_foldl (apart_slant t) _ (List.nodup_finRange 4) (List.mem_finRange c), hgather, hgather]

theorem pair_lt (i : Fin 128) : i.val / 32 < 4 := by omega

/-- All words of two neighbouring rows are the same. -/
def pairedRows (w : Vector UInt64 4) : Block := gather w fun i => ⟨i.val / 32, pair_lt i⟩

theorem gather_pairedRows (w : Vector UInt64 4) (col : Fin 8) :
    gather (pairedRows w) (Rfc9106.columnWord col) = quarters w := by
  have hplace : ∀ col k, (Rfc9106.columnWord col k).val / 32 = k.val / 4 := by decide
  simp only [pairedRows, quarters, gather_gather, hplace]

theorem shuffle_pairedRows (w : Vector UInt64 4) : shuffle (pairedRows w) = pairedRows w := by
  have hplace : ∀ i, (codePlace i).val / 32 = i.val / 32 := by decide
  simp only [pairedRows, shuffle, gather_gather, hplace]

theorem permuteColumns_pairedRows (w : Vector UInt64 4) :
    Rfc9106.permuteColumns (pairedRows w) = pairedRows (mixAt (mixAt w 0 1 2 3) 0 1 2 3) := by
  have hcover (i : Fin 128) : ∃ col k, Rfc9106.columnWord col k = i := by
    obtain ⟨col, k, hk⟩ := columnIndex_cover (codePlace i)
    exact ⟨col, k, by rw [← registerPlace_columnIndex, hk, registerPlace_codePlace]⟩
  apply eq_of_gather hcover
  intro col
  rw [gather_permuteColumns, gather_pairedRows, gather_pairedRows, permutation_eq, List.foldl_cons,
    foldl_slant_quarters, List.foldl_cons, foldl_slant_quarters, List.foldl_nil]

theorem compress_eq_compression_of_pairedRows {x y : Block} {w : Vector UInt64 4}
    (h : Rfc9106.permuteRows (Rfc9106.xor x y) = pairedRows w) : compress x y = Rfc9106.compression x y := by
  rw [compress_eq_compression_iff, h, permuteColumns_pairedRows, shuffle_pairedRows, shuffle_pairedRows,
    permuteColumns_pairedRows]

theorem permuteRows_xor_self (x : Block) :
    Rfc9106.permuteRows (Rfc9106.xor x x) = pairedRows (Vector.replicate 4 0) := by
  have hxor : Rfc9106.xor x x = zeroBlock := by
    ext i hi
    simp [Rfc9106.xor, zeroBlock]
  rw [hxor]
  decide +kernel

def oneBlock : Block := Vector.ofFn fun i => if i.val = 0 then 1 else 0

/-- The code computes `G` with the columns taken over shuffled rows. That is `G` itself exactly if it
makes no difference whether the rows are shuffled before or after the columns, as where `P` makes two
neighbouring rows one word throughout, and for equal blocks. -/
theorem compress_shuffles_columns (x y : Block) :
    compress x y = Rfc9106.xor
        (unshuffle (Rfc9106.permuteColumns (shuffle (Rfc9106.permuteRows (Rfc9106.xor x y)))))
        (Rfc9106.xor x y) ∧
      (compress x y = Rfc9106.compression x y ↔
        Rfc9106.permuteColumns (shuffle (Rfc9106.permuteRows (Rfc9106.xor x y))) =
          shuffle (Rfc9106.permuteColumns (Rfc9106.permuteRows (Rfc9106.xor x y)))) ∧
      (∀ w, Rfc9106.permuteRows (Rfc9106.xor x y) = pairedRows w →
        compress x y = Rfc9106.compression x y) ∧
      (x = y → compress x y = Rfc9106.compression x y) := by
  refine ⟨?_, compress_eq_compression_iff x y, fun w => compress_eq_compression_of_pairedRows, ?_⟩
  · rw [compress_eq_columns, codeColumns_eq]
  · rintro rfl
    exact compress_eq_compression_of_pairedRows (permuteRows_xor_self x)

/-- A block that `P` makes a block of equal words, and equal blocks. -/
theorem compress_shuffles_columns_same : ∃ x : Block, x ≠ zeroBlock ∧
    compress x zeroBlock = Rfc9106.compression x zeroBlock ∧
    compress oneBlock oneBlock = Rfc9106.compression oneBlock oneBlock := by
  refine ⟨Vector.ofFn fun i => if i.val % 16 < 4 then 0xc1606a7d3be35482 else
    if i.val % 16 < 8 then 0x20a215d3f3f4e465 else
    if i.val % 16 < 12 then 0xed7667d60ffc45fb else 0x6aa6fb2dc2392aa7, by decide +kernel, ?_,
    (compress_shuffles_columns oneBlock oneBlock).2.2.2 rfl⟩
  exact (compress_shuffles_columns _ zeroBlock).2.2.1 (Vector.replicate 4 5) (by decide +kernel)

def inputRows (first : Vector UInt64 16) : Rows :=
  Vector.ofFn fun row => if row.val = 0 then first else Vector.replicate 16 0

theorem rowsOf_oneBlock :
    rowsOf (Rfc9106.xor oneBlock zeroBlock) =
      inputRows (Vector.ofFn fun k => if k.val = 0 then 1 else 0) := by
  decide +kernel

/-- The blocks the code compresses in another way. -/
theorem compress_ne_compression : compress oneBlock zeroBlock ≠ Rfc9106.compression oneBlock zeroBlock := by
  intro h
  rw [compress_eq_compression_iff] at h
  have hrows := congrArg rowsOf h
  rw [rowsOf_shuffled, rowsOf_shuffle, rowsOf_permuted, rowsOf_oneBlock] at hrows
  have hword := congrArg (fun rows : Rows => rows[0][0]) hrows
  revert hword
  decide +kernel

end CrapOs.Argon2
