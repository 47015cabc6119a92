import CrapOs.Crypto.Blake2b
import CrapOs.Crypto.Rfc9106

/-! # BLAKE2b in pieces is the BLAKE2b of RFC 7693

A message is absorbed byte by byte: whatever pieces it comes in, the state is the
same. The state always holds back the last block, full or not, so that only
`finalize` compresses it. The hash of any length is then that of RFC 9106.
-/

namespace CrapOs.Blake2b

open Foundation

theorem rotateRight_eq (x : UInt64) {n : UInt64} (h0 : 0 < n.toNat) (h64 : n.toNat < 64) :
    rotateRight x n = Rfc7693.rotate x n :=
  or_eq_xor (shiftRight_and_shiftLeft x h0 h64)

theorem g_eq (v : Vector UInt64 16) (a b c d : Fin 16) (x y : UInt64) :
    g v a b c d x y = Rfc7693.mix v a b c d x y := by
  have h32 (x) := rotateRight_eq x (n := 32) (by decide) (by decide)
  have h24 (x) := rotateRight_eq x (n := 24) (by decide) (by decide)
  have h16 (x) := rotateRight_eq x (n := 16) (by decide) (by decide)
  have h63 (x) := rotateRight_eq x (n := 63) (by decide) (by decide)
  simp only [g, Rfc7693.mix, put_eq_set, get_eq_getElem, h32, h24, h16, h63]

theorem round_eq (m v : Vector UInt64 16) (s : Vector (Fin 16) 16) :
    round m v s = Rfc7693.round m v s := by
  simp only [round, Rfc7693.round, g_eq]
  rfl

theorem sigma_eq : sigma.toList = (List.range 12).map Rfc7693.schedule := by decide

theorem rounds_eq (m v : Vector UInt64 16) :
    sigma.toList.foldl (round m) v =
      (List.range 12).foldl (fun v i => Rfc7693.round m v (Rfc7693.schedule i)) v := by
  rw [sigma_eq, List.foldl_map]
  simp only [round_eq]

def counterWords (t : Nat) : Vector UInt64 2 := #v[UInt64.ofNat t, UInt64.ofNat (t / 2 ^ 64)]

def flagWords (last : Bool) : Vector UInt64 2 := #v[if last then 0xFFFFFFFFFFFFFFFF else 0, 0]

namespace Blake2bState

theorem compress_h {s : Blake2bState} {t : Nat} {last : Bool} (ht : s.t = counterWords t)
    (hf : s.f = flagWords last) :
    s.compress.h =
      Rfc7693.compression s.h (Vector.ofFn fun i => wordAt s.buf.toList i) t last := by
  have hiv : iv = Rfc7693.iv := rfl
  have ht0 : s.t[0] = UInt64.ofNat t := by rw [ht]; rfl
  have ht1 : s.t[1] = UInt64.ofNat (t / 2 ^ 64) := by rw [ht]; rfl
  have hf0 : s.f[0] = if last then 0xFFFFFFFFFFFFFFFF else 0 := by rw [hf]; rfl
  have hf1 : s.f[1] = 0 := by rw [hf]; rfl
  have hput (v : Vector UInt64 16) (x : UInt64) :
      put v 12 x = v.set 12 x ∧ put v 13 x = v.set 13 x ∧ put v 14 x = v.set 14 x := ⟨rfl, rfl, rfl⟩
  have hget (v : Vector UInt64 16) : v.get 12 = v[12] ∧ v.get 13 = v[13] ∧ v.get 14 = v[14] :=
    ⟨rfl, rfl, rfl⟩
  unfold compress Rfc7693.compression
  cases last with
  | false =>
    simp only [hiv, ht0, ht1, hf0, hf1, rounds_eq, UInt64.xor_zero, Vector.set_getElem_self, UInt64.xor_assoc,
      hput, hget, get_eq_getElem, Bool.false_eq_true, if_false]
  | true =>
    simp only [hiv, ht0, ht1, hf0, hf1, rounds_eq, UInt64.xor_zero, Vector.set_getElem_self, UInt64.xor_assoc,
      hput, hget, get_eq_getElem, if_true]

theorem incrementCounter_t {s : Blake2bState} {t : Nat} (ht : s.t = counterWords t) {n : Nat}
    (hn : n < 2 ^ 64) : (s.incrementCounter (UInt64.ofNat n)).t = counterWords (t + n) := by
  have hlow : UInt64.ofNat t + UInt64.ofNat n = UInt64.ofNat (t + n) := (UInt64.ofNat_add t n).symm
  have hless : UInt64.ofNat (t + n) < UInt64.ofNat n ↔ (t + n) % 2 ^ 64 < n := by
    rw [UInt64.lt_iff_toNat_lt, UInt64.toNat_ofNat', UInt64.toNat_ofNat', Nat.mod_eq_of_lt hn]
  have hhigh : (t + n) / 2 ^ 64 = t / 2 ^ 64 + if (t + n) % 2 ^ 64 < n then 1 else 0 := by
    split
    all_goals omega
  have hwords : s.t[0] = UInt64.ofNat t ∧ s.t[1] = UInt64.ofNat (t / 2 ^ 64) := by
    rw [ht]
    exact ⟨rfl, rfl⟩
  simp only [incrementCounter, counterWords, hwords, hlow, hless, hhigh]
  split
  next => exact congrArg (fun high => #v[_, high]) (UInt64.ofNat_add _ 1).symm
  next => rfl

attribute [ext] Blake2bState

def absorb (s : Blake2bState) (b : UInt8) : Blake2bState := s.flush.fill [b]

theorem update_nil (s : Blake2bState) : s.update [] = s := by
  rw [update, if_pos rfl]

theorem update_of_ne_nil (s : Blake2bState) {input : List UInt8} (h : input ≠ []) :
    s.update input = (s.flush.fill input).update (input.drop (s.flush.toCopy input)) := by
  rw [update, if_neg h]

theorem flush_of_room {s : Blake2bState} (h : s.bufLen < blockSize) : s.flush = s := by
  rw [flush, if_neg (Nat.ne_of_lt h)]

theorem fill_h (s : Blake2bState) (input : List UInt8) : (s.fill input).h = s.h := by
  simp only [fill]

theorem fill_t (s : Blake2bState) (input : List UInt8) : (s.fill input).t = s.t := by
  simp only [fill]

theorem fill_f (s : Blake2bState) (input : List UInt8) : (s.fill input).f = s.f := by
  simp only [fill]

theorem fill_outLen (s : Blake2bState) (input : List UInt8) : (s.fill input).outLen = s.outLen := by
  simp only [fill]

theorem fill_bufLen (s : Blake2bState) (input : List UInt8) :
    (s.fill input).bufLen = s.bufLen + s.toCopy input := rfl

theorem fill_buf (s : Blake2bState) (input : List UInt8) {i : Nat} (hi : i < blockSize) :
    (s.fill input).buf[i] =
      if s.bufLen ≤ i ∧ i < s.bufLen + s.toCopy input then input.getD (i - s.bufLen) 0 else s.buf[i] := by
  simp [fill]

theorem toCopy_cons {s : Blake2bState} (b : UInt8) (bs : List UInt8) (h : s.bufLen < blockSize) :
    s.toCopy (b :: bs) = (s.fill [b]).toCopy bs + 1 := by
  simp only [toCopy, fill_bufLen, List.length_cons, List.length_nil]
  omega

theorem fill_cons {s : Blake2bState} (b : UInt8) (bs : List UInt8) (h : s.bufLen < blockSize) :
    (s.fill [b]).fill bs = s.fill (b :: bs) := by
  have hcopy := toCopy_cons b bs h
  have hone : s.toCopy [b] = 1 := by simp [toCopy]; omega
  apply Blake2bState.ext
  · simp only [fill_h]
  · simp only [fill_t]
  · simp only [fill_f]
  · ext i hi : 1
    simp only [fill_buf, fill_bufLen, hcopy, hone]
    rcases Nat.lt_trichotomy i s.bufLen with hlt | heq | hgt
    · rw [if_neg (by omega), if_neg (by omega), if_neg (by omega)]
    · rw [if_neg (by omega), if_pos (by omega), if_pos (by omega), heq, Nat.sub_self]
      rfl
    · have hshift : i - s.bufLen = i - (s.bufLen + 1) + 1 := by omega
      rw [hshift, List.getD_cons_succ, if_neg (by omega : ¬ (s.bufLen ≤ i ∧ i < s.bufLen + 1))]
      apply if_congr _ rfl rfl
      omega
  · simp only [fill_bufLen, hcopy, hone]
    omega
  · simp only [fill_outLen]

theorem fill_of_full {s : Blake2bState} {input : List UInt8} (h : s.toCopy input = 0) :
    s.fill input = s := by
  apply Blake2bState.ext
  · simp only [fill_h]
  · simp only [fill_t]
  · simp only [fill_f]
  · ext i hi : 1
    rw [fill_buf, h, if_neg (by omega)]
  · rw [fill_bufLen, h, Nat.add_zero]
  · rw [fill_outLen]

theorem update_fill (s : Blake2bState) (input : List UInt8) :
    (s.fill input).update (input.drop (s.toCopy input)) = s.update input := by
  by_cases hcopy : s.toCopy input = 0
  · rw [fill_of_full hcopy, hcopy, List.drop_zero]
  · have hne : input ≠ [] := by
      intro hnil
      apply hcopy
      simp [toCopy, hnil]
    have hroom : s.bufLen < blockSize := by
      unfold toCopy at hcopy
      omega
    rw [update_of_ne_nil s hne, flush_of_room hroom]

theorem update_cons (s : Blake2bState) (b : UInt8) (bs : List UInt8) :
    s.update (b :: bs) = (s.absorb b).update bs := by
  have hroom := flush_bufLen_lt s
  rw [update_of_ne_nil s (List.cons_ne_nil b bs), toCopy_cons b bs hroom, List.drop_succ_cons,
    ← fill_cons b bs hroom]
  exact update_fill (s.flush.fill [b]) bs

theorem update_eq_foldl (s : Blake2bState) (input : List UInt8) :
    s.update input = input.foldl absorb s := by
  induction input generalizing s with
  | nil => exact update_nil s
  | cons b bs ih => rw [update_cons, ih, List.foldl_cons]

theorem update_append (s : Blake2bState) (a b : List UInt8) :
    (s.update a).update b = s.update (a ++ b) := by
  rw [update_eq_foldl, update_eq_foldl, update_eq_foldl, List.foldl_append]

/-- After `data`, with its first `n` blocks compressed and the rest of it in the buffer. -/
structure Holding (h₀ : Vector UInt64 8) (data : List UInt8) (n : Nat) (s : Blake2bState) : Prop where
  chained : s.h = Rfc7693.chain h₀ data n
  counter : s.t = counterWords (blockSize * n)
  flags : s.f = flagWords false
  length : data.length = blockSize * n + s.bufLen
  buffer : ∀ i, (hi : i < blockSize) → i < s.bufLen → s.buf[i] = data.getD (blockSize * n + i) 0

section Holding

variable {h₀ : Vector UInt64 8} {data : List UInt8} {n : Nat} {s : Blake2bState}

theorem Holding.padded (h : Holding h₀ data n s) :
    (Vector.ofFn fun i => if i < s.bufLen then s.buf.get i else 0) =
      fixedBytes blockSize (data.drop (blockSize * n)) := by
  ext i hi : 1
  have hlength := h.length
  simp only [fixedBytes, Vector.getElem_ofFn]
  by_cases hlt : i < s.bufLen
  · rw [if_pos hlt]
    simpa [get_eq_getElem] using h.buffer i hi hlt
  · rw [if_neg hlt]
    have hend : data.length ≤ blockSize * n + i := by omega
    simp [List.getElem?_eq_none hend]

theorem Holding.compress_h (h : Holding h₀ data n s) {t : Nat} {last : Bool} {u : Blake2bState}
    (hu : u.h = s.h) (ht : u.t = counterWords t) (hf : u.f = flagWords last)
    (hbuf : u.buf = Vector.ofFn fun i => if i < s.bufLen then s.buf.get i else 0) :
    u.compress.h =
      Rfc7693.compression (Rfc7693.chain h₀ data n) (Rfc7693.block data n) t last := by
  rw [Blake2bState.compress_h ht hf, hbuf, h.padded, hu, h.chained]
  rfl

theorem Holding.flush_full (h : Holding h₀ data n s) (hfull : s.bufLen = blockSize) :
    Holding h₀ data (n + 1) s.flush := by
  have hflush : s.flush =
      { (s.incrementCounter 128).compress with bufLen := 0, bufLen_le := Nat.zero_le _ } := if_pos hfull
  have ht : (s.incrementCounter 128).t = counterWords (blockSize * (n + 1)) :=
    incrementCounter_t h.counter (by decide : 128 < 2 ^ 64)
  rw [hflush]
  constructor
  case chained =>
    rw [Rfc7693.chain_succ, Nat.mul_comm]
    refine h.compress_h rfl ht h.flags ?_
    ext i hi : 1
    simp [hfull, incrementCounter, get_eq_getElem]
  case counter => exact ht
  case flags => exact h.flags
  case length =>
    rw [h.length, hfull, Nat.mul_succ]
    rfl
  case buffer => intro i hi hlt; cases hlt

theorem Holding.flush (h : Holding h₀ data n s) : ∃ m, Holding h₀ data m s.flush := by
  by_cases hfull : s.bufLen = blockSize
  · exact ⟨n + 1, h.flush_full hfull⟩
  · rw [flush_of_room (Nat.lt_of_le_of_ne s.bufLen_le hfull)]
    exact ⟨n, h⟩

theorem Holding.fill_one (h : Holding h₀ data n s) (hroom : s.bufLen < blockSize) (b : UInt8) :
    Holding h₀ (data ++ [b]) n (s.fill [b]) := by
  have hone : s.toCopy [b] = 1 := by simp [toCopy]; omega
  have hlength := h.length
  constructor
  case chained =>
    have hfull : Rfc7693.bb * n ≤ data.length := hlength ▸ Nat.le_add_right (blockSize * n) s.bufLen
    rw [fill_h, h.chained, Rfc7693.chain_append h₀ [b] hfull]
  case counter => rw [fill_t, h.counter]
  case flags => rw [fill_f, h.flags]
  case length =>
    rw [List.length_append, fill_bufLen, hone, hlength, List.length_singleton, Nat.add_assoc]
  case buffer =>
    intro i hi hlt
    rw [fill_bufLen, hone] at hlt
    rw [fill_buf, hone]
    by_cases hold : i < s.bufLen
    · have hin : blockSize * n + i < data.length := by omega
      rw [if_neg (by omega), h.buffer i hi hold]
      simp [List.getElem?_append_left hin]
    · have hlast : i = s.bufLen := by omega
      rw [if_pos (by omega), hlast, Nat.sub_self, ← hlength]
      simp

theorem Holding.absorb (h : Holding h₀ data n s) (b : UInt8) :
    ∃ m, Holding h₀ (data ++ [b]) m (s.absorb b) := by
  obtain ⟨m, hflush⟩ := h.flush
  exact ⟨m, hflush.fill_one (flush_bufLen_lt s) b⟩

theorem absorb_bufLen_pos (s : Blake2bState) (b : UInt8) : 0 < (s.absorb b).bufLen := by
  have hroom := flush_bufLen_lt s
  unfold absorb
  rw [fill_bufLen, toCopy, List.length_singleton]
  omega

def blocksBefore (length : Nat) : Nat := (length - 1) / blockSize

/-- After `data`, with its last block in the buffer, whether that is full or not. -/
def Absorbed (h₀ : Vector UInt64 8) (data : List UInt8) (s : Blake2bState) : Prop :=
  Holding h₀ data (blocksBefore data.length) s

theorem Holding.absorbed (h : Holding h₀ data n s) (hpos : 0 < s.bufLen) : Absorbed h₀ data s := by
  have hlength := h.length
  have hle := s.bufLen_le
  have hn : n = blocksBefore data.length := by
    unfold blocksBefore blockSize at *
    omega
  unfold Absorbed
  rw [← hn]
  exact h

theorem Absorbed.absorb (h : Absorbed h₀ data s) (b : UInt8) : Absorbed h₀ (data ++ [b]) (s.absorb b) := by
  obtain ⟨m, habsorb⟩ := Holding.absorb h b
  exact habsorb.absorbed (absorb_bufLen_pos s b)

theorem Absorbed.update (h : Absorbed h₀ data s) (input : List UInt8) :
    Absorbed h₀ (data ++ input) (s.update input) := by
  induction input generalizing data s with
  | nil =>
    rw [update_nil, List.append_nil]
    exact h
  | cons b bs ih =>
    rw [update_cons, List.append_cons]
    exact ih (h.absorb b)

theorem Absorbed.finalize (h : Absorbed h₀ data s) :
    s.finalize =
      (wordBytes (Rfc7693.compression (Rfc7693.chain h₀ data (blocksBefore data.length))
        (Rfc7693.block data (blocksBefore data.length)) data.length true).toList).take s.outLen := by
  have ht : (s.incrementCounter (UInt64.ofNat s.bufLen)).t = counterWords data.length := by
    have hbuf : s.bufLen < 2 ^ 64 := Nat.lt_of_le_of_lt s.bufLen_le (by decide)
    rw [Holding.length h]
    exact incrementCounter_t (Holding.counter h) hbuf
  have hf : s.f.set 0 0xFFFFFFFFFFFFFFFF = flagWords true := by
    rw [Holding.flags h]
    rfl
  exact congrArg (fun words : Vector UInt64 8 => (wordBytes words.toList).take s.outLen)
    (Holding.compress_h h rfl ht hf rfl)

end Holding

theorem absorbed_nil (h₀ : Vector UInt64 8) (outLen : OutLen) :
    Absorbed h₀ []
      { h := h₀, t := #v[0, 0], f := #v[0, 0], buf := Vector.replicate blockSize 0, bufLen := 0,
        outLen := outLen, bufLen_le := Nat.zero_le _ } where
  chained := rfl
  counter := rfl
  flags := rfl
  length := rfl
  buffer := by
    intro i hi hlt
    cases hlt

theorem parameter_eq {outLen keyLen : Nat} (hout : outLen ≤ maxOutLen) (hkey : keyLen ≤ maxKeyLen) :
    UInt64.ofNat outLen ||| UInt64.ofNat keyLen <<< 8 ||| (1 : UInt64) <<< 16 ||| (1 : UInt64) <<< 24 =
      (0x01010000 : UInt64) ^^^ (UInt64.ofNat keyLen <<< 8) ^^^ UInt64.ofNat outLen := by
  have hall : ∀ o k : Fin 65,
      UInt64.ofNat o ||| UInt64.ofNat k <<< 8 ||| (1 : UInt64) <<< 16 ||| (1 : UInt64) <<< 24 =
        (0x01010000 : UInt64) ^^^ (UInt64.ofNat k <<< 8) ^^^ UInt64.ofNat o := by decide +kernel
  exact hall ⟨outLen, Nat.lt_succ_of_le hout⟩ ⟨keyLen, Nat.lt_succ_of_le hkey⟩

theorem start_eq {outLen keyLen : Nat} (hout : outLen ≤ maxOutLen) (hkey : keyLen ≤ maxKeyLen) :
    iv.set 0 (iv[0] ^^^ (UInt64.ofNat outLen ||| UInt64.ofNat keyLen <<< 8 ||| (1 : UInt64) <<< 16 |||
      (1 : UInt64) <<< 24)) = Rfc7693.start keyLen outLen := by
  rw [parameter_eq hout hkey, Rfc7693.start, ← UInt64.xor_assoc, ← UInt64.xor_assoc]
  rfl

theorem new_absorbed_none (outLen : OutLen) :
    Absorbed (Rfc7693.start 0 outLen) [] (new outLen none) := by
  rw [← start_eq outLen.property (Nat.zero_le _)]
  exact absorbed_nil _ outLen

theorem new_absorbed_some (outLen : OutLen) (key : Key) (hkey : key.val ≠ []) :
    Absorbed (Rfc7693.start key.val.length outLen) (Rfc7693.keyBlock key.val) (new outLen (some key)) := by
  have hblock : Rfc7693.keyBlock key.val = (fixedBytes blockSize key.val).toList := if_neg hkey
  have hupdate := (absorbed_nil (Rfc7693.start key.val.length outLen) outLen).update
    (fixedBytes blockSize key.val).toList
  rw [List.nil_append] at hupdate
  rw [hblock]
  rw [← start_eq outLen.property key.property] at hupdate ⊢
  exact hupdate

end Blake2bState

def keyBytes (key : Option Key) : List UInt8 := (key.map Subtype.val).getD []

theorem keyBytes_length_le (key : Option Key) : (keyBytes key).length ≤ maxKeyLen := by
  cases key with
  | none => exact Nat.zero_le _
  | some k => exact k.property

theorem length_keyBlock (key : List UInt8) :
    (Rfc7693.keyBlock key).length = if key.length = 0 then 0 else Rfc7693.bb := by
  unfold Rfc7693.keyBlock
  by_cases hkey : key = []
  · simp [hkey]
  · simp [hkey]

theorem blocksBefore_eq {key : List UInt8} (hkey : key.length ≤ maxKeyLen) (input : List UInt8) :
    Blake2bState.blocksBefore (Rfc7693.keyBlock key ++ input).length =
      Rfc7693.blockCount key.length input.length - 1 := by
  unfold maxKeyLen at hkey
  rw [List.length_append, length_keyBlock]
  unfold Blake2bState.blocksBefore Rfc7693.blockCount Rfc7693.bb blockSize
  split
  next hzero =>
    split
    next => omega
    next => omega
  next hsome =>
    rw [if_neg (fun h => hsome h.1)]
    omega

namespace Blake2bState

theorem Absorbed.finalize_eq_hash {key : List UInt8} {s : Blake2bState} (hkey : key.length ≤ maxKeyLen)
    {outLen : Nat} {input : List UInt8}
    (h : Absorbed (Rfc7693.start key.length outLen) (Rfc7693.keyBlock key ++ input) s)
    (hout : s.outLen.val = outLen) : s.finalize = Rfc7693.hash outLen key input := by
  have hlength : (Rfc7693.keyBlock key ++ input).length =
      if key.length = 0 then input.length else input.length + Rfc7693.bb := by
    rw [List.length_append, length_keyBlock]
    split
    next => rw [Nat.zero_add]
    next => rw [Nat.add_comm]
  rw [h.finalize, blocksBefore_eq hkey, hlength, hout]
  rfl

theorem new_absorbed (outLen : OutLen) (key : Option Key) (hkey : ∀ k ∈ key, k.val ≠ []) :
    Absorbed (Rfc7693.start (keyBytes key).length outLen) (Rfc7693.keyBlock (keyBytes key))
      (new outLen key) := by
  cases key with
  | none => exact new_absorbed_none outLen
  | some k => exact new_absorbed_some outLen k (hkey k rfl)

theorem outLen_new (outLen : OutLen) (key : Option Key) : (new outLen key).outLen = outLen := by
  cases key with
  | none => rfl
  | some k => exact outLen_update _ _

end Blake2bState

theorem blake2b_eq (input : List UInt8) {outLen : OutLen} (hout : 1 ≤ outLen.val) {key : Option Key}
    (hkey : ∀ k ∈ key, k.val ≠ []) :
    blake2b input outLen (key.map Subtype.val) =
      some ((Blake2bState.new outLen key).update input).finalize := by
  have hlen : ¬ (outLen.val = 0 ∨ outLen.val > maxOutLen) := by
    omega
  unfold blake2b
  rw [dif_neg hlen]
  cases key with
  | none => rfl
  | some k =>
    have hk : ¬ (k.val = [] ∨ k.val.length > maxKeyLen) := by
      have hne := hkey k rfl
      simp [hne]
      omega
    exact dif_neg hk

/-- The pieces a message comes in make no difference, and the digest is that of RFC 7693. Before
`finalize` every block but the last one has been compressed, also when the last one is full. -/
theorem blake2b_standard (input : List UInt8) (outLen : OutLen) (hout : 1 ≤ outLen.val)
    (key : Option Key) (hkey : ∀ k ∈ key, k.val ≠ []) :
    (∀ (s : Blake2bState) (a b : List UInt8), (s.update a).update b = s.update (a ++ b)) ∧
    blake2b input outLen (key.map Subtype.val) =
      some (Rfc7693.hash outLen (keyBytes key) input) ∧
    Blake2bState.Absorbed (Rfc7693.start (keyBytes key).length outLen)
      (Rfc7693.keyBlock (keyBytes key) ++ input) ((Blake2bState.new outLen key).update input) := by
  have habsorbed := (Blake2bState.new_absorbed outLen key hkey).update input
  have hlen : ((Blake2bState.new outLen key).update input).outLen = outLen := by
    rw [Blake2bState.outLen_update, Blake2bState.outLen_new]
  refine ⟨Blake2bState.update_append, ?_, habsorbed⟩
  rw [blake2b_eq input hout hkey,
    habsorbed.finalize_eq_hash (keyBytes_length_le key) (congrArg Subtype.val hlen)]

/-- With a key of one byte, a message of exactly two blocks leaves its second one in the buffer. -/
theorem blake2b_standard_two_blocks :
    blake2b (List.replicate 256 1) 32 (some [7]) =
      some (Rfc7693.hash 32 [7] (List.replicate 256 1)) ∧
    Blake2bState.Absorbed (Rfc7693.start 1 32) (Rfc7693.keyBlock [7] ++ List.replicate 256 1)
      ((Blake2bState.new ⟨32, by decide⟩ (some ⟨[7], by decide⟩)).update (List.replicate 256 1)) :=
  (blake2b_standard (List.replicate 256 1) ⟨32, by decide⟩ (by decide) (some ⟨[7], by decide⟩)
    (by decide)).2

theorem finalize_update_new (outLen : OutLen) (input : List UInt8) :
    ((Blake2bState.new outLen none).update input).finalize = Rfc9106.blake outLen input := by
  have habsorbed : Blake2bState.Absorbed (Rfc7693.start ([] : List UInt8).length outLen)
      (Rfc7693.keyBlock [] ++ input) ((Blake2bState.new outLen none).update input) :=
    (Blake2bState.new_absorbed_none outLen).update input
  have hlen : ((Blake2bState.new outLen none).update input).outLen = outLen := by
    rw [Blake2bState.outLen_update, Blake2bState.outLen_new]
  exact habsorbed.finalize_eq_hash (Nat.zero_le _) (congrArg Subtype.val hlen)

theorem digest_eq (outLen : OutLen) (input : List UInt8) :
    digest outLen input = Rfc9106.blake outLen input := finalize_update_new outLen input

theorem prefixedDigest_eq (outLen : OutLen) (tau : Nat) (input : List UInt8) :
    prefixedDigest outLen tau input = Rfc9106.blake outLen (leBytes 4 tau ++ input) := by
  rw [prefixedDigest, Blake2bState.update_append, finalize_update_new]

theorem hPrimeLoop_link (tau : Nat) (input : List UInt8) (n i : Nat) (out : List UInt8) :
    hPrimeLoop n (Rfc9106.link tau input i) out =
      (Rfc9106.link tau input (i + n),
        out ++ (List.range n).flatMap fun j => (Rfc9106.link tau input (i + 1 + j)).take 32) := by
  induction n generalizing i out with
  | zero => simp [hPrimeLoop]
  | succ n ih =>
    have hnext : digest ⟨64, Nat.le_refl _⟩ (Rfc9106.link tau input i) =
        Rfc9106.link tau input (i + 1) := digest_eq _ _
    rw [hPrimeLoop, hnext, ih, List.range_succ_eq_map, List.flatMap_cons, List.flatMap_map, List.append_assoc]
    simp only [Nat.add_zero, Nat.add_assoc, Nat.add_comm 1, Nat.succ_eq_add_one]

theorem hPrime_of_le {tau : Nat} (hpos : 1 ≤ tau) (hle : tau ≤ 64) (input : List UInt8) :
    hPrime input tau = Rfc9106.variableHash tau input := by
  unfold hPrime Rfc9106.variableHash
  rw [dif_pos hle, if_pos hle, prefixedDigest_eq]
  dsimp only
  rw [Nat.max_eq_left hpos]

theorem hPrime_of_gt {tau : Nat} (hgt : 64 < tau) (input : List UInt8) :
    hPrime input tau = Rfc9106.variableHash tau input := by
  have hfirst : prefixedDigest ⟨64, Nat.le_refl _⟩ tau input = Rfc9106.link tau input 0 :=
    prefixedDigest_eq _ _ _
  obtain ⟨n, hn⟩ : ∃ n, hPrimeRounds tau = n + 1 := by
    refine ⟨hPrimeRounds tau - 1, ?_⟩
    unfold hPrimeRounds
    omega
  have hcount : (tau + 31) / 32 - 2 = n + 1 := hn
  unfold hPrime Rfc9106.variableHash
  rw [dif_neg (Nat.not_le.mpr hgt), if_neg (Nat.not_le.mpr hgt), hfirst]
  simp only [hcount, hn, digest_eq, Nat.add_sub_cancel, hPrimeLoop_link]
  rw [List.range_succ_eq_map, List.flatMap_cons, List.flatMap_map]
  simp only [Nat.zero_add, Nat.add_comm 1, Nat.succ_eq_add_one]

/-- `h_prime` is the hash `H'` of RFC 9106. -/
theorem hPrime_standard (input : List UInt8) {tau : Nat} (hpos : 1 ≤ tau) :
    (hPrime input tau).length = tau ∧ hPrime input tau = Rfc9106.variableHash tau input := by
  refine ⟨?_, ?_⟩
  · rw [length_hPrime, Nat.max_eq_left hpos]
  · rcases Nat.lt_or_ge 64 tau with hgt | hle
    · exact hPrime_of_gt hgt input
    · exact hPrime_of_le hpos hle input

/-- Two digests are chained for 96 bytes, and the last one has 64 bytes. -/
theorem hPrime_standard_96 :
    (hPrime [1, 2, 3] 96).length = 96 ∧ hPrime [1, 2, 3] 96 = Rfc9106.variableHash 96 [1, 2, 3] :=
  hPrime_standard [1, 2, 3] (by decide)

end CrapOs.Blake2b
