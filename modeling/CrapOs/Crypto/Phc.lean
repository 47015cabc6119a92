import CrapOs.Crypto.Argon2
import CrapOs.Helpers.Base64

/-! # Password hashes as text

A hash is stored as `$argon2id$v=19$m=M,t=T,p=P$SALT$HASH`, with the cost parameters
in decimal and two fields in Base64. What is written is read back, so that a password
is verified with the parameters it was hashed with. What is read need not be of the
hasher's making, and its parameters are not checked.
-/

namespace CrapOs.Argon2

open Foundation
open Checked (Returns Panics)

inductive Argon2Error where
  | memoryCostTooLow
  | timeCostZero
  | parallelismZero
  | saltTooShort
  | passwordEmpty
  | invalidPhcString
  | passwordMismatch
deriving DecidableEq, Repr

/-- `Some` if the value fits, as for `checked_mul` and `checked_add`. -/
def checkedU32 (n : Nat) : Option UInt32 := if n < 2 ^ 32 then some (UInt32.ofNat n) else none

/-- The loop body of `parse_u32`. -/
def parseDigit (result : UInt32) (b : UInt8) : Option UInt32 :=
  if b < '0'.toUInt8 ∨ '9'.toUInt8 < b then none
  else do
    let tens ← checkedU32 (result.toNat * 10)
    checkedU32 (tens.toNat + (b - '0'.toUInt8).toNat)

def parseU32 (s : List UInt8) : Option UInt32 :=
  if s = [] then none else s.foldlM parseDigit 0

def parseParam (s key : List UInt8) : Option UInt32 := do
  let val ← key.isPrefixOf? s
  parseU32 val

/-- The loop of `u32_to_alloc_string`: `i` cells of the buffer are free, in front of what is
`filled`. -/
def fillDigits (i v : Nat) (filled : List UInt8) : Except Halt (List UInt8) :=
  if v = 0 then .ok filled
  else
    match i with
    | 0 => .error (.panic "attempt to subtract with overflow")
    | i + 1 => fillDigits i (v / 10) (('0'.toUInt8 + UInt8.ofNat (v % 10)) :: filled)

def u32ToAllocString (v : UInt32) : Except Halt (List UInt8) :=
  if v = 0 then .ok (ascii "0") else fillDigits 10 v.toNat []

def phcText (m t p salt hash : List UInt8) : List UInt8 :=
  ascii "$argon2id$v=19$m=" ++ m ++ ascii ",t=" ++ t ++ ascii ",p=" ++ p ++ ascii "$" ++ salt ++
    ascii "$" ++ hash

def encodePhc (salt : List UInt8) (hash : Vector UInt8 hashLen) (mCost tCost pCost : UInt32) :
    Except Halt (List UInt8) := do
  let m ← u32ToAllocString mCost
  let t ← u32ToAllocString tCost
  let p ← u32ToAllocString pCost
  return phcText m t p (base64Encode salt) (base64Encode hash.toList)

abbrev Decoded := List UInt8 × List UInt8 × UInt32 × UInt32 × UInt32

/-- `.ok_or(Argon2Error::InvalidPhcString)` -/
def orInvalid {α : Type} : Option α → Except Argon2Error α
  | some a => .ok a
  | none => .error .invalidPhcString

def decodeFields (m t p salt hash : List UInt8) : Except Argon2Error Decoded := do
  let mCost ← orInvalid (parseParam m (ascii "m="))
  let tCost ← orInvalid (parseParam t (ascii "t="))
  let pCost ← orInvalid (parseParam p (ascii "p="))
  let salt ← orInvalid (base64Decode salt)
  let hash ← orInvalid (base64Decode hash)
  return (salt, hash, mCost, tCost, pCost)

def decodePhc (phc : List UInt8) : Except Halt (Except Argon2Error Decoded) := do
  let parts := (phc.splitOn '$'.toUInt8).toArray
  if parts.size ≠ 6 then return .error .invalidPhcString
  let start ← Checked.get parts 0
  let algorithm ← Checked.get parts 1
  if start ≠ [] ∨ algorithm ≠ ascii "argon2id" then return .error .invalidPhcString
  let version ← Checked.get parts 2
  if version ≠ ascii "v=19" then return .error .invalidPhcString
  let field ← Checked.get parts 3
  let params := (field.splitOn ','.toUInt8).toArray
  if params.size ≠ 3 then return .error .invalidPhcString
  let m ← Checked.get params 0
  let t ← Checked.get params 1
  let p ← Checked.get params 2
  let salt ← Checked.get parts 4
  let hash ← Checked.get parts 5
  return decodeFields m t p salt hash

/-- The product with 8 is a `u32`. -/
def validateParams (password salt : List UInt8) (mCost tCost pCost : UInt32) : Except Argon2Error Unit :=
  if password = [] then .error .passwordEmpty
  else if salt.length < 8 then .error .saltTooShort
  else if tCost = 0 then .error .timeCostZero
  else if pCost = 0 then .error .parallelismZero
  else if mCost < 8 * pCost then .error .memoryCostTooLow
  else .ok ()

def hashPasswordWithParams (password salt : List UInt8) (mCost tCost pCost : UInt32) :
    Except Halt (Except Argon2Error (List UInt8)) :=
  match validateParams password salt mCost tCost pCost with
  | .error e => .ok (.error e)
  | .ok () => do
    let hash ← argon2idRaw password salt mCost tCost pCost
    let phc ← encodePhc salt hash mCost tCost pCost
    return .ok phc

def constantTimeEq (a b : List UInt8) : Bool :=
  if a.length ≠ b.length then false
  else (a.zip b).foldl (fun diff x => diff ||| (x.1 ^^^ x.2)) 0 = 0

def verifyPassword (password phc : List UInt8) : Except Halt (Except Argon2Error Unit) := do
  match ← decodePhc phc with
  | .error e => return .error e
  | .ok (salt, storedHash, mCost, tCost, pCost) =>
    let computed ← argon2idRaw password salt mCost tCost pCost
    return if constantTimeEq computed.toList storedHash = false then .error .passwordMismatch else .ok ()

variable {decoded : Decoded} {n : Nat} {salt : List UInt8} {v : UInt32}

theorem toNat_ofNat (h : n < 2 ^ 32) : (UInt32.ofNat n).toNat = n :=
  UInt32.toNat_ofNat_of_lt' h

theorem checkedU32_eq_some : checkedU32 n = some v ↔ n = v.toNat := by
  unfold checkedU32
  split
  next h =>
    rw [Option.some.injEq, ← UInt32.toNat_inj, toNat_ofNat h]
  next h =>
    have hv := v.toNat_lt
    constructor
    · intro hnone
      cases hnone
    · intro hn
      omega

theorem parseDigit_eq_some {result : UInt32} {b : UInt8} :
    parseDigit result b = some v ↔ IsDigit b ∧ addDigit result.toNat b = v.toNat := by
  unfold parseDigit IsDigit addDigit
  split
  next h =>
    constructor
    · intro hnone
      cases hnone
    · intro hv
      have h1 : ¬ b < '0'.toUInt8 := UInt8.not_lt.mpr hv.1.1
      have h2 : ¬ '9'.toUInt8 < b := UInt8.not_lt.mpr hv.1.2
      exact absurd h (not_or.mpr ⟨h1, h2⟩)
  next h =>
    have hdigit : '0'.toUInt8 ≤ b ∧ b ≤ '9'.toUInt8 :=
      ⟨UInt8.not_lt.mp (not_or.mp h).1, UInt8.not_lt.mp (not_or.mp h).2⟩
    have hsub : (b - '0'.toUInt8).toNat = b.toNat - 48 := UInt8.toNat_sub_of_le _ _ hdigit.1
    simp only [Option.bind_eq_bind, Option.bind_eq_some_iff, checkedU32_eq_some, hsub]
    constructor
    · intro hv
      exact ⟨hdigit, by omega⟩
    · intro hv
      have hlt := v.toNat_lt
      refine ⟨UInt32.ofNat (result.toNat * 10), ?_, ?_⟩
      · rw [toNat_ofNat (by omega)]
      · rw [toNat_ofNat (by omega)]
        exact hv.2

theorem foldlM_parseDigit {s : List UInt8} {result : UInt32} :
    s.foldlM parseDigit result = some v ↔
      (∀ b ∈ s, IsDigit b) ∧ s.foldl addDigit result.toNat = v.toNat := by
  induction s generalizing result with
  | nil =>
    change some result = some v ↔ _
    rw [Option.some.injEq, ← UInt32.toNat_inj]
    exact ⟨fun h => ⟨nofun, h⟩, fun h => h.2⟩
  | cons b s ih =>
    rw [List.foldlM_cons, List.foldl_cons, List.forall_mem_cons]
    simp only [Option.bind_eq_bind, Option.bind_eq_some_iff, parseDigit_eq_some, ih]
    constructor
    · intro h
      obtain ⟨next, ⟨hb, hnext⟩, hs, hv⟩ := h
      rw [hnext]
      exact ⟨⟨hb, hs⟩, hv⟩
    · intro h
      -- the number so far fits, since the digits to come only make it larger
      have hle := le_foldl_addDigit s (addDigit result.toNat b)
      have hlt := v.toNat_lt
      have hnext : addDigit result.toNat b = (UInt32.ofNat (addDigit result.toNat b)).toNat :=
        (toNat_ofNat (by omega)).symm
      refine ⟨_, ⟨h.1.1, hnext⟩, h.1.2, ?_⟩
      rw [← hnext]
      exact h.2

theorem parseU32_eq_some {s : List UInt8} : parseU32 s = some v ↔ Decimal s v.toNat := by
  unfold parseU32
  split
  next h =>
    constructor
    · intro hnone
      cases hnone
    · intro hv
      exact absurd h hv.nonempty
  next h =>
    rw [foldlM_parseDigit]
    exact ⟨fun hv => ⟨h, hv.1, hv.2⟩, fun hv => ⟨hv.digits, hv.value⟩⟩

theorem parseParam_eq_some {s key : List UInt8} :
    parseParam s key = some v ↔ ∃ digits, s = key ++ digits ∧ Decimal digits v.toNat := by
  unfold parseParam
  simp only [Option.bind_eq_bind, Option.bind_eq_some_iff, List.isPrefixOf?_eq_some_iff_append_eq,
    parseU32_eq_some]
  exact exists_congr fun digits => and_congr_left fun _ => eq_comm

theorem digit_spec {d : Nat} (hd : d < 10) :
    IsDigit ('0'.toUInt8 + UInt8.ofNat d) ∧ ('0'.toUInt8 + UInt8.ofNat d).toNat - 48 = d := by
  have hall : ∀ d : Fin 10, ('0'.toUInt8 ≤ '0'.toUInt8 + UInt8.ofNat d ∧
      '0'.toUInt8 + UInt8.ofNat d ≤ '9'.toUInt8) ∧ ('0'.toUInt8 + UInt8.ofNat d).toNat - 48 = d := by
    decide
  exact hall ⟨d, hd⟩

/-- With room for all digits, they are written in front of what is there. -/
theorem fillDigits_returns {i v : Nat} (h : v < 10 ^ i) (filled : List UInt8) :
    Returns (fillDigits i v filled) fun s =>
      ∃ digits, s = digits ++ filled ∧ (∀ b ∈ digits, IsDigit b) ∧ decimalValue digits = v ∧
        (v ≠ 0 → digits ≠ []) := by
  induction i generalizing v filled with
  | zero =>
    have hv : v = 0 := by omega
    rw [fillDigits, if_pos hv]
    exact .of_eq rfl ⟨[], rfl, nofun, hv.symm, fun hne => absurd hv hne⟩
  | succ i ih =>
    rw [fillDigits]
    by_cases hv : v = 0
    · rw [if_pos hv]
      exact .of_eq rfl ⟨[], rfl, nofun, hv.symm, fun hne => absurd hv hne⟩
    · rw [if_neg hv]
      have hdigit := digit_spec (Nat.mod_lt v (by decide : 10 > 0))
      have hrest : v / 10 < 10 ^ i := Nat.div_lt_of_lt_mul (by rwa [Nat.pow_succ'] at h)
      obtain ⟨s, hrun, digits, hs, hall, hvalue, -⟩ :=
        ih hrest (('0'.toUInt8 + UInt8.ofNat (v % 10)) :: filled)
      refine .of_eq hrun ⟨digits ++ ['0'.toUInt8 + UInt8.ofNat (v % 10)], ?_, ?_, ?_, ?_⟩
      · rw [hs, List.append_assoc]
        rfl
      · rw [List.forall_mem_append, List.forall_mem_singleton]
        exact ⟨hall, hdigit.1⟩
      · rw [decimalValue_concat, addDigit, hvalue, hdigit.2]
        exact Nat.div_add_mod' v 10
      · exact fun _ => List.concat_ne_nil _ _

theorem u32ToAllocString_returns (v : UInt32) :
    Returns (u32ToAllocString v) fun s => Decimal s v.toNat := by
  unfold u32ToAllocString
  split
  next hv =>
    subst hv
    refine .of_eq rfl ⟨by decide, ?_, by decide⟩
    intro b hb
    rw [show ascii "0" = ['0'.toUInt8] by decide, List.mem_singleton] at hb
    rw [hb]
    exact ⟨by decide, by decide⟩
  next hv =>
    have hlt := v.toNat_lt
    have hne : v.toNat ≠ 0 := fun h => hv (UInt32.toNat_inj.mp h)
    obtain ⟨s, hrun, digits, hs, hall, hvalue, hnonempty⟩ :=
      fillDigits_returns (i := 10) (v := v.toNat) (by omega) []
    rw [List.append_nil] at hs
    subst hs
    exact .of_eq hrun ⟨hnonempty hne, hall, hvalue⟩

/-! ## What is read -/

/-- The part of `decode_phc` after the second split, without indices. -/
def decodeParams (params : List (List UInt8)) (salt hash : List UInt8) : Except Argon2Error Decoded :=
  match params with
  | [m, t, p] => decodeFields m t p salt hash
  | _ => .error .invalidPhcString

def decodeParts (parts : List (List UInt8)) : Except Argon2Error Decoded :=
  match parts with
  | [start, algorithm, version, params, salt, hash] =>
    if start ≠ [] ∨ algorithm ≠ ascii "argon2id" then .error .invalidPhcString
    else if version ≠ ascii "v=19" then .error .invalidPhcString
    else decodeParams (params.splitOn ','.toUInt8) salt hash
  | _ => .error .invalidPhcString

theorem decodeParams_of_length {params : List (List UInt8)} (h : params.length ≠ 3)
    (salt hash : List UInt8) : decodeParams params salt hash = .error .invalidPhcString := by
  unfold decodeParams
  split
  next => exact absurd rfl h
  next => rfl

theorem decodeParts_of_length {parts : List (List UInt8)} (h : parts.length ≠ 6) :
    decodeParts parts = .error .invalidPhcString := by
  unfold decodeParts
  split
  next => exact absurd rfl h
  next => rfl

/-- No index is out of range, since the numbers of fields are checked first. -/
theorem decodePhc_eq (phc : List UInt8) :
    decodePhc phc = .ok (decodeParts (phc.splitOn '$'.toUInt8)) := by
  unfold decodePhc
  generalize phc.splitOn '$'.toUInt8 = parts
  by_cases hlength : parts.length = 6
  · match parts, hlength with
    | [start, algorithm, version, field, salt, hash], _ =>
      change (if start ≠ [] ∨ algorithm ≠ ascii "argon2id" then _ else _) = Except.ok (if _ then _ else _)
      by_cases hname : start ≠ [] ∨ algorithm ≠ ascii "argon2id"
      · rw [if_pos hname, if_pos hname]
        rfl
      rw [if_neg hname, if_neg hname]
      change (if version ≠ ascii "v=19" then _ else _) = _
      by_cases hversion : version ≠ ascii "v=19"
      · rw [if_pos hversion, if_pos hversion]
        rfl
      rw [if_neg hversion, if_neg hversion]
      change (if (field.splitOn ','.toUInt8).toArray.size ≠ 3 then _ else do
        let m ← Checked.get (field.splitOn ','.toUInt8).toArray 0
        let t ← Checked.get (field.splitOn ','.toUInt8).toArray 1
        let p ← Checked.get (field.splitOn ','.toUInt8).toArray 2
        return decodeFields m t p salt hash) = _
      generalize field.splitOn ','.toUInt8 = params
      by_cases hparams : params.length = 3
      · match params, hparams with
        | [m, t, p], _ => rfl
      · rw [if_pos (by exact hparams), decodeParams_of_length hparams]
        rfl
  · rw [if_pos (by exact hlength), decodeParts_of_length hlength]
    rfl

theorem orInvalid_eq_ok {α : Type} {x : Option α} {a : α} : orInvalid x = .ok a ↔ x = some a := by
  cases x with
  | none =>
    constructor
    · intro h
      cases h
    · intro h
      cases h
  | some b =>
    change Except.ok b = Except.ok a ↔ _
    rw [Except.ok.injEq, Option.some.injEq]

/-- The fields with the values they stand for. -/
structure Fields (m t p salt hash : List UInt8) (decoded : Decoded) : Prop where
  salt : base64Decode salt = some decoded.1
  hash : base64Decode hash = some decoded.2.1
  mCost : Decimal m decoded.2.2.1.toNat
  tCost : Decimal t decoded.2.2.2.1.toNat
  pCost : Decimal p decoded.2.2.2.2.toNat

theorem decodeFields_eq_ok {m t p hash : List UInt8} :
    decodeFields m t p salt hash = .ok decoded ↔
      ∃ mDigits tDigits pDigits, [m, t, p] =
        [ascii "m=" ++ mDigits, ascii "t=" ++ tDigits, ascii "p=" ++ pDigits] ∧
        Fields mDigits tDigits pDigits salt hash decoded := by
  constructor
  · intro h
    obtain ⟨mCost, hm, h⟩ := bind_eq_ok.mp h
    obtain ⟨tCost, ht, h⟩ := bind_eq_ok.mp h
    obtain ⟨pCost, hp, h⟩ := bind_eq_ok.mp h
    obtain ⟨saltBytes, hsalt, h⟩ := bind_eq_ok.mp h
    obtain ⟨hashBytes, hhash, h⟩ := bind_eq_ok.mp h
    cases h
    obtain ⟨mDigits, rfl, hmDigits⟩ := parseParam_eq_some.mp (orInvalid_eq_ok.mp hm)
    obtain ⟨tDigits, rfl, htDigits⟩ := parseParam_eq_some.mp (orInvalid_eq_ok.mp ht)
    obtain ⟨pDigits, rfl, hpDigits⟩ := parseParam_eq_some.mp (orInvalid_eq_ok.mp hp)
    exact ⟨mDigits, tDigits, pDigits, rfl,
      { salt := orInvalid_eq_ok.mp hsalt
        hash := orInvalid_eq_ok.mp hhash
        mCost := hmDigits
        tCost := htDigits
        pCost := hpDigits }⟩
  · intro h
    obtain ⟨mDigits, tDigits, pDigits, hfields, h⟩ := h
    cases hfields
    unfold decodeFields
    rw [orInvalid_eq_ok.mpr (parseParam_eq_some.mpr ⟨mDigits, rfl, h.mCost⟩),
      orInvalid_eq_ok.mpr (parseParam_eq_some.mpr ⟨tDigits, rfl, h.tCost⟩),
      orInvalid_eq_ok.mpr (parseParam_eq_some.mpr ⟨pDigits, rfl, h.pCost⟩),
      orInvalid_eq_ok.mpr h.salt, orInvalid_eq_ok.mpr h.hash]
    rfl

def paramsText (m t p : List UInt8) : List UInt8 :=
  [','.toUInt8].intercalate [ascii "m=" ++ m, ascii "t=" ++ t, ascii "p=" ++ p]

theorem phcText_eq (m t p salt hash : List UInt8) :
    phcText m t p salt hash = ['$'.toUInt8].intercalate
      [[], ascii "argon2id", ascii "v=19", paramsText m t p, salt, hash] := by
  have hstart : ascii "$argon2id$v=19$m=" = '$'.toUInt8 :: ascii "argon2id" ++ '$'.toUInt8 :: ascii "v=19" ++
      '$'.toUInt8 :: ascii "m=" := by decide
  have ht : ascii ",t=" = ','.toUInt8 :: ascii "t=" := by decide
  have hp : ascii ",p=" = ','.toUInt8 :: ascii "p=" := by decide
  have hend : ascii "$" = ['$'.toUInt8] := by decide
  rw [phcText, paramsText, hstart, ht, hp, hend]
  simp [List.intercalate]

theorem not_mem_of_decimal {digits : List UInt8} (h : Decimal digits n) :
    '$'.toUInt8 ∉ digits ∧ ','.toUInt8 ∉ digits := by
  constructor
  · intro hmem
    exact absurd (h.digits _ hmem).1 (by decide)
  · intro hmem
    exact absurd (h.digits _ hmem).1 (by decide)

theorem not_mem_of_base64 {s out : List UInt8} (h : base64Decode s = some out) : '$'.toUInt8 ∉ s := by
  obtain ⟨body, padding, rfl, hbody, -⟩ := base64Decode_isSome_iff.mp (Option.isSome_of_eq_some h)
  have hdollar : '$'.toUInt8 ∉ base64Chars.toList := by
    rw [← base64Val_isSome_iff]
    decide
  intro hmem
  rcases List.mem_append.mp hmem with hmem | hmem
  · exact hdollar (hbody _ hmem)
  · exact absurd (List.eq_of_mem_replicate hmem) (by decide)

theorem splitOn_paramsText {m t p hash : List UInt8} (h : Fields m t p salt hash decoded) :
    (paramsText m t p).splitOn ','.toUInt8 = [ascii "m=" ++ m, ascii "t=" ++ t, ascii "p=" ++ p] := by
  refine splitOn_eq_iff.mpr ⟨List.cons_ne_nil _ _, ?_, rfl⟩
  simp only [List.forall_mem_cons, List.mem_append, not_or]
  exact ⟨⟨by decide, (not_mem_of_decimal h.mCost).2⟩, ⟨by decide, (not_mem_of_decimal h.tCost).2⟩,
    ⟨by decide, (not_mem_of_decimal h.pCost).2⟩, nofun⟩

theorem splitOn_phcText {m t p hash : List UInt8} (h : Fields m t p salt hash decoded) :
    (phcText m t p salt hash).splitOn '$'.toUInt8 =
      [[], ascii "argon2id", ascii "v=19", paramsText m t p, salt, hash] := by
  refine splitOn_eq_iff.mpr ⟨List.cons_ne_nil _ _, ?_, phcText_eq m t p salt hash⟩
  have hparams : '$'.toUInt8 ∉ paramsText m t p := by
    have hkeys : '$'.toUInt8 ∉ ascii "m=" ∧ '$'.toUInt8 ∉ ascii "t=" ∧ '$'.toUInt8 ∉ ascii "p=" ∧
        '$'.toUInt8 ≠ ','.toUInt8 := by decide
    simp [paramsText, List.intercalate, hkeys, (not_mem_of_decimal h.mCost).1,
      (not_mem_of_decimal h.tCost).1, (not_mem_of_decimal h.pCost).1]
  simp only [List.forall_mem_cons]
  exact ⟨by decide, by decide, by decide, hparams, not_mem_of_base64 h.salt, not_mem_of_base64 h.hash, nofun⟩

/-- What `decode_phc` accepts: the text made of fields that stand for the result. -/
theorem decodePhc_eq_ok {phc : List UInt8} :
    decodePhc phc = .ok (.ok decoded) ↔
      ∃ m t p salt hash, phc = phcText m t p salt hash ∧ Fields m t p salt hash decoded := by
  rw [decodePhc_eq, Except.ok.injEq]
  constructor
  · intro h
    unfold decodeParts at h
    split at h
    next start algorithm version field salt hash hparts =>
      split at h
      next => cases h
      next hname =>
        split at h
        next => cases h
        next hversion =>
          unfold decodeParams at h
          split at h
          next m t p hparams =>
            obtain ⟨mDigits, tDigits, pDigits, hfields, hdecoded⟩ := decodeFields_eq_ok.mp h
            refine ⟨mDigits, tDigits, pDigits, salt, hash, ?_, hdecoded⟩
            rw [not_or, not_not, not_not] at hname
            rw [hfields] at hparams
            rw [(splitOn_eq_iff.mp hparts).2.2, (splitOn_eq_iff.mp hparams).2.2, hname.1, hname.2,
              not_not.mp hversion, phcText_eq]
            rfl
          next => cases h
    next => cases h
  · intro h
    obtain ⟨m, t, p, salt, hash, rfl, hfields⟩ := h
    rw [splitOn_phcText hfields]
    change decodeParams ((paramsText m t p).splitOn ','.toUInt8) salt hash = _
    rw [splitOn_paramsText hfields]
    exact decodeFields_eq_ok.mpr ⟨m, t, p, rfl, hfields⟩

theorem encodePhc_returns (salt : List UInt8) (hash : Vector UInt8 hashLen) (mCost tCost pCost : UInt32) :
    Returns (encodePhc salt hash mCost tCost pCost) fun phc =>
      decodePhc phc = .ok (.ok (salt, hash.toList, mCost, tCost, pCost)) := by
  refine (u32ToAllocString_returns mCost).bind fun m hm => ?_
  refine (u32ToAllocString_returns tCost).bind fun t ht => ?_
  refine (u32ToAllocString_returns pCost).bind fun p hp => ?_
  refine .of_eq rfl (decodePhc_eq_ok.mpr ⟨m, t, p, _, _, rfl, ?_⟩)
  exact ⟨base64Decode_encode salt, base64Decode_encode hash.toList, hm, ht, hp⟩

theorem constantTimeEq_self (a : List UInt8) : constantTimeEq a a = true := by
  rw [constantTimeEq, if_neg (not_not_intro rfl), decide_eq_true_iff, foldl_or_eq_zero]
  refine ⟨rfl, fun x hx => ?_⟩
  obtain ⟨i, hi, rfl⟩ := List.getElem_of_mem hx
  rw [List.getElem_zip]
  exact UInt8.xor_self

theorem verifyPassword_of_decoded {password phc storedHash : List UInt8}
    {mCost tCost pCost : UInt32}
    (h : decodePhc phc = .ok (.ok (salt, storedHash, mCost, tCost, pCost))) :
    verifyPassword password phc = (do
      let computed ← argon2idRaw password salt mCost tCost pCost
      return if constantTimeEq computed.toList storedHash = false then .error .passwordMismatch
        else .ok ()) := by
  rw [verifyPassword, h]
  rfl

/-- The text format loses nothing, and so a password is verified by the string that hashing it
gave. -/
theorem hashed_password_verifies :
    (∀ (salt : List UInt8) (hash : Vector UInt8 hashLen) (mCost tCost pCost : UInt32),
      ∃ phc, encodePhc salt hash mCost tCost pCost = .ok phc ∧
        decodePhc phc = .ok (.ok (salt, hash.toList, mCost, tCost, pCost))) ∧
    ∀ (password salt phc : List UInt8) (mCost tCost pCost : UInt32),
      hashPasswordWithParams password salt mCost tCost pCost = .ok (.ok phc) →
        verifyPassword password phc = .ok (.ok ()) := by
  refine ⟨encodePhc_returns, fun password salt phc mCost tCost pCost h => ?_⟩
  unfold hashPasswordWithParams at h
  split at h
  next => cases h
  next =>
    obtain ⟨hash, hhash, h⟩ := bind_eq_ok.mp h
    obtain ⟨text, htext, h⟩ := bind_eq_ok.mp h
    cases h
    obtain ⟨phc', hencode, hdecode⟩ := encodePhc_returns salt hash mCost tCost pCost
    rw [htext] at hencode
    cases hencode
    rw [verifyPassword_of_decoded hdecode, hhash]
    change Except.ok (if constantTimeEq hash.toList hash.toList = false then _ else _) = _
    rw [constantTimeEq_self, if_neg Bool.true_eq_false.mp]

/-- With the default costs. -/
theorem hashed_password_verifies_default : ∃ phc,
    hashPasswordWithParams (ascii "password") (ascii "saltsalt") 19456 2 1 = .ok (.ok phc) ∧
      verifyPassword (ascii "password") phc = .ok (.ok ()) := by
  have hraw : Returns (argon2idRaw (ascii "password") (ascii "saltsalt") 19456 2 1) fun _ => True :=
    argon2idRaw_returns _ _ 2 (by decide) (by decide)
  obtain ⟨hash, hhash, -⟩ := hraw
  obtain ⟨phc, hencode, -⟩ := encodePhc_returns (ascii "saltsalt") hash 19456 2 1
  have hvalid : validateParams (ascii "password") (ascii "saltsalt") 19456 2 1 = .ok () := by decide
  have hok : hashPasswordWithParams (ascii "password") (ascii "saltsalt") 19456 2 1 = .ok (.ok phc) := by
    rw [hashPasswordWithParams, hvalid]
    exact bind_eq_ok.mpr ⟨hash, hhash, bind_eq_ok.mpr ⟨phc, hencode, rfl⟩⟩
  exact ⟨phc, hok, hashed_password_verifies.2 _ _ _ _ _ _ hok⟩

def HasCosts (phc : List UInt8) (mCost tCost pCost : UInt32) : Prop :=
  ∃ m t p salt hash, phc = phcText m t p salt hash ∧ Decimal m mCost.toNat ∧ Decimal t tCost.toNat ∧
    Decimal p pCost.toNat ∧ IsBase64 salt ∧ IsBase64 hash

theorem hasCosts_iff {phc : List UInt8} {mCost tCost pCost : UInt32} :
    HasCosts phc mCost tCost pCost ↔
      ∃ salt hash, decodePhc phc = .ok (.ok (salt, hash, mCost, tCost, pCost)) := by
  constructor
  · intro h
    obtain ⟨m, t, p, salt, hash, rfl, hm, ht, hp, hsalt, hhash⟩ := h
    obtain ⟨saltBytes, hsalt⟩ := Option.isSome_iff_exists.mp (base64Decode_isSome_iff.mpr hsalt)
    obtain ⟨hashBytes, hhash⟩ := Option.isSome_iff_exists.mp (base64Decode_isSome_iff.mpr hhash)
    exact ⟨saltBytes, hashBytes, decodePhc_eq_ok.mpr ⟨m, t, p, salt, hash, rfl, hsalt, hhash, hm, ht, hp⟩⟩
  · intro h
    obtain ⟨saltBytes, hashBytes, h⟩ := h
    obtain ⟨m, t, p, salt, hash, rfl, hfields⟩ := decodePhc_eq_ok.mp h
    refine ⟨m, t, p, salt, hash, rfl, hfields.mCost, hfields.tCost, hfields.pCost, ?_, ?_⟩
    · exact base64Decode_isSome_iff.mp (Option.isSome_of_eq_some hfields.salt)
    · exact base64Decode_isSome_iff.mp (Option.isSome_of_eq_some hfields.hash)

/-- Verification returns unless the string has costs that leave the memory empty, or no lane. -/
theorem verifyPassword_returns_iff (password phc : List UInt8) :
    (∃ result, verifyPassword password phc = .ok result) ↔
      ∀ mCost tCost pCost, HasCosts phc mCost tCost pCost →
        1 ≤ pCost.toNat ∧ 4 * pCost.toNat ≤ mCost.toNat := by
  constructor
  · intro h mCost tCost pCost hcosts
    obtain ⟨result, hresult⟩ := h
    obtain ⟨salt, hash, hdecode⟩ := hasCosts_iff.mp hcosts
    rw [verifyPassword_of_decoded hdecode] at hresult
    by_contra hcosts
    exact ((argon2idRaw_panics password salt tCost hcosts).bind _).not_returns (.of_eq (P := fun _ => True) hresult trivial)
  · intro h
    cases hdecode : decodeParts (phc.splitOn '$'.toUInt8) with
    | error e =>
      refine ⟨.error e, ?_⟩
      rw [verifyPassword, decodePhc_eq, hdecode]
      rfl
    | ok decoded =>
      obtain ⟨salt, hash, mCost, tCost, pCost⟩ := decoded
      have hdecoded : decodePhc phc = .ok (.ok (salt, hash, mCost, tCost, pCost)) := by
        rw [decodePhc_eq, hdecode]
      have hcosts := h mCost tCost pCost (hasCosts_iff.mpr ⟨salt, hash, hdecoded⟩)
      obtain ⟨computed, hcomputed, -⟩ := argon2idRaw_returns password salt tCost hcosts.1 hcosts.2
      rw [verifyPassword_of_decoded hdecoded, hcomputed]
      exact ⟨_, rfl⟩

/-- A string without lanes divides by zero. -/
theorem verifyPassword_without_lanes :
    verifyPassword (ascii "password") (ascii "$argon2id$v=19$m=19456,t=2,p=0$c2FsdHNhbHQ=$aGFzaA==") =
      .error (.panic "attempt to divide by zero") := by
  have hdecode : decodePhc (ascii "$argon2id$v=19$m=19456,t=2,p=0$c2FsdHNhbHQ=$aGFzaA==") =
      .ok (.ok (ascii "saltsalt", ascii "hash", 19456, 2, 0)) := by
    decide +kernel
  rw [verifyPassword_of_decoded hdecode]
  rfl

end CrapOs.Argon2
