import CrapOs.Foundation.ByteMemory
import CrapOs.Foundation.WordBits

/-! # System constants and the two views of physical memory

The kernel reaches physical memory either at its own address (identity maps)
or through the direct map at `kernelPhysicalMapBase`. `physOf` gives the
physical byte a kernel pointer names, and `virtOf` is the pointer the code
forms for a physical address in either mode.
-/

namespace CrapOs

open Foundation

def kernelPhysicalMapBase : Nat := 0xFFFF800000000000
def kernelFramebufferVirtualBase : Nat := 0xFFFF900000000000
def kernelHeapBase : Nat := 0xFFFFA00000000000
def kernelVirtualBase : Nat := 0xFFFFFFFF80000000

def pageSize : Nat := 0x1000

def pageMask : Nat := not64 0xFFF

namespace Flag

def present : Nat := 1 <<< 0
def writable : Nat := 1 <<< 1
def user : Nat := 1 <<< 2
def pwt : Nat := 1 <<< 3
def pcd : Nat := 1 <<< 4
def nx : Nat := 1 <<< 63

end Flag

/-- How a kernel routine can end without returning. `outOfFuel` is the model's
bound on a loop, not an event of the machine. -/
inductive Halt
  | panic (message : String)
  | outOfFuel
deriving DecidableEq, Repr

theorem bind_eq_ok {ε α β : Type} {x : Except ε α} {f : α → Except ε β} {b : β} :
    (x >>= f) = .ok b ↔ ∃ a, x = .ok a ∧ f a = .ok b := by
  cases x with
  | error e =>
    constructor
    · intro h
      cases h
    · rintro ⟨a, h, -⟩
      cases h
  | ok a =>
    constructor
    · exact fun h => ⟨a, rfl, h⟩
    · rintro ⟨_, ⟨⟩, h⟩
      exact h

/-- The physical byte a kernel pointer names: addresses from the direct map base
on go through the direct map, all others through the identity maps. -/
def physOf (ptr : Nat) : Nat :=
  if kernelPhysicalMapBase ≤ ptr then ptr - kernelPhysicalMapBase else ptr

def virtOf (isHigherHalf : Bool) (address : Nat) : Nat :=
  if isHigherHalf then wrap64 (address + kernelPhysicalMapBase) else address

def directMapWindow : Nat := 2 ^ 64 - kernelPhysicalMapBase

def NamesSameMemory (a : Nat) : Prop :=
  physOf (wrap64 (a + kernelPhysicalMapBase)) = physOf a

/-- A physical page frame the kernel can hand out and reach in both views. -/
structure IsFrame (a : Nat) : Prop where
  aligned : a % pageSize = 0
  nonzero : a ≠ 0
  window : a < directMapWindow

theorem directMapWindow_eq : directMapWindow = 2 ^ 47 := by decide

theorem kernelPhysicalMapBase_eq : kernelPhysicalMapBase = 2 ^ 64 - 2 ^ 47 := by decide

theorem physOf_of_lt {ptr : Nat} (h : ptr < kernelPhysicalMapBase) : physOf ptr = ptr := by
  rw [physOf, if_neg (by omega)]

theorem physOf_of_ge {ptr : Nat} (h : kernelPhysicalMapBase ≤ ptr) :
    physOf ptr = ptr - kernelPhysicalMapBase := by
  rw [physOf, if_pos h]

theorem window_of_namesSameMemory {a : Nat} (ha : a < 2 ^ 64) (h : NamesSameMemory a) :
    a < directMapWindow := by
  have hbase := kernelPhysicalMapBase_eq
  rw [directMapWindow_eq]
  by_contra hge
  have hwrap : wrap64 (a + kernelPhysicalMapBase) = a - 2 ^ 47 := by
    rw [wrap64]
    omega
  rw [NamesSameMemory, hwrap, physOf_of_lt (by omega)] at h
  by_cases hhigh : kernelPhysicalMapBase ≤ a
  · rw [physOf_of_ge hhigh] at h
    omega
  · rw [physOf_of_lt (by omega)] at h
    omega

theorem physOf_virtOf {a k : Nat} (hh : Bool) (h : a + k < directMapWindow) :
    physOf (virtOf hh a + k) = a + k := by
  have hbase := kernelPhysicalMapBase_eq
  rw [directMapWindow_eq] at h
  cases hh with
  | false =>
    rw [virtOf, if_neg (by decide), physOf_of_lt (by omega)]
  | true =>
    rw [virtOf, if_pos rfl, wrap64_of_lt (by omega), physOf_of_ge (by omega)]
    omega

theorem IsFrame.physOf_virtOf {a k : Nat} (ha : IsFrame a) (hh : Bool) (hk : k < pageSize) :
    physOf (virtOf hh a + k) = a + k := by
  apply CrapOs.physOf_virtOf
  have hal := ha.aligned
  have hw := ha.window
  rw [directMapWindow_eq] at hw ⊢
  simp only [pageSize] at hal hk
  omega

theorem IsFrame.lt {a : Nat} (ha : IsFrame a) : a < 2 ^ 64 := by
  have hw := ha.window
  rw [directMapWindow_eq] at hw
  omega

theorem IsFrame.apart {a b : Nat} (ha : IsFrame a) (hb : IsFrame b) (hne : a ≠ b) :
    a + pageSize ≤ b ∨ b + pageSize ≤ a := by
  have h1 := ha.aligned
  have h2 := hb.aligned
  simp only [pageSize] at h1 h2 ⊢
  omega

theorem and_pageMask {x : Nat} (hx : x < 2 ^ 64) : x &&& pageMask = pageSize * (x / pageSize) :=
  and_not64_lowMask (k := 12) hx (by decide)

theorem frame_or_and_pageMask {a f : Nat} (ha : IsFrame a) (hf : f < pageSize) :
    (a ||| f) &&& pageMask = a := by
  have hal := ha.aligned
  have hlt := ha.lt
  have hdvd : 2 ^ 12 ∣ a := Nat.dvd_of_mod_eq_zero hal
  rw [or_eq_add_of_dvd hdvd hf, and_pageMask (by simp only [pageSize] at hf hal; omega)]
  simp only [pageSize] at hf hal ⊢
  omega

end CrapOs
