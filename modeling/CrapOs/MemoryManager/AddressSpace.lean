import CrapOs.MemoryManager.Manager
import CrapOs.MemoryManager.TableForest

/-! # User address spaces

`AddressSpace.init` takes a frame for a new PML4, copies the upper half of the
kernel's into it and maps a stack of four fresh pages right below a fixed
address.
-/

namespace CrapOs

open Foundation

structure AddressSpace where
  pml4Phys : Nat
  userStackTop : Nat
  userStackPages : Nat
deriving DecidableEq, Repr

namespace AddressSpace

def defaultStackPages : Nat := 4
def defaultStackTop : Nat := 0x7FFFFFFF0000

def copyWords (s : Phys) (kernelPml4 pml4 n : Nat) : Phys :=
  (List.range' 256 n).foldl (fun s i => s.store (pml4 + 8 * i) (s.load (kernelPml4 + 8 * i))) s

def fillPml4 (s : Phys) (kernelPml4Phys pml4Phys : Nat) : Phys :=
  let pml4 := virtOf true pml4Phys
  let s := zeroWords s pml4 512
  copyWords s (virtOf true kernelPml4Phys) pml4 256

def stackFlags : Nat := Flag.present ||| Flag.writable ||| Flag.user ||| Flag.nx

def stackPage (i : Nat) : Nat := defaultStackTop - (i + 1) * pageSize

def mapStack (pml4Phys : Nat) : Nat → Nat → MemoryManager → Except Halt MemoryManager
  | 0, _, mm => .ok mm
  | count + 1, i, mm => do
    match mm.allocPage with
    | (none, _) => .error (.panic "[CRITICAL] OOM allocating user stack page")
    | (some phys, mm) =>
      let mm ← mm.mapPage pml4Phys (stackPage i) phys stackFlags
      mapStack pml4Phys count (i + 1) mm

def init (mm : MemoryManager) (kernelPml4Phys : Nat) :
    Except Halt (AddressSpace × MemoryManager) := do
  match mm.allocPage with
  | (none, _) => .error (.panic "[CRITICAL] OOM allocating user PML4")
  | (some pml4Phys, mm) =>
    let mm := { mm with phys := fillPml4 mm.phys kernelPml4Phys pml4Phys }
    let mm ← mapStack pml4Phys defaultStackPages 0 mm
    pure (⟨pml4Phys, defaultStackTop, defaultStackPages⟩, mm)

def fromExisting (kernelPml4Phys : Nat) : AddressSpace :=
  ⟨kernelPml4Phys, defaultStackTop, defaultStackPages⟩

variable {s : Phys} {k f : Nat}

theorem copyWords_zero (s : Phys) (k f : Nat) : copyWords s k f 0 = s := rfl

theorem copyWords_succ (s : Phys) (k f n : Nat) :
    copyWords s k f (n + 1) = (copyWords s k f n).store (f + 8 * (256 + n))
      ((copyWords s k f n).load (k + 8 * (256 + n))) := by
  rw [copyWords, List.range'_1_concat, List.foldl_append]
  rfl

/-- The copying loop sets the entries it has passed and nothing else. -/
theorem copyWords_spec (hk : IsFrame k) (hf : IsFrame f) (hne : k ≠ f) {n : Nat} (hn : n ≤ 256) :
    (copyWords s (virtOf true k) (virtOf true f) n).pmm = s.pmm ∧
      (∀ t i, IsFrame t → t ≠ f → tableEntry (copyWords s (virtOf true k) (virtOf true f) n).mem t i =
        tableEntry s.mem t i) ∧
      ∀ i : Fin 512, tableEntry (copyWords s (virtOf true k) (virtOf true f) n).mem f i =
        if 256 ≤ i.val ∧ i.val < 256 + n then tableEntry s.mem k i else tableEntry s.mem f i := by
  induction n with
  | zero =>
    rw [copyWords_zero]
    refine ⟨rfl, fun _ _ _ _ => rfl, fun i => ?_⟩
    rw [if_neg (by omega)]
  | succ n ih =>
    obtain ⟨hpmm, hother, hself⟩ := ih (by omega)
    rw [copyWords_succ]
    generalize copyWords s (virtOf true k) (virtOf true f) n = s1 at hpmm hother hself ⊢
    -- the entry this iteration copies
    obtain ⟨j, hj⟩ : ∃ j : Fin 512, j.val = 256 + n := ⟨⟨256 + n, by omega⟩, rfl⟩
    rw [← hj, load_slot hk, hother k j hk hne, store_slot hf, Phys.store_pmm]
    refine ⟨hpmm, fun t i ht htf => ?_, fun i => ?_⟩
    · rw [tableEntry_write_other _ _ ht hf (fun h => htf h.1), hother t i ht htf]
    · by_cases hij : i = j
      · rw [hij, tableEntry_write_same _ _ _ (tableEntry_lt _ _ _), if_pos (by omega)]
      · have hval : i.val ≠ 256 + n := fun h => hij (Fin.ext (h.trans hj.symm))
        rw [tableEntry_write_other _ _ hf hf (fun h => hij h.2), hself i]
        by_cases hin : 256 ≤ i.val ∧ i.val < 256 + n
        · rw [if_pos hin, if_pos (by omega)]
        · rw [if_neg hin, if_neg (by omega)]

theorem fillPml4_spec (hk : IsFrame k) (hf : IsFrame f) (hne : k ≠ f) :
    (fillPml4 s k f).pmm = s.pmm ∧
      (∀ t i, IsFrame t → t ≠ f → tableEntry (fillPml4 s k f).mem t i = tableEntry s.mem t i) ∧
      (∀ i : Fin 512, i.val < 256 → tableEntry (fillPml4 s k f).mem f i = 0) ∧
      ∀ i : Fin 512, 256 ≤ i.val → tableEntry (fillPml4 s k f).mem f i = tableEntry s.mem k i := by
  obtain ⟨hpmm, hmem⟩ := zeroWords_spec (s := s) hf true (Nat.le_refl 512)
  unfold fillPml4
  simp only
  generalize zeroWords s (virtOf true f) 512 = s1 at hpmm hmem ⊢
  have hother : ∀ t i, IsFrame t → t ≠ f → tableEntry s1.mem t i = tableEntry s.mem t i := by
    intro t i ht htf
    refine tableEntry_congr (fun x hl hu => ?_) i
    have hap := hf.apart ht (Ne.symm htf)
    simp only [pageSize] at hap hu
    rw [hmem, if_neg (by omega)]
  have hzero : ∀ i : Fin 512, tableEntry s1.mem f i = 0 := by
    intro i
    apply Mem.read64_of_zero
    intro x hl hu
    have hi := i.isLt
    rw [hmem, if_pos (by omega)]
  obtain ⟨hpmm2, hother2, hself2⟩ := copyWords_spec (s := s1) hk hf hne (Nat.le_refl 256)
  refine ⟨hpmm2.trans hpmm, fun t i ht htf => (hother2 t i ht htf).trans (hother t i ht htf),
    fun i hi => ?_, fun i hi => ?_⟩
  · rw [hself2, if_neg (by omega), hzero]
  · have hlt := i.isLt
    rw [hself2, if_pos (by omega), hother k i hk hne]

theorem fillPml4_freeStack {stack : List Nat} (h : FreeStack s stack) (hk : IsFrame k)
    (hf : IsFrame f) (hne : k ≠ f) (hoff : f ∉ stack) : FreeStack (fillPml4 s k f) stack := by
  obtain ⟨hpmm, hother, -, -⟩ := fillPml4_spec (s := s) hk hf hne
  have hlink : ∀ a ∈ stack, (fillPml4 s k f).mem.read64 a = s.mem.read64 a := fun a ha =>
    hother a 0 (h.frames a ha) (fun heq => hoff (heq ▸ ha))
  refine ⟨?_, h.links.congr hlink, h.frames, h.nodup, ?_⟩
  · rw [hpmm]
    exact h.head
  · rw [hpmm]
    exact h.count

end AddressSpace

end CrapOs
