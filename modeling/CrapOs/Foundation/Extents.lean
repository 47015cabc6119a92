import Mathlib.Data.List.Pairwise
import Mathlib.Algebra.BigOperators.Group.List.Basic
import Mathlib.Algebra.Order.Ring.Nat

/-! # Sorted extents with coalescing

An address-ordered list of half-open extents, the insertion that merges an
extent with touching neighbours, and the first-fit removal. `Separated` is the
canonical form: extents are increasing and no two of them even touch.
-/

namespace Foundation

structure Extent where
  start : Nat
  size : Nat
deriving DecidableEq, Repr

namespace Extent

def stop (b : Extent) : Nat := b.start + b.size

def Has (b : Extent) (x : Nat) : Prop := b.start ≤ x ∧ x < b.stop

def Apart (b c : Extent) : Prop := b.stop ≤ c.start ∨ c.stop ≤ b.start

instance (b c : Extent) : Decidable (b.Apart c) := inferInstanceAs (Decidable (_ ∨ _))

theorem Apart.symm {b c : Extent} (h : b.Apart c) : c.Apart b := Or.symm h

theorem apart_iff {b c : Extent} (hb : 0 < b.size) (hc : 0 < c.size) :
    b.Apart c ↔ ∀ x, b.Has x → ¬ c.Has x := by
  simp only [Apart, Has, stop]
  constructor
  · intro h x hx hx'
    omega
  · intro h
    have h1 := h (max b.start c.start)
    omega

end Extent

namespace Extents

open Extent

def Covers (bs : List Extent) (x : Nat) : Prop := ∃ b ∈ bs, b.Has x

/-- Increasing, with at least one address between neighbours. -/
def Separated (bs : List Extent) : Prop := bs.Pairwise (fun b c => b.stop < c.start)

def total (bs : List Extent) : Nat := (bs.map Extent.size).sum

/-- Put `b` in front, merging it with the first extent if they touch. -/
def attach (b : Extent) : List Extent → List Extent
  | [] => [b]
  | c :: rest => if b.stop = c.start then ⟨b.start, b.size + c.size⟩ :: rest else b :: c :: rest

def insert (x : Extent) : List Extent → List Extent
  | [] => [x]
  | b :: rest => if b.start < x.start then attach b (insert x rest) else attach x (b :: rest)

/-- Remove the first extent of at least `n` addresses. -/
def takeFit (n : Nat) : List Extent → Option (Extent × List Extent)
  | [] => none
  | b :: rest =>
    if n ≤ b.size then some (b, rest)
    else (takeFit n rest).map (fun r => (r.1, b :: r.2))

@[simp] theorem total_nil : total [] = 0 := rfl

@[simp] theorem total_cons (b : Extent) (bs : List Extent) :
    total (b :: bs) = b.size + total bs := by
  simp [total]

@[simp] theorem total_append (bs cs : List Extent) : total (bs ++ cs) = total bs + total cs := by
  simp [total]

variable {b : Extent} {bs : List Extent} {hi lo n : Nat} {x : Extent}

theorem total_perm {cs : List Extent} (h : bs.Perm cs) : total bs = total cs :=
  (h.map Extent.size).sum_eq

@[simp] theorem covers_nil (x : Nat) : ¬ Covers [] x := by simp [Covers]

@[simp] theorem covers_cons (b : Extent) (bs : List Extent) (x : Nat) :
    Covers (b :: bs) x ↔ b.Has x ∨ Covers bs x := by
  simp [Covers]

theorem covers_append (bs cs : List Extent) (x : Nat) :
    Covers (bs ++ cs) x ↔ Covers bs x ∨ Covers cs x := by
  simp only [Covers, List.mem_append]
  constructor
  · rintro ⟨b, hb | hb, hx⟩
    · exact Or.inl ⟨b, hb, hx⟩
    · exact Or.inr ⟨b, hb, hx⟩
  · rintro (⟨b, hb, hx⟩ | ⟨b, hb, hx⟩)
    · exact ⟨b, Or.inl hb, hx⟩
    · exact ⟨b, Or.inr hb, hx⟩

theorem separated_cons :
    Separated (b :: bs) ↔ (∀ c ∈ bs, b.stop < c.start) ∧ Separated bs := List.pairwise_cons

theorem total_attach (b : Extent) (bs : List Extent) : total (attach b bs) = b.size + total bs := by
  cases bs with
  | nil => simp [attach]
  | cons c rest =>
    rw [attach]
    split
    · simp [Nat.add_assoc]
    · simp

theorem covers_attach (b : Extent) (bs : List Extent) (x : Nat) :
    Covers (attach b bs) x ↔ b.Has x ∨ Covers bs x := by
  cases bs with
  | nil => simp [attach]
  | cons c rest =>
    rw [attach]
    split
    · rename_i h
      simp only [covers_cons, Has, stop] at h ⊢
      rw [← or_assoc]
      apply or_congr _ Iff.rfl
      omega
    · simp

theorem forall_attach {P : Extent → Prop}
    (hmerge : ∀ c ∈ bs, b.stop = c.start → P ⟨b.start, b.size + c.size⟩) (hb : P b)
    (hbs : ∀ c ∈ bs, P c) : ∀ c ∈ attach b bs, P c := by
  cases bs with
  | nil => simpa [attach] using hb
  | cons c rest =>
    rw [attach]
    split
    · rename_i h
      intro d hd
      rcases List.mem_cons.mp hd with rfl | hd
      · exact hmerge c List.mem_cons_self h
      · exact hbs d (List.mem_cons_of_mem c hd)
    · intro d hd
      rcases List.mem_cons.mp hd with rfl | hd
      · exact hb
      · exact hbs d hd

theorem separated_attach (hs : Separated bs) (hle : ∀ c ∈ bs, b.stop ≤ c.start) :
    Separated (attach b bs) := by
  cases bs with
  | nil => simp [attach, Separated]
  | cons c rest =>
    obtain ⟨hc, hrest⟩ := separated_cons.mp hs
    have hbc := hle c List.mem_cons_self
    rw [attach]
    split
    · rename_i h
      refine separated_cons.mpr ⟨?_, hrest⟩
      intro d hd
      have hcd := hc d hd
      simp only [stop] at h hcd ⊢
      omega
    · rename_i h
      refine separated_cons.mpr ⟨?_, hs⟩
      intro d hd
      rcases List.mem_cons.mp hd with rfl | hd
      · omega
      · have hcd := hc d hd
        simp only [stop] at hcd h hbc ⊢
        omega

theorem attach_eq_cons (b : Extent) (bs : List Extent) :
    ∃ c rest, attach b bs = c :: rest ∧ c.start = b.start := by
  cases bs with
  | nil => exact ⟨b, [], rfl, rfl⟩
  | cons c rest =>
    rw [attach]
    split
    · exact ⟨_, rest, rfl, rfl⟩
    · exact ⟨b, c :: rest, rfl, rfl⟩

theorem attach_of_lt (h : ∀ c ∈ bs, b.stop < c.start) :
    attach b bs = b :: bs := by
  cases bs with
  | nil => rfl
  | cons c rest =>
    have hc := h c List.mem_cons_self
    rw [attach, if_neg (by omega)]

theorem total_insert (x : Extent) (bs : List Extent) : total (insert x bs) = x.size + total bs := by
  induction bs with
  | nil => simp [insert]
  | cons b rest ih =>
    rw [insert]
    split
    · rw [total_attach, ih, total_cons]
      omega
    · rw [total_attach]

theorem covers_insert (x : Extent) (bs : List Extent) (y : Nat) :
    Covers (insert x bs) y ↔ x.Has y ∨ Covers bs y := by
  induction bs with
  | nil => simp [insert]
  | cons b rest ih =>
    rw [insert]
    split
    · rw [covers_attach, ih, covers_cons]
      tauto
    · rw [covers_attach]

theorem forall_insert {P : Extent → Prop}
    (hmerge : ∀ b c, P b → P c → b.stop = c.start → P ⟨b.start, b.size + c.size⟩) (hx : P x)
    (hbs : ∀ b ∈ bs, P b) : ∀ c ∈ insert x bs, P c := by
  induction bs with
  | nil => simpa [insert] using hx
  | cons b rest ih =>
    have hb := hbs b List.mem_cons_self
    have hrest := ih (fun c hc => hbs c (List.mem_cons_of_mem b hc))
    rw [insert]
    split
    · exact forall_attach (fun c hc => hmerge b c hb (hrest c hc)) hb hrest
    · exact forall_attach (fun c hc => hmerge x c hx (hbs c hc)) hx hbs

theorem insert_start_ge (hx : lo ≤ x.start) (hbs : ∀ b ∈ bs, lo ≤ b.start) :
    ∀ c ∈ insert x bs, lo ≤ c.start :=
  forall_insert (fun _ _ hb _ _ => hb) hx hbs

theorem insert_stop_le (hx : x.stop ≤ hi) (hbs : ∀ b ∈ bs, b.stop ≤ hi) :
    ∀ c ∈ insert x bs, c.stop ≤ hi := by
  refine forall_insert (fun b c _ hc h => ?_) hx hbs
  simp only [stop] at h hc ⊢
  omega

theorem insert_size_ge {k : Nat} (hx : k ≤ x.size) (hbs : ∀ b ∈ bs, k ≤ b.size) :
    ∀ c ∈ insert x bs, k ≤ c.size :=
  forall_insert (fun _ _ hb _ _ => Nat.le_trans hb (Nat.le_add_right _ _)) hx hbs

theorem separated_insert (hs : Separated bs) (hx : 0 < x.size) (hpos : ∀ b ∈ bs, 0 < b.size)
    (hap : ∀ b ∈ bs, b.Apart x) :
    Separated (insert x bs) := by
  induction bs with
  | nil => simp [insert, Separated]
  | cons b rest ih =>
    obtain ⟨hb, hrest⟩ := separated_cons.mp hs
    have hbx := hap b List.mem_cons_self
    have hbpos := hpos b List.mem_cons_self
    rw [insert]
    split
    · rename_i hlt
      have hle : b.stop ≤ x.start := by
        simp only [Apart, stop] at hbx ⊢
        omega
      apply separated_attach
      · exact ih hrest (fun c hc => hpos c (List.mem_cons_of_mem b hc))
          (fun c hc => hap c (List.mem_cons_of_mem b hc))
      · exact insert_start_ge hle (fun c hc => Nat.le_of_lt (hb c hc))
    · rename_i hge
      apply separated_attach hs
      have hxb : x.stop ≤ b.start := by
        simp only [Apart, stop] at hbx ⊢
        omega
      intro c hc
      rcases List.mem_cons.mp hc with rfl | hc
      · exact hxb
      · have hbc := hb c hc
        simp only [stop] at hbc hxb ⊢
        omega

theorem insert_split {init post : List Extent} (hs : Separated (init ++ b :: post))
    (hb : b.start < x.start) (hpost : ∀ c ∈ post, x.start ≤ c.start) :
    insert x (init ++ b :: post) = init ++ attach b (attach x post) := by
  have hattach : insert x post = attach x post := by
    cases post with
    | nil => rfl
    | cons c rest =>
      have hc := hpost c List.mem_cons_self
      rw [insert, if_neg (by omega)]
  induction init with
  | nil => rw [List.nil_append, insert, if_pos hb, hattach, List.nil_append]
  | cons c init ih =>
    obtain ⟨hc, hs⟩ := separated_cons.mp hs
    have hcb : c.stop < b.start := hc b (by simp)
    have hcx : c.start < x.start := by simp only [stop] at hcb; omega
    rw [List.cons_append, insert, if_pos hcx, List.cons_append, ← ih hs]
    apply attach_of_lt
    apply insert_start_ge
    · simp only [stop] at hcb ⊢
      omega
    · exact hc

theorem insert_front {post : List Extent} (hpost : ∀ c ∈ post, x.start ≤ c.start) :
    insert x post = attach x post := by
  cases post with
  | nil => rfl
  | cons c rest =>
    have hc := hpost c List.mem_cons_self
    rw [insert, if_neg (by omega)]

theorem apart_of_not_covers (hx : 0 < x.size) (hpos : ∀ b ∈ bs, 0 < b.size)
    (h : ∀ y, x.Has y → ¬ Covers bs y) : ∀ b ∈ bs, b.Apart x :=
  fun b hb => ((apart_iff hx (hpos b hb)).mpr fun y hy hyb => h y hy ⟨b, hb, hyb⟩).symm

theorem exists_size_ge_insert (x : Extent) (bs : List Extent) :
    ∃ b ∈ insert x bs, x.size ≤ b.size := by
  have hattach : ∀ (a : Extent) (cs : List Extent) (n : Nat),
      (n ≤ a.size ∨ ∃ c ∈ cs, n ≤ c.size) → ∃ c ∈ attach a cs, n ≤ c.size := by
    intro a cs n h
    cases cs with
    | nil => exact ⟨a, by simp [attach], by simpa using h⟩
    | cons c rest =>
      rw [attach]
      split
      · rcases h with h | ⟨d, hd, h⟩
        · exact ⟨_, List.mem_cons_self, Nat.le_trans h (Nat.le_add_right _ _)⟩
        · rcases List.mem_cons.mp hd with rfl | hd
          · exact ⟨_, List.mem_cons_self, Nat.le_trans h (Nat.le_add_left _ _)⟩
          · exact ⟨d, List.mem_cons_of_mem _ hd, h⟩
      · rcases h with h | ⟨d, hd, h⟩
        · exact ⟨a, List.mem_cons_self, h⟩
        · exact ⟨d, List.mem_cons_of_mem a hd, h⟩
  induction bs with
  | nil => exact ⟨x, by simp [insert], Nat.le_refl _⟩
  | cons b rest ih =>
    rw [insert]
    split
    · exact hattach b _ _ (.inr ih)
    · exact hattach x _ _ (.inl (Nat.le_refl _))

theorem takeFit_eq_none :
    takeFit n bs = none ↔ ∀ b ∈ bs, b.size < n := by
  induction bs with
  | nil => simp [takeFit]
  | cons b rest ih =>
    rw [takeFit]
    split
    · rename_i h
      simp only [reduceCtorEq, List.mem_cons, forall_eq_or_imp, false_iff, not_and]
      omega
    · rename_i h
      simp only [Option.map_eq_none_iff, ih, List.mem_cons, forall_eq_or_imp]
      constructor
      · intro hr
        exact ⟨by omega, hr⟩
      · exact fun hr => hr.2

theorem isSome_takeFit :
    (takeFit n bs).isSome ↔ ∃ b ∈ bs, n ≤ b.size := by
  rw [← Option.ne_none_iff_isSome, ne_eq, takeFit_eq_none]
  simp only [not_forall, Nat.not_lt, exists_prop]

theorem takeFit_eq_some {rest : List Extent} (h : takeFit n bs = some (b, rest)) :
    ∃ pre post, bs = pre ++ b :: post ∧ rest = pre ++ post ∧ n ≤ b.size ∧
      ∀ c ∈ pre, c.size < n := by
  induction bs generalizing rest with
  | nil => simp [takeFit] at h
  | cons c cs ih =>
    rw [takeFit] at h
    split at h
    · rename_i hfit
      cases h
      exact ⟨[], cs, rfl, rfl, hfit, by simp⟩
    · rename_i hsmall
      cases hr : takeFit n cs with
      | none => simp [hr] at h
      | some r =>
        rw [hr] at h
        obtain ⟨rfl, rfl⟩ := h
        obtain ⟨pre, post, hcs, hrest, hfit, hpre⟩ := ih hr
        refine ⟨c :: pre, post, by simp [hcs], by simp [hrest], hfit, ?_⟩
        intro d hd
        rcases List.mem_cons.mp hd with rfl | hd
        · omega
        · exact hpre d hd

theorem total_le (hs : Separated bs) (hlo : ∀ b ∈ bs, lo ≤ b.start) (hhi : ∀ b ∈ bs, b.stop ≤ hi) :
    total bs ≤ hi - lo := by
  induction bs generalizing lo with
  | nil => simp
  | cons b rest ih =>
    obtain ⟨hb, hrest⟩ := separated_cons.mp hs
    have hr := ih hrest (fun c hc => Nat.le_of_lt (hb c hc))
      (fun c hc => hhi c (List.mem_cons_of_mem b hc))
    have h1 := hlo b List.mem_cons_self
    have h2 := hhi b List.mem_cons_self
    simp only [total_cons, stop] at hr h2 ⊢
    omega

theorem eq_singleton_of_total (hs : Separated bs) (hlo : ∀ b ∈ bs, lo ≤ b.start)
    (hhi : ∀ b ∈ bs, b.stop ≤ hi) (hlt : lo < hi) (htotal : total bs = hi - lo) :
    bs = [⟨lo, hi - lo⟩] := by
  cases bs with
  | nil => simp at htotal; omega
  | cons b rest =>
    obtain ⟨hb, hrest⟩ := separated_cons.mp hs
    have h1 := hlo b List.mem_cons_self
    have h2 := hhi b List.mem_cons_self
    cases rest with
    | nil =>
      simp only [total_cons, total_nil, stop] at htotal h2
      have hstart : b.start = lo := by omega
      cases b
      simp_all
    | cons c rest =>
      have hr : total (c :: rest) ≤ hi - (b.stop + 1) :=
        total_le hrest (fun d hd => hb d hd) (fun d hd => hhi d (List.mem_cons_of_mem b hd))
      have hc := hb c List.mem_cons_self
      have hc' := hhi c (by simp)
      rw [total_cons] at htotal
      simp only [stop] at h2 hr hc hc'
      omega

theorem length_mul_le_total {k : Nat} (h : ∀ b ∈ bs, k ≤ b.size) :
    k * bs.length ≤ total bs := by
  induction bs with
  | nil => simp
  | cons b rest ih =>
    have hb := h b List.mem_cons_self
    have hr := ih (fun c hc => h c (List.mem_cons_of_mem b hc))
    rw [List.length_cons, total_cons, Nat.mul_succ]
    omega

end Extents

end Foundation
