import CrapOs.MemoryManager.Heap.Allocator

/-! # The free list in memory

`Threaded` relates the nodes in the free blocks to a list of extents, and
`insertFreeBlockSorted` is the coalescing insertion on that list.
-/

namespace CrapOs

open Foundation Extents

/-- Following the next pointers from `p` visits exactly the blocks `bs`, with
their sizes, and arrives at `q`. -/
structure Threaded (m : Mem) (p : Nat) (bs : List Extent) (q : Nat) : Prop where
  links : Seg (fun a => m.read64 (a + 8)) p (bs.map Extent.start) q
  sizes : ∀ b ∈ bs, m.read64 b.start = b.size

variable {m m' : Mem} {p q r : Nat} {x b c : Extent} {bs cs : List Extent}

theorem threaded_nil : Threaded m p [] q ↔ p = q := by
  constructor
  · exact fun h => h.links
  · exact fun h => ⟨h, by simp⟩

theorem threaded_cons : Threaded m p (b :: bs) q ↔
    p = b.start ∧ m.read64 b.start = b.size ∧ Threaded m (m.read64 (b.start + 8)) bs q := by
  constructor
  · rintro ⟨⟨hp, hlinks⟩, hsizes⟩
    exact ⟨hp, hsizes b List.mem_cons_self, hlinks,
      fun c hc => hsizes c (List.mem_cons_of_mem b hc)⟩
  · rintro ⟨hp, hsize, hlinks, hsizes⟩
    refine ⟨⟨hp, hlinks⟩, fun c hc => ?_⟩
    rcases List.mem_cons.mp hc with rfl | hc
    · exact hsize
    · exact hsizes c hc

theorem threaded_append : Threaded m p (bs ++ cs) q ↔
    ∃ r, Threaded m p bs r ∧ Threaded m r cs q := by
  constructor
  · rintro ⟨hlinks, hsizes⟩
    rw [List.map_append, seg_append] at hlinks
    obtain ⟨r, hbs, hcs⟩ := hlinks
    exact ⟨r, ⟨hbs, fun b hb => hsizes b (List.mem_append_left cs hb)⟩,
      hcs, fun b hb => hsizes b (List.mem_append_right bs hb)⟩
  · rintro ⟨r, ⟨hbs, hsbs⟩, hcs, hscs⟩
    refine ⟨?_, fun b hb => ?_⟩
    · rw [List.map_append, seg_append]
      exact ⟨r, hbs, hcs⟩
    · rcases List.mem_append.mp hb with hb | hb
      · exact hsbs b hb
      · exact hscs b hb

theorem Threaded.congr (h : Threaded m p bs q)
    (hag : ∀ b ∈ bs, Mem.AgreeOn m m' b.start freeBlockSize) : Threaded m' p bs q where
  links := by
    apply h.links.congr
    intro a ha
    obtain ⟨b, hb, rfl⟩ := List.mem_map.mp ha
    exact Mem.read64_congr ((hag b hb).mono (by omega) (by simp only [freeBlockSize]; omega))
  sizes b hb := by
    rw [← h.sizes b hb]
    exact Mem.read64_congr ((hag b hb).mono (Nat.le_refl _) (by simp only [freeBlockSize]; omega))

theorem Threaded.head (h : Threaded m p bs q) : p = (bs.head?.map Extent.start).getD q := by
  cases bs with
  | nil => exact threaded_nil.mp h
  | cons b bs => exact (threaded_cons.mp h).1

/-- Blocks large enough for a node, in order, apart and inside `[lo, hi)`. -/
structure Tidy (lo hi : Nat) (bs : List Extent) : Prop where
  separated : Separated bs
  size_ge : ∀ b ∈ bs, freeBlockSize ≤ b.size
  start_ge : ∀ b ∈ bs, lo ≤ b.start
  stop_le : ∀ b ∈ bs, b.stop ≤ hi

variable {lo hi : Nat}

theorem Tidy.size_pos (h : Tidy lo hi bs) : ∀ b ∈ bs, 0 < b.size :=
  fun b hb => Nat.lt_of_lt_of_le (by decide) (h.size_ge b hb)

theorem Tidy.insert (h : Tidy lo hi bs) (hsize : freeBlockSize ≤ x.size) (hlo : lo ≤ x.start)
    (hhi : x.stop ≤ hi) (hap : ∀ b ∈ bs, b.Apart x) : Tidy lo hi (Extents.insert x bs) where
  separated := separated_insert h.separated (Nat.lt_of_lt_of_le (by decide) hsize) h.size_pos hap
  size_ge := insert_size_ge hsize h.size_ge
  start_ge := insert_start_ge hlo h.start_ge
  stop_le := insert_stop_le hhi h.stop_le

theorem Tidy.attach (h : Tidy lo hi bs) (hsize : freeBlockSize ≤ x.size) (hlo : lo ≤ x.start)
    (hhi : x.stop ≤ hi) (hafter : ∀ b ∈ bs, x.stop ≤ b.start) : Tidy lo hi (attach x bs) := by
  have hfront : ∀ b ∈ bs, x.start ≤ b.start := fun b hb =>
    Nat.le_trans (Nat.le_add_right _ _) (hafter b hb)
  rw [← Extents.insert_front hfront]
  exact h.insert hsize hlo hhi (fun b hb => .inr (hafter b hb))

theorem Tidy.mono {hi' : Nat} (h : Tidy lo hi bs) (hle : hi ≤ hi') : Tidy lo hi' bs :=
  ⟨h.separated, h.size_ge, h.start_ge, fun b hb => Nat.le_trans (h.stop_le b hb) hle⟩

theorem Tidy.sublist (h : Tidy lo hi bs) (hsub : cs.Sublist bs) : Tidy lo hi cs where
  separated := List.Pairwise.sublist hsub h.separated
  size_ge b hb := h.size_ge b (hsub.subset hb)
  start_ge b hb := h.start_ge b (hsub.subset hb)
  stop_le b hb := h.stop_le b (hsub.subset hb)

theorem Tidy.length_le (h : Tidy lo hi bs) : bs.length ≤ (hi - lo) / freeBlockSize := by
  have hcount := length_mul_le_total h.size_ge
  have htotal := total_le h.separated h.start_ge h.stop_le
  rw [Nat.le_div_iff_mul_le (by decide), Nat.mul_comm]
  omega

variable {a n next : Nat}

theorem read_node (m : Mem) (a : Nat) {size : Nat} (hsize : size < 2 ^ 64) (hnext : next < 2 ^ 64) :
    let m' := (m.write64 a size).write64 (a + 8) next
    m'.read64 a = size ∧ m'.read64 (a + 8) = next := by
  refine ⟨?_, Mem.read64_write64_same _ _ hnext⟩
  rw [Mem.read64_write64_disjoint _ (by omega), Mem.read64_write64_same _ _ hsize]

theorem write_node_agreeOn {size : Nat} (h : a + freeBlockSize ≤ p ∨ p + n ≤ a) :
    Mem.AgreeOn m ((m.write64 a size).write64 (a + 8) next) p n := by
  simp only [freeBlockSize] at h
  exact (Mem.write64_agreeOn _ (by omega)).trans (Mem.write64_agreeOn _ (by omega))

theorem off_node (hsize : freeBlockSize ≤ x.size) {y : Nat} (hy : ¬ x.Has y) :
    x.start + freeBlockSize ≤ y ∨ y + 1 ≤ x.start := by
  simp only [Extent.Has, Extent.stop] at hy
  omega

theorem absorb_agreeOn (h : a + freeBlockSize ≤ p ∨ p + n ≤ a) :
    Mem.AgreeOn m (absorb m a q) p n := by
  unfold absorb
  split
  · exact write_node_agreeOn h
  · exact Mem.AgreeOn.refl m p n

/-- Merging the first block with the second one, if they touch. -/
theorem Threaded.absorb (h : Threaded m x.start (x :: c :: bs) q)
    (hafter : ∀ d ∈ c :: bs, x.start + freeBlockSize ≤ d.start) (hx : x.stop < 2 ^ 64)
    (hc : c.stop < 2 ^ 64) :
    Threaded (CrapOs.absorb m x.start c.start) x.start (attach x (c :: bs)) q := by
  obtain ⟨-, hsize, htail⟩ := threaded_cons.mp h
  obtain ⟨hlink, hcsize, hrest⟩ := threaded_cons.mp htail
  simp only [Extent.stop] at hx hc
  have hap := hafter c List.mem_cons_self
  have hkeep : ∀ d ∈ c :: bs, Mem.AgreeOn m (CrapOs.absorb m x.start c.start) d.start
      freeBlockSize := fun d hd => absorb_agreeOn (.inl (hafter d hd))
  rw [attach]
  by_cases htouch : x.stop = c.start
  · have hcond : wrap64 (x.start + m.read64 x.start) = c.start := by
      rw [hsize, wrap64_of_lt hx]
      exact htouch
    have hsum : wrap64 (m.read64 x.start + m.read64 c.start) = x.size + c.size := by
      simp only [Extent.stop] at htouch
      rw [hsize, hcsize, wrap64_of_lt (by omega)]
    have hnext : (m.write64 x.start (x.size + c.size)).read64 (c.start + 8) =
        m.read64 (c.start + 8) := by
      exact Mem.read64_write64_disjoint _ (by omega)
    have heq : CrapOs.absorb m x.start c.start =
        (m.write64 x.start (x.size + c.size)).write64 (x.start + 8) (m.read64 (c.start + 8)) := by
      rw [CrapOs.absorb, if_pos hcond]
      simp only [hsum, hnext]
    rw [if_pos htouch, threaded_cons]
    simp only [Extent.stop] at htouch
    have hlt : x.size + c.size < 2 ^ 64 := by omega
    obtain ⟨hnew, hnewLink⟩ := read_node m x.start hlt (m.read64_lt (c.start + 8))
    rw [← heq] at hnew hnewLink
    refine ⟨rfl, hnew, ?_⟩
    rw [hnewLink]
    exact hrest.congr (fun d hd => hkeep d (List.mem_cons_of_mem c hd))
  · have hcond : ¬ wrap64 (x.start + m.read64 x.start) = c.start := by
      rw [hsize, wrap64_of_lt hx]
      exact htouch
    rw [if_neg htouch, CrapOs.absorb, if_neg hcond]
    exact h

theorem Threaded.forward (h : Threaded m x.start (x :: bs) 0)
    (hnext : next = (bs.head?.map Extent.start).getD 0) (hnz : ∀ d ∈ bs, d.start ≠ 0)
    (hafter : ∀ d ∈ bs, x.start + freeBlockSize ≤ d.start) (hx : x.stop < 2 ^ 64)
    (hbs : ∀ d ∈ bs, d.stop < 2 ^ 64) :
    Threaded (if next ≠ 0 then CrapOs.absorb m x.start next else m) x.start (attach x bs) 0 := by
  cases bs with
  | nil =>
    rw [if_neg (by simp [hnext])]
    exact h
  | cons c bs =>
    have heq : next = c.start := hnext
    rw [if_pos (heq ▸ hnz c List.mem_cons_self), heq]
    exact h.absorb hafter hx (hbs c List.mem_cons_self)

theorem forward_agreeOn (h : a + freeBlockSize ≤ p ∨ p + n ≤ a) :
    Mem.AgreeOn m (if next ≠ 0 then absorb m a next else m) p n := by
  split
  · exact absorb_agreeOn h
  · exact Mem.AgreeOn.refl m p n

/-! ## Insertion -/

def lastStart (pre : List Extent) (default : Nat) : Nat :=
  (pre.getLast?.map Extent.start).getD default

@[simp] theorem lastStart_nil (p : Nat) : lastStart [] p = p := rfl

@[simp] theorem lastStart_concat (bs : List Extent) (b : Extent) (p : Nat) :
    lastStart (bs ++ [b]) p = b.start := by
  simp [lastStart]

theorem lastStart_cons (b : Extent) (bs : List Extent) (p : Nat) :
    lastStart (b :: bs) p = lastStart bs b.start := by
  unfold lastStart
  rw [List.getLast?_cons]
  cases bs.getLast? <;> rfl

theorem findPosition_spec {fuel : Nat} (prev ptr : Nat) (h : Threaded m p bs 0)
    (hnz : ∀ b ∈ bs, b.start ≠ 0) (hsep : Separated bs) (hfuel : bs.length < fuel) :
    ∃ pre post, bs = pre ++ post ∧ (∀ b ∈ pre, b.start < ptr) ∧ (∀ b ∈ post, ptr ≤ b.start) ∧
      findPosition m ptr fuel prev p =
        .ok (lastStart pre prev, (post.head?.map Extent.start).getD 0) := by
  induction bs generalizing p prev fuel with
  | nil =>
    obtain rfl := threaded_nil.mp h
    cases fuel with
    | zero => simp at hfuel
    | succ fuel => exact ⟨[], [], rfl, by simp, by simp, by simp [findPosition]⟩
  | cons b bs ih =>
    obtain ⟨rfl, -, htail⟩ := threaded_cons.mp h
    obtain ⟨hb, hsep⟩ := separated_cons.mp hsep
    have hb0 := hnz b List.mem_cons_self
    cases fuel with
    | zero => simp at hfuel
    | succ fuel =>
      by_cases hlt : b.start < ptr
      · obtain ⟨pre, post, rfl, hpre, hpost, hfind⟩ := ih b.start htail
          (fun c hc => hnz c (List.mem_cons_of_mem b hc)) hsep (Nat.lt_of_succ_lt_succ hfuel)
        refine ⟨b :: pre, post, rfl, ?_, hpost, ?_⟩
        · intro c hc
          rcases List.mem_cons.mp hc with rfl | hc
          · exact hlt
          · exact hpre c hc
        · rw [findPosition, if_pos ⟨hb0, hlt⟩, hfind, lastStart_cons]
      · refine ⟨[], b :: bs, rfl, by simp, ?_, ?_⟩
        · intro c hc
          rcases List.mem_cons.mp hc with rfl | hc
          · omega
          · have hbc := hb c hc
            simp only [Extent.stop] at hbc
            omega
        · rw [findPosition, if_neg (fun h => hlt h.2)]
          rfl

structure Relisted (s s' : HeapState) : Prop where
  base : s'.heap.base = s.heap.base
  maxSize : s'.heap.maxSize = s.heap.maxSize
  committed : s'.heap.committed = s.heap.committed
  manager : s'.manager = s.manager

theorem Relisted.trans {s1 s2 s3 : HeapState} (h : Relisted s1 s2) (h' : Relisted s2 s3) :
    Relisted s1 s3 :=
  ⟨h'.base.trans h.base, h'.maxSize.trans h.maxSize, h'.committed.trans h.committed,
    h'.manager.trans h.manager⟩

theorem Threaded.place (h : Threaded m p bs 0) (hp : p < 2 ^ 64) (hsize : freeBlockSize ≤ x.size)
    (hx : x.stop < 2 ^ 64) (hafter : ∀ d ∈ bs, x.stop ≤ d.start) :
    Threaded ((m.write64 x.start x.size).write64 (x.start + 8) p) x.start (x :: bs) 0 := by
  simp only [Extent.stop] at hx hafter
  have hlt : x.size < 2 ^ 64 := by omega
  obtain ⟨hnode, hlink⟩ := read_node m x.start hlt hp
  refine threaded_cons.mpr ⟨rfl, hnode, ?_⟩
  rw [hlink]
  refine h.congr (fun d hd => write_node_agreeOn (.inl ?_))
  have hd := hafter d hd
  omega

theorem Threaded.insert_front (h : Threaded m p bs 0) (ht : Tidy lo hi bs) (hlo : 0 < lo)
    (hhi : hi < 2 ^ 64) (hsize : freeBlockSize ≤ x.size) (hxhi : x.stop ≤ hi)
    (hafter : ∀ d ∈ bs, x.stop ≤ d.start) {m1 : Mem}
    (hm1 : ∀ d ∈ x :: bs, Mem.AgreeOn ((m.write64 x.start x.size).write64 (x.start + 8) p) m1 d.start
      freeBlockSize) :
    Threaded (if p ≠ 0 then CrapOs.absorb m1 x.start p else m1) x.start (attach x bs) 0 := by
  have hlt : ∀ d ∈ bs, d.stop < 2 ^ 64 := fun d hd => Nat.lt_of_le_of_lt (ht.stop_le d hd) hhi
  have hp : p < 2 ^ 64 := by
    rw [h.head]
    cases bs with
    | nil => decide
    | cons c bs =>
      have hc := hlt c List.mem_cons_self
      simp only [Extent.stop] at hc
      simp only [List.head?_cons, Option.map_some, Option.getD_some]
      omega
  have hplaced := (h.place hp hsize (by omega) hafter).congr hm1
  refine hplaced.forward h.head (fun d hd => ?_) (fun d hd => ?_) (by omega) hlt
  · have hge := ht.start_ge d hd
    omega
  · have hge := hafter d hd
    simp only [Extent.stop] at hge
    omega

theorem spliceBlock_front {s : HeapState} (h : Threaded s.mem p bs 0) (ht : Tidy lo hi bs)
    (hlo : 0 < lo) (hhi : hi < 2 ^ 64) (hsize : freeBlockSize ≤ x.size) (hxhi : x.stop ≤ hi)
    (hafter : ∀ d ∈ bs, x.stop ≤ d.start) :
    let s' := spliceBlock s x.start x.size 0 p
    Threaded s'.mem s'.heap.freeList (attach x bs) 0 ∧ Relisted s s' ∧
      ∀ y, ¬ x.Has y → s'.mem y = s.mem y := by
  simp only [spliceBlock, if_true, ne_eq, not_true_eq_false, if_false]
  refine ⟨h.insert_front ht hlo hhi hsize hxhi hafter (fun d _ => .refl _ _ _),
    ⟨rfl, rfl, rfl, rfl⟩, fun y hy => ?_⟩
  have hout := off_node hsize hy
  exact ((write_node_agreeOn hout).trans (forward_agreeOn hout)) y (Nat.le_refl y) (by omega)

/-- Insertion right behind the block `b`. -/
theorem spliceBlock_after {s : HeapState} (h : Threaded s.mem p bs 0) (ht : Tidy lo hi bs)
    (hlo : 0 < lo) (hhi : hi < 2 ^ 64) (hsize : freeBlockSize ≤ x.size) (hxhi : x.stop ≤ hi)
    (hafter : ∀ d ∈ bs, x.stop ≤ d.start) (hb : s.mem.read64 b.start = b.size) (hblo : lo ≤ b.start)
    (hbsize : freeBlockSize ≤ b.size) (hbx : b.stop ≤ x.start) :
    let s' := spliceBlock s x.start x.size b.start p
    s'.heap.freeList = s.heap.freeList ∧ Threaded s'.mem b.start (attach b (attach x bs)) 0 ∧
      Relisted s s' ∧ ∀ y, ¬ x.Has y → ¬ b.Has y → s'.mem y = s.mem y := by
  have hb0 : b.start ≠ 0 := by omega
  have hgap : b.start + freeBlockSize ≤ x.start := by
    simp only [Extent.stop] at hbx
    omega
  have hxlt : x.start < 2 ^ 64 := by
    simp only [Extent.stop] at hxhi
    omega
  simp only [spliceBlock, ne_eq, hb0, not_false_eq_true, if_true, if_false]
  -- the node for `x`, then the link from `b`, then the two merges
  obtain ⟨m1, hm1⟩ : ∃ m1, (s.mem.write64 x.start x.size).write64 (x.start + 8) p = m1 := ⟨_, rfl⟩
  obtain ⟨m2, hm2⟩ : ∃ m2, m1.write64 (b.start + 8) x.start = m2 := ⟨_, rfl⟩
  obtain ⟨m3, hm3⟩ : ∃ m3, (if p ≠ 0 then absorb m2 x.start p else m2) = m3 := ⟨_, rfl⟩
  have hlink : ∀ a n, b.start + freeBlockSize ≤ a ∨ a + n ≤ b.start → Mem.AgreeOn m1 m2 a n := by
    intro a n han
    rw [← hm2]
    apply Mem.write64_agreeOn
    simp only [freeBlockSize] at han
    omega
  have hfront : Threaded m3 x.start (attach x bs) 0 := by
    rw [← hm3]
    refine h.insert_front ht hlo hhi hsize hxhi hafter (fun d hd => ?_)
    rw [hm1]
    refine hlink _ _ (.inl ?_)
    rcases List.mem_cons.mp hd with rfl | hd
    · exact hgap
    · have hdx := hafter d hd
      simp only [Extent.stop] at hdx
      omega
  have hkeep1 : ∀ a n, x.start + freeBlockSize ≤ a ∨ a + n ≤ x.start → Mem.AgreeOn s.mem m1 a n :=
    fun a n han => hm1 ▸ write_node_agreeOn han
  have hkeep3 : ∀ a n, x.start + freeBlockSize ≤ a ∨ a + n ≤ x.start → Mem.AgreeOn m2 m3 a n :=
    fun a n han => hm3 ▸ forward_agreeOn han
  have hbthread : Threaded m3 b.start (b :: attach x bs) 0 := by
    simp only [freeBlockSize] at hgap hkeep1 hkeep3
    refine threaded_cons.mpr ⟨rfl, ?_, ?_⟩
    · rw [Mem.read64_congr (hkeep3 b.start 8 (.inr (by omega))), ← hm2,
        Mem.read64_write64_disjoint _ (by omega),
        Mem.read64_congr (hkeep1 b.start 8 (.inr (by omega))), hb]
    · rw [Mem.read64_congr (hkeep3 (b.start + 8) 8 (.inr (by omega))), ← hm2,
        Mem.read64_write64_same _ _ hxlt]
      exact hfront
  have htidy : Tidy lo hi (attach x bs) := ht.attach hsize (by omega) hxhi hafter
  have hstart : ∀ d ∈ attach x bs, b.start + freeBlockSize ≤ d.start := by
    refine forall_attach (fun _ _ _ => hgap) hgap (fun d hd => ?_)
    have hdx := hafter d hd
    simp only [Extent.stop] at hdx
    omega
  simp only [hm1, hm2, ne_eq, true_and] at hm3 ⊢
  rw [hm3]
  refine ⟨?_, ⟨rfl, rfl, rfl, rfl⟩, fun y hyx hyb => ?_⟩
  · obtain ⟨c, rest, hattach, hc⟩ := attach_eq_cons x bs
    rw [hattach] at hbthread hstart htidy ⊢
    rw [← hc]
    exact hbthread.absorb hstart (by omega)
      (Nat.lt_of_le_of_lt (htidy.stop_le c List.mem_cons_self) hhi)
  · have hox := off_node hsize hyx
    have hob := off_node hbsize hyb
    exact ((((hkeep1 y 1 hox).trans (hlink y 1 hob)).trans (hkeep3 y 1 hox)).trans
      (absorb_agreeOn hob)) y (Nat.le_refl y) (by omega)

theorem insertFreeBlockSorted_spec {s : HeapState} (h : Threaded s.mem s.heap.freeList bs 0)
    (ht : Tidy lo hi bs) (hlo : 0 < lo) (hhi : hi < 2 ^ 64)
    (hfuel : bs.length < s.heap.walkFuel) (hsize : freeBlockSize ≤ x.size) (hxhi : x.stop ≤ hi)
    (hap : ∀ b ∈ bs, b.Apart x) :
    ∃ s', insertFreeBlockSorted s x.start x.size = .ok s' ∧
      Threaded s'.mem s'.heap.freeList (Extents.insert x bs) 0 ∧ Relisted s s' ∧
      ∀ y, ¬ x.Has y → ¬ Covers bs y → s'.mem y = s.mem y := by
  have hnz : ∀ b ∈ bs, b.start ≠ 0 := fun b hb => by
    have hge := ht.start_ge b hb
    omega
  obtain ⟨pre, post, hbs, hpre, hpost, hfind⟩ := findPosition_spec 0 x.start h hnz ht.separated
    hfuel
  have hafter : ∀ d ∈ post, x.stop ≤ d.start := by
    intro d hd
    have hdap := hap d (by simp [hbs, hd])
    have hge := hpost d hd
    have hdsize := ht.size_ge d (by simp [hbs, hd])
    simp only [Extent.Apart, Extent.stop, freeBlockSize] at hdap hdsize ⊢
    omega
  have htpost : Tidy lo hi post := ht.sublist (by simp [hbs])
  obtain ⟨r, hthread, htail⟩ := threaded_append.mp (hbs ▸ h)
  rw [insertFreeBlockSorted, if_neg (by omega), hfind, ← htail.head]
  refine ⟨_, rfl, ?_⟩
  rcases List.eq_nil_or_concat' pre with rfl | ⟨init, b, rfl⟩
  · obtain rfl : bs = post := hbs
    obtain ⟨hnew, hsame, hmem⟩ := spliceBlock_front htail htpost hlo hhi hsize hxhi hafter
    rw [insert_front hpost]
    exact ⟨hnew, hsame, fun y hy _ => hmem y hy⟩
  · obtain ⟨q, hinit, hlast⟩ := threaded_append.mp hthread
    obtain ⟨rfl, hbsize, -⟩ := threaded_cons.mp hlast
    have hb : b ∈ bs := by simp [hbs]
    have hbx : b.stop ≤ x.start := by
      have hbap := hap b hb
      have hlt := hpre b (by simp)
      simp only [Extent.Apart, Extent.stop] at hbap ⊢
      omega
    rw [lastStart_concat]
    obtain ⟨hhead, hnew, hsame, hmem⟩ := spliceBlock_after htail htpost hlo hhi hsize hxhi hafter
      hbsize (ht.start_ge b hb) (ht.size_ge b hb) hbx
    have hsplit : bs = init ++ b :: post := by simp [hbs]
    have hsep : Separated (init ++ b :: post) := hsplit ▸ ht.separated
    refine ⟨?_, hsame, fun y hyx hcov => hmem y hyx (fun hyb => hcov ⟨b, hb, hyb⟩)⟩
    rw [hhead, hsplit, insert_split hsep (hpre b (by simp)) hpost, threaded_append]
    refine ⟨b.start, hinit.congr (fun d hd y hl hu => ?_), hnew⟩
    have hdb : d.stop < b.start := (List.pairwise_append.mp hsep).2.2 d hd b (by simp)
    have hdsize := ht.size_ge d (by simp [hbs, hd])
    simp only [Extent.stop] at hdb hbx
    apply hmem
    · simp only [Extent.Has, Extent.stop]
      omega
    · simp only [Extent.Has, Extent.stop]
      omega

end CrapOs
