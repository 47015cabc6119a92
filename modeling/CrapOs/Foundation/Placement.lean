import Mathlib.Data.Fintype.Basic

/-! # Parts of a vector

Some of the entries of a vector are read into a shorter vector and written back. A
function on the shorter vectors can so be applied to the parts of a longer one, one
part after the other.
-/

namespace Foundation

variable {α : Type} {m n : Nat}

def put (v : Vector α n) (i : Fin n) (x : α) : Vector α n := v.set i.val x i.isLt

def gather (v : Vector α n) (places : Fin m → Fin n) : Vector α m := Vector.ofFn fun k => v[places k]

def scatter (v : Vector α n) (places : Fin m → Fin n) (w : Vector α m) : Vector α n :=
  (List.finRange m).foldl (fun v k => v.set (places k) w[k]) v

/-- A function on the entries at the given places. -/
def applyAt (f : Vector α m → Vector α m) (v : Vector α n) (places : Fin m → Fin n) : Vector α n :=
  scatter v places (f (gather v places))

variable {places : Fin m → Fin n} (v : Vector α n)

theorem put_eq_set (i : Fin n) (x : α) : put v i x = v.set i x := rfl

theorem get_eq_getElem (i : Fin n) : v.get i = v[i] := rfl

theorem eq_of_get {u v : Vector α n} (h : ∀ i, u.get i = v.get i) : u = v :=
  Vector.ext fun i hi => h ⟨i, hi⟩

theorem set_eq_setIfInBounds {i : Nat} (hi : i < n) (x : α) :
    v.set i x hi = v.setIfInBounds i x := by
  ext j hj
  simp [Vector.getElem_set, Vector.getElem_setIfInBounds]

theorem getElem_gather (places : Fin m → Fin n) (k : Fin m) :
    (gather v places)[k] = v[places k] := by
  simp [gather]

theorem get_gather (places : Fin m → Fin n) (k : Fin m) :
    (gather v places).get k = v.get (places k) :=
  getElem_gather v places k

theorem get_put_other {k i : Fin n} (hki : k ≠ i) (v : Vector α n) (x : α) :
    (put v k x).get i = v.get i :=
  Vector.getElem_set_ne k.isLt i.isLt fun h => hki (Fin.ext h)

theorem get_put_same (i : Fin n) (v : Vector α n) (x : α) : (put v i x).get i = x :=
  Vector.getElem_set_self i.isLt

theorem put_injective {a b : Fin n} (hab : a ≠ b) {f : α → α → α}
    (hf : ∀ y, Function.Injective fun x => f x y) :
    Function.Injective fun v : Vector α n => put v a (f (v.get a) (v.get b)) := by
  intro v w h
  have hget (i : Fin n) : (put v a _).get i = (put w a _).get i := congrArg (fun u => u.get i) h
  have hother (i : Fin n) (hi : a ≠ i) : v.get i = w.get i := by
    have hsame := hget i
    rwa [get_put_other hi, get_put_other hi] at hsame
  refine eq_of_get fun i => ?_
  by_cases hi : a = i
  · subst hi
    have hsame := hget a
    rw [get_put_same, get_put_same, hother b hab] at hsame
    exact hf _ hsame
  · exact hother i hi

theorem gather_gather {l : Nat} (places : Fin m → Fin n) (inner : Fin l → Fin m) :
    gather (gather v places) inner = gather v fun k => places (inner k) := by
  simp [gather]

theorem gather_id : (gather v fun k => k) = v := by
  ext i hi
  simp [gather]

theorem gather_put (hinj : Function.Injective places) (v : Vector α n) (k : Fin m) (x : α) :
    gather (put v (places k) x) places = put (gather v places) k x := by
  ext i hi
  by_cases hk : k.val = i
  · subst hk
    simp [gather, put]
  · have hplace : (places k).val ≠ (places ⟨i, hi⟩).val := by
      intro h
      exact hk (congrArg Fin.val (hinj (Fin.ext h)))
    simp [gather, put, hk, hplace]

theorem foldl_set_other {w : Vector α m} {i : Fin n} (l : List (Fin m))
    (hother : ∀ k ∈ l, places k ≠ i) (v : Vector α n) :
    (l.foldl (fun v k => v.set (places k) w[k]) v)[i] = v[i] := by
  induction l generalizing v with
  | nil => rfl
  | cons k l ih =>
    have hk : (places k).val ≠ i.val := fun h => hother k List.mem_cons_self (Fin.ext h)
    rw [List.foldl_cons, ih fun j hj => hother j (List.mem_cons_of_mem k hj)]
    simp [hk]

theorem scatter_other {i : Fin n} (hother : ∀ k, places k ≠ i) (v : Vector α n) (w : Vector α m) :
    (scatter v places w)[i] = v[i] :=
  foldl_set_other _ (fun k _ => hother k) v

theorem foldl_set_place (hinj : Function.Injective places) {w : Vector α m} {k : Fin m}
    {l : List (Fin m)} (hnodup : l.Nodup) (hk : k ∈ l) (v : Vector α n) :
    (l.foldl (fun v k => v.set (places k) w[k]) v)[places k] = w[k] := by
  induction l generalizing v with
  | nil => cases hk
  | cons j l ih =>
    obtain ⟨hj, hl⟩ := List.nodup_cons.mp hnodup
    rw [List.foldl_cons]
    by_cases hmem : k ∈ l
    · exact ih hl hmem _
    · have hkj : k = j := (List.mem_cons.mp hk).resolve_right hmem
      subst hkj
      have hother : ∀ i ∈ l, places i ≠ places k := by
        intro i hi h
        have hik : i = k := hinj h
        exact hj (hik ▸ hi)
      rw [foldl_set_other l hother]
      simp

theorem gather_scatter (hinj : Function.Injective places) (v : Vector α n) (w : Vector α m) :
    gather (scatter v places w) places = w := by
  ext i hi
  have hplace : (scatter v places w)[places ⟨i, hi⟩] = w[i] :=
    foldl_set_place hinj (List.nodup_finRange m) (List.mem_finRange _) v
  rw [← hplace]
  exact getElem_gather _ places ⟨i, hi⟩

theorem gather_scatter_other {others : Fin m → Fin n} (hdisjoint : ∀ k j, places k ≠ others j)
    (v : Vector α n) (w : Vector α m) : gather (scatter v places w) others = gather v others := by
  ext i hi
  have hother := scatter_other (fun k => hdisjoint k ⟨i, hi⟩) v w
  simpa [gather] using hother

theorem eq_scatter (hinj : Function.Injective places) {u v : Vector α n} {w : Vector α m}
    (hnew : gather u places = w) (hold : ∀ i, (∀ k, places k ≠ i) → u.get i = v.get i) :
    u = scatter v places w := by
  ext i hi
  by_cases hplace : ∃ k, places k = ⟨i, hi⟩
  · obtain ⟨k, hk⟩ := hplace
    have hu : u[places k] = w[k] := by rw [← hnew, getElem_gather]
    have hw : (scatter v places w)[places k] = w[k] :=
      foldl_set_place hinj (List.nodup_finRange m) (List.mem_finRange k) v
    simpa [hk] using hu.trans hw.symm
  · have hne : ∀ k, places k ≠ ⟨i, hi⟩ := fun k hk => hplace ⟨k, hk⟩
    exact (hold ⟨i, hi⟩ hne).trans (scatter_other hne v w).symm

section Parts

variable {ι : Type} {family : ι → Fin m → Fin n}

/-- The parts of a family do not overlap, and each of them has every entry once. -/
def Apart (family : ι → Fin m → Fin n) : Prop :=
  Function.Injective fun q : ι × Fin m => family q.1 q.2

theorem apart_of_val {p : Nat} {family : Fin p → Fin m → Fin n}
    (h : ∀ i j k l, (family i k).val = (family j l).val → i.val = j.val ∧ k.val = l.val) :
    Apart family := by
  intro a b hab
  obtain ⟨hfst, hsnd⟩ := h a.1 b.1 a.2 b.2 (congrArg Fin.val hab)
  exact Prod.ext (Fin.ext hfst) (Fin.ext hsnd)

theorem Apart.injective (h : Apart family) (i : ι) : Function.Injective (family i) := by
  intro a b hab
  have hpair : (i, a) = (i, b) := h hab
  exact congrArg Prod.snd hpair

theorem Apart.disjoint (h : Apart family) {i j : ι} (hij : i ≠ j) (a b : Fin m) :
    family i a ≠ family j b := by
  intro hab
  have hpair : (i, a) = (j, b) := h hab
  exact hij (congrArg Prod.fst hpair)

theorem gather_foldl_other (h : Apart family) (f : Vector α m → Vector α m) {i : ι} {l : List ι}
    (hi : i ∉ l) (v : Vector α n) :
    gather (l.foldl (fun v j => applyAt f v (family j)) v) (family i) = gather v (family i) := by
  induction l generalizing v with
  | nil => rfl
  | cons j l ih =>
    obtain ⟨hij, hl⟩ := not_or.mp (fun hmem => hi (List.mem_cons.mpr hmem))
    rw [List.foldl_cons, ih hl]
    exact gather_scatter_other (h.disjoint (Ne.symm hij)) v _

theorem gather_foldl (h : Apart family) (f : Vector α m → Vector α m) {i : ι} {l : List ι}
    (hnodup : l.Nodup) (hi : i ∈ l) (v : Vector α n) :
    gather (l.foldl (fun v j => applyAt f v (family j)) v) (family i) = f (gather v (family i)) := by
  induction l generalizing v with
  | nil => cases hi
  | cons j l ih =>
    obtain ⟨hj, hl⟩ := List.nodup_cons.mp hnodup
    rw [List.foldl_cons]
    by_cases hij : i = j
    · subst hij
      rw [gather_foldl_other h f hj]
      exact gather_scatter (h.injective i) v _
    · have hmem : i ∈ l := (List.mem_cons.mp hi).resolve_left hij
      rw [ih hl hmem]
      exact congrArg f (gather_scatter_other (h.disjoint (Ne.symm hij)) v _)

theorem eq_of_gather (hcover : ∀ w, ∃ i k, family i k = w) {u v : Vector α n}
    (h : ∀ i, gather u (family i) = gather v (family i)) : u = v := by
  ext w hw
  obtain ⟨i, k, hk⟩ := hcover ⟨w, hw⟩
  have hentry : u[family i k] = v[family i k] := by rw [← getElem_gather, h, getElem_gather]
  simpa [hk] using hentry

end Parts

end Foundation
