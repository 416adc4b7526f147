import Mathlib.Algebra.BigOperators.Ring.Finset
import Tenzor.Lib.Strided

/-!
# Sums over reindexed families

A family that is read through an index map has as its adjoint the family that adds up everything
the map sends to one place. This file has that fact, how such sums compose, and the index maps of
multi-indices: coordinates in row-major order, an axis summed out, an axis cut in two.
-/

namespace Reindexing

open Strided List
open Finset (ext sum_bij' sum_congr)

section Push

variable {ι κ μ R : Type*} [DecidableEq κ]

/-- Add up what the map sends to each place. -/
def push [AddCommMonoid R] (A : Finset ι) (φ : ι → κ) (g : ι → R) (k : κ) : R :=
  ∑ i ∈ A with φ i = k, g i

section AddCommMonoid

variable [AddCommMonoid R] {A : Finset ι} {B : Finset κ} {φ : ι → κ} {g : ι → R} {l : List ι}

theorem push_congr {g' : ι → R} (h : ∀ i ∈ A, g i = g' i) (k : κ) : push A φ g k = push A φ g' k :=
  sum_congr rfl fun i hi => h i (Finset.mem_filter.mp hi).1

theorem push_congr_map {ψ : ι → κ} (h : ∀ i ∈ A, φ i = ψ i) (k : κ) :
    push A φ g k = push A ψ g k := by
  unfold push
  rw [Finset.filter_congr fun i hi => by rw [h i hi]]

theorem push_push [DecidableEq μ] {ψ : κ → μ} (hφ : ∀ i ∈ A, φ i ∈ B) (g : ι → R) (m : μ) :
    push B ψ (push A φ g) m = push A (fun i => ψ (φ i)) g m := by
  have hmaps : ∀ i ∈ A.filter fun i => ψ (φ i) = m, φ i ∈ B.filter fun k => ψ k = m := by
    intro i hi
    obtain ⟨hi, hm⟩ := Finset.mem_filter.mp hi
    exact Finset.mem_filter.mpr ⟨hφ i hi, hm⟩
  unfold push
  rw [← Finset.sum_fiberwise_of_maps_to hmaps]
  refine sum_congr rfl fun k hk => ?_
  rw [Finset.filter_filter]
  refine sum_congr (Finset.filter_congr fun i _ => ?_) fun _ _ => rfl
  constructor
  · rintro rfl
    exact ⟨(Finset.mem_filter.mp hk).2, rfl⟩
  · exact And.right

/-- Only one place is sent to `k`. -/
theorem push_of_unique {i : ι} {k : κ} (hi : i ∈ A) (hk : φ i = k)
    (hunique : ∀ j ∈ A, φ j = k → j = i) : push A φ g k = g i := by
  unfold push
  rw [show (A.filter fun j => φ j = k) = {i} from ?_, Finset.sum_singleton]
  ext j
  rw [Finset.mem_filter, Finset.mem_singleton]
  constructor
  · exact fun ⟨hj, hjk⟩ => hunique j hj hjk
  · rintro rfl
    exact ⟨hi, hk⟩

/-- Adding the places of a list one after the other. -/
theorem foldl_add_apply [DecidableEq ι] (hl : l.Nodup) (f : κ → R) (k : κ) :
    l.foldl (fun out i => Function.update out (φ i) (out (φ i) + g i)) f k =
      f k + push l.toFinset φ g k := by
  induction l generalizing f with
  | nil => simp [push]
  | cons i l ih =>
    have hi : i ∉ l.toFinset := by simpa using (nodup_cons.mp hl).1
    rw [foldl_cons, ih (nodup_cons.mp hl).2, toFinset_cons]
    unfold push
    rw [Finset.filter_insert]
    by_cases hk : φ i = k
    · rw [if_pos hk, Finset.sum_insert fun h => hi (Finset.mem_filter.mp h).1, ← hk,
        Function.update_self, add_assoc]
    · rw [if_neg hk, Function.update_of_ne (Ne.symm hk)]

/-- Writing the places of a list whose targets differ. -/
theorem foldl_update_apply [DecidableEq ι] (hl : l.Nodup)
    (hinj : ∀ i ∈ l, ∀ j ∈ l, φ i = φ j → i = j) (k : κ) :
    l.foldl (fun out i => Function.update out (φ i) (g i)) (fun _ => (0 : R)) k =
      push l.toFinset φ g k := by
  have key : ∀ (l : List ι) (f : κ → R), l.Nodup → (∀ i ∈ l, ∀ j ∈ l, φ i = φ j → i = j) →
      (∀ i ∈ l, f (φ i) = 0) → l.foldl (fun out i => Function.update out (φ i) (g i)) f k =
        l.foldl (fun out i => Function.update out (φ i) (out (φ i) + g i)) f k := by
    intro l
    induction l with
    | nil => simp
    | cons i l ih =>
      intro f hl hinj hf
      rw [foldl_cons, foldl_cons, hf i (by simp), zero_add]
      refine ih _ (nodup_cons.mp hl).2 (fun a ha b hb => hinj a (by simp [ha]) b (by simp [hb]))
        fun j hj => ?_
      have hne : φ j ≠ φ i := by
        intro h
        obtain rfl := hinj j (by simp [hj]) i (by simp) h
        exact (nodup_cons.mp hl).1 hj
      rw [Function.update_of_ne hne]
      exact hf j (by simp [hj])
  rw [key l _ hl hinj fun _ _ => rfl, foldl_add_apply hl, zero_add]

end AddCommMonoid

/-- Reading through a map and adding up along it are adjoint. -/
theorem sum_mul_push [CommSemiring R] {A : Finset ι} {B : Finset κ} {φ : ι → κ}
    (hφ : ∀ i ∈ A, φ i ∈ B) (x : κ → R) (g : ι → R) :
    ∑ i ∈ A, x (φ i) * g i = ∑ k ∈ B, x k * push A φ g k := by
  rw [← Finset.sum_fiberwise_of_maps_to hφ]
  refine sum_congr rfl fun k _ => ?_
  unfold push
  rw [Finset.mul_sum]
  refine sum_congr rfl fun i hi => ?_
  rw [(Finset.mem_filter.mp hi).2]

end Push

/-- The multi-indices of a shape in row-major order. -/
def coordinates : List Int → List (List Int)
  | [] => [[]]
  | n :: shape =>
    (List.range n.toNat).flatMap fun i : ℕ => (coordinates shape).map fun c => (i : Int) :: c

theorem mem_coordinates {c shape : List Int} : c ∈ coordinates shape ↔ Within c shape := by
  induction shape generalizing c with
  | nil => simp [coordinates, Within]
  | cons n shape ih =>
    simp only [coordinates, mem_flatMap, mem_range, mem_map, ih]
    constructor
    · rintro ⟨i, hi, c, hc, rfl⟩
      exact within_cons.mpr ⟨by omega, hc⟩
    · rintro h
      cases h with
      | @cons i _ c _ hi hc => exact ⟨i.toNat, by omega, c, hc, by congr 1; omega⟩

theorem nodup_coordinates (shape : List Int) : (coordinates shape).Nodup := by
  induction shape with
  | nil => simp [coordinates]
  | cons n shape ih =>
    rw [coordinates, nodup_flatMap]
    refine ⟨fun i _ => ih.map fun _ _ h => (List.cons.inj h).2, ?_⟩
    refine nodup_range.imp fun {i j} hij => ?_
    intro c hi hj
    obtain ⟨_, _, rfl⟩ := mem_map.mp hi
    obtain ⟨_, _, h⟩ := mem_map.mp hj
    exact hij (by have := (List.cons.inj h).1; omega)

def indices (shape : List Int) : Finset (List Int) := (coordinates shape).toFinset

@[simp] theorem mem_indices {c shape : List Int} : c ∈ indices shape ↔ Within c shape := by
  rw [indices, mem_toFinset, mem_coordinates]

section Axis

variable {R : Type*} {c shape : List Int} {d : ℕ}

theorem ext_getD {l l' : List Int} (hlen : l.length = l'.length)
    (h : ∀ k < l.length, l.getD k 0 = l'.getD k 0) : l = l' := by
  apply ext_getElem hlen
  intro k hk hk'
  have hget := h k hk
  rwa [getD_eq_getElem _ _ hk, getD_eq_getElem _ _ hk'] at hget

theorem set_getD_self (c : List Int) (d : ℕ) : c.set d (c.getD d 0) = c := by
  by_cases hd : d < c.length
  · rw [getD_eq_getElem _ _ hd, set_getElem_self]
  · rw [set_eq_of_length_le (by omega)]

theorem getD_set_self (x : Int) (hd : d < c.length) : (c.set d x).getD d 0 = x := by
  rw [getD_set _ _ _ _ _ hd, if_pos rfl]

/-- The index that runs over one axis stays below another bound. -/
theorem within_set_set {n x : Int} (h : Within c shape) (hx : 0 ≤ x ∧ x < n)
    (hd : d < shape.length) : Within (c.set d x) (shape.set d n) := by
  refine within_set (n := shape.getD d 0) ?_ ?_
  · rwa [set_set, set_getD_self]
  · rwa [getD_set_self _ hd]

/-- An axis summed out. -/
theorem push_eraseIdx [AddCommMonoid R] (hd : d < shape.length) (g : List Int → R)
    (hc : Within c (shape.eraseIdx d)) :
    push (indices shape) (fun c => c.eraseIdx d) g c =
      ∑ i ∈ Finset.range (shape.getD d 0).toNat, g (c.insertIdx d (i : Int)) := by
  have hlen : c.length + 1 = shape.length := by
    have := hc.length_eq
    rw [length_eraseIdx_of_lt hd] at this
    omega
  symm
  refine sum_bij' (fun i _ => c.insertIdx d (i : Int)) (fun c' _ => (c'.getD d 0).toNat)
    ?_ ?_ ?_ ?_ fun _ _ => rfl
  · intro i hi
    rw [Finset.mem_filter, mem_indices]
    refine ⟨?_, eraseIdx_insertIdx_self _⟩
    have hb := Finset.mem_range.mp hi
    have h := within_insertIdx (d := d) (i := (i : Int)) (n := shape.getD d 0) hc (by omega)
      (by rw [length_eraseIdx_of_lt hd]; omega)
    rwa [insertIdx_eraseIdx_getD 0 hd] at h
  · intro c' hc'
    have hb := within_getD (mem_indices.mp (Finset.mem_filter.mp hc').1) hd
    exact Finset.mem_range.mpr (by omega)
  · intro i _
    rw [getD_eq_getElem _ _ (by rw [length_insertIdx_of_le_length (by omega)]; omega)]
    simp
  · intro c' hc'
    obtain ⟨hw, rfl⟩ := Finset.mem_filter.mp hc'
    have hw := mem_indices.mp hw
    have hb := within_getD hw hd
    rw [Int.toNat_of_nonneg hb.1, insertIdx_eraseIdx_getD 0 (by rw [hw.length_eq]; exact hd)]

/-- An axis summed to size one. -/
theorem push_set_zero [AddCommMonoid R] (hd : d < shape.length) (g : List Int → R)
    (hc : Within c (shape.set d 1)) :
    push (indices shape) (fun c => c.set d 0) g c =
      ∑ i ∈ Finset.range (shape.getD d 0).toNat, g (c.set d (i : Int)) := by
  have hlen : c.length = shape.length := by simpa using hc.length_eq
  have hzero : c.set d 0 = c := by
    have hb := within_getD hc (by simpa using hd)
    rw [getD_set_self _ hd] at hb
    conv_rhs => rw [← set_getD_self c d, show c.getD d 0 = 0 by omega]
  symm
  refine sum_bij' (fun i _ => c.set d (i : Int)) (fun c' _ => (c'.getD d 0).toNat)
    ?_ ?_ ?_ ?_ fun _ _ => rfl
  · intro i hi
    have hb := Finset.mem_range.mp hi
    rw [Finset.mem_filter, mem_indices]
    refine ⟨within_set hc (by omega), ?_⟩
    exact (set_set ..).trans hzero
  · intro c' hc'
    have hb := within_getD (mem_indices.mp (Finset.mem_filter.mp hc').1) hd
    exact Finset.mem_range.mpr (by omega)
  · intro i _
    rw [getD_set_self _ (by omega)]
    simp
  · intro c' hc'
    obtain ⟨hw, rfl⟩ := Finset.mem_filter.mp hc'
    have hb := within_getD (mem_indices.mp hw) hd
    rw [Int.toNat_of_nonneg hb.1, set_set, set_getD_self]

/-- The multi-indices of an axis of size `a + b` are those below `a` and those from `a` on. -/
theorem sum_indices_append [AddCommMonoid R] {a b : Int} (ha : 0 ≤ a) (hb : 0 ≤ b)
    (hd : d < shape.length) (g : List Int → R) :
    ∑ c ∈ indices (shape.set d (a + b)), g c =
      ∑ c ∈ indices (shape.set d a), g c +
        ∑ c ∈ indices (shape.set d b), g (c.set d (a + c.getD d 0)) := by
  have hbound {n : Int} {c : List Int} (h : Within c (shape.set d n)) :
      d < c.length ∧ 0 ≤ c.getD d 0 ∧ c.getD d 0 < n := by
    have := within_getD h (d := d) (by simpa using hd)
    rw [getD_set_self _ hd] at this
    exact ⟨by rw [h.length_eq]; simpa using hd, this⟩
  have hmove {n m x : Int} {c : List Int} (h : Within c (shape.set d n)) (hx : 0 ≤ x ∧ x < m) :
      Within (c.set d x) (shape.set d m) := by
    have := within_set_set (d := d) h hx (by simpa using hd)
    rwa [set_set] at this
  rw [← Finset.sum_filter_add_sum_filter_not (indices (shape.set d (a + b))) (fun c => c.getD d 0 < a)]
  congr 1
  · refine sum_congr (ext fun c => ?_) fun _ _ => rfl
    rw [Finset.mem_filter, mem_indices, mem_indices]
    constructor
    · rintro ⟨h, hlt⟩
      rw [← set_getD_self c d]
      exact hmove h ⟨(hbound h).2.1, hlt⟩
    · intro h
      have hc := hbound h
      refine ⟨?_, hc.2.2⟩
      rw [← set_getD_self c d]
      exact hmove h (by omega)
  · refine sum_bij' (fun c _ => c.set d (c.getD d 0 - a))
      (fun c _ => c.set d (a + c.getD d 0)) ?_ ?_ ?_ ?_ ?_
    · intro c hc
      rw [Finset.mem_filter, mem_indices] at hc
      have hcb := hbound hc.1
      exact mem_indices.mpr (hmove hc.1 (by omega))
    · intro c hc
      rw [mem_indices] at hc
      have hcb := hbound hc
      rw [Finset.mem_filter, mem_indices, getD_set_self _ hcb.1]
      exact ⟨hmove hc (by omega), by omega⟩
    · intro c hc
      rw [Finset.mem_filter, mem_indices] at hc
      have hcb := hbound hc.1
      rw [set_set, getD_set_self _ hcb.1, add_sub_cancel, set_getD_self]
    · intro c hc
      have hcb := hbound (mem_indices.mp hc)
      rw [set_set, getD_set_self _ hcb.1, add_sub_cancel_left, set_getD_self]
    · intro c hc
      rw [Finset.mem_filter, mem_indices] at hc
      have hcb := hbound hc.1
      rw [set_set, getD_set_self _ hcb.1, add_sub_cancel, set_getD_self]

end Axis

end Reindexing
