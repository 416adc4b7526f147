import Mathlib.Algebra.BigOperators.Group.Finset.Basic
import Mathlib.Algebra.BigOperators.Ring.List
import Mathlib.Algebra.Order.BigOperators.Group.List
import Mathlib.Data.List.GetD
import Mathlib.Tactic.Linarith
import Mathlib.Tactic.Ring

/-!
# Strided multi-indices

A strided layout assigns to a multi-index the number `offset + ∑ index_d * stride_d`.
This file holds the arithmetic of such layouts over exact integers: which
numbers a layout reaches, how an axis is inserted, removed or moved, and the
row-major layout with its inverse.
-/

namespace Strided

open List

variable {i n : Int} {idx shape strides : List Int} {α : Type*} {d q : Nat} {l : List α}

/-- The multi-index has one entry for each axis and stays below its size. -/
def Within (idx shape : List Int) : Prop :=
  List.Forall₂ (fun i n => 0 ≤ i ∧ i < n) idx shape

/-- The displacement of a multi-index: `∑ index_d * stride_d`. -/
def dot (idx strides : List Int) : Int :=
  (List.zipWith (· * ·) idx strides).sum

@[simp] theorem dot_nil (strides : List Int) : dot [] strides = 0 := by
  simp [dot]

@[simp] theorem dot_cons (i s : Int) (idx strides : List Int) :
    dot (i :: idx) (s :: strides) = i * s + dot idx strides := by
  simp [dot]

@[simp] theorem within_nil : Within [] [] := Forall₂.nil

@[simp] theorem within_cons : Within (i :: idx) (n :: shape) ↔ (0 ≤ i ∧ i < n) ∧ Within idx shape :=
  forall₂_cons

theorem Within.length_eq (h : Within idx shape) : idx.length = shape.length :=
  Forall₂.length_eq h

theorem within_iff_getD :
    Within idx shape ↔ idx.length = shape.length ∧
      ∀ d < shape.length, 0 ≤ idx.getD d 0 ∧ idx.getD d 0 < shape.getD d 0 := by
  constructor
  · intro h
    refine ⟨h.length_eq, ?_⟩
    induction h with
    | nil => simp
    | @cons i n idx shape hin _ ih =>
      intro d hd
      cases d with
      | zero => simpa using hin
      | succ d => simpa using ih d (by simpa using hd)
  · rintro ⟨hlen, hget⟩
    induction shape generalizing idx with
    | nil =>
      obtain rfl : idx = [] := length_eq_zero_iff.mp (by simpa using hlen)
      exact within_nil
    | cons n shape ih =>
      cases idx with
      | nil => simp at hlen
      | cons i idx =>
        refine within_cons.mpr ⟨by simpa using hget 0 (by simp), ih (by simpa using hlen) ?_⟩
        intro d hd
        simpa using hget (d + 1) (by simpa using hd)

theorem dot_eq_sum_range (h : idx.length = strides.length) :
    dot idx strides = ∑ d ∈ Finset.range strides.length, idx.getD d 0 * strides.getD d 0 := by
  induction strides generalizing idx with
  | nil =>
    obtain rfl : idx = [] := length_eq_zero_iff.mp (by simpa using h)
    simp
  | cons s strides ih =>
    cases idx with
    | nil => simp at h
    | cons i idx =>
      rw [dot_cons, ih (by simpa using h), length_cons, Finset.sum_range_succ']
      simp [add_comm]

/-! ## Changing one entry -/

theorem getD_set (l : List α) (d k : Nat) (x default : α) (hd : d < l.length) :
    (l.set d x).getD k default = if k = d then x else l.getD k default := by
  by_cases h : k = d
  · subst h
    simp [List.getD, hd]
  · simp [List.getD, h, Ne.symm h]

/-- Changing one index moves the displacement by the difference times its stride. -/
theorem dot_set_left (x : Int) (hlen : idx.length = strides.length) (hd : d < strides.length) :
    dot (idx.set d x) strides =
      dot idx strides + (x - idx.getD d 0) * strides.getD d 0 := by
  induction d generalizing idx strides with
  | zero =>
    cases strides with
    | nil => simp at hd
    | cons s strides =>
      cases idx with
      | nil => simp at hlen
      | cons i idx =>
        simp only [set_cons_zero, dot_cons, getD_cons_zero]
        ring
  | succ d ih =>
    cases strides with
    | nil => simp at hd
    | cons s strides =>
      cases idx with
      | nil => simp at hlen
      | cons i idx =>
        simp only [set_cons_succ, dot_cons, getD_cons_succ]
        rw [ih (by simpa using hlen) (by simpa using hd)]
        ring

theorem dot_comm (idx strides : List Int) : dot idx strides = dot strides idx := by
  unfold dot
  rw [zipWith_comm]
  simp only [mul_comm]

/-- Changing one stride moves the displacement by the index times the difference. -/
theorem dot_set_right (s : Int) (hlen : idx.length = strides.length) (hd : d < strides.length) :
    dot idx (strides.set d s) =
      dot idx strides + idx.getD d 0 * (s - strides.getD d 0) := by
  rw [dot_comm, dot_set_left s hlen.symm (by omega), dot_comm strides idx]
  ring

theorem dot_append_singleton (i s : Int) (hlen : idx.length = strides.length) :
    dot (idx ++ [i]) (strides ++ [s]) = dot idx strides + i * s := by
  unfold dot
  rw [zipWith_append hlen]
  simp

/-- Replace the bound of one axis together with the index that runs over it. -/
theorem within_set {x : Int} (h : Within idx (shape.set d n)) (hx : 0 ≤ x ∧ x < shape.getD d 0) :
    Within (idx.set d x) shape := by
  obtain ⟨hlen, hget⟩ := within_iff_getD.mp h
  rw [length_set] at hlen hget
  refine within_iff_getD.mpr ⟨by simpa using hlen, ?_⟩
  intro k hk
  by_cases hkd : k = d
  · subst hkd
    rw [getD_set _ _ _ _ _ (by omega), if_pos rfl]
    exact hx
  · have hb := hget k hk
    by_cases hd : d < shape.length
    · rw [getD_set _ _ _ _ _ hd, if_neg hkd] at hb
      rwa [getD_set _ _ _ _ _ (by omega), if_neg hkd]
    · rw [set_eq_of_length_le (by omega)] at hb
      rwa [set_eq_of_length_le (by omega)]

theorem within_append_singleton (h : Within idx (shape ++ [n])) :
    ∃ p k, idx = p ++ [k] ∧ Within p shape ∧ 0 ≤ k ∧ k < n := by
  induction shape generalizing idx with
  | nil =>
    cases h with
    | @cons k _ q _ hk hnil =>
      obtain rfl := forall₂_nil_right_iff.mp hnil
      exact ⟨[], k, rfl, within_nil, hk⟩
  | cons m shape ih =>
    cases h with
    | @cons i _ idx _ hi hrest =>
      obtain ⟨p, k, rfl, hp, hk⟩ := ih hrest
      exact ⟨i :: p, k, rfl, within_cons.mpr ⟨hi, hp⟩, hk⟩

theorem within_getD (h : Within idx shape) (hd : d < shape.length) :
    0 ≤ idx.getD d 0 ∧ idx.getD d 0 < shape.getD d 0 :=
  (within_iff_getD.mp h).2 d hd

theorem insertIdx_eraseIdx_getD (default : α) (hd : d < l.length) :
    (l.eraseIdx d).insertIdx d (l.getD d default) = l := by
  rw [getD_eq_getElem _ _ hd]
  exact insertIdx_eraseIdx_getElem hd

/-- Index zero on an inserted axis adds nothing, whatever the stride. -/
theorem dot_insertIdx_zero (s : Int) (hlen : idx.length = strides.length)
    (hd : d ≤ strides.length) :
    dot (idx.insertIdx d 0) (strides.insertIdx d s) = dot idx strides := by
  induction d generalizing idx strides with
  | zero => simp
  | succ d ih =>
    cases strides with
    | nil => simp at hd
    | cons s' strides =>
      cases idx with
      | nil => simp at hlen
      | cons i idx =>
        simp only [insertIdx_succ_cons, dot_cons]
        rw [ih (by simpa using hlen) (by simpa using hd)]

theorem within_insertIdx (h : Within idx shape) (hin : 0 ≤ i ∧ i < n) (hd : d ≤ shape.length) :
    Within (idx.insertIdx d i) (shape.insertIdx d n) := by
  induction d generalizing idx shape with
  | zero => simpa using ⟨hin, h⟩
  | succ d ih =>
    cases h with
    | nil => simp at hd
    | @cons j m idx shape hjm hrest =>
      simp only [insertIdx_succ_cons, within_cons]
      exact ⟨hjm, ih hrest (by simpa using hd)⟩

theorem within_eraseIdx (d : Nat) (h : Within idx shape) :
    Within (idx.eraseIdx d) (shape.eraseIdx d) := by
  induction d generalizing idx shape with
  | zero =>
    cases h with
    | nil => simp
    | cons _ hrest => exact hrest
  | succ d ih =>
    cases h with
    | nil => simp
    | cons hjm hrest => simpa using ⟨hjm, ih hrest⟩

/-- The entries of `l` at the axes whose size is not one. -/
def dropOnes {α : Type*} (shape : List Int) (l : List α) : List α :=
  ((shape.zip l).filter fun p => p.1 ≠ 1).map Prod.snd

/-- Put index zero back at every axis of size one. -/
def restoreOnes : List Int → List Int → List Int
  | [], _ => []
  | n :: ns, idx =>
    if n = 1 then 0 :: restoreOnes ns idx else idx.headD 0 :: restoreOnes ns idx.tail

theorem dropOnes_cons (n : Int) (shape : List Int) (x : α) (l : List α) :
    dropOnes (n :: shape) (x :: l) =
      if n = 1 then dropOnes shape l else x :: dropOnes shape l := by
  by_cases h : n = 1 <;> simp [dropOnes, h]

theorem dropOnes_map {β : Type*} (f : α → β) (shape : List Int) (l : List α) :
    dropOnes shape (l.map f) = (dropOnes shape l).map f := by
  induction shape generalizing l with
  | nil => simp [dropOnes]
  | cons n shape ih =>
    cases l with
    | nil => simp [dropOnes]
    | cons x l =>
      rw [map_cons, dropOnes_cons, dropOnes_cons, ih]
      split_ifs <;> rfl

theorem dropOnes_length (h : l.length = shape.length) :
    (dropOnes shape l).length = (shape.filter fun n => n ≠ 1).length := by
  induction shape generalizing l with
  | nil => simp [dropOnes]
  | cons n shape ih =>
    cases l with
    | nil => simp at h
    | cons x l =>
      rw [dropOnes_cons]
      by_cases hn : n = 1 <;> simp_all

theorem within_restoreOnes (h : Within idx (dropOnes shape shape)) :
    Within (restoreOnes shape idx) shape := by
  induction shape generalizing idx with
  | nil => exact within_nil
  | cons n shape ih =>
    rw [dropOnes_cons] at h
    rw [restoreOnes]
    by_cases hn : n = 1
    · rw [if_pos hn] at h ⊢
      exact within_cons.mpr ⟨by omega, ih h⟩
    · rw [if_neg hn] at h ⊢
      cases h with
      | cons hin hrest => exact within_cons.mpr ⟨hin, ih hrest⟩

theorem dot_restoreOnes (hlen : strides.length = shape.length)
    (h : Within idx (dropOnes shape shape)) :
    dot (restoreOnes shape idx) strides = dot idx (dropOnes shape strides) := by
  induction shape generalizing idx strides with
  | nil =>
    simp [restoreOnes, dropOnes, dot]
  | cons n shape ih =>
    cases strides with
    | nil => simp at hlen
    | cons s strides =>
      rw [dropOnes_cons] at h ⊢
      rw [restoreOnes]
      by_cases hn : n = 1
      · rw [if_pos hn] at h ⊢
        rw [if_pos hn, dot_cons, ih (by simpa using hlen) h]
        ring
      · rw [if_neg hn] at h ⊢
        rw [if_neg hn]
        cases h with
        | cons hin hrest =>
          rw [dot_cons, tail_cons, ih (by simpa using hlen) hrest]
          rfl

/-- Where an axis that is not of size one lands when the others are dropped. -/
def dropOnesPos (shape : List Int) (q : Nat) : Nat :=
  ((shape.take q).filter fun n => n ≠ 1).length

theorem dropOnesPos_succ (n : Int) (shape : List Int) (q : Nat) :
    dropOnesPos (n :: shape) (q + 1) =
      if n = 1 then dropOnesPos shape q else dropOnesPos shape q + 1 := by
  by_cases hn : n = 1 <;> simp [dropOnesPos, hn]

theorem dropOnes_getElem? (hlen : l.length = shape.length) (hq : q < shape.length)
    (hne : shape.getD q 0 ≠ 1) : (dropOnes shape l)[dropOnesPos shape q]? = l[q]? := by
  induction shape generalizing l q with
  | nil => simp at hq
  | cons n shape ih =>
    cases l with
    | nil => simp at hlen
    | cons x l =>
      rw [dropOnes_cons]
      cases q with
      | zero =>
        rw [if_neg (by simpa using hne)]
        simp [dropOnesPos]
      | succ q =>
        have hrest := ih (by simpa using hlen) (by simpa using hq) (by simpa using hne)
        rw [dropOnesPos_succ]
        by_cases hn : n = 1
        · simpa [hn] using hrest
        · simpa [hn] using hrest

theorem restoreOnes_getD (hq : q < shape.length) (hne : shape.getD q 0 ≠ 1) :
    (restoreOnes shape idx).getD q 0 = idx.getD (dropOnesPos shape q) 0 := by
  induction shape generalizing idx q with
  | nil => simp at hq
  | cons n shape ih =>
    rw [restoreOnes]
    cases q with
    | zero =>
      rw [if_neg (by simpa using hne)]
      cases idx <;> simp [dropOnesPos]
    | succ q =>
      have hrest : ∀ idx, (restoreOnes shape idx).getD q 0 = idx.getD (dropOnesPos shape q) 0 :=
        fun _ => ih (by simpa using hq) (by simpa using hne)
      rw [dropOnesPos_succ]
      by_cases hn : n = 1
      · simpa [hn] using hrest idx
      · rw [if_neg hn, if_neg hn, getD_cons_succ, hrest]
        cases idx <;> simp

/-! ## Moving axes -/

/-- The entries of `l` at the listed positions. -/
def gather (pos : List Nat) (l : List Int) : List Int :=
  pos.map fun j => l.getD j 0

/-- The inverse of `gather` on multi-indices: position `j` reads the entry
that `pos` sent there. -/
def scatter (pos : List Nat) (idx : List Int) : List Int :=
  (List.range pos.length).map fun j => idx.getD (pos.idxOf j) 0

@[simp] theorem gather_length (pos : List Nat) (l : List Int) :
    (gather pos l).length = pos.length := by
  simp [gather]

@[simp] theorem scatter_length (pos : List Nat) (idx : List Int) :
    (scatter pos idx).length = pos.length := by
  simp [scatter]

theorem gather_getD {pos : List Nat} {k : Nat} (hk : k < pos.length) (l : List Int) :
    (gather pos l).getD k 0 = l.getD (pos.getD k 0) 0 := by
  simp [gather, List.getD, hk]

theorem scatter_getD {pos : List Nat} {j : Nat} (hj : j < pos.length) (idx : List Int) :
    (scatter pos idx).getD j 0 = idx.getD (pos.idxOf j) 0 := by
  simp [scatter, List.getD, hj]

section Permutation

variable {pos : List Nat} (hpos : pos.Perm (List.range pos.length))

include hpos

theorem mem_of_perm_range {j : Nat} : j ∈ pos ↔ j < pos.length := by
  rw [hpos.mem_iff, mem_range]

theorem idxOf_lt_of_perm {j : Nat} (hj : j < pos.length) : pos.idxOf j < pos.length :=
  idxOf_lt_length_iff.mpr ((mem_of_perm_range hpos).mpr hj)

theorem getD_idxOf_of_perm {j : Nat} (hj : j < pos.length) : pos.getD (pos.idxOf j) 0 = j := by
  have hlt := idxOf_lt_of_perm hpos hj
  rw [getD_eq_getElem _ _ hlt]
  exact getElem_idxOf hlt

theorem idxOf_getD_of_perm {k : Nat} (hk : k < pos.length) : pos.idxOf (pos.getD k 0) = k := by
  rw [getD_eq_getElem _ _ hk]
  exact (hpos.nodup_iff.mpr nodup_range).idxOf_getElem k hk

theorem within_scatter {idx shape : List Int} (hlen : shape.length = pos.length)
    (h : Within idx (gather pos shape)) : Within (scatter pos idx) shape := by
  obtain ⟨-, hget⟩ := within_iff_getD.mp h
  refine within_iff_getD.mpr ⟨by simp [hlen], ?_⟩
  intro j hj
  rw [hlen] at hj
  have hk := idxOf_lt_of_perm hpos hj
  have hb := hget (pos.idxOf j) (by simpa using hk)
  rw [gather_getD hk, getD_idxOf_of_perm hpos hj] at hb
  rwa [scatter_getD hj]

/-- Moving the axes of the layout and of the multi-index together changes nothing. -/
theorem dot_scatter {idx strides : List Int} (hidx : idx.length = pos.length)
    (hlen : strides.length = pos.length) :
    dot (scatter pos idx) strides = dot idx (gather pos strides) := by
  rw [dot_eq_sum_range (by simp [hlen]), dot_eq_sum_range (by simp [hidx]), hlen,
    gather_length]
  refine Finset.sum_bij' (fun j _ => pos.idxOf j) (fun k _ => pos.getD k 0) ?_ ?_ ?_ ?_ ?_
  · intro j hj
    exact Finset.mem_range.mpr (idxOf_lt_of_perm hpos (Finset.mem_range.mp hj))
  · intro k hk
    have hk' := Finset.mem_range.mp hk
    apply Finset.mem_range.mpr
    rw [getD_eq_getElem _ _ hk']
    exact (mem_of_perm_range hpos).mp (getElem_mem hk')
  · intro j hj
    exact getD_idxOf_of_perm hpos (Finset.mem_range.mp hj)
  · intro k hk
    exact idxOf_getD_of_perm hpos (Finset.mem_range.mp hk)
  · intro j hj
    have hj' := Finset.mem_range.mp hj
    rw [scatter_getD hj', gather_getD (idxOf_lt_of_perm hpos hj'), getD_idxOf_of_perm hpos hj']

end Permutation

/-- Move one end of the reach by the extent of an axis of size `n ≥ 1`. -/
def extend (acc : Int × Int) (axis : Int × Int) : Int × Int :=
  let extent := (axis.1 - 1) * axis.2
  if 0 ≤ extent then (acc.1, acc.2 + extent) else (acc.1 + extent, acc.2)

/-- The lowest and highest number reached from `start` over the given axes. -/
def reach (start : Int × Int) (axes : List (Int × Int)) : Int × Int :=
  axes.foldl extend start

theorem mul_stride_between {s : Int} (h : 0 ≤ i ∧ i < n) :
    min 0 ((n - 1) * s) ≤ i * s ∧ i * s ≤ max 0 ((n - 1) * s) := by
  have hi : i ≤ n - 1 := by omega
  rcases le_total 0 s with hs | hs
  · exact ⟨(min_le_left _ _).trans (mul_nonneg h.1 hs),
      (mul_le_mul_of_nonneg_right hi hs).trans (le_max_right _ _)⟩
  · exact ⟨(min_le_right _ _).trans (mul_le_mul_of_nonpos_right hi hs),
      (mul_nonpos_of_nonneg_of_nonpos h.1 hs).trans (le_max_left _ _)⟩

theorem extend_fst_snd (acc : Int × Int) (n s : Int) :
    extend acc (n, s) =
      (acc.1 + min 0 ((n - 1) * s), acc.2 + max 0 ((n - 1) * s)) := by
  unfold extend
  dsimp only
  split
  · rename_i h
    simp [min_eq_left h, max_eq_right h]
  · rename_i h
    have h' : (n - 1) * s ≤ 0 := le_of_not_ge h
    simp [min_eq_right h', max_eq_left h']

theorem reach_cons (start : Int × Int) (n s : Int) (axes : List (Int × Int)) :
    reach start ((n, s) :: axes) =
      reach (start.1 + min 0 ((n - 1) * s), start.2 + max 0 ((n - 1) * s)) axes := by
  rw [reach, foldl_cons, extend_fst_snd, reach]

/-- The ends of the reach only move outwards. -/
theorem reach_outwards (start : Int × Int) (axes : List (Int × Int)) :
    (reach start axes).1 ≤ start.1 ∧ start.2 ≤ (reach start axes).2 := by
  induction axes generalizing start with
  | nil => exact ⟨le_rfl, le_rfl⟩
  | cons axis axes ih =>
    obtain ⟨n, s⟩ := axis
    have hrest := ih (start.1 + min 0 ((n - 1) * s), start.2 + max 0 ((n - 1) * s))
    rw [reach_cons]
    omega

/-- Every in-range multi-index stays between the two ends of the reach. -/
theorem reach_spec (h : Within idx shape) (hlen : strides.length = shape.length) (start : Int × Int)
    (x : Int) (hx : start.1 ≤ x ∧ x ≤ start.2) :
    (reach start (shape.zip strides)).1 ≤ x + dot idx strides ∧
      x + dot idx strides ≤ (reach start (shape.zip strides)).2 := by
  induction h generalizing strides start x with
  | nil => simpa [reach] using hx
  | @cons i n idx shape hin _ ih =>
    cases strides with
    | nil => simp at hlen
    | cons s strides =>
      have hb := mul_stride_between (s := s) hin
      have hnext := ih (by simpa using hlen)
        (start.1 + min 0 ((n - 1) * s), start.2 + max 0 ((n - 1) * s)) (x + i * s)
        (by constructor <;> simp only <;> omega)
      rw [zip_cons_cons, reach_cons, dot_cons, ← add_assoc]
      exact hnext

/-- Both ends of the reach are reached when no axis is empty. -/
theorem reach_attained (hpos : ∀ n ∈ shape, 0 < n) (hlen : strides.length = shape.length)
    (start : Int × Int) :
    (∃ idx, Within idx shape ∧
      start.1 + dot idx strides = (reach start (shape.zip strides)).1) ∧
    ∃ idx, Within idx shape ∧
      start.2 + dot idx strides = (reach start (shape.zip strides)).2 := by
  induction shape generalizing strides start with
  | nil => exact ⟨⟨[], by simp [reach]⟩, ⟨[], by simp [reach]⟩⟩
  | cons n shape ih =>
    cases strides with
    | nil => simp at hlen
    | cons s strides =>
      have hn : 0 < n := hpos n (by simp)
      obtain ⟨⟨lo, hlo, hloEq⟩, hi, hhi, hhiEq⟩ :=
        ih (fun m hm => hpos m (by simp [hm])) (by simpa using hlen)
          (start.1 + min 0 ((n - 1) * s), start.2 + max 0 ((n - 1) * s))
      rw [zip_cons_cons, reach_cons]
      rcases le_total 0 ((n - 1) * s) with hs | hs
      · rw [min_eq_left hs, max_eq_right hs] at *
        refine ⟨⟨0 :: lo, within_cons.mpr ⟨by omega, hlo⟩, ?_⟩,
          ⟨(n - 1) :: hi, within_cons.mpr ⟨by omega, hhi⟩, ?_⟩⟩
        · rw [← hloEq, dot_cons]
          ring
        · rw [← hhiEq, dot_cons]
          ring
      · rw [min_eq_right hs, max_eq_left hs] at *
        refine ⟨⟨(n - 1) :: lo, within_cons.mpr ⟨by omega, hlo⟩, ?_⟩,
          ⟨0 :: hi, within_cons.mpr ⟨by omega, hhi⟩, ?_⟩⟩
        · rw [← hloEq, dot_cons]
          ring
        · rw [← hhiEq, dot_cons]
          ring

/-! ## Row-major layout -/

/-- Exact row-major strides: each axis steps over the product of the later sizes. -/
def rowMajor : List Int → List Int
  | [] => []
  | _ :: ns => ns.prod :: rowMajor ns

@[simp] theorem rowMajor_length (shape : List Int) :
    (rowMajor shape).length = shape.length := by
  induction shape with
  | nil => rfl
  | cons n ns ih => simp [rowMajor, ih]

/-- The multi-index of the `k`-th element in row-major order. -/
def unravel : List Int → Int → List Int
  | [], _ => []
  | n :: ns, k => (k / ns.prod) % n :: unravel ns k

@[simp] theorem unravel_length (shape : List Int) (k : Int) :
    (unravel shape k).length = shape.length := by
  induction shape with
  | nil => rfl
  | cons n ns ih => simp [unravel, ih]

theorem prod_pos (h : ∀ n ∈ shape, 0 < n) : 0 < shape.prod := by
  induction shape with
  | nil => simp
  | cons n ns ih =>
    exact mul_pos (h n (by simp)) (ih fun m hm => h m (by simp [hm]))

theorem prod_nonneg (h : ∀ n ∈ shape, 0 ≤ n) : 0 ≤ shape.prod := by
  induction shape with
  | nil => simp
  | cons n ns ih =>
    exact mul_nonneg (h n (by simp)) (ih fun m hm => h m (by simp [hm]))

theorem Within.pos (h : Within idx shape) : ∀ n ∈ shape, 0 < n := by
  induction h with
  | nil => simp
  | cons hin _ ih =>
    intro m hm
    rcases mem_cons.mp hm with rfl | hm
    · omega
    · exact ih m hm

theorem pos_of_prod_pos (hnn : ∀ n ∈ shape, 0 ≤ n) (h : 0 < shape.prod) : ∀ n ∈ shape, 0 < n := by
  intro n hn
  have hne : n ≠ 0 := by
    rintro rfl
    exact h.ne' (prod_eq_zero hn)
  have := hnn n hn
  omega

/-- Row-major displacements fill `[0, product of the sizes)`. -/
theorem dot_rowMajor_bounds (h : Within idx shape) :
    0 ≤ dot idx (rowMajor shape) ∧ dot idx (rowMajor shape) < shape.prod := by
  induction h with
  | nil => simp [rowMajor]
  | @cons i n idx shape hin hrest ih =>
    have hp : 0 < shape.prod := prod_pos (Within.pos hrest)
    have hi : i + 1 ≤ n := by omega
    constructor
    · exact add_nonneg (mul_nonneg hin.1 hp.le) ih.1
    · calc
        i * shape.prod + dot idx (rowMajor shape) < i * shape.prod + shape.prod := by omega
        _ = (i + 1) * shape.prod := by ring
        _ ≤ n * shape.prod := mul_le_mul_of_nonneg_right hi hp.le

/-- A row-major layout reaches from its start to its last element. -/
theorem reach_rowMajor (hpos : ∀ n ∈ shape, 0 < n) (start : Int) :
    start ≤ (reach (start, start) (shape.zip (rowMajor shape))).1 ∧
      (reach (start, start) (shape.zip (rowMajor shape))).2 < start + shape.prod := by
  obtain ⟨⟨low, hlow, hlowEq⟩, high, hhigh, hhighEq⟩ :=
    reach_attained hpos (rowMajor_length shape) (start, start)
  have hlowBounds := dot_rowMajor_bounds hlow
  have hhighBounds := dot_rowMajor_bounds hhigh
  rw [← hhighEq]
  omega

theorem within_unravel (h : ∀ n ∈ shape, 0 < n) (k : Int) : Within (unravel shape k) shape := by
  induction shape with
  | nil => exact within_nil
  | cons n ns ih =>
    have hn : 0 < n := h n (by simp)
    exact within_cons.mpr
      ⟨⟨Int.emod_nonneg _ (by omega), Int.emod_lt_of_pos _ hn⟩,
        ih fun m hm => h m (by simp [hm])⟩

/-- The row-major displacement of the `k`-th multi-index is `k`. -/
theorem dot_unravel (h : ∀ n ∈ shape, 0 < n) (k : Int) :
    dot (unravel shape k) (rowMajor shape) = k % shape.prod := by
  induction shape with
  | nil => simp [unravel, rowMajor]
  | cons n ns ih =>
    have hp : 0 < ns.prod := prod_pos fun m hm => h m (by simp [hm])
    rw [unravel, rowMajor, dot_cons, ih fun m hm => h m (by simp [hm]), prod_cons]
    have hdiv : k / (n * ns.prod) = k / ns.prod / n := by
      rw [mul_comm, Int.ediv_ediv_of_nonneg hp.le]
    rw [Int.emod_def k (n * ns.prod), Int.emod_def k ns.prod, Int.emod_def (k / ns.prod) n, hdiv]
    ring

/-- Multi-indices are in lexicographic order when their row-major numbers are in order. -/
theorem lt_of_dot_lt {a b : List Int} (ha : Within a shape) (hb : Within b shape)
    (h : dot a (rowMajor shape) < dot b (rowMajor shape)) : a < b := by
  induction ha generalizing b with
  | nil =>
    cases hb
    exact absurd h (lt_irrefl _)
  | @cons i n a shape hi ha ih =>
    cases hb with
    | @cons j _ b _ hj hb =>
      have hda := dot_rowMajor_bounds ha
      have hdb := dot_rowMajor_bounds hb
      rw [rowMajor, dot_cons, dot_cons] at h
      rw [cons_lt_cons_iff]
      rcases lt_trichotomy i j with hlt | rfl | hgt
      · exact .inl hlt
      · exact .inr ⟨rfl, ih hb (by omega)⟩
      · have hle : (j + 1) * shape.prod ≤ i * shape.prod :=
          mul_le_mul_of_nonneg_right (by omega) (by omega)
        rw [add_mul] at hle
        omega

/-- Reading the row-major number back gives the multi-index. -/
theorem unravel_dot (h : Within idx shape) : unravel shape (dot idx (rowMajor shape)) = idx := by
  have key : ∀ (idx shape : List Int) (c : Int), Within idx shape →
      unravel shape (c * shape.prod + dot idx (rowMajor shape)) = idx := by
    intro idx shape c hw
    induction hw generalizing c with
    | nil => rfl
    | @cons i n idx shape hin hrest ih =>
      have hb := dot_rowMajor_bounds hrest
      have hsplit : c * (n * shape.prod) + (i * shape.prod + dot idx (rowMajor shape)) =
          (c * n + i) * shape.prod + dot idx (rowMajor shape) := by ring
      have hquot : ((c * n + i) * shape.prod + dot idx (rowMajor shape)) / shape.prod =
          c * n + i := by
        rw [add_comm, Int.add_mul_ediv_right _ _ (by omega),
          Int.ediv_eq_zero_of_lt hb.1 hb.2, zero_add]
      rw [rowMajor, dot_cons, prod_cons, hsplit, unravel, hquot, ih]
      congr 1
      rw [add_comm, Int.add_mul_emod_self_right]
      exact Int.emod_eq_of_lt hin.1 hin.2
  simpa using key idx shape 0 h

theorem unravel_getD (shape : List Int) (k : Int) (hd : d < shape.length) :
    (unravel shape k).getD d 0 = (k / (shape.drop (d + 1)).prod) % shape.getD d 0 := by
  induction shape generalizing d with
  | nil => simp at hd
  | cons n ns ih =>
    cases d with
    | zero => simp [unravel]
    | succ d => simpa [unravel] using ih (by simpa using hd)

/-- The loop that peels axes off a linear index, last axis first, adding up
the displacement as it goes. -/
def peel : List (Int × Int) → Int → Int → Int
  | [], _, acc => acc
  | (n, s) :: axes, rest, acc => peel axes (rest / n) (acc + rest % n * s)

theorem peel_append (axes axes' : List (Int × Int)) (rest acc : Int)
    (hpos : ∀ axis ∈ axes, 0 < axis.1) :
    peel (axes ++ axes') rest acc =
      peel axes' (rest / (axes.map Prod.fst).prod) (peel axes rest acc) := by
  induction axes generalizing rest acc with
  | nil => simp [peel]
  | cons axis axes ih =>
    obtain ⟨n, s⟩ := axis
    have hn : 0 < n := hpos (n, s) (by simp)
    rw [cons_append, peel, ih _ _ fun a ha => hpos a (by simp [ha]), peel]
    simp only [map_cons, prod_cons]
    rw [Int.ediv_ediv_of_nonneg hn.le]

/-- Peeling every axis adds the displacement of the unravelled multi-index. -/
theorem peel_reverse (hlen : strides.length = shape.length) (hpos : ∀ n ∈ shape, 0 < n)
    (k acc : Int) :
    peel (shape.zip strides).reverse k acc = acc + dot (unravel shape k) strides := by
  induction shape generalizing strides acc with
  | nil => simp [peel, unravel]
  | cons n ns ih =>
    cases strides with
    | nil => simp at hlen
    | cons s strides =>
      have hlen' : strides.length = ns.length := by simpa using hlen
      have hns : ∀ m ∈ ns, 0 < m := fun m hm => hpos m (by simp [hm])
      have hfst : ((ns.zip strides).reverse.map Prod.fst).prod = ns.prod := by
        rw [map_reverse, map_fst_zip (by omega), prod_reverse]
      have hzip : ∀ axis ∈ (ns.zip strides).reverse, 0 < axis.1 :=
        fun axis ha => hns _ (of_mem_zip (mem_reverse.mp ha)).1
      rw [zip_cons_cons, reverse_cons, peel_append _ _ _ _ hzip, hfst,
        ih hlen' hns, unravel, dot_cons]
      simp only [peel]
      ring

theorem peel_add (axes : List (Int × Int)) (rest acc c : Int) :
    peel axes rest (acc + c) = peel axes rest acc + c := by
  induction axes generalizing rest acc with
  | nil => rfl
  | cons axis axes ih =>
    rw [peel, peel, ← ih]
    ring

/-- How many axes, from the first of the list on, step over exactly the
elements of the axes before them, and how many elements these axes span. -/
def innerBlock : List (Int × Int) → Int → Int × Nat
  | [], expected => (expected, 0)
  | (n, s) :: axes, expected =>
    if s = expected then
      let inner := innerBlock axes (expected * n)
      (inner.1, inner.2 + 1)
    else (expected, 0)

theorem innerBlock_fst (axes : List (Int × Int)) (expected : Int) :
    (innerBlock axes expected).1 =
      expected * ((axes.take (innerBlock axes expected).2).map Prod.fst).prod := by
  induction axes generalizing expected with
  | nil => simp [innerBlock]
  | cons axis axes ih =>
    rw [innerBlock]
    split_ifs
    · simp only [take_succ_cons, map_cons, prod_cons]
      rw [ih, mul_assoc]
    · simp

theorem emod_mul_add (i : Int) {m : Int} (hn : 0 ≤ n) : i % (n * m) = i % n + n * (i / n % m) := by
  rw [Int.emod_def i (n * m), Int.emod_def i n, Int.emod_def (i / n) m,
    Int.ediv_ediv_of_nonneg hn]
  ring

/-- Inside the block the displacement is the position in the block. -/
theorem peel_innerBlock (axes : List (Int × Int)) (hpos : ∀ axis ∈ axes, 0 < axis.1)
    (expected rest acc : Int) :
    peel (axes.take (innerBlock axes expected).2) rest acc = acc + expected *
      (rest % ((axes.take (innerBlock axes expected).2).map Prod.fst).prod) := by
  induction axes generalizing expected rest acc with
  | nil => simp [innerBlock, peel]
  | cons axis axes ih =>
    obtain ⟨n, s⟩ := axis
    have hn : 0 < n := hpos (n, s) (by simp)
    rw [innerBlock]
    split_ifs with hs
    · subst hs
      simp only [take_succ_cons, map_cons, prod_cons, peel]
      rw [ih (fun a ha => hpos a (by simp [ha])), emod_mul_add _ hn.le]
      ring
    · simp [peel]

/-- Copying whole blocks reads the same element as peeling every axis. -/
theorem peel_block (axes : List (Int × Int)) (hpos : ∀ axis ∈ axes, 0 < axis.1) (k acc : Int) :
    peel (axes.drop (innerBlock axes 1).2) (k / (innerBlock axes 1).1) acc +
        k % (innerBlock axes 1).1 = peel axes k acc := by
  have hsplit := take_append_drop (innerBlock axes 1).2 axes
  have htake : ∀ axis ∈ axes.take (innerBlock axes 1).2, 0 < axis.1 :=
    fun axis ha => hpos axis (mem_of_mem_take ha)
  have hfst := innerBlock_fst axes 1
  rw [one_mul] at hfst
  conv_rhs => rw [← hsplit, peel_append _ _ _ _ htake, peel_innerBlock axes hpos, one_mul]
  rw [peel_add, ← hfst]

/-- Two row-major layouts with equally many elements address the same numbers. -/
theorem reshape_spec {shape' : List Int} (hnn : ∀ n ∈ shape, 0 ≤ n)
    (hprod : shape'.prod = shape.prod) (h : Within idx shape') :
    Within (unravel shape (dot idx (rowMajor shape'))) shape ∧
      dot (unravel shape (dot idx (rowMajor shape'))) (rowMajor shape) =
        dot idx (rowMajor shape') := by
  have hb := dot_rowMajor_bounds h
  rw [hprod] at hb
  have hpos : ∀ n ∈ shape, 0 < n := pos_of_prod_pos hnn (by omega)
  refine ⟨within_unravel hpos _, ?_⟩
  rw [dot_unravel hpos, Int.emod_eq_of_lt hb.1 hb.2]

end Strided
