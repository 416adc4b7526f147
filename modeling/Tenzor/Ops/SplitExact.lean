import Tenzor.Ops.Split

/-!
# When splitting partitions the axis

The ranges of equal strides cover the axis while nothing wraps; the last one may be shorter. For
each of the functions this decides on which arguments the pieces are a partition of the tensor.
-/

namespace Tenzor.ShapeOps

open Throwing Wrap64 List

variable {R : Type}

namespace Stored

section Strides

variable {dimSize stride i : Int} {rounds : ℕ}

theorem length_strideRanges_le (dimSize stride : Int) (rounds : ℕ) (i : Int) :
    (strideRanges dimSize stride rounds i).length ≤ rounds := by
  induction rounds generalizing i with
  | zero => exact le_rfl
  | succ rounds ih =>
    simp only [strideRanges]
    split
    · exact Nat.zero_le _
    · exact Nat.succ_le_succ (ih (i + 1))

/-- A round in which nothing wraps. -/
theorem strideRanges_succ (hstride : 0 < stride) (hi : 0 ≤ i)
    (hmax : (i + (rounds + 1 : ℕ)) * stride ≤ int64Max) :
    strideRanges dimSize stride (rounds + 1) i =
      if dimSize ≤ i * stride then []
      else (i * stride, min ((i + 1) * stride) dimSize) ::
        strideRanges dimSize stride rounds (i + 1) := by
  have hstart : 0 ≤ i * stride := mul_nonneg hi hstride.le
  have hnext : (i + 1) * stride = i * stride + stride := by ring
  have hle : (i + 1) * stride ≤ int64Max := by
    refine (mul_le_mul_of_nonneg_right ?_ hstride.le).trans hmax
    omega
  simp only [strideRanges, wrap64_of_nonneg hstart (by omega), ← hnext,
    wrap64_of_nonneg (by omega : 0 ≤ (i + 1) * stride) hle]

theorem covers_strideRanges (hstride : 0 < stride) (hi : 0 ≤ i)
    (hreach : dimSize ≤ (i + rounds) * stride) (hmax : (i + rounds) * stride ≤ int64Max) :
    Covers (min (i * stride) dimSize) (strideRanges dimSize stride rounds i) dimSize := by
  induction rounds generalizing i with
  | zero =>
    rw [Nat.cast_zero, add_zero] at hreach
    exact min_eq_right hreach
  | succ rounds ih =>
    rw [strideRanges_succ hstride hi hmax]
    split
    · rename_i hend
      exact min_eq_right hend
    · have hshift : i + (rounds + 1 : ℕ) = i + 1 + rounds := by
        push_cast
        ring
      rw [hshift] at hreach hmax
      have hnext : (i + 1) * stride = i * stride + stride := by ring
      refine ⟨by omega, ?_, ih (by omega) hreach hmax⟩
      omega

/-- Ranges of the stride, and a last one that may be shorter. -/
theorem sizes_strideRanges (hstride : 0 < stride) (hi : 0 ≤ i)
    (hreach : dimSize ≤ (i + rounds) * stride) (hmax : (i + rounds) * stride ≤ int64Max)
    (hlt : i * stride < dimSize) :
    ∃ (m : ℕ) (last : Int), (strideRanges dimSize stride rounds i).map rangeSize =
        List.replicate m stride ++ [last] ∧
      0 < last ∧ last ≤ stride ∧ (i + m) * stride + last = dimSize := by
  induction rounds generalizing i with
  | zero =>
    rw [Nat.cast_zero, add_zero] at hreach
    omega
  | succ rounds ih =>
    have hshift : i + (rounds + 1 : ℕ) = i + 1 + rounds := by
      push_cast
      ring
    have hnext : (i + 1) * stride = i * stride + stride := by ring
    rw [strideRanges_succ hstride hi hmax, if_neg (by omega)]
    rw [hshift] at hreach hmax
    by_cases hmore : (i + 1) * stride < dimSize
    · obtain ⟨m, last, hsizes, hpos, hle, hsum⟩ := ih (by omega) hreach hmax hmore
      refine ⟨m + 1, last, ?_, hpos, hle, ?_⟩
      · rw [map_cons, hsizes, replicate_succ, cons_append, rangeSize,
          min_eq_left hmore.le, hnext, add_sub_cancel_left]
      · rw [← hsum]
        push_cast
        ring
    · have hnil : strideRanges dimSize stride rounds (i + 1) = [] := by
        cases rounds with
        | zero => rfl
        | succ rounds =>
          rw [strideRanges_succ hstride (by omega) hmax, if_pos (by omega)]
      refine ⟨0, dimSize - i * stride, ?_, by omega, by omega, ?_⟩
      · rw [hnil, map_singleton, min_eq_right (by omega)]
        rfl
      · rw [Nat.cast_zero, add_zero]
        omega

/-- A stride of zero never leaves the start. -/
theorem strideRanges_zero (hpos : 0 < dimSize) :
    strideRanges dimSize 0 rounds i = List.replicate rounds (0, 0) := by
  have hzero : wrap64 0 = 0 := by decide
  induction rounds generalizing i with
  | zero => rfl
  | succ rounds ih =>
    simp only [strideRanges, mul_zero, hzero, add_zero, min_eq_left hpos.le, ih]
    rw [if_neg (by omega), replicate_succ]

/-- A backward stride takes the second slice before the first. -/
theorem slices_backward {t : Stored R} {d : ℕ} {held : Int} {pieces : List (Stored R)}
    (hd : d < t.shape.length) (hpos : 0 < t.size d)
    (hneg : stride < 0) (hmin : int64Min ≤ 2 * stride) (hrounds : 2 ≤ rounds) :
    t.slices d held (strideRanges (t.size d) stride rounds 0) ≠ .ok pieces := by
  obtain ⟨k, rfl⟩ := Nat.exists_eq_add_of_le' hrounds
  have hword : ∀ x, int64Min ≤ x → x ≤ 0 → wrap64 x = x := by
    intro x hx hx'
    refine wrap64_of_inInt64 ⟨hx, ?_⟩
    simp only [int64Max]
    omega
  have hzero : wrap64 0 = 0 := by decide
  have hone : wrap64 stride = stride := hword stride (by omega) hneg.le
  have htwo : wrap64 (stride + stride) = stride + stride := hword _ (by omega) (by omega)
  simp only [strideRanges, zero_mul, hzero, zero_add, one_mul, hone, htwo]
  rw [if_neg (by omega), if_neg (by omega)]
  intro h
  obtain ⟨_, _, -, -, h, -⟩ := slices_cons_eq_ok.mp h
  obtain ⟨_, _, h, -, -, -⟩ := slices_cons_eq_ok.mp h
  have hbounds := slice_bounds hd h
  simp only [normalizeDim] at hbounds
  have hmin' : min (stride + stride) (t.size d) = stride + stride := min_eq_left (by omega)
  omega

end Strides

section Rounding

variable {dimSize n : Int}

/-- The quotient of the wrapped sum, rounded up where nothing wraps. -/
def ceilDiv (dimSize n : Int) : Int := (wrap64 (dimSize + n - 1)).tdiv n

theorem ceilDiv_spec (hn : 0 < n) (hpos : 0 ≤ dimSize) (hmax : dimSize + n - 1 ≤ int64Max) :
    (ceilDiv dimSize n - 1) * n < dimSize ∧ dimSize ≤ ceilDiv dimSize n * n := by
  rw [ceilDiv, wrap64_of_nonneg (by omega) hmax, Int.tdiv_eq_ediv_of_nonneg (by omega)]
  have hle := Int.ediv_mul_le (dimSize + n - 1) hn.ne'
  have hlt := Int.lt_ediv_add_one_mul_self (dimSize + n - 1) hn
  have hsub : ((dimSize + n - 1) / n - 1) * n = (dimSize + n - 1) / n * n - n := by ring
  have hadd : ((dimSize + n - 1) / n + 1) * n = (dimSize + n - 1) / n * n + n := by ring
  omega

theorem ceilDiv_pos (hn : 0 < n) (hpos : 0 < dimSize) (hmax : dimSize + n - 1 ≤ int64Max) :
    0 < ceilDiv dimSize n := by
  have hreach := (ceilDiv_spec hn hpos.le hmax).2
  by_contra hle
  have hneg : ceilDiv dimSize n * n ≤ 0 := mul_nonpos_of_nonpos_of_nonneg (by omega) hn.le
  omega

theorem ceilDiv_zero (hn : 0 < n) (hmax : n ≤ int64Max) : ceilDiv 0 n = 0 := by
  have hword : wrap64 (0 + n - 1) = n - 1 := by
    rw [zero_add]
    exact wrap64_of_nonneg (by omega) (by omega)
  exact Int.tdiv_eq_zero_of_lt (by omega) (by omega)

/-- Past the largest word the sum comes back negative. -/
theorem ceilDiv_wrapped (hn : 0 < n) (hnmax : n ≤ int64Max) (hdmax : dimSize ≤ int64Max)
    (hover : int64Max < dimSize + n - 1) :
    ceilDiv dimSize n = -((18446744073709551617 - dimSize - n) / n) := by
  have hword := wrap64_of_carry hover (by omega)
  have hneg : dimSize + n - 1 - 18446744073709551616 = -(18446744073709551617 - dimSize - n) := by
    ring
  rw [ceilDiv, hword, hneg, Int.neg_tdiv]
  have hmax : int64Max = 9223372036854775807 := rfl
  rw [Int.tdiv_eq_ediv_of_nonneg (by omega)]

end Rounding

/-! ## What the pieces are -/

section Pieces

variable (t : Stored R) (dim : Int)

def ValidDim : Prop := 0 ≤ normalizeDim dim t.ndim ∧ normalizeDim dim t.ndim < t.ndim

/-- The axis of the dimension. -/
def axis : ℕ := (normalizeDim dim t.ndim).toNat

/-- The size that is split. -/
def sizeAlong : Int := t.size (normalizeDim dim t.ndim)

/-- The pieces are views of consecutive ranges that cover the axis. Joined they are the tensor, with
its quantization. -/
structure Partitions [Zero R] (pieces : List (Stored R)) : Prop where
  views : ∃ ranges, Covers 0 ranges (t.sizeAlong dim) ∧
    List.Forall₂ (t.ViewOf (t.axis dim)) ranges pieces
  joined : ∃ y, cat pieces dim = .ok y ∧ t.Same y

/-- At most `n` pieces, none empty or only one, all of one size but the last. -/
structure Chunks [Zero R] (n : Int) (pieces : List (Stored R)) : Prop where
  partitions : t.Partitions dim pieces
  length_le : (pieces.length : Int) ≤ n
  nonempty_or_single : (∀ s ∈ sizesAlong (t.axis dim) pieces, 0 < s) ∨ pieces.length = 1
  equal_sizes : ∃ size, ∀ s ∈ (sizesAlong (t.axis dim) pieces).dropLast, s = size

/-- Exactly `n` pieces whose sizes differ by at most one. -/
structure Sections [Zero R] (n : Int) (pieces : List (Stored R)) : Prop where
  partitions : t.Partitions dim pieces
  length_eq : (pieces.length : Int) = n
  balanced : ∀ s ∈ sizesAlong (t.axis dim) pieces, ∀ s' ∈ sizesAlong (t.axis dim) pieces, s ≤ s' + 1

end Pieces

section

variable {t : Stored R} {dim : Int} {pieces : List (Stored R)}

theorem dimFrom_eq_ok {e : Exn} {d : Int} :
    t.dimFrom e dim = .ok d ↔ t.ValidDim dim ∧ d = normalizeDim dim t.ndim := by
  simp only [dimFrom, bind_eq_ok, throwIf_eq_ok, pure_eq_ok, ValidDim]
  constructor
  · rintro ⟨-, hguard, rfl⟩
    exact ⟨by omega, rfl⟩
  · rintro ⟨hvalid, rfl⟩
    exact ⟨(), by omega, rfl⟩

theorem ValidDim.normalizeDim_eq (h : t.ValidDim dim) : normalizeDim dim t.ndim = t.axis dim := by
  unfold ValidDim at h
  unfold axis
  omega

theorem ValidDim.axis_lt (h : t.ValidDim dim) : t.axis dim < t.shape.length := by
  have hlt := h.2
  rw [h.normalizeDim_eq, ndim_eq] at hlt
  exact_mod_cast hlt

theorem ValidDim.size_axis (h : t.ValidDim dim) : t.size (t.axis dim) = t.sizeAlong dim := by
  rw [sizeAlong, h.normalizeDim_eq]

theorem ValidDim.sizeAlong_nonneg (h : t.ValidDim dim) : 0 ≤ t.sizeAlong dim := by
  exact t.elements.nonneg_getD h.axis_lt

theorem sizeAlong_le (dim : Int) (hshape : ∀ n ∈ t.shape, n ≤ int64Max) : t.sizeAlong dim ≤ int64Max := by
  unfold sizeAlong size Tensor.size
  by_cases hlt : (normalizeDim dim t.ndim).toNat < t.shape.length
  · rw [getD_eq_getElem _ _ hlt]
    exact hshape _ (getElem_mem hlt)
  · rw [getD_eq_default _ _ (not_lt.mp hlt)]
    decide

/-- No pieces are no partition. -/
theorem not_partitions_nil [Zero R] : ¬ t.Partitions dim [] := by
  rintro ⟨-, y, hy, -⟩
  cases hy

/-- Slices at ranges that cover the axis are a partition unless several of them are to carry a
quantization. -/
theorem partitions_iff_of_slices [Zero R] {ranges : List (Int × Int)} (hvalid : t.ValidDim dim)
    (hcovers : Covers 0 ranges (t.sizeAlong dim)) (hne : ranges ≠ [])
    (h : t.slices (t.axis dim) 0 ranges = .ok pieces) :
    (t.Partitions dim pieces ↔ t.quantization = {} ∨ ranges.length = 1) ∧
      sizesAlong (t.axis dim) pieces = ranges.map rangeSize := by
  have hd := hvalid.axis_lt
  have hcovers' := hcovers
  have hviews := views_of_slices hd hcovers'.bounds.2 h
  have hpieces : pieces ≠ [] := by
    rintro rfl
    exact hne (forall₂_nil_right_iff.mp hviews)
  obtain ⟨y, hy, hsame, hq⟩ := exists_cat_views hd hvalid.normalizeDim_eq hcovers' hviews hpieces
  refine ⟨⟨fun hpart => ?_, fun hkept => ?_⟩, sizesAlong_views hd hviews⟩
  · obtain ⟨y', hy', hsame'⟩ := hpart.joined
    obtain rfl : y = y' := Except.ok.inj (hy.symm.trans hy')
    by_contra hlost
    obtain ⟨hquantized, hmany⟩ := not_or.mp hlost
    rw [if_neg hmany] at hq
    exact hquantized (hsame'.quantization_eq.trans hq)
  · refine ⟨⟨ranges, hcovers, hviews⟩, y, hy, hsame, ?_⟩
    rw [hq]
    split
    · rfl
    · rename_i hmany
      exact hkept.resolve_right hmany

end

section Points

variable {t : Stored R} {dim : Int} {pieces : List (Stored R)}

theorem covers_pointRanges {dimSize prev : Int} (hprev : prev ≤ dimSize) (indices : List Int) :
    Covers prev (pointRanges dimSize prev indices) dimSize := by
  induction indices generalizing prev with
  | nil => exact ⟨rfl, hprev, rfl⟩
  | cons idx indices ih =>
    have hpoint : prev ≤ splitPoint dimSize prev idx ∧ splitPoint dimSize prev idx ≤ dimSize := by
      simp only [splitPoint]
      split_ifs <;> omega
    exact ⟨rfl, hpoint.1, ih hpoint.2⟩

theorem length_pointRanges (dimSize prev : Int) (indices : List Int) :
    (pointRanges dimSize prev indices).length = indices.length + 1 := by
  induction indices generalizing prev with
  | nil => rfl
  | cons idx indices ih => rw [pointRanges, length_cons, ih, length_cons]

theorem tensorSplitAt_eq_ok {indices : List Int} : t.tensorSplitAt indices dim = .ok pieces ↔
    t.ValidDim dim ∧
      t.slices (t.axis dim) 0 (pointRanges (t.sizeAlong dim) 0 indices) = .ok pieces := by
  simp only [tensorSplitAt, bind_eq_ok, dimFrom_eq_ok]
  constructor
  · rintro ⟨_, ⟨hvalid, rfl⟩, h⟩
    rw [hvalid.normalizeDim_eq] at h
    exact ⟨hvalid, hvalid.size_axis ▸ h⟩
  · rintro ⟨hvalid, h⟩
    rw [← hvalid.size_axis, ← hvalid.normalizeDim_eq] at h
    exact ⟨_, ⟨hvalid, rfl⟩, h⟩

/-- The inputs on which `tensor_split` at split points gives pieces of a quantized tensor that
cannot be joined again. -/
def PointsLose (t : Stored R) (dim : Int) (indices : List Int) : Prop :=
  t.ValidDim dim ∧ t.quantization ≠ {} ∧ indices ≠ [] ∧ (indices.length : Int) < maxPieces

theorem tensorSplitAt_partitions_iff [Zero R] {indices : List Int} :
    (∀ pieces, t.tensorSplitAt indices dim = .ok pieces → t.Partitions dim pieces) ↔
      ¬ t.PointsLose dim indices := by
  have hlen := length_pointRanges (t.sizeAlong dim) 0 indices
  have hne : pointRanges (t.sizeAlong dim) 0 indices ≠ [] := ne_nil_of_length_pos (by omega)
  constructor
  · rintro h ⟨hvalid, hquantized, hsome, hroom⟩
    have hcovers := covers_pointRanges hvalid.sizeAlong_nonneg indices
    have hbounds := hcovers.bounds.2
    rw [← hvalid.size_axis] at hbounds hlen
    have hfew : 0 + ((pointRanges (t.size (t.axis dim)) 0 indices).length : Int) ≤ maxPieces := by
      omega
    obtain ⟨pieces, hpieces⟩ := exists_slices hvalid.axis_lt hbounds hfew
    rw [hvalid.size_axis] at hpieces hlen
    have hpart := h pieces (tensorSplitAt_eq_ok.mpr ⟨hvalid, hpieces⟩)
    have hcount := ((partitions_iff_of_slices hvalid hcovers hne hpieces).1.mp hpart).resolve_left
      hquantized
    have hpos := length_pos_iff.mpr hsome
    omega
  · intro hkept pieces h
    obtain ⟨hvalid, hslices⟩ := tensorSplitAt_eq_ok.mp h
    have hcovers := covers_pointRanges hvalid.sizeAlong_nonneg indices
    refine (partitions_iff_of_slices hvalid hcovers hne hslices).1.mpr ?_
    by_contra hlost
    obtain ⟨hquantized, hmany⟩ := not_or.mp hlost
    have hroom := (length_of_slices (by decide) hslices).1
    refine hkept ⟨hvalid, hquantized, ?_, by omega⟩
    rintro rfl
    exact hmany hlen

end Points

/-! ## Equal strides -/

section Calls

variable {t : Stored R} {dim n : Int} {pieces : List (Stored R)} {stride dimSize last : Int} {m : ℕ}

theorem split_eq_ok : t.split n dim = .ok pieces ↔
    0 < n ∧ t.ValidDim dim ∧ (0 ≤ ceilDiv (t.sizeAlong dim) n ∧
      ceilDiv (t.sizeAlong dim) n ≤ maxPieces) ∧
      t.slices (t.axis dim) 0 (strideRanges (t.sizeAlong dim) n
        (ceilDiv (t.sizeAlong dim) n).toNat 0) = .ok pieces := by
  simp only [split, bind_eq_ok, throwIf_eq_ok, dimFrom_eq_ok, reserve, not_le, not_or, not_lt]
  constructor
  · rintro ⟨-, hn, _, ⟨hvalid, rfl⟩, -, hroom, h⟩
    rw [hvalid.normalizeDim_eq] at h
    exact ⟨hn, hvalid, hroom, h⟩
  · rintro ⟨hn, hvalid, hroom, h⟩
    rw [← hvalid.normalizeDim_eq] at h
    exact ⟨(), hn, _, ⟨hvalid, rfl⟩, (), hroom, h⟩

theorem chunk_eq_ok : t.chunk n dim = .ok pieces ↔
    0 < n ∧ t.ValidDim dim ∧ n ≤ maxPieces ∧
      t.slices (t.axis dim) 0 (strideRanges (t.sizeAlong dim) (ceilDiv (t.sizeAlong dim) n)
        n.toNat 0) = .ok pieces := by
  simp only [chunk, bind_eq_ok, throwIf_eq_ok, dimFrom_eq_ok, reserve, not_le, not_or, not_lt]
  constructor
  · rintro ⟨-, hn, _, ⟨hvalid, rfl⟩, -, hroom, h⟩
    rw [hvalid.normalizeDim_eq] at h
    exact ⟨hn, hvalid, hroom.2, h⟩
  · rintro ⟨hn, hvalid, hroom, h⟩
    rw [← hvalid.normalizeDim_eq] at h
    exact ⟨(), hn, _, ⟨hvalid, rfl⟩, (), ⟨hn.le, hroom⟩, h⟩

theorem tensorSplit_eq_ok : t.tensorSplit n dim = .ok pieces ↔
    0 < n ∧ t.ValidDim dim ∧
      t.slices (t.axis dim) 0 (strideRanges (t.sizeAlong dim) (ceilDiv (t.sizeAlong dim) n)
        n.toNat 0) = .ok pieces := by
  simp only [tensorSplit, bind_eq_ok, throwIf_eq_ok, dimFrom_eq_ok, not_le]
  constructor
  · rintro ⟨-, hn, _, ⟨hvalid, rfl⟩, h⟩
    rw [hvalid.normalizeDim_eq] at h
    exact ⟨hn, hvalid, h⟩
  · rintro ⟨hn, hvalid, h⟩
    rw [← hvalid.normalizeDim_eq] at h
    exact ⟨(), hn, _, ⟨hvalid, rfl⟩, h⟩

/-- An axis of size zero gives no pieces. -/
theorem strideRanges_empty {rounds : ℕ} (hstride : stride = 0) :
    strideRanges 0 stride rounds 0 = [] := by
  cases rounds with
  | zero => rfl
  | succ rounds =>
    subst hstride
    rfl

/-- One range is enough when the stride reaches the end. -/
theorem length_eq_one_iff {ranges : List (Int × Int)}
    (hsizes : ranges.map rangeSize = List.replicate m stride ++ [last]) (hpos : 0 < last)
    (hle : last ≤ stride) (hsum : m * stride + last = dimSize) :
    ranges.length = 1 ↔ dimSize ≤ stride := by
  have hlen := congrArg List.length hsizes
  simp only [length_map, length_append, length_replicate, length_singleton] at hlen
  constructor
  · intro hone
    obtain rfl : m = 0 := by omega
    omega
  · intro hreach
    by_contra hmany
    have hmul : 1 * stride ≤ m * stride := mul_le_mul_of_nonneg_right (by omega) (by omega)
    omega

/-- The ranges of a size that is given. -/
theorem splitRanges_spec (hn : 0 < n) (hpos : 0 < dimSize) (hfit : dimSize + n - 1 ≤ int64Max) :
    Covers 0 (strideRanges dimSize n (ceilDiv dimSize n).toNat 0) dimSize ∧
      ∃ (m : ℕ) (last : Int),
        (strideRanges dimSize n (ceilDiv dimSize n).toNat 0).map rangeSize =
          List.replicate m n ++ [last] ∧ 0 < last ∧ last ≤ n ∧ (m : Int) * n + last = dimSize := by
  obtain ⟨hbelow, hreach⟩ := ceilDiv_spec hn hpos.le hfit
  have hcount := ceilDiv_pos hn hpos hfit
  have hcast : (0 : Int) + (ceilDiv dimSize n).toNat = ceilDiv dimSize n := by omega
  have hlast : (ceilDiv dimSize n - 1) * n = ceilDiv dimSize n * n - n := by ring
  have hreach' : dimSize ≤ (0 + ((ceilDiv dimSize n).toNat : Int)) * n := by rwa [hcast]
  have hroom : (0 + ((ceilDiv dimSize n).toNat : Int)) * n ≤ int64Max := by
    rw [hcast]
    omega
  have hcovers := covers_strideRanges hn le_rfl hreach' hroom
  rw [zero_mul, min_eq_left hpos.le] at hcovers
  obtain ⟨m, last, hsizes, hlastpos, hle, hsum⟩ :=
    sizes_strideRanges hn le_rfl hreach' hroom (by rwa [zero_mul])
  rw [zero_add] at hsum
  exact ⟨hcovers, m, last, hsizes, hlastpos, hle, hsum⟩

theorem ne_nil_of_covers {ranges : List (Int × Int)} (hcovers : Covers 0 ranges dimSize)
    (hpos : 0 < dimSize) : ranges ≠ [] := by
  rintro rfl
  exact hpos.ne hcovers

/-- The inputs on which `split` gives a list of pieces that is no partition. -/
def SplitLoses (t : Stored R) (dim splitSize : Int) : Prop :=
  0 < splitSize ∧ t.ValidDim dim ∧
    (t.sizeAlong dim = 0 ∨ 18446744073709551617 < t.sizeAlong dim + 2 * splitSize ∨
      (t.quantization ≠ {} ∧ splitSize < t.sizeAlong dim ∧
        t.sizeAlong dim + splitSize - 1 ≤ int64Max ∧
        ceilDiv (t.sizeAlong dim) splitSize ≤ maxPieces))

/-- Ranges that are inside the axis and few enough are taken. -/
theorem exists_slices_covers {ranges : List (Int × Int)} (hvalid : t.ValidDim dim)
    (hcovers : Covers 0 ranges (t.sizeAlong dim)) (hroom : (ranges.length : Int) ≤ maxPieces) :
    ∃ pieces, t.slices (t.axis dim) 0 ranges = .ok pieces := by
  have hbounds := hcovers.bounds.2
  rw [← hvalid.size_axis] at hbounds
  exact exists_slices hvalid.axis_lt hbounds (by omega)

theorem split_partitions_iff [Zero R] (hshape : ∀ n ∈ t.shape, n ≤ int64Max) (hn : InInt64 n) :
    (∀ pieces, t.split n dim = .ok pieces → t.Partitions dim pieces) ↔ ¬ t.SplitLoses dim n := by
  have hmax := sizeAlong_le dim hshape
  have hword : int64Max = 9223372036854775807 := rfl
  constructor
  · rintro h ⟨hpos, hvalid, hlost⟩
    have hnn := hvalid.sizeAlong_nonneg
    by_cases hzero : ceilDiv (t.sizeAlong dim) n = 0
    · refine not_partitions_nil (h [] (split_eq_ok.mpr ⟨hpos, hvalid, ?_, ?_⟩))
      · rw [hzero]
        decide
      · rw [hzero]
        rfl
    · obtain hlost | hlost | ⟨hquantized, hmore, hfit, hroom⟩ := hlost
      · rw [hlost, ceilDiv_zero hpos hn.2] at hzero
        exact hzero rfl
      · rw [ceilDiv_wrapped hpos hn.2 hmax (by omega),
          Int.ediv_eq_zero_of_lt (by have := hn.2; omega) (by omega), neg_zero] at hzero
        exact hzero rfl
      · have hcount := ceilDiv_pos hpos (by omega) hfit
        obtain ⟨hcovers, m, last, hsizes, hlast, hle, hsum⟩ :=
          splitRanges_spec hpos (by omega) hfit
        have hlen := length_strideRanges_le (t.sizeAlong dim) n
          (ceilDiv (t.sizeAlong dim) n).toNat 0
        obtain ⟨pieces, hpieces⟩ := exists_slices_covers hvalid hcovers (by omega)
        have hpart := h pieces (split_eq_ok.mpr ⟨hpos, hvalid, ⟨hcount.le, hroom⟩, hpieces⟩)
        have hone := ((partitions_iff_of_slices hvalid hcovers
          (ne_nil_of_covers hcovers (by omega)) hpieces).1.mp hpart).resolve_left hquantized
        rw [length_eq_one_iff hsizes hlast hle hsum] at hone
        omega
  · intro hkeep pieces h
    obtain ⟨hpos, hvalid, ⟨hcount, hroom⟩, hslices⟩ := split_eq_ok.mp h
    have hnn := hvalid.sizeAlong_nonneg
    have hsize : 0 < t.sizeAlong dim ∧ t.sizeAlong dim + 2 * n ≤ 18446744073709551617 := by
      by_contra hlost
      exact hkeep ⟨hpos, hvalid, by omega⟩
    have hfit : t.sizeAlong dim + n - 1 ≤ int64Max := by
      by_contra hover
      have hquot : 1 ≤ (18446744073709551617 - t.sizeAlong dim - n) / n :=
        (Int.le_ediv_iff_mul_le hpos).mpr (by omega)
      rw [ceilDiv_wrapped hpos hn.2 hmax (by omega)] at hcount
      omega
    obtain ⟨hcovers, m, last, hsizes, hlast, hle, hsum⟩ := splitRanges_spec hpos hsize.1 hfit
    refine (partitions_iff_of_slices hvalid hcovers
      (ne_nil_of_covers hcovers hsize.1) hslices).1.mpr ?_
    rw [length_eq_one_iff hsizes hlast hle hsum]
    by_contra hlost
    obtain ⟨hquantized, hmore⟩ := not_or.mp hlost
    exact hkeep ⟨hpos, hvalid, .inr (.inr ⟨hquantized, not_le.mp hmore, hfit, hroom⟩)⟩

/-- The ranges of a size that is rounded up. -/
theorem ceilRanges_spec (hn : 0 < n) (hpos : 0 < dimSize) (hfit : dimSize + n - 1 ≤ int64Max) :
    Covers 0 (strideRanges dimSize (ceilDiv dimSize n) n.toNat 0) dimSize ∧
      ∃ (m : ℕ) (last : Int),
        (strideRanges dimSize (ceilDiv dimSize n) n.toNat 0).map rangeSize =
          List.replicate m (ceilDiv dimSize n) ++ [last] ∧
        0 < last ∧ last ≤ ceilDiv dimSize n ∧ (m : Int) * ceilDiv dimSize n + last = dimSize := by
  obtain ⟨hbelow, hreach⟩ := ceilDiv_spec hn hpos.le hfit
  have hstride := ceilDiv_pos hn hpos hfit
  have hcast : (0 : Int) + n.toNat = n := by omega
  have hlast : (ceilDiv dimSize n - 1) * n = ceilDiv dimSize n * n - n := by ring
  have hcomm : n * ceilDiv dimSize n = ceilDiv dimSize n * n := mul_comm _ _
  have hreach' : dimSize ≤ (0 + (n.toNat : Int)) * ceilDiv dimSize n := by
    rw [hcast]
    omega
  have hroom : (0 + (n.toNat : Int)) * ceilDiv dimSize n ≤ int64Max := by
    rw [hcast]
    omega
  have hcovers := covers_strideRanges hstride le_rfl hreach' hroom
  rw [zero_mul, min_eq_left hpos.le] at hcovers
  obtain ⟨m, last, hsizes, hlastpos, hle, hsum⟩ :=
    sizes_strideRanges hstride le_rfl hreach' hroom (by rwa [zero_mul])
  rw [zero_add] at hsum
  exact ⟨hcovers, m, last, hsizes, hlastpos, hle, hsum⟩

/-- A sum that wraps gives a backward stride, unless the quotient is zero. -/
theorem slices_wrapped {held : Int} (hn : 0 < n) (hnmax : n ≤ int64Max) (hvalid : t.ValidDim dim)
    (hmax : t.sizeAlong dim ≤ int64Max) (hover : int64Max < t.sizeAlong dim + n - 1)
    (hquot : t.sizeAlong dim + 2 * n ≤ 18446744073709551617) :
    t.slices (t.axis dim) held (strideRanges (t.sizeAlong dim) (ceilDiv (t.sizeAlong dim) n)
      n.toNat 0) ≠ .ok pieces := by
  have hword : int64Max = 9223372036854775807 := rfl
  have hwrapped := ceilDiv_wrapped hn hnmax hmax hover
  have hone : 1 ≤ (18446744073709551617 - t.sizeAlong dim - n) / n :=
    (Int.le_ediv_iff_mul_le hn).mpr (by omega)
  have hhalf : (18446744073709551617 - t.sizeAlong dim - n) / n < 4611686018427387905 :=
    Int.ediv_lt_of_lt_mul hn (by omega)
  have hmin : int64Min ≤ 2 * ceilDiv (t.sizeAlong dim) n := by
    unfold int64Min
    omega
  have hneg : ceilDiv (t.sizeAlong dim) n < 0 := by omega
  rw [← hvalid.size_axis] at hneg hmin hmax hover ⊢
  exact slices_backward hvalid.axis_lt (by omega) hneg hmin (by omega)

/-- The inputs on which `chunk` gives a list of pieces that is no partition. -/
def ChunkLoses (t : Stored R) (dim chunks : Int) : Prop :=
  0 < chunks ∧ chunks ≤ maxPieces ∧ t.ValidDim dim ∧ (t.sizeAlong dim = 0 ∨
    (t.quantization ≠ {} ∧ t.sizeAlong dim + chunks - 1 ≤ int64Max ∧
      ceilDiv (t.sizeAlong dim) chunks < t.sizeAlong dim))

theorem chunk_chunks_iff [Zero R] (hshape : ∀ n ∈ t.shape, n ≤ int64Max) (hn : InInt64 n) :
    (∀ pieces, t.chunk n dim = .ok pieces → t.Chunks dim n pieces) ↔ ¬ t.ChunkLoses dim n := by
  have hmax := sizeAlong_le dim hshape
  have hword : int64Max = 9223372036854775807 := rfl
  have hbound : maxPieces = 1152921504606846975 := rfl
  constructor
  · rintro h ⟨hpos, hroom, hvalid, hlost⟩
    have hnn := hvalid.sizeAlong_nonneg
    obtain hzero | hsize := hnn.eq_or_lt'
    · refine not_partitions_nil (h [] (chunk_eq_ok.mpr ⟨hpos, hvalid, hroom, ?_⟩)).partitions
      rw [hzero, strideRanges_empty (ceilDiv_zero hpos hn.2)]
      rfl
    · obtain ⟨hquantized, hfit, hmore⟩ := hlost.resolve_left hsize.ne'
      obtain ⟨hcovers, m, last, hsizes, hlast, hle, hsum⟩ := ceilRanges_spec hpos hsize hfit
      have hlen := length_strideRanges_le (t.sizeAlong dim) (ceilDiv (t.sizeAlong dim) n) n.toNat 0
      obtain ⟨pieces, hpieces⟩ := exists_slices_covers hvalid hcovers (by omega)
      have hpart := (h pieces (chunk_eq_ok.mpr ⟨hpos, hvalid, hroom, hpieces⟩)).partitions
      have hone := ((partitions_iff_of_slices hvalid hcovers
        (ne_nil_of_covers hcovers hsize) hpieces).1.mp hpart).resolve_left hquantized
      rw [length_eq_one_iff hsizes hlast hle hsum] at hone
      omega
  · intro hkeep pieces h
    obtain ⟨hpos, hvalid, hroom, hslices⟩ := chunk_eq_ok.mp h
    have hnn := hvalid.sizeAlong_nonneg
    have hsize : 0 < t.sizeAlong dim := by
      by_contra hlost
      exact hkeep ⟨hpos, hroom, hvalid, .inl (by omega)⟩
    have hfit : t.sizeAlong dim + n - 1 ≤ int64Max := by
      by_contra hover
      exact slices_wrapped hpos hn.2 hvalid hmax (by omega) (by omega) hslices
    obtain ⟨hcovers, m, last, hsizes, hlast, hle, hsum⟩ := ceilRanges_spec hpos hsize hfit
    obtain ⟨hkept, hpieces⟩ :=
      partitions_iff_of_slices hvalid hcovers (ne_nil_of_covers hcovers hsize) hslices
    have hpart : t.Partitions dim pieces := by
      rw [hkept, length_eq_one_iff hsizes hlast hle hsum]
      by_contra hlost
      obtain ⟨hquantized, hmore⟩ := not_or.mp hlost
      exact hkeep ⟨hpos, hroom, hvalid, .inr ⟨hquantized, hfit, not_le.mp hmore⟩⟩
    have hlen := (length_of_slices (by decide) hslices).2
    have hrounds := length_strideRanges_le (t.sizeAlong dim) (ceilDiv (t.sizeAlong dim) n)
      n.toNat 0
    rw [hsizes] at hpieces
    refine ⟨hpart, by omega, .inl ?_, ceilDiv (t.sizeAlong dim) n, ?_⟩
    · rw [hpieces]
      intro s hs
      obtain hs | hs := mem_append.mp hs
      · rw [eq_of_mem_replicate hs]
        omega
      · rwa [mem_singleton.mp hs]
    · rw [hpieces, dropLast_concat]
      exact fun s hs => eq_of_mem_replicate hs

/-- Pieces of one size and a shorter last one are `n` balanced pieces exactly when the size leaves
no remainder, or only the last piece is one short. -/
theorem balanced_iff (hn : 0 < n) (hbelow : (stride - 1) * n < dimSize)
    (hreach : dimSize ≤ stride * n) (hsum : m * stride + last = dimSize) (hpos : 0 < last)
    (hle : last ≤ stride) :
    (m + 1 = n ∧ (m = 0 ∨ stride ≤ last + 1)) ↔
      dimSize % n = 0 ∨ (dimSize % n = n - 1 ∧ n < dimSize) := by
  have hstride : 0 < stride := hpos.trans_le hle
  have hpred : (n - 1) * stride = stride * n - stride := by ring
  have hm : (m : Int) + 1 = n → (m : Int) * stride = stride * n - stride := by
    rintro rfl
    ring
  constructor
  · rintro ⟨hcount, hlast⟩
    by_cases hone : n = 1
    · rw [hone, Int.emod_one]
      exact .inl rfl
    · obtain hfull | hshort : last = stride ∨ last = stride - 1 := by omega
      · refine .inl ?_
        rw [show dimSize = stride * n by omega]
        exact Int.mul_emod_left stride n
      · have htwo : 2 * n ≤ stride * n := mul_le_mul_of_nonneg_right (by omega) hn.le
        refine .inr ⟨?_, by omega⟩
        have hsplit : dimSize = n - 1 + (stride - 1) * n := by
          rw [sub_mul]
          omega
        rw [hsplit, Int.add_mul_emod_self_right]
        exact Int.emod_eq_of_lt (by omega) (by omega)
  · intro hrem
    have hless : (m : Int) < n := by
      by_contra hge
      have hmul : n * stride ≤ m * stride := mul_le_mul_of_nonneg_right (by omega) hstride.le
      have hcomm : n * stride = stride * n := mul_comm _ _
      omega
    obtain ⟨hdef, hcase⟩ : stride * n - 1 ≤ dimSize ∧ (dimSize = stride * n ∨ 1 < stride) := by
      have hdiv := Int.emod_add_mul_ediv dimSize n
      have hring : (dimSize / n + 1) * n = n * (dimSize / n) + n := by ring
      obtain hrem | ⟨hrem, hlt⟩ := hrem
      · have hquot : stride ≤ dimSize / n := by
          have hlt : stride - 1 < dimSize / n :=
            lt_of_mul_lt_mul_right (by rw [mul_comm (dimSize / n)]; omega) hn.le
          omega
        have hmul : stride * n ≤ dimSize / n * n := mul_le_mul_of_nonneg_right hquot hn.le
        rw [mul_comm (dimSize / n)] at hmul
        omega
      · have hquot : stride ≤ dimSize / n + 1 := by
          have hlt : stride - 1 < dimSize / n + 1 :=
            lt_of_mul_lt_mul_right (by omega) hn.le
          omega
        have hmul : stride * n ≤ (dimSize / n + 1) * n := mul_le_mul_of_nonneg_right hquot hn.le
        by_contra hsmall
        have hunit : stride = 1 := by omega
        rw [hunit] at hmul hreach
        omega
    have hmore : n - 1 < (m : Int) + 1 := by
      have hup : (m + 1 : Int) * stride = m * stride + stride := by ring
      exact lt_of_mul_lt_mul_right (a := stride) (by omega) hstride.le
    omega

theorem pairwise_le_iff (hle : last ≤ stride) :
    (∀ s ∈ List.replicate m stride ++ [last], ∀ s' ∈ List.replicate m stride ++ [last],
      s ≤ s' + 1) ↔ m = 0 ∨ stride ≤ last + 1 := by
  have hmem : ∀ s, s ∈ List.replicate m stride ++ [last] ↔ (m ≠ 0 ∧ s = stride) ∨ s = last := by
    intro s
    rw [mem_append, mem_replicate, mem_singleton]
  simp only [hmem]
  constructor
  · intro h
    by_contra hlong
    have hstride := h stride (.inl ⟨by omega, rfl⟩) last (.inr rfl)
    omega
  · omega

/-- How many pieces of a size an axis is cut into. -/
def pieceCount (dimSize stride : Int) : Int := (dimSize + stride - 1) / stride

/-- The inputs on which `tensor_split` gives pieces that are not the sections. -/
def SectionsLose (t : Stored R) (dim sections : Int) : Prop :=
  0 < sections ∧ t.ValidDim dim ∧ t.sizeAlong dim + sections - 1 ≤ int64Max ∧
    pieceCount (t.sizeAlong dim) (ceilDiv (t.sizeAlong dim) sections) ≤ maxPieces ∧
    ¬ (0 < t.sizeAlong dim ∧ (t.sizeAlong dim % sections = 0 ∨
      (t.sizeAlong dim % sections = sections - 1 ∧ sections < t.sizeAlong dim)) ∧
      (t.quantization = {} ∨ sections = 1))

theorem pieceCount_eq (hsum : m * stride + last = dimSize) (hpos : 0 < last) (hle : last ≤ stride) :
    pieceCount dimSize stride = m + 1 := by
  have hsplit : dimSize + stride - 1 = last - 1 + (m + 1) * stride := by
    rw [← hsum]
    ring
  rw [pieceCount, hsplit, Int.add_mul_ediv_right _ _ (by omega),
    Int.ediv_eq_zero_of_lt (by omega) (by omega), zero_add]

theorem tensorSplit_sections_iff [Zero R] (hshape : ∀ n ∈ t.shape, n ≤ int64Max)
    (hn : InInt64 n) :
    (∀ pieces, t.tensorSplit n dim = .ok pieces → t.Sections dim n pieces) ↔
      ¬ t.SectionsLose dim n := by
  have hmax := sizeAlong_le dim hshape
  have hword : int64Max = 9223372036854775807 := rfl
  have hbound : maxPieces = 1152921504606846975 := rfl
  constructor
  · rintro h ⟨hpos, hvalid, hfit, hcount, hlost⟩
    have hnn := hvalid.sizeAlong_nonneg
    obtain hzero | hsize := hnn.eq_or_lt'
    · refine not_partitions_nil (h [] (tensorSplit_eq_ok.mpr ⟨hpos, hvalid, ?_⟩)).partitions
      rw [hzero, strideRanges_empty (ceilDiv_zero hpos hn.2)]
      rfl
    · obtain ⟨hbelow, hreach⟩ := ceilDiv_spec hpos hnn hfit
      obtain ⟨hcovers, m, last, hsizes, hlast, hle, hsum⟩ := ceilRanges_spec hpos hsize hfit
      have hlen := congrArg List.length hsizes
      simp only [length_map, length_append, length_replicate,
        length_singleton] at hlen
      rw [pieceCount_eq hsum hlast hle] at hcount
      obtain ⟨pieces, hpieces⟩ := exists_slices_covers hvalid hcovers (by omega)
      obtain ⟨hpart, hcount, hbalanced⟩ :=
        h pieces (tensorSplit_eq_ok.mpr ⟨hpos, hvalid, hpieces⟩)
      obtain ⟨hkept, hpsizes⟩ :=
        partitions_iff_of_slices hvalid hcovers (ne_nil_of_covers hcovers hsize) hpieces
      rw [hpsizes, hsizes, pairwise_le_iff hle] at hbalanced
      have hplen := (length_of_slices (by decide) hpieces).2
      exact hlost ⟨hsize, (balanced_iff hpos hbelow hreach hsum hlast hle).mp
        ⟨by omega, hbalanced⟩, (hkept.mp hpart).imp_right (by omega)⟩
  · intro hkeep pieces h
    obtain ⟨hpos, hvalid, hslices⟩ := tensorSplit_eq_ok.mp h
    have hnn := hvalid.sizeAlong_nonneg
    obtain ⟨hroom, hlen⟩ := length_of_slices (by decide) hslices
    have hfit : t.sizeAlong dim + n - 1 ≤ int64Max := by
      by_contra hover
      by_cases hquot : t.sizeAlong dim + 2 * n ≤ 18446744073709551617
      · exact slices_wrapped hpos hn.2 hvalid hmax (by omega) hquot hslices
      · have hnmax := hn.2
        rw [ceilDiv_wrapped hpos hnmax hmax (by omega),
          Int.ediv_eq_zero_of_lt (by omega) (by omega), neg_zero, strideRanges_zero (by omega),
          length_replicate] at hroom
        omega
    have hsize : 0 < t.sizeAlong dim := by
      by_contra hzero
      have hzero : t.sizeAlong dim = 0 := by omega
      refine hkeep ⟨hpos, hvalid, hfit, ?_, fun hgood => by omega⟩
      rw [hzero, ceilDiv_zero hpos hn.2]
      decide
    obtain ⟨hbelow, hreach⟩ := ceilDiv_spec hpos hnn hfit
    obtain ⟨hcovers, m, last, hsizes, hlast, hle, hsum⟩ := ceilRanges_spec hpos hsize hfit
    have hmlen := congrArg List.length hsizes
    simp only [length_map, length_append, length_replicate,
      length_singleton] at hmlen
    obtain ⟨hkept, hpsizes⟩ :=
      partitions_iff_of_slices hvalid hcovers (ne_nil_of_covers hcovers hsize) hslices
    obtain ⟨hgood, hplain⟩ : (t.sizeAlong dim % n = 0 ∨
        (t.sizeAlong dim % n = n - 1 ∧ n < t.sizeAlong dim)) ∧
        (t.quantization = {} ∨ n = 1) := by
      by_contra hlost
      refine hkeep ⟨hpos, hvalid, hfit, ?_, fun hgood => hlost hgood.2⟩
      rw [pieceCount_eq hsum hlast hle]
      omega
    obtain ⟨hcount, hbalanced⟩ := (balanced_iff hpos hbelow hreach hsum hlast hle).mpr hgood
    refine ⟨hkept.mpr (hplain.imp_right (by omega)), by omega, ?_⟩
    rwa [hpsizes, hsizes, pairwise_le_iff hle]

end Calls

section Sizes

variable {t : Stored R} {dim : Int} {splitSizes : List Int} {pieces : List (Stored R)}

theorem totalSize_eq_ok {start total : Int} (h : totalSize start splitSizes = .ok total) :
    (∀ s ∈ splitSizes, 0 ≤ s) ∧ wrap64 total = wrap64 (start + splitSizes.sum) := by
  induction splitSizes generalizing start with
  | nil =>
    obtain rfl : start = total := Except.ok.inj h
    simp
  | cons s splitSizes ih =>
    simp only [totalSize, bind_eq_ok, throwIf_eq_ok, not_lt] at h
    obtain ⟨-, hs, h⟩ := h
    obtain ⟨hrest, htotal⟩ := ih h
    refine ⟨forall_mem_cons.mpr ⟨hs, hrest⟩, ?_⟩
    rw [htotal, wrap64_add_wrap64, sum_cons, add_assoc]

/-- Slices that are taken have not wrapped: a wrapped end lies before its start. -/
theorem covers_of_sizedSlices {d : ℕ} {offset held : Int} (hd : d < t.shape.length)
    (hmax : t.size d ≤ int64Max) (hsizes : ∀ s ∈ splitSizes, 0 ≤ s ∧ s ≤ int64Max)
    (hoffset : 0 ≤ offset) (hin : offset ≤ t.size d)
    (h : t.slices d held (sizedRanges offset splitSizes) = .ok pieces) :
    Covers offset (sizedRanges offset splitSizes) (offset + splitSizes.sum) ∧
      offset + splitSizes.sum ≤ t.size d := by
  induction splitSizes generalizing offset held pieces with
  | nil => exact ⟨by simp [sizedRanges, Covers], by simpa using hin⟩
  | cons s splitSizes ih =>
    obtain ⟨⟨hs, hsmax⟩, hsizes⟩ := forall_mem_cons.mp hsizes
    obtain ⟨p, ps, hp, -, hps, -⟩ := slices_cons_eq_ok.mp h
    have hbounds := slice_bounds hd hp
    have hword : int64Max = 9223372036854775807 := rfl
    have hexact : wrap64 (offset + s) = offset + s := by
      by_cases hfit : offset + s ≤ int64Max
      · exact wrap64_of_nonneg (by omega) hfit
      · rw [wrap64_of_carry (by omega) (by omega)] at hbounds
        simp only [normalizeDim] at hbounds
        omega
    simp only [hexact, normalizeDim] at hbounds
    rw [if_neg (by omega), if_neg (by omega)] at hbounds
    rw [hexact] at hps
    obtain ⟨hcovers, hle⟩ := ih hsizes (by omega) hbounds.2.2 hps
    have hsum : offset + (s :: splitSizes).sum = offset + s + splitSizes.sum := by
      rw [sum_cons]
      ring
    rw [sizedRanges, hexact, hsum]
    exact ⟨⟨rfl, by omega, hcovers⟩, hle⟩

/-- Sizes that fit in a word are added up, and their ranges cover the axis. -/
theorem totalSize_of_nonneg {start : Int} (hstart : 0 ≤ start) (hsizes : ∀ s ∈ splitSizes, 0 ≤ s)
    (hfit : start + splitSizes.sum ≤ int64Max) :
    totalSize start splitSizes = .ok (start + splitSizes.sum) ∧
      Covers start (sizedRanges start splitSizes) (start + splitSizes.sum) := by
  induction splitSizes generalizing start with
  | nil => simp [totalSize, sizedRanges, Covers]
  | cons s splitSizes ih =>
    obtain ⟨hs, hsizes⟩ := forall_mem_cons.mp hsizes
    have hrest := sum_nonneg hsizes
    rw [sum_cons, ← add_assoc] at hfit ⊢
    have hexact : wrap64 (start + s) = start + s := wrap64_of_nonneg (by omega) (by omega)
    have hnext : 0 ≤ start + s := add_nonneg hstart hs
    obtain ⟨htotal, hcovers⟩ := ih hnext hsizes hfit
    refine ⟨?_, ?_⟩
    · rw [totalSize, throwIf_of_not (not_lt.mpr hs), hexact]
      exact htotal
    · rw [sizedRanges, hexact]
      exact ⟨rfl, by omega, hcovers⟩

theorem length_sizedRanges (offset : Int) (splitSizes : List Int) :
    (sizedRanges offset splitSizes).length = splitSizes.length := by
  induction splitSizes generalizing offset with
  | nil => rfl
  | cons s splitSizes ih => rw [sizedRanges, length_cons, ih, length_cons]

theorem splitWithSizes_eq_ok : t.splitWithSizes splitSizes dim = .ok pieces ↔
    t.ValidDim dim ∧ totalSize 0 splitSizes = .ok (t.sizeAlong dim) ∧
      (splitSizes.length : Int) ≤ maxPieces ∧
      t.slices (t.axis dim) 0 (sizedRanges 0 splitSizes) = .ok pieces := by
  simp only [splitWithSizes, bind_eq_ok, throwIf_eq_ok, dimFrom_eq_ok, reserve, not_or, not_lt,
    ne_eq, not_not]
  constructor
  · rintro ⟨_, ⟨hvalid, rfl⟩, total, htotal, -, rfl, -, hroom, h⟩
    rw [hvalid.normalizeDim_eq] at h
    exact ⟨hvalid, htotal, hroom.2, h⟩
  · rintro ⟨hvalid, htotal, hroom, h⟩
    rw [← hvalid.normalizeDim_eq] at h
    exact ⟨_, ⟨hvalid, rfl⟩, _, htotal, (), rfl, (), ⟨by omega, hroom⟩, h⟩

/-- The inputs on which `split_with_sizes` gives no pieces, or several of a quantized tensor. -/
def SizesLose (t : Stored R) (dim : Int) (splitSizes : List Int) : Prop :=
  t.ValidDim dim ∧ splitSizes.sum = t.sizeAlong dim ∧ (splitSizes = [] ∨
    (t.quantization ≠ {} ∧ 1 < splitSizes.length ∧ (splitSizes.length : Int) ≤ maxPieces ∧
      ∀ s ∈ splitSizes, 0 ≤ s))

theorem splitWithSizes_partitions_iff [Zero R] (hshape : ∀ n ∈ t.shape, n ≤ int64Max)
    (hn : ∀ s ∈ splitSizes, InInt64 s) :
    (∀ pieces, t.splitWithSizes splitSizes dim = .ok pieces → t.Partitions dim pieces) ↔
      ¬ t.SizesLose dim splitSizes := by
  have hmax := sizeAlong_le dim hshape
  constructor
  · rintro h ⟨hvalid, hsum, rfl | ⟨hquantized, hmany, hroom, hnonneg⟩⟩
    · refine not_partitions_nil (h [] (splitWithSizes_eq_ok.mpr ⟨hvalid, ?_, by decide, rfl⟩))
      rw [← hsum]
      rfl
    · obtain ⟨htotal, hcovers⟩ := totalSize_of_nonneg le_rfl hnonneg (by omega)
      have hlen := length_sizedRanges 0 splitSizes
      rw [zero_add, hsum] at htotal hcovers
      obtain ⟨pieces, hpieces⟩ := exists_slices_covers hvalid hcovers (by omega)
      have hpart := h pieces (splitWithSizes_eq_ok.mpr ⟨hvalid, htotal, hroom, hpieces⟩)
      have hne : sizedRanges 0 splitSizes ≠ [] := ne_nil_of_length_pos (by omega)
      have hone := ((partitions_iff_of_slices hvalid hcovers hne hpieces).1.mp hpart).resolve_left
        hquantized
      omega
  · intro hkeep pieces h
    obtain ⟨hvalid, htotal, hroom, hslices⟩ := splitWithSizes_eq_ok.mp h
    obtain ⟨hnonneg, hwrap⟩ := totalSize_eq_ok htotal
    have hnn := hvalid.sizeAlong_nonneg
    have hsize := hvalid.size_axis
    obtain ⟨hcovers, hle⟩ := covers_of_sizedSlices hvalid.axis_lt (hsize ▸ hmax)
      (fun s hs => ⟨hnonneg s hs, (hn s hs).2⟩) le_rfl (hsize ▸ hnn) hslices
    have hsumnn : 0 ≤ splitSizes.sum := sum_nonneg hnonneg
    rw [zero_add] at hcovers hle hwrap
    rw [wrap64_of_nonneg hnn hmax, wrap64_of_nonneg hsumnn (by omega)] at hwrap
    rw [← hwrap] at hcovers
    have hlen := length_sizedRanges 0 splitSizes
    have hsome : splitSizes ≠ [] := fun hnil => hkeep ⟨hvalid, hwrap.symm, .inl hnil⟩
    have hpos := length_pos_iff.mpr hsome
    refine (partitions_iff_of_slices hvalid hcovers
      (ne_nil_of_length_pos (by omega)) hslices).1.mpr ?_
    by_contra hlost
    obtain ⟨hquantized, hmany⟩ := not_or.mp hlost
    exact hkeep ⟨hvalid, hwrap.symm, .inr ⟨hquantized, by omega, hroom, hnonneg⟩⟩

end Sizes

/-- The numbers from zero on. -/
def line (n : ℕ) : Stored Int where
  elements := ⟨[n], fun c => c.getD 0 0, by simp⟩
  handle := { storage := some 0, offset := 0, strides := [1] }

end Stored

end Tenzor.ShapeOps
