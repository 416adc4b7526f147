import Tenzor.Core.ViewSpec

/-!
# Views as reindexings

A view other than `as_strided` reads its parent's elements: there is a map of
multi-indices, determined by the operation and the two shapes alone, under
which the addresses agree. The map is what the operation means; the strides
and the offset are how the code computes it.

## Implementation notes

The strides of `slice` and `unfold` are multiplied without an overflow check.
On an in-bounds parent this is harmless: an axis with two or more indices has
its stepped stride below the storage size, and on an axis with one index the
stride is never used.
-/

namespace Tenzor

open Wrap64 Strided List

/-- Every element of `t'` is the element of `t` at the mapped multi-index. -/
structure Reindexes (t t' : TensorImpl) (f : List Int → List Int) : Prop where
  within : ∀ idx, Within idx t'.shape → Within (f idx) t.shape
  addr_eq : ∀ idx, Within idx t'.shape → t'.addr idx = t.addr (f idx)

namespace Reindexes

variable {t t' t'' : TensorImpl} {f g : List Int → List Int}

theorem inBounds (h : Reindexes t t' f) (hst : t'.storageElements = t.storageElements)
    (hb : t.InBounds) : t'.InBounds := by
  intro idx hidx
  rw [h.addr_eq idx hidx, hst]
  exact hb (f idx) (h.within idx hidx)

theorem trans (h : Reindexes t t' f) (h' : Reindexes t' t'' g) :
    Reindexes t t'' (f ∘ g) := by
  constructor
  · intro idx hidx
    exact h.within _ (h'.within idx hidx)
  · intro idx hidx
    exact (h'.addr_eq idx hidx).trans (h.addr_eq _ (h'.within idx hidx))

end Reindexes

namespace TensorImpl

variable {self : TensorId} {t t' : TensorImpl} {d i j : Nat} {α : Type*} {idx dims : List Int}
  {dim0 dim1 dim step start stop : Int} {r : ViewResult}

/-- Addresses of an in-bounds tensor differ by less than the storage holds. -/
theorem InBounds.inInt64_sub (hb : t.InBounds) {p q : List Int}
    (hp : Within p t.shape) (hq : Within q t.shape) : InInt64 (t.addr q - t.addr p) := by
  have hps := hb p hp
  have hqs := hb q hq
  have hmax := t.storageElements_le
  simp only [InInt64, int64Min, int64Max] at *
  omega

/-- A view is well formed when its sizes are the parent's or words in their own right. -/
theorem WellFormed.of_mem (hwf : t.WellFormed) (hlen : t'.strides.length = t'.shape.length)
    (hmem : ∀ n ∈ t'.shape, n ∈ t.shape ∨ (0 ≤ n ∧ n ≤ int64Max)) : t'.WellFormed := by
  refine ⟨hlen, ?_, ?_⟩
  · intro n hn
    rcases hmem n hn with hn | hn
    · exact hwf.nonneg n hn
    · exact hn.1
  · intro n hn
    rcases hmem n hn with hn | hn
    · exact hwf.size_le n hn
    · exact hn.2

theorem WellFormed.getD (hwf : t.WellFormed) (hd : d < t.shape.length) :
    0 ≤ t.shape.getD d 0 ∧ t.shape.getD d 0 ≤ int64Max := by
  rw [getD_eq_getElem _ _ hd]
  exact ⟨hwf.nonneg _ (getElem_mem hd), hwf.size_le _ (getElem_mem hd)⟩

theorem getD_swapAt {l : List α} (k : Nat) (default : α) (hi : i < l.length) (hj : j < l.length) :
    (swapAt l i j default).getD k default =
      if k = j then l.getD i default else if k = i then l.getD j default
      else l.getD k default := by
  rw [swapAt, getD_set _ _ _ _ _ (by simpa using hj), getD_set _ _ _ _ _ hi]

@[simp] theorem swapAt_length (l : List α) (i j : Nat) (default : α) :
    (swapAt l i j default).length = l.length := by
  simp [swapAt]

theorem dot_swapAt {strides : List Int} (hlen : idx.length = strides.length)
    (hi : i < strides.length) (hj : j < strides.length) :
    dot idx (swapAt strides i j 0) = dot (swapAt idx i j 0) strides := by
  have hji : (idx.set i (idx.getD j 0)).getD j 0 = idx.getD j 0 := by
    rw [getD_set _ _ _ _ _ (by omega)]
    split_ifs <;> rfl
  have hji' : (strides.set i (strides.getD j 0)).getD j 0 = strides.getD j 0 := by
    rw [getD_set _ _ _ _ _ hi]
    split_ifs <;> rfl
  rw [swapAt, swapAt, dot_set_right _ (by simpa using hlen) (by simpa using hj),
    dot_set_right _ hlen hi, dot_set_left _ (by simpa using hlen) hj,
    dot_set_left _ hlen hi, hji, hji']
  ring

theorem within_swapAt {shape : List Int} (hi : i < shape.length) (hj : j < shape.length)
    (h : Within idx (swapAt shape i j 0)) : Within (swapAt idx i j 0) shape := by
  obtain ⟨hlen, hget⟩ := within_iff_getD.mp h
  rw [swapAt_length] at hlen hget
  refine within_iff_getD.mpr ⟨by simpa using hlen, ?_⟩
  intro k hk
  rw [getD_swapAt _ _ (by omega) (by omega)]
  have hget' : ∀ m < shape.length, 0 ≤ idx.getD m 0 ∧ idx.getD m 0 <
      if m = j then shape.getD i 0 else if m = i then shape.getD j 0 else shape.getD m 0 := by
    intro m hm
    have hm' := hget m hm
    rwa [getD_swapAt _ _ hi hj] at hm'
  by_cases hkj : k = j
  · have hm := hget' i hi
    subst hkj
    rw [if_pos rfl]
    by_cases hik : i = k
    · subst hik
      rwa [if_pos rfl] at hm
    · rwa [if_neg hik, if_pos rfl] at hm
  · rw [if_neg hkj]
    by_cases hki : k = i
    · subst hki
      rw [if_pos rfl]
      have hm := hget' j hj
      rwa [if_pos rfl] at hm
    · rw [if_neg hki]
      have hm := hget' k hk
      rwa [if_neg hkj, if_neg hki] at hm

theorem mem_swapAt {l : List Int} {n : Int} (hi : i < l.length) (hj : j < l.length)
    (h : n ∈ swapAt l i j 0) : n ∈ l := by
  rcases mem_or_eq_of_mem_set h with h | rfl
  · rcases mem_or_eq_of_mem_set h with h | rfl
    · exact h
    · rw [getD_eq_getElem _ _ hj]
      exact getElem_mem hj
  · rw [getD_eq_getElem _ _ hi]
    exact getElem_mem hi

theorem wellFormed_transpose (hwf : t.WellFormed) (h : t.transpose self dim0 dim1 = .ok t') :
    t'.WellFormed := by
  obtain ⟨i, j, hi, hj, -, -, rfl⟩ := transpose_ok h
  apply hwf.of_mem
  · simpa using hwf.length_eq
  · intro n hn
    exact .inl (mem_swapAt hi hj hn)

theorem reindexes_transpose (hwf : t.WellFormed) (h : t.transpose self dim0 dim1 = .ok t') :
    Reindexes t t' fun idx =>
      swapAt idx (normalizeDim dim0 t.ndim).toNat (normalizeDim dim1 t.ndim).toNat 0 := by
  obtain ⟨i, j, hi, hj, hd0, hd1, rfl⟩ := transpose_ok h
  simp only [hd0, hd1, Int.toNat_natCast]
  constructor
  · intro idx hidx
    exact within_swapAt hi hj hidx
  · intro idx hidx
    have hlen : idx.length = t.shape.length := by simpa using hidx.length_eq
    have hst := hwf.length_eq
    simp only [addr, copy]
    rw [dot_swapAt (by omega) (by omega) (by omega)]

theorem wellFormed_permute (hwf : t.WellFormed) (h : t.permute self dims = .ok t') :
    t'.WellFormed := by
  obtain ⟨pos, hperm, -, rfl⟩ := permute_ok h
  apply hwf.of_mem
  · simp
  · intro n hn
    obtain ⟨k, hk, rfl⟩ := mem_map.mp hn
    have hlt : k < t.shape.length := mem_range.mp (hperm.mem_iff.mp hk)
    rw [getD_eq_getElem _ _ hlt]
    exact .inl (getElem_mem hlt)

theorem reindexes_permute (hwf : t.WellFormed) (h : t.permute self dims = .ok t') :
    Reindexes t t' (scatter (dims.map fun d => (normalizeDim d t.ndim).toNat)) := by
  obtain ⟨pos, hperm, hdims, rfl⟩ := permute_ok h
  have hpos : dims.map (fun d => (normalizeDim d t.ndim).toNat) = pos := by
    have hcongr := congrArg (List.map Int.toNat) hdims
    simpa [Function.comp_def] using hcongr
  have hlen : pos.length = t.shape.length := by simpa using hperm.length_eq
  have hperm' : pos.Perm (List.range pos.length) := hlen ▸ hperm
  rw [hpos]
  constructor
  · intro idx hidx
    exact within_scatter hperm' hlen.symm hidx
  · intro idx hidx
    have hl : idx.length = pos.length := by simpa using hidx.length_eq
    simp only [addr, copy]
    rw [dot_scatter hperm' hl (hwf.length_eq.trans hlen.symm)]

theorem wellFormed_squeezeDim (hwf : t.WellFormed) (h : t.squeezeDim self dim = .ok r) :
    (r.impl t).WellFormed := by
  obtain ⟨d, hd, -, ⟨-, rfl⟩ | ⟨-, -, rfl⟩⟩ := squeezeDim_ok h
  · exact hwf
  · apply hwf.of_mem
    · simp [ViewResult.impl, length_eraseIdx, hwf.length_eq]
    · intro n hn
      exact .inl (mem_of_mem_eraseIdx hn)

theorem reindexes_squeezeDim (hwf : t.WellFormed) (h : t.squeezeDim self dim = .ok r) :
    Reindexes t (r.impl t) fun idx =>
      if t.shape.getD (normalizeDim dim t.ndim).toNat 0 = 1 then
        idx.insertIdx (normalizeDim dim t.ndim).toNat 0
      else idx := by
  obtain ⟨d, hd, hdim, ⟨hne, rfl⟩ | ⟨hone, -, rfl⟩⟩ := squeezeDim_ok h
  · simp only [hdim, Int.toNat_natCast, if_neg hne]
    exact ⟨fun _ h => h, fun _ _ => rfl⟩
  · simp only [hdim, Int.toNat_natCast, if_pos hone, ViewResult.impl]
    have hst := hwf.length_eq
    constructor
    · intro idx hidx
      have hshape := insertIdx_eraseIdx_getD 0 hd
      rw [hone] at hshape
      have hins := within_insertIdx (d := d) (i := 0) (n := 1) hidx (by omega)
        (by simp [length_eraseIdx, hd]; omega)
      rwa [hshape] at hins
    · intro idx hidx
      have hl := hidx.length_eq
      simp only [length_eraseIdx, if_pos hd] at hl
      have hlen : idx.length = (t.strides.eraseIdx d).length := by
        rw [length_eraseIdx, if_pos (by omega)]
        omega
      have hdot := dot_insertIdx_zero (d := d) (t.strides.getD d 0) hlen (by omega)
      rw [insertIdx_eraseIdx_getD 0 (by omega)] at hdot
      simp only [addr, copy]
      rw [hdot]

theorem wellFormed_squeezeAll (hwf : t.WellFormed) (h : t.squeezeAll self = .ok r) :
    (r.impl t).WellFormed := by
  obtain ⟨-, rfl⟩ := squeezeAll_ok h
  apply hwf.of_mem
  · simp [ViewResult.impl, dropOnes_length hwf.length_eq, dropOnes_length (rfl : t.shape.length = _)]
  · intro n hn
    obtain ⟨p, hp, rfl⟩ := mem_map.mp hn
    exact .inl (of_mem_zip (mem_of_mem_filter hp)).2

theorem reindexes_squeezeAll (hwf : t.WellFormed) (h : t.squeezeAll self = .ok r) :
    Reindexes t (r.impl t) (restoreOnes t.shape) := by
  obtain ⟨-, rfl⟩ := squeezeAll_ok h
  constructor
  · intro idx hidx
    exact within_restoreOnes hidx
  · intro idx hidx
    simp only [ViewResult.impl, addr, copy]
    rw [dot_restoreOnes hwf.length_eq hidx]

theorem wellFormed_unsqueeze (hwf : t.WellFormed) (h : t.unsqueeze self dim = .ok t') :
    t'.WellFormed := by
  obtain ⟨d, contiguous, hd, -, -, rfl⟩ := unsqueeze_ok h
  apply hwf.of_mem
  · simp [length_insertIdx, hwf.length_eq]
  · intro n hn
    rcases (mem_insertIdx hd).mp hn with rfl | hn
    · exact .inr (by decide)
    · exact .inl hn

theorem reindexes_unsqueeze (hwf : t.WellFormed) (h : t.unsqueeze self dim = .ok t') :
    Reindexes t t' fun idx => idx.eraseIdx (normalizeDim dim (t.ndim + 1)).toNat := by
  obtain ⟨d, contiguous, hd, hdim, -, rfl⟩ := unsqueeze_ok h
  simp only [hdim, Int.toNat_natCast]
  constructor
  · intro idx hidx
    have her := within_eraseIdx d hidx
    simpa using her
  · intro idx hidx
    have hlen : idx.length = t.shape.length + 1 := by
      simpa [length_insertIdx, hd] using hidx.length_eq
    have hst := hwf.length_eq
    have hzero : idx.getD d 0 = 0 := by
      have hb := within_getD (d := d) hidx (by rw [length_insertIdx_of_le_length hd]; omega)
      have hsz : (t.shape.insertIdx d 1).getD d 0 = 1 := by
        simp [List.getD, getElem?_insertIdx, hd]
      rw [hsz] at hb
      omega
    have hidx' := insertIdx_eraseIdx_getD (l := idx) (d := d) 0 (by omega)
    rw [hzero] at hidx'
    have her : (idx.eraseIdx d).length = t.strides.length := by
      rw [length_eraseIdx, if_pos (by omega)]
      omega
    have hdot := dot_insertIdx_zero (d := d) (t.unsqueezeStride contiguous d) her (by omega)
    rw [hidx'] at hdot
    simp only [addr, copy]
    rw [hdot]

theorem tdiv_nonpos {a b : Int} (ha : a ≤ 0) (hb : 0 ≤ b) : a.tdiv b ≤ 0 := by
  have h : 0 ≤ (-a).tdiv b := Int.tdiv_nonneg (by omega) hb
  rw [Int.neg_tdiv] at h
  omega

section SliceSize

variable {first last step : Int} (hfirst : 0 ≤ first) (horder : first ≤ last)
  (hlast : last ≤ int64Max) (hstep : 0 < step) (hword : step ≤ int64Max)

include horder hstep in
/-- Without a carry the size is the exact number of steps that fit. -/
theorem sliceSize_exact (hfit : last - first + step - 1 ≤ int64Max) :
    sliceSize first last step = (last - first + step - 1) / step := by
  rw [sliceSize, wrap64_of_nonneg (by omega) hfit,
    Int.tdiv_eq_ediv_of_nonneg (by omega)]

include hfirst hlast hstep hword in
/-- With a carry the size is zero or negative. -/
theorem sliceSize_carry (hcarry : int64Max < last - first + step - 1) :
    sliceSize first last step =
      -((18446744073709551616 - (last - first + step - 1)) / step) := by
  have hneg : last - first + step - 1 - 18446744073709551616 =
      -(18446744073709551616 - (last - first + step - 1)) := by ring
  simp only [int64Max] at hlast hword
  rw [sliceSize, wrap64_of_carry hcarry (by simp only [int64Max]; omega), hneg, Int.neg_tdiv,
    Int.tdiv_eq_ediv_of_nonneg (by omega)]

include hfirst horder hlast hstep hword

/-- Whatever the 64-bit size came out as, the indices below it stay below the end. -/
theorem sliceSize_spec {k : Int} (hk : 0 ≤ k) (hlt : k < sliceSize first last step) :
    first + k * step < last := by
  by_cases hfit : last - first + step - 1 ≤ int64Max
  · rw [sliceSize_exact horder hstep hfit] at hlt
    have hmul : (k + 1) * step ≤ last - first + step - 1 :=
      (Int.le_ediv_iff_mul_le hstep).mp hlt
    have hring : (k + 1) * step = k * step + step := by ring
    omega
  · rw [sliceSize_carry hfirst hlast hstep hword (not_le.mp hfit)] at hlt
    have hnn : 0 ≤ (18446744073709551616 - (last - first + step - 1)) / step := by
      simp only [int64Max] at hlast hword
      exact Int.ediv_nonneg (by omega) hstep.le
    omega

end SliceSize

theorem sliceSize_le (first last : Int) (hstep : 0 < step) :
    sliceSize first last step ≤ int64Max := by
  rw [sliceSize]
  rcases le_total 0 (wrap64 (last - first + step - 1)) with hw | hw
  · rw [Int.tdiv_eq_ediv_of_nonneg hw]
    exact (Int.ediv_le_self step hw).trans (inInt64_wrap64 _).2
  · exact (tdiv_nonpos hw hstep.le).trans (by decide)

theorem addr_set (x : Int) (hwf : t.WellFormed) (hlen : idx.length = t.shape.length)
    (hd : d < t.shape.length) :
    t.addr (idx.set d x) = t.addr idx + (x - idx.getD d 0) * t.strides.getD d 0 := by
  have hst := hwf.length_eq
  rw [addr, addr, dot_set_left x (by omega) (by omega)]
  ring

/-- On an in-bounds tensor a stepped stride is a word as soon as the axis can
be stepped once. -/
theorem wrap64_stride_mul (hwf : t.WellFormed) (hb : t.InBounds) {x y : Int}
    (hd : d < t.shape.length) (hx : Within (idx.set d x) t.shape)
    (hy : Within (idx.set d y) t.shape) :
    wrap64 (t.strides.getD d 0 * (y - x)) = t.strides.getD d 0 * (y - x) := by
  apply wrap64_of_inInt64
  have hlen : idx.length = t.shape.length := by simpa using hx.length_eq
  have hsub := hb.inInt64_sub hx hy
  rw [addr_set x hwf hlen hd, addr_set y hwf hlen hd] at hsub
  have hring : t.addr idx + (y - idx.getD d 0) * t.strides.getD d 0 -
      (t.addr idx + (x - idx.getD d 0) * t.strides.getD d 0) =
      t.strides.getD d 0 * (y - x) := by ring
  rwa [hring] at hsub

theorem wellFormed_slice (hwf : t.WellFormed) (hsize : ∀ n ∈ t'.shape, 0 ≤ n)
    (h : t.slice self dim start stop step = .ok t') : t'.WellFormed := by
  obtain ⟨d, first, last, hd, -, -, -, -, -, -, hstep, rfl⟩ := slice_ok h
  refine ⟨?_, hsize, ?_⟩
  · split_ifs <;> simpa using hwf.length_eq
  · intro n hn
    rcases mem_or_eq_of_mem_set hn with hn | rfl
    · exact hwf.size_le n hn
    · exact sliceSize_le first last hstep

/-- The geometry of a slice reads every `step`-th index from `first` on. -/
theorem reindexes_cut {first last : Int} (hwf : t.WellFormed) (hb : t.InBounds)
    (hd : d < t.shape.length) (hfirst : 0 ≤ first) (horder : first ≤ last)
    (hlast : last ≤ t.shape.getD d 0) (hstep : 0 < step) (hword : step ≤ int64Max)
    (hshape : t'.shape = t.shape.set d (sliceSize first last step))
    (hstrides : t'.strides =
      if step ≠ 1 then t.strides.set d (wrap64 (t.strides.getD d 0 * step)) else t.strides)
    (hoffset : t'.offset = t.offset + first * t.strides.getD d 0) :
    Reindexes t t' fun idx => idx.set d (first + idx.getD d 0 * step) := by
  have hst := hwf.length_eq
  have hsize := (hwf.getD hd).2
  -- Any index below the new size lands below `last`.
  have hstay : ∀ idx, Within idx t'.shape →
      ∀ k, 0 ≤ k → k ≤ idx.getD d 0 → Within (idx.set d (first + k * step)) t.shape := by
    intro idx hidx k hk hkle
    rw [hshape] at hidx
    have hkd := within_getD (d := d) hidx (by simpa using hd)
    rw [getD_set _ _ _ _ _ hd, if_pos rfl] at hkd
    have hlt := sliceSize_spec hfirst horder (hlast.trans hsize) hstep hword hk
      (lt_of_le_of_lt hkle hkd.2)
    have hnn : 0 ≤ k * step := mul_nonneg hk hstep.le
    exact within_set hidx ⟨by omega, by omega⟩
  constructor
  · intro idx hidx
    have hkd := within_getD (d := d) hidx (by simpa [hshape] using hd)
    exact hstay idx hidx _ hkd.1 le_rfl
  · intro idx hidx
    have hlen : idx.length = t.shape.length := by simpa [hshape] using hidx.length_eq
    have hkd := within_getD (d := d) hidx (by simpa [hshape] using hd)
    have hstride : idx.getD d 0 * wrap64 (t.strides.getD d 0 * step) =
        idx.getD d 0 * (t.strides.getD d 0 * step) := by
      rcases hkd.1.eq_or_lt with hzero | hpos
      · rw [← hzero, zero_mul, zero_mul]
      · have hx := hstay idx hidx 0 le_rfl hkd.1
        have hy := hstay idx hidx 1 (by omega) (by omega)
        have hw := wrap64_stride_mul hwf hb hd hx hy
        rw [show first + 1 * step - (first + 0 * step) = step by ring] at hw
        rw [hw]
    rw [addr_set _ hwf hlen hd]
    simp only [addr, hoffset, hstrides]
    by_cases hone : step = 1
    · rw [if_neg (not_not.mpr hone), hone]
      ring
    · rw [if_pos hone, dot_set_right _ (by omega) (by omega), mul_sub, hstride]
      ring

theorem reindexes_slice (hwf : t.WellFormed) (hb : t.InBounds) (hword : step ≤ int64Max)
    (h : t.slice self dim start stop step = .ok t') :
    Reindexes t t' fun idx =>
      let d := (normalizeDim dim t.ndim).toNat
      idx.set d (normalizeDim start (t.shape.getD d 0) + idx.getD d 0 * step) := by
  obtain ⟨d, first, last, hd, hdim, rfl, rfl, hfirst, horder, hlast, hstep, rfl⟩ := slice_ok h
  simp only [hdim, Int.toNat_natCast]
  exact reindexes_cut hwf hb hd hfirst horder hlast hstep hword rfl rfl rfl

theorem sliceSize_succ (i : Int) : sliceSize i (i + 1) 1 = 1 := by
  rw [sliceSize, show i + 1 - i + 1 - 1 = 1 by ring]
  decide

/-- The row `operator[]` takes before squeezing it. -/
theorem index_row {i : Int} {row : TensorImpl} (hi : 0 ≤ i)
    (h : t.slice self 0 i (i + 1) 1 = .ok row) : row.shape = t.shape.set 0 1 := by
  obtain ⟨d, first, last, -, hdim, hfirst, hlast, -, -, -, -, rfl⟩ := slice_ok h
  obtain rfl : d = 0 := by
    have hzero : normalizeDim 0 t.ndim = 0 := rfl
    omega
  rw [normalizeDim, if_neg (by omega)] at hfirst hlast
  rw [← hfirst, ← hlast, sliceSize_succ]

theorem wellFormed_index {i : Int} (hwf : t.WellFormed) (h : t.index self i = .ok r) :
    (r.impl t).WellFormed := by
  obtain ⟨row, k, s, -, -, hk, -, hrow, hs, rfl⟩ := index_ok h
  apply wellFormed_squeezeDim _ hs
  apply wellFormed_slice hwf _ hrow
  intro n hn
  rw [index_row hk hrow] at hn
  rcases mem_or_eq_of_mem_set hn with hn | rfl
  · exact hwf.nonneg n hn
  · decide

theorem reindexes_index {i : Int} (hwf : t.WellFormed) (hb : t.InBounds)
    (h : t.index self i = .ok r) :
    Reindexes t (r.impl t) fun idx => normalizeDim i (t.shape.getD 0 0) :: idx := by
  obtain ⟨row, k, s, hrank, rfl, hk, hlt, hrow, hs, rfl⟩ := index_ok h
  have hshape := index_row hk hrow
  have hwfRow : row.WellFormed := by
    apply wellFormed_slice hwf _ hrow
    intro n hn
    rw [hshape] at hn
    rcases mem_or_eq_of_mem_set hn with hn | rfl
    · exact hwf.nonneg n hn
    · decide
  have hboth := (reindexes_slice hwf hb (by decide) hrow).trans (reindexes_squeezeDim hwfRow hs)
  have hzero : ∀ n : Int, normalizeDim 0 n = 0 := fun _ => rfl
  have hone : row.shape.getD 0 0 = 1 := by
    rw [hshape, getD_set _ _ _ _ _ hrank, if_pos rfl]
  simp only [hzero, Int.toNat_zero, hone, if_pos] at hboth
  have hk' : normalizeDim (normalizeDim i (t.shape.getD 0 0)) (t.shape.getD 0 0) =
      normalizeDim i (t.shape.getD 0 0) := if_neg (by omega)
  rw [hk'] at hboth
  simpa [Function.comp_def, ViewResult.impl] using hboth

section Unfold

variable {dim size step : Int}

/-- The windows of an axis of size `n` start at most `n - size` in. -/
theorem window_bounds {n k j : Int} (hstep : 0 < step) (hsize : size ≤ n)
    (hj : 0 ≤ j ∧ j < (n - size).tdiv step + 1) (hk : 0 ≤ k ∧ k < size) :
    0 ≤ j * step + k ∧ j * step + k < n := by
  rw [Int.tdiv_eq_ediv_of_nonneg (by omega)] at hj
  have hmul : j * step ≤ n - size := (Int.le_ediv_iff_mul_le hstep).mp (by omega)
  have hnn : 0 ≤ j * step := mul_nonneg hj.1 hstep.le
  omega

theorem wellFormed_unfold (hwf : t.WellFormed) (h : t.unfold dim size step = .ok t') :
    t'.WellFormed := by
  obtain ⟨d, hd, -, hpos, hle, hstep, h⟩ := unfold_ok h
  obtain ⟨low, high, empty, hlen, -, -, -, rfl⟩ := asStrided_ok h
  have hn := hwf.getD hd
  apply hwf.of_mem hlen
  intro n hn'
  rcases mem_append.mp hn' with hmem | hmem
  · rcases mem_or_eq_of_mem_set hmem with hmem | rfl
    · exact .inl hmem
    · rw [Int.tdiv_eq_ediv_of_nonneg (by omega)]
      have hnn : 0 ≤ (t.shape.getD d 0 - size) / step := Int.ediv_nonneg (by omega) hstep.le
      have hdiv : (t.shape.getD d 0 - size) / step ≤ t.shape.getD d 0 - size :=
        Int.ediv_le_self step (by omega)
      omega
  · obtain rfl := mem_singleton.mp hmem
    exact .inr ⟨hpos.le, by omega⟩

theorem reindexes_unfold (hwf : t.WellFormed) (hb : t.InBounds)
    (h : t.unfold dim size step = .ok t') :
    Reindexes t t' fun idx =>
      let d := (normalizeDim dim t.ndim).toNat
      idx.dropLast.set d (idx.dropLast.getD d 0 * step + idx.getLastD 0) := by
  obtain ⟨d, hd, hdim, hpos, hle, hstep, h⟩ := unfold_ok h
  obtain ⟨low, high, empty, -, -, -, -, rfl⟩ := asStrided_ok h
  have hst := hwf.length_eq
  simp only [hdim, Int.toNat_natCast]
  have hstay : ∀ p, Within p (t.shape.set d ((t.shape.getD d 0 - size).tdiv step + 1)) →
      ∀ j k, 0 ≤ j → j ≤ p.getD d 0 → 0 ≤ k → k < size →
        Within (p.set d (j * step + k)) t.shape := by
    intro p hp j k hj hjle hk hklt
    have hpd := within_getD (d := d) hp (by simpa using hd)
    rw [getD_set _ _ _ _ _ hd, if_pos rfl] at hpd
    exact within_set hp (window_bounds hstep hle ⟨hj, lt_of_le_of_lt hjle hpd.2⟩ ⟨hk, hklt⟩)
  constructor
  · intro idx hidx
    obtain ⟨p, k, rfl, hp, hk, hklt⟩ := within_append_singleton hidx
    have hpd := within_getD (d := d) hp (by simpa using hd)
    simp only [dropLast_concat, getLastD_concat]
    exact hstay p hp _ k hpd.1 le_rfl hk hklt
  · intro idx hidx
    obtain ⟨p, k, rfl, hp, hk, hklt⟩ := within_append_singleton hidx
    have hpd := within_getD (d := d) hp (by simpa using hd)
    have hlen : p.length = t.shape.length := by simpa using hp.length_eq
    have hstride : p.getD d 0 * wrap64 (t.strides.getD d 0 * step) =
        p.getD d 0 * (t.strides.getD d 0 * step) := by
      rcases hpd.1.eq_or_lt with hzero | hjpos
      · rw [← hzero, zero_mul, zero_mul]
      · have hx := hstay p hp 0 0 le_rfl hpd.1 le_rfl hpos
        have hy := hstay p hp 1 0 (by omega) (by omega) le_rfl hpos
        have hw := wrap64_stride_mul hwf hb hd hx hy
        rw [show 1 * step + 0 - (0 * step + 0) = step by ring] at hw
        rw [hw]
    simp only [dropLast_concat, getLastD_concat]
    rw [addr_set _ hwf hlen hd]
    simp only [addr, Option.getD_some]
    rw [dot_append_singleton _ _ (by simp; omega), dot_set_right _ (by omega) (by omega),
      mul_sub, hstride]
    ring

end Unfold

end TensorImpl

end Tenzor
