import Tenzor.Core.QuantizedViews
import Mathlib.Data.Rat.Floor

/-!
# What a slice denotes

`slice` rounds a division up by adding the step first, multiplies the stride
and moves the offset. The size and the stride are computed without an overflow
test, the offset and the reach of the result with one. A slice denotes every
`step`-th index exactly when none of these leaves the 64-bit range.
-/

namespace Tenzor

open Wrap64 Strided Throwing

namespace TensorImpl

variable {self : TensorId} {t t' : TensorImpl} {dim start stop step first last : Int} {d : Nat}
  {n s low high : Int} {r : Int × Int} {axes : List (Int × Int)}

/-- The axes the reach loop goes over. -/
def steppedAxes (axes : List (Int × Int)) : List (Int × Int) := axes.filter fun axis => 0 < axis.1

/-- The reach of the axes that are not empty, axis by axis and at both ends, is made of words. -/
structure ReachChecked (offset : Int) (axes : List (Int × Int)) : Prop where
  extent : ∀ axis ∈ steppedAxes axes, |(axis.1 - 1) * axis.2| ≤ int64Max
  low : int64Min ≤ (reach (offset, offset) (steppedAxes axes)).1
  high : (reach (offset, offset) (steppedAxes axes)).2 ≤ int64Max

/-- The overflow test of an axis divides before it multiplies. -/
theorem extent_guard_iff (hn : 0 < n) :
    (s ≠ 0 ∧ (n - 1).toNat > int64Max.toNat / safeAbs s) ↔ int64Max < |(n - 1) * s| := by
  have hcast : (n - 1).toNat = (n - 1).natAbs := by omega
  by_cases hs : s = 0
  · simp [hs, int64Max]
  · have hpos : 0 < safeAbs s := Int.natAbs_pos.mpr hs
    rw [gt_iff_lt, Nat.div_lt_iff_lt_mul hpos, Int.abs_eq_natAbs, Int.natAbs_mul, hcast]
    simp only [safeAbs, int64Max, ne_eq, hs, not_false_eq_true, true_and]
    omega

theorem sliceReachStep_eq_ok (hn : 0 < n) (hlow : int64Min ≤ low) (hhigh : high ≤ int64Max) :
    sliceReachStep (low, high) (n, s) = .ok r ↔ |(n - 1) * s| ≤ int64Max ∧
      int64Min ≤ low + min 0 ((n - 1) * s) ∧ high + max 0 ((n - 1) * s) ≤ int64Max ∧
      r = (low + min 0 ((n - 1) * s), high + max 0 ((n - 1) * s)) := by
  simp only [sliceReachStep, if_neg (not_le.mpr hn), extent_guard_iff hn]
  by_cases hext : int64Max < |(n - 1) * s|
  · rw [if_pos hext]
    constructor
    · intro h
      cases h
    · rintro ⟨hle, -⟩
      exact absurd hext (not_lt.mpr hle)
  · by_cases hs : 0 ≤ (n - 1) * s
    · rw [min_eq_left hs, max_eq_right hs, add_zero]
      split_ifs with hover
      · constructor
        · intro h
          cases h
        · omega
      · rw [Except.ok.injEq]
        constructor
        · rintro rfl
          exact ⟨not_lt.mp hext, hlow, by omega, rfl⟩
        · rintro ⟨-, -, -, rfl⟩
          rfl
    · have hle : (n - 1) * s ≤ 0 := le_of_not_ge hs
      rw [min_eq_right hle, max_eq_left hle, add_zero]
      split_ifs with hover
      · constructor
        · intro h
          cases h
        · omega
      · rw [Except.ok.injEq]
        constructor
        · rintro rfl
          exact ⟨not_lt.mp hext, by omega, hhigh, rfl⟩
        · rintro ⟨-, -, -, rfl⟩
          rfl

/-- The loop returns the reach of the axes that are not empty, when it is made of words. -/
theorem foldlM_sliceReachStep_eq_ok (hlow : int64Min ≤ low) (hhigh : high ≤ int64Max) :
    axes.foldlM sliceReachStep (low, high) = .ok r ↔
      (∀ axis ∈ steppedAxes axes, |(axis.1 - 1) * axis.2| ≤ int64Max) ∧
      int64Min ≤ (reach (low, high) (steppedAxes axes)).1 ∧
      (reach (low, high) (steppedAxes axes)).2 ≤ int64Max ∧
      r = reach (low, high) (steppedAxes axes) := by
  induction axes generalizing low high with
  | nil =>
    constructor
    · intro h
      obtain rfl : (low, high) = r := Except.ok.inj h
      exact ⟨by simp [steppedAxes], hlow, hhigh, rfl⟩
    · rintro ⟨-, -, -, rfl⟩
      rfl
  | cons axis axes ih =>
    obtain ⟨n, s⟩ := axis
    rw [foldlM_cons_eq_ok]
    by_cases hn : 0 < n
    · have hstep : steppedAxes ((n, s) :: axes) = (n, s) :: steppedAxes axes := by
        simp [steppedAxes, hn]
      simp only [sliceReachStep_eq_ok hn hlow hhigh, hstep, reach_cons, List.forall_mem_cons]
      have hout := reach_outwards (low + min 0 ((n - 1) * s), high + max 0 ((n - 1) * s))
        (steppedAxes axes)
      constructor
      · rintro ⟨_, ⟨hext, hlow', hhigh', rfl⟩, h⟩
        obtain ⟨hexts, hl, hh, hr⟩ := (ih hlow' hhigh').mp h
        exact ⟨⟨hext, hexts⟩, hl, hh, hr⟩
      · rintro ⟨⟨hext, hexts⟩, hl, hh, hr⟩
        have hlow' := hl.trans hout.1
        have hhigh' := hout.2.trans hh
        exact ⟨_, ⟨hext, hlow', hhigh', rfl⟩, (ih hlow' hhigh').mpr ⟨hexts, hl, hh, hr⟩⟩
    · have hstep : steppedAxes ((n, s) :: axes) = steppedAxes axes := by
        simp [steppedAxes, hn]
      have hsame : sliceReachStep (low, high) (n, s) = .ok (low, high) := by
        rw [sliceReachStep, if_pos (not_lt.mp hn)]
      rw [hstep]
      constructor
      · rintro ⟨c, hc, h⟩
        obtain rfl : (low, high) = c := Except.ok.inj (hsame.symm.trans hc)
        exact (ih hlow hhigh).mp h
      · intro h
        exact ⟨_, hsame, (ih hlow hhigh).mpr h⟩

theorem sliceReach_returns_iff {offset : Int} (hoff : InInt64 offset) :
    axes.foldlM sliceReachStep (offset, offset) = .ok r ↔
      ReachChecked offset axes ∧ r = reach (offset, offset) (steppedAxes axes) := by
  rw [foldlM_sliceReachStep_eq_ok hoff.1 hoff.2]
  constructor
  · rintro ⟨hext, hlow, hhigh, hr⟩
    exact ⟨⟨hext, hlow, hhigh⟩, hr⟩
  · rintro ⟨⟨hext, hlow, hhigh⟩, hr⟩
    exact ⟨hext, hlow, hhigh, hr⟩

/-- The arguments of a slice name an axis and a range of its indices. -/
structure Accepted (t : TensorImpl) (dim start stop : Int) (d : Nat) (first last : Int) : Prop where
  dim_eq : normalizeDim dim t.ndim = d
  axis : d < t.shape.length
  start_eq : normalizeDim start (t.shape.getD d 0) = first
  stop_eq : normalizeDim stop (t.shape.getD d 0) = last
  first_nonneg : 0 ≤ first
  ordered : first ≤ last
  last_le : last ≤ t.shape.getD d 0

/-- The sizes and the strides, as the words they become, of a slice of `n` indices. -/
def cutAxes (t : TensorImpl) (d : Nat) (n step : Int) : List (Int × Int) :=
  (t.shape.set d n).zip
    (if step ≠ 1 then t.strides.set d (wrap64 (t.strides.getD d 0 * step)) else t.strides)

/-- What `slice` checks of a result with `n` indices on the sliced axis. -/
structure SliceChecks (t : TensorImpl) (d : Nat) (first n step : Int) : Prop where
  displacement : InInt64 (first * t.strides.getD d 0)
  offset : InInt64 (t.offset + first * t.strides.getD d 0)
  reach : ReachChecked (t.offset + first * t.strides.getD d 0) (t.cutAxes d n step)
  inside : 0 < wrap64 (t.shape.set d n).prod →
    0 ≤ (Strided.reach (t.offset + first * t.strides.getD d 0,
      t.offset + first * t.strides.getD d 0) (steppedAxes (t.cutAxes d n step))).1 ∧
    (Strided.reach (t.offset + first * t.strides.getD d 0,
      t.offset + first * t.strides.getD d 0) (steppedAxes (t.cutAxes d n step))).2 <
      t.storageElements

/-- The result of a slice whose checks pass. -/
def cut (self : TensorId) (t : TensorImpl) (d : Nat) (first last step : Int) : TensorImpl :=
  { t.copy with
    shape := t.shape.set d (sliceSize first last step)
    strides := if step ≠ 1 then t.strides.set d (wrap64 (t.strides.getD d 0 * step)) else t.strides
    offset := t.offset + first * t.strides.getD d 0
    viewBase := t.baseFor self }

theorem slice_eq_ok (ha : Accepted t dim start stop d first last) (hstep : 0 < step) :
    t.slice self dim start stop step = .ok t' ↔
      SliceChecks t d first (sliceSize first last step) step ∧
        t' = t.cut self d first last step := by
  have hst : wrap64 (t.storageElements : Int) = t.storageElements :=
    wrap64_of_nonneg (Int.natCast_nonneg _) t.storageElements_le
  have hcount : ∀ l : List Int, l.foldl (fun r n => wrap64 (r * n)) 1 = wrap64 l.prod := by
    intro l
    have h := foldl_wrap64_mul l 1
    rwa [one_mul] at h
  have hrank : (d : Int) < t.ndim := by
    rw [ndim]
    exact_mod_cast ha.axis
  have h1 : ¬ ((d : Int) < 0 ∨ t.ndim ≤ d) := by omega
  have h2 : ¬ (first < 0 ∨ t.shape.getD d 0 < first) := by
    have := ha.first_nonneg
    have := ha.ordered
    have := ha.last_le
    omega
  have h3 : ¬ (last < 0 ∨ t.shape.getD d 0 < last) := by
    have := ha.ordered
    have := ha.last_le
    omega
  simp only [slice, ha.dim_eq, Int.toNat_natCast, ha.start_eq, ha.stop_eq, bind_eq_ok,
    throwIf_eq_ok, pure_eq_ok, checkedMul_eq_ok, checkedAdd_eq_ok, hcount, hst]
  constructor
  · rintro ⟨-, -, -, -, -, -, -, -, -, -, _, ⟨hdisp, rfl⟩, _, ⟨hoff, rfl⟩, ⟨low, high⟩, hreach,
      -, hguard, rfl⟩
    obtain ⟨hchecked, heq⟩ := (sliceReach_returns_iff hoff).mp hreach
    refine ⟨⟨hdisp, hoff, hchecked, ?_⟩, rfl⟩
    intro hpos
    obtain ⟨rfl, rfl⟩ := Prod.mk.inj heq
    simp only [hpos, true_and, not_or, not_lt, not_le] at hguard
    exact hguard
  · rintro ⟨hc, rfl⟩
    refine ⟨(), h1, (), h2, (), h3, (), not_lt.mpr ha.ordered, (), not_le.mpr hstep, _,
      ⟨hc.displacement, rfl⟩, _, ⟨hc.offset, rfl⟩, _,
      (sliceReach_returns_iff hc.offset).mpr ⟨hc.reach, rfl⟩, (), ?_, rfl⟩
    rintro ⟨hpos, hout⟩
    obtain ⟨hlow, hhigh⟩ := hc.inside hpos
    rw [cutAxes] at hlow hhigh
    omega

theorem ceil_div_eq {a step : Int} (hstep : 0 < step) :
    ⌈(a : ℚ) / step⌉ = (a + step - 1) / step := by
  have hpos : (0 : ℚ) < step := by exact_mod_cast hstep
  have hle : (a + step - 1) / step * step ≤ a + step - 1 := Int.ediv_mul_le _ hstep.ne'
  have hlt : a + step - 1 < ((a + step - 1) / step + 1) * step :=
    Int.lt_ediv_add_one_mul_self _ hstep
  rw [Int.ceil_eq_iff, lt_div_iff₀ hpos, div_le_iff₀ hpos]
  constructor
  · have h : ((a + step - 1) / step - 1) * step < a := by
      rw [sub_mul]
      omega
    exact_mod_cast h
  · have h : a ≤ (a + step - 1) / step * step := by
      rw [add_mul] at hlt
      omega
    exact_mod_cast h

/-- The number of steps from `first` that stay below `last`. -/
def stepsBetween (first last step : Int) : Int := ⌈((last - first : Int) : ℚ) / step⌉

theorem stepsBetween_eq (hstep : 0 < step) :
    stepsBetween first last step = (last - first + step - 1) / step := by
  rw [stepsBetween, ceil_div_eq hstep]

section Cut

variable (hwf : t.WellFormed) (ha : Accepted t dim start stop d first last) (hstep : 0 < step)
  (hword : step ≤ int64Max) {idx : List Int}

include hwf ha hstep hword

omit hstep hword in
theorem Accepted.last_word : last ≤ int64Max := ha.last_le.trans (hwf.getD ha.axis).2

/-- The size in words is the number of steps exactly when it does not carry. -/
theorem sliceSize_eq_stepsBetween_iff :
    sliceSize first last step = stepsBetween first last step ↔
      last - first + step - 1 ≤ int64Max := by
  rw [stepsBetween_eq hstep]
  constructor
  · intro h
    by_contra hcarry
    rw [sliceSize_carry ha.first_nonneg (Accepted.last_word hwf ha) hstep hword
      (not_le.mp hcarry)] at h
    have hlast := Accepted.last_word hwf ha
    have hfirst := ha.first_nonneg
    simp only [int64Max] at hword hlast hcarry
    have hneg : 0 ≤ (18446744073709551616 - (last - first + step - 1)) / step :=
      Int.ediv_nonneg (by omega) hstep.le
    have hone : 1 ≤ (last - first + step - 1) / step := by
      apply (Int.le_ediv_iff_mul_le hstep).mpr
      omega
    omega
  · intro hfit
    exact sliceSize_exact ha.ordered hstep hfit

theorem within_cut (hidx : Within idx (t.shape.set d (sliceSize first last step))) :
    Within (idx.set d (first + idx.getD d 0 * step)) t.shape := by
  have hkd := within_getD (d := d) hidx (by simpa using ha.axis)
  rw [getD_set _ _ _ _ _ ha.axis, if_pos rfl] at hkd
  have hlt := sliceSize_spec ha.first_nonneg ha.ordered (Accepted.last_word hwf ha)
    hstep hword hkd.1 hkd.2
  have hnn : 0 ≤ idx.getD d 0 * step := mul_nonneg hkd.1 hstep.le
  have hfirst := ha.first_nonneg
  have hlast := ha.last_le
  exact within_set hidx ⟨by omega, by omega⟩

omit hstep hword in
/-- An element of the cut is the stepped one up to what the stride lost. -/
theorem addr_cut (hlen : idx.length = t.shape.length) :
    (t.cut self d first last step).addr idx = t.addr (idx.set d (first + idx.getD d 0 * step)) +
      if step ≠ 1 then
        idx.getD d 0 * (wrap64 (t.strides.getD d 0 * step) - t.strides.getD d 0 * step)
      else 0 := by
  have hst := hwf.length_eq
  have hd := ha.axis
  rw [addr_set _ hwf hlen hd]
  simp only [cut, addr]
  by_cases hone : step = 1
  · rw [if_neg (not_not.mpr hone), if_neg (not_not.mpr hone), hone]
    ring
  · rw [if_pos hone, if_pos hone, dot_set_right _ (by omega) (by omega)]
    ring

theorem reindexes_cut_iff :
    Reindexes t (t.cut self d first last step)
        (fun idx => idx.set d (first + idx.getD d 0 * step)) ↔
      ((∀ n ∈ t.shape.set d (sliceSize first last step), 0 < n) →
        1 < sliceSize first last step → step ≠ 1 → InInt64 (t.strides.getD d 0 * step)) := by
  have hd := ha.axis
  constructor
  · intro hre hpos hsize hne
    -- The multi-index that is one on the sliced axis and zero elsewhere.
    have hzero := within_unravel hpos 0
    have hone : Within ((unravel (t.shape.set d (sliceSize first last step)) 0).set d 1)
        (t.shape.set d (sliceSize first last step)) := by
      apply within_set (n := sliceSize first last step)
      · rwa [List.set_set]
      · rw [getD_set _ _ _ _ _ hd, if_pos rfl]
        exact ⟨by decide, hsize⟩
    have haddr := hre.addr_eq _ hone
    rw [addr_cut hwf ha (by simp), getD_set _ _ _ _ _ (by simpa using hd),
      if_pos rfl] at haddr
    have heq : wrap64 (t.strides.getD d 0 * step) = t.strides.getD d 0 * step := by omega
    rw [← heq]
    exact inInt64_wrap64 _
  · intro hfit
    constructor
    · intro idx hidx
      exact within_cut hwf ha hstep hword hidx
    · intro idx hidx
      have hlen : idx.length = t.shape.length := by
        simpa [cut] using hidx.length_eq
      have hkd := within_getD (d := d) hidx (by simpa [cut] using hd)
      simp only [cut] at hkd
      rw [getD_set _ _ _ _ _ hd] at hkd
      rw [addr_cut hwf ha hlen]
      by_cases hone : step = 1
      · rw [if_neg (not_not.mpr hone), add_zero]
      · rw [if_pos hone]
        rcases hkd.1.eq_or_lt with hzero | hpos
        · rw [← hzero, zero_mul, zero_mul, add_zero]
        · rw [wrap64_of_inInt64 (hfit (Within.pos hidx) (by omega) hone), sub_self, mul_zero,
            add_zero]

/-- Without a carry in its size, the checks it passes and the stride it needs,
a slice has as many indices as there are steps and reads the stepped elements. -/
structure SliceFits (t : TensorImpl) (d : Nat) (first last step : Int) : Prop where
  /-- The numerator of the rounded-up division is a word. -/
  size : last - first + step - 1 ≤ int64Max
  checks : SliceChecks t d first (stepsBetween first last step) step
  /-- The stepped stride is a word where an element depends on it. -/
  stride : (∀ n ∈ t.shape.set d (stepsBetween first last step), 0 < n) →
    1 < stepsBetween first last step → step ≠ 1 → InInt64 (t.strides.getD d 0 * step)

/-- The slice returns a tensor that holds every `step`-th index of the axis
from `first` up to `last`, and every index of the other axes. -/
def SliceExact (self : TensorId) (t : TensorImpl) (dim start stop step : Int) (d : Nat)
    (first last : Int) : Prop :=
  ∃ t', t.slice self dim start stop step = .ok t' ∧
    t'.shape = t.shape.set d (stepsBetween first last step) ∧
    Reindexes t t' fun idx => idx.set d (first + idx.getD d 0 * step)

/-- The same slice of `s`, which holds every `step`-th index of `t` from
`first` on, read as elements of `t`. -/
def ComposesExact (id : TensorId) (t s : TensorImpl) (d : Nat) (first step : Int)
    (dim start stop step' first' last' : Int) : Prop :=
  ∃ t'', s.slice id dim start stop step' = .ok t'' ∧
    t''.shape = t.shape.set d (stepsBetween first' last' step') ∧
    Reindexes t t'' fun idx => idx.set d (first + (first' + idx.getD d 0 * step') * step)

theorem sliceExact_iff :
    SliceExact self t dim start stop step d first last ↔ SliceFits t d first last step := by
  have hd := ha.axis
  have hshape : (t.cut self d first last step).shape =
      t.shape.set d (sliceSize first last step) := rfl
  constructor
  · rintro ⟨t', ht', hset, hre⟩
    obtain ⟨hchecks, rfl⟩ := (slice_eq_ok ha hstep).mp ht'
    have hsize : sliceSize first last step = stepsBetween first last step := by
      have hget := congrArg (List.getD · d 0) (hshape.symm.trans hset)
      simpa only [getD_set _ _ _ _ _ hd, if_true] using hget
    have hstride := (reindexes_cut_iff hwf ha hstep hword).mp hre
    rw [hsize] at hchecks hstride
    exact ⟨(sliceSize_eq_stepsBetween_iff hwf ha hstep hword).mp hsize, hchecks, hstride⟩
  · rintro ⟨hfit, hchecks, hstride⟩
    have hsize := (sliceSize_eq_stepsBetween_iff hwf ha hstep hword).mpr hfit
    rw [← hsize] at hchecks hstride
    refine ⟨_, (slice_eq_ok ha hstep).mpr ⟨hchecks, rfl⟩, ?_, ?_⟩
    · rw [hshape, hsize]
    · exact (reindexes_cut_iff hwf ha hstep hword).mpr hstride

omit hwf hword in
theorem stepsBetween_nonneg : 0 ≤ stepsBetween first last step := by
  rw [stepsBetween_eq hstep]
  have := ha.ordered
  exact Int.ediv_nonneg (by omega) hstep.le

end Cut

/-- A slice of an exact slice is exact when its elements, read through both
steps, are those of the tensor that was sliced first. -/
theorem composesExact_iff {id : TensorId} {dim' start' stop' step' first' last' : Int}
    (hd : d < t.shape.length) (hwf' : t'.WellFormed)
    (hshape : t'.shape = t.shape.set d (stepsBetween first last step))
    (hre : Reindexes t t' fun idx => idx.set d (first + idx.getD d 0 * step))
    (ha' : Accepted t' dim' start' stop' d first' last') (hstep' : 0 < step')
    (hword' : step' ≤ int64Max) :
    ComposesExact id t t' d first step dim' start' stop' step' first' last' ↔
      SliceExact id t' dim' start' stop' step' d first' last' := by
  have hset : ∀ n, t'.shape.set d n = t.shape.set d n := by
    intro n
    rw [hshape, List.set_set]
  have hmap : ∀ idx : List Int, idx.length = t.shape.length →
      (idx.set d (first' + idx.getD d 0 * step')).set d
        (first + (idx.set d (first' + idx.getD d 0 * step')).getD d 0 * step) =
      idx.set d (first + (first' + idx.getD d 0 * step') * step) := by
    intro idx hlen
    rw [List.set_set, getD_set _ _ _ _ _ (by omega), if_pos rfl]
  constructor
  · rintro ⟨t'', ht'', hshape'', hre''⟩
    obtain ⟨-, rfl⟩ := (slice_eq_ok ha' hstep').mp ht''
    refine ⟨_, ht'', by rw [hshape'', hset], ?_⟩
    have hwithin : ∀ idx, Within idx (t'.cut id d first' last' step').shape →
        Within (idx.set d (first' + idx.getD d 0 * step')) t'.shape :=
      fun idx hidx => within_cut hwf' ha' hstep' hword' hidx
    constructor
    · exact hwithin
    · intro idx hidx
      have hlen : idx.length = t.shape.length := by
        simpa [hshape''] using hidx.length_eq
      rw [hre''.addr_eq idx hidx, hre.addr_eq _ (hwithin idx hidx), hmap idx hlen]
  · rintro ⟨t'', ht'', hshape'', hre''⟩
    refine ⟨t'', ht'', by rw [hshape'', hset], ?_⟩
    have hlen : ∀ idx, Within idx t''.shape → idx.length = t.shape.length := by
      intro idx hidx
      simpa [hshape'', hshape] using hidx.length_eq
    constructor
    · intro idx hidx
      rw [← hmap idx (hlen idx hidx)]
      exact hre.within _ (hre''.within idx hidx)
    · intro idx hidx
      rw [hre''.addr_eq idx hidx, hre.addr_eq _ (hre''.within idx hidx), hmap idx (hlen idx hidx)]

/-- A slice denotes the stepped elements exactly when nothing it computes leaves
the 64-bit range unnoticed or is refused, and so does a slice of it, whose
elements are those of the first tensor at both steps. -/
theorem slice_exact_iff (self id : TensorId) (hwf : t.WellFormed)
    (ha : Accepted t dim start stop d first last) (hstep : 0 < step) (hword : step ≤ int64Max) :
    (SliceExact self t dim start stop step d first last ↔ SliceFits t d first last step) ∧
    ∀ t', SliceFits t d first last step → t.slice self dim start stop step = .ok t' →
      ∀ dim' start' stop' step' first' last', Accepted t' dim' start' stop' d first' last' →
        0 < step' → step' ≤ int64Max →
        (ComposesExact id t t' d first step dim' start' stop' step' first' last' ↔
          SliceFits t' d first' last' step') := by
  constructor
  · exact sliceExact_iff hwf ha hstep hword
  · intro t' hfits ht' dim' start' stop' step' first' last' ha' hstep' hword'
    have hexact : SliceExact self t dim start stop step d first last :=
      (sliceExact_iff hwf ha hstep hword).mpr hfits
    obtain ⟨s, hs, hshape, hre⟩ := hexact
    obtain rfl : s = t' := Except.ok.inj (hs.symm.trans ht')
    have hwf' : s.WellFormed := by
      apply wellFormed_slice hwf _ ht'
      intro n hn
      rw [hshape] at hn
      rcases List.mem_or_eq_of_mem_set hn with hn | rfl
      · exact hwf.nonneg n hn
      · exact stepsBetween_nonneg ha hstep
    rw [composesExact_iff ha.axis hwf' hshape hre ha' hstep' hword',
      sliceExact_iff hwf' ha' hstep' hword']

/-- Four elements in a row. -/
def rowOfFour : TensorImpl where
  storage := .ofBytes 0 16
  shape := [4]
  strides := [1]
  dtype := .float32

/-- The second and the fourth element, and the fourth again as a slice of these. -/
theorem slice_exact_rowOfFour :
    SliceExact 0 rowOfFour 0 1 4 2 0 1 4 ∧
      ComposesExact 1 rowOfFour (rowOfFour.cut 0 0 1 4 2) 0 1 2 0 1 2 1 1 2 := by
  have hwf : rowOfFour.WellFormed := ⟨by decide, by decide, by decide⟩
  have ha : Accepted rowOfFour 0 1 4 0 1 4 :=
    ⟨by decide, by decide, by decide, by decide, by decide, by decide, by decide⟩
  have ha' : Accepted (rowOfFour.cut 0 0 1 4 2) 0 1 2 0 1 2 :=
    ⟨by decide, by decide, by decide, by decide, by decide, by decide, by decide⟩
  have hn : stepsBetween 1 4 2 = 2 := by
    rw [stepsBetween_eq (by decide)]
    rfl
  have hn' : stepsBetween 1 2 1 = 1 := by
    rw [stepsBetween_eq (by decide)]
    rfl
  have hfits : SliceFits rowOfFour 0 1 4 2 := by
    constructor
    · decide
    · rw [hn]
      exact ⟨by decide, by decide, ⟨by decide, by decide, by decide⟩, fun _ => by decide⟩
    · exact fun _ _ _ => by decide
  have hfits' : SliceFits (rowOfFour.cut 0 0 1 4 2) 0 1 2 1 := by
    constructor
    · decide
    · rw [hn']
      exact ⟨by decide, by decide, ⟨by decide, by decide, by decide⟩, fun _ => by decide⟩
    · exact fun _ _ _ => by decide
  obtain ⟨hexact, hcomposes⟩ :=
    slice_exact_iff 0 1 hwf ha (by decide : (0 : Int) < 2) (by decide : (2 : Int) ≤ int64Max)
  exact ⟨hexact.mpr hfits,
    (hcomposes _ hfits rfl 0 1 2 1 1 2 ha' (by decide) (by decide)).mpr hfits'⟩

/-- With the largest step the numerator of the size carries, and the first two
elements give a tensor of size minus one. -/
theorem largest_step_not_exact : ¬ SliceExact 0 rowOfFour 0 0 2 9223372036854775807 0 0 2 := by
  rintro ⟨t', ht', hshape, -⟩
  rw [stepsBetween_eq (by decide)] at hshape
  obtain rfl : rowOfFour.cut 0 0 0 2 9223372036854775807 = t' := Except.ok.inj ht'
  exact absurd hshape (by decide)

end TensorImpl

end Tenzor
