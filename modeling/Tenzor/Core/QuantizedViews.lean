import Tenzor.Core.Quantization
import Tenzor.Core.ViewBounds

/-!
# Dequantizing a view

A per-channel quantized tensor carries the axis its scales belong to, and each
view operation remaps that axis. Dequantizing then commutes with a chain of
views as long as the remapped axis still has all its channels: `slice` moves
the geometry of that axis but leaves the scales alone.
-/

namespace Tenzor

variable {t : TensorImpl} {self : TensorId} {op : ViewOp}

open Wrap64 Strided Throwing List
open Int (ofNat toNat toNat_natCast)

namespace ViewOp

/-- The operations that move, drop, insert or cut axes and carry the channel axis. -/
def IsAxisOp : ViewOp → Prop
  | .transpose _ _ | .permute _ | .squeeze _ | .unsqueeze _ | .slice _ _ _ _ => True
  | _ => False

/-- Which element of the parent each element of the result is. -/
def indexMap (shape : List Int) (idx : List Int) : ViewOp → List Int
  | .transpose dim0 dim1 =>
    TensorImpl.swapAt idx (normalizeDim dim0 shape.length).toNat
      (normalizeDim dim1 shape.length).toNat 0
  | .permute dims => scatter (dims.map fun d => (normalizeDim d shape.length).toNat) idx
  | .squeeze (some dim) =>
    if shape.getD (normalizeDim dim shape.length).toNat 0 = 1 then
      idx.insertIdx (normalizeDim dim shape.length).toNat 0
    else idx
  | .squeeze none => restoreOnes shape idx
  | .unsqueeze dim => idx.eraseIdx (normalizeDim dim (shape.length + 1)).toNat
  | .slice dim start _ step =>
    let d := (normalizeDim dim shape.length).toNat
    idx.set d (normalizeDim start (shape.getD d 0) + idx.getD d 0 * step)
  | _ => idx

/-- The shape of the result. -/
def newShape (shape : List Int) : ViewOp → List Int
  | .transpose dim0 dim1 =>
    TensorImpl.swapAt shape (normalizeDim dim0 shape.length).toNat
      (normalizeDim dim1 shape.length).toNat 0
  | .permute dims => gather (dims.map fun d => (normalizeDim d shape.length).toNat) shape
  | .squeeze (some dim) =>
    let d := (normalizeDim dim shape.length).toNat
    if shape.getD d 0 = 1 then shape.eraseIdx d else shape
  | .squeeze none => dropOnes shape shape
  | .unsqueeze dim => shape.insertIdx (normalizeDim dim (shape.length + 1)).toNat 1
  | .slice dim start stop step =>
    let d := (normalizeDim dim shape.length).toNat
    let n := shape.getD d 0
    shape.set d (TensorImpl.sliceSize (normalizeDim start n) (normalizeDim stop n) step)
  | _ => shape

/-- A slice whose 64-bit size does not come out negative, and which keeps every
channel when it cuts the channel axis. -/
def KeepsChannels (t : TensorImpl) : ViewOp → Prop
  | .slice dim start stop step =>
    let d := normalizeDim dim t.ndim
    let n := t.shape.getD d.toNat 0
    let first := normalizeDim start n
    let last := normalizeDim stop n
    (last - first + step - 1 ≤ int64Max ∨ 18446744073709551617 < last - first + 2 * step) ∧
      (d = t.qAxis → first = 0 ∧ last = n ∧ (step = 1 ∨ n ≤ 1))
  | _ => True

end ViewOp

/-- Every step of the chain keeps the channels of the tensor it is applied to. -/
def KeepsChannelsThroughout (t : TensorImpl) : List (TensorId × ViewOp) → Prop
  | [] => True
  | (self, op) :: ops => op.KeepsChannels t ∧
      ∀ r, op.apply self t = .ok r → KeepsChannelsThroughout (r.impl t) ops

namespace TensorImpl

section SliceSize

variable {first last step n : Int} (hfirst : 0 ≤ first) (horder : first ≤ last)
  (hlast : last ≤ n) (hn : n ≤ int64Max) (hstep : 0 < step) (hword : step ≤ int64Max)

include hfirst horder hlast hn hstep hword

theorem sliceSize_nonneg_iff : 0 ≤ sliceSize first last step ↔
    last - first + step - 1 ≤ int64Max ∨ 18446744073709551617 < last - first + 2 * step := by
  by_cases hfit : last - first + step - 1 ≤ int64Max
  · rw [sliceSize_exact horder hstep hfit]
    exact iff_of_true (Int.ediv_nonneg (by omega) hstep.le) (.inl hfit)
  · rw [sliceSize_carry hfirst (hlast.trans hn) hstep hword (not_le.mp hfit)]
    have hdiv : (18446744073709551616 - (last - first + step - 1)) / step ≤ 0 ↔
        18446744073709551616 - (last - first + step - 1) < step := by
      rw [← Int.lt_add_one_iff, zero_add, Int.ediv_lt_iff_lt_mul hstep, one_mul]
    omega

theorem sliceSize_le_size : sliceSize first last step ≤ n := by
  by_contra hgt
  have hspec := sliceSize_spec hfirst horder (hlast.trans hn) hstep hword
    (by omega : 0 ≤ n) (not_le.mp hgt)
  have hmul : n ≤ n * step := le_mul_of_one_le_right (by omega) hstep
  omega

theorem sliceSize_eq_iff : sliceSize first last step = n ↔
    first = 0 ∧ last = n ∧ (step = 1 ∨ n ≤ 1) := by
  constructor
  · intro heq
    rcases lt_or_ge 0 n with hpos | hzero
    · -- The last index of the slice is `first + (n - 1) * step`, below `last`.
      have hspec := sliceSize_spec hfirst horder (hlast.trans hn) hstep hword
        (by omega : 0 ≤ n - 1) (by omega)
      have hmul : n - 1 ≤ (n - 1) * step := le_mul_of_one_le_right (by omega) hstep
      by_contra hboth
      have hdouble : (n - 1) * 2 ≤ (n - 1) * step :=
        mul_le_mul_of_nonneg_left (by omega) (by omega)
      omega
    · exact ⟨by omega, by omega, .inr (by omega)⟩
  · rintro ⟨rfl, rfl, hone | hsmall⟩
    · subst hone
      rw [sliceSize_exact horder hstep (by omega)]
      simp
    · rw [sliceSize_exact horder hstep (by omega)]
      rcases (by omega : last = 0 ∨ last = 1) with rfl | rfl
      · exact Int.ediv_eq_zero_of_lt (by omega) (by omega)
      · rw [show (1 : Int) - 0 + step - 1 = step by ring]
        exact Int.ediv_self hstep.ne'

end SliceSize

end TensorImpl

section Step

variable {self : TensorId} {t : TensorImpl} {op : ViewOp} {r : ViewResult}

theorem shape_apply (hop : op.IsAxisOp) (h : op.apply self t = .ok r) :
    (r.impl t).shape = op.newShape t.shape := by
  cases op <;> simp only [ViewOp.IsAxisOp] at hop <;>
    simp only [ViewOp.apply, TensorImpl.squeeze, map_eq_ok] at h
  case transpose =>
    obtain ⟨t', h, rfl⟩ := h
    obtain ⟨i, j, -, -, hi, hj, rfl⟩ := TensorImpl.transpose_ok h
    simp only [TensorImpl.ndim] at hi hj
    simp [ViewResult.impl, ViewOp.newShape, hi, hj]
  case permute =>
    obtain ⟨t', h, rfl⟩ := h
    obtain ⟨pos, -, hpos, rfl⟩ := TensorImpl.permute_ok h
    have hmap := congrArg (List.map toNat) hpos
    simp only [map_map, Function.comp_def, TensorImpl.ndim, Int.ofNat_eq_natCast,
      toNat_natCast, map_id'] at hmap
    simp only [ViewResult.impl, ViewOp.newShape, hmap]
  case squeeze dim =>
    cases dim with
    | none =>
      obtain ⟨-, rfl⟩ := TensorImpl.squeezeAll_ok h
      rfl
    | some dim =>
      obtain ⟨d, -, hd, ⟨hne, rfl⟩ | ⟨hone, -, rfl⟩⟩ := TensorImpl.squeezeDim_ok h
      · simp only [TensorImpl.ndim] at hd
        simp only [ViewResult.impl, ViewOp.newShape, hd, toNat_natCast, if_neg hne]
      · simp only [TensorImpl.ndim] at hd
        simp only [ViewResult.impl, ViewOp.newShape, hd, toNat_natCast, if_pos hone]
  case unsqueeze =>
    obtain ⟨t', h, rfl⟩ := h
    obtain ⟨d, contiguous, -, hd, -, rfl⟩ := TensorImpl.unsqueeze_ok h
    simp only [TensorImpl.ndim] at hd
    simp [ViewResult.impl, ViewOp.newShape, hd]
  case slice =>
    obtain ⟨t', h, rfl⟩ := h
    obtain ⟨d, first, last, -, hd, rfl, rfl, -, -, -, -, rfl⟩ := TensorImpl.slice_ok h
    simp only [TensorImpl.ndim] at hd
    simp [ViewResult.impl, ViewOp.newShape, hd]

theorem reindexes_apply (hop : op.IsAxisOp) (hwf : t.WellFormed) (hb : t.InBounds)
    (hargs : op.ArgsInInt64) (h : op.apply self t = .ok r) :
    Reindexes t (r.impl t) fun idx => op.indexMap t.shape idx := by
  cases op <;> simp only [ViewOp.IsAxisOp] at hop <;>
    simp only [ViewOp.apply, TensorImpl.squeeze, map_eq_ok] at h
  case transpose =>
    obtain ⟨t', h, rfl⟩ := h
    exact TensorImpl.reindexes_transpose hwf h
  case permute =>
    obtain ⟨t', h, rfl⟩ := h
    exact TensorImpl.reindexes_permute hwf h
  case squeeze dim =>
    cases dim with
    | none => exact TensorImpl.reindexes_squeezeAll hwf h
    | some dim => exact TensorImpl.reindexes_squeezeDim hwf h
  case unsqueeze =>
    obtain ⟨t', h, rfl⟩ := h
    exact TensorImpl.reindexes_unsqueeze hwf h
  case slice =>
    obtain ⟨t', h, rfl⟩ := h
    exact TensorImpl.reindexes_slice hwf hb hargs.2.2.2.2 h

end Step

/-! ## The channel axis -/

/-- The metadata of the result names an axis of the same size, and an element
keeps its index on it. -/
structure ChannelStep (t t' : TensorImpl) (f : List Int → List Int) : Prop where
  axis_nonneg : 0 ≤ t'.qAxis
  axis_lt : t'.qAxis.toNat < t'.shape.length
  size_eq : t'.shape.getD t'.qAxis.toNat 0 = t.shape.getD t.qAxis.toNat 0
  index_eq : ∀ idx, Within idx t'.shape →
    (f idx).getD t.qAxis.toNat 0 = idx.getD t'.qAxis.toNat 0

theorem idxOf_map_ofNat (pos : List Nat) (q : Nat) :
    (pos.map ofNat).idxOf (q : Int) = pos.idxOf q := by
  induction pos with
  | nil => rfl
  | cons p pos ih =>
    by_cases hpq : p = q
    · subst hpq
      simp
    · rw [map_cons, idxOf_cons_ne _ (by simpa using hpq), idxOf_cons_ne _ hpq, ih]

theorem ChannelStep.of_axis {t' : TensorImpl} {f : List Int → List Int} {q : Nat} (p : Nat)
    (hq : t.qAxis = q) (hp : t'.qAxis = p) (hlt : p < t'.shape.length)
    (hsize : t'.shape.getD p 0 = t.shape.getD q 0)
    (hidx : ∀ idx, Within idx t'.shape → (f idx).getD q 0 = idx.getD p 0) : ChannelStep t t' f := by
  have hqn : t.qAxis.toNat = q := by rw [hq, toNat_natCast]
  have hpn : t'.qAxis.toNat = p := by rw [hp, toNat_natCast]
  refine ⟨by omega, ?_, ?_, ?_⟩
  · rwa [hpn]
  · rwa [hpn, hqn]
  · rwa [hpn, hqn]

namespace TensorImpl

variable {self : TensorId} {t t' : TensorImpl} {q : Nat}

section Channel

variable (hscales : t.qScales.isSome = true) (hq : t.qAxis = q) (hlt : q < t.shape.length)
  {dim : Int} {r : ViewResult}

include hscales hq hlt

theorem channel_transpose {dim0 dim1 : Int} (h : t.transpose self dim0 dim1 = .ok t') :
    ChannelStep t t' fun idx => (ViewOp.transpose dim0 dim1).indexMap t.shape idx := by
  obtain ⟨i, j, hi, hj, hd0, hd1, rfl⟩ := transpose_ok h
  simp only [ndim] at hd0 hd1
  apply ChannelStep.of_axis (if q = i then j else if q = j then i else q) hq
  · simp only [hscales, if_true, hq, swapAxis]
    split_ifs <;> omega
  · simp only [swapAt_length]
    split_ifs <;> omega
  · rw [getD_swapAt _ _ hi hj]
    split_ifs <;> simp_all
  · intro idx hidx
    have hlen : idx.length = t.shape.length := by simpa using hidx.length_eq
    simp only [ViewOp.indexMap, hd0, hd1, toNat_natCast]
    rw [getD_swapAt _ _ (by omega) (by omega)]
    split_ifs <;> simp_all

theorem channel_permute {dims : List Int} (h : t.permute self dims = .ok t') :
    ChannelStep t t' fun idx => (ViewOp.permute dims).indexMap t.shape idx := by
  obtain ⟨pos, hperm, hdims, rfl⟩ := permute_ok h
  have hposlen : pos.length = t.shape.length := by simpa using hperm.length_eq
  have hperm' : pos.Perm (List.range pos.length) := hposlen ▸ hperm
  have hmap := congrArg (List.map toNat) hdims
  simp only [map_map, Function.comp_def, ndim, Int.ofNat_eq_natCast,
    toNat_natCast, map_id'] at hmap
  have hmem : q ∈ pos := (mem_of_perm_range hperm').mpr (by omega)
  have hk := idxOf_lt_of_perm hperm' (by omega : q < pos.length)
  apply ChannelStep.of_axis (pos.idxOf q) hq
  · have hmem' : (q : Int) ∈ pos.map ofNat := mem_map.mpr ⟨q, hmem, rfl⟩
    simp only [hscales, if_true, hq, permuteAxis, if_pos hmem']
    rw [idxOf_map_ofNat]
  · simpa using hk
  · rw [gather_getD hk, getD_idxOf_of_perm hperm' (by omega)]
  · intro idx hidx
    simp only [ViewOp.indexMap, hmap]
    exact scatter_getD (by omega) idx

theorem channel_squeezeDim (h : t.squeezeDim self dim = .ok r) :
    ChannelStep t (r.impl t) fun idx => (ViewOp.squeeze (some dim)).indexMap t.shape idx := by
  obtain ⟨d, hd, hdim, ⟨hne, rfl⟩ | ⟨hone, haxis, rfl⟩⟩ := squeezeDim_ok h
  · simp only [ndim] at hdim
    refine ChannelStep.of_axis q hq hq hlt rfl ?_
    intro idx _
    simp only [ViewOp.indexMap, hdim, toNat_natCast, if_neg hne]
  · simp only [ndim] at hdim
    have hdq : d ≠ q := by
      intro heq
      exact haxis hscales (by rw [hq, heq])
    apply ChannelStep.of_axis (if d < q then q - 1 else q) hq
    · simp only [ViewResult.impl, hscales, true_and, hq]
      split_ifs <;> omega
    · simp only [ViewResult.impl]
      rw [length_eraseIdx]
      split_ifs <;> omega
    · simp only [ViewResult.impl]
      rw [List.getD, List.getD]
      rcases lt_or_gt_of_ne hdq with hlt' | hgt
      · rw [if_pos hlt', getElem?_eraseIdx_of_ge (by omega), show q - 1 + 1 = q by omega]
      · rw [if_neg (by omega), getElem?_eraseIdx_of_lt hgt]
    · intro idx _
      simp only [ViewOp.indexMap, hdim, toNat_natCast, if_pos hone]
      rw [List.getD, List.getD]
      rcases lt_or_gt_of_ne hdq with hlt' | hgt
      · rw [getElem?_insertIdx_of_gt hlt', if_pos hlt']
      · rw [getElem?_insertIdx_of_lt hgt, if_neg (by omega)]

theorem channel_squeezeAll (h : t.squeezeAll self = .ok r) :
    ChannelStep t (r.impl t) fun idx => (ViewOp.squeeze none).indexMap t.shape idx := by
  obtain ⟨hguard, rfl⟩ := squeezeAll_ok h
  obtain ⟨-, -, hne⟩ := hguard hscales
  rw [hq] at hne
  have hget : (dropOnes t.shape t.shape)[dropOnesPos t.shape q]? = t.shape[q]? :=
    dropOnes_getElem? rfl hlt hne
  apply ChannelStep.of_axis (dropOnesPos t.shape q) hq
  · simp only [ViewResult.impl, hscales, if_true, hq, toNat_natCast]
    rfl
  · have hsome : t.shape[q]? = some (t.shape.getD q 0) := by
      simp [List.getD, hlt]
    rw [hsome] at hget
    exact (List.getElem?_eq_some_iff.mp hget).1
  · simp only [ViewResult.impl]
    rw [List.getD, List.getD, hget]
  · intro idx _
    exact restoreOnes_getD hlt hne

theorem channel_unsqueeze (h : t.unsqueeze self dim = .ok t') :
    ChannelStep t t' fun idx => (ViewOp.unsqueeze dim).indexMap t.shape idx := by
  obtain ⟨d, contiguous, hd, hdim, -, rfl⟩ := unsqueeze_ok h
  simp only [ndim] at hdim
  apply ChannelStep.of_axis (if d ≤ q then q + 1 else q) hq
  · simp only [hscales, true_and, hq]
    split_ifs <;> omega
  · rw [length_insertIdx]
    split_ifs <;> omega
  · simp only
    rw [List.getD, List.getD]
    split_ifs with hle
    · rw [getElem?_insertIdx_of_gt (by omega)]
      rfl
    · rw [getElem?_insertIdx_of_lt (by omega)]
  · intro idx _
    simp only [ViewOp.indexMap, hdim, toNat_natCast]
    rw [List.getD, getElem?_eraseIdx]
    split_ifs <;> first | rfl | omega

omit hscales in
theorem channel_slice {start stop step : Int} (hwf : t.WellFormed) (hword : step ≤ int64Max)
    (hkeep : (ViewOp.slice dim start stop step).KeepsChannels t)
    (h : t.slice self dim start stop step = .ok t') :
    ChannelStep t t' fun idx => (ViewOp.slice dim start stop step).indexMap t.shape idx := by
  obtain ⟨d, first, last, hd, hdim, rfl, rfl, hfirst, horder, hlast, hstep, rfl⟩ := slice_ok h
  simp only [ViewOp.KeepsChannels, hdim, toNat_natCast, hq] at hkeep
  simp only [ndim] at hdim
  apply ChannelStep.of_axis q hq
  · exact hq
  · simpa using hlt
  · simp only
    rw [getD_set _ _ _ _ _ hd]
    by_cases hqd : q = d
    · obtain ⟨hzero, hend, hone⟩ := hkeep.2 (by rw [hqd])
      rw [if_pos hqd, hqd]
      exact (sliceSize_eq_iff hfirst horder hlast (hwf.getD hd).2 hstep hword).mpr
        ⟨hzero, hend, hone⟩
    · rw [if_neg hqd]
  · intro idx hidx
    have hlen : idx.length = t.shape.length := by simpa using hidx.length_eq
    simp only [ViewOp.indexMap, hdim, toNat_natCast]
    rw [getD_set _ _ _ _ _ (by omega)]
    by_cases hqd : q = d
    · obtain ⟨hzero, hend, hone⟩ := hkeep.2 (by rw [hqd])
      have hb := within_getD (d := d) hidx (by simpa using hd)
      simp only at hb
      rw [getD_set _ _ _ _ _ hd, if_pos rfl,
        (sliceSize_eq_iff hfirst horder hlast (hwf.getD hd).2 hstep hword).mpr
          ⟨hzero, hend, hone⟩] at hb
      rw [if_pos hqd, hqd, hzero]
      rcases hone with rfl | hsmall
      · ring
      · have hidx0 : idx.getD d 0 = 0 := by omega
        rw [hidx0]
        ring
    · rw [if_neg hqd]

end Channel

end TensorImpl

section ChainStep

variable {self : TensorId} {t : TensorImpl} {op : ViewOp} {r : ViewResult}

/-- The metadata an axis operation leaves alone. -/
theorem metadata_apply (hop : op.IsAxisOp) (h : op.apply self t = .ok r) :
    (r.impl t).qScales = t.qScales ∧ (r.impl t).qZeroPoints = t.qZeroPoints ∧
      (r.impl t).dtype = t.dtype ∧ (r.impl t).storage = t.storage := by
  cases op <;> simp only [ViewOp.IsAxisOp] at hop <;>
    simp only [ViewOp.apply, TensorImpl.squeeze, map_eq_ok] at h
  case transpose =>
    obtain ⟨t', h, rfl⟩ := h
    obtain ⟨i, j, -, -, -, -, rfl⟩ := TensorImpl.transpose_ok h
    exact ⟨rfl, rfl, rfl, rfl⟩
  case permute =>
    obtain ⟨t', h, rfl⟩ := h
    obtain ⟨pos, -, -, rfl⟩ := TensorImpl.permute_ok h
    exact ⟨rfl, rfl, rfl, rfl⟩
  case squeeze dim =>
    cases dim with
    | none =>
      obtain ⟨-, rfl⟩ := TensorImpl.squeezeAll_ok h
      exact ⟨rfl, rfl, rfl, rfl⟩
    | some dim =>
      obtain ⟨d, -, -, ⟨-, rfl⟩ | ⟨-, -, rfl⟩⟩ := TensorImpl.squeezeDim_ok h
      · exact ⟨rfl, rfl, rfl, rfl⟩
      · exact ⟨rfl, rfl, rfl, rfl⟩
  case unsqueeze =>
    obtain ⟨t', h, rfl⟩ := h
    obtain ⟨d, contiguous, -, -, -, rfl⟩ := TensorImpl.unsqueeze_ok h
    exact ⟨rfl, rfl, rfl, rfl⟩
  case slice =>
    obtain ⟨t', h, rfl⟩ := h
    obtain ⟨d, first, last, -, -, -, -, -, -, -, -, rfl⟩ := TensorImpl.slice_ok h
    exact ⟨rfl, rfl, rfl, rfl⟩

theorem channel_apply (hop : op.IsAxisOp) (hargs : op.ArgsInInt64) (hwf : t.WellFormed)
    (hscales : t.qScales.isSome = true) (haxis : 0 ≤ t.qAxis)
    (hlt : t.qAxis.toNat < t.shape.length) (hkeep : op.KeepsChannels t)
    (h : op.apply self t = .ok r) :
    ChannelStep t (r.impl t) fun idx => op.indexMap t.shape idx := by
  have hq : t.qAxis = (t.qAxis.toNat : Int) := by omega
  cases op <;> simp only [ViewOp.IsAxisOp] at hop <;>
    simp only [ViewOp.apply, TensorImpl.squeeze, map_eq_ok] at h
  case transpose =>
    obtain ⟨t', h, rfl⟩ := h
    exact TensorImpl.channel_transpose hscales hq hlt h
  case permute =>
    obtain ⟨t', h, rfl⟩ := h
    exact TensorImpl.channel_permute hscales hq hlt h
  case squeeze dim =>
    cases dim with
    | none => exact TensorImpl.channel_squeezeAll hscales hq hlt h
    | some dim => exact TensorImpl.channel_squeezeDim hscales hq hlt h
  case unsqueeze =>
    obtain ⟨t', h, rfl⟩ := h
    exact TensorImpl.channel_unsqueeze hscales hq hlt h
  case slice =>
    obtain ⟨t', h, rfl⟩ := h
    exact TensorImpl.channel_slice hq hlt hwf hargs.2.2.2.2 hkeep h

theorem wellFormed_axisOp (hop : op.IsAxisOp) (hwf : t.WellFormed)
    (hnn : ∀ n ∈ (r.impl t).shape, 0 ≤ n) (h : op.apply self t = .ok r) :
    (r.impl t).WellFormed := by
  cases op <;> simp only [ViewOp.IsAxisOp] at hop <;>
    simp only [ViewOp.apply, TensorImpl.squeeze, map_eq_ok] at h
  case transpose =>
    obtain ⟨t', h, rfl⟩ := h
    exact TensorImpl.wellFormed_transpose hwf h
  case permute =>
    obtain ⟨t', h, rfl⟩ := h
    exact TensorImpl.wellFormed_permute hwf h
  case squeeze dim =>
    cases dim with
    | none => exact TensorImpl.wellFormed_squeezeAll hwf h
    | some dim => exact TensorImpl.wellFormed_squeezeDim hwf h
  case unsqueeze =>
    obtain ⟨t', h, rfl⟩ := h
    exact TensorImpl.wellFormed_unsqueeze hwf h
  case slice =>
    obtain ⟨t', h, rfl⟩ := h
    exact TensorImpl.wellFormed_slice hwf hnn h

/-- A step that keeps the channels leaves no negative size. -/
theorem keepsChannels_nonneg (hop : op.IsAxisOp) (hargs : op.ArgsInInt64) (hwf : t.WellFormed)
    (hkeep : op.KeepsChannels t) (h : op.apply self t = .ok r) :
    ∀ n ∈ (r.impl t).shape, 0 ≤ n := by
  cases op <;> simp only [ViewOp.IsAxisOp] at hop <;>
    simp only [ViewOp.apply, TensorImpl.squeeze, map_eq_ok] at h
  case transpose =>
    obtain ⟨t', h, rfl⟩ := h
    exact (TensorImpl.wellFormed_transpose hwf h).nonneg
  case permute =>
    obtain ⟨t', h, rfl⟩ := h
    exact (TensorImpl.wellFormed_permute hwf h).nonneg
  case squeeze dim =>
    cases dim with
    | none => exact (TensorImpl.wellFormed_squeezeAll hwf h).nonneg
    | some dim => exact (TensorImpl.wellFormed_squeezeDim hwf h).nonneg
  case unsqueeze =>
    obtain ⟨t', h, rfl⟩ := h
    exact (TensorImpl.wellFormed_unsqueeze hwf h).nonneg
  case slice dim start stop step =>
    obtain ⟨t', h, rfl⟩ := h
    obtain ⟨d, first, last, hd, hdim, rfl, rfl, hfirst, horder, hlast, hstep, rfl⟩ :=
      TensorImpl.slice_ok h
    simp only [ViewOp.KeepsChannels, hdim, toNat_natCast] at hkeep
    intro n hn
    rcases mem_or_eq_of_mem_set hn with hn | rfl
    · exact hwf.nonneg n hn
    · exact (TensorImpl.sliceSize_nonneg_iff hfirst horder hlast (hwf.getD hd).2 hstep
        hargs.2.2.2.2).mpr hkeep.1

end ChainStep

namespace TensorImpl

theorem sliceReachStep_eq {low high n s : Int} (hn : 0 < n) (hlow : low ≤ int64Max)
    (hhigh : 0 ≤ high) (hlow' : 0 ≤ low + min 0 ((n - 1) * s))
    (hhigh' : high + max 0 ((n - 1) * s) ≤ int64Max) :
    sliceReachStep (low, high) (n, s) =
      .ok (low + min 0 ((n - 1) * s), high + max 0 ((n - 1) * s)) := by
  have habs : |(n - 1) * s| ≤ int64Max := by
    apply abs_le.mpr
    constructor <;> omega
  have hguard : ¬ (s ≠ 0 ∧ (n - 1).toNat > int64Max.toNat / safeAbs s) := by
    rintro ⟨hs, hgt⟩
    have hpos : 0 < safeAbs s := Int.natAbs_pos.mpr hs
    rw [gt_iff_lt, Nat.div_lt_iff_lt_mul hpos] at hgt
    rw [Int.abs_eq_natAbs, Int.natAbs_mul] at habs
    have hcast : (n - 1).toNat = (n - 1).natAbs := by omega
    rw [hcast] at hgt
    simp only [safeAbs, int64Max] at habs hgt
    omega
  simp only [sliceReachStep, if_neg (not_le.mpr hn), if_neg hguard]
  by_cases hs : 0 ≤ (n - 1) * s
  · rw [min_eq_left hs, max_eq_right hs] at *
    rw [if_pos hs, if_neg (by omega), add_zero]
  · have hle : (n - 1) * s ≤ 0 := le_of_not_ge hs
    rw [min_eq_right hle, max_eq_left hle] at *
    rw [if_neg hs, if_neg (by simp only [int64Min]; omega), add_zero]

/-- A slice that leaves elements returns on every in-bounds tensor. -/
theorem slice_returns {self : TensorId} {e : TensorImpl} {dim start stop step : Int} {d : Nat}
    (hwf : e.WellFormed) (hb : e.InBounds) (hword : step ≤ int64Max)
    (hdim : normalizeDim dim e.ndim = d) (hd : d < e.shape.length)
    (hfirst : 0 ≤ normalizeDim start (e.shape.getD d 0))
    (horder : normalizeDim start (e.shape.getD d 0) ≤ normalizeDim stop (e.shape.getD d 0))
    (hlast : normalizeDim stop (e.shape.getD d 0) ≤ e.shape.getD d 0) (hstep : 0 < step)
    (hpos : ∀ n ∈ e.shape.set d (sliceSize (normalizeDim start (e.shape.getD d 0))
      (normalizeDim stop (e.shape.getD d 0)) step), 0 < n) :
    ∃ e', e.slice self dim start stop step = .ok e' := by
  set first := normalizeDim start (e.shape.getD d 0) with hfirstDef
  set last := normalizeDim stop (e.shape.getD d 0) with hlastDef
  let e' : TensorImpl := { e.copy with
    shape := e.shape.set d (sliceSize first last step)
    strides :=
      if step ≠ 1 then e.strides.set d (wrap64 (e.strides.getD d 0 * step)) else e.strides
    offset := e.offset + first * e.strides.getD d 0
    viewBase := e.baseFor self }
  have hre : Reindexes e e' fun idx => idx.set d (first + idx.getD d 0 * step) :=
    reindexes_cut hwf hb hd hfirst horder hlast hstep hword rfl rfl rfl
  have hwf' : e'.WellFormed := by
    refine ⟨?_, fun n hn => (hpos n hn).le, ?_⟩
    · simp only [e', length_set]
      split_ifs <;> simpa using hwf.length_eq
    · intro n hn
      rcases mem_or_eq_of_mem_set hn with hn | rfl
      · exact hwf.size_le n hn
      · exact sliceSize_le first last hstep
  have hepos : ∀ n ∈ e.shape, 0 < n :=
    Within.pos (hre.within _ (within_unravel hpos 0))
  -- Both base addresses lie inside the storage, so no checked step overflows.
  obtain ⟨hlow, hhigh⟩ := (hre.inBounds rfl hb).reach hwf' hpos
  obtain ⟨hlow0, hhigh0⟩ := hb.reach hwf hepos
  have hout := reach_outwards (e'.offset, e'.offset) (e'.shape.zip e'.strides)
  have hout0 := reach_outwards (e.offset, e.offset) (e.shape.zip e.strides)
  have hmax := e.storageElements_le
  have hst : e'.storageElements = e.storageElements := rfl
  have hoff : e'.offset = e.offset + first * e.strides.getD d 0 := rfl
  have hmul : InInt64 (first * e.strides.getD d 0) := by
    simp only [InInt64, int64Min, int64Max] at *
    omega
  have hadd : InInt64 (e.offset + first * e.strides.getD d 0) := by
    simp only [InInt64, int64Min, int64Max] at *
    omega
  have hfold : (e'.shape.zip e'.strides).foldlM sliceReachStep (e'.offset, e'.offset) =
      .ok (reach (e'.offset, e'.offset) (e'.shape.zip e'.strides)) := by
    apply foldlM_eq_reach (fun _ _ _ _ => sliceReachStep_eq)
    · intro axis haxis
      exact hpos _ (of_mem_zip haxis).1
    · omega
    · omega
    · exact hlow
    · omega
  have hwrap : wrap64 (e.storageElements : Int) = e.storageElements :=
    wrap64_of_nonneg (Int.natCast_nonneg _) hmax
  have hguard : ¬ (0 < e'.shape.foldl (fun r n => wrap64 (r * n)) 1 ∧
      ((reach (e'.offset, e'.offset) (e'.shape.zip e'.strides)).1 < 0 ∨
        wrap64 (e.storageElements : Int) ≤
          (reach (e'.offset, e'.offset) (e'.shape.zip e'.strides)).2)) := by
    rintro ⟨-, hneg | hover⟩
    · exact absurd hlow (not_le.mpr hneg)
    · rw [hwrap] at hover
      exact absurd hhigh (not_lt.mpr hover)
  have hrange : ¬ ((d : Int) < 0 ∨ e.ndim ≤ d) := by
    simp only [ndim]
    omega
  refine ⟨e', ?_⟩
  simp only [slice, throwIf, hdim, toNat_natCast, if_neg hrange, ← hfirstDef, ← hlastDef,
    checkedMul, if_pos hmul, checkedAdd, if_pos hadd, bind, Except.bind]
  rw [if_neg (by omega), if_neg (by omega), if_neg (by omega), if_neg (by omega)]
  simp only [e'] at hfold hguard
  rw [hfold]
  simp only [if_neg hguard]
  rfl

end TensorImpl

/-- A view that returns on a tensor also returns on an unquantized in-bounds
tensor of the same shape, if it leaves elements. -/
theorem apply_returns {e : TensorImpl} {r : ViewResult} (hop : op.IsAxisOp) (hargs : op.ArgsInInt64)
    (hshape : e.shape = t.shape) (hnone : e.qScales = none) (hwf : e.WellFormed) (hb : e.InBounds)
    (hpos : ∀ n ∈ (r.impl t).shape, 0 < n) (h : op.apply self t = .ok r) :
    ∃ r', op.apply self e = .ok r' := by
  have hndim : e.ndim = t.ndim := by simp only [TensorImpl.ndim, hshape]
  cases op <;> simp only [ViewOp.IsAxisOp] at hop <;>
    simp only [ViewOp.apply, TensorImpl.squeeze, map_eq_ok] at h ⊢
  case transpose =>
    obtain ⟨t', h, rfl⟩ := h
    simp only [TensorImpl.transpose, bind_eq_ok, throwIf_eq_ok, pure_eq_ok, hndim] at h ⊢
    obtain ⟨-, hguard, -⟩ := h
    exact ⟨_, _, ⟨(), hguard, rfl⟩, rfl⟩
  case permute =>
    obtain ⟨t', h, rfl⟩ := h
    simp only [TensorImpl.permute, bind_eq_ok, throwIf_eq_ok, pure_eq_ok, hndim] at h ⊢
    obtain ⟨-, hlen, dims, hdims, -⟩ := h
    exact ⟨_, _, ⟨(), hlen, dims, hdims, rfl⟩, rfl⟩
  case squeeze dim =>
    cases dim with
    | none =>
      simp only [TensorImpl.squeezeAll, bind_eq_ok, throwIf_eq_ok, pure_eq_ok]
      exact ⟨_, (), by simp [hnone], rfl⟩
    | some dim =>
      simp only [TensorImpl.squeezeDim, bind_eq_ok, throwIf_eq_ok] at h ⊢
      obtain ⟨-, hguard, -⟩ := h
      rw [← hndim] at hguard
      by_cases hone : e.shape.getD (normalizeDim dim e.ndim).toNat 0 = 1
      · rw [if_neg (not_not.mpr hone)]
        simp only [bind_eq_ok, throwIf_eq_ok, pure_eq_ok]
        exact ⟨_, (), hguard, (), by simp [hnone], rfl⟩
      · rw [if_pos hone]
        exact ⟨.same, (), hguard, rfl⟩
  case unsqueeze =>
    obtain ⟨t', h, rfl⟩ := h
    simp only [TensorImpl.unsqueeze, bind_eq_ok, throwIf_eq_ok, pure_eq_ok, hndim,
      TensorImpl.isContiguous, hshape] at h ⊢
    obtain ⟨-, hguard, -, ⟨expected, hexpected, -⟩, -⟩ := h
    exact ⟨_, _, ⟨(), hguard, _, ⟨expected, hexpected, rfl⟩, rfl⟩, rfl⟩
  case slice dim start stop step =>
    obtain ⟨t', h, rfl⟩ := h
    obtain ⟨d, first, last, hd, hdim, rfl, rfl, hfirst, horder, hlast, hstep, rfl⟩ :=
      TensorImpl.slice_ok h
    rw [← hshape] at hd hfirst horder hlast
    simp only [ViewResult.impl, ← hshape] at hpos
    obtain ⟨e', he'⟩ := TensorImpl.slice_returns hwf hb hargs.2.2.2.2
      (hndim.symm ▸ hdim) hd hfirst horder hlast hstep hpos
    exact ⟨_, e', he', rfl⟩

theorem runViews_cons {v : TensorImpl} {ops : List (TensorId × ViewOp)} :
    runViews t ((self, op) :: ops) = .ok v ↔
      ∃ r, op.apply self t = .ok r ∧ runViews (r.impl t) ops = .ok v := by
  simp only [runViews, foldlM_cons_eq_ok, viewStep, bind_eq_ok, pure_eq_ok]
  constructor
  · rintro ⟨_, ⟨r, hr, rfl⟩, hrest⟩
    exact ⟨r, hr, hrest⟩
  · rintro ⟨r, hr, hrest⟩
    exact ⟨_, ⟨r, hr, rfl⟩, hrest⟩

/-- What holds between a per-channel tensor and the end of a chain that keeps
its channels. -/
structure Tracks (t v : TensorImpl) (scales : List ℚ) (zeroPoints : List Int)
    (f : List Int → List Int) : Prop where
  wellFormed : v.WellFormed
  inBounds : v.InBounds
  perChannel : v.PerChannel scales zeroPoints
  dtype_eq : v.dtype = t.dtype
  storage_eq : v.storage = t.storage
  reindexes : Reindexes t v f
  index_eq : ∀ idx, Within idx v.shape →
    (f idx).getD t.qAxis.toNat 0 = idx.getD v.qAxis.toNat 0

section Chain

variable {scales : List ℚ} {zeroPoints : List Int} {t v : TensorImpl}

theorem tracks_apply {self : TensorId} {op : ViewOp} {r : ViewResult} (hop : op.IsAxisOp)
    (hargs : op.ArgsInInt64) (hwf : t.WellFormed) (hb : t.InBounds)
    (hchan : t.PerChannel scales zeroPoints) (hkeep : op.KeepsChannels t)
    (h : op.apply self t = .ok r) :
    Tracks t (r.impl t) scales zeroPoints fun idx => op.indexMap t.shape idx := by
  obtain ⟨hscales, hzeros, hdtype, hstorage⟩ := metadata_apply hop h
  have hre := reindexes_apply hop hwf hb hargs h
  have hstep := channel_apply hop hargs hwf (by simp [hchan.scales_eq]) hchan.axis_nonneg
    hchan.axis_lt hkeep h
  refine ⟨?_, ?_, ?_, hdtype, hstorage, hre, hstep.index_eq⟩
  · exact wellFormed_axisOp hop hwf (keepsChannels_nonneg hop hargs hwf hkeep h) h
  · exact hre.inBounds (storageElements_apply h) hb
  · exact ⟨hscales.trans hchan.scales_eq, hzeros.trans hchan.zeroPoints_eq, hstep.axis_nonneg,
      hstep.axis_lt, hstep.size_eq.trans hchan.size_eq⟩

theorem Tracks.trans {s : TensorImpl} {f g : List Int → List Int}
    (h : Tracks t s scales zeroPoints f) (h' : Tracks s v scales zeroPoints g) :
    Tracks t v scales zeroPoints (f ∘ g) := by
  refine ⟨h'.wellFormed, h'.inBounds, h'.perChannel, h'.dtype_eq.trans h.dtype_eq,
    h'.storage_eq.trans h.storage_eq, h.reindexes.trans h'.reindexes, ?_⟩
  intro idx hidx
  have hmid := h.index_eq (g idx) (h'.reindexes.within idx hidx)
  exact hmid.trans (h'.index_eq idx hidx)

/-- A chain that keeps the channels tracks them to its end, and reads every
other tensor of the starting shape through the same reindexing. -/
theorem tracks_runViews (ops : List (TensorId × ViewOp))
    (hops : ∀ step ∈ ops, step.2.IsAxisOp ∧ step.2.ArgsInInt64) (hwf : t.WellFormed)
    (hb : t.InBounds) (hchan : t.PerChannel scales zeroPoints)
    (hkeep : KeepsChannelsThroughout t ops) (hrun : runViews t ops = .ok v) :
    ∃ f, Tracks t v scales zeroPoints f ∧
      ∀ e : TensorImpl, e.WellFormed → e.InBounds → e.shape = t.shape → e.qScales = none →
        (∀ e', runViews e ops = .ok e' → e'.shape = v.shape ∧ Reindexes e e' f) ∧
        ((∀ n ∈ v.shape, 0 < n) → ∃ e', runViews e ops = .ok e') := by
  induction ops generalizing t with
  | nil =>
    obtain rfl : t = v := by simpa [runViews] using hrun
    refine ⟨id, ⟨hwf, hb, hchan, rfl, rfl, ⟨fun _ h => h, fun _ _ => rfl⟩, fun _ _ => rfl⟩, ?_⟩
    intro e _ _ hshape _
    refine ⟨?_, fun _ => ⟨e, rfl⟩⟩
    intro e' he'
    obtain rfl : e = e' := by simpa [runViews] using he'
    exact ⟨hshape, ⟨fun _ h => h, fun _ _ => rfl⟩⟩
  | cons step ops ih =>
    obtain ⟨self, op⟩ := step
    obtain ⟨r, hr, hrest⟩ := runViews_cons.mp hrun
    obtain ⟨hop, hargs⟩ := hops (self, op) (by simp)
    have htrack := tracks_apply hop hargs hwf hb hchan hkeep.1 hr
    obtain ⟨g, hg, hother⟩ := ih (fun step hstep => hops step (by simp [hstep]))
      htrack.wellFormed htrack.inBounds htrack.perChannel (hkeep.2 r hr) hrest
    refine ⟨_, htrack.trans hg, ?_⟩
    intro e hwfE hbE hshape hnone
    -- One step on the other tensor lands on the same shape.
    have hnext : ∀ r', op.apply self e = .ok r' → (r'.impl e).WellFormed ∧
        (r'.impl e).InBounds ∧ (r'.impl e).shape = (r.impl t).shape ∧
        (r'.impl e).qScales = none ∧
        Reindexes e (r'.impl e) fun idx => op.indexMap t.shape idx := by
      intro r' hr'
      have hshape' : (r'.impl e).shape = (r.impl t).shape := by
        rw [shape_apply hop hr', shape_apply hop hr, hshape]
      have hre := reindexes_apply hop hwfE hbE hargs hr'
      rw [hshape] at hre
      refine ⟨?_, hre.inBounds (storageElements_apply hr') hbE, hshape', ?_, hre⟩
      · apply wellFormed_axisOp hop hwfE _ hr'
        rw [hshape']
        exact htrack.wellFormed.nonneg
      · rw [(metadata_apply hop hr').1, hnone]
    refine ⟨?_, ?_⟩
    · intro e' he'
      obtain ⟨r', hr', hrest'⟩ := runViews_cons.mp he'
      obtain ⟨hwf', hb', hshape', hnone', hre⟩ := hnext r' hr'
      obtain ⟨hsame, hre'⟩ := (hother _ hwf' hb' hshape' hnone').1 e' hrest'
      exact ⟨hsame, hre.trans hre'⟩
    · intro hpos
      have hposMid : ∀ n ∈ (r.impl t).shape, 0 < n :=
        Within.pos (hg.reindexes.within _ (within_unravel hpos 0))
      obtain ⟨r', hr'⟩ := apply_returns hop hargs hshape hnone hwfE hbE hposMid hr
      obtain ⟨hwf', hb', hshape', hnone', -⟩ := hnext r' hr'
      obtain ⟨e', he'⟩ := (hother _ hwf' hb' hshape' hnone').2 hpos
      exact ⟨e', runViews_cons.mpr ⟨r', hr', he'⟩⟩

end Chain

section Necessity

variable {self : TensorId} {t : TensorImpl} {op : ViewOp} {r : ViewResult}

/-- A negative size stays in the shape. -/
theorem negative_apply (hop : op.IsAxisOp) (hneg : ∃ n ∈ t.shape, n < 0)
    (h : op.apply self t = .ok r) : ∃ n ∈ (r.impl t).shape, n < 0 := by
  obtain ⟨n, hn, hlt⟩ := hneg
  obtain ⟨k, hk, rfl⟩ := mem_iff_getElem.mp hn
  have hgetD : t.shape[k] = t.shape.getD k 0 := (getD_eq_getElem _ _ hk).symm
  rw [hgetD] at hlt
  have hmem : ∀ (l : List Int) (j : Nat), j < l.length → l.getD j 0 = t.shape.getD k 0 →
      ∃ n ∈ l, n < 0 := by
    intro l j hj heq
    refine ⟨l.getD j 0, ?_, by omega⟩
    rw [getD_eq_getElem _ _ hj]
    exact getElem_mem hj
  cases op <;> simp only [ViewOp.IsAxisOp] at hop <;>
    simp only [ViewOp.apply, TensorImpl.squeeze, map_eq_ok] at h
  case transpose =>
    obtain ⟨t', h, rfl⟩ := h
    obtain ⟨i, j, hi, hj, -, -, rfl⟩ := TensorImpl.transpose_ok h
    apply hmem _ (if k = i then j else if k = j then i else k)
    · simp only [ViewResult.impl, TensorImpl.swapAt_length]
      split_ifs <;> omega
    · simp only [ViewResult.impl]
      rw [TensorImpl.getD_swapAt _ _ hi hj]
      split_ifs <;> congr 1 <;> omega
  case permute =>
    obtain ⟨t', h, rfl⟩ := h
    obtain ⟨pos, hperm, -, rfl⟩ := TensorImpl.permute_ok h
    have hlen : pos.length = t.shape.length := by simpa using hperm.length_eq
    have hperm' : pos.Perm (List.range pos.length) := hlen ▸ hperm
    have hj := idxOf_lt_of_perm hperm' (by omega : k < pos.length)
    apply hmem _ (pos.idxOf k)
    · simpa [ViewResult.impl] using hj
    · simp only [ViewResult.impl]
      rw [gather_getD hj, getD_idxOf_of_perm hperm' (by omega)]
  case squeeze dim =>
    cases dim with
    | none =>
      obtain ⟨-, rfl⟩ := TensorImpl.squeezeAll_ok h
      have hget : (dropOnes t.shape t.shape)[dropOnesPos t.shape k]? = t.shape[k]? :=
        dropOnes_getElem? rfl hk (by omega)
      rw [getElem?_eq_getElem hk] at hget
      obtain ⟨hlt', hval⟩ := List.getElem?_eq_some_iff.mp hget
      refine ⟨_, getElem_mem hlt', ?_⟩
      rwa [hval, hgetD]
    | some dim =>
      obtain ⟨d, hd, -, ⟨-, rfl⟩ | ⟨hone, -, rfl⟩⟩ := TensorImpl.squeezeDim_ok h
      · exact hmem _ k hk rfl
      · have hdk : d ≠ k := by
          rintro rfl
          omega
        apply hmem _ (if d < k then k - 1 else k)
        · simp only [ViewResult.impl, length_eraseIdx, if_pos hd]
          split_ifs <;> omega
        · simp only [ViewResult.impl]
          rw [List.getD, List.getD]
          rcases lt_or_gt_of_ne hdk with hlt' | hgt
          · rw [if_pos hlt', getElem?_eraseIdx_of_ge (by omega),
              show k - 1 + 1 = k by omega]
          · rw [if_neg (by omega), getElem?_eraseIdx_of_lt hgt]
  case unsqueeze =>
    obtain ⟨t', h, rfl⟩ := h
    obtain ⟨d, contiguous, hd, -, -, rfl⟩ := TensorImpl.unsqueeze_ok h
    refine ⟨t.shape.getD k 0, ?_, hlt⟩
    exact (mem_insertIdx hd).mpr (.inr (hgetD ▸ getElem_mem hk))
  case slice =>
    obtain ⟨t', h, rfl⟩ := h
    obtain ⟨d, first, last, hd, -, rfl, rfl, hfirst, horder, hlast, -, rfl⟩ :=
      TensorImpl.slice_ok h
    have hkd : k ≠ d := by
      rintro rfl
      omega
    apply hmem _ k
    · simpa [ViewResult.impl] using hk
    · simp only [ViewResult.impl]
      rw [getD_set _ _ _ _ _ hd, if_neg hkd]

theorem negative_runViews (ops : List (TensorId × ViewOp)) {t v : TensorImpl}
    (hops : ∀ step ∈ ops, step.2.IsAxisOp ∧ step.2.ArgsInInt64)
    (hrun : runViews t ops = .ok v) (hnn : ∀ n ∈ v.shape, 0 ≤ n) : ∀ n ∈ t.shape, 0 ≤ n := by
  induction ops generalizing t with
  | nil =>
    obtain rfl : t = v := by simpa [runViews] using hrun
    exact hnn
  | cons step ops ih =>
    obtain ⟨self, op⟩ := step
    obtain ⟨r, hr, hrest⟩ := runViews_cons.mp hrun
    have hmid := ih (fun step hstep => hops step (by simp [hstep])) hrest
    intro n hn
    by_contra hlt
    obtain ⟨m, hm, hneg⟩ :=
      negative_apply (hops (self, op) (by simp)).1 ⟨n, hn, not_le.mp hlt⟩ hr
    exact absurd (hmid m hm) (not_le.mpr hneg)

/-- The channel axis never gets longer, and stays as long only when the step
keeps the channels. -/
theorem channel_le (hop : op.IsAxisOp) (hargs : op.ArgsInInt64) (hwf : t.WellFormed)
    (hscales : t.qScales.isSome = true) (haxis : 0 ≤ t.qAxis)
    (hlt : t.qAxis.toNat < t.shape.length) (hnn : ∀ n ∈ (r.impl t).shape, 0 ≤ n)
    (h : op.apply self t = .ok r) :
    0 ≤ (r.impl t).qAxis ∧ (r.impl t).qAxis.toNat < (r.impl t).shape.length ∧
      (r.impl t).shape.getD (r.impl t).qAxis.toNat 0 ≤ t.shape.getD t.qAxis.toNat 0 ∧
      ((r.impl t).shape.getD (r.impl t).qAxis.toNat 0 = t.shape.getD t.qAxis.toNat 0 →
        op.KeepsChannels t) := by
  by_cases hslice : ∃ dim start stop step, op = .slice dim start stop step
  · obtain ⟨dim, start, stop, step, rfl⟩ := hslice
    simp only [ViewOp.apply, map_eq_ok] at h
    obtain ⟨t', h, rfl⟩ := h
    obtain ⟨d, first, last, hd, hdim, rfl, rfl, hfirst, horder, hlast, hstep, rfl⟩ :=
      TensorImpl.slice_ok h
    have hn := (hwf.getD hd).2
    have hword := hargs.2.2.2.2
    have hsizeNn := hnn _ (mem_set (by simpa using hd) _)
    have hnonneg := (TensorImpl.sliceSize_nonneg_iff hfirst horder hlast hn hstep hword).mp hsizeNn
    simp only [ViewResult.impl, TensorImpl.copy, ViewOp.KeepsChannels, hdim, toNat_natCast]
    rw [getD_set _ _ _ _ _ hd]
    refine ⟨haxis, by simpa using hlt, ?_, ?_⟩
    · split_ifs with hqd
      · rw [hqd]
        exact TensorImpl.sliceSize_le_size hfirst horder hlast hn hstep hword
      · exact le_rfl
    · intro heq
      refine ⟨hnonneg, ?_⟩
      intro hdq
      have hqd : t.qAxis.toNat = d := by omega
      rw [if_pos hqd, hqd] at heq
      exact (TensorImpl.sliceSize_eq_iff hfirst horder hlast hn hstep hword).mp heq
  · have hkeep : op.KeepsChannels t := by
      cases op <;> first | trivial | exact absurd ⟨_, _, _, _, rfl⟩ hslice
    have hstep := channel_apply hop hargs hwf hscales haxis hlt hkeep h
    exact ⟨hstep.axis_nonneg, hstep.axis_lt, hstep.size_eq.le, fun _ => hkeep⟩

/-- A chain that ends with non-negative sizes has not lengthened the channel
axis, and has kept the channels throughout if the axis is as long as before. -/
theorem keeps_of_runViews (ops : List (TensorId × ViewOp)) {t v : TensorImpl}
    (hops : ∀ step ∈ ops, step.2.IsAxisOp ∧ step.2.ArgsInInt64) (hwf : t.WellFormed)
    (hscales : t.qScales.isSome = true) (haxis : 0 ≤ t.qAxis)
    (hlt : t.qAxis.toNat < t.shape.length) (hrun : runViews t ops = .ok v)
    (hnn : ∀ n ∈ v.shape, 0 ≤ n) :
    0 ≤ v.qAxis ∧ v.shape.getD v.qAxis.toNat 0 ≤ t.shape.getD t.qAxis.toNat 0 ∧
      (v.shape.getD v.qAxis.toNat 0 = t.shape.getD t.qAxis.toNat 0 →
        KeepsChannelsThroughout t ops) := by
  induction ops generalizing t with
  | nil =>
    obtain rfl : t = v := by simpa [runViews] using hrun
    exact ⟨haxis, le_rfl, fun _ => trivial⟩
  | cons step ops ih =>
    obtain ⟨self, op⟩ := step
    obtain ⟨r, hr, hrest⟩ := runViews_cons.mp hrun
    have hops' : ∀ step ∈ ops, step.2.IsAxisOp ∧ step.2.ArgsInInt64 :=
      fun step hstep => hops step (by simp [hstep])
    obtain ⟨hop, hargs⟩ := hops (self, op) (by simp)
    have hmid := negative_runViews ops hops' hrest hnn
    obtain ⟨haxis', hlt', hle, hkeep⟩ := channel_le hop hargs hwf hscales haxis hlt hmid hr
    have hscales' : (r.impl t).qScales.isSome = true := by
      rwa [(metadata_apply hop hr).1]
    obtain ⟨hv, hle', hkeep'⟩ := ih hops' (wellFormed_axisOp hop hwf hmid hr) hscales' haxis'
      hlt' hrest
    refine ⟨hv, hle'.trans hle, ?_⟩
    intro heq
    refine ⟨hkeep (by omega), ?_⟩
    intro r' hr'
    obtain rfl : r = r' := Except.ok.inj (hr.symm.trans hr')
    exact hkeep' (by omega)

theorem qScales_runViews (ops : List (TensorId × ViewOp)) {t v : TensorImpl}
    (hops : ∀ step ∈ ops, step.2.IsAxisOp ∧ step.2.ArgsInInt64)
    (hrun : runViews t ops = .ok v) : v.qScales = t.qScales := by
  induction ops generalizing t with
  | nil =>
    obtain rfl : t = v := by simpa [runViews] using hrun
    rfl
  | cons step ops ih =>
    obtain ⟨self, op⟩ := step
    obtain ⟨r, hr, hrest⟩ := runViews_cons.mp hrun
    rw [ih (fun step hstep => hops step (by simp [hstep])) hrest]
    exact (metadata_apply (hops (self, op) (by simp)).1 hr).1

end Necessity

theorem perChannel_of_set {t₀ : TensorImpl} {scales : List ℚ} {zeroPoints : List Int} {axis : Int}
    (h : t₀.setPerChannelQuantizationParams scales zeroPoints axis = .ok t) :
    isQuantized t.dtype = true ∧ t.PerChannel scales zeroPoints := by
  simp only [TensorImpl.setPerChannelQuantizationParams, bind_eq_ok, throwIf_eq_ok,
    pure_eq_ok, not_not] at h
  obtain ⟨-, hq, -, -, -, hrange, -, hsize, rfl⟩ := h
  simp only [TensorImpl.ndim] at hrange
  exact ⟨by simpa using hq, ⟨rfl, rfl, by simp only; omega, by simp only; omega, hsize.symm⟩⟩

/-- Both dequantizations return. The dequantized view has the shape of the
view, and agrees element by element with the view of the dequantized tensor,
which exists whenever it has elements. -/
def DequantizeCommutes (mem : Memory) (t v : TensorImpl) (ops : List (TensorId × ViewOp)) :
    Prop :=
  ∀ (self self' : TensorId) (fresh fresh' : Nat), ∃ d r,
    t.dequantize mem self fresh = .ok d ∧ v.dequantize mem self' fresh' = .ok r ∧
    r.impl.shape = v.shape ∧
    ((∀ n ∈ v.shape, 0 < n) → ∃ d', runViews d.impl ops = .ok d') ∧
    ∀ d', runViews d.impl ops = .ok d' → d'.shape = v.shape ∧
      ∀ idx, Within idx v.shape → r.get idx = d.data (d'.addr idx)

/-- A chain of axis operations commutes with dequantization exactly when the
type has one value for each byte, the two float tensors can be allocated, and
no slice cuts the channel axis or wraps its size below zero. -/
theorem dequantizeCommutes_iff (mem : Memory) {t₀ t v : TensorImpl} {scales : List ℚ}
    {zeroPoints : List Int} {axis : Int} {ops : List (TensorId × ViewOp)}
    (hset : t₀.setPerChannelQuantizationParams scales zeroPoints axis = .ok t)
    (hwf : t.WellFormed) (hb : t.InBounds)
    (hops : ∀ step ∈ ops, step.2.IsAxisOp ∧ step.2.ArgsInInt64)
    (hrun : runViews t ops = .ok v) :
    DequantizeCommutes mem t v ops ↔ t.dtype ≠ .qint4x2 ∧ TensorImpl.FloatFits t.shape ∧
      TensorImpl.FloatFits v.shape ∧ KeepsChannelsThroughout t ops := by
  obtain ⟨hq, hchan⟩ := perChannel_of_set hset
  constructor
  · intro hcomm
    obtain ⟨d, r, hd, hr, -⟩ := hcomm 0 0 0 0
    obtain ⟨-, hpacked, hallocT, -⟩ := TensorImpl.dequantize_ok mem 0 0 hd
    obtain ⟨-, -, hallocV, hsize⟩ := TensorImpl.dequantize_ok mem 0 0 hr
    obtain ⟨-, hstridesT, hnumelT, hbytesT, -⟩ := TensorImpl.allocate_ok hallocT
    obtain ⟨hnn, hstridesV, hnumelV, hbytesV, -⟩ := TensorImpl.allocate_ok hallocV
    refine ⟨hpacked, ⟨hstridesT, hnumelT, hbytesT⟩, ⟨hstridesV, hnumelV, hbytesV⟩, ?_⟩
    obtain ⟨haxis, hle, hkeep⟩ := keeps_of_runViews ops hops hwf (by simp [hchan.scales_eq])
      hchan.axis_nonneg hchan.axis_lt hrun hnn
    apply hkeep
    have hsize' := hsize scales ((qScales_runViews ops hops hrun).trans hchan.scales_eq)
    have hnorm : normalizeDim v.qAxis v.ndim = v.qAxis := if_neg (by omega)
    have hnonneg : 0 ≤ v.shape.getD v.qAxis.toNat 0 := by
      by_cases hlt : v.qAxis.toNat < v.shape.length
      · rw [getD_eq_getElem _ _ hlt]
        exact hnn _ (getElem_mem hlt)
      · rw [getD_eq_default _ _ (by omega)]
    have hmax := (hwf.getD hchan.axis_lt).2
    rw [hnorm, TensorImpl.asSizeT,
      Int.emod_eq_of_lt hnonneg (by simp only [int64Max] at hmax; omega)] at hsize'
    rw [hsize', hchan.size_eq]
  · rintro ⟨hpacked, hfitT, hfitV, hkeep⟩ self self' fresh fresh'
    obtain ⟨f, htrack, hother⟩ := tracks_runViews ops hops hwf hb hchan hkeep hrun
    obtain ⟨d, hd, hallocT, hgetT⟩ :=
      t.dequantize_returns mem self fresh hwf hb hq hpacked hfitT hchan
    obtain ⟨r, hr, hallocV, hgetV⟩ := v.dequantize_returns mem self' fresh' htrack.wellFormed
      htrack.inBounds (by rwa [htrack.dtype_eq]) (by rwa [htrack.dtype_eq]) hfitV htrack.perChannel
    have hshapeT : d.impl.shape = t.shape := (TensorImpl.allocate_ok hallocT).2.2.2.2.1
    obtain ⟨hviews, hexists⟩ := hother d.impl (TensorImpl.wellFormed_allocate hwf.size_le hallocT)
      (TensorImpl.inBounds_allocate hallocT) hshapeT
      (TensorImpl.allocate_ok hallocT).2.2.2.2.2.2.2.2.1
    refine ⟨d, r, hd, hr, (TensorImpl.allocate_ok hallocV).2.2.2.2.1, hexists, ?_⟩
    intro d' hd'
    obtain ⟨hshape, hre⟩ := hviews d' hd'
    refine ⟨hshape, ?_⟩
    intro idx hidx
    have hfidx := htrack.reindexes.within idx hidx
    calc
      r.get idx = v.channelValue mem scales zeroPoints idx := hgetV idx hidx
      _ = t.channelValue mem scales zeroPoints (f idx) := by
        simp only [TensorImpl.channelValue, htrack.dtype_eq, htrack.storage_eq,
          htrack.reindexes.addr_eq idx hidx, htrack.index_eq idx hidx]
      _ = d.get (f idx) := (hgetT (f idx) hfidx).symm
      _ = d.data (d'.addr idx) := by
        rw [FloatTensor.get, hre.addr_eq idx (hshape ▸ hidx)]

/-- A `2 × 2` matrix of signed bytes, one scale for each row. -/
def byteMatrix : TensorImpl where
  storage := .ofBytes 0 4
  shape := [2, 2]
  strides := [2, 1]
  dtype := .qint8
  qScales := some [1 / 2, 2]
  qZeroPoints := some [0, 1]
  qAxis := 0

theorem byteMatrix_set : { byteMatrix with
      qScales := none, qZeroPoints := none, qAxis := -1 }.setPerChannelQuantizationParams
    [1 / 2, 2] [0, 1] 0 = .ok byteMatrix := rfl

theorem byteMatrix_wellFormed : byteMatrix.WellFormed := ⟨rfl, by decide, by decide⟩

theorem byteMatrix_inBounds : byteMatrix.InBounds := by
  intro idx hidx
  have hb := dot_rowMajor_bounds hidx
  have hsize : byteMatrix.storageElements = 4 := rfl
  rw [hsize]
  simpa [byteMatrix, TensorImpl.addr, rowMajor] using hb

/-- Columns first, then the first row position of every column. -/
theorem dequantizeCommutes_transposed : ∃ v,
    runViews byteMatrix [(0, .transpose 0 1), (1, .slice 0 0 1 1)] = .ok v ∧
      DequantizeCommutes (fun _ _ => 3) byteMatrix v [(0, .transpose 0 1), (1, .slice 0 0 1 1)] := by
  refine ⟨_, rfl, ?_⟩
  apply (dequantizeCommutes_iff _ byteMatrix_set byteMatrix_wellFormed byteMatrix_inBounds _ rfl).mpr
  · refine ⟨by decide, ⟨rfl, rfl, by decide⟩, ⟨rfl, rfl, by decide⟩, trivial, ?_⟩
    intro r hr
    obtain rfl := Except.ok.inj hr
    refine ⟨⟨Or.inl (by decide), fun heq => absurd heq (by decide)⟩, fun _ _ => trivial⟩
  · intro step hstep
    simp only [mem_cons, not_mem_nil, or_false] at hstep
    rcases hstep with rfl | rfl
    · exact ⟨trivial, by decide, by decide⟩
    · exact ⟨trivial, by decide, by decide, by decide, by decide⟩

/-- Cutting the channel axis to one row leaves two scales, and the view no
longer dequantizes. -/
theorem not_dequantizeCommutes_slice :
    ¬ ∀ (mem : Memory) (t₀ t v : TensorImpl) (scales : List ℚ) (zeroPoints : List Int)
      (axis : Int) (ops : List (TensorId × ViewOp)),
      t₀.setPerChannelQuantizationParams scales zeroPoints axis = .ok t → t.WellFormed →
      t.InBounds → (∀ step ∈ ops, step.2.IsAxisOp ∧ step.2.ArgsInInt64) →
      runViews t ops = .ok v → DequantizeCommutes mem t v ops := by
  intro hall
  have hcomm := hall (fun _ _ => 0) _ byteMatrix _ _ _ _ [(0, .slice 0 0 1 1)] byteMatrix_set
    byteMatrix_wellFormed byteMatrix_inBounds (by
      simp only [mem_singleton, forall_eq]
      exact ⟨trivial, by decide, by decide, by decide, by decide⟩) rfl
  obtain ⟨d, r, -, hr, -⟩ := hcomm 0 0 0 0
  obtain ⟨-, -, -, hsize⟩ := TensorImpl.dequantize_ok _ _ _ hr
  exact absurd (hsize [1 / 2, 2] rfl) (by decide)

end Tenzor
