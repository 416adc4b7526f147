import Tenzor.Core.Views

/-!
# What a returned view is

One lemma for each view operation: when it returns, the guards it passed and
the `TensorImpl` it built. Axis arguments are given back as natural positions.
Every later result about views starts from these and never unfolds an
operation again.
-/

namespace Tenzor

open Wrap64 Strided Throwing List

namespace TensorImpl

variable {self : TensorId} {t t' : TensorImpl} {dim step : Int} {dims : List Int} {r : ViewResult}

/-- A dimension that passed the range test is a position below the rank. -/
theorem exists_axis {ndims : Int} (h : ¬ (dim < 0 ∨ ndims ≤ dim)) :
    ∃ d : Nat, dim = d ∧ (d : Int) < ndims := by
  refine ⟨dim.toNat, ?_, ?_⟩ <;> omega

/-- Both axes are positions, and their sizes, strides and quantization axis change places. -/
theorem transpose_ok {dim0 dim1 : Int} (h : t.transpose self dim0 dim1 = .ok t') :
    ∃ i j : Nat, i < t.shape.length ∧ j < t.shape.length ∧
      normalizeDim dim0 t.ndim = i ∧ normalizeDim dim1 t.ndim = j ∧
      t' = { t.copy with
        shape := swapAt t.shape i j 0
        strides := swapAt t.strides i j 0
        qAxis := if t.qScales.isSome then swapAxis t.qAxis i j else t.qAxis
        viewBase := t.baseFor self } := by
  simp only [transpose, bind_eq_ok, throwIf_eq_ok, pure_eq_ok] at h
  obtain ⟨-, hguard, rfl⟩ := h
  have hguard0 : ¬ (normalizeDim dim0 t.ndim < 0 ∨ t.ndim ≤ normalizeDim dim0 t.ndim) := by tauto
  have hguard1 : ¬ (normalizeDim dim1 t.ndim < 0 ∨ t.ndim ≤ normalizeDim dim1 t.ndim) := by tauto
  obtain ⟨i, hi, hilt⟩ := exists_axis hguard0
  obtain ⟨j, hj, hjlt⟩ := exists_axis hguard1
  refine ⟨i, j, by simpa [ndim] using hilt, by simpa [ndim] using hjlt, hi, hj, ?_⟩
  simp [hi, hj]

/-- The validated dimensions are a permutation of the positions. -/
theorem permute_dims_ok {n : Nat} {seen result : List Int}
    (h : dims.foldlM (permuteStep n) seen = .ok result) :
    result = seen ++ dims.map (normalizeDim · n) ∧
      (∀ d ∈ dims.map (normalizeDim · n), 0 ≤ d ∧ d < n) ∧
      (seen.Nodup → result.Nodup) := by
  induction dims generalizing seen with
  | nil =>
    obtain rfl : seen = result := by simpa using h
    simp
  | cons dim dims ih =>
    obtain ⟨next, hnext, hrest⟩ := foldlM_cons_eq_ok.mp h
    simp only [permuteStep, bind_eq_ok, throwIf_eq_ok, pure_eq_ok] at hnext
    obtain ⟨-, hrange, -, hdup, rfl⟩ := hnext
    obtain ⟨heq, hmem, hnodup⟩ := ih hrest
    refine ⟨by simp [heq], ?_, ?_⟩
    · intro d hd
      rcases mem_cons.mp hd with rfl | hd
      · dsimp only
        omega
      · exact hmem d hd
    · intro hs
      apply hnodup
      rw [nodup_append]
      refine ⟨hs, nodup_singleton _, ?_⟩
      intro a ha b hb
      obtain rfl : b = normalizeDim dim n := by simpa using hb
      exact fun heq => hdup (heq ▸ ha)

theorem map_ofNat_toNat {l : List Int} (h : ∀ d ∈ l, 0 ≤ d) :
    (l.map Int.toNat).map Int.ofNat = l := by
  rw [map_map]
  conv_rhs => rw [← map_id l]
  apply map_congr_left
  intro d hd
  have := h d hd
  simp only [id, Function.comp, Int.ofNat_eq_natCast]
  omega

/-- The dimensions are a permutation of the positions, and the axes follow it. -/
theorem permute_ok (h : t.permute self dims = .ok t') :
    ∃ pos : List Nat, pos.Perm (List.range t.shape.length) ∧
      dims.map (normalizeDim · t.ndim) = pos.map Int.ofNat ∧
      t' = { t.copy with
        shape := gather pos t.shape
        strides := gather pos t.strides
        qAxis := if t.qScales.isSome then permuteAxis (pos.map Int.ofNat) t.qAxis else t.qAxis
        viewBase := t.baseFor self } := by
  simp only [permute, bind_eq_ok, throwIf_eq_ok, pure_eq_ok] at h
  obtain ⟨-, hlen, result, hfold, rfl⟩ := h
  obtain ⟨heq, hmem, hnodup⟩ := permute_dims_ok (n := t.shape.length) hfold
  rw [nil_append] at heq
  rw [← heq] at hmem
  have hcast := map_ofNat_toNat fun d hd => (hmem d hd).1
  refine ⟨result.map Int.toNat, ?_, heq.symm.trans hcast.symm, ?_⟩
  · have hnd : (result.map Int.toNat).Nodup := by
      have h := hnodup nodup_nil
      rw [← hcast] at h
      exact h.of_map
    have hsub : result.map Int.toNat ⊆ List.range t.shape.length := by
      intro k hk
      obtain ⟨d, hd, rfl⟩ := mem_map.mp hk
      have := hmem d hd
      exact mem_range.mpr (by omega)
    apply (subperm_of_subset hnd hsub).perm_of_length_le
    have hl : (dims.length : Int) = t.ndim := not_not.mp hlen
    simp only [length_range, heq, length_map, ndim] at hl ⊢
    omega
  · rw [hcast]
    simp [gather, map_map, Function.comp_def]

/-- An axis of another size than one stays, and the tensor itself is returned. -/
theorem squeezeDim_ok (h : t.squeezeDim self dim = .ok r) :
    ∃ d : Nat, d < t.shape.length ∧ normalizeDim dim t.ndim = d ∧
      ((t.shape.getD d 0 ≠ 1 ∧ r = .same) ∨
        (t.shape.getD d 0 = 1 ∧ (t.qScales.isSome = true → (d : Int) ≠ t.qAxis) ∧
          r = .fresh { t.copy with
            shape := t.shape.eraseIdx d
            strides := t.strides.eraseIdx d
            names := t.names.map fun names => if d < names.length then names.eraseIdx d else names
            qAxis := if t.qScales.isSome ∧ (d : Int) < t.qAxis then t.qAxis - 1 else t.qAxis
            viewBase := t.baseFor self })) := by
  simp only [squeezeDim, bind_eq_ok, throwIf_eq_ok] at h
  obtain ⟨-, hguard, h⟩ := h
  obtain ⟨d, hd, hlt⟩ := exists_axis hguard
  refine ⟨d, by simpa [ndim] using hlt, hd, ?_⟩
  simp only [hd, Int.toNat_natCast] at h
  split at h
  · rename_i hne
    exact .inl ⟨hne, (pure_eq_ok.mp h).symm⟩
  · rename_i hone
    simp only [bind_eq_ok, throwIf_eq_ok, pure_eq_ok] at h
    obtain ⟨-, hq, rfl⟩ := h
    exact .inr ⟨not_not.mp hone, fun hs he => hq ⟨hs, he⟩, by simp⟩

/-- The axes of size one go. -/
theorem squeezeAll_ok (h : t.squeezeAll self = .ok r) :
    (t.qScales.isSome = true →
      0 ≤ t.qAxis ∧ t.qAxis < t.ndim ∧ t.shape.getD t.qAxis.toNat 0 ≠ 1) ∧
    r = .fresh { t.copy with
      shape := dropOnes t.shape t.shape
      strides := dropOnes t.shape t.strides
      names := t.names.map fun names =>
        if names.length = t.shape.length then dropOnes t.shape names else names
      qAxis := if t.qScales.isSome then
          ((t.shape.take t.qAxis.toNat).filter fun n => n ≠ 1).length
        else t.qAxis
      viewBase := t.baseFor self } := by
  simp only [squeezeAll, bind_eq_ok, throwIf_eq_ok, pure_eq_ok] at h
  obtain ⟨-, hguard, rfl⟩ := h
  refine ⟨?_, rfl⟩
  intro hs
  simp only [hs, true_and, not_or, not_lt, not_le] at hguard
  exact hguard

/-- An axis of size one comes in. -/
theorem unsqueeze_ok (h : t.unsqueeze self dim = .ok t') :
    ∃ (d : Nat) (contiguous : Bool), d ≤ t.shape.length ∧
      normalizeDim dim (t.ndim + 1) = d ∧ t.isContiguous = .ok contiguous ∧
      t' = { t.copy with
        shape := t.shape.insertIdx d 1
        strides := t.strides.insertIdx d (t.unsqueezeStride contiguous d)
        names := t.names.map fun names =>
          if names.length = t.shape.length then names.insertIdx d none else names
        qAxis := if t.qScales.isSome ∧ (d : Int) ≤ t.qAxis then t.qAxis + 1 else t.qAxis
        viewBase := t.baseFor self } := by
  simp only [unsqueeze, bind_eq_ok, throwIf_eq_ok, pure_eq_ok] at h
  obtain ⟨-, hguard, contiguous, hcontiguous, rfl⟩ := h
  obtain ⟨d, hd, hlt⟩ := exists_axis hguard
  refine ⟨d, contiguous, ?_, hd, hcontiguous, ?_⟩
  · simp only [ndim] at hlt
    omega
  · simp only [hd, Int.toNat_natCast]

/-- The bounds lie in order inside the axis; the stride is stepped as a word. -/
theorem slice_ok {start stop : Int} (h : t.slice self dim start stop step = .ok t') :
    ∃ (d : Nat) (first last : Int), d < t.shape.length ∧ normalizeDim dim t.ndim = d ∧
      normalizeDim start (t.shape.getD d 0) = first ∧ normalizeDim stop (t.shape.getD d 0) = last ∧
      0 ≤ first ∧ first ≤ last ∧ last ≤ t.shape.getD d 0 ∧ 0 < step ∧
      t' = { t.copy with
        shape := t.shape.set d (sliceSize first last step)
        strides :=
          if step ≠ 1 then t.strides.set d (wrap64 (t.strides.getD d 0 * step)) else t.strides
        offset := t.offset + first * t.strides.getD d 0
        viewBase := t.baseFor self } := by
  simp only [slice, bind_eq_ok, throwIf_eq_ok, pure_eq_ok] at h
  obtain ⟨-, hdim, -, hstart, -, hstop, -, horder, -, hstep, disp, hdisp, offset, hoffset,
    -, -, -, -, rfl⟩ := h
  obtain ⟨d, hd, hlt⟩ := exists_axis hdim
  simp only [hd, Int.toNat_natCast] at *
  obtain ⟨-, rfl⟩ := checkedMul_eq_ok.mp hdisp
  obtain ⟨-, rfl⟩ := checkedAdd_eq_ok.mp hoffset
  refine ⟨d, _, _, by simpa [ndim] using hlt, rfl, rfl, rfl, ?_, ?_, ?_, ?_, rfl⟩ <;> omega

/-- A slice of one element along the first axis, without that axis. -/
theorem index_ok {idx : Int} (h : t.index self idx = .ok r) :
    ∃ (row : TensorImpl) (i : Int) (s : ViewResult), 0 < t.shape.length ∧
      normalizeDim idx (t.shape.getD 0 0) = i ∧ 0 ≤ i ∧ i < t.shape.getD 0 0 ∧
      t.slice self 0 i (i + 1) 1 = .ok row ∧
      row.squeezeDim self 0 = .ok s ∧ r = .fresh (s.impl row) := by
  simp only [index, bind_eq_ok, throwIf_eq_ok, pure_eq_ok] at h
  obtain ⟨-, hrank, -, hrange, row, hrow, s, hs, rfl⟩ := h
  refine ⟨row, _, s, ?_, rfl, ?_, ?_, hrow, hs, rfl⟩
  · simp only [ndim] at hrank
    omega
  all_goals omega

/-- The reach, as it is computed, lies in the storage. -/
theorem asStrided_ok {size stride : List Int} {storageOffset : Option Int}
    (h : t.asStrided size stride storageOffset = .ok t') :
    ∃ (low high : Int) (empty : Bool), stride.length = size.length ∧
      0 ≤ storageOffset.getD t.offset ∧
      asStridedReach 0 (storageOffset.getD t.offset) (storageOffset.getD t.offset) false
        (size.zip stride) = .ok (low, high, empty) ∧
      (empty = false → 0 ≤ low ∧ asSizeT high < t.storageElements) ∧
      t' = { t.copy with
        shape := size, strides := stride, offset := storageOffset.getD t.offset
        version := (t.version + 3) % 18446744073709551616 } := by
  simp only [asStrided, bind_eq_ok, throwIf_eq_ok, pure_eq_ok] at h
  obtain ⟨-, hlen, -, hoff, ⟨low, high, empty⟩, hreach, -, hguard, rfl⟩ := h
  refine ⟨low, high, empty, by omega, by omega, hreach, ?_, rfl⟩
  intro he
  simp only [he, true_and, not_or, not_lt, not_le] at hguard
  exact hguard

/-- The windows become the size of the axis, and their elements an axis at the end. -/
theorem unfold_ok {size : Int} (h : t.unfold dim size step = .ok t') :
    ∃ d : Nat, d < t.shape.length ∧ normalizeDim dim t.ndim = d ∧
      0 < size ∧ size ≤ t.shape.getD d 0 ∧ 0 < step ∧
      t.asStrided (t.shape.set d ((t.shape.getD d 0 - size).tdiv step + 1) ++ [size])
        (t.strides.set d (wrap64 (t.strides.getD d 0 * step)) ++ [t.strides.getD d 0])
        (some t.offset) = .ok t' := by
  simp only [unfold, bind_eq_ok, throwIf_eq_ok] at h
  obtain ⟨-, hdim, -, hsize, -, hstep, h⟩ := h
  obtain ⟨d, hd, hlt⟩ := exists_axis hdim
  simp only [hd, Int.toNat_natCast] at h hsize
  exact ⟨d, by simpa [ndim] using hlt, hd, by omega, by omega, by omega, h⟩

/-- The tensor is contiguous and not quantized per channel. -/
theorem view_ok {newShape : List Int} (h : t.view self newShape = .ok t') :
    t.qScales.isSome = false ∧ t.strides = rowMajor t.shape ∧
    ∃ shape, viewShape t.shape newShape = .ok shape ∧
      t' = { t.copy with shape := shape, strides := rowMajor shape, viewBase := t.baseFor self } := by
  simp only [view, bind_eq_ok, throwIf_eq_ok, pure_eq_ok] at h
  obtain ⟨-, hq, contiguous, hc, -, htrue, shape, hshape, strides, hstrides, rfl⟩ := h
  obtain rfl := computeStrides_eq_rowMajor hstrides
  rw [Bool.not_eq_false] at htrue
  rw [htrue] at hc
  exact ⟨by simpa using hq, isContiguous_eq_true hc, shape, hshape, rfl⟩

/-- The bytes of a quantized tensor as integers of the same layout. -/
theorem intRepr_ok (h : t.intRepr self = .ok t') :
    isQuantized t.dtype = true ∧ t.dtype ≠ .qint4x2 ∧
      t' = { storage := t.storage, shape := t.shape, strides := t.strides, offset := t.offset
             dtype := if t.dtype = .quint8 then .uint8 else .int8
             device := t.device, viewBase := t.baseFor self } := by
  simp only [intRepr, bind_eq_ok, throwIf_eq_ok, pure_eq_ok] at h
  obtain ⟨-, hq, -, hpacked, rfl⟩ := h
  exact ⟨by simpa using hq, hpacked, rfl⟩

end TensorImpl

end Tenzor
