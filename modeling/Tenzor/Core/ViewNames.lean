import Tenzor.Core.ViewIndex

/-!
# Dimension names through views

Every view starts from a copy of the parent that carries its names along.
`squeeze` and `unsqueeze` then remove or insert the name of the axis they
touch; the other operations leave the list as it is, also where they move
axes or change how many there are. This file says which axis of the parent
each axis of a view is, and for each operation when the names still match.
-/

namespace Tenzor

open Strided Throwing List

/-- The axes a `squeeze` of everything keeps. -/
def nonSingletonAxes (shape : List Int) : List Nat := dropOnes shape (List.range shape.length)

/-- Two axes are one axis of the elements: more or fewer than one index, the
same number of them and the same step between neighbours. -/
def SameAxis (shape strides shape' strides' : List Int) (k a : Nat) : Prop :=
  shape.getD a 0 ≠ 1 ∧ shape'.getD k 0 = shape.getD a 0 ∧ strides'.getD k 0 = strides.getD a 0

namespace ViewOp

/-- Axis `k` of the result `t'` is axis `a` of the parent `t`. The operations
that state a new geometry keep an axis when they repeat its size and stride. -/
def AxisFrom (t t' : TensorImpl) (k a : Nat) : ViewOp → Prop
  | .view _ | .asStrided _ _ _ => SameAxis t.shape t.strides t'.shape t'.strides k a
  | .transpose dim0 dim1 =>
    let i := (normalizeDim dim0 t.ndim).toNat
    let j := (normalizeDim dim1 t.ndim).toNat
    a = if k = j then i else if k = i then j else k
  | .permute dims => a = (normalizeDim (dims.getD k 0) t.ndim).toNat
  | .squeeze (some dim) =>
    let d := (normalizeDim dim t.ndim).toNat
    a = if t.shape.getD d 0 ≠ 1 ∨ k < d then k else k + 1
  | .squeeze none => (nonSingletonAxes t.shape).getD k 0 = a
  | .unsqueeze dim =>
    let d := (normalizeDim dim (t.ndim + 1)).toNat
    k < d ∧ a = k ∨ d < k ∧ a = k - 1
  | .index _ => a = k + 1
  | .slice _ _ _ _ | .unfold _ _ _ | .detach | .intRepr => a = k

/-- Axis `k` of the result is new. -/
def Inserts (t : TensorImpl) (k : Nat) : ViewOp → Prop
  | .unsqueeze dim => k = (normalizeDim dim (t.ndim + 1)).toNat
  | _ => False

/-- The result has no names, or one for each axis: the parent's name where the
axis is the parent's, the wildcard where it is new. -/
def NamesKept (t t' : TensorImpl) (names : List Dimname) (op : ViewOp) : Prop :=
  t'.names = none ∨ ∃ names', t'.names = some names' ∧ names'.length = t'.shape.length ∧
    (∀ k < t'.shape.length, ∀ a < t.shape.length, op.AxisFrom t t' k a →
      names'.getD k none = names.getD a none) ∧
    ∀ k < t'.shape.length, op.Inserts t k → names'.getD k none = none

/-- No axis that reappears elsewhere meets another name there. -/
def RepeatedAxesAgree (t : TensorImpl) (names : List Dimname) (size stride : List Int) : Prop :=
  ∀ k < size.length, ∀ a < t.shape.length, SameAxis t.shape t.strides size stride k a →
    names.getD k none = names.getD a none

/-- When carrying the list along unchanged, or the adjustment `squeeze` and
`unsqueeze` make, is right. -/
def NamesFit (t : TensorImpl) (names : List Dimname) : ViewOp → Prop
  | .view newShape => newShape.length = t.shape.length ∧
      ∀ shape, TensorImpl.viewShape t.shape newShape = .ok shape →
        RepeatedAxesAgree t names shape (rowMajor shape)
  | .transpose dim0 dim1 =>
    names.getD (normalizeDim dim0 t.ndim).toNat none =
      names.getD (normalizeDim dim1 t.ndim).toNat none
  | .permute dims => ∀ k < t.shape.length,
      names.getD k none = names.getD (normalizeDim (dims.getD k 0) t.ndim).toNat none
  | .asStrided size stride _ =>
    size.length = t.shape.length ∧ RepeatedAxesAgree t names size stride
  | .unfold _ _ _ => False
  | .squeeze _ | .unsqueeze _ | .slice _ _ _ _ | .index _ | .detach | .intRepr => True

end ViewOp

namespace TensorImpl

variable {self : TensorId} {t t' : TensorImpl} {names : List Dimname} {op : ViewOp}

/-- An operation that leaves the list alone keeps the names exactly when the
rank is unchanged and each axis meets its own name at its new position. -/
theorem namesKept_of_unchanged (hnames : t'.names = some names) (hins : ∀ k, ¬ op.Inserts t k) :
    op.NamesKept t t' names ↔ names.length = t'.shape.length ∧
      ∀ k < t'.shape.length, ∀ a < t.shape.length, op.AxisFrom t t' k a →
        names.getD k none = names.getD a none := by
  constructor
  · rintro (hnone | ⟨names', hsome, hlen, hfrom, -⟩)
    · simp [hnames] at hnone
    · obtain rfl : names = names' := by simpa [hnames] using hsome
      exact ⟨hlen, hfrom⟩
  · rintro ⟨hlen, hfrom⟩
    exact .inr ⟨names, hnames, hlen, hfrom, fun k _ hk => absurd hk (hins k)⟩

theorem viewShape_length {shape newShape shape' : List Int}
    (h : viewShape shape newShape = .ok shape') : shape'.length = newShape.length := by
  simp only [viewShape, bind_eq_ok] at h
  obtain ⟨scan, -, h⟩ := h
  cases hinfer : scan.inferDim with
  | none =>
    simp only [hinfer, bind_eq_ok, throwIf_eq_ok, pure_eq_ok] at h
    obtain ⟨count, -, -, -, rfl⟩ := h
    rfl
  | some d =>
    simp only [hinfer, bind_eq_ok, throwIf_eq_ok, pure_eq_ok] at h
    obtain ⟨-, -, count, -, -, -, rfl⟩ := h
    simp

section Named

variable (hnames : t.names = some names) (hlen : names.length = t.shape.length) {dim step : Int}
  {r : ViewResult}

include hnames hlen

theorem namesKept_view {newShape : List Int} (h : t.view self newShape = .ok t') :
    (ViewOp.view newShape).NamesKept t t' names ↔ (ViewOp.view newShape).NamesFit t names := by
  obtain ⟨-, -, shape, hshape, rfl⟩ := view_ok h
  refine Iff.trans (namesKept_of_unchanged hnames fun k => id) ?_
  rw [hlen, ViewOp.NamesFit, ← viewShape_length hshape, hshape, eq_comm]
  simp only [Except.ok.injEq, forall_eq', ViewOp.RepeatedAxesAgree, ViewOp.AxisFrom]

theorem namesKept_transpose {dim0 dim1 : Int} (h : t.transpose self dim0 dim1 = .ok t') :
    (ViewOp.transpose dim0 dim1).NamesKept t t' names ↔
      (ViewOp.transpose dim0 dim1).NamesFit t names := by
  obtain ⟨i, j, hi, hj, hd0, hd1, rfl⟩ := transpose_ok h
  refine Iff.trans (namesKept_of_unchanged hnames fun k => id) ?_
  rw [ViewOp.NamesFit]
  simp only [ViewOp.AxisFrom, hd0, hd1, Int.toNat_natCast, swapAt_length]
  constructor
  · rintro ⟨-, hfrom⟩
    have hat := hfrom i hi (if i = j then i else j) (by split_ifs <;> omega) (by simp)
    by_cases hij : i = j
    · rw [hij]
    · rwa [if_neg hij] at hat
  · intro hsame
    refine ⟨hlen, ?_⟩
    rintro k - a - rfl
    by_cases hkj : k = j
    · rw [if_pos hkj, hkj, hsame]
    · rw [if_neg hkj]
      by_cases hki : k = i
      · rw [if_pos hki, hki, hsame]
      · rw [if_neg hki]

theorem namesKept_permute {dims : List Int} (h : t.permute self dims = .ok t') :
    (ViewOp.permute dims).NamesKept t t' names ↔ (ViewOp.permute dims).NamesFit t names := by
  obtain ⟨pos, hperm, hdims, rfl⟩ := permute_ok h
  have hposlen : pos.length = t.shape.length := by simpa using hperm.length_eq
  have hdimslen : dims.length = pos.length := by simpa using congrArg List.length hdims
  -- The normalized dimension at `k` is a position below the rank.
  have hnorm : ∀ k < t.shape.length, (normalizeDim (dims.getD k 0) t.ndim).toNat < t.shape.length := by
    intro k hk
    have hget : normalizeDim (dims.getD k 0) t.ndim = (pos.getD k 0 : Int) := by
      have hk' := congrArg (fun l => l.getD k 0) hdims
      rw [getD_eq_getElem _ _ (by simp; omega), getD_eq_getElem _ _ (by simp; omega)] at hk'
      rw [getD_eq_getElem _ _ (by omega), getD_eq_getElem _ _ (by omega)]
      simpa using hk'
    rw [hget, getD_eq_getElem _ _ (by omega)]
    exact mem_range.mp (hperm.mem_iff.mp (getElem_mem _))
  refine Iff.trans (namesKept_of_unchanged hnames fun k => id) ?_
  simp only [ViewOp.AxisFrom, gather_length, hposlen]
  constructor
  · rintro ⟨-, hfrom⟩ k hk
    exact hfrom k hk _ (hnorm k hk) rfl
  · intro hsame
    refine ⟨hlen, ?_⟩
    rintro k hk a - rfl
    exact hsame k hk

theorem namesKept_squeezeDim (h : t.squeezeDim self dim = .ok r) :
    (ViewOp.squeeze (some dim)).NamesKept t (r.impl t) names := by
  obtain ⟨d, hd, hdim, ⟨hne, rfl⟩ | ⟨hone, -, rfl⟩⟩ := squeezeDim_ok h
  · refine Or.inr ⟨names, hnames, hlen, ?_, fun k _ hk => absurd hk id⟩
    intro k _ a _ hfrom
    simp only [ViewOp.AxisFrom, hdim, Int.toNat_natCast, if_pos (Or.inl hne)] at hfrom
    rw [hfrom]
  · refine Or.inr ⟨names.eraseIdx d, ?_, ?_, ?_, fun k _ hk => absurd hk id⟩
    · simp [ViewResult.impl, hnames, hlen, hd]
    · simp [ViewResult.impl, length_eraseIdx, hlen]
    · intro k _ a _ hfrom
      simp only [ViewOp.AxisFrom, hdim, Int.toNat_natCast, hone, ne_eq, not_true_eq_false,
        false_or] at hfrom
      rw [hfrom, List.getD, getElem?_eraseIdx]
      split_ifs <;> rfl

theorem namesKept_squeezeAll (h : t.squeezeAll self = .ok r) :
    (ViewOp.squeeze none).NamesKept t (r.impl t) names := by
  obtain ⟨-, rfl⟩ := squeezeAll_ok h
  refine .inr ⟨dropOnes t.shape names, ?_, ?_, ?_, fun k _ hk => absurd hk id⟩
  · simp [ViewResult.impl, hnames, hlen]
  · simp only [ViewResult.impl]
    rw [dropOnes_length hlen, dropOnes_length rfl]
  · intro k hk a _ hfrom
    have hk' : k < (nonSingletonAxes t.shape).length := by
      simp only [ViewResult.impl] at hk
      rw [nonSingletonAxes, dropOnes_length (by simp)]
      rwa [dropOnes_length rfl] at hk
    have hmap : names = (List.range t.shape.length).map fun a => names.getD a none := by
      apply ext_getElem
      · simp [hlen]
      · intro i hi _
        rw [getElem_map, getElem_range, getD_eq_getElem _ _ hi]
    have hdrop : dropOnes t.shape names =
        (nonSingletonAxes t.shape).map fun a => names.getD a none := by
      conv_lhs => rw [hmap]
      exact dropOnes_map _ _ _
    rw [hdrop, getD_eq_getElem _ _ (by simpa using hk'), getElem_map, ← hfrom,
      getD_eq_getElem _ _ hk']

theorem namesKept_unsqueeze (h : t.unsqueeze self dim = .ok t') :
    (ViewOp.unsqueeze dim).NamesKept t t' names := by
  obtain ⟨d, contiguous, hd, hdim, -, rfl⟩ := unsqueeze_ok h
  refine .inr ⟨names.insertIdx d none, ?_, ?_, ?_, ?_⟩
  · simp [hnames, hlen]
  · simp [length_insertIdx, hlen]
  · intro k _ a _ hfrom
    simp only [ViewOp.AxisFrom, hdim, Int.toNat_natCast] at hfrom
    rcases hfrom with ⟨hlt, rfl⟩ | ⟨hgt, rfl⟩
    · rw [List.getD, List.getD, getElem?_insertIdx_of_lt hlt]
    · rw [List.getD, List.getD, getElem?_insertIdx_of_gt hgt]
  · intro k _ hk
    obtain rfl : k = d := by simpa [ViewOp.Inserts, hdim] using hk
    rw [List.getD, getElem?_insertIdx_self, if_pos (by omega)]
    rfl

theorem namesKept_slice {start stop : Int} (h : t.slice self dim start stop step = .ok t') :
    (ViewOp.slice dim start stop step).NamesKept t t' names := by
  obtain ⟨d, first, last, -, -, -, -, -, -, -, -, rfl⟩ := slice_ok h
  refine Iff.mpr (namesKept_of_unchanged hnames fun k => id) ⟨by simpa using hlen, ?_⟩
  rintro k - a - rfl
  rfl

theorem namesKept_index {idx : Int} (h : t.index self idx = .ok r) :
    (ViewOp.index idx).NamesKept t (r.impl t) names := by
  obtain ⟨row, i, s, hrank, -, hi, -, hrow, hs, rfl⟩ := index_ok h
  have hshape := index_row hi hrow
  obtain ⟨d, first, last, -, -, -, -, -, -, -, -, hrowEq⟩ := slice_ok hrow
  have hrowNames : row.names = some names := by rw [hrowEq]; exact hnames
  have hrowLen : names.length = row.shape.length := by simpa [hshape] using hlen
  have hone : row.shape.getD 0 0 = 1 := by
    rw [hshape, getD_set _ _ _ _ _ hrank, if_pos rfl]
  -- The row has one index on its first axis, so the squeeze drops that name.
  rcases namesKept_squeezeDim hrowNames hrowLen hs with hnone | ⟨names', hsome, hlen', hfrom, -⟩
  · exact .inl hnone
  · refine .inr ⟨names', hsome, hlen', ?_, fun k _ hk => absurd hk id⟩
    rintro k hk a ha rfl
    apply hfrom k hk (k + 1) (by simpa [hshape] using ha)
    have hzero : normalizeDim 0 row.ndim = 0 := rfl
    simp only [ViewOp.AxisFrom, hzero, Int.toNat_zero, hone]
    simp

theorem namesKept_asStrided {size stride : List Int} {storageOffset : Option Int}
    (h : t.asStrided size stride storageOffset = .ok t') :
    (ViewOp.asStrided size stride storageOffset).NamesKept t t' names ↔
      (ViewOp.asStrided size stride storageOffset).NamesFit t names := by
  obtain ⟨low, high, empty, -, -, -, -, rfl⟩ := asStrided_ok h
  refine Iff.trans (namesKept_of_unchanged hnames fun k => id) ?_
  rw [hlen, ViewOp.NamesFit, eq_comm]
  simp only [ViewOp.RepeatedAxesAgree, ViewOp.AxisFrom]

theorem not_namesKept_unfold {size : Int} (h : t.unfold dim size step = .ok t') :
    ¬ (ViewOp.unfold dim size step).NamesKept t t' names := by
  obtain ⟨d, -, -, -, -, -, h⟩ := unfold_ok h
  obtain ⟨low, high, empty, -, -, -, -, rfl⟩ := asStrided_ok h
  intro hkept
  obtain ⟨hrank, -⟩ := Iff.mp (namesKept_of_unchanged (by exact hnames) fun k => id) hkept
  simp at hrank
  omega

end Named

end TensorImpl

/-- For every view of a tensor with one name for each axis, exactly when the
names of the result are right. -/
theorem namesKept_iff {self : TensorId} {t : TensorImpl} {names : List Dimname} {op : ViewOp}
    {r : ViewResult} (hnames : t.names = some names) (hlen : names.length = t.shape.length)
    (h : op.apply self t = .ok r) : op.NamesKept t (r.impl t) names ↔ op.NamesFit t names := by
  cases op <;> simp only [ViewOp.apply, TensorImpl.squeeze, map_eq_ok] at h
  case view =>
    obtain ⟨t', h, rfl⟩ := h
    exact TensorImpl.namesKept_view hnames hlen h
  case transpose =>
    obtain ⟨t', h, rfl⟩ := h
    exact TensorImpl.namesKept_transpose hnames hlen h
  case permute =>
    obtain ⟨t', h, rfl⟩ := h
    exact TensorImpl.namesKept_permute hnames hlen h
  case squeeze dim =>
    apply iff_of_true _ trivial
    cases dim with
    | none => exact TensorImpl.namesKept_squeezeAll hnames hlen h
    | some dim => exact TensorImpl.namesKept_squeezeDim hnames hlen h
  case unsqueeze =>
    obtain ⟨t', h, rfl⟩ := h
    exact iff_of_true (TensorImpl.namesKept_unsqueeze hnames hlen h) trivial
  case slice =>
    obtain ⟨t', h, rfl⟩ := h
    exact iff_of_true (TensorImpl.namesKept_slice hnames hlen h) trivial
  case index =>
    exact iff_of_true (TensorImpl.namesKept_index hnames hlen h) trivial
  case asStrided =>
    obtain ⟨t', h, rfl⟩ := h
    exact TensorImpl.namesKept_asStrided hnames hlen h
  case unfold =>
    obtain ⟨t', h, rfl⟩ := h
    exact iff_of_false (TensorImpl.not_namesKept_unfold hnames hlen h) id
  case detach =>
    obtain rfl : ViewResult.fresh (t.detach self) = r := by simpa using h
    apply iff_of_true _ trivial
    refine Iff.mpr (TensorImpl.namesKept_of_unchanged hnames fun k => id) ⟨hlen, ?_⟩
    rintro k - a - rfl
    rfl
  case intRepr =>
    obtain ⟨t', h, rfl⟩ := h
    obtain ⟨-, -, rfl⟩ := TensorImpl.intRepr_ok h
    exact iff_of_true (Or.inl rfl) trivial

/-- A `2 × 3` matrix with named rows and columns. -/
def namedMatrix : TensorImpl where
  storage := .ofBytes 0 24
  shape := [2, 3]
  strides := [3, 1]
  dtype := .float32
  names := some [some "rows", some "columns"]

theorem namesKept_iff_unsqueezed :
    ∃ r, (ViewOp.unsqueeze 1).apply 0 namedMatrix = .ok r ∧
      (ViewOp.unsqueeze 1).NamesKept namedMatrix (r.impl namedMatrix)
        [some "rows", some "columns"] :=
  ⟨_, rfl, (namesKept_iff rfl rfl rfl).mpr trivial⟩

/-- The transposed matrix still calls its first axis `rows`. -/
theorem not_namesKept_transpose :
    ¬ ∀ (self : TensorId) (t : TensorImpl) (names : List Dimname) (op : ViewOp) (r : ViewResult),
      t.names = some names → names.length = t.shape.length → op.apply self t = .ok r →
      op.NamesKept t (r.impl t) names := by
  intro hall
  have hkept := hall 0 namedMatrix _ (.transpose 0 1) _ rfl rfl rfl
  rcases hkept with hnone | ⟨names', hsome, -, hfrom, -⟩
  · cases hnone
  · obtain rfl : [some "rows", some "columns"] = names' := Option.some.inj hsome
    exact absurd (hfrom 0 (by decide) 1 (by decide) rfl) (by decide)

end Tenzor
