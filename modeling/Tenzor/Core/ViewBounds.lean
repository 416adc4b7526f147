import Tenzor.Core.ViewIndex

/-!
# View chains stay in bounds

Every view that is a reindexing inherits the bounds of its parent. Two
operations compute addresses on their own: `view`, which multiplies the
requested sizes, and `as_strided`, which adds up the reach of its axes. Both
do so in unchecked 64-bit arithmetic, and so does the size of a `slice`.
A chain whose steps stay clear of a wrap-around there is in bounds throughout.
-/

namespace Tenzor

open Wrap64 Strided Throwing List

/-- Every argument is a signed 64-bit word. -/
def ViewOp.ArgsInInt64 : ViewOp → Prop
  | .view newShape => ∀ n ∈ newShape, InInt64 n
  | .transpose dim0 dim1 => InInt64 dim0 ∧ InInt64 dim1
  | .permute dims => ∀ d ∈ dims, InInt64 d
  | .squeeze dim => ∀ d ∈ dim, InInt64 d
  | .unsqueeze dim => InInt64 dim
  | .slice dim start stop step => InInt64 dim ∧ InInt64 start ∧ InInt64 stop ∧ InInt64 step
  | .index idx => InInt64 idx
  | .asStrided size stride storageOffset =>
    (∀ n ∈ size, InInt64 n) ∧ (∀ s ∈ stride, InInt64 s) ∧ ∀ o ∈ storageOffset, InInt64 o
  | .unfold dim size step => InInt64 dim ∧ InInt64 size ∧ InInt64 step
  | .detach => True
  | .intRepr => True

/-- The reach of a strided layout, axis by axis and at both ends, fits a word. -/
def ReachFits (offset : Int) (size stride : List Int) : Prop :=
  (∀ axis ∈ size.zip stride, InInt64 ((axis.1 - 1) * axis.2)) ∧
    InInt64 (reach (offset, offset) (size.zip stride)).1 ∧
    InInt64 (reach (offset, offset) (size.zip stride)).2

/-- The sizes a view request states, leaving out the one to infer. -/
def knownSizes (newShape : List Int) : List Int := newShape.filter fun n => n ≠ -1

/-- The exact value of every unchecked computation that decides the geometry
of the result is a word. -/
def ViewOp.NoWrap (t : TensorImpl) : ViewOp → Prop
  | .view newShape => InInt64 (knownSizes newShape).prod
  | .slice dim start stop step =>
    let n := t.shape.getD (normalizeDim dim t.ndim).toNat 0
    InInt64 (normalizeDim stop n - normalizeDim start n + step - 1)
  | .asStrided size stride storageOffset =>
    0 ∈ size ∨ ReachFits (storageOffset.getD t.offset) size stride
  | _ => True

namespace TensorImpl

variable {self : TensorId} {t t' : TensorImpl} {newShape size stride : List Int} {n low high : Int}
  {scan : ViewScan} {d : Nat} {axes : List (Int × Int)} {r : Int × Int × Bool}
  {storageOffset : Option Int}

/-- What a returned scan of the requested shape has found. -/
structure ScanFound (newShape : List Int) (scan : ViewScan) : Prop where
  total_eq : scan.total = wrap64 (knownSizes newShape).prod
  nonneg : ∀ n ∈ knownSizes newShape, 0 ≤ n
  none_iff : scan.inferDim = none → -1 ∉ newShape
  some_iff : ∀ d, scan.inferDim = some d → ∃ pre post, newShape = pre ++ -1 :: post ∧
    d = pre.length ∧ -1 ∉ pre ∧ -1 ∉ post

theorem scanFound_snoc {acc : ViewScan} (hacc : ScanFound newShape acc)
    (hpos : acc.position = newShape.length) (h : viewScanStep acc n = .ok scan) :
    ScanFound (newShape ++ [n]) scan ∧ scan.position = (newShape ++ [n]).length := by
  unfold viewScanStep at h
  by_cases hn : n = -1
  · rw [if_pos hn] at h
    cases hinfer : acc.inferDim with
    | some d => simp [hinfer] at h
    | none =>
      simp only [hinfer, Except.ok.injEq] at h
      subst h hn
      refine ⟨⟨?_, ?_, by simp, ?_⟩, by simp [hpos]⟩
      · simpa [knownSizes] using hacc.total_eq
      · simpa [knownSizes] using hacc.nonneg
      · intro d hd
        obtain rfl : acc.position = d := by simpa using hd
        exact ⟨newShape, [], rfl, hpos, hacc.none_iff hinfer, by simp⟩
  · rw [if_neg hn] at h
    by_cases hneg : n < 0
    · simp [hneg] at h
    · rw [if_neg hneg, Except.ok.injEq] at h
      subst h
      have hknown : knownSizes (newShape ++ [n]) = knownSizes newShape ++ [n] := by
        simp [knownSizes, hn]
      refine ⟨⟨?_, ?_, ?_, ?_⟩, by simp [hpos]⟩
      · rw [hknown, prod_append, prod_singleton, hacc.total_eq, wrap64_mul_wrap64]
      · intro m hm
        rw [hknown, mem_append, mem_singleton] at hm
        rcases hm with hm | rfl
        · exact hacc.nonneg m hm
        · omega
      · intro hnone
        simpa [Ne.symm hn] using hacc.none_iff hnone
      · intro d hd
        obtain ⟨pre, post, rfl, rfl, hpre, hpost⟩ := hacc.some_iff d hd
        exact ⟨pre, post ++ [n], by simp, rfl, hpre, by simpa [Ne.symm hn] using hpost⟩

theorem scanFound_of_ok (h : newShape.foldlM viewScanStep {} = .ok scan) :
    ScanFound newShape scan := by
  have key : ∀ (rest done : List Int) (acc : ViewScan), ScanFound done acc →
      acc.position = done.length → rest.foldlM viewScanStep acc = .ok scan →
      ScanFound (done ++ rest) scan := by
    intro rest
    induction rest with
    | nil =>
      intro done acc hacc _ h
      obtain rfl : acc = scan := by simpa using h
      simpa using hacc
    | cons n rest ih =>
      intro done acc hacc hpos h
      obtain ⟨next, hnext, hrest⟩ := foldlM_cons_eq_ok.mp h
      obtain ⟨hfound, hpos'⟩ := scanFound_snoc hacc hpos hnext
      simpa using ih (done ++ [n]) next hfound hpos' hrest
  refine key newShape [] {} ⟨by decide, by simp [knownSizes], by simp, by simp⟩ rfl h

theorem knownSizes_of_notMem {l : List Int} (h : -1 ∉ l) : knownSizes l = l := by
  apply filter_eq_self.mpr
  intro n hn
  have hne : n ≠ -1 := by
    rintro rfl
    exact h hn
  simpa using hne

/-- When the product of the known sizes is a word, the resolved shape has as
many elements as the parent. -/
theorem viewShape_ok {shape shape' : List Int} (hnn : ∀ n ∈ shape, 0 ≤ n)
    (hfit : InInt64 (knownSizes newShape).prod) (h : viewShape shape newShape = .ok shape') :
    shape'.prod = shape.prod ∧
      ∀ n ∈ shape', n ∈ newShape ∧ 0 ≤ n ∨ 0 ≤ n ∧ n ≤ int64Max := by
  simp only [viewShape, bind_eq_ok] at h
  obtain ⟨scan, hscan, h⟩ := h
  have hfound := scanFound_of_ok hscan
  have htotal : scan.total = (knownSizes newShape).prod := by
    rw [hfound.total_eq, wrap64_of_inInt64 hfit]
  cases hinfer : scan.inferDim with
  | none =>
    simp only [hinfer, bind_eq_ok, throwIf_eq_ok, pure_eq_ok, not_not] at h
    obtain ⟨count, hcount, -, heq, rfl⟩ := h
    have hknown := knownSizes_of_notMem (hfound.none_iff hinfer)
    refine ⟨?_, ?_⟩
    · rw [← numel_eq_prod hcount, ← heq, htotal, hknown]
    · intro n hn
      exact .inl ⟨hn, hfound.nonneg n (hknown.symm ▸ hn)⟩
  | some d =>
    simp only [hinfer, bind_eq_ok, throwIf_eq_ok, pure_eq_ok, not_not] at h
    obtain ⟨-, hne, count, hcount, -, hmod, rfl⟩ := h
    obtain ⟨pre, post, rfl, rfl, hpre, hpost⟩ := hfound.some_iff d hinfer
    have hknown : knownSizes (pre ++ -1 :: post) = pre ++ post := by
      calc
        knownSizes (pre ++ -1 :: post) = knownSizes pre ++ knownSizes post := by
          simp [knownSizes]
        _ = pre ++ post := by
          rw [knownSizes_of_notMem hpre, knownSizes_of_notMem hpost]
    have hset : (pre ++ -1 :: post).set pre.length (count.tdiv scan.total) =
        pre ++ count.tdiv scan.total :: post := by
      simp
    have hcountnn : 0 ≤ count := by
      rw [numel_eq_prod hcount]
      exact Strided.prod_nonneg hnn
    have htotalpos : 0 < scan.total := by
      have hge : 0 ≤ scan.total := htotal ▸ Strided.prod_nonneg hfound.nonneg
      omega
    rw [hset]
    refine ⟨?_, ?_⟩
    · calc
        (pre ++ count.tdiv scan.total :: post).prod
            = (pre ++ post).prod * count.tdiv scan.total := by
              simp only [prod_append, prod_cons]
              ring
        _ = scan.total * count.tdiv scan.total := by rw [htotal, hknown]
        _ = count := by
              have hdm := Int.mul_tdiv_add_tmod count scan.total
              rw [hmod, add_zero] at hdm
              exact hdm
        _ = shape.prod := numel_eq_prod hcount
    · intro n hn
      rcases mem_append.mp hn with hmem | hmem
      · exact .inl ⟨by simp [hmem], hfound.nonneg n (by rw [hknown]; simp [hmem])⟩
      · rcases mem_cons.mp hmem with rfl | hmem
        · right
          rw [Int.tdiv_eq_ediv_of_nonneg hcountnn]
          refine ⟨Int.ediv_nonneg hcountnn htotalpos.le, ?_⟩
          exact (Int.ediv_le_self _ hcountnn).trans (numel_le hcount)
        · exact .inl ⟨by simp [hmem], hfound.nonneg n (by rw [hknown]; simp [hmem])⟩

theorem wellFormed_view (hwf : t.WellFormed) (hargs : ∀ n ∈ newShape, InInt64 n)
    (hfit : InInt64 (knownSizes newShape).prod) (h : t.view self newShape = .ok t') :
    t'.WellFormed := by
  obtain ⟨-, -, shape, hshape, rfl⟩ := view_ok h
  obtain ⟨-, hmem⟩ := viewShape_ok hwf.nonneg hfit hshape
  apply hwf.of_mem (rowMajor_length shape)
  intro n hn
  rcases hmem n hn with ⟨hn, hnn⟩ | hn
  · exact .inr ⟨hnn, (hargs n hn).2⟩
  · exact .inr hn

theorem reindexes_view (hwf : t.WellFormed) (hfit : InInt64 (knownSizes newShape).prod)
    (h : t.view self newShape = .ok t') :
    Reindexes t t' fun idx => unravel t.shape (dot idx (rowMajor t'.shape)) := by
  obtain ⟨-, hstrides, shape, hshape, rfl⟩ := view_ok h
  obtain ⟨hprod, -⟩ := viewShape_ok hwf.nonneg hfit hshape
  constructor
  · intro idx hidx
    exact (reshape_spec hwf.nonneg hprod hidx).1
  · intro idx hidx
    simp only [addr, copy, hstrides]
    rw [(reshape_spec hwf.nonneg hprod hidx).2]

theorem slice_nonneg {dim start stop step : Int} (hwf : t.WellFormed)
    (hfit : (ViewOp.slice dim start stop step).NoWrap t)
    (h : t.slice self dim start stop step = .ok t') : ∀ n ∈ t'.shape, 0 ≤ n := by
  obtain ⟨d, first, last, -, hdim, rfl, rfl, hfirst, horder, -, hstep, rfl⟩ := slice_ok h
  simp only [ViewOp.NoWrap, hdim, Int.toNat_natCast] at hfit
  intro n hn
  rcases mem_or_eq_of_mem_set hn with hn | rfl
  · exact hwf.nonneg n hn
  · rw [sliceSize, wrap64_of_inInt64 hfit]
    exact Int.tdiv_nonneg (by omega) hstep.le

theorem asStridedReach_nonneg {empty : Bool} (h : asStridedReach d low high empty axes = .ok r) :
    (∀ axis ∈ axes, 0 ≤ axis.1) ∧ (r.2.2 = false → ∀ axis ∈ axes, axis.1 ≠ 0) ∧
      (r.2.2 = false → empty = false) := by
  induction axes generalizing d low high empty with
  | nil =>
    obtain rfl : (low, high, empty) = r := by simpa [asStridedReach] using h
    simp
  | cons axis axes ih =>
    obtain ⟨size, stride⟩ := axis
    rw [asStridedReach] at h
    by_cases hneg : size < 0
    · simp [hneg] at h
    rw [if_neg hneg] at h
    by_cases hzero : size = 0
    · rw [if_pos hzero] at h
      obtain ⟨hnn, -, hempty⟩ := ih h
      refine ⟨?_, fun hr => by simpa using hempty hr, fun hr => by simpa using hempty hr⟩
      intro axis haxis
      rcases mem_cons.mp haxis with rfl | haxis
      · exact hzero.ge
      · exact hnn axis haxis
    · have hrest : (∀ axis ∈ axes, 0 ≤ axis.1) ∧
          (r.2.2 = false → ∀ axis ∈ axes, axis.1 ≠ 0) ∧ (r.2.2 = false → empty = false) := by
        dsimp only at h
        split_ifs at h <;> exact ih h
      refine ⟨?_, ?_, hrest.2.2⟩
      · intro axis haxis
        rcases mem_cons.mp haxis with rfl | haxis
        · exact not_lt.mp hneg
        · exact hrest.1 axis haxis
      · intro hr axis haxis
        rcases mem_cons.mp haxis with rfl | haxis
        · exact hzero
        · exact hrest.2.1 hr axis haxis

theorem asStridedReach_nonempty (hne : ∀ axis ∈ axes, axis.1 ≠ 0)
    (h : asStridedReach d low high false axes = .ok r) : r.2.2 = false := by
  induction axes generalizing d low high with
  | nil =>
    obtain rfl : (low, high, false) = r := by simpa [asStridedReach] using h
    rfl
  | cons axis axes ih =>
    obtain ⟨size, stride⟩ := axis
    have hne0 : size ≠ 0 := hne (size, stride) (by simp)
    have hrest : ∀ axis ∈ axes, axis.1 ≠ 0 := fun axis haxis => hne axis (by simp [haxis])
    rw [asStridedReach] at h
    dsimp only at h
    split_ifs at h <;> exact ih hrest h

/-- Without a wrap the loop computes the exact reach of a non-empty layout. -/
theorem asStridedReach_eq_reach (hlow : InInt64 low) (hhigh : InInt64 high)
    (hextent : ∀ axis ∈ axes, InInt64 ((axis.1 - 1) * axis.2))
    (hends : InInt64 (reach (low, high) axes).1 ∧ InInt64 (reach (low, high) axes).2)
    (h : asStridedReach d low high false axes = .ok r) (hr : r.2.2 = false) :
    (r.1, r.2.1) = reach (low, high) axes := by
  induction axes generalizing d low high with
  | nil =>
    obtain rfl : (low, high, false) = r := by simpa [asStridedReach] using h
    rfl
  | cons axis axes ih =>
    obtain ⟨size, stride⟩ := axis
    obtain ⟨hnn, hne, -⟩ := asStridedReach_nonneg h
    have hnn0 : 0 ≤ size := hnn (size, stride) (by simp)
    have hne0 : size ≠ 0 := hne hr (size, stride) (by simp)
    rw [asStridedReach, if_neg (by omega), if_neg hne0] at h
    have hext : InInt64 ((size - 1) * stride) := hextent (size, stride) (by simp)
    have hextent' : ∀ axis ∈ axes, InInt64 ((axis.1 - 1) * axis.2) :=
      fun axis haxis => hextent axis (by simp [haxis])
    have hout := reach_outwards
      (low + min 0 ((size - 1) * stride), high + max 0 ((size - 1) * stride)) axes
    rw [reach_cons] at hends ⊢
    -- Each end lies between where it started and where it finally arrives.
    have hlow' : InInt64 (low + min 0 ((size - 1) * stride)) :=
      inInt64_of_between hends.1 hlow hout.1 (by omega)
    have hhigh' : InInt64 (high + max 0 ((size - 1) * stride)) :=
      inInt64_of_between hhigh hends.2 (by omega) hout.2
    rw [wrap64_of_inInt64 hext] at h
    by_cases hsign : 0 ≤ (size - 1) * stride
    · rw [min_eq_left hsign, max_eq_right hsign, add_zero] at *
      rw [if_pos hsign, wrap64_of_inInt64 hhigh'] at h
      exact ih hlow hhigh' hextent' hends h
    · have hle : (size - 1) * stride ≤ 0 := le_of_not_ge hsign
      rw [min_eq_right hle, max_eq_left hle, add_zero] at *
      rw [if_neg hsign, wrap64_of_inInt64 hlow'] at h
      exact ih hlow' hhigh hextent' hends h

theorem zip_fst_mem (hlen : stride.length = size.length) (hn : n ∈ size) :
    ∃ axis ∈ size.zip stride, axis.1 = n := by
  have hmap : (size.zip stride).map Prod.fst = size := map_fst_zip (by omega)
  rw [← hmap] at hn
  exact mem_map.mp hn

theorem wellFormed_asStrided (hargs : ∀ n ∈ size, InInt64 n)
    (h : t.asStrided size stride storageOffset = .ok t') : t'.WellFormed := by
  obtain ⟨low, high, empty, hlen, -, hreach, -, rfl⟩ := asStrided_ok h
  refine ⟨hlen, ?_, fun n hn => (hargs n hn).2⟩
  intro n hn
  obtain ⟨axis, haxis, rfl⟩ := zip_fst_mem hlen hn
  exact (asStridedReach_nonneg hreach).1 axis haxis

theorem inBounds_asStrided (hfit : 0 ∈ size ∨ ReachFits (storageOffset.getD t.offset) size stride)
    (h : t.asStrided size stride storageOffset = .ok t') : t'.InBounds := by
  obtain ⟨low, high, empty, hlen, hoff, hreach, hguard, rfl⟩ := asStrided_ok h
  intro idx hidx
  have hzero : 0 ∉ size := fun hmem => absurd (hidx.pos 0 hmem) (lt_irrefl 0)
  obtain ⟨hextent, hlowFit, hhighFit⟩ := hfit.resolve_left hzero
  have hempty : empty = false := by
    apply asStridedReach_nonempty _ hreach
    intro axis haxis hz
    exact hzero (hz ▸ (of_mem_zip haxis).1)
  have hout := reach_outwards
    (storageOffset.getD t.offset, storageOffset.getD t.offset) (size.zip stride)
  have hoffFit : InInt64 (storageOffset.getD t.offset) :=
    inInt64_of_between hlowFit hhighFit hout.1 hout.2
  have heq := asStridedReach_eq_reach hoffFit hoffFit hextent ⟨hlowFit, hhighFit⟩ hreach hempty
  have hspec := reach_spec hidx hlen
    (storageOffset.getD t.offset, storageOffset.getD t.offset) _ ⟨le_rfl, le_rfl⟩
  obtain ⟨hlow, hhigh⟩ := hguard hempty
  rw [← heq] at hspec hout hhighFit
  simp only [asSizeT, InInt64, int64Min, int64Max] at hhigh hhighFit hspec hout
  simp only [addr, copy, storageElements] at *
  omega

end TensorImpl

section Step

variable {self : TensorId} {t : TensorImpl} {op : ViewOp} {r : ViewResult}

/-- No view changes how many elements the storage holds. -/
theorem storageElements_apply (h : op.apply self t = .ok r) :
    (r.impl t).storageElements = t.storageElements := by
  cases op <;> simp only [ViewOp.apply, TensorImpl.squeeze, map_eq_ok] at h
  case view =>
    obtain ⟨t', h, rfl⟩ := h
    obtain ⟨-, -, shape, -, rfl⟩ := TensorImpl.view_ok h
    rfl
  case transpose =>
    obtain ⟨t', h, rfl⟩ := h
    obtain ⟨i, j, -, -, -, -, rfl⟩ := TensorImpl.transpose_ok h
    rfl
  case permute =>
    obtain ⟨t', h, rfl⟩ := h
    obtain ⟨pos, -, -, rfl⟩ := TensorImpl.permute_ok h
    rfl
  case squeeze dim =>
    cases dim with
    | none =>
      obtain ⟨-, rfl⟩ := TensorImpl.squeezeAll_ok h
      rfl
    | some dim =>
      obtain ⟨d, -, -, ⟨-, rfl⟩ | ⟨-, -, rfl⟩⟩ := TensorImpl.squeezeDim_ok h
      · rfl
      · rfl
  case unsqueeze =>
    obtain ⟨t', h, rfl⟩ := h
    obtain ⟨d, contiguous, -, -, -, rfl⟩ := TensorImpl.unsqueeze_ok h
    rfl
  case slice =>
    obtain ⟨t', h, rfl⟩ := h
    obtain ⟨d, first, last, -, -, -, -, -, -, -, -, rfl⟩ := TensorImpl.slice_ok h
    rfl
  case index =>
    obtain ⟨row, i, s, -, -, -, -, hrow, hs, rfl⟩ := TensorImpl.index_ok h
    obtain ⟨d, first, last, -, -, -, -, -, -, -, -, rfl⟩ := TensorImpl.slice_ok hrow
    obtain ⟨d', -, -, ⟨-, rfl⟩ | ⟨-, -, rfl⟩⟩ := TensorImpl.squeezeDim_ok hs
    · rfl
    · rfl
  case asStrided =>
    obtain ⟨t', h, rfl⟩ := h
    obtain ⟨low, high, empty, -, -, -, -, rfl⟩ := TensorImpl.asStrided_ok h
    rfl
  case unfold =>
    obtain ⟨t', h, rfl⟩ := h
    obtain ⟨d, -, -, -, -, -, h⟩ := TensorImpl.unfold_ok h
    obtain ⟨low, high, empty, -, -, -, -, rfl⟩ := TensorImpl.asStrided_ok h
    rfl
  case detach =>
    obtain rfl : ViewResult.fresh (t.detach self) = r := by simpa using h
    rfl
  case intRepr =>
    obtain ⟨t', h, rfl⟩ := h
    obtain ⟨hq, -, rfl⟩ := TensorImpl.intRepr_ok h
    -- Every quantized type and its integer reading take one byte.
    have hbyte : ∀ dt, isQuantized dt = true →
        dtypeSize (if dt = .quint8 then .uint8 else .int8) = dtypeSize dt := by
      intro dt
      cases dt <;> decide
    simp only [ViewResult.impl, TensorImpl.storageElements]
    rw [hbyte t.dtype hq]

/-- One view keeps a tensor well formed and in bounds. -/
theorem apply_bounds (hwf : t.WellFormed) (hb : t.InBounds) (hargs : op.ArgsInInt64)
    (hfit : op.NoWrap t) (h : op.apply self t = .ok r) :
    (r.impl t).WellFormed ∧ (r.impl t).InBounds := by
  have hst := storageElements_apply h
  cases op <;> simp only [ViewOp.apply, TensorImpl.squeeze, map_eq_ok] at h
  case view =>
    obtain ⟨t', h, rfl⟩ := h
    exact ⟨TensorImpl.wellFormed_view hwf hargs hfit h,
      (TensorImpl.reindexes_view hwf hfit h).inBounds hst hb⟩
  case transpose =>
    obtain ⟨t', h, rfl⟩ := h
    exact ⟨TensorImpl.wellFormed_transpose hwf h,
      (TensorImpl.reindexes_transpose hwf h).inBounds hst hb⟩
  case permute =>
    obtain ⟨t', h, rfl⟩ := h
    exact ⟨TensorImpl.wellFormed_permute hwf h,
      (TensorImpl.reindexes_permute hwf h).inBounds hst hb⟩
  case squeeze dim =>
    cases dim with
    | none =>
      exact ⟨TensorImpl.wellFormed_squeezeAll hwf h,
        (TensorImpl.reindexes_squeezeAll hwf h).inBounds hst hb⟩
    | some dim =>
      exact ⟨TensorImpl.wellFormed_squeezeDim hwf h,
        (TensorImpl.reindexes_squeezeDim hwf h).inBounds hst hb⟩
  case unsqueeze =>
    obtain ⟨t', h, rfl⟩ := h
    exact ⟨TensorImpl.wellFormed_unsqueeze hwf h,
      (TensorImpl.reindexes_unsqueeze hwf h).inBounds hst hb⟩
  case slice dim start stop step =>
    obtain ⟨t', h, rfl⟩ := h
    exact ⟨TensorImpl.wellFormed_slice hwf (TensorImpl.slice_nonneg hwf hfit h) h,
      (TensorImpl.reindexes_slice hwf hb hargs.2.2.2.2 h).inBounds hst hb⟩
  case index =>
    exact ⟨TensorImpl.wellFormed_index hwf h,
      (TensorImpl.reindexes_index hwf hb h).inBounds hst hb⟩
  case asStrided =>
    obtain ⟨t', h, rfl⟩ := h
    exact ⟨TensorImpl.wellFormed_asStrided hargs.1 h, TensorImpl.inBounds_asStrided hfit h⟩
  case unfold =>
    obtain ⟨t', h, rfl⟩ := h
    exact ⟨TensorImpl.wellFormed_unfold hwf h,
      (TensorImpl.reindexes_unfold hwf hb h).inBounds hst hb⟩
  case detach =>
    obtain rfl : ViewResult.fresh (t.detach self) = r := by simpa using h
    exact ⟨⟨hwf.length_eq, hwf.nonneg, hwf.size_le⟩, hb⟩
  case intRepr =>
    obtain ⟨t', h, rfl⟩ := h
    obtain ⟨-, -, rfl⟩ := TensorImpl.intRepr_ok h
    refine ⟨⟨hwf.length_eq, hwf.nonneg, hwf.size_le⟩, ?_⟩
    intro idx hidx
    rw [hst]
    exact hb idx hidx

end Step

/-- Take one view. The first component is the address its parent lives at. -/
def viewStep (t : TensorImpl) (step : TensorId × ViewOp) : Except Exn TensorImpl := do
  let r ← step.2.apply step.1 t
  return r.impl t

/-- Run a chain of views, each on the result of the one before. -/
def runViews (t : TensorImpl) (ops : List (TensorId × ViewOp)) : Except Exn TensorImpl :=
  ops.foldlM viewStep t

/-- Every tensor a chain of views reaches is in bounds, as long as no step so
far wrapped around in the arithmetic that decides the geometry. -/
theorem runViews_inBounds {t : TensorImpl} {ops : List (TensorId × ViewOp)}
    (hwf : t.WellFormed) (hb : t.InBounds) (hargs : ∀ step ∈ ops, step.2.ArgsInInt64)
    (hfit : ∀ done step s, done ++ [step] <+: ops → runViews t done = .ok s → step.2.NoWrap s) :
    ∀ done s, done <+: ops → runViews t done = .ok s → s.InBounds := by
  have hboth : ∀ done s, done <+: ops → runViews t done = .ok s →
      s.WellFormed ∧ s.InBounds := by
    apply foldlM_invariant_prefix (fun s : TensorImpl => s.WellFormed ∧ s.InBounds) ⟨hwf, hb⟩
    intro done step s s' hpre hrun hs hstep
    simp only [viewStep, bind_eq_ok, pure_eq_ok] at hstep
    obtain ⟨r, hr, rfl⟩ := hstep
    have hmem : step ∈ ops := hpre.subset (by simp)
    exact apply_bounds hs.1 hs.2 (hargs step hmem) (hfit done step s hpre hrun) hr
  intro done s hpre hrun
  exact (hboth done s hpre hrun).2

/-- A contiguous float32 tensor of the given shape on storage of its own. -/
def contiguousCell (sizeBytes : Nat) (h : (sizeBytes : Int) ≤ int64Max) (shape : List Int) :
    TensorImpl where
  storage := ⟨0, sizeBytes, h⟩
  shape := shape
  strides := rowMajor shape
  dtype := .float32

theorem contiguousCell_inBounds {sizeBytes : Nat} {h : (sizeBytes : Int) ≤ int64Max}
    {shape : List Int} (hfit : shape.prod ≤ (sizeBytes / 4 : Nat)) :
    (contiguousCell sizeBytes h shape).InBounds := by
  intro idx hidx
  have hb := dot_rowMajor_bounds hidx
  simp only [contiguousCell, TensorImpl.addr, TensorImpl.storageElements, dtypeSize] at *
  omega

/-- A reshape, a transposition and an overlapping window of a `2 × 3` matrix. -/
theorem runViews_inBounds_matrix :
    ∃ s, runViews (contiguousCell 24 (by decide) [2, 3])
        [(0, .view [3, -1]), (1, .transpose 0 1), (2, .asStrided [2, 2] [1, 2] (some 1))] = .ok s ∧
      s.InBounds := by
  refine ⟨_, rfl, ?_⟩
  refine runViews_inBounds (t := contiguousCell 24 (by decide) [2, 3])
    ⟨rfl, by decide, by decide⟩ (contiguousCell_inBounds (by decide)) ?_ ?_ _ _
    (prefix_refl [(0, .view [3, -1]), (1, .transpose 0 1),
      (2, .asStrided [2, 2] [1, 2] (some 1))]) rfl
  · intro step hstep
    simp only [mem_cons, not_mem_nil, or_false] at hstep
    rcases hstep with rfl | rfl | rfl
    · simp only [ViewOp.ArgsInInt64]; decide
    · simp only [ViewOp.ArgsInInt64]; decide
    · simp only [ViewOp.ArgsInInt64]; decide
  · intro done step s hpre hrun
    have hstep := hpre.subset (mem_append_right done (mem_singleton_self step))
    simp only [mem_cons, not_mem_nil, or_false] at hstep
    rcases hstep with rfl | rfl | rfl
    · simp only [ViewOp.NoWrap]; decide
    · trivial
    · right
      simp only [ReachFits, Option.getD_some]; decide

/-- The extent `2^32 * 2^32` of the requested axis wraps to zero, so a
one-element tensor hands out a view whose second element is `2^32` away. -/
theorem runViews_not_inBounds :
    ¬ ∀ (t : TensorImpl) (ops : List (TensorId × ViewOp)), t.WellFormed → t.InBounds →
      (∀ step ∈ ops, step.2.ArgsInInt64) →
      ∀ done s, done <+: ops → runViews t done = .ok s → s.InBounds := by
  intro hall
  have hcell := hall (contiguousCell 4 (by decide) [1])
    [(0, .asStrided [4294967297] [4294967296] none)]
    ⟨rfl, by decide, by decide⟩ (contiguousCell_inBounds (by decide))
    (by simp only [mem_singleton, forall_eq, ViewOp.ArgsInInt64]; decide)
    _ _ (prefix_refl _) rfl
  have hone := hcell [1] (by simp [ViewResult.impl])
  simp [ViewResult.impl, contiguousCell, TensorImpl.copy, TensorImpl.addr, TensorImpl.storageElements,
    dtypeSize] at hone

end Tenzor
