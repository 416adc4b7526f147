import Tenzor.Core.Contiguity
import Tenzor.Core.Quantization
import Tenzor.Core.ViewBounds

/-!
# Requested shapes

`view` and `reshape` scan the requested shape for one entry to infer and
compare the product of the others with the element count. The product is
multiplied up without an overflow test, the element count with one. A request
is answered as its exact product says unless one of the two leaves the 64-bit
range.

## Implementation notes

The tensor is on the CPU. The requested shape travels to the kernel of
`reshape` as a list of decimals, which reads back as it was written.
-/

namespace Tenzor

variable {shape newShape pre post : List Int}

open Wrap64 Throwing List

namespace TensorImpl

/-- How error messages write a shape. -/
def shapeText (shape : List Int) : String := "[" ++ ", ".intercalate (shape.map toString) ++ "]"

/-- The shape that `reshape` takes, a `-1` entry inferred as in `view`. -/
def reshapeShape (shape newShape : List Int) : Except Exn (List Int) := do
  let scan ← newShape.foldlM viewScanStep {}
  match scan.inferDim with
  | some d =>
    throwIf (scan.total = 0)
      (.runtimeError "Cannot infer dimension: product of known dimensions is zero")
    let count ← numel shape
    throwIf (count.tmod scan.total ≠ 0) (.runtimeError "Cannot infer dimension")
    return newShape.set d (count.tdiv scan.total)
  | none =>
    let count ← numel shape
    throwIf (scan.total ≠ count) (.invalidArgument
      s!"Shape incompatible with number of elements: trying to reshape {shapeText shape} (numel={count}) to {shapeText newShape} (total={scan.total})")
    return newShape

variable (t : TensorImpl)

/-- The kernel works on a contiguous tensor and takes the shape as it is. Each
of its two mutators bumps the version of the new impl. -/
def reshapeKernel (shape : List Int) : Except Exn TensorImpl := do
  let strides ← computeStrides shape
  return { t.copy with
    shape := shape, strides := strides
    version := (t.version + 2) % 18446744073709551616 }

/-- `fresh` is the storage a contiguous copy of a strided tensor would be on. -/
def reshape (fresh : Nat) (newShape : List Int) : Except Exn TensorImpl := do
  throwIf t.qScales.isSome (.runtimeError
    "reshape: cannot reshape a per-channel quantized tensor (the per-channel quantization axis cannot be tracked)")
  let shape ← reshapeShape t.shape newShape
  let contiguous ← t.isContiguous
  let src ← if contiguous then pure t else allocate fresh t.shape t.dtype
  src.reshapeKernel shape

end TensorImpl

/-- The products that `numel` passes through are words. -/
def CountFits (shape : List Int) : Prop := ∀ sizes, sizes <+: shape → sizes.prod ≤ int64Max

instance (shape : List Int) : Decidable (CountFits shape) :=
  decidable_of_iff (∀ sizes ∈ shape.inits, sizes.prod ≤ int64Max) (by simp [CountFits])

theorem CountFits.prod_le (h : CountFits shape) : shape.prod ≤ int64Max :=
  h shape (prefix_refl _)

theorem numel_eq_ok_iff {n : Int} (hnn : ∀ d ∈ shape, 0 ≤ d) :
    numel shape = .ok n ↔ CountFits shape ∧ n = shape.prod := by
  have key : ∀ (shape : List Int) (r : Int), (∀ d ∈ shape, 0 ≤ d) → 0 ≤ r → r ≤ int64Max →
      (shape.foldlM numelStep r = .ok n ↔
        (∀ sizes, sizes <+: shape → r * sizes.prod ≤ int64Max) ∧ n = r * shape.prod) := by
    intro shape
    induction shape with
    | nil =>
      intro r _ _ hr
      simp [hr, pure, Except.pure, eq_comm]
    | cons d rest ih =>
      intro r hnn hr hle
      obtain ⟨hd, hrest⟩ := forall_mem_cons.mp hnn
      simp only [foldlM_cons_eq_ok, numelStep_eq_ok_iff hr hd, prefix_cons_iff]
      constructor
      · rintro ⟨x, ⟨hx, rfl⟩, h⟩
        obtain ⟨hfit, rfl⟩ := (ih _ hrest (mul_nonneg hr hd) hx).mp h
        refine ⟨?_, by rw [prod_cons, mul_assoc]⟩
        rintro sizes (rfl | ⟨tail, rfl, htail⟩)
        · simpa using hle
        · rw [prod_cons, ← mul_assoc]
          exact hfit tail htail
      · rintro ⟨hfit, rfl⟩
        have hx : r * d ≤ int64Max := by
          simpa using hfit [d] (.inr ⟨[], rfl, nil_prefix⟩)
        refine ⟨_, ⟨hx, rfl⟩, (ih _ hrest (mul_nonneg hr hd) hx).mpr ⟨?_, ?_⟩⟩
        · intro tail htail
          rw [mul_assoc]
          exact hfit (d :: tail) (.inr ⟨tail, rfl, htail⟩)
        · rw [prod_cons, mul_assoc]
  simpa [numel, CountFits] using key shape 1 hnn (by decide) (by decide)

/-- A request states at most one entry to infer. -/
def OneInferred (newShape : List Int) : Prop := newShape.count (-1) ≤ 1

/-- The request with its open entry filled in. -/
def filled (newShape : List Int) (q : Int) : List Int :=
  newShape.map fun n => if n = -1 then q else n

theorem filled_of_notMem (h : -1 ∉ newShape) (q : Int) : filled newShape q = newShape := by
  conv_rhs => rw [← map_id newShape]
  apply map_congr_left
  intro n hn
  have hne : n ≠ -1 := fun heq => h (heq ▸ hn)
  simp [hne]

theorem filled_append (hpre : -1 ∉ pre) (hpost : -1 ∉ post) (q : Int) :
    filled (pre ++ -1 :: post) q = pre ++ q :: post := by
  rw [filled, map_append, map_cons, if_pos rfl]
  rw [← filled, ← filled, filled_of_notMem hpre, filled_of_notMem hpost]

theorem knownSizes_append (hpre : -1 ∉ pre) (hpost : -1 ∉ post) :
    knownSizes (pre ++ -1 :: post) = pre ++ post := by
  have hsplit : knownSizes (pre ++ -1 :: post) = knownSizes pre ++ knownSizes post := by
    simp [knownSizes]
  rw [hsplit, TensorImpl.knownSizes_of_notMem hpre, TensorImpl.knownSizes_of_notMem hpost]

/-- The exact number of elements of the request is the known product times the entry. -/
theorem prod_filled {q : Int} (hone : OneInferred newShape) (hmem : -1 ∈ newShape) :
    (filled newShape q).prod = (knownSizes newShape).prod * q := by
  obtain ⟨pre, post, rfl⟩ := append_of_mem hmem
  have hcount : pre.count (-1) + (post.count (-1) + 1) ≤ 1 := by
    simpa [OneInferred] using hone
  have hpre : -1 ∉ pre := count_eq_zero.mp (by omega)
  have hpost : -1 ∉ post := count_eq_zero.mp (by omega)
  rw [filled_append hpre hpost, knownSizes_append hpre hpost]
  simp only [prod_append, prod_cons]
  ring

theorem exists_scan (hone : OneInferred newShape) (hnn : ∀ n ∈ knownSizes newShape, 0 ≤ n) :
    ∃ scan, newShape.foldlM TensorImpl.viewScanStep {} = .ok scan := by
  have key : ∀ (rest : List Int) (acc : TensorImpl.ViewScan),
      (∀ n ∈ knownSizes rest, 0 ≤ n) → rest.count (-1) ≤ 1 →
      (acc.inferDim.isSome = true → -1 ∉ rest) →
      ∃ scan, rest.foldlM TensorImpl.viewScanStep acc = .ok scan := by
    intro rest
    induction rest with
    | nil =>
      intro acc _ _ _
      exact ⟨acc, rfl⟩
    | cons n rest ih =>
      intro acc hnn hone hfree
      by_cases hn : n = -1
      · subst hn
        have hrest : -1 ∉ rest := by
          rw [count_cons_self] at hone
          exact count_eq_zero.mp (by omega)
        have hnone : acc.inferDim = none := by
          by_contra hsome
          exact hfree (Option.isSome_iff_ne_none.mpr hsome) mem_cons_self
        obtain ⟨scan, hscan⟩ := ih { acc with
            position := acc.position + 1, inferDim := some acc.position }
          (by simpa [knownSizes] using hnn) (by rw [count_eq_zero.mpr hrest]; omega)
          fun _ => hrest
        refine ⟨scan, foldlM_cons_eq_ok.mpr ⟨_, ?_, hscan⟩⟩
        simp [TensorImpl.viewScanStep, hnone]
      · have hknown : knownSizes (n :: rest) = n :: knownSizes rest := by
          simp [knownSizes, hn]
        rw [hknown, forall_mem_cons] at hnn
        rw [count_cons_of_ne hn] at hone
        obtain ⟨scan, hscan⟩ := ih { acc with
            position := acc.position + 1, total := wrap64 (acc.total * n) } hnn.2 hone
          fun hsome hmem => hfree hsome (mem_cons_of_mem n hmem)
        refine ⟨scan, foldlM_cons_eq_ok.mpr ⟨_, ?_, hscan⟩⟩
        simp [TensorImpl.viewScanStep, hn, not_lt.mpr hnn.1]
  exact key newShape {} hnn hone (by simp)

namespace TensorImpl

variable {t t' : TensorImpl} {shape newShape s : List Int}

theorem viewShape_eq_ok_of_notMem (hnn : ∀ n ∈ shape, 0 ≤ n) (hfree : -1 ∉ newShape) :
    viewShape shape newShape = .ok s ↔ (∀ n ∈ newShape, 0 ≤ n) ∧ CountFits shape ∧
      wrap64 newShape.prod = shape.prod ∧ s = newShape := by
  have hknown := knownSizes_of_notMem hfree
  constructor
  · intro h
    simp only [viewShape, bind_eq_ok] at h
    obtain ⟨scan, hscan, h⟩ := h
    have hfound := scanFound_of_ok hscan
    have hnone : scan.inferDim = none := by
      cases hinfer : scan.inferDim with
      | none => rfl
      | some d =>
        obtain ⟨pre, post, rfl, -⟩ := hfound.some_iff d hinfer
        simp at hfree
    simp only [hnone, bind_eq_ok, throwIf_eq_ok, pure_eq_ok, not_not, numel_eq_ok_iff hnn] at h
    obtain ⟨_, ⟨hfit, rfl⟩, -, htotal, rfl⟩ := h
    refine ⟨fun n hn => hfound.nonneg n (hknown.symm ▸ hn), hfit, ?_, rfl⟩
    rw [← htotal, hfound.total_eq, hknown]
  · rintro ⟨hknn, hfit, htotal, rfl⟩
    have hone : OneInferred s := by
      rw [OneInferred, count_eq_zero.mpr hfree]
      omega
    obtain ⟨scan, hscan⟩ := exists_scan hone (hknown.symm ▸ hknn)
    have hfound := scanFound_of_ok hscan
    have hnone : scan.inferDim = none := by
      cases hinfer : scan.inferDim with
      | none => rfl
      | some d =>
        obtain ⟨pre, post, rfl, -⟩ := hfound.some_iff d hinfer
        simp at hfree
    simp only [viewShape, bind_eq_ok]
    refine ⟨scan, hscan, ?_⟩
    simp only [hnone, bind_eq_ok, throwIf_eq_ok, pure_eq_ok, not_not, numel_eq_ok_iff hnn]
    refine ⟨_, ⟨hfit, rfl⟩, (), ?_, trivial⟩
    rw [hfound.total_eq, hknown, htotal]

theorem viewShape_eq_ok_of_mem (hnn : ∀ n ∈ shape, 0 ≤ n) (hone : OneInferred newShape)
    (hmem : -1 ∈ newShape) :
    viewShape shape newShape = .ok s ↔ (∀ n ∈ knownSizes newShape, 0 ≤ n) ∧ CountFits shape ∧
      wrap64 (knownSizes newShape).prod ≠ 0 ∧ wrap64 (knownSizes newShape).prod ∣ shape.prod ∧
      s = filled newShape (shape.prod.tdiv (wrap64 (knownSizes newShape).prod)) := by
  have hsome : ∀ scan, newShape.foldlM viewScanStep {} = .ok scan → ∃ d, scan.inferDim = some d ∧
      ∀ q, newShape.set d q = filled newShape q := by
    intro scan hscan
    have hfound := scanFound_of_ok hscan
    cases hinfer : scan.inferDim with
    | none => exact absurd hmem (hfound.none_iff hinfer)
    | some d =>
      obtain ⟨pre, post, rfl, rfl, hpre, hpost⟩ := hfound.some_iff d hinfer
      refine ⟨pre.length, rfl, fun q => ?_⟩
      rw [filled_append hpre hpost]
      simp
  constructor
  · intro h
    simp only [viewShape, bind_eq_ok] at h
    obtain ⟨scan, hscan, h⟩ := h
    have hfound := scanFound_of_ok hscan
    obtain ⟨d, hd, hset⟩ := hsome scan hscan
    simp only [hd, bind_eq_ok, throwIf_eq_ok, pure_eq_ok, not_not, numel_eq_ok_iff hnn] at h
    obtain ⟨-, hne, _, ⟨hfit, rfl⟩, -, hmod, rfl⟩ := h
    rw [hfound.total_eq] at hne hmod ⊢
    exact ⟨hfound.nonneg, hfit, hne, Int.dvd_of_tmod_eq_zero hmod, hset _⟩
  · rintro ⟨hknn, hfit, hne, hdvd, rfl⟩
    obtain ⟨scan, hscan⟩ := exists_scan hone hknn
    have hfound := scanFound_of_ok hscan
    obtain ⟨d, hd, hset⟩ := hsome scan hscan
    simp only [viewShape, bind_eq_ok]
    refine ⟨scan, hscan, ?_⟩
    simp only [hd, bind_eq_ok, throwIf_eq_ok, pure_eq_ok, not_not, numel_eq_ok_iff hnn]
    rw [hfound.total_eq]
    exact ⟨(), hne, _, ⟨hfit, rfl⟩, (), Int.tmod_eq_zero_of_dvd hdvd, hset _⟩

/-- The two paths answer a request alike. They differ in the error of a mismatch. -/
theorem reshapeShape_eq_ok : reshapeShape shape newShape = .ok s ↔
    viewShape shape newShape = .ok s := by
  simp only [reshapeShape, viewShape, bind_eq_ok]
  apply exists_congr
  intro scan
  cases scan.inferDim with
  | none => simp only [bind_eq_ok, throwIf_eq_ok]
  | some d => rfl

/-- What a path that goes by the scan gives, for a contiguous tensor. -/
structure ByScan (t : TensorImpl) (newShape : List Int) (r : Except Exn TensorImpl) : Prop where
  returns_iff : (∃ t', r = .ok t') ↔
    t.qScales.isSome = false ∧ ∃ s, viewShape t.shape newShape = .ok s ∧ StridesFit s
  shape_eq : ∀ t', r = .ok t' → viewShape t.shape newShape = .ok t'.shape

theorem byScan_view (self : TensorId) (hc : t.isContiguous = .ok true) :
    ByScan t newShape (t.view self newShape) := by
  constructor
  · simp only [view, bind_eq_ok, throwIf_eq_ok, pure_eq_ok, computeStrides_eq_ok, hc]
    constructor
    · rintro ⟨t', -, hq, _, -, -, -, s, hs, _, ⟨hfit, -⟩, -⟩
      exact ⟨by simpa using hq, s, hs, hfit⟩
    · rintro ⟨hq, s, hs, hfit⟩
      exact ⟨_, (), by simp [hq], true, rfl, (), by simp, s, hs, _, ⟨hfit, rfl⟩, rfl⟩
  · intro t' h
    obtain ⟨-, -, s, hs, rfl⟩ := view_ok h
    exact hs

theorem byScan_reshape (fresh : Nat) (hc : t.isContiguous = .ok true) :
    ByScan t newShape (t.reshape fresh newShape) := by
  have hkernel : ∀ t', t.reshape fresh newShape = .ok t' ↔ t.qScales.isSome = false ∧
      ∃ s, viewShape t.shape newShape = .ok s ∧ t.reshapeKernel s = .ok t' := by
    simp [reshape, reshapeShape_eq_ok, hc]
  constructor
  · constructor
    · rintro ⟨t', h⟩
      obtain ⟨hq, s, hs, hk⟩ := (hkernel t').mp h
      simp only [reshapeKernel, bind_eq_ok, computeStrides_eq_ok] at hk
      obtain ⟨_, ⟨hfit, -⟩, -⟩ := hk
      exact ⟨hq, s, hs, hfit⟩
    · rintro ⟨hq, s, hs, hfit⟩
      obtain ⟨t', hk⟩ : ∃ t', t.reshapeKernel s = .ok t' :=
        ⟨_, bind_eq_ok.mpr ⟨_, computeStrides_eq_ok.mpr ⟨hfit, rfl⟩, rfl⟩⟩
      exact ⟨t', (hkernel t').mpr ⟨hq, s, hs, hk⟩⟩
  · intro t' h
    obtain ⟨-, s, hs, hk⟩ := (hkernel t').mp h
    simp only [reshapeKernel, bind_eq_ok, pure_eq_ok] at hk
    obtain ⟨_, -, rfl⟩ := hk
    exact hs

/-- A request for a shape of `n` elements, over exact integers: the sizes
multiply to `n`, or those stated divide it and one is left open. -/
def Requested (n : Int) (newShape : List Int) : Prop :=
  (∀ k ∈ knownSizes newShape, 0 ≤ k) ∧
    ((-1 ∉ newShape ∧ newShape.prod = n) ∨
      (-1 ∈ newShape ∧ (knownSizes newShape).prod ≠ 0 ∧ (knownSizes newShape).prod ∣ n))

/-- A call answers exactly the requests for the tensor's element count, with
the shape requested. -/
structure AnswersExactly (t : TensorImpl) (newShape : List Int) (r : Except Exn TensorImpl) :
    Prop where
  returns_iff : (∃ t', r = .ok t') ↔ Requested t.shape.prod newShape
  shape_eq : ∀ t', r = .ok t' →
    t'.shape = filled newShape (t.shape.prod / (knownSizes newShape).prod) ∧
      t'.shape.prod = t.shape.prod

/-- Nothing on the way from the request to its answer leaves the 64-bit range
unnoticed, and nothing that can be answered is refused. -/
structure ScanIsExact (t : TensorImpl) (newShape : List Int) : Prop where
  /-- A request that can be answered is on a tensor without channel parameters, its element
  count and the strides of the answer are words, and a product that divides zero
  does not wrap to zero. -/
  answered : Requested t.shape.prod newShape → t.qScales.isSome = false ∧ CountFits t.shape ∧
    StridesFit (filled newShape (t.shape.prod / (knownSizes newShape).prod)) ∧
    (-1 ∈ newShape → wrap64 (knownSizes newShape).prod ≠ 0)
  /-- A product that is no word does not wrap to the element count or to a divisor of it,
  or the strides of the shape it stands for are no words. -/
  refused : ¬ InInt64 (knownSizes newShape).prod → (∀ k ∈ knownSizes newShape, 0 ≤ k) →
    t.qScales.isSome = false → CountFits t.shape →
      (-1 ∉ newShape → wrap64 newShape.prod = t.shape.prod → ¬ StridesFit newShape) ∧
      (-1 ∈ newShape → t.shape.prod ≠ 0 → wrap64 (knownSizes newShape).prod ≠ 0 →
        wrap64 (knownSizes newShape).prod ∣ t.shape.prod →
        ¬ StridesFit (filled newShape (t.shape.prod.tdiv (wrap64 (knownSizes newShape).prod))))

section Exact

variable {r : Except Exn TensorImpl} (hwf : t.WellFormed) (hone : OneInferred newShape)

theorem inInt64_of_nonneg {x y : Int} (h0 : 0 ≤ x) (hle : x ≤ y) (hy : y ≤ int64Max) : InInt64 x :=
  ⟨(by decide : int64Min ≤ 0).trans h0, hle.trans hy⟩

/-- A divisor of a positive word is a word. -/
theorem inInt64_of_dvd {p n : Int} (hp : 0 ≤ p) (hn : 0 < n) (hle : n ≤ int64Max) (h : p ∣ n) :
    InInt64 p :=
  inInt64_of_nonneg hp (Int.le_of_dvd hn h) hle

include hwf hone

/-- A returned shape is the requested one when the wrapped product stands for the exact one. -/
theorem viewShape_requested (h : viewShape t.shape newShape = .ok s)
    (hreq : Requested t.shape.prod newShape) :
    s = filled newShape (t.shape.prod / (knownSizes newShape).prod) ∧ s.prod = t.shape.prod := by
  have hn := Strided.prod_nonneg hwf.nonneg
  obtain ⟨hknn, ⟨hfree, hprod⟩ | ⟨hmem, hne, hdvd⟩⟩ := hreq
  · obtain ⟨-, -, -, rfl⟩ := (viewShape_eq_ok_of_notMem hwf.nonneg hfree).mp h
    exact ⟨(filled_of_notMem hfree _).symm, hprod⟩
  · obtain ⟨-, hfit, -, -, rfl⟩ := (viewShape_eq_ok_of_mem hwf.nonneg hone hmem).mp h
    have hquot : t.shape.prod.tdiv (wrap64 (knownSizes newShape).prod) =
        t.shape.prod / (knownSizes newShape).prod := by
      rcases hn.eq_or_lt with hzero | hpos
      · rw [← hzero, Int.zero_tdiv, Int.zero_ediv]
      · rw [wrap64_of_inInt64 (inInt64_of_dvd (Strided.prod_nonneg hknn) hpos hfit.prod_le hdvd),
          Int.tdiv_eq_ediv_of_nonneg hn]
    rw [hquot]
    refine ⟨rfl, ?_⟩
    rw [prod_filled hone hmem, Int.mul_ediv_cancel' hdvd]

theorem viewShape_of_requested (hex : ScanIsExact t newShape)
    (hreq : Requested t.shape.prod newShape) :
    viewShape t.shape newShape =
      .ok (filled newShape (t.shape.prod / (knownSizes newShape).prod)) := by
  obtain ⟨-, hfit, -, hnz⟩ := hex.answered hreq
  have hn := Strided.prod_nonneg hwf.nonneg
  obtain ⟨hknn, ⟨hfree, hprod⟩ | ⟨hmem, hne, hdvd⟩⟩ := hreq
  · rw [filled_of_notMem hfree, viewShape_eq_ok_of_notMem hwf.nonneg hfree]
    refine ⟨knownSizes_of_notMem hfree ▸ hknn, hfit, ?_, rfl⟩
    rw [hprod]
    exact wrap64_of_inInt64 (inInt64_of_nonneg hn le_rfl hfit.prod_le)
  · rw [viewShape_eq_ok_of_mem hwf.nonneg hone hmem]
    rcases hn.eq_or_lt with hzero | hpos
    · refine ⟨hknn, hfit, hnz hmem, ?_, ?_⟩
      · rw [← hzero]
        exact dvd_zero _
      · rw [← hzero, Int.zero_tdiv, Int.zero_ediv]
    · have hword := inInt64_of_dvd (Strided.prod_nonneg hknn) hpos hfit.prod_le hdvd
      rw [wrap64_of_inInt64 hword, Int.tdiv_eq_ediv_of_nonneg hn]
      exact ⟨hknn, hfit, hne, hdvd, rfl⟩

theorem requested_of_viewShape (hex : ScanIsExact t newShape) (hq : t.qScales.isSome = false)
    (h : viewShape t.shape newShape = .ok s) (hstrides : StridesFit s) :
    Requested t.shape.prod newShape := by
  by_cases hmem : -1 ∈ newShape
  · obtain ⟨hknn, hfit, hne, hdvd, rfl⟩ := (viewShape_eq_ok_of_mem hwf.nonneg hone hmem).mp h
    refine ⟨hknn, .inr ⟨hmem, ?_⟩⟩
    by_cases hword : InInt64 (knownSizes newShape).prod
    · rw [wrap64_of_inInt64 hword] at hne hdvd
      exact ⟨hne, hdvd⟩
    · have hzero : t.shape.prod = 0 := by
        by_contra hnz
        exact (hex.refused hword hknn hq hfit).2 hmem hnz hne hdvd hstrides
      refine ⟨?_, hzero ▸ dvd_zero _⟩
      intro hp
      rw [hp] at hword
      exact hword (by decide)
  · obtain ⟨hknn, hfit, hprod, rfl⟩ := (viewShape_eq_ok_of_notMem hwf.nonneg hmem).mp h
    have hknown := knownSizes_of_notMem hmem
    refine ⟨hknown.symm ▸ hknn, .inl ⟨hmem, ?_⟩⟩
    by_cases hword : InInt64 s.prod
    · rwa [wrap64_of_inInt64 hword] at hprod
    · have hrefused := hex.refused (hknown.symm ▸ hword) (hknown.symm ▸ hknn) hq hfit
      exact absurd hstrides (hrefused.1 hmem hprod)

theorem answersExactly_iff (hr : ByScan t newShape r) :
    AnswersExactly t newShape r ↔ ScanIsExact t newShape := by
  constructor
  · intro hexact
    constructor
    · intro hreq
      obtain ⟨t', ht'⟩ := hexact.returns_iff.mpr hreq
      obtain ⟨hq, s, hs, hstrides⟩ := hr.returns_iff.mp ⟨t', ht'⟩
      obtain ⟨rfl, -⟩ := viewShape_requested hwf hone hs hreq
      by_cases hmem : -1 ∈ newShape
      · obtain ⟨-, hfit, hne, -, -⟩ := (viewShape_eq_ok_of_mem hwf.nonneg hone hmem).mp hs
        exact ⟨hq, hfit, hstrides, fun _ => hne⟩
      · obtain ⟨-, hfit, -⟩ := (viewShape_eq_ok_of_notMem hwf.nonneg hmem).mp hs
        exact ⟨hq, hfit, hstrides, fun h => absurd h hmem⟩
    · intro hword hknn hq hfit
      have hn := Strided.prod_nonneg hwf.nonneg
      constructor
      · intro hfree hprod hstrides
        have hknown := knownSizes_of_notMem hfree
        have hs : viewShape t.shape newShape = .ok newShape :=
          (viewShape_eq_ok_of_notMem hwf.nonneg hfree).mpr
            ⟨hknown ▸ hknn, hfit, hprod, rfl⟩
        obtain ⟨-, ⟨-, hreq⟩ | ⟨hmem, -⟩⟩ :=
          hexact.returns_iff.mp (hr.returns_iff.mpr ⟨hq, _, hs, hstrides⟩)
        · rw [hknown, hreq] at hword
          exact hword (inInt64_of_nonneg hn le_rfl hfit.prod_le)
        · exact hfree hmem
      · intro hmem hnz hne hdvd hstrides
        have hs : viewShape t.shape newShape = .ok _ :=
          (viewShape_eq_ok_of_mem hwf.nonneg hone hmem).mpr ⟨hknn, hfit, hne, hdvd, rfl⟩
        obtain ⟨-, ⟨hfree, -⟩ | ⟨-, -, hreq⟩⟩ :=
          hexact.returns_iff.mp (hr.returns_iff.mpr ⟨hq, _, hs, hstrides⟩)
        · exact hfree hmem
        · exact hword (inInt64_of_dvd (Strided.prod_nonneg hknn) (by omega) hfit.prod_le hreq)
  · intro hex
    have hreq : (∃ t', r = .ok t') → Requested t.shape.prod newShape := by
      intro hret
      obtain ⟨hq, s, hs, hstrides⟩ := hr.returns_iff.mp hret
      exact requested_of_viewShape hwf hone hex hq hs hstrides
    constructor
    · refine ⟨hreq, fun h => hr.returns_iff.mpr ?_⟩
      obtain ⟨hq, -, hstrides, -⟩ := hex.answered h
      exact ⟨hq, _, viewShape_of_requested hwf hone hex h, hstrides⟩
    · intro t' ht'
      exact viewShape_requested hwf hone (hr.shape_eq t' ht') (hreq ⟨t', ht'⟩)

end Exact

/-- `view` and `reshape` of a contiguous tensor answer exactly the requests for
its element count, with exact products, when neither the product of the
request nor an element count or a stride leaves the 64-bit range. -/
theorem view_reshape_exact_iff (self : TensorId) (fresh : Nat) (hwf : t.WellFormed)
    (hc : t.isContiguous = .ok true) (hone : OneInferred newShape) :
    AnswersExactly t newShape (t.view self newShape) ∧
        AnswersExactly t newShape (t.reshape fresh newShape) ↔ ScanIsExact t newShape := by
  rw [answersExactly_iff hwf hone (byScan_view self hc),
    answersExactly_iff hwf hone (byScan_reshape fresh hc), and_self]

/-- Four elements in a row. -/
def fourElements : TensorImpl where
  storage := .ofBytes 0 16
  shape := [4]
  strides := [1]
  dtype := .float32

theorem view_reshape_exact_fourElements :
    AnswersExactly fourElements [2, -1] (fourElements.view 0 [2, -1]) ∧
      AnswersExactly fourElements [2, -1] (fourElements.reshape 1 [2, -1]) := by
  have hwf : fourElements.WellFormed := ⟨by decide, by decide, by decide⟩
  apply (view_reshape_exact_iff 0 1 hwf (by decide) (by unfold OneInferred; decide)).mpr
  constructor
  · intro _
    exact ⟨rfl, by decide, by decide, fun _ => by decide⟩
  · intro h
    exact absurd (by decide) h

/-- The sizes `2 ^ 62 + 1` and `4` multiply to `2 ^ 64 + 4`, which comes back as
four: both calls answer the request. -/
theorem wrapped_product_answered :
    ¬ AnswersExactly fourElements [4611686018427387905, 4]
        (fourElements.view 0 [4611686018427387905, 4]) ∧
      ¬ AnswersExactly fourElements [4611686018427387905, 4]
        (fourElements.reshape 1 [4611686018427387905, 4]) := by
  have hrequest : ¬ Requested fourElements.shape.prod [4611686018427387905, 4] := by
    rintro ⟨-, ⟨-, hprod⟩ | ⟨hmem, -⟩⟩
    · exact absurd hprod (by decide)
    · exact absurd hmem (by decide)
  constructor
  · intro h
    exact hrequest (h.returns_iff.mp ⟨_, rfl⟩)
  · intro h
    exact hrequest (h.returns_iff.mp ⟨_, rfl⟩)

end TensorImpl

end Tenzor
