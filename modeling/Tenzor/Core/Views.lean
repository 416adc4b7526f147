import Tenzor.Core.Tensor

/-!
# View operations

Each operation starts from a copy of the parent's `TensorImpl`, changes the
geometry and the metadata it tracks, and records the base of the view chain.
`as_strided` is the one operation here that records no base. Arguments are
arbitrary words; the arithmetic the source leaves unchecked wraps.

## Implementation notes

`self` is the address of the parent, which becomes the view base when the
parent is not itself a view. `squeeze` of an axis whose size is not one
returns the parent handle itself, so results distinguish `same` from `fresh`.
-/

namespace Tenzor

open Wrap64 Strided Throwing

/-- A view operation returns the parent handle or a new `TensorImpl`. -/
inductive ViewResult
  | same
  | fresh (impl : TensorImpl)

/-- The metadata the returned handle points at. -/
def ViewResult.impl (parent : TensorImpl) : ViewResult → TensorImpl
  | .same => parent
  | .fresh t => t

/-- Negative dimensions count from the end. -/
def normalizeDim (dim ndims : Int) : Int := if dim < 0 then dim + ndims else dim

namespace TensorImpl

variable (self : TensorId) (t : TensorImpl)

/-- What the scan of the requested shape carries: the position of `-1` and the
wrapping product of the other sizes. -/
structure ViewScan where
  position : Nat := 0
  inferDim : Option Nat := none
  total : Int := 1

def viewScanStep (acc : ViewScan) (n : Int) : Except Exn ViewScan :=
  if n = -1 then
    match acc.inferDim with
    | some _ => .error (.runtimeError "Only one dimension can be inferred")
    | none => .ok { acc with position := acc.position + 1, inferDim := some acc.position }
  else if n < 0 then .error (.runtimeError s!"Invalid shape dimension: {n}")
  else .ok { acc with position := acc.position + 1, total := wrap64 (acc.total * n) }

/-- The shape a view of `shape` takes: a `-1` entry is inferred from the
element count. C++ division truncates towards zero. -/
def viewShape (shape newShape : List Int) : Except Exn (List Int) := do
  let scan ← newShape.foldlM viewScanStep {}
  match scan.inferDim with
  | some d =>
    throwIf (scan.total = 0)
      (.runtimeError "Cannot infer dimension: product of known dimensions is zero")
    let count ← numel shape
    throwIf (count.tmod scan.total ≠ 0) (.runtimeError "Cannot infer dimension")
    return newShape.set d (count.tdiv scan.total)
  | none =>
    let count ← numel shape
    throwIf (scan.total ≠ count)
      (.runtimeError "View shape incompatible with number of elements")
    return newShape

def view (newShape : List Int) : Except Exn TensorImpl := do
  throwIf t.qScales.isSome (.runtimeError
    "view: cannot view a per-channel quantized tensor (the per-channel quantization axis cannot be tracked)")
  let contiguous ← t.isContiguous
  throwIf (contiguous = false) (.runtimeError
    "View requires contiguous tensor. Use reshape() or contiguous() first.")
  let shape ← viewShape t.shape newShape
  let strides ← computeStrides shape
  return { t.copy with shape := shape, strides := strides, viewBase := t.baseFor self }

/-- Exchange two entries. -/
def swapAt {α : Type*} (l : List α) (i j : Nat) (default : α) : List α :=
  (l.set i (l.getD j default)).set j (l.getD i default)

/-- The quantization axis follows the exchanged dimensions. -/
def swapAxis (axis dim0 dim1 : Int) : Int :=
  if axis = dim0 then dim1 else if axis = dim1 then dim0 else axis

def transpose (dim0 dim1 : Int) : Except Exn TensorImpl := do
  let d0 := normalizeDim dim0 t.ndim
  let d1 := normalizeDim dim1 t.ndim
  throwIf (d0 < 0 ∨ t.ndim ≤ d0 ∨ d1 < 0 ∨ t.ndim ≤ d1)
    (.outOfRange "Dimension out of range for transpose")
  -- The two-dimensional case of the source does the same exchange.
  return { t.copy with
    shape := swapAt t.shape d0.toNat d1.toNat 0
    strides := swapAt t.strides d0.toNat d1.toNat 0
    qAxis := if t.qScales.isSome then swapAxis t.qAxis d0 d1 else t.qAxis
    viewBase := t.baseFor self }

/-- One round of the validation loop: range check, duplicate check, record. -/
def permuteStep (ndims : Int) (seen : List Int) (dim : Int) : Except Exn (List Int) := do
  let d := normalizeDim dim ndims
  throwIf (d < 0 ∨ ndims ≤ d) (.invalidArgument "Dimension out of range in permutation")
  throwIf (d ∈ seen) (.invalidArgument "Duplicate dimension in permutation")
  return seen ++ [d]

/-- The position the channel axis has moved to; unchanged when it is not listed. -/
def permuteAxis (dims : List Int) (axis : Int) : Int :=
  if axis ∈ dims then dims.idxOf axis else axis

def permute (dims : List Int) : Except Exn TensorImpl := do
  throwIf ((dims.length : Int) ≠ t.ndim)
    (.invalidArgument "Permutation must have same number of dimensions as tensor")
  let dims ← dims.foldlM (permuteStep t.ndim) []
  return { t.copy with
    shape := dims.map fun d => t.shape.getD d.toNat 0
    strides := dims.map fun d => t.strides.getD d.toNat 0
    qAxis := if t.qScales.isSome then permuteAxis dims t.qAxis else t.qAxis
    viewBase := t.baseFor self }

/-- Remove one axis of size one; any other axis leaves the handle unchanged. -/
def squeezeDim (dim : Int) : Except Exn ViewResult := do
  let d := normalizeDim dim t.ndim
  throwIf (d < 0 ∨ t.ndim ≤ d) (.outOfRange "Dimension out of range for squeeze")
  if t.shape.getD d.toNat 0 ≠ 1 then return .same
  else
    throwIf (t.qScales.isSome = true ∧ d = t.qAxis) (.runtimeError
      s!"squeeze: cannot squeeze the per-channel quantization axis (axis {d})")
    return .fresh { t.copy with
      shape := t.shape.eraseIdx d.toNat
      strides := t.strides.eraseIdx d.toNat
      names := t.names.map fun names => if d < names.length then names.eraseIdx d.toNat else names
      qAxis := if t.qScales.isSome ∧ d < t.qAxis then t.qAxis - 1 else t.qAxis
      viewBase := t.baseFor self }

def squeezeAll : Except Exn ViewResult := do
  throwIf (t.qScales.isSome = true ∧
      (t.qAxis < 0 ∨ t.ndim ≤ t.qAxis ∨ t.shape.getD t.qAxis.toNat 0 = 1))
    (.runtimeError "squeeze: cannot squeeze the per-channel quantization axis")
  return .fresh { t.copy with
    shape := dropOnes t.shape t.shape
    strides := dropOnes t.shape t.strides
    names := t.names.map fun names =>
      if names.length = t.shape.length then dropOnes t.shape names else names
    qAxis := if t.qScales.isSome then
        ((t.shape.take t.qAxis.toNat).filter fun n => n ≠ 1).length
      else t.qAxis
    viewBase := t.baseFor self }

def squeeze : Option Int → Except Exn ViewResult
  | some dim => t.squeezeDim self dim
  | none => t.squeezeAll self

/-- The stride of an inserted axis: the outer stride at that point when the
parent is contiguous, else the stride of the axis it pushes right. -/
def unsqueezeStride (contiguous : Bool) (d : Nat) : Int :=
  if d < t.shape.length then
    if contiguous then wrap64 (t.strides.getD d 0 * t.shape.getD d 0) else t.strides.getD d 0
  else 1

def unsqueeze (dim : Int) : Except Exn TensorImpl := do
  let d := normalizeDim dim (t.ndim + 1)
  throwIf (d < 0 ∨ t.ndim + 1 ≤ d) (.outOfRange "Dimension out of range for unsqueeze")
  let contiguous ← t.isContiguous
  return { t.copy with
    shape := t.shape.insertIdx d.toNat 1
    strides := t.strides.insertIdx d.toNat (t.unsqueezeStride contiguous d.toNat)
    names := t.names.map fun names =>
      if names.length = t.shape.length then names.insertIdx d.toNat none else names
    qAxis := if t.qScales.isSome ∧ d ≤ t.qAxis then t.qAxis + 1 else t.qAxis
    viewBase := t.baseFor self }

/-- One axis of the reach loop of `slice`, with its overflow tests. -/
def sliceReachStep (acc : Int × Int) (axis : Int × Int) : Except Exn (Int × Int) :=
  let size := axis.1
  let stride := axis.2
  if size ≤ 0 then .ok acc
  else
    let extent := size - 1
    if stride ≠ 0 ∧ extent.toNat > int64Max.toNat / safeAbs stride then
      .error (.overflowError "Slice offset computation overflows int64_t")
    else
      let delta := extent * stride
      if 0 ≤ delta then
        if acc.2 > int64Max - delta then
          .error (.overflowError "Slice offset computation overflows int64_t")
        else .ok (acc.1, acc.2 + delta)
      else if acc.1 < int64Min - delta then
        .error (.overflowError "Slice offset computation overflows int64_t")
      else .ok (acc.1 + delta, acc.2)

/-- `(end - start + step - 1) / step` in words. -/
def sliceSize (start stop step : Int) : Int :=
  (wrap64 (stop - start + step - 1)).tdiv step

def slice (dim start stop step : Int) : Except Exn TensorImpl := do
  let d := normalizeDim dim t.ndim
  throwIf (d < 0 ∨ t.ndim ≤ d) (.runtimeError "Dimension out of range for slice")
  let dimSize := t.shape.getD d.toNat 0
  let start := normalizeDim start dimSize
  let stop := normalizeDim stop dimSize
  throwIf (start < 0 ∨ dimSize < start) (.runtimeError
    s!"Slice start index {start} out of bounds for dimension with size {dimSize}")
  throwIf (stop < 0 ∨ dimSize < stop) (.runtimeError
    s!"Slice end index {stop} out of bounds for dimension with size {dimSize}")
  throwIf (stop < start) (.runtimeError
    s!"Slice start index {start} greater than end index {stop}")
  throwIf (step ≤ 0) (.runtimeError "Step must be positive")
  let stride := t.strides.getD d.toNat 0
  let displacement ← checkedMul start stride
  let offset ← checkedAdd t.offset displacement
  let shape := t.shape.set d.toNat (sliceSize start stop step)
  let strides := if step ≠ 1 then t.strides.set d.toNat (wrap64 (stride * step)) else t.strides
  let (low, high) ← (shape.zip strides).foldlM sliceReachStep (offset, offset)
  let count := shape.foldl (fun r n => wrap64 (r * n)) 1
  throwIf (0 < count ∧ (low < 0 ∨ wrap64 t.storageElements ≤ high))
    (.outOfRange "Slice offset exceeds storage bounds")
  return { t.copy with
    shape := shape, strides := strides, offset := offset, viewBase := t.baseFor self }

/-- `operator[]`: a slice of length one along the first axis, then squeezed. -/
def index (idx : Int) : Except Exn ViewResult := do
  throwIf (t.ndim = 0) (.runtimeError "Cannot index 0D scalar tensor")
  let size := t.shape.getD 0 0
  let i := normalizeDim idx size
  throwIf (i < 0 ∨ size ≤ i) (.runtimeError
    s!"Index {idx} is out of bounds for dimension 0 with size {size}")
  let row ← t.slice self 0 i (i + 1) 1
  let result ← row.squeezeDim self 0
  return .fresh (result.impl row)

/-- The reach loop of `as_strided` from axis `d` on: lowest and highest element
number and whether some size is zero. Nothing here is checked for overflow. -/
def asStridedReach (d : Nat) (low high : Int) (empty : Bool) :
    List (Int × Int) → Except Exn (Int × Int × Bool)
  | [] => .ok (low, high, empty)
  | (size, stride) :: axes =>
    if size < 0 then
      .error (.outOfRange s!"as_strided: sizes must be non-negative (got {size} at dim {d})")
    else if size = 0 then asStridedReach (d + 1) low high true axes
    else
      let extent := wrap64 ((size - 1) * stride)
      if 0 ≤ extent then asStridedReach (d + 1) low (wrap64 (high + extent)) empty axes
      else asStridedReach (d + 1) (wrap64 (low + extent)) high empty axes

/-- An unsigned 64-bit reading of a word, for the comparison with `size_t`. -/
def asSizeT (x : Int) : Int := x % 18446744073709551616

def asStrided (size stride : List Int) (storageOffset : Option Int) :
    Except Exn TensorImpl := do
  throwIf (size.length ≠ stride.length) (.invalidArgument
    s!"as_strided: size and stride must have the same length (got {size.length} vs {stride.length})")
  let offset := storageOffset.getD t.offset
  throwIf (offset < 0) (.outOfRange
    s!"as_strided: storage_offset must be non-negative (got {offset})")
  let (low, high, empty) ← asStridedReach 0 offset offset false (size.zip stride)
  throwIf (empty = false ∧ (low < 0 ∨ (t.storageElements : Int) ≤ asSizeT high)) (.outOfRange
    s!"as_strided: requested view spans elements [{low}, {high}] which is outside storage of {t.storageElements} elements")
  -- The three internal mutators each bump the version of the new impl.
  return { t.copy with
    shape := size, strides := stride, offset := offset
    version := (t.version + 3) % 18446744073709551616 }

def unfold (dim size step : Int) : Except Exn TensorImpl := do
  let d := normalizeDim dim t.ndim
  throwIf (d < 0 ∨ t.ndim ≤ d) (.outOfRange
    s!"unfold: dim {d} out of range for {t.ndim}D tensor")
  let dimSize := t.shape.getD d.toNat 0
  throwIf (size ≤ 0 ∨ dimSize < size)
    (.invalidArgument s!"unfold: size must be in (0, {dimSize}]")
  throwIf (step ≤ 0) (.invalidArgument "unfold: step must be > 0")
  let stride := t.strides.getD d.toNat 0
  t.asStrided (t.shape.set d.toNat ((dimSize - size).tdiv step + 1) ++ [size])
    (t.strides.set d.toNat (wrap64 (stride * step)) ++ [stride]) (some t.offset)

/-- Shared storage and geometry, no gradient flag. -/
def detach : TensorImpl :=
  { t.copy with requiresGrad := false, viewBase := t.baseFor self }

/-- The integer reading of a quantized tensor, in a freshly constructed impl. -/
def intRepr : Except Exn TensorImpl := do
  throwIf (isQuantized t.dtype = false)
    (.runtimeError "int_repr() called on non-quantized tensor")
  throwIf (t.dtype = .qint4x2) (.runtimeError
    "int_repr(): unsupported quantized dtype — QInt4x2 packed layout is not exposed via int_repr; use dequantize() then requantize if needed")
  return {
    storage := t.storage, shape := t.shape, strides := t.strides, offset := t.offset
    dtype := if t.dtype = .quint8 then .uint8 else .int8
    device := t.device, viewBase := t.baseFor self }

end TensorImpl

/-- A view operation with its arguments. -/
inductive ViewOp
  | view (newShape : List Int)
  | transpose (dim0 dim1 : Int)
  | permute (dims : List Int)
  | squeeze (dim : Option Int)
  | unsqueeze (dim : Int)
  | slice (dim start stop step : Int)
  | index (idx : Int)
  | asStrided (size stride : List Int) (storageOffset : Option Int)
  | unfold (dim size step : Int)
  | detach
  | intRepr

/-- Run one view operation on the tensor at address `self`. -/
def ViewOp.apply (self : TensorId) (t : TensorImpl) : ViewOp → Except Exn ViewResult
  | .view newShape => .fresh <$> t.view self newShape
  | .transpose dim0 dim1 => .fresh <$> t.transpose self dim0 dim1
  | .permute dims => .fresh <$> t.permute self dims
  | .squeeze dim => t.squeeze self dim
  | .unsqueeze dim => .fresh <$> t.unsqueeze self dim
  | .slice dim start stop step => .fresh <$> t.slice self dim start stop step
  | .index idx => t.index self idx
  | .asStrided size stride storageOffset => .fresh <$> t.asStrided size stride storageOffset
  | .unfold dim size step => .fresh <$> t.unfold dim size step
  | .detach => .ok (.fresh (t.detach self))
  | .intRepr => .fresh <$> t.intRepr self

end Tenzor
