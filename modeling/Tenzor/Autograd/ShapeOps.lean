import Mathlib.Algebra.BigOperators.Intervals
import Tenzor.Core.Views
import Tenzor.Lib.Reindexing

/-!
# Shape and index operations on tensors

A tensor is a shape with one exact number for each multi-index. Views are read through the index
map of their strides; kernels that loop over flat positions loop over the multi-indices in
row-major order.

## Implementation notes

Strides, storage and devices are left out, and with them the checks that a view stays inside its
storage. Sums and products of the arguments do not overflow. A new tensor is made by `make`, also
for a view, where its check cannot fail.
-/

namespace Tenzor.ShapeOps

open Strided Reindexing Throwing

structure Tensor (R : Type) where
  shape : List Int
  value : List Int → R
  shape_nonneg : ∀ n ∈ shape, 0 ≤ n

/-- A tensor of integers that is used as an index. -/
structure Index where
  dtype : DType
  entries : Tensor Int

namespace Tensor

variable {R : Type} (t : Tensor R)

def ndim : Int := t.shape.length

def numel : Int := t.shape.prod

/-- The size of the axis at a dimension that has been normalized. -/
def size (d : Int) : Int := t.shape.getD d.toNat 0

/-- The element at a flat position. -/
def flat (k : Int) : R := t.value (unravel t.shape k)

/-- The constructor of `TensorImpl`. -/
def make (shape : List Int) (value : List Int → R) : Except Exn (Tensor R) :=
  if h : ∀ n ∈ shape, 0 ≤ n then .ok ⟨shape, value, h⟩
  else .error (.invalidArgument "Tensor: shape dimensions must be non-negative")

def zeros [Zero R] (shape : List Int) : Except Exn (Tensor R) := make shape fun _ => 0

/-- The product of the sizes that are given. At most one is left to infer. -/
def scanShape : Bool → List Int → Except Exn Int
  | _, [] => .ok 1
  | inferred, n :: shape =>
    if n = -1 then
      if inferred then .error (.runtimeError "Only one dimension can be inferred")
      else scanShape true shape
    else if n < 0 then .error (.runtimeError s!"Invalid shape dimension: {n}")
    else do
      let total ← scanShape inferred shape
      return n * total

def reshape (newShape : List Int) : Except Exn (Tensor R) := do
  let total ← scanShape false newShape
  let shape ← (if -1 ∈ newShape then do
      throwIf (total = 0)
        (.runtimeError "Cannot infer dimension: product of known dimensions is zero")
      throwIf (t.numel.tmod total ≠ 0) (.runtimeError "Cannot infer dimension")
      return newShape.map fun n => if n = -1 then t.numel.tdiv total else n
    else do
      throwIf (total ≠ t.numel) (.invalidArgument
        s!"Shape incompatible with number of elements: trying to reshape {t.shape} (numel={t.numel}) to {newShape} (total={total})")
      return newShape)
  make shape fun c => t.flat (dot c (rowMajor shape))

def transpose (dim0 dim1 : Int) : Except Exn (Tensor R) := do
  let d0 := normalizeDim dim0 t.ndim
  let d1 := normalizeDim dim1 t.ndim
  throwIf (d0 < 0 ∨ t.ndim ≤ d0 ∨ d1 < 0 ∨ t.ndim ≤ d1)
    (.outOfRange "Dimension out of range for transpose")
  make (TensorImpl.swapAt t.shape d0.toNat d1.toNat 0)
    fun c => t.value (TensorImpl.swapAt c d0.toNat d1.toNat 0)

def permute (dims : List Int) : Except Exn (Tensor R) := do
  throwIf ((dims.length : Int) ≠ t.ndim)
    (.invalidArgument "Permutation must have same number of dimensions as tensor")
  let dims ← dims.foldlM (TensorImpl.permuteStep t.ndim) []
  let pos := dims.map Int.toNat
  make (Strided.gather pos t.shape) fun c => t.value (Strided.scatter pos c)

/-- Remove one axis of size one; a tensor with another axis there is returned as it is. -/
def squeezeDim (outOfRange : String) (dim : Int) : Except Exn (Tensor R) := do
  let d := normalizeDim dim t.ndim
  throwIf (d < 0 ∨ t.ndim ≤ d) (.outOfRange outOfRange)
  if t.size d ≠ 1 then return t
  else make (t.shape.eraseIdx d.toNat) fun c => t.value (c.insertIdx d.toNat 0)

/-- `Tensor::squeeze` of a dimension. -/
def squeeze : Int → Except Exn (Tensor R) := t.squeezeDim "Dimension out of range for squeeze"

/-- Sentinel of the kernel for "every axis of size one". -/
def squeezeAll : Int := -9223372036854775808

def squeezeKernel (dim : Int) : Except Exn (Tensor R) :=
  if dim ≠ squeezeAll then t.squeezeDim "squeeze: dim out of range" dim
  else
    let shape := dropOnes t.shape t.shape
    if shape = [] then make [1] fun _ => t.value (restoreOnes t.shape [])
    else make shape fun c => t.value (restoreOnes t.shape c)

def unsqueezeDim (outOfRange : String) (dim : Int) : Except Exn (Tensor R) := do
  let d := normalizeDim dim (t.ndim + 1)
  throwIf (d < 0 ∨ t.ndim < d) (.outOfRange outOfRange)
  make (t.shape.insertIdx d.toNat 1) fun c => t.value (c.eraseIdx d.toNat)

/-- `Tensor::unsqueeze`. -/
def unsqueeze : Int → Except Exn (Tensor R) :=
  t.unsqueezeDim "Dimension out of range for unsqueeze"

def unsqueezeKernel : Int → Except Exn (Tensor R) := t.unsqueezeDim "unsqueeze: dim out of range"

def slice (dim start stop step : Int) : Except Exn (Tensor R) := do
  let d := normalizeDim dim t.ndim
  throwIf (d < 0 ∨ t.ndim ≤ d) (.runtimeError "Dimension out of range for slice")
  let first := normalizeDim start (t.size d)
  let last := normalizeDim stop (t.size d)
  throwIf (first < 0 ∨ t.size d < first) (.runtimeError
    s!"Slice start index {first} out of bounds for dimension with size {t.size d}")
  throwIf (last < 0 ∨ t.size d < last) (.runtimeError
    s!"Slice end index {last} out of bounds for dimension with size {t.size d}")
  throwIf (last < first) (.runtimeError
    s!"Slice start index {first} greater than end index {last}")
  throwIf (step ≤ 0) (.runtimeError "Step must be positive")
  make (t.shape.set d.toNat ((last - first + step - 1).tdiv step))
    fun c => t.value (c.set d.toNat (first + c.getD d.toNat 0 * step))

def flatten (startDim endDim : Int) : Except Exn (Tensor R) :=
  if t.ndim = 0 then t.reshape [1]
  else do
    let first := normalizeDim startDim t.ndim
    let last := normalizeDim endDim t.ndim
    throwIf (first < 0 ∨ t.ndim ≤ first) (.runtimeError "start_dim out of range")
    throwIf (last < 0 ∨ t.ndim ≤ last) (.runtimeError "end_dim out of range")
    throwIf (last < first) (.invalidArgument "start_dim must be <= end_dim")
    let middle := (t.shape.take (last.toNat + 1)).drop first.toNat
    t.reshape (t.shape.take first.toNat ++ middle.prod :: t.shape.drop (last.toNat + 1))

/-- The multi-index of one input below an element of the concatenation. -/
def catValue [Zero R] (d : ℕ) : List (Tensor R) → List Int → R
  | [], _ => 0
  | t :: ts, c =>
    if c.getD d 0 < t.shape.getD d 0 then t.value c
    else catValue d ts (c.set d (c.getD d 0 - t.shape.getD d 0))

def cat [Zero R] : List (Tensor R) → Int → Except Exn (Tensor R)
  | [], _ => .error (.runtimeError "Cannot concatenate empty tensor list")
  | [t], _ => .ok t
  | t :: ts, dim => do
      let d := normalizeDim dim t.ndim
      throwIf (d < 0 ∨ t.ndim ≤ d) (.runtimeError "Dimension out of range for concatenation")
      forM (t :: ts) fun u => do
        throwIf (u.shape.length ≠ t.shape.length)
          (.runtimeError "All tensors must have the same number of dimensions")
        throwIf (∃ i < t.shape.length, i ≠ d.toNat ∧ u.shape.getD i 0 ≠ t.shape.getD i 0)
          (.runtimeError
            "All tensors must have the same shape except in the concatenation dimension")
      make (t.shape.set d.toNat (((t :: ts).map fun u => u.size d).sum)) (catValue d.toNat (t :: ts))

def expand (shape : List Int) : Except Exn (Tensor R) := do
  throwIf (shape.length < t.shape.length)
    (.runtimeError "Expanded shape must have at least as many dimensions as input")
  let offset := shape.length - t.shape.length
  let shape ← shape.zipIdx.mapM fun p =>
    if p.1 = -1 then
      if p.2 < offset then .error (.runtimeError
        "expand: the expanded size of the tensor (-1) isn't allowed in a leading (new) dimension")
      else .ok (t.shape.getD (p.2 - offset) 0)
    else .ok p.1
  forM shape.zipIdx fun p =>
    throwIf (offset ≤ p.2 ∧ t.shape.getD (p.2 - offset) 0 ≠ 1 ∧
        t.shape.getD (p.2 - offset) 0 ≠ p.1)
      (.runtimeError "Cannot expand dimension from non-1 size to different size")
  if shape = t.shape then return t
  else
    make shape fun c =>
      t.value (List.zipWith (fun n i => if n = 1 then 0 else i) t.shape (c.drop offset))

def repeatKernel (repeats : List Int) : Except Exn (Tensor R) :=
  make (List.zipWith (fun n r => n * r) t.shape repeats)
    fun c => t.value (List.zipWith (fun n i => i.tmod n) t.shape c)

/-- `repeat`. -/
def tileBy (repeats : List Int) : Except Exn (Tensor R) := do
  throwIf (∃ r ∈ repeats, r < 0) (.runtimeError "repeat: repeats cannot be negative")
  let padded ← (List.range (repeats.length - t.shape.length)).foldlM
    (fun padded _ => padded.unsqueeze 0) t
  padded.repeatKernel (List.replicate (padded.shape.length - repeats.length) 1 ++ repeats)

def roll (shifts dim : Int) : Except Exn (Tensor R) := do
  let d := normalizeDim dim t.ndim
  throwIf (d < 0 ∨ t.ndim ≤ d) (.runtimeError "Dimension out of range for roll")
  let n := t.size d
  if n = 0 then return t
  else
    let shift := normalizeDim (shifts.tmod n) n
    if shift = 0 then return t
    else make t.shape fun c =>
      t.value (c.set d.toNat ((c.getD d.toNat 0 - shift + n).tmod n))

/-- The multi-index with the listed axes reversed. -/
def flipIndex (shape dims c : List Int) : List Int :=
  (List.range shape.length).map fun i : ℕ =>
    if (i : Int) ∈ dims then shape.getD i 0 - 1 - c.getD i 0 else c.getD i 0

def flipDim (dim : Int) : Except Exn Int := do
  let d := normalizeDim dim t.ndim
  throwIf (d < 0 ∨ t.ndim ≤ d)
    (.runtimeError s!"flip: dimension {d} out of range for {t.ndim}D tensor")
  return d

/-- The kernel is registered to reverse the first axis when it is given none. -/
def orFirst (dims : List Int) : List Int := if dims = [] then [0] else dims

def flipKernel (dims : List Int) : Except Exn (Tensor R) := do
  let dims ← (orFirst dims).mapM t.flipDim
  make t.shape fun c => t.value (flipIndex t.shape dims c)

def flip (dims : List Int) : Except Exn (Tensor R) := do
  let dims ← dims.mapM t.flipDim
  t.flipKernel dims

end Tensor

/-- `validate_and_cast_index`. -/
def Index.validateAndCast (index : Index) (op : String) : Except Exn (Tensor Int) := do
  throwIf (index.dtype ≠ .int32 ∧ index.dtype ≠ .int64)
    (.invalidArgument s!"{op}: index must be Int32 or Int64, got {dtypeName index.dtype}")
  return index.entries

/-- The dimension of an indexing operation, from the front. -/
def indexedDim (op : String) (dim ndim : Int) : Except Exn Int := do
  let d := normalizeDim dim ndim
  throwIf (d < 0 ∨ ndim ≤ d) (.outOfRange s!"{op}: dim out of range")
  return d

def validateIndexWithinInput (op : String) (inputShape indexShape : List Int) (d : Int) :
    Except Exn Unit :=
  forM indexShape.zipIdx fun p =>
    throwIf ((p.2 : Int) ≠ d ∧ inputShape.getD p.2 0 < p.1) (.outOfRange
      s!"{op}: index.size({p.2})={p.1} exceeds self.size({p.2})={inputShape.getD p.2 0} (index extent must be <= input extent on non-scatter/gather dims)")

/-- Every entry of the index is a position of the axis, from the front or the end. -/
def validateIndices (op : String) (index : Tensor Int) (d n : Int) : Except Exn Unit :=
  forM (coordinates index.shape) fun c =>
    throwIf (normalizeDim (index.value c) n < 0 ∨ n ≤ normalizeDim (index.value c) n) (.outOfRange
      s!"{op}: index {index.value c} out of range for dimension {d} with size {n}")

/-- Where the element of the index points. -/
def target (index : Tensor Int) (d n : Int) (c : List Int) : List Int :=
  c.set d.toNat (normalizeDim (index.value c) n)

namespace Tensor

variable {R : Type} (t : Tensor R)

def gather (dim : Int) (index : Index) : Except Exn (Tensor R) := do
  let index ← index.validateAndCast "gather"
  let d ← indexedDim "gather" dim t.ndim
  throwIf (t.shape.length ≠ index.shape.length)
    (.invalidArgument "gather: input and index must have same number of dimensions")
  validateIndexWithinInput "gather" t.shape index.shape d
  validateIndices "gather" index d (t.size d)
  make index.shape fun c => t.value (target index d (t.size d) c)

/-- The checks that `scatter` and `scatter_add` share. -/
def validateScatter (op : String) (dim : Int) (index : Index) (src : Tensor R) :
    Except Exn (Tensor Int × Int) := do
  let index ← index.validateAndCast op
  let d ← indexedDim op dim t.ndim
  throwIf (index.shape ≠ src.shape)
    (.invalidArgument s!"{op}: index and src must have the same shape")
  throwIf (t.shape.length ≠ index.shape.length)
    (.invalidArgument s!"{op}: input and index must have same number of dimensions")
  validateIndexWithinInput op t.shape index.shape d
  validateIndices op index d (t.size d)
  return (index, d)

def scatter (dim : Int) (index : Index) (src : Tensor R) : Except Exn (Tensor R) := do
  let (index, d) ← t.validateScatter "scatter" dim index src
  make t.shape ((coordinates index.shape).foldl
    (fun out c => Function.update out (target index d (t.size d) c) (src.value c)) t.value)

def scatterAdd [Add R] (dim : Int) (index : Index) (src : Tensor R) : Except Exn (Tensor R) := do
  let (index, d) ← t.validateScatter "scatter_add" dim index src
  make t.shape ((coordinates index.shape).foldl
    (fun out c => Function.update out (target index d (t.size d) c)
      (out (target index d (t.size d) c) + src.value c)) t.value)

/-- The entries of the index are read in row-major order, whatever its rank. -/
def indexSelect [Zero R] (dim : Int) (index : Index) : Except Exn (Tensor R) := do
  let index ← index.validateAndCast "index_select"
  let d ← indexedDim "index_select" dim t.ndim
  let shape := t.shape.set d.toNat index.numel
  if index.numel = 0 then zeros shape
  else do
    forM (List.range index.numel.toNat) fun k : ℕ =>
      throwIf (normalizeDim (index.flat (k : Int)) (t.size d) < 0 ∨
          t.size d ≤ normalizeDim (index.flat (k : Int)) (t.size d))
        (.outOfRange "index_select: index out of range")
    make shape fun c =>
      t.value (c.set d.toNat (normalizeDim (index.flat (c.getD d.toNat 0)) (t.size d)))

def sum [AddCommMonoid R] (dim : Int) (keepdim : Bool) : Except Exn (Tensor R) := do
  let d ← indexedDim "sum" dim t.ndim
  if keepdim then
    make (t.shape.set d.toNat 1) fun c =>
      ∑ i ∈ Finset.range (t.size d).toNat, t.value (c.set d.toNat (i : Int))
  else
    make (t.shape.eraseIdx d.toNat) fun c =>
      ∑ i ∈ Finset.range (t.size d).toNat, t.value (c.insertIdx d.toNat (i : Int))

end Tensor

end Tenzor.ShapeOps
