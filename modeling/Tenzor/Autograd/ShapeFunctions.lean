import Tenzor.Autograd.ShapeOps

/-!
# Backward functions of the shape and index operations

Each tracked operation computes its result and a function that carries what the backward needs:
the arguments, as they were given or normalized, and the shape of the input. The function has two
versions of its backward. One is over tensors; the other is built from tracked operations again,
so that its result can be differentiated.

## Implementation notes

The backward over variables is modelled by the values it computes. A copy of a variable multiplies
it by one.
-/

namespace Tenzor.ShapeOps

open Strided Throwing List

namespace Tensor

variable {R : Type} (t : Tensor R)

/-- `clone` of a variable. -/
def clone [MulOneClass R] : Tensor R := { t with value := fun c => t.value c * 1 }

/-- The first axis summed out a number of times. -/
def sumLeading [AddCommMonoid R] (k : ℕ) : Except Exn (Tensor R) :=
  (List.range k).foldlM (fun result _ => result.sum 0 false) t

/-- `reduce_grad_for_broadcasting` and `reduce_grad_var_for_broadcasting`. -/
def reduceGrad [AddCommMonoid R] (name : String) (target : List Int) : Except Exn (Tensor R) :=
  if t.shape = target then return t
  else if t.numel = 0 then t.reshape target
  else if target = [] then t.sumLeading t.shape.length
  else do
    throwIf (t.shape.length < target.length) (.runtimeError
      s!"Autograd bug: gradient has fewer dimensions ({t.shape.length}) than target shape ({target.length})")
    let result ← t.sumLeading (t.shape.length - target.length)
    let result ← (List.range target.length).foldlM (fun result (i : ℕ) =>
      if target.getD i 0 = 1 ∧ 1 < result.shape.getD i 0 then result.sum i true
      else return result) result
    let result ← (if result.shape ≠ target then result.reshape target else return result)
    throwIf (result.shape ≠ target)
      (.runtimeError s!"Autograd bug: {name} failed to produce target shape")
    return result

def reduceGradForBroadcasting [AddCommMonoid R] : List Int → Except Exn (Tensor R) :=
  t.reduceGrad "reduce_grad_for_broadcasting"

def reduceGradVarForBroadcasting [AddCommMonoid R] : List Int → Except Exn (Tensor R) :=
  t.reduceGrad "reduce_grad_var_for_broadcasting"

end Tensor

/-- The index tensor that is filled at each flat position from the position along one axis. -/
def axisIndex (shape : List Int) (dim : Int) (entry : Int → Int) : Except Exn Index := do
  let stride := (shape.drop (dim.toNat + 1)).prod
  let entries ← Tensor.make shape fun c =>
    entry (((dot c (rowMajor shape)).tdiv stride).tmod (shape.getD dim.toNat 0))
  return ⟨.int64, entries⟩

/-- A shape or a list of repeats with ones in front. -/
def padFront (rank : ℕ) (l : List Int) : List Int := List.replicate (rank - l.length) 1 ++ l

/-- The constructor of `PermuteBackward`. -/
def inverseDims (dims : List Int) : Except Exn (List Int) :=
  dims.zipIdx.foldlM (fun inv p => do
    let d := normalizeDim p.1 dims.length
    throwIf (d < 0 ∨ (dims.length : Int) ≤ d)
      (.outOfRange "PermuteBackward: permutation dim out of range")
    return inv.set d.toNat (p.2 : Int)) (List.replicate dims.length 0)

structure SliceIndexKey where
  shape : List Int
  dim : Int
  start : Int
  stop : Int
  step : Int
  deriving DecidableEq

def SliceIndexKey.build (key : SliceIndexKey) : Except Exn Index :=
  axisIndex key.shape key.dim fun pos => key.start + pos * key.step

def sliceIndexCacheMax : ℕ := 256

/-- The cached index tensors, the most recently used first. -/
structure SliceIndexCache where
  entries : List (SliceIndexKey × Index)
  built : ∀ entry ∈ entries, entry.1.build = .ok entry.2
  length_le : entries.length ≤ sliceIndexCacheMax

namespace SliceIndexCache

variable (cache : SliceIndexCache)

/-- Move the entry of a key to the front. -/
def promote (entry : SliceIndexKey × Index) (h : entry ∈ cache.entries) : SliceIndexCache where
  entries := entry :: cache.entries.eraseP fun e => e.1 = entry.1
  built := by
    intro e he
    rcases mem_cons.mp he with rfl | he
    · exact cache.built e h
    · exact cache.built e (mem_of_mem_eraseP he)
  length_le := by
    have hlen := length_eraseP_of_mem (p := fun e => decide (e.1 = entry.1)) h (by simp)
    have hpos := length_pos_of_mem h
    have hmax := cache.length_le
    simp only [length_cons]
    omega

/-- Put a new entry in front, after the least recently used ones have made room for it. -/
def insert (key : SliceIndexKey) (index : Index) (h : key.build = .ok index) :
    SliceIndexCache where
  entries := (key, index) :: cache.entries.take (sliceIndexCacheMax - 1)
  built := by
    intro e he
    rcases mem_cons.mp he with rfl | he
    · exact h
    · exact cache.built e (mem_of_mem_take he)
  length_le := by
    have hmax : 0 < sliceIndexCacheMax := by decide
    simp only [length_cons, length_take]
    omega

/-- `get_or_build_slice_index`. -/
def getOrBuild (key : SliceIndexKey) : Except Exn (Index × SliceIndexCache) :=
  match hfind : cache.entries.find? fun e => e.1 = key with
  | some entry => .ok (entry.2, cache.promote entry (mem_of_find?_eq_some hfind))
  | none =>
    match hbuild : key.build with
    | .ok index => .ok (index, cache.insert key index hbuild)
    | .error e => .error e

end SliceIndexCache

/-- The function behind a result, with what it has saved. -/
inductive GradFn
  | reshape (inputShape : List Int)
  | permute (invDims : List Int)
  | transpose (dim0 dim1 : Int)
  | roll (shifts : Int64) (dim : Int)
  | squeeze (dim : Int)
  | unsqueeze (dim : Int)
  | flatten (inputShape : List Int)
  | cat (splitSizes : List Int) (dim : Int)
  | slice (inputShape : List Int) (dim start stop step : Int)
  | narrow (dim start : Int) (inputShape : List Int)
  | expand (inputShape : List Int)
  | tileBy (inputShape repeats : List Int)
  | flip (dims : List Int)
  | gather (dim : Int) (index : Index) (inputShape : List Int)
  | scatterAdd (dim : Int) (index : Index)
  | indexSelect (dim : Int) (index : Index) (inputShape : List Int)

/-- A result with its function. -/
abbrev Tracked (R : Type) := Tensor R × GradFn

namespace Tracked

variable {R : Type}

def reshape (input : Tensor R) (shape : List Int) : Except Exn (Tracked R) := do
  let result ← input.reshape shape
  return (result, .reshape input.shape)

def permute (input : Tensor R) (dims : List Int) : Except Exn (Tracked R) := do
  let invDims ← inverseDims dims
  let result ← input.permute dims
  return (result, .permute invDims)

def transpose (input : Tensor R) (dim0 dim1 : Int) : Except Exn (Tracked R) := do
  let result ← input.transpose dim0 dim1
  return (result, .transpose dim0 dim1)

def roll (input : Tensor R) (shifts : Int64) (dim : Int) : Except Exn (Tracked R) := do
  let result ← input.roll shifts.toInt dim
  return (result, .roll shifts (normalizeDim dim input.ndim))

/-- The constructor of `SqueezeBackward`. -/
def squeezeBackward (dim inputNdim : Int) : GradFn :=
  .squeeze (if dim < 0 ∧ 0 < inputNdim then dim + inputNdim else dim)

def squeeze (input : Tensor R) (dim : Int) : Except Exn (Tracked R) := do
  let normDim := normalizeDim dim input.ndim
  let result ← input.squeezeKernel normDim
  return (result, squeezeBackward normDim input.ndim)

def unsqueeze (input : Tensor R) (dim : Int) : Except Exn (Tracked R) := do
  let result ← input.unsqueezeKernel dim
  return (result, .unsqueeze dim)

def flatten (input : Tensor R) (startDim endDim : Int) : Except Exn (Tracked R) := do
  let result ← input.flatten startDim endDim
  return (result, .flatten input.shape)

/-- The sizes are read before the concatenation checks its inputs. -/
def cat [Zero R] (inputs : List (Tensor R)) (dim : Int) : Except Exn (Tracked R) := do
  let d := match inputs with
    | [] => dim
    | input :: _ => normalizeDim dim input.ndim
  let splitSizes ← inputs.mapM fun input => do
    throwIf (d < 0 ∨ input.ndim ≤ d) (.outOfRange "shape()[dim]")
    return input.size d
  let result ← Tensor.cat inputs d
  return (result, .cat splitSizes d)

def slice (input : Tensor R) (dim start stop step : Int) : Except Exn (Tracked R) := do
  let d := normalizeDim dim input.ndim
  throwIf (d < 0 ∨ input.ndim ≤ d) (.outOfRange "slice: dim out of range")
  let result ← input.slice d start stop step
  return (result, .slice input.shape d start stop step)

def narrow (input : Tensor R) (dim start length : Int) : Except Exn (Tracked R) := do
  let d := normalizeDim dim input.ndim
  throwIf (d < 0 ∨ input.ndim ≤ d) (.outOfRange "narrow: dim out of range")
  let result ← input.slice d start (start + length) 1
  return (result, .narrow d start input.shape)

def expand (input : Tensor R) (shape : List Int) : Except Exn (Tracked R) := do
  let result ← input.expand shape
  return (result, .expand input.shape)

/-- `repeat`. -/
def tileBy (input : Tensor R) (repeats : List Int) : Except Exn (Tracked R) := do
  let result ← input.tileBy repeats
  return (result, .tileBy input.shape repeats)

def flip (input : Tensor R) (dims : List Int) : Except Exn (Tracked R) := do
  let result ← input.flip dims
  return (result, .flip dims)

def gather (input : Tensor R) (dim : Int) (index : Index) : Except Exn (Tracked R) := do
  let result ← input.gather dim index
  return (result, .gather dim index input.shape)

def scatterAdd [Add R] (input : Tensor R) (dim : Int) (index : Index) (src : Tensor R) :
    Except Exn (Tracked R) := do
  let result ← input.scatterAdd dim index src
  return (result, .scatterAdd dim index)

def indexSelect [Zero R] (input : Tensor R) (dim : Int) (index : Index) :
    Except Exn (Tracked R) := do
  let result ← input.indexSelect dim index
  return (result, .indexSelect dim index input.shape)

end Tracked

/-- `data<int64_t>()` of an index. -/
def Index.dataInt64 (index : Index) : Except Exn (Tensor Int) := do
  throwIf (index.dtype ≠ .int64)
    (.runtimeError
      s!"Type mismatch: requested type does not match tensor dtype (expected {dtypeName index.dtype})")
  return index.entries

/-- The shape of the gradient whose repeated axes are cut in two. -/
def interleave (repeats shape : List Int) : List Int :=
  (List.zipWith (fun r n => [r, n]) repeats shape).flatten

namespace GradFn

variable {R : Type} [CommSemiring R]

/-- One slice of the gradient for each input of a concatenation. -/
def catSlices (slice : Int → Int → Except Exn (Tensor R)) :
    Int → List Int → Except Exn (List (Tensor R))
  | _, [] => return []
  | offset, splitSize :: splitSizes => do
      let gradSlice ← slice offset (offset + splitSize)
      let rest ← catSlices slice (offset + splitSize) splitSizes
      return gradSlice :: rest

def backward (grad : Tensor R) : GradFn → Except Exn (List (Tensor R))
  | .reshape inputShape => do
      return [← grad.reshape inputShape]
  | .permute invDims => do
      return [← grad.permute invDims]
  | .transpose dim0 dim1 => do
      return [← grad.transpose dim0 dim1]
  | .roll shifts dim => do
      return [← grad.roll (-shifts).toInt dim]
  | .squeeze dim => do
      return [← grad.unsqueeze dim]
  | .unsqueeze dim => do
      return [← grad.squeeze dim]
  | .flatten inputShape => do
      return [← grad.reshape inputShape]
  | .cat splitSizes dim => catSlices (fun first last => grad.slice dim first last 1) 0 splitSizes
  | .slice inputShape dim start _ step => do
      let d := normalizeDim dim inputShape.length
      let zeros ← Tensor.zeros inputShape
      let index ← axisIndex grad.shape d fun pos => start + pos * step
      return [← zeros.scatter d index grad]
  | .narrow dim start inputShape => do
      let d := normalizeDim dim grad.ndim
      let zeros ← Tensor.zeros inputShape
      let index ← axisIndex grad.shape d fun pos => start + pos
      return [← zeros.scatter d index grad]
  | .expand inputShape => do
      return [← grad.reduceGradForBroadcasting inputShape]
  | .tileBy inputShape repeats => do
      let rank := max repeats.length inputShape.length
      let result ← grad.reshape (interleave (padFront rank repeats) (padFront rank inputShape))
      let result ← (List.range rank).reverse.foldlM
        (fun result (i : ℕ) => result.sum (2 * i) false) result
      return [← result.reshape inputShape]
  | .flip dims => do
      return [← grad.flip dims]
  | .gather dim index inputShape => do
      let zeros ← Tensor.zeros inputShape
      return [← zeros.scatterAdd (normalizeDim dim inputShape.length) index grad]
  | .scatterAdd dim index => do
      return [grad, ← grad.gather (normalizeDim dim grad.ndim) index]
  | .indexSelect dim index inputShape => do
      let zeros ← Tensor.zeros inputShape
      let d := normalizeDim dim grad.ndim
      let index ← index.dataInt64
      let fullIndex ← axisIndex grad.shape d index.flat
      return [← zeros.scatterAdd d fullIndex grad]

/-- The value of a tracked operation. -/
def valueOf (tracked : Except Exn (Tracked R)) : Except Exn (Tensor R) := Prod.fst <$> tracked

/-- The cache of slice indices is read and filled by the function of a slice only. -/
def backwardWithVariables (cache : SliceIndexCache) (grad : Tensor R) :
    GradFn → Except Exn (List (Tensor R) × SliceIndexCache)
  | .reshape inputShape => do
      let result ← valueOf (Tracked.reshape grad inputShape)
      return ([result.clone], cache)
  | .permute invDims => do
      let result ← valueOf (Tracked.permute grad invDims)
      return ([result.clone], cache)
  | .transpose dim0 dim1 => do
      let result ← valueOf (Tracked.transpose grad dim0 dim1)
      return ([result.clone], cache)
  | .roll shifts dim => do
      return ([← valueOf (Tracked.roll grad (-shifts) dim)], cache)
  | .squeeze dim => do
      let d := normalizeDim dim (grad.ndim + 1)
      throwIf (d < 0 ∨ grad.ndim < d) (.outOfRange "vector::insert")
      return ([← valueOf (Tracked.reshape grad (grad.shape.insertIdx d.toNat 1))], cache)
  | .unsqueeze dim => do
      return ([← valueOf (Tracked.squeeze grad dim)], cache)
  | .flatten inputShape => do
      return ([← valueOf (Tracked.reshape grad inputShape)], cache)
  | .cat splitSizes dim => do
      return (← catSlices (fun first last => valueOf (Tracked.slice grad dim first last 1)) 0
        splitSizes, cache)
  | .slice inputShape dim start stop step => do
      let d := normalizeDim dim inputShape.length
      let (index, cache) ← cache.getOrBuild ⟨grad.shape, d, start, stop, step⟩
      let zeros ← Tensor.zeros inputShape
      return ([← zeros.scatter d index grad], cache)
  | .narrow dim start inputShape => do
      let d := normalizeDim dim grad.ndim
      let index ← axisIndex grad.shape d fun pos => start + pos
      let zeros ← Tensor.zeros inputShape
      return ([← zeros.scatter d index grad], cache)
  | .expand inputShape => do
      return ([← grad.reduceGradVarForBroadcasting inputShape], cache)
  | .tileBy inputShape repeats => do
      let rank := max repeats.length inputShape.length
      let result ← valueOf
        (Tracked.reshape grad (interleave (padFront rank repeats) (padFront rank inputShape)))
      let result ← (List.range rank).reverse.foldlM
        (fun result (i : ℕ) => result.sum (2 * i) false) result
      return ([← valueOf (Tracked.reshape result inputShape)], cache)
  | .flip dims => do
      return ([← valueOf (Tracked.flip grad dims)], cache)
  | .gather dim index inputShape => do
      let zeros ← Tensor.zeros inputShape
      let d := normalizeDim dim inputShape.length
      return ([← valueOf (Tracked.scatterAdd zeros d index grad)], cache)
  | .scatterAdd dim index => do
      let gradSrc ← valueOf (Tracked.gather grad (normalizeDim dim grad.ndim) index)
      return ([grad.clone, gradSrc], cache)
  | .indexSelect dim index inputShape => do
      let d := normalizeDim dim grad.ndim
      let index ← index.dataInt64
      let fullIndex ← axisIndex grad.shape d index.flat
      let zeros ← Tensor.zeros inputShape
      return ([← valueOf (Tracked.scatterAdd zeros d fullIndex grad)], cache)

end GradFn

/-- A call of a tracked operation. The dimension of `squeeze` is a machine integer, for the least
one has a meaning of its own, and so is the shift of `roll`, which its backward negates. -/
inductive Call (R : Type)
  | reshape (input : Tensor R) (shape : List Int)
  | permute (input : Tensor R) (dims : List Int)
  | transpose (input : Tensor R) (dim0 dim1 : Int)
  | roll (input : Tensor R) (shifts : Int64) (dim : Int)
  | squeeze (input : Tensor R) (dim : Int64)
  | unsqueeze (input : Tensor R) (dim : Int)
  | flatten (input : Tensor R) (startDim endDim : Int)
  | cat (inputs : List (Tensor R)) (dim : Int)
  | slice (input : Tensor R) (dim start stop step : Int)
  | narrow (input : Tensor R) (dim start length : Int)
  | expand (input : Tensor R) (shape : List Int)
  | tileBy (input : Tensor R) (repeats : List Int)
  | flip (input : Tensor R) (dims : List Int)
  | gather (input : Tensor R) (dim : Int) (index : Index)
  | scatterAdd (input : Tensor R) (dim : Int) (index : Index) (src : Tensor R)
  | indexSelect (input : Tensor R) (dim : Int) (index : Index)

namespace Call

variable {R : Type}

/-- The tensors that gradients are computed for. -/
def inputs : Call R → List (Tensor R)
  | .cat inputs _ => inputs
  | .scatterAdd input _ _ src => [input, src]
  | .reshape input _ | .permute input _ | .transpose input _ _ | .roll input _ _
  | .squeeze input _ | .unsqueeze input _ | .flatten input _ _ | .slice input _ _ _ _
  | .narrow input _ _ _ | .expand input _ | .tileBy input _ | .flip input _
  | .gather input _ _ | .indexSelect input _ _ => [input]

def forward [AddCommMonoid R] : Call R → Except Exn (Tracked R)
  | .reshape input shape => Tracked.reshape input shape
  | .permute input dims => Tracked.permute input dims
  | .transpose input dim0 dim1 => Tracked.transpose input dim0 dim1
  | .roll input shifts dim => Tracked.roll input shifts dim
  | .squeeze input dim => Tracked.squeeze input dim.toInt
  | .unsqueeze input dim => Tracked.unsqueeze input dim
  | .flatten input startDim endDim => Tracked.flatten input startDim endDim
  | .cat inputs dim => Tracked.cat inputs dim
  | .slice input dim start stop step => Tracked.slice input dim start stop step
  | .narrow input dim start length => Tracked.narrow input dim start length
  | .expand input shape => Tracked.expand input shape
  | .tileBy input repeats => Tracked.tileBy input repeats
  | .flip input dims => Tracked.flip input dims
  | .gather input dim index => Tracked.gather input dim index
  | .scatterAdd input dim index src => Tracked.scatterAdd input dim index src
  | .indexSelect input dim index => Tracked.indexSelect input dim index

end Call

end Tenzor.ShapeOps
