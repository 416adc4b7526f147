import Tenzor.Core.Quantization
import Tenzor.Lib.Scatter

/-!
# Sparse tensors

A sparse tensor has its values and the places of its values, in one of four layouts. The
coordinate layout has an index column for each value; the compressed ones have pointer arrays
that say where each row or column starts.

## Implementation notes

The tensors are on the CPU, and an array is read by position, so it is the list of its elements; what
a raw pointer meets between them is in `Tenzor.Sparse.InMemory`. An index tensor is the list of its
columns, and a tensor that is sorted is sorted together with what is selected by the permutation.
`Arithmetic` is what the kernels make of 64-bit integers: a scalar reaches `full` as a double, and
sums and products are words. A read or a write outside a buffer is a failure.
-/

namespace Tenzor.Sparse

open Throwing Wrap64

structure Arithmetic where
  /-- What `full` writes for a scalar. -/
  full : Int → Int
  /-- What a sum or a product leaves. -/
  word : Int → Int

/-- The double nearest to an integer, with ties to even. -/
def toDouble (x : Int) : Int :=
  let e := Nat.log2 x.natAbs - 52
  let q := (x.natAbs / 2 ^ e : ℕ)
  let r := x.natAbs % 2 ^ e
  let up := 2 ^ e < 2 * r ∨ 2 ^ e = 2 * r ∧ q % 2 = 1
  x.sign * ((if up then q + 1 else q) * 2 ^ e : ℕ)

/-- The conversion back to 64 bits saturates. -/
def machine : Arithmetic where
  full x := max int64Min (min int64Max (toDouble x))
  word := wrap64

def exact : Arithmetic := ⟨id, id⟩

/-- An index tensor of shape `(sparseDim, nnz)`, by its columns. -/
structure Indices where
  sparseDim : ℕ
  columns : List (List Int)
  length_column : ∀ c ∈ columns, c.length = sparseDim

/-- A tensor of values, with the values in row-major order. -/
structure Values (α : Type) where
  dtype : DType
  shape : List ℕ
  data : List α
  length_data : data.length = shape.prod

def Values.ofList {α : Type} (dtype : DType) (data : List α) : Values α :=
  ⟨dtype, [data.length], data, by simp⟩

inductive SparseLayout
  | coo | csr | csc | bsr
  deriving DecidableEq, Repr

inductive Storage
  | coo (indices : Indices)
  | csr (crowIndices colIndices : List Int)
  | csc (ccolIndices rowIndices : List Int)
  | bsr (rowPtr colInd : List Int) (blockSize : Int × Int)

structure SparseTensor (α : Type) where
  storage : Storage
  shape : List Int
  values : Values α
  nnz : ℕ
  denseDim : ℕ
  coalesced : Bool

/-- A check that is made under a condition. -/
def checkIf (c : Bool) (check : Except Exn Unit) : Except Exn Unit :=
  if c then check else pure ()

def outside : Exn := .runtimeError "access outside a buffer"

section Constructors

variable {α : Type}

def inBounds (idx n : Int) : Bool := 0 ≤ idx ∧ idx < n

/-- The dimensions of an index that is out of bounds, in the order of the check. -/
def Indices.firstOutside (indices : Indices) (shape : List Int) : Option (ℕ × Int) :=
  (List.range indices.sparseDim).findSome? fun d : ℕ =>
    (indices.columns.find? fun c => ¬ inBounds (c.getD d 0) (shape.getD d 0)).map
      fun c => (d, c.getD d 0)

def checkIndices (indices : Indices) (shape : List Int) : Except Exn Unit :=
  match indices.firstOutside shape with
  | some (d, idx) => throw (.runtimeError ("sparse_coo: index " ++ toString idx ++
      " out of bounds for dimension " ++ toString d ++ " with size " ++
      toString (shape.getD d 0)))
  | none => pure ()

def sparseCoo (indices : Indices) (values : Values α) (shape : List Int) (validate : Bool) :
    Except Exn (SparseTensor α) := do
  throwIf (indices.sparseDim ≠ shape.length)
    (.runtimeError ("sparse_coo: indices.shape()[0] (" ++ toString indices.sparseDim ++
      ") must match len(shape) (" ++ toString shape.length ++ ")"))
  throwIf (values.data ≠ [] ∧ values.shape.head? ≠ some indices.columns.length)
    (.runtimeError ("sparse_coo: values.shape()[0] (" ++ toString (values.shape.headD 0) ++
      ") must match indices.shape()[1] (" ++ toString indices.columns.length ++ ")"))
  checkIf validate (checkIndices indices shape)
  pure { storage := .coo indices, shape, values, nnz := indices.columns.length
         denseDim := values.shape.length - 1, coalesced := false }

/-- The pointers never go back. -/
def nonDecreasing : List Int → Bool
  | a :: b :: ptr => a ≤ b && nonDecreasing (b :: ptr)
  | _ => true

def checkCsr (crowIndices colIndices : List Int) (nnz : ℕ) (ncols : Int) : Except Exn Unit := do
  throwIf (nonDecreasing crowIndices = false)
    (.runtimeError "sparse_csr: crow_indices must be monotonically non-decreasing")
  throwIf (crowIndices.head? ≠ some 0) (.runtimeError "sparse_csr: crow_indices[0] must be 0")
  throwIf (crowIndices.getLast? ≠ some (nnz : Int))
    (.runtimeError ("sparse_csr: crow_indices[-1] (" ++ toString (crowIndices.getLastD 0) ++
      ") must equal nnz (" ++ toString nnz ++ ")"))
  match colIndices.find? fun c => ¬ inBounds c ncols with
  | some c => throw (.runtimeError ("sparse_csr: col_index " ++ toString c ++
      " out of bounds for ncols=" ++ toString ncols))
  | none => pure ()

def sparseCsr (crowIndices colIndices : List Int) (values : Values α) (shape : List Int)
    (validate : Bool) : Except Exn (SparseTensor α) :=
  match shape with
  | [nrows, ncols] => do
      throwIf (values.data ≠ [] ∧ values.shape.length ≠ 1)
        (.runtimeError ("sparse_csr: values must be 1-D, got " ++ toString values.shape.length ++
          "-D"))
      let nnz := values.data.length
      throwIf ((crowIndices.length : Int) ≠ nrows + 1)
        (.runtimeError ("sparse_csr: crow_indices length (" ++ toString crowIndices.length ++
          ") must be nrows+1 (" ++ toString (nrows + 1) ++ ")"))
      throwIf (colIndices.length ≠ nnz)
        (.runtimeError ("sparse_csr: col_indices length (" ++ toString colIndices.length ++
          ") must match values length (" ++ toString nnz ++ ")"))
      checkIf validate (checkCsr crowIndices colIndices nnz ncols)
      pure { storage := .csr crowIndices colIndices, shape, values, nnz, denseDim := 0
             coalesced := true }
  | _ => throw (.runtimeError "sparse_csr: only 2D tensors supported")

def checkCsc (ccolIndices rowIndices : List Int) (nnz : ℕ) (nrows : Int) : Except Exn Unit := do
  throwIf (nonDecreasing ccolIndices = false)
    (.runtimeError "sparse_csc: ccol_indices must be monotonically non-decreasing")
  throwIf (ccolIndices.head? ≠ some 0 ∨ ccolIndices.getLast? ≠ some (nnz : Int))
    (.runtimeError "sparse_csc: ccol_indices[0] must be 0 and ccol_indices[-1] must equal nnz")
  throwIf (∃ r ∈ rowIndices, inBounds r nrows = false)
    (.runtimeError "sparse_csc: row_index out of bounds")

def sparseCsc (ccolIndices rowIndices : List Int) (values : Values α) (shape : List Int) :
    Except Exn (SparseTensor α) :=
  match shape with
  | [nrows, ncols] => do
      throwIf (values.data ≠ [] ∧ values.shape.length ≠ 1)
        (.runtimeError ("sparse_csc: values must be 1-D, got " ++ toString values.shape.length ++
          "-D"))
      let nnz := values.data.length
      throwIf ((ccolIndices.length : Int) ≠ ncols + 1)
        (.runtimeError ("sparse_csc: ccol_indices length (" ++ toString ccolIndices.length ++
          ") must be ncols+1 (" ++ toString (ncols + 1) ++ ")"))
      throwIf (rowIndices.length ≠ nnz)
        (.runtimeError "sparse_csc: row_indices length must match values length")
      -- without values there is no check of the pointers
      checkIf (0 < nnz) (checkCsc ccolIndices rowIndices nnz nrows)
      pure { storage := .csc ccolIndices rowIndices, shape, values, nnz, denseDim := 0
             coalesced := true }
  | _ => throw (.runtimeError "sparse_csc: only 2D tensors supported")

/-- The number of blocks along a side. -/
def blocksAlong (n b : Int) : Int := (n + b - 1).tdiv b

def checkBsr (rowPtr colInd : List Int) (nnzb : ℕ) (nblockcols : Int) : Except Exn Unit := do
  throwIf (rowPtr.head? ≠ some 0 ∨ rowPtr.getLast? ≠ some (nnzb : Int))
    (.runtimeError "sparse_bsr: bsr_row_ptr[0] must be 0, bsr_row_ptr[-1] must equal nnzb")
  throwIf (nonDecreasing rowPtr = false)
    (.runtimeError "sparse_bsr: bsr_row_ptr must be monotonically non-decreasing")
  throwIf (∃ c ∈ colInd, inBounds c nblockcols = false)
    (.runtimeError "sparse_bsr: block column index out of bounds")

def sparseBsr (rowPtr colInd : List Int) (values : Values α) (shape : List Int)
    (blockSize : Int × Int) : Except Exn (SparseTensor α) :=
  match shape with
  | [nrows, ncols] => do
      let (bh, bw) := blockSize
      throwIf (bh ≤ 0 ∨ bw ≤ 0) (.runtimeError "sparse_bsr: block_size must be positive")
      let nblockrows := blocksAlong nrows bh
      let nblockcols := blocksAlong ncols bw
      let nnzb := colInd.length
      throwIf ((rowPtr.length : Int) ≠ nblockrows + 1)
        (.runtimeError "sparse_bsr: bsr_row_ptr length must be nblockrows+1")
      throwIf (values.shape.length ≠ 3 ∨ (values.shape.getD 1 0 : Int) ≠ bh ∨
          (values.shape.getD 2 0 : Int) ≠ bw)
        (.runtimeError "sparse_bsr: values must have shape (nnzb, block_h, block_w)")
      throwIf (values.shape.getD 0 0 ≠ nnzb)
        (.runtimeError "sparse_bsr: values.shape()[0] must match bsr_col_ind length")
      -- without blocks there is no check of the pointers
      checkIf (0 < nnzb) (checkBsr rowPtr colInd nnzb nblockcols)
      pure { storage := .bsr rowPtr colInd blockSize, shape, values
             nnz := nnzb * bh.toNat * bw.toNat, denseDim := 0, coalesced := true }
  | _ => throw (.runtimeError "sparse_bsr: only 2D tensors supported")

end Constructors

end Tenzor.Sparse
