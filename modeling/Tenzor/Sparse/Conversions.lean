import Tenzor.Sparse.SparseTensor

/-!
# Conversions of sparse tensors

`to_dense`, `coalesce` and `transpose`, and the conversions between the layouts, as the CPU
does them.
-/

namespace Tenzor.Sparse

open Throwing Wrap64 Scatter Strided List

variable {α : Type}

/-- `shape_of` strides of an index column, by words. -/
def Arithmetic.strides (num : Arithmetic) : List Int → List Int
  | [] => []
  | [_] => [1]
  | _ :: n :: shape =>
    let tail := num.strides (n :: shape)
    num.word (tail.headD 1 * n) :: tail

/-- The compound key of an index column; a stride of one is not multiplied. -/
def Arithmetic.key (num : Arithmetic) (strides column : List Int) : Int :=
  (column.zip strides).foldl (fun keys e =>
    num.word (keys + if e.2 = 1 then e.1 else num.word (e.1 * num.full e.2))) 0

/-- The place of an element in a dense matrix. -/
def Arithmetic.flat (num : Arithmetic) (ncols : Int) (p : Int × Int) : Int :=
  num.word (num.word (p.1 * num.full ncols) + p.2)

/-- The row of every entry, from the pointers. -/
def expand (outerSize : Int) (ptr : List Int) : Except Exn (List Int) := do
  let counts := lens ptr
  throwIf (counts.length ≠ outerSize.toNat)
    (.invalidArgument ("repeat_interleave: repeats tensor size (" ++ toString counts.length ++
      ") must match dimension size (" ++ toString outerSize ++ ")"))
  throwIf (∃ c ∈ counts, c < 0) (.invalidArgument "repeat_interleave: negative repeat count")
  pure (repeatInterleave (upTo outerSize.toNat) counts)

def bincount (xs : List Int) (minlength : ℕ) : Except Exn (List Int) := do
  throwIf (∃ x ∈ xs, x < 0) (.runtimeError "bincount: input must contain non-negative integers")
  let size := xs.foldl (fun size x => max size (x.toNat + 1)) minlength
  throwIf (2147483648 < size) (.runtimeError "bincount: output size exceeds supported limit")
  pure (countsBelow size xs)

section Buffers

variable [AddCommMonoid α]

def zeros (shape : List Int) (dtype : DType) : Except Exn (List α) := do
  throwIf (∃ n ∈ shape, n < 0) (.invalidArgument "Tensor: shape dimensions must be non-negative")
  throwIf (int64Max < shape.prod * dtypeSize dtype)
    (.overflowError "Tensor allocation size overflow")
  pure (List.replicate shape.prod.toNat 0)

/-- An index of `scatter_add`; a negative one counts from the end. -/
def position (size : ℕ) (idx : Int) : Except Exn ℕ :=
  let wrapped := if idx < 0 then idx + size else idx
  if inBounds wrapped size then .ok wrapped.toNat
  else .error (.outOfRange ("scatter_add: index " ++ toString idx ++
    " out of range for dimension 0 with size " ++ toString size))

def scatterValues (out : List α) (index : List Int) (values : List α) : Except Exn (List α) := do
  throwIf (index.length ≠ values.length)
    (.invalidArgument "scatter_add: index and src must have the same shape")
  let positions ← index.mapM (position out.length)
  pure (scatterAdd out (positions.zip values))

end Buffers

/-- The places in a block, in row-major order. -/
def blockCells (blockSize : Int × Int) : List (Int × Int) :=
  (upTo blockSize.1.toNat).flatMap fun i => (upTo blockSize.2.toNat).map fun j => (i, j)

theorem length_blockCells (blockSize : Int × Int) :
    (blockCells blockSize).length = blockSize.1.toNat * blockSize.2.toNat := by
  simp [blockCells, upTo, List.length_flatMap, Function.comp_def]

/-- A dense tensor, with its elements in row-major order. -/
structure Dense (α : Type) where
  shape : List Int
  dtype : DType
  data : List α
  nonneg : ∀ n ∈ shape, 0 ≤ n
  length_data : (data.length : Int) = shape.prod

/-- An index column of a matrix as a pair. -/
def pairOf (column : List Int) : Int × Int := (column.getD 0 0, column.getD 1 0)

def Indices.ofPairs (pairs : List (Int × Int)) : Indices where
  sparseDim := 2
  columns := pairs.map fun p => [p.1, p.2]
  length_column c hc := by
    obtain ⟨p, -, rfl⟩ := mem_map.mp hc
    rfl

/-- The two rows of the index tensor of a matrix, swapped. -/
def Indices.swap (indices : Indices) : Indices where
  sparseDim := indices.sparseDim
  columns := indices.columns.map List.reverse
  length_column c hc := by
    obtain ⟨old, hold, rfl⟩ := mem_map.mp hc
    rw [length_reverse]
    exact indices.length_column old hold

namespace SparseTensor

section Dense

variable [AddCommMonoid α]

/-- The values at their places in a zeroed matrix. -/
def scatterFlat (num : Arithmetic) (s : SparseTensor α) (nrows ncols : Int)
    (places : List (Int × Int)) : Except Exn (List α) := do
  throwIf (places.length ≠ s.nnz)
    (.runtimeError "operands are not broadcast-compatible")
  throwIf (s.values.shape.length ≠ 1)
    (.invalidArgument "scatter_add: index and src must have the same shape")
  let result ← zeros [num.word (nrows * ncols)] s.values.dtype
  scatterValues result (places.map (num.flat ncols)) s.values.data

/-- The elements of the blocks; one that lies outside the matrix goes to place zero as a zero. -/
def blockEntries (num : Arithmetic) (nrows ncols : Int) (blockSize : Int × Int)
    (blocks : List (Int × Int)) (data : List α) : List (Int × α) :=
  let places := blocks.flatMap fun b => (blockCells blockSize).map fun c =>
    (num.word (num.word (b.1 * num.full blockSize.1) + c.1),
      num.word (num.word (b.2 * num.full blockSize.2) + c.2))
  (places.zip data).map fun e =>
    if e.1.1 < nrows ∧ e.1.2 < ncols then (num.flat ncols e.1, e.2) else (0, 0)

/-- The elements of the dense tensor, in row-major order. -/
def toDense (num : Arithmetic) (s : SparseTensor α) : Except Exn (List α) :=
  if s.nnz = 0 then zeros s.shape s.values.dtype
  else match s.storage, s.shape with
  | .csr crow col, [nrows, ncols] => do
      let rows ← expand nrows crow
      throwIf (col.length ≠ rows.length) (.runtimeError "operands are not broadcast-compatible")
      s.scatterFlat num nrows ncols (rows.zip col)
  | .csc ccol row, [nrows, ncols] => do
      let cols ← expand ncols ccol
      throwIf (row.length ≠ cols.length) (.runtimeError "operands are not broadcast-compatible")
      s.scatterFlat num nrows ncols (row.zip cols)
  | .coo indices, shape => do
      throwIf (shape = []) outside
      let strides := num.strides shape
      let numel := num.word (strides.headD 1 * shape.headD 1)
      if s.denseDim = 0 then do
        throwIf (s.values.shape.length ≠ 1)
          (.invalidArgument "scatter_add: index and src must have the same shape")
        let result ← zeros [numel] s.values.dtype
        scatterValues result (indices.columns.map (num.key strides)) s.values.data
      else do
        -- the loops on the host: in a matrix the value of an entry is the one at its number,
        -- else an entry has a block of values
        let result ← zeros shape s.values.dtype
        match shape with
        | [nrows, ncols] => do
            throwIf (s.values.data.length < s.nnz) outside
            let entries := ((indices.columns.map pairOf).zip s.values.data).filter fun e =>
              inBounds e.1.1 nrows && inBounds e.1.2 ncols
            pure (scatterAdd result (entries.map fun e => ((e.1.1 * ncols + e.1.2).toNat, e.2)))
        | _ => do
            let block := s.values.data.length / s.nnz
            let places := indices.columns.flatMap fun c =>
              (upTo block).map fun e => dot c strides + e
            throwIf (∃ p ∈ places, inBounds p result.length = false) outside
            pure (scatterAdd result ((places.map Int.toNat).zip s.values.data))
  | .bsr rowPtr colInd blockSize, [nrows, ncols] => do
      let blockRows ← expand (blocksAlong nrows blockSize.1) rowPtr
      throwIf (blockRows.length < colInd.length)
        (.outOfRange "index_select: index out of range")
      let entries := blockEntries num nrows ncols blockSize (blockRows.zip colInd) s.values.data
      let result ← zeros [num.word (nrows * ncols)] s.values.dtype
      scatterValues result (entries.map Prod.fst) (entries.map Prod.snd)
  | _, _ => throw outside

end Dense

end SparseTensor

/-- The types whose values can be added on the device, after widening or splitting. -/
def canCoalesce : DType → Bool
  | .int16 | .uint16 | .uint32 | .uint64 | .qint8 | .quint8 | .qint4x2 => false
  | _ => true

/-- The columns and the values, sorted by a key. -/
def sortByKey {β : Type} (entries : List (Int × β)) : List (Int × β) :=
  entries.mergeSort fun a b => a.1 ≤ b.1

/-- The columns and the values in the order of their keys. -/
def sortedEntries (num : Arithmetic) (indices : Indices) (shape : List Int) (data : List α) :
    List (Int × List Int × α) :=
  sortByKey ((indices.columns.zip data).map fun e => (num.key (num.strides shape) e.1, e))

/-- The first column of each run of equal keys. -/
def Indices.merged (num : Arithmetic) (indices : Indices) (shape : List Int) (data : List α) :
    Indices where
  sparseDim := indices.sparseDim
  columns :=
    let sorted := sortedEntries num indices shape data
    starts (isNew (sorted.map Prod.fst)) (sorted.map fun e => e.2.1)
  length_column c hc := by
    obtain ⟨e, he, rfl⟩ := mem_map.mp (mem_of_mem_starts hc)
    obtain ⟨old, hold, rfl⟩ := mem_map.mp (mem_mergeSort.mp he)
    exact indices.length_column _ (of_mem_zip hold).1

namespace SparseTensor

variable [AddCommMonoid α]

def coalesce (num : Arithmetic) (s : SparseTensor α) : Except Exn (SparseTensor α) :=
  match s.storage with
  | .coo indices =>
    if s.coalesced then pure s
    else if s.nnz = 0 then pure { s with coalesced := true }
    else do
      throwIf (canCoalesce s.values.dtype = false)
        (.runtimeError ("SparseTensor::coalesce: unsupported value dtype " ++
          dtypeName s.values.dtype))
      throwIf (indices.sparseDim = 0) (.runtimeError "Cannot concatenate empty tensor list")
      throwIf (s.values.shape ≠ [s.nnz])
        (.invalidArgument "scatter_add: index and src must have the same shape")
      let sorted := sortedEntries num indices s.shape s.values.data
      let groupId := groupIds (isNew (sorted.map Prod.fst))
      let newNnz := groupId.getLastD 0 + 1
      let newValues := scatterAdd (List.replicate newNnz 0)
        (groupId.zip (sorted.map fun e => e.2.2))
      let result ← sparseCoo (indices.merged num s.shape s.values.data)
        (.ofList s.values.dtype newValues) s.shape true
      pure { result with coalesced := true }
  | _ => pure s

/-- `to_csr` of a coordinate tensor. -/
def cooToCsr (num : Arithmetic) (s : SparseTensor α) : Except Exn (SparseTensor α) :=
  match s.shape with
  | [nrows, _] => do
      let coo ← s.coalesce num
      match coo.storage with
      | .coo indices =>
        if coo.nnz = 0 then do
          throwIf (nrows + 1 < 0)
            (.invalidArgument "Tensor: shape dimensions must be non-negative")
          sparseCsr (List.replicate (nrows + 1).toNat 0) [] (.ofList coo.values.dtype []) s.shape
            true
        else do
          throwIf (nrows < 0) (.runtimeError "bincount: minlength must be non-negative")
          let pairs := indices.columns.map pairOf
          let rowCounts ← bincount (pairs.map Prod.fst) nrows.toNat
          sparseCsr (pointers rowCounts) (pairs.map Prod.snd) coo.values s.shape true
      | _ => throw outside
  | _ => throw (.runtimeError "to_csr: only 2D sparse tensors supported")

/-- `to_csc` of a coordinate tensor: its entries by column and then by row. -/
def cooToCsc (s : SparseTensor α) : Except Exn (SparseTensor α) :=
  match s.storage, s.shape with
  | .coo indices, [_, ncols] => do
      throwIf (ncols + 1 < 0) (.invalidArgument "Tensor: shape dimensions must be non-negative")
      throwIf (s.values.data.length < s.nnz) outside
      let entries := ((indices.columns.map pairOf).zip s.values.data).mergeSort fun a b =>
        a.1.2 < b.1.2 || (a.1.2 = b.1.2 && a.1.1 ≤ b.1.1)
      let cols := entries.map fun e => e.1.2
      throwIf (∃ c ∈ cols, inBounds c ncols = false) outside
      sparseCsc (pointers (countsBelow ncols.toNat cols)) (entries.map fun e => e.1.1)
        (.ofList s.values.dtype (entries.map Prod.snd)) s.shape
  | _, _ => throw (.runtimeError "to_csc: only 2D sparse tensors supported")

variable [DecidableEq α]

/-- The coordinate tensor of the elements that are not zero. -/
def fromDenseCoo (num : Arithmetic) (shape : List Int) (dtype : DType) (data : List α) :
    Except Exn (SparseTensor α) := do
  let nonzero := data.zipIdx.filter fun e => e.1 ≠ 0
  if nonzero = [] then
    sparseCoo ⟨shape.length, [], by simp⟩ (.ofList dtype []) shape true
  else do
    throwIf (shape = []) outside
    let columns := nonzero.map fun e => unravel shape e.2
    let values ← columns.mapM fun c =>
      let idx := num.key (num.strides shape) c
      if inBounds idx data.length then pure (data.getD idx.toNat 0)
      else throw (.outOfRange "index_select: index out of range")
    let result ← sparseCoo ⟨shape.length, columns, fun c hc => by
      obtain ⟨e, -, rfl⟩ := mem_map.mp hc
      exact unravel_length shape e.2⟩ (.ofList dtype values) shape true
    pure { result with coalesced := true }

/-- The coordinate tensor without entries that a compressed one is converted to. -/
def emptyCoo (s : SparseTensor α) (coalesced : Bool) : Except Exn (SparseTensor α) := do
  let result ← sparseCoo ⟨2, [], by simp⟩ (.ofList s.values.dtype []) s.shape true
  pure { result with coalesced }

def toCoo (num : Arithmetic) (s : SparseTensor α) : Except Exn (SparseTensor α) :=
  match s.storage, s.shape with
  | .coo _, _ => pure s
  | .csr crow col, [nrows, _] =>
    if s.nnz = 0 then s.emptyCoo true
    else do
      let rows ← expand nrows crow
      throwIf (rows.length ≠ s.nnz ∨ col.length ≠ s.nnz)
        (.runtimeError "reshape: shape is invalid for the number of elements")
      let result ← sparseCoo (.ofPairs (rows.zip col)) s.values s.shape true
      pure { result with coalesced := true }
  | .csc ccol row, [_, ncols] =>
    if s.nnz = 0 then s.emptyCoo false
    else do
      let cols ← expand ncols ccol
      throwIf (cols.length ≠ s.nnz ∨ row.length ≠ s.nnz)
        (.runtimeError "reshape: shape is invalid for the number of elements")
      let result ← sparseCoo (.ofPairs (row.zip cols)) s.values s.shape true
      pure { result with coalesced := false }
  | .bsr _ _ _, _ => do
      let dense ← s.toDense num
      throwIf (s.shape.length ≠ 2) (.runtimeError "to_sparse: only 2D tensors supported")
      fromDenseCoo num s.shape s.values.dtype dense
  | _, _ => throw outside

def toCsr (num : Arithmetic) (s : SparseTensor α) : Except Exn (SparseTensor α) :=
  match s.storage with
  | .csr _ _ => pure s
  | .coo _ => s.cooToCsr num
  | _ => do
      let coo ← s.toCoo num
      coo.cooToCsr num

def toCsc (num : Arithmetic) (s : SparseTensor α) : Except Exn (SparseTensor α) :=
  match s.storage with
  | .csc _ _ => pure s
  | .coo _ => s.cooToCsc
  | _ => do
      let coo ← s.toCoo num
      coo.cooToCsc

def fromDense (num : Arithmetic) (dense : Dense α) (layout : SparseLayout) :
    Except Exn (SparseTensor α) := do
  let result ← fromDenseCoo num dense.shape dense.dtype dense.data
  match layout with
  | .csr => result.toCsr num
  | .csc => result.toCsc num
  | _ => pure result

def transposeCoo (num : Arithmetic) (s : SparseTensor α) : Except Exn (SparseTensor α) :=
  match s.storage, s.shape with
  | .coo indices, [nrows, ncols] => do
      let result ← sparseCoo indices.swap s.values [ncols, nrows] true
      result.coalesce num
  | _, _ => throw (.runtimeError "SparseTensor::transpose: only 2D sparse tensors supported")

def transpose (num : Arithmetic) (s : SparseTensor α) : Except Exn (SparseTensor α) :=
  match s.storage, s.shape with
  | .csc ccol row, [nrows, ncols] => sparseCsr ccol row s.values [ncols, nrows] true
  | .csr crow col, [nrows, ncols] => do
      let csc ← sparseCsc crow col s.values [ncols, nrows]
      csc.toCsr num
  | .bsr _ _ _, [_, _] => do
      let coo ← s.toCoo num
      coo.transposeCoo num
  | _, _ => s.transposeCoo num

def withValues (s : SparseTensor α) (newValues : Values α) : Except Exn (SparseTensor α) := do
  let lead (values : Values α) : ℕ := if values.data = [] then 0 else values.shape.headD 0
  throwIf (lead newValues ≠ lead s.values)
    (.runtimeError ("SparseTensor::with_values: new_values leading extent (" ++
      toString (lead newValues) ++ ") must match current value buffer (" ++
      toString (lead s.values) ++ ")"))
  pure { s with values := newValues }

/-- A block of values in row-major order, at its block row and column. -/
structure Block (blockSize : Int × Int) (α : Type) where
  row : Int
  col : Int
  values : List α
  length_values : values.length = blockSize.1.toNat * blockSize.2.toNat

variable {blockSize : Int × Int}

def Block.add (b : Block blockSize α) (offset : ℕ) (v : α) : Block blockSize α :=
  { b with values := b.values.modify offset (· + v)
           length_values := by rw [length_modify, b.length_values] }

/-- Add an entry to its block, which is made when it is not there. -/
def accumulate (nblockcols : Int) (blocks : List (Block blockSize α)) (e : (Int × Int) × α) :
    List (Block blockSize α) :=
  let br := e.1.1.tdiv blockSize.1
  let bc := e.1.2.tdiv blockSize.2
  let offset := (e.1.1.tmod blockSize.1 * blockSize.2 + e.1.2.tmod blockSize.2).toNat
  match blocks.findIdx? fun b => b.row * nblockcols + b.col = br * nblockcols + bc with
  | some i => blocks.modify i fun b => b.add offset e.2
  | none => blocks ++ [(⟨br, bc, List.replicate _ 0, length_replicate⟩ :
      Block blockSize α).add offset e.2]

/-- The block tensor of blocks in the order of their rows. -/
def ofBlocks (dtype : DType) (shape : List Int) (nblockrows : Int)
    (blocks : List (Block blockSize α)) : Except Exn (SparseTensor α) := do
  throwIf (∃ b ∈ blocks, inBounds b.row nblockrows = false) outside
  throwIf (nblockrows + 1 < 0) (.invalidArgument "Tensor: shape dimensions must be non-negative")
  sparseBsr (pointers (countsBelow nblockrows.toNat (blocks.map Block.row))) (blocks.map Block.col)
    { dtype
      shape := [blocks.length, blockSize.1.toNat, blockSize.2.toNat]
      data := blocks.flatMap Block.values
      length_data := by
        have hsum : (blocks.map fun b => b.values.length) =
            List.replicate blocks.length (blockSize.1.toNat * blockSize.2.toNat) :=
          map_eq_replicate_iff.mpr fun b _ => b.length_values
        rw [List.length_flatMap, hsum, sum_replicate]
        simp }
    shape blockSize

/-- The values of a block of a dense matrix. -/
def denseBlock (blockSize : Int × Int) (nrows ncols : Int) (dense : List α) (b : Int × Int) :
    List α :=
  (blockCells blockSize).map fun c =>
    let r := b.1 * blockSize.1 + c.1
    let k := b.2 * blockSize.2 + c.2
    if r < nrows ∧ k < ncols then dense.getD (r * ncols + k).toNat 0 else 0

/-- `to_bsr` of a compressed tensor whose arrays have no gaps: its entries block by block, or the
blocks of the dense matrix that are not zero. -/
def csrToBsr (num : Arithmetic) (s : SparseTensor α) (blockSize : Int × Int) :
    Except Exn (SparseTensor α) :=
  match s.storage, s.shape with
  | .csr crow col, [nrows, ncols] => do
      throwIf (blockSize.1 ≤ 0 ∨ blockSize.2 ≤ 0)
        (.runtimeError "sparse_bsr: block_size must be positive")
      let nblockrows := blocksAlong nrows blockSize.1
      let nblockcols := blocksAlong ncols blockSize.2
      if s.values.dtype = .float32 ∨ s.values.dtype = .float64 then do
        let rows ← expand nrows crow
        throwIf (col.length < rows.length ∨ s.values.data.length < rows.length) outside
        let blocks := ((rows.zip col).zip s.values.data).foldl (accumulate nblockcols)
          ([] : List (Block blockSize α))
        ofBlocks s.values.dtype s.shape nblockrows
          (blocks.mergeSort fun a b => a.row < b.row || (a.row = b.row && a.col ≤ b.col))
      else do
        let dense ← s.toDense num
        throwIf (s.values.dtype ≠ .complex64 ∧ s.values.dtype ≠ .complex128)
          (.runtimeError ("SparseTensor::to_bsr backstop: unsupported dtype " ++
            dtypeName s.values.dtype))
        let places := (upTo nblockrows.toNat).flatMap fun br =>
          (upTo nblockcols.toNat).map fun bc => (br, bc)
        let blocks := places.map fun b =>
          (⟨b.1, b.2, denseBlock blockSize nrows ncols dense b, by
            rw [denseBlock, length_map, length_blockCells]⟩ : Block blockSize α)
        ofBlocks s.values.dtype s.shape nblockrows
          (blocks.filter fun b => b.values.any (· ≠ 0))
  | _, _ => throw (.runtimeError "to_bsr: only 2D sparse tensors supported")

def toBsr (num : Arithmetic) (s : SparseTensor α) (blockSize : Int × Int) :
    Except Exn (SparseTensor α) :=
  match s.storage with
  | .bsr _ _ size =>
    if size = blockSize then pure s
    else do
      let csr ← s.toCsr num
      csr.csrToBsr num blockSize
  | _ => do
      let csr ← s.toCsr num
      csr.csrToBsr num blockSize

end SparseTensor

end Tenzor.Sparse
