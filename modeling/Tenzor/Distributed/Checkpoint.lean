import Tenzor.Core.Tensor
import Tenzor.Lib.AxisBlocks
import Tenzor.Lite.ModelFormat
import Mathlib.Data.List.AList

/-!
# Distributed checkpoints

Each rank writes its tensors to a shard file of its own. `load` returns the file
of its rank when that file records the same world size; otherwise it reads all
files, joins the shards of a tensor along its shard dimension and cuts the part
of the rank out.

## Implementation notes

A `std::string` is its bytes. A directory maps ranks to the contents of their
files; a save replaces the file of its rank at once. A tensor is contiguous and
on the CPU, and its conversion to another element type is a parameter. The
tensors that are joined and cut have been read from files, so they carry no
quantization metadata.
-/

namespace Tenzor.Checkpoint

open Throwing Wire

abbrev Name := List UInt8

structure ShardSpec where
  sharded : Bool := false
  dim : ℤ := 0
  deriving DecidableEq, Repr

structure Blob where
  shape : List ℕ
  dtype : DType
  data : List UInt8
  quant : QuantParams := {}
  deriving DecidableEq, Repr

/-- What a file keeps of a tensor. -/
def Blob.stored (t : Blob) : Blob := { t with quant := {} }

def maxInt64 : ℕ := 9223372036854775807

/-- The element count, none when a product leaves `int64_t`. -/
def checkedNumel (shape : List ℕ) : Option ℕ :=
  shape.foldlM (fun numel d => if d ≠ 0 ∧ maxInt64 / d < numel then none else some (numel * d)) 1

abbrev Tensors := AList fun _ : Name => Blob
abbrev Specs := AList fun _ : Name => ShardSpec

structure ShardContents where
  tensors : Tensors
  worldSize : ℤ
  version : UInt32
  shardSpecs : Specs

abbrev Directory := AList fun _ : ℕ => List UInt8

def Name.text (name : Name) : String := String.ofList (name.map fun b => Char.ofNat b.toNat)

def ckptError (what : String) : Exn := .runtimeError ("DistributedCheckpoint: " ++ what)

def nameError (before : String) (name : Name) (after : String) : Exn :=
  ckptError (before ++ "'" ++ name.text ++ "'" ++ after)

def truncated : Exn := ckptError "truncated checkpoint (unexpected end of data)"

def magic : UInt32 := 0x5A435A54
def version : UInt32 := 2
def versionLegacyNoShardMeta : UInt32 := 1

/-- The sharding of a tensor, checked; what is not declared is replicated. -/
def resolveSpec (name : Name) (t : Blob) : Option ShardSpec → Except Exn ShardSpec
  | none => .ok {}
  | some spec =>
    if spec.sharded then
      if t.shape.length = 0 then
        .error (nameError "tensor " name " is marked sharded but is a 0-dim scalar")
      else
        let dim := if spec.dim < 0 then spec.dim + t.shape.length else spec.dim
        if dim < 0 ∨ (t.shape.length : ℤ) ≤ dim then
          .error (ckptError ("shard dim " ++ toString dim ++ " out of range for tensor '" ++
            name.text ++ "' with " ++ toString t.shape.length ++ " dims"))
        else .ok { spec with dim := dim }
    else .ok spec

def appendInt64 (n : ℤ) : List UInt8 := appendPod (Int64.ofInt n)

def serializeEntry (name : Name) (t : Blob) (spec : ShardSpec) : List UInt8 :=
  appendInt64 name.length ++ (name ++ (appendInt64 t.shape.length ++
    (t.shape.flatMap (fun d : ℕ => appendInt64 d) ++
      (appendPod (Lite.dtypeCode t.dtype).toUInt32 ++
        (appendPod (if spec.sharded then 1 else 0 : UInt8) ++
          (appendInt64 (if spec.sharded then spec.dim else 0) ++
            (appendInt64 t.data.length ++ t.data)))))))

def serializeState (state : Tensors) (worldSize : ℤ) (specs : Specs) : Except Exn (List UInt8) := do
  let entries ← state.entries.mapM fun e => do
    let spec ← resolveSpec e.1 e.2 (specs.lookup e.1)
    pure (serializeEntry e.1 e.2 spec)
  pure (appendPod magic ++ (appendPod version ++ (appendInt64 worldSize ++
    (appendInt64 state.entries.length ++ entries.flatten))))

def readInt64 : Reader Exn ℤ := do
  let n ← readPod truncated Int64
  pure n.toInt

/-- The dimensions, each checked against the element count before it. -/
def readDims (name : Name) : ℕ → ℕ → Reader Exn (List ℕ × ℕ)
  | 0, numel => pure ([], numel)
  | k + 1, numel => do
      let d ← readInt64
      failIf (d < 0) (nameError "negative dimension in shape for " name "")
      failIf (d ≠ 0 ∧ maxInt64 / d.toNat < numel)
        (nameError "tensor element count overflow for " name "")
      let rest ← readDims name k (numel * d.toNat)
      pure (d.toNat :: rest.1, rest.2)

/-- `checked_dtype`. Every type of the table has a size. -/
def checkedDtype (raw : UInt32) (name : Name) : Except Exn DType :=
  match Lite.dtypes[raw.toNat]? with
  | some dt => .ok dt
  | none => .error (ckptError ("invalid dtype value " ++ toString raw.toNat ++ " for tensor '" ++
      name.text ++ "'"))

def liftExcept {α : Type} (x : Except Exn α) : Reader Exn α := fun s => x.map fun a => (a, s)

/-- The sharding fields, from version 2 on. -/
def readSpec (hasShardMeta : Bool) (name : Name) (ndim : ℕ) : Reader Exn ShardSpec :=
  if hasShardMeta then do
    let flag ← readPod truncated UInt8
    let dim ← readInt64
    failIf (flag ≠ 0 ∧ ndim = 0) (nameError "tensor " name " marked sharded but has 0 dims")
    failIf (flag ≠ 0 ∧ (dim < 0 ∨ (ndim : ℤ) ≤ dim))
      (ckptError ("invalid shard dim " ++ toString dim ++ " for tensor '" ++ name.text ++
        "' with " ++ toString ndim ++ " dims"))
    pure { sharded := flag ≠ 0, dim := dim }
  else pure {}

def readEntry (hasShardMeta : Bool) : Reader Exn (Name × Blob × ShardSpec) := do
  let nameLen ← readInt64
  let left ← remaining
  failIf (nameLen < 0 ∨ left < nameLen.toNat) (ckptError "invalid or truncated tensor name")
  let name ← readBytes truncated nameLen.toNat
  let ndim ← readInt64
  let left ← remaining
  failIf (ndim < 0 ∨ left < ndim.toNat * 8)
    (nameError "invalid or truncated tensor shape for " name "")
  let dims ← readDims name ndim.toNat 1
  let raw ← readPod truncated UInt32
  let dtype ← liftExcept (checkedDtype raw name)
  let spec ← readSpec hasShardMeta name dims.1.length
  let dataBytes ← readInt64
  failIf (maxInt64 / dtypeSize dtype < dims.2) (nameError "tensor byte size overflow for " name "")
  failIf (dataBytes ≠ dims.2 * dtypeSize dtype)
    (nameError "data size mismatch for " name (" (expected " ++
      toString (dims.2 * dtypeSize dtype) ++ ", got " ++ toString dataBytes ++ ")"))
  let left ← remaining
  failIf (left < dataBytes.toNat) (nameError "truncated checkpoint data for " name "")
  let data ← readBytes truncated dataBytes.toNat
  pure (name, { shape := dims.1, dtype := dtype, data := data }, spec)

def readState : Reader Exn ShardContents := do
  let m ← readPod truncated UInt32
  failIf (m ≠ magic) (ckptError "invalid checkpoint magic number")
  let v ← readPod truncated UInt32
  failIf (v ≠ version ∧ v ≠ versionLegacyNoShardMeta)
    (ckptError ("unsupported checkpoint version " ++ toString v.toNat))
  let worldSize ← readInt64
  let numEntries ← readInt64
  failIf (numEntries < 0) (ckptError "negative entry count in checkpoint")
  let entries ← readMany (readEntry (version ≤ v)) numEntries.toNat
  pure
    { tensors := entries.foldl (fun m e => m.insert e.1 e.2.1) ∅
      worldSize := worldSize
      version := v
      shardSpecs := entries.foldl (fun m e => m.insert e.1 e.2.2) ∅ }

def deserializeState (data : List UInt8) : Except Exn ShardContents :=
  (readState data).map Prod.fst

def save (dir : Directory) (state : Tensors) (rank : ℕ) (worldSize : ℤ) (specs : Specs) :
    Except Exn Directory := do
  let data ← serializeState state worldSize specs
  pure (dir.insert rank data)

namespace Blob

variable (t : Blob) (dim : ℕ)

/-- The positions before the dimension. -/
def outer : ℕ := (t.shape.take dim).prod

/-- The bytes of one position of the dimension. -/
def inner : ℕ := (t.shape.drop (dim + 1)).prod * dtypeSize t.dtype

def extent : ℕ := t.shape.getD dim 0

/-- The shape of a tensor that differs in the extent of one dimension. -/
def withExtent (n : ℕ) : List ℕ := t.shape.set dim n

def slice (start stop : ℕ) : Blob where
  shape := t.withExtent dim (stop - start)
  dtype := t.dtype
  data := AxisBlocks.cut (t.outer dim) (t.extent dim * t.inner dim) (start * t.inner dim)
    ((stop - start) * t.inner dim) t.data

end Blob

/-- `Tensor::to`, for a list whose element types differ. -/
structure Conversion where
  castTo : DType → Blob → Blob

def commonDtype : List Blob → DType
  | [] => .float32
  | t :: rest => rest.foldl (fun dt u => promoteTypes dt u.dtype) t.dtype

def joinBlobs (t : Blob) (ts : List Blob) (dim : ℕ) : Blob where
  shape := t.withExtent dim ((ts.map (·.extent dim)).sum)
  dtype := t.dtype
  data := AxisBlocks.join (t.outer dim) (ts.map fun u => (u.extent dim * u.inner dim, u.data))

def cat (conv : Conversion) (tensors : List Blob) (dim : ℤ) : Except Exn Blob :=
  match tensors with
  | [] => .error (.runtimeError "Cannot concatenate empty tensor list")
  | [t] => .ok t
  | _ => do
      let dt := commonDtype tensors
      match tensors.map fun t => if t.dtype = dt then t else conv.castTo dt t with
      | [] => .error (.runtimeError "Cannot concatenate empty tensor list")
      | t :: rest => do
          let ndim := t.shape.length
          let dim := if dim < 0 then dim + ndim else dim
          throwIf (dim < 0 ∨ (ndim : ℤ) ≤ dim)
            (.runtimeError "Dimension out of range for concatenation")
          throwIf (∃ u ∈ t :: rest, u.shape.length ≠ ndim)
            (.runtimeError "All tensors must have the same number of dimensions")
          throwIf (∃ u ∈ t :: rest, u.withExtent dim.toNat 0 ≠ t.withExtent dim.toNat 0)
            (.runtimeError ("All tensors must have the same shape except in the " ++
              "concatenation dimension"))
          pure (joinBlobs t (t :: rest) dim.toNat)

def presentInAll (shards : List Tensors) (name : Name) : Bool :=
  shards.all fun s => (s.lookup name).isSome

/-- Whether the tensor is sharded, and along which dimension. Files of version 1
do not say: there, tensors that are equal on all ranks count as replicated. -/
def shardDim (savedVersion : UInt32) (specs : Specs) (shards : List Tensors) (name : Name)
    (t : Blob) : Option ℤ :=
  if version ≤ savedVersion then
    match specs.lookup name with
    | some spec =>
      if spec.sharded ∧ presentInAll shards name ∧ 1 < shards.length then some spec.dim else none
    | none => none
  else if presentInAll shards name ∧ 1 < shards.length ∧
      ¬ ∀ s ∈ shards, s.lookup name = some t then some 0
  else none

/-- The part of the rank of one tensor of rank zero. -/
def reshard (conv : Conversion) (dimOf : Name → Blob → Option ℤ) (shards : List Tensors)
    (rank worldSize : ℕ) (name : Name) (t : Blob) : Except Exn Blob :=
  match dimOf name t with
  | none => .ok t
  | some dim => do
      let full ← cat conv (shards.filterMap (·.lookup name)) dim
      let total := full.extent dim.toNat
      throwIf (total < worldSize) (ckptError ("cannot reshard '" ++ name.text ++ "' (dim-" ++
        toString dim ++ " = " ++ toString total ++ ") across world_size " ++
        toString worldSize ++ " without empty shards"))
      let base := total / worldSize
      let rem := total % worldSize
      let start := rank * base + min rank rem
      let count := base + if rank < rem then 1 else 0
      pure (full.slice dim.toNat start (start + count))

/-- A shard that rank zero's world size promises. -/
def readExpected (dir : Directory) (saved : ℤ) (r : ℕ) : Except Exn Tensors :=
  match dir.lookup r with
  | none => .error (ckptError ("incomplete checkpoint — expected shard rank_" ++ toString r ++
      ".ckpt (saved world_size " ++ toString saved ++ ") not found"))
  | some data => do
      let contents ← deserializeState data
      throwIf (contents.worldSize ≠ saved) (ckptError ("shard rank_" ++ toString r ++
        ".ckpt reports world_size " ++ toString contents.worldSize ++ " but rank_0 reports " ++
        toString saved ++ " — inconsistent checkpoint"))
      pure contents.tensors

def loadAll (conv : Conversion) (dir : Directory) (rank worldSize : ℕ) : Except Exn Tensors := do
  throwIf (dir.keys = []) (ckptError "no shard files found")
  match dir.lookup 0 with
  | none => throw (ckptError "missing shard rank_0.ckpt")
  | some data => do
      let shard0 ← deserializeState data
      let saved := shard0.worldSize
      throwIf (saved < 1)
        (ckptError ("shard header reports invalid world_size " ++ toString saved))
      let others ← (List.range (saved.toNat - 1)).mapM fun r => readExpected dir saved (r + 1)
      let last := dir.keys.foldl max 0
      throwIf (saved ≤ last) (ckptError ("found stale shard rank_" ++ toString last ++
        ".ckpt beyond saved world_size " ++ toString saved))
      let shards := shard0.tensors :: others
      shard0.tensors.entries.foldlM (fun result e => do
        let part ← reshard conv (shardDim shard0.version shard0.shardSpecs shards) shards rank
          worldSize e.1 e.2
        pure (result.insert e.1 part)) ∅

def load (conv : Conversion) (dir : Directory) (rank worldSize : ℤ) : Except Exn Tensors := do
  throwIf (worldSize < 1) (.invalidArgument ("DistributedCheckpoint::load: world_size must be " ++
    ">= 1, got " ++ toString worldSize))
  throwIf (rank < 0 ∨ worldSize ≤ rank) (.invalidArgument ("DistributedCheckpoint::load: rank " ++
    toString rank ++ " out of range [0, " ++ toString worldSize ++ ")"))
  match dir.lookup rank.toNat with
  | some data => do
      let contents ← deserializeState data
      if contents.worldSize = worldSize then return contents.tensors
      loadAll conv dir rank.toNat worldSize.toNat
  | none => loadAll conv dir rank.toNat worldSize.toNat

end Tenzor.Checkpoint
