import Tenzor.Core.Tensor
import Tenzor.Lib.Wire
import Tenzor.Lite.MemoryPlanner

/-!
# The TZLITE model format

`save` writes a graph with its weights and options as a byte file, `loadFull`
reads it back, and `constants` finds the weights of a loaded model.

## Implementation notes

A `std::string` is its bytes and a map is a list of entries with distinct keys,
in the order of an iteration. A loaded enumeration keeps its code, as the cast
does. A weight is contiguous and on the CPU: the conversions change neither its
shape nor its elements. A file that no stream offset reaches the end of cannot
be written.
-/

namespace Tenzor.Lite

open Throwing Wire Wrap64

abbrev Text := List UInt8

/-- Stated once, so that every membership test of names has the same instance. -/
instance : LawfulBEq Text := inferInstance

/-- A contiguous tensor with the checks its construction has passed. -/
structure Weight where
  dtype : DType
  shape : List Int64
  bytes : List UInt8
  dims_nonneg : ∀ d ∈ shape, 0 ≤ d.toInt
  strides_ok : ∃ strides, computeStrides (shape.map Int64.toInt) = .ok strides
  bytes_ok : ∃ n, numel (shape.map Int64.toInt) = .ok n ∧
    bytes.length = n.toNat * dtypeSize dtype

/-- The numbers of a plan are 64-bit words. -/
structure MmplPlan.Words (plan : MmplPlan) : Prop where
  alignment : plan.alignment < 18446744073709551616
  poolSizes : ∀ s ∈ plan.poolSizes, s < 18446744073709551616
  offsets : ∀ p ∈ plan.placements, p.offset < 18446744073709551616

structure WriteOptions where
  weights : List (Int16 × Weight)
  inputIds : List Int16
  outputIds : List Int16
  inputSpecs : List (Int16 × DType × List Int64)
  metadata : List (Text × Text)
  memoryPlan : Option MmplPlan
  weights_nodup : (weights.map Prod.fst).Nodup
  metadata_nodup : (metadata.map Prod.fst).Nodup
  plan_words : ∀ plan ∈ memoryPlan, plan.Words

/-- A `TensorValue` as the file has it. -/
structure LoadedValue where
  tensorId : Int16
  source : UInt8
  dtype : UInt8
  shape : List Int64
  weightOffset : UInt64
  weightNbytes : UInt64
  inputIndex : UInt32
  deriving DecidableEq

structure LoadedModel where
  graph : LiteGraph
  tensorValues : List LoadedValue
  weightBlob : List UInt8
  inputIds : List Int16
  outputIds : List Int16
  metadata : List (Text × Text)
  memoryPlan : Option MmplPlan

def sourceCode : TensorSource → UInt8
  | .input => 0
  | .weight => 1
  | .intermediate => 2

/-- The element types in the order of their codes. -/
def dtypes : List DType :=
  [.float32, .float64, .float16, .bfloat16, .int8, .int16, .int32, .int64, .uint8, .uint16,
    .uint32, .uint64, .bool, .complex64, .complex128, .fp8E4M3, .fp8E5M2, .qint8, .quint8,
    .qint4x2, .fp8E4M3FNUZ, .fp8E5M2FNUZ]

def dtypeCode (dt : DType) : UInt8 := UInt8.ofNat (dtypes.idxOf dt)

/-- `dtype_size` of a code, zero for one that names no type. -/
def sizeOfCode (code : UInt8) : ℕ := (dtypes[code.toNat]?).elim 0 dtypeSize

def tagTval : UInt32 := 0x4C415654
def tagWgts : UInt32 := 0x53544757
def tagIosp : UInt32 := 0x50534F49
def tagMeta : UInt32 := 0x4154454D
def tagMmpl : UInt32 := 0x4C504D4D

def tzliteMagic : UInt32 := 0x544C5A54
def tzliteVersion : UInt32 := 3
def tzliteVersionMinSupported : UInt32 := 1

def readerError (what : String) : Exn := .runtimeError ("TZLiteReader: " ++ what)

def eof : Exn := readerError "unexpected end of buffer"

def countError (what : String) (n : ℕ) : Exn :=
  readerError (what ++ " count (" ++ toString n ++ ") exceeds remaining payload")

/-- The members of the node record, one after the other. -/
def serialiseNode (version : UInt32) (node : LiteNode) : List UInt8 :=
  appendPod node.op ++
    (appendCounted UInt16 appendPod node.inputIds ++
      (appendCounted UInt16 appendPod node.outputIds ++
        (node.attrs.f.toList.flatMap appendPod ++
          (node.attrs.i.toList.flatMap appendPod ++
            if 3 ≤ version then
              appendCounted UInt32 appendPod node.attrs.extraI ++
                appendCounted UInt32 appendPod node.attrs.extraF
            else []))))

/-- The highest id the graph mentions, `-1` where there is none. -/
def LiteGraph.maxTensorId (graph : LiteGraph) : Int :=
  (graph.nodes.flatMap (fun n => n.inputIds ++ n.outputIds) ++ graph.inputIds ++
    graph.outputIds).foldl (fun hi id => max hi id.toInt) (-1)

def serialiseNodeTable (graph : LiteGraph) (version : UInt32) : Except Exn (List UInt8) := do
  throwIf (graph.maxTensorId > 32767) (.runtimeError
    "TZLiteWriter: graph has a tensor_id exceeding the int16_t wire limit (32767)")
  throwIf (∃ node ∈ graph.nodes, node.inputIds.length > 65535 ∨ node.outputIds.length > 65535)
    (.runtimeError "TZLiteWriter: node arity exceeds the uint16_t wire limit (65535)")
  pure (graph.nodes.flatMap (serialiseNode version))

def readFour (p : Reader Exn α) : Reader Exn (Vector α 4) := do
  let a ← p
  let b ← p
  let c ← p
  let d ← p
  pure #v[a, b, c, d]

/-- A list of plain values after its count. -/
def readPods (γ : Type) [Pod γ] (α : Type) [Pod α] (what : String) : Reader Exn (List α) :=
  readCounted eof γ (fun n => countError what (Pod.toNat n)) (Pod.width α) (readPod eof α)

def readExtras (version : UInt32) : Reader Exn (List Int64 × List UInt32) :=
  if 3 ≤ version then do
    let extraI ← readPods UInt32 Int64 "node extra_i"
    let extraF ← readPods UInt32 UInt32 "node extra_f"
    pure (extraI, extraF)
  else pure ([], [])

def readNode (version : UInt32) : Reader Exn LiteNode := do
  let op ← readPod eof UInt16
  let inputIds ← readPods UInt16 Int16 "node inputs"
  let outputIds ← readPods UInt16 Int16 "node outputs"
  let f ← readFour (readPod eof UInt32)
  let i ← readFour (readPod eof Int64)
  let extras ← readExtras version
  pure ⟨op, inputIds, outputIds, ⟨f, i, extras.1, extras.2⟩⟩

def tvalEntry (tv : TensorValue) : List UInt8 :=
  appendPod tv.tensorId ++
    (appendPod (sourceCode tv.source) ++
      (appendPod (UInt8.ofNat tv.shape.length) ++
        (appendPod (dtypeCode tv.dtype).toUInt16 ++
          (appendPod tv.inputIndex ++
            (appendPod tv.weightOffset ++
              (appendPod tv.weightNbytes ++ tv.shape.flatMap appendPod))))))

def buildTvalPayload (tvs : List TensorValue) : List UInt8 := appendCounted UInt32 tvalEntry tvs

def readTvalEntry : Reader Exn LoadedValue := do
  let tensorId ← readPod eof Int16
  failIf (tensorId.toInt < 0) (readerError "negative tensor_id in TVAL section")
  let src ← readPod eof UInt8
  let ndim ← readPod eof UInt8
  let dt ← readPod eof UInt16
  let inputIndex ← readPod eof UInt32
  let weightOffset ← readPod eof UInt64
  let weightNbytes ← readPod eof UInt64
  checkCount (countError "TVAL shape" ndim.toNat) ndim.toNat 8
  let shape ← readMany (readPod eof Int64) ndim.toNat
  pure ⟨tensorId, src, dt.toUInt8, shape, weightOffset, weightNbytes, inputIndex⟩

/-- An entry without dimensions takes 26 bytes. -/
def parseTvalPayload : Reader Exn (List LoadedValue) :=
  readCounted eof UInt32 (fun n => countError "TVAL" n.toNat) 26 readTvalEntry

/-- An id that indexes the tensor table. -/
def readId (what : String) : Reader Exn Int16 := do
  let id ← readPod eof Int16
  failIf (id.toInt < 0) (readerError ("negative " ++ what))
  pure id

def buildIospPayload (inputs outputs : List Int16) : List UInt8 :=
  appendCounted UInt32 appendPod inputs ++ appendCounted UInt32 appendPod outputs

def parseIospPayload : Reader Exn (List Int16 × List Int16) := do
  let inputs ← readCounted eof UInt32 (fun n => countError "IOSP inputs" n.toNat) 2
    (readId "input tensor_id in IOSP section")
  let outputs ← readCounted eof UInt32 (fun n => countError "IOSP outputs" n.toNat) 2
    (readId "output tensor_id in IOSP section")
  pure (inputs, outputs)

/-- As many bytes as the written length says. -/
def appendText (t : Text) : List UInt8 :=
  appendPod (UInt32.ofNat t.length) ++ t.take (UInt32.ofNat t.length).toNat

def readText (what : String) : Reader Exn Text := do
  let len ← readPod eof UInt32
  checkCount (readerError ("META " ++ what ++ " length exceeds remaining payload")) len.toNat 1
  readBytes eof len.toNat

def metaEntry (kv : Text × Text) : List UInt8 := appendText kv.1 ++ appendText kv.2

def buildMetaPayload (entries : List (Text × Text)) : List UInt8 :=
  appendCounted UInt32 metaEntry entries

def readMetaEntry : Reader Exn (Text × Text) := do
  let k ← readText "key"
  let v ← readText "value"
  pure (k, v)

/-- `emplace` keeps the entry that a key already has. -/
def emplace {κ ν : Type} [DecidableEq κ] (entries : List (κ × ν)) (kv : κ × ν) : List (κ × ν) :=
  if kv.1 ∈ entries.map Prod.fst then entries else entries ++ [kv]

def parseMetaPayload : Reader Exn (List (Text × Text)) := do
  let entries ← readCounted eof UInt32 (fun n => countError "META" n.toNat) 8 readMetaEntry
  pure (entries.foldl emplace [])

def appendPlacement (p : MmplPlacement) : List UInt8 :=
  appendPod p.tensorId ++ (appendPod p.poolIndex ++ appendPod (UInt64.ofNat p.offset))

def buildMmplPayload (plan : MmplPlan) : List UInt8 :=
  appendPod (UInt64.ofNat plan.alignment) ++
    (appendCounted UInt32 (fun s => appendPod (UInt64.ofNat s)) plan.poolSizes ++
      appendCounted UInt32 appendPlacement plan.placements)

def readPlacement : Reader Exn MmplPlacement := do
  let tensorId ← readId "tensor_id in MMPL placement"
  let poolIndex ← readPod eof UInt8
  let offset ← readPod eof UInt64
  pure ⟨tensorId, poolIndex, offset.toNat⟩

def readWord : Reader Exn ℕ := do
  let w ← readPod eof UInt64
  pure w.toNat

def parseMmplPayload : Reader Exn MmplPlan := do
  let alignment ← readWord
  let poolSizes ← readCounted eof UInt32 (fun n => countError "MMPL pools" n.toNat) 8 readWord
  let placements ← readCounted eof UInt32 (fun n => countError "MMPL placements" n.toNat) 11
    readPlacement
  pure ⟨poolSizes, planAlignment alignment, placements⟩

structure TZLiteHeader where
  magic : UInt32
  version : UInt32
  numNodes : UInt32
  numWeights : UInt32
  weightDataOffset : UInt64

def readHeader : Reader Exn TZLiteHeader := do
  let magic ← readPod eof UInt32
  let version ← readPod eof UInt32
  let numNodes ← readPod eof UInt32
  let numWeights ← readPod eof UInt32
  let weightDataOffset ← readPod eof UInt64
  pure ⟨magic, version, numNodes, numWeights, weightDataOffset⟩

/-- Parse a payload from its start; bytes it leaves are skipped. -/
def parse (p : Reader Exn α) (payload : List UInt8) : Except Exn α := do
  let r ← p payload
  pure r.1

/-- A section sets its part of the model; an unknown tag is skipped. -/
def applySection (m : LoadedModel) (tag : UInt32) (payload : List UInt8) :
    Except Exn LoadedModel :=
  if tag = tagTval then do
    let tvs ← parse parseTvalPayload payload
    pure { m with tensorValues := tvs }
  else if tag = tagWgts then pure { m with weightBlob := payload }
  else if tag = tagIosp then do
    let io ← parse parseIospPayload payload
    pure { m with inputIds := io.1, outputIds := io.2 }
  else if tag = tagMeta then do
    let entries ← parse parseMetaPayload payload
    pure { m with metadata := entries }
  else if tag = tagMmpl then do
    let plan ← parse parseMmplPayload payload
    pure { m with memoryPlan := some plan }
  else pure m

def readSection (m : LoadedModel) : Reader Exn LoadedModel := do
  let tag ← readPod eof UInt32
  let size ← readPod eof UInt64
  checkCount (readerError "TLV section overruns end of buffer") size.toNat 1
  let payload ← readBytes eof size.toNat
  fun s => do
    let m ← applySection m tag payload
    pure (m, s)

def readSections (m : LoadedModel) : ℕ → Reader Exn LoadedModel
  | 0 => pure m
  | n + 1 => do
      let m ← readSection m
      readSections m n

def readSectionTable (m : LoadedModel) : Reader Exn LoadedModel := do
  let count ← readPod eof UInt32
  checkCount (countError "TLV sections" count.toNat) count.toNat 12
  readSections m count.toNat

/-- The ids that were loaded, where there are any. -/
def handedIds (ids own : List Int16) : List Int16 := if ids = [] then own else ids

def LoadedModel.handOver (m : LoadedModel) : LoadedModel :=
  { m with
    graph :=
      { m.graph with
        inputIds := handedIds m.inputIds m.graph.inputIds
        outputIds := handedIds m.outputIds m.graph.outputIds } }

def loadFull (data : List UInt8) : Except Exn LoadedModel := do
  throwIf (data.length < 24) (readerError "invalid input data")
  let (header, body) ← readHeader data
  throwIf (header.magic ≠ tzliteMagic) (readerError "bad magic — not a TZLITE file")
  throwIf (header.version < tzliteVersionMinSupported ∨ tzliteVersion < header.version)
    (readerError ("unsupported TZLITE version " ++ toString header.version.toNat ++
      " (this build supports versions 1..3)"))
  let (nodes, rest) ← readMany (readNode header.version) header.numNodes.toNat body
  let m : LoadedModel := ⟨⟨nodes, [], []⟩, [], [], [], [], [], none⟩
  let tlvStart := header.weightDataOffset.toNat
  if tlvStart < data.length then do
    throwIf (tlvStart < data.length - rest.length)
      (readerError "weight_data_offset overlaps the node table")
    let m ← parse (readSectionTable m) (data.drop tlvStart)
    pure m.handOver
  else pure m

def WriteOptions.sortedWeights (opts : WriteOptions) : List (Int16 × Weight) :=
  opts.weights.insertionSort fun a b => a.1.toInt ≤ b.1.toInt

/-- Each weight with its offset in the payload, the first of which is `offset`. -/
def locateWeights : ℕ → List (Int16 × Weight) → List (Int16 × Weight × ℕ)
  | _, [] => []
  | offset, (id, w) :: rest => (id, w, offset) :: locateWeights (offset + w.bytes.length) rest

def WriteOptions.wgtsPayload (opts : WriteOptions) : List UInt8 :=
  opts.sortedWeights.flatMap fun w => w.2.bytes

/-- An id has at most one entry; the source of one it has is overwritten. -/
def addOrUpdate (tvs : List TensorValue) (id : Int16) (src : TensorSource)
    (set : TensorValue → TensorValue) : List TensorValue :=
  if tvs.any fun tv => tv.tensorId = id then
    tvs.map fun tv => if tv.tensorId = id then set { tv with source := src } else tv
  else tvs ++ [set ⟨id, src, .float32, [], 0, 0, 0⟩]

/-- The declared type and shape of an input, where there are any. -/
def setSpec (opts : WriteOptions) (tv : TensorValue) : TensorValue :=
  match opts.inputSpecs.lookup tv.tensorId with
  | none => tv
  | some spec => { tv with dtype := spec.1, shape := spec.2 }

def addInput (opts : WriteOptions) (tvs : List TensorValue) (input : Int16 × ℕ) :
    List TensorValue :=
  addOrUpdate tvs input.1 .input fun tv =>
    setSpec opts { tv with inputIndex := UInt32.ofNat input.2 }

def addWeight (tvs : List TensorValue) (weight : Int16 × Weight × ℕ) : List TensorValue :=
  addOrUpdate tvs weight.1 .weight fun tv =>
    { tv with
      dtype := weight.2.1.dtype
      shape := weight.2.1.shape
      weightOffset := UInt64.ofNat weight.2.2
      weightNbytes := UInt64.ofNat weight.2.1.bytes.length }

def addIntermediate (tvs : List TensorValue) (id : Int16) : List TensorValue :=
  addOrUpdate tvs id .intermediate fun tv => tv

/-- The outputs of the graph and of its nodes. -/
def producedIds (graph : LiteGraph) (opts : WriteOptions) : List Int16 :=
  opts.outputIds ++ graph.nodes.flatMap LiteNode.outputIds

/-- The entries before they are sorted. -/
def tensorEntries (graph : LiteGraph) (opts : WriteOptions) : List TensorValue :=
  (producedIds graph opts).foldl addIntermediate
    ((locateWeights 0 opts.sortedWeights).foldl addWeight
      (opts.inputIds.zipIdx.foldl (addInput opts) []))

def tensorTable (graph : LiteGraph) (opts : WriteOptions) : List TensorValue :=
  (tensorEntries graph opts).insertionSort fun a b => a.tensorId.toInt ≤ b.tensorId.toInt

/-- The sections in the order they are written, each with its tag. -/
def sections (graph : LiteGraph) (opts : WriteOptions) : List (UInt32 × List UInt8) :=
  [(tagTval, buildTvalPayload (tensorTable graph opts))] ++
    ((if opts.wgtsPayload = [] then [] else [(tagWgts, opts.wgtsPayload)]) ++
      ((if opts.inputIds = [] ∧ opts.outputIds = [] then []
        else [(tagIosp, buildIospPayload opts.inputIds opts.outputIds)]) ++
        ((if opts.metadata = [] then [] else [(tagMeta, buildMetaPayload opts.metadata)]) ++
          opts.memoryPlan.toList.map fun plan => (tagMmpl, buildMmplPayload plan))))

def writeSection (sec : UInt32 × List UInt8) : List UInt8 :=
  appendPod sec.1 ++ (appendPod (UInt64.ofNat sec.2.length) ++ sec.2)

def writeHeader (h : TZLiteHeader) : List UInt8 :=
  appendPod h.magic ++
    (appendPod h.version ++
      (appendPod h.numNodes ++ (appendPod h.numWeights ++ appendPod h.weightDataOffset)))

def save (graph : LiteGraph) (opts : WriteOptions) : Except Exn (List UInt8) := do
  let nodeBytes ← serialiseNodeTable graph tzliteVersion
  let header : TZLiteHeader :=
    ⟨tzliteMagic, tzliteVersion, UInt32.ofNat graph.nodes.length,
      UInt32.ofNat opts.weights.length, UInt64.ofNat (24 + nodeBytes.length)⟩
  let secs := sections graph opts
  let file := writeHeader header ++ (nodeBytes ++
    (appendPod (UInt32.ofNat secs.length) ++ secs.flatMap writeSection))
  throwIf ((file.length : Int) > int64Max) (.runtimeError "TZLiteWriter: write failed")
  pure file

/-- A tensor over bytes of the blob. -/
structure Constant where
  dtype : UInt8
  shape : List Int64
  bytes : List UInt8
  deriving DecidableEq

def fromBlobStep (n : Int) (dim : Int64) : Except Exn Int := do
  throwIf (dim.toInt < 0) (.invalidArgument "from_blob: shape dimensions must be non-negative")
  throwIf (dim.toInt ≠ 0 ∧ safeAbs n > int64Max.toNat / safeAbs dim.toInt)
    (.overflowError "from_blob: shape produces more than INT64_MAX elements")
  pure (wrap64 (n * dim.toInt))

/-- The data of a blob that has bytes is not null. -/
def fromBlob (bytes : List UInt8) (shape : List Int64) (dtype : UInt8) : Except Exn Constant := do
  let _ ← computeStrides (shape.map Int64.toInt)
  let n ← shape.foldlM fromBlobStep 1
  throwIf (0 < n ∧ n.toNat > uint64Max / sizeOfCode dtype)
    (.overflowError "from_blob: byte size overflow")
  pure ⟨dtype, shape, bytes⟩

def weightError (id : Int16) (what : String) : Exn :=
  .runtimeError ("LiteRuntime::forward: weight for tensor_id " ++ toString id ++ what)

def constantOf (blob : List UInt8) (tv : LoadedValue) : Except Exn (Int16 × Constant) := do
  let offset := tv.weightOffset.toNat
  let nbytes := tv.weightNbytes.toNat
  throwIf (offset > blob.length ∨ nbytes > blob.length - offset)
    (weightError tv.tensorId " refers to bytes past end of WGTS payload")
  throwIf (sizeOfCode tv.dtype = 0) (weightError tv.tensorId " has an unknown/unsupported dtype")
  let numel ← checkedNumel (weightError tv.tensorId) tv.shape 1
  throwIf (numel > uint64Max / sizeOfCode tv.dtype)
    (weightError tv.tensorId " byte size overflows")
  throwIf (numel * sizeOfCode tv.dtype ≠ nbytes) (weightError tv.tensorId
    (" declared byte count (" ++ toString nbytes ++ ") does not match shape*dtype size (" ++
      toString (numel * sizeOfCode tv.dtype) ++ ")"))
  let c ← fromBlob ((blob.drop offset).take nbytes) tv.shape tv.dtype
  pure (tv.tensorId, c)

/-- The entries by id, from `0` to the highest; an id without one has the default. -/
def indexTensorValues (tvs : List LoadedValue) : Except Exn (List LoadedValue) := do
  tvs.forM fun tv => throwIf (tv.tensorId.toInt < 0) (.runtimeError
    ("LiteRuntime: negative tensor_id (" ++ toString tv.tensorId ++ ") in model"))
  let maxId := tvs.foldl (fun hi tv => max hi tv.tensorId.toInt) (-1)
  pure ((List.range (maxId + 1).toNat).map fun i =>
    (tvs.reverse.find? fun tv => tv.tensorId = Int16.ofNat i).getD
      ⟨Int16.ofNat i, sourceCode .intermediate, dtypeCode .float32, [], 0, 0, 0⟩)

/-- The tensors that a run of the model starts with. -/
def constants (m : LoadedModel) : Except Exn (List (Int16 × Constant)) := do
  let table ← indexTensorValues m.tensorValues
  if table = [] ∨ m.weightBlob = [] then pure []
  else (table.filter fun tv => tv.source = sourceCode .weight).mapM (constantOf m.weightBlob)

end Tenzor.Lite
