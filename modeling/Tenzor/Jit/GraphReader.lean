import Tenzor.Core.DeclaredTensors
import Tenzor.Lib.Dict
import Tenzor.Lib.Scanner

/-!
# Reading a graph file

`GraphReader::read` takes the header of a `.graph` file and the graph behind it. The branches and
the body of a control-flow node are graphs again, each with values of its own.

## Implementation notes

A reference to a value is its id. The fuel of `readGraph` bounds the nesting. A double keeps its
bits, and a node that has no name in the file has none here. The table of tensors that the source
reserves for later is empty.
-/

namespace Tenzor.Jit.GraphFile

open Throwing Metered
open Lite (uint64Max)
open Scanner (asString)

abbrev Text := List UInt8

inductive DeviceType
  | cpu | cuda | rocm | oneAPI | vulkan | mps
  deriving DecidableEq, Repr

/-- `Geqrf` is the last of the enumerators. -/
abbrev OpType := Fin 170

structure Value where
  id : Text
  shape : List Int64
  dtype : DType
  deviceType : DeviceType
  deviceIndex : Int32

structure Node (G : Type) where
  opType : OpType
  name : Text
  inputs : List Text
  outputs : List Text
  floatAttrs : Dict Text UInt64
  intAttrs : Dict Text Int64
  vecAttrs : Dict Text (List Int64)
  boolAttrs : Dict Text Bool
  tensorAttrs : Dict Text LoadedTensor
  thenBranch : Option G
  elseBranch : Option G
  body : Option G

inductive Graph
  | mk (metadata : Dict Text Text) (values : Dict Text Value) (nodes : List (Node Graph))
      (inputs outputs : List Text) (constants : Dict Text LoadedTensor)

/-- The graphs inside a node. -/
def Node.subgraphs {G : Type} (node : Node G) : List G :=
  node.thenBranch.toList ++ node.elseBranch.toList ++ node.body.toList

/-- The enumerators in the order of their codes. -/
def deviceTypes : List DeviceType := [.cpu, .cuda, .rocm, .oneAPI, .vulkan, .mps]

def opTypeOf (raw : ℕ) : Option OpType := if h : raw < 170 then some ⟨raw, h⟩ else none

def magicNumber : UInt32 := 0x544A5A54
def serializationVersion : UInt32 := 5

def graphError (what : String) : Exn := .runtimeError ("GraphReader::" ++ what)

def truncated (what : String) : Exn := graphError ("read_" ++ what ++ ": truncated file")

/-- A list names a value that the values section does not have. -/
def noValue (before : String) (id : Text) : Exn :=
  .runtimeError (before ++ " value '" ++ asString id ++
    "' that does not exist in the values section")

def readUInt32 : Reading Exn UInt32 := readPod (truncated "uint32") UInt32

def readUInt64 : Reading Exn UInt64 := readPod (truncated "uint64") UInt64

def readInt64 : Reading Exn Int64 := readPod (truncated "int64") Int64

def readDouble : Reading Exn UInt64 := readPod (truncated "double") UInt64

def readBool : Reading Exn Bool := do
  let byte ← readPod (truncated "bool") UInt8
  pure (byte ≠ 0)

def readString : Reading Exn Text := do
  let size ← readUInt64
  checkLeft (graphError "read_string: declared size exceeds remaining file") size.toNat
  demand size.toNat
  readBytes (graphError "read_string: truncated string") size.toNat

/-- A loop over elements that a count declares. -/
def readList {α : Type} (tooMany : UInt64 → Exn) (size : ℕ) (m : Reading Exn α) :
    Reading Exn (List α) :=
  readCounted (truncated "uint64") UInt64 tooMany size m

def readInt64Vector : Reading Exn (List Int64) :=
  readList (fun _ => graphError "read_int64_vector: declared size exceeds remaining file") 8
    readInt64

def readDType (reader : String) : Reading Exn DType := do
  let raw ← readUInt32
  failIf (21 < raw.toNat) (graphError (reader ++ ": unknown dtype value " ++ toString raw.toNat))
  cast (Lite.dtypes[raw.toNat]?)

def readDeviceType (reader : String) : Reading Exn DeviceType := do
  let raw ← readUInt32
  failIf (6 ≤ raw.toNat)
    (graphError (reader ++ ": unknown device type value " ++ toString raw.toNat))
  cast (deviceTypes[raw.toNat]?)

/-- The number of elements, from a number on. -/
def checkedNumel : List Int64 → ℕ → Except Exn ℕ
  | [], numel => pure numel
  | d :: shape, numel => do
      throwIf (d.toInt < 0) (graphError "read_tensor: negative dimension in shape")
      throwIf (d.toInt.toNat ≠ 0 ∧ uint64Max / d.toInt.toNat < numel)
        (graphError "read_tensor: shape product overflows uint64")
      checkedNumel shape (numel * d.toInt.toNat % 18446744073709551616)

/-- The shape is walked through for the number of elements and for the strides. -/
def readTensor : Reading Exn LoadedTensor := do
  let shape ← readInt64Vector
  let dtype ← readDType "read_tensor"
  let _ ← readDeviceType "read_tensor"
  let _ ← readInt64
  let dataSize ← readUInt64
  revisit shape.length
  let numel ← ofExcept (checkedNumel shape 1)
  failIf (dtypeSize dtype ≠ 0 ∧ uint64Max / dtypeSize dtype < numel)
    (graphError "read_tensor: byte size overflows uint64")
  let expected := numel * dtypeSize dtype % 18446744073709551616
  failIf (dataSize.toNat ≠ expected)
    (graphError ("read_tensor: data_size (" ++ toString dataSize.toNat ++
      ") does not match tensor byte size (" ++ toString expected ++ ")"))
  let left ← unread
  failIf (left < dataSize.toNat)
    (graphError ("read_tensor: declared data_size (" ++ toString dataSize.toNat ++
      ") exceeds remaining file bytes (" ++ toString left ++ ")"))
  revisit shape.length
  let t ← Declared.makeTensor (shape.map Int64.toInt) dtype
  let data ← readBytes (graphError "read_tensor: truncated tensor data") dataSize.toNat
  pure ⟨t, data⟩

/-- The declared number of nodes and the user's metadata. -/
def readMetadata : Reading Exn (ℕ × Dict Text Text) := do
  let numNodes ← readUInt64
  let _ ← readUInt64
  let _ ← readUInt64
  let _ ← readUInt64
  let pairs ← readList (fun n => graphError ("read_metadata: metadata pair count (" ++
    toString n.toNat ++ ") exceeds remaining file bytes")) 1 (do
      let key ← readString
      let value ← readString
      pure (key, value))
  pure (numNodes.toNat, Dict.ofEntries pairs)

def readValue : Reading Exn Value := do
  let id ← readString
  let shape ← readInt64Vector
  let dtype ← readDType "read_values"
  let deviceType ← readDeviceType "read_values"
  let deviceIndex ← readInt64
  pure ⟨id, shape, dtype, deviceType, deviceIndex.toInt32⟩

/-- A later value takes the place of an earlier one of the same id. -/
def readValues : Reading Exn (Dict Text Value) := do
  let values ← readList (fun _ => graphError "read_values: num_values exceeds remaining file") 8
    readValue
  pure (Dict.ofEntries (values.map fun v => (v.id, v)))

/-- The id of a value that exists. -/
def readReference (values : Dict Text Value) (err : Text → Exn) : Reading Exn Text := do
  let id ← readString
  failIf (values.lookup id).isNone (err id)
  pure id

def readReferences (values : Dict Text Value) (what : String) (err : Text → Exn) :
    Reading Exn (List Text) :=
  readList (fun _ => graphError (what ++ " exceeds remaining file")) 8 (readReference values err)

/-- The attributes of one kind. -/
def readAttrs {α : Type} (what : String) (m : Reading Exn α) : Reading Exn (Dict Text α) := do
  let attrs ← readList (fun _ => graphError ("read_nodes: " ++ what ++ " exceeds remaining file"))
    8 (do
      let name ← readString
      let val ← m
      pure (name, val))
  pure (Dict.ofEntries attrs)

def readSubgraph (m : Reading Exn Graph) : Reading Exn (Option Graph) := do
  let present ← readBool
  if present then do
    let g ← m
    pure (some g)
  else pure none

def readNode (values : Dict Text Value) (sub : Reading Exn (Option Graph)) :
    Reading Exn (Node Graph) := do
  let rawOp ← readUInt32
  failIf (169 < rawOp.toNat)
    (graphError ("read_nodes: invalid OpType value " ++ toString rawOp.toNat))
  let opType ← cast (opTypeOf rawOp.toNat)
  let name ← readString
  let inputs ← readReferences values "read_nodes: num_inputs" (noValue
    ("GraphReader: malformed graph — node '" ++ asString name ++ "' references input"))
  let outputs ← readReferences values "read_nodes: num_outputs" (noValue
    ("GraphReader: malformed graph — node '" ++ asString name ++ "' produces output"))
  let floatAttrs ← readAttrs "num_float_attrs" readDouble
  let intAttrs ← readAttrs "num_int_attrs" readInt64
  let vecAttrs ← readAttrs "num_vec_attrs" readInt64Vector
  let boolAttrs ← readAttrs "num_bool_attrs" readBool
  let tensorAttrs ← readAttrs "num_tensor_attrs" readTensor
  let thenBranch ← sub
  let elseBranch ← sub
  let body ← sub
  pure ⟨opType, name, inputs, outputs, floatAttrs, intAttrs, vecAttrs, boolAttrs, tensorAttrs,
    thenBranch, elseBranch, body⟩

/-- The count is the one of the metadata, which a nested graph does not change. -/
def readNodes (numNodes : ℕ) (values : Dict Text Value) (sub : Reading Exn (Option Graph)) :
    Reading Exn (List (Node Graph)) := do
  checkCount (graphError "read_nodes: num_nodes exceeds remaining file") numNodes 8
  demand numNodes
  readMany (readNode values sub) numNodes

def readIoLists (values : Dict Text Value) : Reading Exn (List Text × List Text) := do
  let ins ← readReferences values "read_io_lists: num_inputs" (noValue
    "GraphReader::read_io_lists: malformed graph — input list references")
  let outs ← readReferences values "read_io_lists: num_outputs" (noValue
    "GraphReader::read_io_lists: malformed graph — output list references")
  pure (ins, outs)

def readConstants : Reading Exn (Dict Text LoadedTensor) := do
  let constants ← readList
    (fun _ => graphError "read_constants: num_constants exceeds remaining file") 8 (do
      let id ← readString
      let tensor ← readTensor
      pure (id, tensor))
  pure (Dict.ofEntries constants)

def readGraph : ℕ → Reading Exn Graph
  | 0 => outOfFuel
  | fuel + 1 => do
      let metadata ← readMetadata
      let values ← readValues
      let nodes ← readNodes metadata.1 values (readSubgraph (readGraph fuel))
      let io ← readIoLists values
      let constants ← readConstants
      pure (.mk metadata.2 values nodes io.1 io.2 constants)

def readHeader : Reading Exn Unit := do
  let magic ← readUInt32
  failIf (magic ≠ magicNumber)
    (.runtimeError "Invalid file format: magic number mismatch")
  let version ← readUInt32
  failIf (version ≠ serializationVersion)
    (.runtimeError ("Unsupported serialization version: " ++ toString version.toNat))

/-- The nesting is bounded by the length of the file. -/
def read (file : List UInt8) : Run Exn Graph :=
  (do
    readHeader
    readGraph file.length : Reading Exn Graph) file

end Tenzor.Jit.GraphFile
