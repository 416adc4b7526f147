import Tenzor.Core.TensorBytes
import Tenzor.Lib.Dict
import Tenzor.Lite.ModelFormat

/-!
# The checkpoint file of a state dictionary

`save` writes the names and the tensors of a dictionary one after the other, and
`load` reads them back into tensors of their own.

## Implementation notes

A dictionary is a list of entries with distinct names, in the order of an iteration.
The host is little-endian, and no stream is too long for its offsets.
-/

namespace Tenzor.Nn

open Wire Wrap64 Tenzor.Lite

namespace Serializer

def magic : UInt32 := 0x544E5A52

def version : UInt32 := 1

def endOfFile : Exn := .runtimeError "Unexpected end of file"

def serializerError (what : String) : Exn := .runtimeError ("Serializer: " ++ what)

def writeString (str : Text) : List UInt8 := appendPod (UInt32.ofNat str.length) ++ str

def writeTensor (mem : Bytes) (name : Text) (t : TensorImpl) : Except Exn (List UInt8) := do
  let (cpu, source) ← t.toCpu
  let n ← numel cpu.shape
  let _ ← checkedMul cpu.offset (dtypeSize cpu.dtype)
  pure (writeString name ++
    (appendPod (dtypeCode cpu.dtype) ++
      (appendPod (UInt32.ofNat cpu.shape.length) ++
        (cpu.shape.flatMap (fun d => appendPod (Int64.ofInt d)) ++ tensorData mem t n source))))

def save (mem : Bytes) (dict : List (Text × TensorImpl)) : Except Exn (List UInt8) := do
  let tensors ← dict.mapM fun e => writeTensor mem e.1 e.2
  pure (appendPod magic ++
    (appendPod version ++ (appendPod (UInt32.ofNat dict.length) ++ tensors.flatten)))

def readString : Reader Exn Text := do
  let size ← readPod endOfFile UInt32
  let left ← remaining
  failIf (left < size.toNat) (serializerError "string length exceeds remaining file size")
  readBytes (serializerError "unexpected end of file while reading string") size.toNat

/-- `uint8_to_dtype` and the check that the type can be read. -/
def readDtype : Reader Exn DType := do
  let code ← readPod endOfFile UInt8
  match dtypes[code.toNat]? with
  | some dtype => pure dtype
  | none => fun _ => .error (serializerError ("unknown dtype in file: " ++ toString code.toNat))

/-- The dimensions from an element count on. -/
def readShape (n : Int) : ℕ → Reader Exn (List Int × Int)
  | 0 => pure ([], n)
  | ndim + 1 => do
      let word ← readPod endOfFile Int64
      let dim := word.toInt
      failIf (dim < 0) (serializerError "negative dimension in shape")
      failIf (dim ≠ 0 ∧ int64Max / dim < n) (serializerError "tensor element count overflow")
      let rest ← readShape (n * dim) ndim
      pure (dim :: rest.1, rest.2)

/-- The tensor that is made for a shape, on a storage of its own. -/
def makeTensor (shape : List Int) (dtype : DType) : Reader Exn TensorImpl := fun s => do
  let t ← TensorImpl.allocate 0 shape dtype
  pure (t, s)

def readTensor : Reader Exn (Text × LoadedTensor) := do
  let name ← readString
  let dtype ← readDtype
  let ndim ← readPod endOfFile UInt32
  let left ← remaining
  failIf (left < ndim.toNat * 8)
    (serializerError "shape dimension count exceeds remaining file size")
  let shape ← readShape 1 ndim.toNat
  let t ← makeTensor shape.1 dtype
  let left ← remaining
  failIf (left < t.storage.sizeBytes) (serializerError "tensor data exceeds remaining file size")
  let data ← readBytes (serializerError "unexpected end of file while reading tensor data")
    t.storage.sizeBytes
  pure (name, ⟨t, data⟩)

def readDict : Reader Exn (List (Text × LoadedTensor)) := do
  let fileMagic ← readPod endOfFile UInt32
  failIf (fileMagic ≠ magic) (.runtimeError "Invalid file format: magic number mismatch")
  let fileVersion ← readPod endOfFile UInt32
  failIf (fileVersion ≠ version)
    (.runtimeError ("Unsupported file format version: " ++ toString fileVersion.toNat))
  let numTensors ← readPod endOfFile UInt32
  let entries ← readMany readTensor numTensors.toNat
  pure (entries.foldl Dict.assignEntry [])

/-- `load`; what stands after the last tensor is not looked at. -/
def load (file : List UInt8) : Except Exn (List (Text × LoadedTensor)) := parse readDict file

end Serializer

end Tenzor.Nn
