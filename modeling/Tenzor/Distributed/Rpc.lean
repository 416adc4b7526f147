import Tenzor.Core.TensorBytes
import Tenzor.Lib.Cursor
import Tenzor.Lite.ModelFormat

/-!
# The frames of the RPC agent

A message is sent as its length and its payload, with every field a big-endian word. The
receiver takes the payload off the socket first and parses it in memory.

## Implementation notes

The socket is the list of the bytes that are still to come. Strings are lists of bytes, and
the tensors of a message are on the CPU. A rejected frame is the `nullopt` of the source.
-/

namespace Tenzor.Rpc

open Throwing Wrap64 Wire Cursor Tenzor.Lite

/-- A message with tensors of type `T`. -/
structure Message (T : Type) where
  type : UInt8
  srcWorker : Int32
  dstWorker : Int32
  requestId : Int64
  functionName : List UInt8
  bytes : List UInt8
  authToken : List UInt8
  tensors : List T

def appendTensor (mem : Bytes) (t : TensorImpl) : Except Exn (List UInt8) := do
  let (cpu, source) ← t.contiguous
  let n ← numel cpu.shape
  let nbytes := UInt64.ofNat (n.toNat * dtypeSize cpu.dtype)
  let _ ← checkedMul cpu.offset (dtypeSize cpu.dtype)
  pure (appendBE (dtypeCode cpu.dtype).toUInt32 ++
    (appendBE (UInt32.ofNat cpu.shape.length) ++
      (cpu.shape.flatMap (fun d => appendBE (Int64.ofInt d)) ++
        (appendBE nbytes ++ (tensorData mem t n source).take nbytes.toNat))))

/-- A string after its length. -/
def appendString (s : List UInt8) : List UInt8 := appendBE (UInt32.ofNat s.length) ++ s

def serializeMessage (mem : Bytes) (m : Message TensorImpl) : Except Exn (List UInt8) := do
  let tensors ← m.tensors.mapM (appendTensor mem)
  pure (appendBE m.type ++
    (appendBE m.srcWorker ++
      (appendBE m.dstWorker ++
        (appendBE m.requestId ++
          (appendString m.functionName ++
            (appendString m.bytes ++
              (appendString m.authToken ++
                (appendBE (UInt32.ofNat m.tensors.length) ++ tensors.flatten))))))))

/-- What `send_framed` writes to the socket for a payload. -/
def frame (payload : List UInt8) : List UInt8 :=
  appendBE (UInt32.ofNat payload.length) ++ payload

def sendFramed (mem : Bytes) (m : Message TensorImpl) : Except Exn (List UInt8) := do
  let payload ← serializeMessage mem m
  pure (frame payload)

def maxPayloadBytes : ℕ := 1073741824

def chunkBytes : ℕ := 65536

/-- The body is taken in chunks. -/
def readBody (remaining : ℕ) : Reader Fault (List UInt8) :=
  if remaining = 0 then pure []
  else do
    let chunk ← readBytes .rejected (min remaining chunkBytes)
    let rest ← readBody (remaining - min remaining chunkBytes)
    pure (chunk ++ rest)
termination_by remaining
decreasing_by
  rw [chunkBytes]
  omega

def readPayload : Reader Fault (List UInt8) := do
  let payloadLen ← readBE .rejected UInt32
  failIf (maxPayloadBytes < payloadLen.toNat) .rejected
  readBody payloadLen.toNat

def take (n : ℕ) : Parser (List UInt8) := do
  checkEnd n
  copy n

def takeWord (α : Type) [Pod α] : Parser α := do
  let bytes ← take (Pod.width α)
  pure (Pod.ofNat (ofLeBytes bytes.reverse))

def takeString : Parser (List UInt8) := do
  let len ← takeWord UInt32
  checkLeft len.toNat
  copy len.toNat

/-- The number of elements, with every product checked. -/
def checkedNumel (n : Int) : List Int → Parser Int
  | [] => pure n
  | d :: shape => do
      rejectIf (d < 0)
      rejectIf (¬ InInt64 (n * d))
      checkedNumel (n * d) shape

def takeTensor : Parser LoadedTensor := do
  let dtypeWord ← takeWord UInt32
  let ndim ← takeWord UInt32
  rejectIf (4096 < ndim.toNat)
  let dims ← parseMany (takeWord Int64) ndim.toNat
  let shape := dims.map Int64.toInt
  let n ← checkedNumel 1 shape
  let nbytes ← takeWord UInt64
  checkLeft nbytes.toNat
  let dtype ← orReject dtypes[dtypeWord.toUInt8.toNat]?
  rejectIf (words ≤ n.toNat * dtypeSize dtype)
  rejectIf (nbytes.toNat ≠ n.toNat * dtypeSize dtype)
  let t ← orReject (TensorImpl.allocate 0 shape dtype).toOption
  let data ← copy nbytes.toNat
  pure ⟨t, data⟩

def parseMessage : Parser (Message LoadedTensor) := do
  let type ← takeWord UInt8
  let src ← takeWord Int32
  let dst ← takeWord Int32
  let rid ← takeWord Int64
  let functionName ← takeString
  let bytes ← takeString
  let authToken ← takeString
  let nt ← takeWord UInt32
  let tensors ← parseMany takeTensor nt.toNat
  pure ⟨type, src, dst, rid, functionName, bytes, authToken, tensors⟩

/-- The message of the next frame and the bytes that follow the frame. What the payload holds
behind the message is not looked at. -/
def deserializeMessage : Reader Fault (Message LoadedTensor) := fun stream => do
  let (payload, rest) ← readPayload stream
  let (m, _) ← parseMessage payload 0
  pure (m, rest)

end Tenzor.Rpc
