import Tenzor.Core.TensorBytes
import Tenzor.Lib.Dict
import Tenzor.Lib.Scanner
import Tenzor.Lite.ModelFormat

/-!
# SafeTensors files

A file holds the length of a header, the header, and the data of the tensors one after the
other. The header is JSON that is written and parsed by hand: it gives the type, the shape and
the place of the data of each tensor under its name.

## Implementation notes

A dictionary is a list of entries with distinct names, in the order of an iteration. The host is
little-endian, and a file that no stream offset reaches the end of cannot be written.
-/

namespace Tenzor.Nn

open Throwing Wire Wrap64 Scanner Tenzor.Lite

namespace SafeTensors

def dtypeToStString : DType → Text
  | .float32 => ascii "F32" | .float64 => ascii "F64" | .float16 => ascii "F16"
  | .bfloat16 => ascii "BF16" | .int8 => ascii "I8" | .int16 => ascii "I16"
  | .int32 => ascii "I32" | .int64 => ascii "I64" | .uint8 => ascii "U8"
  | .uint16 => ascii "U16" | .uint32 => ascii "U32" | .uint64 => ascii "U64"
  | .bool => ascii "BOOL" | .complex64 => ascii "C64" | .complex128 => ascii "C128"
  | .fp8E4M3 => ascii "F8_E4M3" | .fp8E5M2 => ascii "F8_E5M2"
  | .fp8E4M3FNUZ => ascii "F8_E4M3FNUZ" | .fp8E5M2FNUZ => ascii "F8_E5M2FNUZ"
  | .qint8 => ascii "QI8" | .quint8 => ascii "QU8" | .qint4x2 => ascii "QI4X2"

/-- The strings that are compared, one after the other. -/
def stDtypes : List (Text × DType) :=
  [(ascii "F32", .float32), (ascii "F64", .float64), (ascii "F16", .float16),
    (ascii "BF16", .bfloat16), (ascii "I8", .int8), (ascii "I16", .int16), (ascii "I32", .int32),
    (ascii "I64", .int64), (ascii "U8", .uint8), (ascii "U16", .uint16), (ascii "U32", .uint32),
    (ascii "U64", .uint64), (ascii "BOOL", .bool), (ascii "F8_E4M3", .fp8E4M3),
    (ascii "F8_E5M2", .fp8E5M2), (ascii "F8_E4M3FNUZ", .fp8E4M3FNUZ),
    (ascii "F8_E5M2FNUZ", .fp8E5M2FNUZ), (ascii "C64", .complex64), (ascii "C128", .complex128),
    (ascii "QI8", .qint8), (ascii "QU8", .quint8), (ascii "QI4X2", .qint4x2)]

def stStringToDtype (s : Text) : Except Exn DType :=
  match stDtypes.find? fun e => e.1 = s with
  | some e => pure e.2
  | none => throw (.runtimeError ("SafeTensors: unknown dtype string '" ++ asString s ++ "'"))

def escapeChar (c : UInt8) : Text :=
  if c = 34 then [92, 34]
  else if c = 92 then [92, 92]
  else if c = 10 then [92, 110]
  else if c = 13 then [92, 114]
  else if c = 9 then [92, 116]
  else [c]

def escapeJsonString (s : Text) : Text := s.flatMap escapeChar

def quoted (s : Text) : Text := 34 :: (s ++ [34])

def decimalInt (n : Int) : Text := if n < 0 then 45 :: decimal (-n).toNat else decimal n.toNat

/-- A tensor under its name, with the offsets of its data. -/
def tensorJson (e : (Text × TensorImpl) × ℕ × ℕ) : Text :=
  quoted (escapeJsonString e.1.1) ++ (ascii ":\x7b" ++
    ((quoted (ascii "dtype") ++ (ascii ":" ++ quoted (dtypeToStString e.1.2.dtype))) ++ (ascii "," ++
      ((quoted (ascii "shape") ++ (ascii ":[" ++ (joined 44 decimalInt e.1.2.shape ++ ascii "]"))) ++
        (ascii "," ++
          ((quoted (ascii "data_offsets") ++ (ascii ":[" ++ (decimal e.2.1 ++ (ascii "," ++
            (decimal e.2.2 ++ ascii "]"))))) ++ ascii "\x7d"))))))

/-- Where each region starts and ends. -/
def regions (offsets : List ℕ) : List (ℕ × ℕ) := offsets.zip offsets.tail

def buildHeaderJson (ordered : List (Text × TensorImpl)) (offsets : List ℕ) : Text :=
  ascii "\x7b" ++ (joined 44 tensorJson (ordered.zip (regions offsets)) ++ ascii "\x7d")

structure TensorMeta where
  dtype : DType := .float32
  shape : List Int := []
  dataStart : ℕ := 0
  dataEnd : ℕ := 0

def isSpace (c : UInt8) : Bool := c = 32 || (9 ≤ c && c ≤ 13)

/-- The loops of the parser take something in every round. -/
def noProgress : Exn := .runtimeError "SafeTensors: no progress"

def skipWs : Reader Exn Unit := fun s => .ok ((), s.dropWhile isSpace)

def peek : Reader Exn (Option UInt8) := fun s => .ok (s.head?, s)

/-- `expect`, in a text of `size` bytes. -/
def expectByte (size : ℕ) (c : UInt8) : Reader Exn Unit := fun s =>
  let s := s.dropWhile isSpace
  if s.head? = some c then .ok ((), s.tail)
  else .error (.runtimeError ("SafeTensors JSON parse error: expected '" ++ asString [c] ++
    "' at position " ++ toString (size - s.length)))

def unescape (c : UInt8) : UInt8 :=
  if c = 110 then 10 else if c = 114 then 13 else if c = 116 then 9 else c

/-- The characters up to the quote that closes the string. -/
def stringBody : List UInt8 → Text × List UInt8
  | [] => ([], [])
  | c :: rest =>
    if c = 34 then ([], c :: rest)
    else if c = 92 then
      match rest with
      | [] => ([c], [])
      | escaped :: rest =>
        let r := stringBody rest
        (unescape escaped :: r.1, r.2)
    else
      let r := stringBody rest
      (c :: r.1, r.2)

def stringChars : Reader Exn Text := fun s => .ok (stringBody s)

def parseString (size : ℕ) : Reader Exn Text := do
  expectByte size 34
  let s ← stringChars
  expectByte size 34
  pure s

def stoll (negative : Bool) (digits : Text) : Except Exn Int :=
  let value : Int := if negative then -digitsValue digits else digitsValue digits
  if digits = [] then throw (.invalidArgument "stoll")
  else if InInt64 value then pure value
  else throw (.outOfRange "stoll")

/-- A minus sign is skipped. -/
def skipMinus : Reader Exn Bool := fun s =>
  if s.head? = some 45 then .ok (true, s.tail) else .ok (false, s)

def digitChars : Reader Exn Text := fun s => .ok (s.takeWhile isDigit, s.dropWhile isDigit)

/-- A value that is computed without reading. -/
def lift {α : Type} (x : Except Exn α) : Reader Exn α := fun s => x >>= fun a => .ok (a, s)

def parseNumber : Reader Exn Int := do
  skipWs
  let negative ← skipMinus
  let digits ← digitChars
  lift (stoll negative digits)

/-- A comma after an item may be there or not. -/
def skipComma : Reader Exn Unit := fun s => .ok ((), if s.head? = some 44 then s.tail else s)

def afterItem : Reader Exn Unit := do
  skipWs
  skipComma
  skipWs

def parseShape (size : ℕ) (dims : List Int) : Reader Exn (List Int) := do
  expectByte size 91
  skipWs
  let shape ← whileNot 93 noProgress (fun dims => do
    let n ← parseNumber
    afterItem
    pure (dims ++ [n])) dims
  expectByte size 93
  pure shape

def parseOffsets (size : ℕ) : Reader Exn (ℕ × ℕ) := do
  expectByte size 91
  let start ← parseNumber
  expectByte size 44
  let stop ← parseNumber
  expectByte size 93
  pure ((start % 18446744073709551616).toNat, (stop % 18446744073709551616).toNat)

def parseValue (size : ℕ) (key : Text) (info : TensorMeta) : Reader Exn TensorMeta :=
  if key = ascii "dtype" then do
    let s ← parseString size
    let dtype ← lift (stStringToDtype s)
    pure { info with dtype }
  else if key = ascii "shape" then do
    let shape ← parseShape size info.shape
    pure { info with shape }
  else if key = ascii "data_offsets" then do
    let r ← parseOffsets size
    pure { info with dataStart := r.1, dataEnd := r.2 }
  else pure info

def parseField (size : ℕ) (info : TensorMeta) : Reader Exn TensorMeta := do
  let key ← parseString size
  expectByte size 58
  let info ← parseValue size key info
  afterItem
  pure info

/-- Whether the first key of an object is that of metadata; nothing is taken. -/
def firstKeyIsMetadata (size : ℕ) : Reader Exn Bool := fun s =>
  let inner := s.tail.dropWhile isSpace
  if inner = [] ∨ inner.head? = some 125 then .ok (false, s)
  else parseString size inner >>= fun r => .ok (r.1 = ascii "__metadata__", s)

/-- Whether an object under a name is metadata: the name or the first key says so. -/
def objectIsMetadata (size : ℕ) (name : Text) (next : Option UInt8) : Reader Exn Bool :=
  if next ≠ some 123 then pure false
  else if name = ascii "__metadata__" then pure true
  else firstKeyIsMetadata size

/-- What stands behind the brace that closes an object. -/
def afterObject : Int → List UInt8 → List UInt8
  | _, [] => []
  | depth, c :: rest =>
    if c = 123 then afterObject (depth + 1) rest
    else if c = 125 then if depth - 1 = 0 then rest else afterObject (depth - 1) rest
    else afterObject depth rest

def skipObject : Reader Exn Unit := fun s => .ok ((), afterObject 0 s)

def parseEntry (size : ℕ) (metas : List (Text × TensorMeta)) :
    Reader Exn (List (Text × TensorMeta)) := do
  let name ← parseString size
  expectByte size 58
  skipWs
  let next ← peek
  let isMetadata ← objectIsMetadata size name next
  if isMetadata then do
    skipObject
    afterItem
    pure metas
  else do
    expectByte size 123
    let info ← whileNot 125 noProgress (parseField size) {}
    expectByte size 125
    afterItem
    pure (Dict.assignEntry metas (name, info))

def parseHeader (size : ℕ) : Reader Exn (List (Text × TensorMeta)) := do
  skipWs
  expectByte size 123
  skipWs
  whileNot 125 noProgress (parseEntry size) []

def parseHeaderJson (json : Text) : Except Exn (List (Text × TensorMeta)) := do
  let r ← parseHeader json.length json
  pure r.1

/-- Sums of sizes, by words. -/
def offsetsFrom (start : ℕ) : List ℕ → List ℕ
  | [] => [start]
  | n :: sizes => start :: offsetsFrom ((start + n) % 18446744073709551616) sizes

/-- The size of the data of a tensor. -/
def byteSize (t : TensorImpl) : Except Exn ℕ := do
  let n ← numel t.shape
  pure (n.toNat * dtypeSize t.dtype % 18446744073709551616)

/-- The data of a tensor, through a contiguous copy. -/
def tensorBytes (mem : Bytes) (t : TensorImpl) : Except Exn (List UInt8) := do
  let (contiguous, source) ← t.contiguous
  let n ← numel contiguous.shape
  let _ ← checkedMul contiguous.offset (dtypeSize contiguous.dtype)
  pure (tensorData mem t n source)

/-- The entries in the order of their names. -/
def sortedByName (dict : List (Text × TensorImpl)) : List (Text × TensorImpl) :=
  dict.mergeSort fun a b => a.1 ≤ b.1

def save (mem : Bytes) (dict : List (Text × TensorImpl)) (path : String) :
    Except Exn (List UInt8) := do
  let ordered := sortedByName dict
  let sizes ← ordered.mapM fun e => byteSize e.2
  let header := buildHeaderJson ordered (offsetsFrom 0 sizes)
  let data ← ordered.mapM fun e => tensorBytes mem e.2
  let file := appendPod (UInt64.ofNat header.length) ++ (header ++ data.flatten)
  throwIf (int64Max < file.length) (.runtimeError ("SafeTensors: error writing file: " ++ path))
  pure file

def hasNegativeRegion (name : Text) : Exn :=
  .runtimeError ("SafeTensors: tensor '" ++ asString name ++ "' has data_end < data_start")

/-- The regions follow on one another, and what comes after the last one. -/
def contiguousFrom (expectedStart : ℕ) : List (ℕ × ℕ) → Except Exn ℕ
  | [] => pure expectedStart
  | (start, stop) :: regions => do
      throwIf (start ≠ expectedStart) (.runtimeError
        ("SafeTensors: tensor data offsets are not contiguous (expected region to start at " ++
          toString expectedStart ++ " but found " ++ toString start ++
          "); file has gaps or overlapping tensors"))
      contiguousFrom stop regions

def checkRegions (metas : List (Text × TensorMeta)) (dataLen : ℕ) : Except Exn Unit := do
  metas.forM fun e => throwIf (e.2.dataEnd < e.2.dataStart) (hasNegativeRegion e.1)
  let regions := (metas.map fun e => (e.2.dataStart, e.2.dataEnd)).mergeSort fun a b =>
    a.1 < b.1 || (a.1 = b.1 && a.2 ≤ b.2)
  let stop ← contiguousFrom 0 regions
  if regions = [] then
    throwIf (dataLen ≠ 0) (.runtimeError
      ("SafeTensors: header declares no tensors but the data section is " ++
        toString dataLen ++ " bytes (expected 0)"))
  else
    throwIf (stop ≠ dataLen) (.runtimeError
      ("SafeTensors: tensor data offsets do not cover the data section (regions end at " ++
        toString stop ++ " but data section is " ++ toString dataLen ++ " bytes)"))

/-- The element count of a shape, from a count on. -/
def checkedNumel (name : Text) (n : Int) : List Int → Except Exn Int
  | [] => pure n
  | dim :: shape => do
      throwIf (dim < 0) (.runtimeError
        ("SafeTensors: tensor '" ++ asString name ++ "' has a negative dimension"))
      throwIf (n ≠ 0 ∧ int64Max / n < dim) (.runtimeError
        ("SafeTensors: tensor '" ++ asString name ++ "' element count overflows int64"))
      checkedNumel name (n * dim) shape

def loadTensor (data : List UInt8) (e : Text × TensorMeta) : Except Exn (Text × LoadedTensor) := do
  let (name, info) := e
  throwIf (info.dataEnd < info.dataStart) (hasNegativeRegion name)
  let dataSize := info.dataEnd - info.dataStart
  throwIf (data.length < info.dataEnd) (.runtimeError
    ("SafeTensors: tensor '" ++ asString name ++ "' data extends past end of file"))
  let n ← checkedNumel name 1 info.shape
  throwIf (n ≠ 0 ∧ 18446744073709551615 / n.toNat < dtypeSize info.dtype) (.runtimeError
    ("SafeTensors: tensor '" ++ asString name ++ "' byte size overflows size_t"))
  let expectedSize := n.toNat * dtypeSize info.dtype
  throwIf (dataSize ≠ expectedSize) (.runtimeError
    ("SafeTensors: tensor '" ++ asString name ++ "' data size mismatch (header: " ++
      toString dataSize ++ ", expected: " ++ toString expectedSize ++ ")"))
  let t ← TensorImpl.allocate 0 info.shape info.dtype
  pure (name, ⟨t, (data.drop info.dataStart).take dataSize⟩)

/-- The longest header that is read. -/
def maxHeaderSize : ℕ := 100 * 1024 * 1024

def load (file : List UInt8) (path : String) : Except Exn (List (Text × LoadedTensor)) := do
  throwIf (file.length < 8) (.runtimeError ("SafeTensors: file too small: " ++ path))
  let headerSize := ofLeBytes (file.take 8)
  throwIf (maxHeaderSize < headerSize) (.runtimeError
    ("SafeTensors: header too large (" ++ toString headerSize ++ " bytes)"))
  throwIf (file.length < 8 + headerSize) (.runtimeError
    ("SafeTensors: file truncated (header claims " ++ toString headerSize ++
      " bytes but file is only " ++ toString file.length ++ " bytes)"))
  let metas ← parseHeaderJson ((file.drop 8).take headerSize)
  let data := (file.drop 8).drop headerSize
  checkRegions metas data.length
  metas.mapM (loadTensor data)

end SafeTensors

end Tenzor.Nn
