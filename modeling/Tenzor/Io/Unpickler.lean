import Tenzor.Core.TensorBytes
import Tenzor.Lib.Scanner
import Tenzor.Lib.Transitions
import Tenzor.Lite.ModelFormat

/-!
# PyTorch checkpoints

A checkpoint is an archive with a pickle program and the bytes of the storages. The program runs
on a stack machine that builds objects; calls that rebuild a tensor take its bytes from the archive
at once.

## Implementation notes

Objects are in a heap, since a memo and containers share them, and what a pointer refers to is an
index of it. An archive gives, in the order of its iteration, the name of each entry and its bytes
or what reading it throws. `links` is history: the arguments of the call that made an object and
the states that were applied to it. What a tensor was rebuilt from is kept with it. Floating-point
numbers are their bits.
-/

namespace Tenzor.TorchPickle

open Throwing Wrap64 Scanner Tenzor.Lite

structure ZipReader where
  entries : List (Text × Except Exn (List UInt8))

namespace ZipReader

variable (zip : ZipReader)

def hasEntry (name : Text) : Bool := zip.entries.any (·.1 = name)

/-- The first entry whose name ends so, or the empty name. -/
def findSuffix (suffix : Text) : Text :=
  ((zip.entries.find? fun e => suffix.isSuffixOf e.1).map Prod.fst).getD []

def read (name : Text) : Except Exn (List UInt8) :=
  match zip.entries.find? (·.1 = name) with
  | some e => e.2
  | none => throw (.runtimeError ("torch_pickle: archive entry not found: " ++ asString name))

end ZipReader

abbrev Ptr := ℕ

structure GlobalRef where
  moduleName : Text
  name : Text
  deriving DecidableEq

structure PersistentId where
  items : List Ptr
  size : 5 ≤ items.length

structure TorchStorageInfo where
  dtype : DType
  elemSize : ℕ
  size_eq : elemSize = dtypeSize dtype

/-- What a call that rebuilds a tensor says about it. -/
structure Rebuild where
  storageKey : Text
  info : TorchStorageInfo
  storageOffset : Int
  shape : List Int
  stride : List Int

inductive PValue
  | none
  | bool (b : Bool)
  | int (i : Int)
  | float (bits : List UInt8)
  | string (s : Text)
  | bytes (s : Text)
  | tuple (seq : List Ptr)
  | list (seq : List Ptr)
  | dict (entries : List (Ptr × Ptr))
  | global (g : GlobalRef)
  | persistentId (pid : PersistentId)
  | reduceCall (func : GlobalRef) (args : List Ptr)
  | tensorObj (source : Rebuild) (tensor : LoadedTensor)
  | mark

def torchStorages : List (Text × TorchStorageInfo) :=
  [(ascii "FloatStorage", ⟨.float32, 4, rfl⟩), (ascii "DoubleStorage", ⟨.float64, 8, rfl⟩),
    (ascii "HalfStorage", ⟨.float16, 2, rfl⟩), (ascii "BFloat16Storage", ⟨.bfloat16, 2, rfl⟩),
    (ascii "LongStorage", ⟨.int64, 8, rfl⟩), (ascii "IntStorage", ⟨.int32, 4, rfl⟩),
    (ascii "ShortStorage", ⟨.int16, 2, rfl⟩), (ascii "CharStorage", ⟨.int8, 1, rfl⟩),
    (ascii "ByteStorage", ⟨.uint8, 1, rfl⟩), (ascii "BoolStorage", ⟨.bool, 1, rfl⟩),
    (ascii "ComplexFloatStorage", ⟨.complex64, 8, rfl⟩),
    (ascii "ComplexDoubleStorage", ⟨.complex128, 16, rfl⟩)]

def torchStorageNameToDtype (g : GlobalRef) : Except Exn TorchStorageInfo := do
  throwIf (g.moduleName ≠ ascii "torch") (.runtimeError
    ("torch_pickle: persistent ID dtype must be torch.*Storage, got " ++ asString g.moduleName ++
      "." ++ asString g.name))
  match torchStorages.find? fun e => e.1 = g.name with
  | some e => pure e.2
  | none => throw (.runtimeError ("torch_pickle: unsupported torch storage dtype: torch." ++
      asString g.name ++ ". Supported storage types: FloatStorage (Float32), " ++
      "DoubleStorage (Float64), HalfStorage (Float16), " ++
      "BFloat16Storage (BFloat16), LongStorage (Int64), " ++
      "IntStorage (Int32), ShortStorage (Int16), CharStorage (Int8), " ++
      "ByteStorage (UInt8), BoolStorage (Bool), " ++
      "ComplexFloatStorage (Complex64), ComplexDoubleStorage (Complex128). " ++
      "Quantized storages (QInt8Storage / QUInt8Storage) are not yet " ++
      "implemented in the native pickle reader; re-save those tensors as " ++
      "safetensors (`model.safetensors`) and load through " ++
      "ModelHub::load_pretrained_weights instead."))

/-- The entry of a storage: with the prefix, without it, or by its last part. -/
def storageEntry (zip : ZipReader) (archivePrefix storageKey : Text) : Except Exn Text :=
  if zip.hasEntry (archivePrefix ++ storageKey) then pure (archivePrefix ++ storageKey)
  else if zip.hasEntry storageKey then pure storageKey
  else do
    let full := zip.findSuffix (47 :: storageKey)
    throwIf (full = [])
      (.runtimeError ("torch_pickle: storage entry not found: " ++ asString storageKey))
    pure full

def countStep (n d : Int) : Except Exn Int := do
  throwIf (d < 0) (.runtimeError "torch_pickle: negative tensor dimension")
  throwIf (¬ InInt64 (n * d))
    (.runtimeError "torch_pickle: tensor element count overflows int64")
  pure (n * d)

/-- The strides are row-major, from the last axis, which `i` counts up to; the stride that is
expected next. -/
def checkStrides (i : ℕ) : List (Int × Int) → Except Exn Int
  | [] => pure 1
  | (dim, stride) :: axes => do
      let expected ← checkStrides (i + 1) axes
      throwIf (stride ≠ expected) (.runtimeError
        ("torch_pickle: non-contiguous stride in saved tensor (stride[" ++ toString i ++ "] = " ++
          toString stride ++ ", expected " ++ toString expected ++
          "). Only row-major contiguous tensors are supported in this loader."))
      pure (wrap64 (expected * dim))

/-- `build_tensor_from_storage`, on a storage object of its own. -/
def buildTensorFromStorage (zip : ZipReader) (archivePrefix : Text) (storageId : ℕ)
    (r : Rebuild) : Except Exn LoadedTensor := do
  let full ← storageEntry zip archivePrefix r.storageKey
  let view ← zip.read full
  throwIf (r.storageOffset < 0) (.runtimeError "torch_pickle: negative storage_offset")
  let numel ← r.shape.foldlM countStep 1
  let copyBytes := numel.toNat * r.info.elemSize
  let offsetBytes := r.storageOffset.toNat * r.info.elemSize
  throwIf (18446744073709551616 ≤ copyBytes ∨ 18446744073709551616 ≤ offsetBytes ∨
      18446744073709551616 ≤ offsetBytes + copyBytes)
    (.runtimeError "torch_pickle: storage byte size overflow")
  throwIf (view.length < offsetBytes + copyBytes) (.runtimeError
    ("torch_pickle: storage " ++ asString r.storageKey ++ " too small for tensor (needs " ++
      toString (offsetBytes + copyBytes) ++ " bytes, has " ++ toString view.length ++ ")"))
  throwIf (r.stride ≠ [] ∧ r.stride.length ≠ r.shape.length) (.runtimeError
    ("torch_pickle: stride rank (" ++ toString r.stride.length ++
      ") does not match shape rank (" ++ toString r.shape.length ++ ") in saved tensor"))
  let _ ← checkStrides 0 (if r.stride = [] then [] else r.shape.zip r.stride)
  let t ← TensorImpl.allocate storageId r.shape r.info.dtype
  pure ⟨t, (view.drop offsetBytes).take copyBytes⟩

/-! ## The stack machine -/

/-- The top of the stack is the head of the list. -/
structure Unpickler where
  rest : List UInt8
  heap : Ptr → PValue
  next : Ptr
  stack : List Ptr
  memo : ℕ → Option Ptr
  memoNext : ℕ
  links : Ptr → List Ptr

abbrev Machine := StateT Unpickler (Except Exn)

def fail {α : Type} (message : String) : Machine α :=
  throw (.runtimeError ("torch_pickle: " ++ message))

def readByte : Machine UInt8 := do
  let s ← get
  match s.rest with
  | [] => fail "unexpected EOF"
  | b :: rest => do
      set { s with rest }
      pure b

/-- The next `n` bytes, or `eof`. -/
def readBytes (eof : String) (n : ℕ) : Machine (List UInt8) := do
  let s ← get
  if s.rest.length < n then fail eof
  else do
    set { s with rest := s.rest.drop n }
    pure (s.rest.take n)

def readU8 : Machine ℕ := do
  let b ← readByte
  pure b.toNat

/-- A little-endian word of `n` bytes. -/
def readLe (n : ℕ) : Machine ℕ := do
  let bytes ← readBytes "read past EOF" n
  pure (Wire.ofLeBytes bytes)

def readString (n : ℕ) : Machine Text := readBytes "string read past EOF" n

def readLine : Machine Text := do
  let s ← get
  let line := s.rest.takeWhile (· ≠ 10)
  match s.rest.dropWhile (· ≠ 10) with
  | [] => fail "unterminated line"
  | _ :: rest => do
      set { s with rest }
      pure line

def pushPtr (p : Ptr) : Machine Unit := modify fun s => { s with stack := p :: s.stack }

/-- A new object. -/
def push (v : PValue) : Machine Unit := modify fun s =>
  { s with heap := Function.update s.heap s.next v, next := s.next + 1, stack := s.next :: s.stack }

def pop : Machine Ptr := do
  let s ← get
  match s.stack with
  | [] => fail "stack underflow"
  | p :: stack => do
      set { s with stack }
      pure p

def top : Machine Ptr := do
  let s ← get
  match s.stack with
  | [] => fail "stack empty"
  | p :: _ => pure p

def object (p : Ptr) : Machine PValue := do
  let s ← get
  pure (s.heap p)

/-- An object is changed in place. -/
def store (p : Ptr) (v : PValue) : Machine Unit := modify fun s =>
  { s with heap := Function.update s.heap p v }

/-- The objects above the topmost mark, the topmost first, and those below it. -/
def splitAtMark (heap : Ptr → PValue) : List Ptr → Option (List Ptr × List Ptr)
  | [] => none
  | p :: stack =>
    match heap p with
    | .mark => some ([], stack)
    | _ => (splitAtMark heap stack).map fun r => (p :: r.1, r.2)

def popToMark : Machine (List Ptr) := do
  let s ← get
  match splitAtMark s.heap s.stack with
  | none => fail "pop_to_mark with no MARK"
  | some (items, stack) => do
      set { s with stack }
      pure items.reverse

/-- The object that is made next comes from these. -/
def linkNext (ps : List Ptr) : Machine Unit := modify fun s =>
  { s with links := Function.update s.links s.next ps }

/-- A state is applied to the object on the top of the stack. -/
def linkTop (state : Ptr) : Machine Unit := modify fun s =>
  match s.stack with
  | [] => s
  | p :: _ => { s with links := Function.update s.links p (s.links p ++ [state]) }

def memoize (key : ℕ) : Machine Unit := do
  let p ← top
  modify fun s => { s with memo := Function.update s.memo key (some p) }

def recallMemo (opcode : String) (key : ℕ) : Machine Unit := do
  let s ← get
  match s.memo key with
  | none => fail (opcode ++ " missing memo key " ++ toString key)
  | some p => pushPtr p

def resolvePersistentId (items : List Ptr) : Machine PValue := do
  let first ← object (items.headD 0)
  let named := match first with
    | .string s => s = ascii "storage"
    | _ => false
  if h : 5 ≤ items.length ∧ named = true then pure (.persistentId ⟨items, h.1⟩)
  else fail ("unrecognised persistent ID shape (expected " ++
    "('storage', dtype, key, device, numel))")

def toIntVec (p : Ptr) : Machine (List Int) := do
  let v ← object p
  let seq ← match v with
    | .tuple seq => pure seq
    | .list seq => pure seq
    | _ => fail "expected tuple/list for size or stride"
  seq.mapM fun p => do
    let v ← object p
    match v with
    | .int i => pure i
    | _ => fail "size/stride entry must be int"

/-- What the arguments of a call say about a tensor. -/
def rebuildArgs (fnName : Text) (args : List Ptr) : Machine Rebuild :=
  match args with
  | storage :: offset :: size :: stride :: _ => do
      let storage ← object storage
      match storage with
      | .persistentId pid => do
          let dtype ← object (pid.items.getD 1 0)
          let info ← match dtype with
            | .global g => liftM (torchStorageNameToDtype g)
            | _ => fail "storage dtype slot must be a GLOBAL ref"
          let key ← object (pid.items.getD 2 0)
          let storageKey ← match key with
            | .string s => pure s
            | _ => fail "storage key must be a string"
          let offset ← object offset
          let storageOffset ← match offset with
            | .int i => pure i
            | _ => fail "storage_offset must be int"
          let shape ← toIntVec size
          let stride ← toIntVec stride
          pure ⟨storageKey, info, storageOffset, shape, stride⟩
      | _ => fail (asString fnName ++ " arg 0 must be a persistent storage ID")
  | _ => fail (asString fnName ++ " needs at least 4 args, got " ++ toString args.length)

/-- `materialise_rebuild_tensor`, and the tensor is pushed. -/
def pushRebuilt (zip : ZipReader) (archivePrefix fnName : Text) (args : List Ptr) :
    Machine Unit := do
  let source ← rebuildArgs fnName args
  let s ← get
  let tensor ← liftM (buildTensorFromStorage zip archivePrefix s.next source)
  push (.tensorObj source tensor)

def rebuildFromType (zip : ZipReader) (archivePrefix : Text) (outer : List Ptr) : Machine Unit :=
  match outer with
  | fn :: _ :: inner :: _ => do
      let fn ← object fn
      match fn with
      | .global innerFn => do
          let inner ← object inner
          match inner with
          | .tuple seq => pushRebuilt zip archivePrefix innerFn.name seq
          | .list seq => pushRebuilt zip archivePrefix innerFn.name seq
          | _ => fail "_rebuild_from_type_v2 arg 2 must be the nested rebuild-args tuple"
      | _ => fail "_rebuild_from_type_v2 arg 0 must be a GLOBAL callable"
  | _ => fail ("_rebuild_from_type_v2 needs (func, new_type, args, [state]), got " ++
      toString outer.length)

def isRebuildTensor (g : GlobalRef) : Bool :=
  g = ⟨ascii "torch._utils", ascii "_rebuild_tensor_v2"⟩ ||
    g = ⟨ascii "torch._utils", ascii "_rebuild_tensor"⟩

def isDict (g : GlobalRef) : Bool :=
  g = ⟨ascii "collections", ascii "OrderedDict"⟩ || g = ⟨ascii "__builtin__", ascii "dict"⟩ ||
    g = ⟨ascii "builtins", ascii "dict"⟩

/-- A call whose arguments are a tuple, or something else. -/
def reduceTo (zip : ZipReader) (archivePrefix : Text) (g : GlobalRef) (args : Ptr)
    (seq : Option (List Ptr)) : Machine Unit :=
  match seq with
  | some seq =>
    if g = ⟨ascii "torch._tensor", ascii "_rebuild_from_type_v2"⟩ then
      rebuildFromType zip archivePrefix seq
    else if isRebuildTensor g then pushRebuilt zip archivePrefix g.name seq
    else if isDict g then push (.dict [])
    else push (.reduceCall g seq)
  | none =>
    if isDict g then push (.dict [])
    else push (.reduceCall g [args])

def doReduce (zip : ZipReader) (archivePrefix : Text) : Machine Unit := do
  let args ← pop
  let callable ← pop
  let callable ← object callable
  match callable with
  | .global g => do
      linkNext [args]
      let v ← object args
      reduceTo zip archivePrefix g args (match v with
        | .tuple seq => some seq
        | _ => none)
  | _ => fail "REDUCE expects a GLOBAL callable on the stack"

/-! ## Opcodes -/

inductive Opcode
  | proto | frame | stop | mark | pushNone | newTrue | newFalse | binInt1 | binInt2 | binInt
  | long1 | long4 | binFloat | binUnicode | shortBinUnicode | binUnicode8 | binString
  | shortBinString | binBytes | shortBinBytes | binBytes8 | emptyDict | emptyList | emptyTuple
  | tuple1 | tuple2 | tuple3 | tuple | list | binPut | longBinPut | binGet | longBinGet | memoize
  | setItem | setItems | append | appends | pushGlobal | stackGlobal | binPersId | reduce | build
  | emptySet
  deriving DecidableEq

def opcodes : List (UInt8 × Opcode) :=
  [(0x80, .proto), (0x95, .frame), (46, .stop), (40, .mark), (78, .pushNone), (0x88, .newTrue),
    (0x89, .newFalse), (75, .binInt1), (77, .binInt2), (74, .binInt), (0x8a, .long1),
    (0x8b, .long4), (71, .binFloat), (88, .binUnicode), (0x8c, .shortBinUnicode),
    (0x8d, .binUnicode8), (84, .binString), (85, .shortBinString), (66, .binBytes),
    (67, .shortBinBytes), (0x8e, .binBytes8), (125, .emptyDict), (93, .emptyList),
    (41, .emptyTuple), (0x85, .tuple1), (0x86, .tuple2), (0x87, .tuple3), (116, .tuple),
    (108, .list), (113, .binPut), (114, .longBinPut), (104, .binGet), (106, .longBinGet),
    (0x94, .memoize), (115, .setItem), (117, .setItems), (97, .append), (101, .appends),
    (99, .pushGlobal), (0x93, .stackGlobal), (81, .binPersId), (82, .reduce), (98, .build),
    (0x8f, .emptySet)]

def hexDigit (n : ℕ) : Char := "0123456789abcdef".toList.getD n '0'

/-- A signed little-endian integer, if 64 bits hold it. -/
def longValue (opcode : String) (buf : List UInt8) : Machine Int := do
  let negative : Bool := 128 ≤ (buf.getLastD 0).toNat
  let fill : UInt8 := if negative then 255 else 0
  if 8 < buf.length ∧ (buf.drop 8).any (· ≠ fill) then
    fail (opcode ++ " integer too large for int64_t")
  else if 8 < buf.length ∧ negative ≠ decide (128 ≤ (buf.getD 7 0).toNat) then
    fail (opcode ++ " integer too large for int64_t")
  else
    let value : Int := Wire.ofLeBytes (buf.take 8)
    pure (wrap64 (if negative ∧ buf.length < 8 then value - 256 ^ buf.length else value))

def pairs : List Ptr → List (Ptr × Ptr)
  | key :: value :: items => (key, value) :: pairs items
  | _ => []

/-- Entries are added to the dictionary on the top of the stack. -/
def addEntries (opcode : String) (entries : List (Ptr × Ptr)) : Machine Unit := do
  let d ← top
  let v ← object d
  match v with
  | .dict old => store d (.dict (old ++ entries))
  | _ => fail (opcode ++ " target is not a dict")

/-- Items are added to the list on the top of the stack. -/
def addItems (opcode : String) (items : List Ptr) : Machine Unit := do
  let lst ← top
  let v ← object lst
  match v with
  | .list old => store lst (.list (old ++ items))
  | _ => fail (opcode ++ " target is not a list")

def pushString (size : Machine ℕ) : Machine Unit := do
  let n ← size
  let s ← readString n
  push (.string s)

def pushBytes (size : Machine ℕ) : Machine Unit := do
  let n ← size
  let s ← readString n
  push (.bytes s)

def execute (zip : ZipReader) (archivePrefix : Text) : Opcode → Machine Unit
  | .stop => pure ()
  | .proto => do
      let _ ← readByte
  | .frame => do
      let _ ← readLe 8
  | .mark => push .mark
  | .pushNone => push .none
  | .newTrue => push (.bool true)
  | .newFalse => push (.bool false)
  | .binInt1 => do
      let n ← readU8
      push (.int n)
  | .binInt2 => do
      let n ← readLe 2
      push (.int n)
  | .binInt => do
      let n ← readLe 4
      push (.int (Int.bmod n 4294967296))
  | .long1 => do
      let n ← readU8
      let buf ← readBytes "read past EOF" n
      let value ← longValue "LONG1" buf
      push (.int value)
  | .long4 => do
      let n ← readLe 4
      let buf ← readBytes "LONG4 length past EOF" n
      let value ← longValue "LONG4" buf
      push (.int value)
  | .binFloat => do
      let bits ← readBytes "read past EOF" 8
      push (.float bits)
  | .binUnicode => pushString (readLe 4)
  | .shortBinUnicode => pushString readU8
  | .binUnicode8 => pushString (readLe 8)
  | .binString => pushBytes (readLe 4)
  | .shortBinString => pushBytes readU8
  | .binBytes => pushBytes (readLe 4)
  | .shortBinBytes => pushBytes readU8
  | .binBytes8 => pushBytes (readLe 8)
  | .emptyDict => push (.dict [])
  | .emptyList => push (.list [])
  | .emptyTuple => push (.tuple [])
  | .tuple1 => do
      let a ← pop
      push (.tuple [a])
  | .tuple2 => do
      let b ← pop
      let a ← pop
      push (.tuple [a, b])
  | .tuple3 => do
      let c ← pop
      let b ← pop
      let a ← pop
      push (.tuple [a, b, c])
  | .tuple => do
      let items ← popToMark
      push (.tuple items)
  | .list => do
      let items ← popToMark
      push (.list items)
  | .binPut => do
      let k ← readU8
      memoize k
  | .longBinPut => do
      let k ← readLe 4
      memoize k
  | .binGet => do
      let k ← readU8
      recallMemo "BINGET" k
  | .longBinGet => do
      let k ← readLe 4
      recallMemo "LONG_BINGET" k
  | .memoize => do
      let s ← get
      memoize s.memoNext
      modify fun s => { s with memoNext := s.memoNext + 1 }
  | .setItem => do
      let value ← pop
      let key ← pop
      addEntries "SETITEM" [(key, value)]
  | .setItems => do
      let items ← popToMark
      if items.length % 2 ≠ 0 then fail "SETITEMS expects even number of items"
      else addEntries "SETITEMS" (pairs items)
  | .append => do
      let v ← pop
      addItems "APPEND" [v]
  | .appends => do
      let items ← popToMark
      addItems "APPENDS" items
  | .pushGlobal => do
      let moduleName ← readLine
      let name ← readLine
      push (.global ⟨moduleName, name⟩)
  | .stackGlobal => do
      let name ← pop
      let moduleName ← pop
      let name ← object name
      let moduleName ← object moduleName
      match name, moduleName with
      | .string name, .string moduleName => push (.global ⟨moduleName, name⟩)
      | _, _ => fail "STACK_GLOBAL expects two strings"
  | .binPersId => do
      let tup ← pop
      let v ← object tup
      match v with
      | .tuple seq => do
          let pid ← resolvePersistentId seq
          push pid
      | _ => fail "BINPERSID expects a tuple on stack"
  | .reduce => doReduce zip archivePrefix
  | .build => do
      let state ← pop
      linkTop state
  | .emptySet => push (.list [])

/-- `handle_op`: whether the program stops. -/
def handleOp (zip : ZipReader) (archivePrefix : Text) (op : UInt8) : Machine Bool :=
  match opcodes.find? fun e => e.1 = op with
  | some e =>
    if e.2 = .stop then pure true
    else do
      execute zip archivePrefix e.2
      pure false
  | none => fail ("unsupported pickle opcode 0x" ++
      String.ofList [hexDigit (op.toNat / 16), hexDigit (op.toNat % 16)])

/-- The rounds of `load`; each takes a byte, so that as many do as there are bytes. -/
def run (zip : ZipReader) (archivePrefix : Text) : ℕ → Machine Ptr
  | 0 => fail "pickle stream ended without STOP"
  | fuel + 1 => do
      let s ← get
      if s.rest = [] then fail "pickle stream ended without STOP"
      else do
        let op ← readByte
        let stop ← handleOp zip archivePrefix op
        if stop then do
          let s ← get
          match s.stack with
          | [] => fail "STOP with empty stack"
          | root :: _ => pure root
        else run zip archivePrefix fuel

def start (bytes : List UInt8) : Unpickler where
  rest := bytes
  heap _ := .none
  next := 0
  stack := []
  memo _ := none
  memoNext := 0
  links _ := []

/-- `load`: the root, and the objects as they are at the end. -/
def load (zip : ZipReader) (archivePrefix : Text) (bytes : List UInt8) :
    Except Exn (Ptr × Unpickler) :=
  run zip archivePrefix bytes.length (start bytes)

end Tenzor.TorchPickle
