import Tenzor.Io.StateDicts
import Tenzor.Io.ZipArchive

/-!
# Unpickling with unchecked accesses

The stack machine as its code goes: a cursor into the bytes of the program, a stack whose last
element is looked at and removed, and arguments at their positions. Each access is a fault when it
leaves what it is into, so that only the checks before it prevent that.

## Implementation notes

The top of the stack is the head of the list. The rounds of loops are bounded, and one more than
the bound is a fault, too.
-/

namespace Tenzor.TorchPickle.Raw

open Wrap64 Scanner Tenzor.Lite Unchecked
open Metered (Fault)
open Cursor (words)

section Tensors

variable (archive : Archive) (archivePrefix : Text)

def storageEntry (storageKey : Text) : Access Text :=
  if archive.hasEntry (archivePrefix ++ storageKey) then pure (archivePrefix ++ storageKey)
  else if archive.hasEntry storageKey then pure storageKey
  else do
    let full := archive.findSuffix (47 :: storageKey)
    thrownIf (full = [])
      (.runtimeError ("torch_pickle: storage entry not found: " ++ asString storageKey))
    pure full

/-- The strides are row-major, from the last axis down to the first. -/
def checkStrides (shape stride : List Int) : ℕ → Int → Access Unit
  | 0, _ => pure ()
  | i + 1, expected => do
      let s ← item stride i
      thrownIf (s ≠ expected) (.runtimeError
        ("torch_pickle: non-contiguous stride in saved tensor (stride[" ++ toString i ++ "] = " ++
          toString s ++ ", expected " ++ toString expected ++
          "). Only row-major contiguous tensors are supported in this loader."))
      let dim ← item shape i
      checkStrides shape stride i (wrap64 (expected * dim))

/-- No strides at all are not checked. -/
def checkStride (shape stride : List Int) : Access Unit :=
  if stride = [] then pure () else checkStrides shape stride shape.length 1

/-- Bytes of the file are copied to the start of a new storage. -/
def memcpy (t : TensorImpl) (start n : ℕ) : Access LoadedTensor := do
  let data ← slice archive.file.bytes start n
  if t.storage.sizeBytes < n then .error .outOfBounds
  else pure ⟨t, data⟩

def buildTensorFromStorage (storageId : ℕ) (r : Rebuild) : Access LoadedTensor := do
  let full ← storageEntry archive archivePrefix r.storageKey
  let view ← archive.readView full
  thrownIf (r.storageOffset < 0) (.runtimeError "torch_pickle: negative storage_offset")
  let numel ← within (r.shape.foldlM countStep 1)
  let copyBytes := numel.toNat * r.info.elemSize
  let offsetBytes := r.storageOffset.toNat * r.info.elemSize
  thrownIf (18446744073709551616 ≤ copyBytes ∨ 18446744073709551616 ≤ offsetBytes ∨
      18446744073709551616 ≤ offsetBytes + copyBytes)
    (.runtimeError "torch_pickle: storage byte size overflow")
  thrownIf (view.2 < offsetBytes + copyBytes) (.runtimeError
    ("torch_pickle: storage " ++ asString r.storageKey ++ " too small for tensor (needs " ++
      toString (offsetBytes + copyBytes) ++ " bytes, has " ++ toString view.2 ++ ")"))
  thrownIf (r.stride ≠ [] ∧ r.stride.length ≠ r.shape.length) (.runtimeError
    ("torch_pickle: stride rank (" ++ toString r.stride.length ++
      ") does not match shape rank (" ++ toString r.shape.length ++ ") in saved tensor"))
  checkStride r.shape r.stride
  let t ← within (TensorImpl.allocate storageId r.shape r.info.dtype)
  memcpy archive t (view.1 + offsetBytes) copyBytes

end Tensors

structure Unpickler where
  data : List UInt8
  cursor : ℕ
  heap : Ptr → PValue
  next : Ptr
  stack : List Ptr
  memo : ℕ → Option Ptr
  memoNext : ℕ

abbrev Machine := StateT Unpickler Access

def fail {α : Type} (message : String) : Machine α :=
  throw (.thrown (.runtimeError ("torch_pickle: " ++ message)))

def pick {α : Type} (xs : List α) (i : ℕ) : Machine α := liftM (item xs i : Access α)

def readByte : Machine UInt8 := do
  let s ← get
  if s.data.length ≤ s.cursor then fail "unexpected EOF"
  else do
    let b ← pick s.data s.cursor
    set { s with cursor := s.cursor + 1 }
    pure b

/-- The next `n` bytes, or `eof`: `read_into` and `read_string`. -/
def readBytes (eof : String) (n : ℕ) : Machine (List UInt8) := do
  let s ← get
  if s.data.length < n ∨ s.data.length - n < s.cursor then fail eof
  else do
    let bytes ← liftM (slice s.data s.cursor n : Access (List UInt8))
    set { s with cursor := s.cursor + n }
    pure bytes

def readU8 : Machine ℕ := do
  let b ← readByte
  pure b.toNat

def readLe (n : ℕ) : Machine ℕ := do
  let bytes ← readBytes "read past EOF" n
  pure (Wire.ofLeBytes bytes)

def readString (n : ℕ) : Machine Text := readBytes "string read past EOF" n

/-- The rounds of `read_line`, one for each byte of the line. -/
def readLineFrom : ℕ → Text → Machine Text
  | 0, _ => throw .outOfFuel
  | fuel + 1, line => do
      let s ← get
      if s.cursor < s.data.length then do
        let c ← pick s.data s.cursor
        set { s with cursor := s.cursor + 1 }
        if c = 10 then pure line else readLineFrom fuel (line ++ [c])
      else fail "unterminated line"

def readLine : Machine Text := do
  let s ← get
  readLineFrom (s.data.length + 1) []

def pushPtr (p : Ptr) : Machine Unit := modify fun s => { s with stack := p :: s.stack }

def push (v : PValue) : Machine Unit := modify fun s =>
  { s with heap := Function.update s.heap s.next v, next := s.next + 1, stack := s.next :: s.stack }

/-- The last element, of a stack that has one. -/
def back : Machine Ptr := do
  let s ← get
  pick s.stack 0

def popBack : Machine Unit := do
  let s ← get
  match s.stack with
  | [] => throw .outOfBounds
  | _ :: stack => set { s with stack }

def pop : Machine Ptr := do
  let s ← get
  if s.stack = [] then fail "stack underflow"
  else do
    let v ← back
    popBack
    pure v

def top : Machine Ptr := do
  let s ← get
  if s.stack = [] then fail "stack empty"
  else back

def object (p : Ptr) : Machine PValue := do
  let s ← get
  pure (s.heap p)

def store (p : Ptr) (v : PValue) : Machine Unit := modify fun s =>
  { s with heap := Function.update s.heap p v }

/-- The rounds of `pop_to_mark`, up to a mark or the bottom of the stack. -/
def popItems : ℕ → List Ptr → Machine (List Ptr)
  | 0, _ => throw .outOfFuel
  | fuel + 1, items => do
      let s ← get
      if s.stack = [] then pure items
      else do
        let p ← back
        let v ← object p
        match v with
        | .mark => pure items
        | _ => do
            popBack
            popItems fuel (items ++ [p])

def popToMark : Machine (List Ptr) := do
  let s ← get
  let items ← popItems (s.stack.length + 1) []
  let s ← get
  if s.stack = [] then fail "pop_to_mark with no MARK"
  else do
    popBack
    pure items.reverse

def memoize (key : ℕ) : Machine Unit := do
  let p ← top
  modify fun s => { s with memo := Function.update s.memo key (some p) }

def recallMemo (opcode : String) (key : ℕ) : Machine Unit := do
  let s ← get
  match s.memo key with
  | none => fail (opcode ++ " missing memo key " ++ toString key)
  | some p => pushPtr p

def resolvePersistentId (tup : List Ptr) : Machine PValue :=
  let unrecognised : Machine PValue := fail ("unrecognised persistent ID shape (expected " ++
    "('storage', dtype, key, device, numel))")
  if h : tup.length < 5 then unrecognised
  else do
    let first ← pick tup 0
    let v ← object first
    match v with
    | .string s =>
      if s = ascii "storage" then pure (.persistentId ⟨tup, Nat.not_lt.mp h⟩) else unrecognised
    | _ => unrecognised

def toIntVec (p : Ptr) : Machine (List Int) := do
  let v ← object p
  let seq ← match v with
    | .tuple seq => pure seq
    | .list seq => pure seq
    | _ => fail "expected tuple/list for size or stride"
  seq.mapM fun p => do
    let v ← object p
    match v with
    | .int i => pure i
    | _ => fail "size/stride entry must be int"

def rebuildArgs (fnName : Text) (args : List Ptr) : Machine Rebuild :=
  if args.length < 4 then
    fail (asString fnName ++ " needs at least 4 args, got " ++ toString args.length)
  else do
    let storage ← pick args 0
    let storage ← object storage
    match storage with
    | .persistentId pid => do
        let dtype ← pick pid.items 1
        let dtype ← object dtype
        let info ← match dtype with
          | .global g => liftM (within (torchStorageNameToDtype g))
          | _ => fail "storage dtype slot must be a GLOBAL ref"
        let key ← pick pid.items 2
        let key ← object key
        let storageKey ← match key with
          | .string s => pure s
          | _ => fail "storage key must be a string"
        let offset ← pick args 1
        let offset ← object offset
        let storageOffset ← match offset with
          | .int i => pure i
          | _ => fail "storage_offset must be int"
        let size ← pick args 2
        let shape ← toIntVec size
        let stride ← pick args 3
        let stride ← toIntVec stride
        pure ⟨storageKey, info, storageOffset, shape, stride⟩
    | _ => fail (asString fnName ++ " arg 0 must be a persistent storage ID")

section Program

variable (archive : Archive) (archivePrefix : Text)

def pushRebuilt (fnName : Text) (args : List Ptr) : Machine Unit := do
  let source ← rebuildArgs fnName args
  let s ← get
  let tensor ← liftM (buildTensorFromStorage archive archivePrefix s.next source)
  push (.tensorObj source tensor)

def rebuildFromType (outer : List Ptr) : Machine Unit :=
  if outer.length < 3 then
    fail ("_rebuild_from_type_v2 needs (func, new_type, args, [state]), got " ++
      toString outer.length)
  else do
    let fn ← pick outer 0
    let fn ← object fn
    match fn with
    | .global innerFn => do
        let inner ← pick outer 2
        let inner ← object inner
        match inner with
        | .tuple seq => pushRebuilt archive archivePrefix innerFn.name seq
        | .list seq => pushRebuilt archive archivePrefix innerFn.name seq
        | _ => fail "_rebuild_from_type_v2 arg 2 must be the nested rebuild-args tuple"
    | _ => fail "_rebuild_from_type_v2 arg 0 must be a GLOBAL callable"

def reduceTo (g : GlobalRef) (args : Ptr) (seq : Option (List Ptr)) : Machine Unit :=
  match seq with
  | some seq =>
    if g = ⟨ascii "torch._tensor", ascii "_rebuild_from_type_v2"⟩ then
      rebuildFromType archive archivePrefix seq
    else if isRebuildTensor g then pushRebuilt archive archivePrefix g.name seq
    else if isDict g then push (.dict [])
    else push (.reduceCall g seq)
  | none =>
    if isDict g then push (.dict [])
    else push (.reduceCall g [args])

def doReduce : Machine Unit := do
  let args ← pop
  let callable ← pop
  let callable ← object callable
  match callable with
  | .global g => do
      let v ← object args
      reduceTo archive archivePrefix g args (match v with
        | .tuple seq => some seq
        | _ => none)
  | _ => fail "REDUCE expects a GLOBAL callable on the stack"

/-- The highest bit of the last byte, if there is one. -/
def isNegative (buf : List UInt8) : Access Bool :=
  if 0 < buf.length then do
    let b ← item buf (buf.length - 1)
    pure (decide (128 ≤ b.toNat))
  else pure false

/-- The bytes above the eighth repeat the sign, which the eighth byte has, too. -/
def checkWide (opcode : String) (buf : List UInt8) (negative : Bool) : Access Unit :=
  if 8 < buf.length then do
    let fill : UInt8 := if negative then 255 else 0
    (List.range' 8 (buf.length - 8)).forM fun i => do
      let b ← item buf i
      rejectIf (b ≠ fill) (opcode ++ " integer too large for int64_t")
    let b ← item buf 7
    rejectIf (negative ≠ decide (128 ≤ b.toNat)) (opcode ++ " integer too large for int64_t")
  else pure ()

/-- A signed little-endian integer, if 64 bits hold it. -/
def longValue (opcode : String) (buf : List UInt8) : Access Int := do
  let negative ← isNegative buf
  checkWide opcode buf negative
  let low ← (List.range (min buf.length 8)).mapM (item buf)
  let value : Int := Wire.ofLeBytes low
  pure (wrap64 (if negative ∧ buf.length < 8 then value - 256 ^ buf.length else value))

/-- The keys and the values that follow each other. -/
def pairs (items : List Ptr) : Access (List (Ptr × Ptr)) :=
  (List.range ((items.length + 1) / 2)).mapM fun k => do
    let key ← item items (2 * k)
    let value ← item items (2 * k + 1)
    pure (key, value)

def addEntries (opcode : String) (entries : Access (List (Ptr × Ptr))) : Machine Unit := do
  let d ← top
  let v ← object d
  match v with
  | .dict old => do
      let entries ← liftM entries
      store d (.dict (old ++ entries))
  | _ => fail (opcode ++ " target is not a dict")

def addItems (opcode : String) (items : List Ptr) : Machine Unit := do
  let lst ← top
  let v ← object lst
  match v with
  | .list old => store lst (.list (old ++ items))
  | _ => fail (opcode ++ " target is not a list")

def pushString (size : Machine ℕ) : Machine Unit := do
  let n ← size
  let s ← readString n
  push (.string s)

def pushBytes (size : Machine ℕ) : Machine Unit := do
  let n ← size
  let s ← readString n
  push (.bytes s)

/-- The bytes of a long integer, whose length is compared with what is left before. -/
def readLong4 (n : ℕ) : Machine (List UInt8) := do
  let s ← get
  if (s.data.length + words - s.cursor) % words < n then fail "LONG4 length past EOF"
  else readBytes "read past EOF" n

def execute : Opcode → Machine Unit
  | .stop => pure ()
  | .proto => do
      let _ ← readByte
  | .frame => do
      let _ ← readLe 8
  | .mark => push .mark
  | .pushNone => push .none
  | .newTrue => push (.bool true)
  | .newFalse => push (.bool false)
  | .binInt1 => do
      let n ← readU8
      push (.int n)
  | .binInt2 => do
      let n ← readLe 2
      push (.int n)
  | .binInt => do
      let n ← readLe 4
      push (.int (Int.bmod n 4294967296))
  | .long1 => do
      let n ← readU8
      let buf ← readBytes "read past EOF" n
      let value ← liftM (longValue "LONG1" buf)
      push (.int value)
  | .long4 => do
      let n ← readLe 4
      let buf ← readLong4 n
      let value ← liftM (longValue "LONG4" buf)
      push (.int value)
  | .binFloat => do
      let bits ← readBytes "read past EOF" 8
      push (.float bits)
  | .binUnicode => pushString (readLe 4)
  | .shortBinUnicode => pushString readU8
  | .binUnicode8 => pushString (readLe 8)
  | .binString => pushBytes (readLe 4)
  | .shortBinString => pushBytes readU8
  | .binBytes => pushBytes (readLe 4)
  | .shortBinBytes => pushBytes readU8
  | .binBytes8 => pushBytes (readLe 8)
  | .emptyDict => push (.dict [])
  | .emptyList => push (.list [])
  | .emptyTuple => push (.tuple [])
  | .tuple1 => do
      let a ← pop
      push (.tuple [a])
  | .tuple2 => do
      let b ← pop
      let a ← pop
      push (.tuple [a, b])
  | .tuple3 => do
      let c ← pop
      let b ← pop
      let a ← pop
      push (.tuple [a, b, c])
  | .tuple => do
      let items ← popToMark
      push (.tuple items)
  | .list => do
      let items ← popToMark
      push (.list items)
  | .binPut => do
      let k ← readU8
      memoize k
  | .longBinPut => do
      let k ← readLe 4
      memoize k
  | .binGet => do
      let k ← readU8
      recallMemo "BINGET" k
  | .longBinGet => do
      let k ← readLe 4
      recallMemo "LONG_BINGET" k
  | .memoize => do
      let s ← get
      memoize s.memoNext
      modify fun s => { s with memoNext := s.memoNext + 1 }
  | .setItem => do
      let value ← pop
      let key ← pop
      addEntries "SETITEM" (pure [(key, value)])
  | .setItems => do
      let items ← popToMark
      if items.length % 2 ≠ 0 then fail "SETITEMS expects even number of items"
      else addEntries "SETITEMS" (pairs items)
  | .append => do
      let v ← pop
      addItems "APPEND" [v]
  | .appends => do
      let items ← popToMark
      addItems "APPENDS" items
  | .pushGlobal => do
      let moduleName ← readLine
      let name ← readLine
      push (.global ⟨moduleName, name⟩)
  | .stackGlobal => do
      let name ← pop
      let moduleName ← pop
      let name ← object name
      let moduleName ← object moduleName
      match name, moduleName with
      | .string name, .string moduleName => push (.global ⟨moduleName, name⟩)
      | _, _ => fail "STACK_GLOBAL expects two strings"
  | .binPersId => do
      let tup ← pop
      let v ← object tup
      match v with
      | .tuple seq => do
          let pid ← resolvePersistentId seq
          push pid
      | _ => fail "BINPERSID expects a tuple on stack"
  | .reduce => doReduce archive archivePrefix
  | .build => do
      let _ ← pop
  | .emptySet => push (.list [])

def handleOp (op : UInt8) : Machine Bool :=
  match opcodes.find? fun e => e.1 = op with
  | some e =>
    if e.2 = .stop then pure true
    else do
      execute archive archivePrefix e.2
      pure false
  | none => fail ("unsupported pickle opcode 0x" ++
      String.ofList [hexDigit (op.toNat / 16), hexDigit (op.toNat % 16)])

/-- The rounds of `load`, one for each byte and one that finds no byte. -/
def run : ℕ → Machine Ptr
  | 0 => throw .outOfFuel
  | fuel + 1 => do
      let s ← get
      if s.cursor < s.data.length then do
        let op ← readByte
        let stop ← handleOp archive archivePrefix op
        if stop then do
          let s ← get
          if s.stack = [] then fail "STOP with empty stack"
          else back
        else run fuel
      else fail "pickle stream ended without STOP"

def start (bytes : List UInt8) : Unpickler where
  data := bytes
  cursor := 0
  heap _ := .none
  next := 0
  stack := []
  memo _ := none
  memoNext := 0

def load (bytes : List UInt8) : Access (Ptr × Unpickler) :=
  run archive archivePrefix (bytes.length + 1) (start bytes)

end Program

def pickleName (archive : Archive) (path : String) : Access Text := do
  let found := archive.findSuffix (ascii "/data.pkl")
  let name := if found = [] ∧ archive.hasEntry (ascii "data.pkl") then ascii "data.pkl" else found
  rejectIf (name = []) ("no `data.pkl` entry in archive — not a recognised torch.save layout. " ++
    "File: " ++ path)
  pure name

/-- `load_torch_pickle`, with the order in which the table of the archive is gone through. -/
def loadTorchPickle (order : IterationOrder) (file : File) (path : String) :
    Access (List (Text × LoadedTensor)) := do
  let archive ← openArchive order file path
  let name ← pickleName archive path
  let bytes ← archive.read name
  let (root, s) ← load archive (prefixOf name) bytes
  within (collect s.heap root)

end Tenzor.TorchPickle.Raw
